import Mathlib.Data.List.Forall2
import ShaderTree.Proofs.Access
import ShaderTree.Proofs.Components

/-! What splitting the arguments of a constructor leaves behind: for each argument a
temporary that a new declaration sets to it, and accesses to the parts of the temporary
in the place of the argument. Nothing else in the workspace changes. The relation
`Splits` says this of finite pieces; the run is shown to end and to be described by it. -/
namespace ShaderTree

structure SymbolTable.Grows (first second : SymbolTable) : Prop where
  pool : first.pool.Extends second.pool
  rest : second = { first with pool := second.pool, supply := second.supply }

namespace SymbolTable.Grows

variable {first second third : SymbolTable}

theorem refl (table : SymbolTable) : Grows table table := ⟨.refl _, rfl⟩

theorem trans (earlier : Grows first second) (later : Grows second third) : Grows first third := by
  refine ⟨earlier.pool.trans later.pool, ?_⟩
  rw [later.rest, earlier.rest]

end SymbolTable.Grows

/-- The pool has a nameless internal variable at `handle`, which may hold values of type `ty`. -/
def IsTemporary (pool : Pool) (handle : SymbolHandle) (ty : Ty) : Prop :=
  ∃ id, pool.get? handle = some
    { rawName := "", id, origin := .toolInternal, kind := .var { ty := ty.withQualifier .temporary } }

theorem IsTemporary.mono {first second : Pool} (temporary : IsTemporary first handle ty)
    (extension : first.Extends second) : IsTemporary second handle ty := by
  obtain ⟨id, found⟩ := temporary
  exact ⟨id, extension _ _ found⟩

theorem SymbolTable.createTemporary_spec (table : SymbolTable) (ty : Ty) :
    ∃ after, table.createTemporary ty = .ok (⟨table.pool.size⟩, after) ∧ table.Grows after ∧
      after.pool.size = table.pool.size + 1 ∧ IsTemporary after.pool ⟨table.pool.size⟩ ty := by
  refine ⟨_, rfl, ⟨.append _ _, rfl⟩, Arena.size_append _, _, Arena.get?_append_new _⟩

namespace Scalarize

def Part.path : Part → List Nat
  | whole => []
  | component index => [index]
  | element column row => [column, row]

def Part.of (ty : Ty) : Part → Ty
  | whole => ty
  | component _ => ty.indexed?.getD ty
  | element _ _ => (ty.indexed?.bind Ty.indexed?).getD ty

def Part.Fits (ty : Ty) : Part → Prop
  | whole => True
  | component index => ty.isVector = true ∧ index < ty.nominalSize
  | element column row => ty.isMatrix = true ∧ column < ty.columns ∧ row < ty.rows

theorem appendPart_access (tree : Tree) {table : SymbolTable} {part : Part}
    (temporary : IsTemporary table.pool handle ty) (fits : part.Fits ty) :
    ∃ term after, appendPart tree table handle part = .ok (term.id, after) ∧
      tree.Builds after [term] ∧ Access handle (ty.withQualifier .temporary) part.path
        (part.of (ty.withQualifier .temporary)) term := by
  obtain ⟨id, found⟩ := temporary
  have used := Tree.appendUse_eq tree found rfl
  have whole : tree.Builds _ _ := Tree.Builds.leaf tree (.symbol (.pool handle) (ty.withQualifier .temporary)) rfl
  have access : Access handle (ty.withQualifier .temporary) [] (ty.withQualifier .temporary) _ :=
    .use ⟨tree.nodes.size⟩
  simp only [appendPart, used, bind, Except.bind]
  cases part with
  | whole => exact ⟨_, _, rfl, whole, access⟩
  | component index =>
    obtain ⟨vector, inside⟩ := fits
    obtain ⟨shape, precision, qualifier, array⟩ := ty
    cases array <;> cases shape <;> simp [Ty.isVector, Ty.isArray] at vector
    obtain ⟨term, after, done, built, selected⟩ := Tree.appendIndexed_access whole access rfl inside
    exact ⟨term, after, done, built, selected⟩
  | element column row =>
    obtain ⟨matrix, left, right⟩ := fits
    obtain ⟨shape, precision, qualifier, array⟩ := ty
    cases array <;> cases shape <;> simp [Ty.isMatrix, Ty.isArray] at matrix
    obtain ⟨line, between, first, builtLine, selectedLine⟩ :=
      Tree.appendIndexed_access whole access rfl left
    obtain ⟨term, after, second, built, selected⟩ :=
      Tree.appendIndexed_access builtLine selectedLine rfl right
    refine ⟨term, after, ?_, built, selected⟩
    change tree.append _ |>.2.appendElement _ column row = _
    exact bind_eq_ok.mpr ⟨_, first, second⟩

def Target.splits (target : Target) (ty : Ty) : Bool :=
  match target with
  | matrices => ty.isMatrix
  | vectors => ty.isVector

/-- The part of a vector or matrix that is its component number `index`, counted column by column. -/
def Part.nth (ty : Ty) (index : Nat) : Part :=
  if ty.isVector then component index else element (index / ty.rows) (index % ty.rows)

/-- The parts taken of an argument: its first components as far as needed, or all of it. -/
def taken (target : Target) (needed : Nat) (ty : Ty) : List Part :=
  if target.splits ty then (List.range (min needed ty.components)).map (Part.nth ty) else [.whole]

theorem parts_eq {ty : Ty} (has : ty.hasComponents = true) (target : Target) (needed : Nat) :
    parts target needed ty = .ok (taken target needed ty, needed - ty.components) := by
  obtain ⟨plain, ⟨kind, shape⟩ | ⟨kind, size, shape⟩ | ⟨columns, rows, shape⟩⟩ :=
    Ty.hasComponents_cases has
  · cases target <;>
      simp [parts, taken, Target.splits, Ty.isScalar, Ty.isVector, Ty.isMatrix, Ty.isArray,
        Ty.components, plain, shape]
  · cases target
    · simp [parts, taken, Target.splits, Ty.isScalar, Ty.isVector, Ty.isMatrix, Ty.isArray,
        Ty.components, Ty.nominalSize, plain, shape]
    · simp [parts, taken, Target.splits, Ty.isScalar, Ty.isVector, Ty.isArray, Ty.components,
        Ty.nominalSize, plain, shape, Part.nth]
      omega
  · cases target
    · simp [parts, taken, Target.splits, Ty.isScalar, Ty.isVector, Ty.isMatrix, Ty.isArray,
        Ty.components, Ty.columns, Ty.rows, plain, shape, Part.nth]
      omega
    · simp [parts, taken, Target.splits, Ty.isScalar, Ty.isVector, Ty.isMatrix, Ty.isArray,
        Ty.components, Ty.columns, Ty.rows, plain, shape]

theorem Part.nth_fits {ty : Ty} {target : Target} (split : target.splits ty = true)
    (inside : index < ty.components) : (Part.nth ty index).Fits ty := by
  obtain ⟨shape, precision, qualifier, array⟩ := ty
  cases array <;> cases shape <;> cases target <;>
    simp [Target.splits, Ty.isVector, Ty.isMatrix, Ty.isArray] at split
  · exact ⟨rfl, inside⟩
  · rename_i columns rows
    have positive : 0 < rows.count := by have := rows.count_bounds; omega
    refine ⟨rfl, ?_, Nat.mod_lt _ positive⟩
    exact (Nat.div_lt_iff_lt_mul positive).mpr inside

theorem taken_fit (target : Target) (needed : Nat) (ty : Ty) :
    ∀ part ∈ taken target needed ty, part.Fits ty := by
  intro part member
  unfold taken at member
  split at member
  · obtain ⟨index, inside, rfl⟩ := List.mem_map.mp member
    exact Part.nth_fits ‹_› (by have := List.mem_range.mp inside; omega)
  · obtain rfl := List.mem_singleton.mp member
    trivial

end Scalarize

def Term.initialization (declaration declarator : NodeId) (handle : SymbolHandle) (ty : Ty)
    (argument : Term) : Term :=
  .mk declaration (.declaration declarator (some argument.id))
    [.mk declarator (.symbol (.pool handle) (ty.withQualifier .temporary)) [], argument]

structure Declared (tree : Tree) (declaration : Term) : Prop where
  found : tree.nodes.get? declaration.id = some declaration.node
  declarator : ∀ part ∈ declaration.parts.head?, part.Of tree

theorem Declared.mono {first second : Tree} (declared : Declared first declaration)
    (extension : first.nodes.Extends second.nodes) : Declared second declaration :=
  ⟨extension _ _ declared.found, fun part member => (declared.declarator part member).mono extension⟩

namespace Scalarize

def Accesses (handle : SymbolHandle) (ty : Ty) : List Part → List Term → Prop :=
  List.Forall₂ fun part use => Access handle (ty.withQualifier .temporary) part.path
    (part.of (ty.withQualifier .temporary)) use

/-- The arguments of a constructor that needs `needed` more components, the declarations of their
temporaries and the accesses that take their places. The temporaries are numbered from `first` on,
and `fresh` has the handles of the new nodes. -/
inductive Splits (pool : Pool) (target : Target) : (needed first : Nat) → (arguments : List Term) →
    (fresh : List NodeId) → (declarations accesses : List Term) → Prop where
  | nil {needed first : Nat} : Splits pool target needed first [] [] [] []
  | cons {needed first : Nat} {argument : Term} {ty : Ty} {declaration declarator : NodeId}
      {uses : List Term} (typed : argument.ty? = some ty) (has : ty.hasComponents = true)
      (positive : 0 < needed) (temporary : IsTemporary pool ⟨first⟩ ty)
      (selected : Accesses ⟨first⟩ ty (taken target needed ty) uses)
      (rest : Splits pool target (needed - ty.components) (first + 1) arguments fresh declarations
        accesses) :
      Splits pool target needed first (argument :: arguments)
        ([declarator, declaration] ++ uses.flatMap Term.ids ++ fresh)
        (.initialization declaration declarator ⟨first⟩ ty argument :: declarations)
        (uses ++ accesses)

structure Splitting (target : Target) (needed : Nat) (arguments : List Term)
    (before after : WalkState Nat) (fresh : List NodeId) (declarations accesses : List Term) : Prop where
  splits : Splits after.space.table.pool target needed before.space.table.pool.size arguments fresh
    declarations accesses
  appends : Tree.Appends before.space.tree after.space.tree fresh
  declared : ∀ declaration ∈ declarations, Declared after.space.tree declaration
  built : ∀ access ∈ accesses, access.Of after.space.tree
  rebuilt : after.rebuilt = before.rebuilt ++ (declarations.map Term.id).toArray
  table : before.space.table.Grows after.space.table
  size : after.space.table.pool.size = before.space.table.pool.size + arguments.length

theorem appendParts_access {ty : Ty} {parts : List Part} (fit : ∀ part ∈ parts, part.Fits ty)
    (state : WalkState Nat) (temporary : IsTemporary state.space.table.pool handle ty) :
    ∃ uses tree, Ends (parts.mapM fun part => (Walk.work (Workspace.onTree fun tree table =>
        appendPart tree table handle part) : ScalarizeM NodeId)) state (uses.map Term.id)
        { state with space := { state.space with tree } } ∧
      state.space.tree.Builds tree uses ∧ Accesses handle ty parts uses := by
  induction parts generalizing state with
  | nil => exact ⟨[], _, .pure _ _, .nil _, .nil⟩
  | cons part parts ih =>
    obtain ⟨use, tree, done, built, selected⟩ :=
      appendPart_access state.space.tree temporary (fit part List.mem_cons_self)
    have first : Ends (Walk.work (Workspace.onTree fun tree table =>
        appendPart tree table handle part) : ScalarizeM NodeId) state use.id
        { state with space := { state.space with tree } } := .work (.onTree done)
    obtain ⟨uses, tree, rest, others, access⟩ :=
      ih (fun part later => fit part (List.mem_cons_of_mem _ later))
        { state with space := { state.space with tree } } temporary
    refine ⟨use :: uses, tree, ?_, built.append others, .cons selected access⟩
    rw [List.mapM_cons]
    exact first.bind (rest.bind (.pure _ _))

theorem appendDeclaration_declares (tree : Tree) {table : SymbolTable} {ty : Ty}
    (temporary : IsTemporary table.pool handle ty) (argument : Term) :
    ∃ declaration declarator after,
      tree.appendDeclaration table handle argument.id = .ok (declaration, after) ∧
      tree.Appends after [declarator, declaration] ∧
      Declared after (.initialization declaration declarator handle ty argument) := by
  obtain ⟨id, found⟩ := temporary
  have used := Tree.appendUse_eq tree found rfl
  have declarator := Tree.Appends.node tree (.symbol (.pool handle) (ty.withQualifier .temporary))
  refine ⟨_, ⟨tree.nodes.size⟩, _, bind_eq_ok.mpr ⟨_, used, rfl⟩, declarator.append (.node _ _), ?_⟩
  refine ⟨Arena.get?_append_new _, ?_⟩
  rintro _ ⟨⟩
  exact (Term.Of.mk (Arena.get?_append_new _) rfl (by simp)).mono (.append _ _)

theorem insertBefore_ends {state : WalkState Nat} {site : Site} (inBlock : site.blockDepth ≠ 0) :
    Ends (Walk.insertBefore site statement) state ()
      { state with rebuilt := state.rebuilt.push statement } := by
  simp only [Walk.insertBefore, inBlock, if_false]
  exact .modify _ _

theorem splitArgument_ends {state : WalkState Nat} {argument : Term} {ty : Ty} {target : Target}
    {site : Site} (inBlock : site.blockDepth ≠ 0)
    (found : state.space.tree.nodes.get? argument.id = some argument.node)
    (typed : argument.ty? = some ty) (has : ty.hasComponents = true) (positive : 0 < needed) :
    ∃ fresh declaration uses after, Ends (splitArgument site target needed argument.id) state
        (uses.map Term.id, needed - ty.components) after ∧
      Splitting target needed [argument] state after fresh [declaration] uses := by
  obtain ⟨table, created, grows, size, temporary⟩ :=
    state.space.table.createTemporary_spec ty
  obtain ⟨declaration, declarator, declared, appended, declares, holds⟩ :=
    appendDeclaration_declares state.space.tree temporary argument
  let between : WalkState Nat :=
    { state with space := { state.space with tree := declared, table }
                 rebuilt := state.rebuilt.push declaration }
  obtain ⟨uses, tree, done, built, selected⟩ :=
    appendParts_access (taken_fit target needed ty) between temporary
  have splits : Splits table.pool target needed _ [argument]
      ([declarator, declaration] ++ uses.flatMap Term.ids ++ [])
      [.initialization declaration declarator _ ty argument] (uses ++ []) :=
    .cons typed has positive temporary selected .nil
  refine ⟨_, _, _, { between with space := { between.space with tree } }, ?_,
    splits, ?_, ?_, ?_, ?_, grows, size⟩
  · simp only [splitArgument, Nat.pos_iff_ne_zero.mp positive, if_false]
    refine .bind (.work (.inspect ((Tree.ty?_eq_ok found).trans (congrArg _ typed)))) ?_
    refine .bind (.work (.onTable created)) ?_
    refine .bind (.work (.onTree appended)) ?_
    refine .bind (insertBefore_ends inBlock) ?_
    refine .bind (.work (.inspect (parts_eq has target needed))) ?_
    rw [List.append_nil]
    exact done.bind (.pure _ _)
  · rw [List.append_nil]
    exact declares.append built.toAppends
  · intro other member
    obtain rfl := List.mem_singleton.mp member
    exact holds.mono built.extension
  · rw [List.append_nil]
    exact built.stand
  · exact Array.push_eq_append

variable {target : Target} {before between after : WalkState Nat}

theorem Splits.mono {first second : Pool} (splits : Splits first target needed low arguments fresh
    declarations accesses) (extension : first.Extends second) :
    Splits second target needed low arguments fresh declarations accesses := by
  induction splits with
  | nil => exact .nil
  | cons typed has positive temporary selected _ ih =>
    exact .cons typed has positive (temporary.mono extension) selected ih

theorem Splits.snoc {argument : Term}
    (one : Splits pool target needed low [argument] fresh declarations accesses)
    (typed : argument.ty? = some ty)
    (others : Splits pool target (needed - ty.components) (low + 1) arguments moreFresh
      moreDeclarations moreAccesses) :
    Splits pool target needed low (argument :: arguments) (fresh ++ moreFresh)
      (declarations ++ moreDeclarations) (accesses ++ moreAccesses) := by
  cases one with
  | cons typed' has positive temporary selected none =>
    cases none
    obtain rfl : ty = _ := Option.some.inj (typed.symm.trans typed')
    simp only [List.append_nil]
    exact .cons typed has positive temporary selected others

theorem Splitting.cons {argument : Term}
    (one : Splitting target needed [argument] before between fresh declarations accesses)
    (typed : argument.ty? = some ty)
    (others : Splitting target (needed - ty.components) arguments between after moreFresh
      moreDeclarations moreAccesses) :
    Splitting target needed (argument :: arguments) before after (fresh ++ moreFresh)
      (declarations ++ moreDeclarations) (accesses ++ moreAccesses) := by
  refine ⟨?_, one.appends.append others.appends, ?_, ?_, ?_, one.table.trans others.table, ?_⟩
  · have rest := others.splits
    rw [one.size, List.length_singleton] at rest
    exact (one.splits.mono others.table.pool).snoc typed rest
  · intro declaration member
    rcases List.mem_append.mp member with old | new
    · exact (one.declared declaration old).mono others.appends.extension
    · exact others.declared declaration new
  · intro access member
    rcases List.mem_append.mp member with old | new
    · exact (one.built access old).mono others.appends.extension
    · exact others.built access new
  · rw [others.rebuilt, one.rebuilt, List.map_append, ← List.append_toArray, Array.append_assoc]
  · rw [others.size, one.size]
    simp only [List.length_cons, List.length_nil]
    omega

/-- Arguments that build a value are split without a fault. -/
theorem splitArguments_ends (target : Target) {site : Site} (inBlock : site.blockDepth ≠ 0) {arguments : List Term}
    {types : List Ty}
    (found : ∀ argument ∈ arguments, before.space.tree.nodes.get? argument.id = some argument.node)
    (typed : arguments.map Term.ty? = types.map some)
    (has : ∀ ty ∈ types, ty.hasComponents = true) (fills : Fills needed (types.map Ty.components)) :
    ∃ fresh declarations accesses after, Ends
        (splitArguments site target needed (arguments.map Term.id)) before (accesses.map Term.id) after ∧
      Splitting target needed arguments before after fresh declarations accesses := by
  induction arguments generalizing needed types before with
  | nil =>
    refine ⟨[], [], [], before, .pure _ _, .nil, .nil _, by simp, by simp, by simp, .refl _, rfl⟩
  | cons argument arguments ih =>
    obtain _ | ⟨ty, types⟩ := types
    · simp at typed
    · simp only [List.map_cons, List.cons.injEq] at typed
      obtain ⟨first, typed⟩ := typed
      obtain ⟨positive, fills⟩ := fills
      obtain ⟨fresh, declaration, uses, between, done, one⟩ := splitArgument_ends inBlock (found argument List.mem_cons_self) first
        (has ty List.mem_cons_self) positive
      obtain ⟨moreFresh, declarations, accesses, after, remaining, others⟩ := ih
        (fun argument later =>
          one.appends.extension _ _ (found argument (List.mem_cons_of_mem _ later)))
        typed (fun ty later => has ty (List.mem_cons_of_mem _ later)) fills
      refine ⟨_, _, _, after, ?_, one.cons first others⟩
      simp only [splitArguments, List.map_cons, List.map_append]
      exact done.bind (remaining.bind (.pure _ _))

end Scalarize
end ShaderTree
