import ShaderTree.Proofs.Constructor

/-! The value that a scalarized constructor builds. `Yields` reads uses of variables and
constant indices off a tree, the scalars of a matrix column by column; from it the first
scalars of the new arguments are those of the old ones, whatever the temporaries hold. -/
namespace ShaderTree

/-- The scalars of the expression at a node that only indexes variables by constants, where `value`
has the scalars of the variables. -/
inductive Yields (tree : Tree) (value : SymbolHandle → List α) : NodeId → List α → Prop where
  | use {id : NodeId} (found : tree.nodes.get? id = some (.symbol (.pool handle) ty)) :
      Yields tree value id (value handle)
  | index {id base index : NodeId} {element : Ty} {scalars : List α}
      (found : tree.nodes.get? id = some (.binary .indexDirect base index element))
      (constant : tree.directIndex? index = .ok (some position)) (inner : Yields tree value base scalars) :
      Yields tree value id ((scalars.drop (position * element.components)).take element.components)

theorem Tree.directIndex_ofIndex {tree : Tree} {id : NodeId}
    (found : tree.nodes.get? id = some (.constant [.ofIndex position] ty)) (small : position < 2 ^ 31) :
    tree.directIndex? id = .ok (some position) := by
  have value := Int32.toInt_ofNat_of_lt small
  have positive : (0 : Int32) ≤ Int32.ofNat position := by
    rw [Int32.le_iff_toInt_le, value]
    exact Int.natCast_nonneg position
  simp only [directIndex?, read, Arena.read_eq_ok.mpr found, bind, Except.bind, Scalar.ofIndex,
    positive, if_true, value, Int.toNat_natCast, pure, Except.pure]

/-- A component of a column is a component of the matrix. -/
theorem slice_slice (scalars : List α) (inside : row < rows) :
    ((((scalars.drop (column * rows)).take rows).drop row).take 1) =
      (scalars.drop (column * rows + row)).take 1 := by
  rw [List.drop_take, List.drop_drop, List.take_take, Nat.min_eq_left (by omega)]

namespace Scalarize

variable {tree : Tree} {value : SymbolHandle → List α}

theorem use_yields {use : Term} (access : Access handle ty [] element use) (stands : use.Of tree) :
    Yields tree value use.id (value handle) := by
  obtain ⟨_, id, rfl⟩ := Access.nil_iff.mp access
  exact .use stands.found

theorem index_yields (value : SymbolHandle → List α) (path : List Nat) (position : Nat) {use : Term}
    (access : Access handle ty (path ++ [position]) element use)
    (stands : use.Of tree) (small : position < 2 ^ 31) :
    ∃ base inner, Access handle ty path base inner ∧ inner.Of tree ∧ base.indexed? = some element ∧
      ∀ scalars : List α, Yields tree value inner.id scalars →
        Yields tree value use.id ((scalars.drop (position * element.components)).take element.components) := by
  obtain ⟨id, constant, base, inner, selected, indexed, _, rfl⟩ := Access.snoc_iff.mp access
  have number : (Term.mk constant (.constant [.ofIndex position] .index) []).Of tree :=
    stands.parts (List.mem_cons_of_mem _ (List.mem_singleton_self _))
  refine ⟨base, inner, selected, stands.parts List.mem_cons_self, indexed, fun scalars yields => ?_⟩
  exact .index stands.found (Tree.directIndex_ofIndex number.found small) yields

theorem nth_yields {ty : Ty} {target : Target} {use : Term} (split : target.splits ty = true)
    (access : Access handle (ty.withQualifier .temporary) (Part.nth ty position).path component use)
    (stands : use.Of tree) (inside : position < ty.components) :
    Yields tree value use.id (((value handle).drop position).take 1) := by
  have scalar := Part.nth_scalar split position
  have few : ty.components ≤ 16 := by
    refine (Ty.components_bounds ?_).2
    cases target <;> simp [Target.splits] at split <;> simp [Ty.hasComponents, split]
  obtain ⟨shape, precision, qualifier, array⟩ := ty
  cases array <;> cases shape <;> cases target <;>
    simp [Target.splits, Ty.isVector, Ty.isMatrix, Ty.isArray] at split
  · obtain ⟨base, inner, plain, standing, indexed, yields⟩ :=
      index_yields value [] position access stands (by omega)
    obtain ⟨rfl, _⟩ := Access.nil_iff.mp plain
    cases indexed
    simpa [Ty.components] using yields _ (use_yields plain standing)
  · rename_i columns rows
    have positive : 0 < rows.count := by have := rows.count_bounds; omega
    have row : position % rows.count < rows.count := Nat.mod_lt _ positive
    have column := Nat.div_le_self position rows.count
    have four := rows.count_bounds
    obtain ⟨line, middle, selected, standing, indexed, yields⟩ :=
      index_yields value [position / rows.count] (position % rows.count) access stands (by omega)
    obtain ⟨base, inner, plain, within, indexed', yields'⟩ :=
      index_yields value [] _ selected standing (by omega)
    obtain ⟨rfl, _⟩ := Access.nil_iff.mp plain
    cases indexed'
    cases indexed
    have whole := yields _ (yields' _ (use_yields plain within))
    have place : position / rows.count * rows.count + position % rows.count = position := by
      rw [Nat.mul_comm]
      exact Nat.div_add_mod position rows.count
    simp only [Ty.components, Nat.mul_one] at whole
    rw [slice_slice _ row, place] at whole
    exact whole

theorem flatMap_slices (scalars : List α) (count : Nat) :
    (List.range count).flatMap (fun index => (scalars.drop index).take 1) = scalars.take count := by
  induction count with
  | zero => simp
  | succ count ih =>
    rw [List.range_succ, List.flatMap_append, ih, List.flatMap_singleton, List.take_add]

/-- The accesses to one argument yield its scalars, as far as needed if it is taken apart. -/
theorem taken_yields {ty : Ty} {target : Target} {uses : List Term}
    (accesses : Accesses handle ty (taken target needed ty) uses) (stand : ∀ use ∈ uses, use.Of tree)
    (length : (value handle).length = ty.components) :
    ∃ scalars, List.Forall₂ (Yields tree value) (uses.map Term.id) scalars ∧
      ∀ rest, (scalars.flatten ++ rest).take needed = (value handle ++ rest).take needed := by
  unfold taken at accesses
  split at accesses
  · rename_i split
    generalize whole : List.range (min needed ty.components) = indices at accesses
    have inside : ∀ index ∈ indices, index < ty.components := by
      intro index member
      rw [← whole, List.mem_range] at member
      omega
    refine ⟨indices.map fun index => ((value handle).drop index).take 1, ?_, ?_⟩
    · clear whole
      induction indices generalizing uses with
      | nil =>
        cases accesses
        exact .nil
      | cons index indices ih =>
        obtain _ | ⟨access, others⟩ := accesses
        refine .cons (nth_yields split access (stand _ List.mem_cons_self) (inside _ List.mem_cons_self)) ?_
        exact ih (fun use later => stand use (List.mem_cons_of_mem _ later)) others
          fun index later => inside index (List.mem_cons_of_mem _ later)
    · intro rest
      have slices := flatMap_slices (value handle) (min needed ty.components)
      rw [whole, List.flatMap_def] at slices
      rw [slices]
      rcases Nat.le_total needed ty.components with few | many
      · rw [Nat.min_eq_left few, List.take_append_of_le_length (by rw [List.length_take]; omega),
          List.take_append_of_le_length (by omega), List.take_take, Nat.min_self]
      · rw [Nat.min_eq_right many, ← length, List.take_length]
  · obtain _ | ⟨access, none⟩ := accesses
    cases none
    refine ⟨[value handle], .cons (use_yields access (stand _ List.mem_cons_self)) .nil, fun rest => ?_⟩
    rw [List.flatten_singleton]

theorem Splits.yields {pool : Pool} (splits : Splits pool target needed first arguments fresh
    declarations accesses) {types : List Ty} (typed : arguments.map Term.ty? = types.map some)
    (stand : ∀ access ∈ accesses, access.Of tree) {originals : List (List α)}
    (values : (List.range' first arguments.length).map (value ⟨·⟩) = originals)
    (lengths : originals.map List.length = types.map Ty.components) :
    ∃ scalars, List.Forall₂ (Yields tree value) (accesses.map Term.id) scalars ∧
      scalars.flatten.take needed = originals.flatten.take needed := by
  induction splits generalizing types originals with
  | nil =>
    obtain rfl : [] = originals := by simpa using values
    exact ⟨[], .nil, rfl⟩
  | cons typed' has positive temporary selected rest ih =>
    subst values
    obtain _ | ⟨type, types⟩ := types
    · simp at typed
    · simp only [List.map_cons, List.cons.injEq, List.length_cons, List.range'_succ] at typed lengths
      obtain ⟨same, typed⟩ := typed
      obtain rfl := Option.some.inj (same.symm.trans typed')
      obtain ⟨scalars, yields, enough⟩ := taken_yields selected
        (fun use member => stand use (List.mem_append_left _ member)) lengths.1
      obtain ⟨others, yieldOthers, enoughOthers⟩ := ih typed
        (fun access later => stand access (List.mem_append_right _ later)) rfl lengths.2
      refine ⟨scalars ++ others, ?_, ?_⟩
      · rw [List.map_append]
        exact List.rel_append yields yieldOthers
      · simp only [List.flatten_append, List.length_cons, List.range'_succ, List.map_cons, List.flatten_cons]
        rw [enough, List.take_append, List.take_append, lengths.1, enoughOthers]

end Scalarize

/-- If the node at `id` is an operation, it indexes by a constant within the bounds of its base, and
has the type of what it selects. -/
def Tree.IndexesWithin (tree : Tree) (id : NodeId) : Prop :=
  ∀ op base index element, tree.read id = .ok (.binary op base index element) →
    op = .indexDirect ∧ ∃ ty position, tree.ty? base = .ok (some ty) ∧
      tree.directIndex? index = .ok (some position) ∧ position < ty.extent ∧ ty.indexed? = some element

theorem Tree.indexesWithin_of_found {tree : Tree} {id : NodeId} (found : tree.nodes.get? id = some node)
    (other : ∀ op base index element, node ≠ .binary op base index element) : tree.IndexesWithin id := by
  intro op base index element read
  have same := (Arena.read_eq_ok.mpr found).symm.trans read
  cases same
  exact absurd rfl (other op base index element)

theorem Ty.indexed_hasComponents {ty selected : Ty} (has : ty.hasComponents = true)
    (indexed : ty.indexed? = some selected) : selected.hasComponents = true ∧ ty.extent ≤ 4 := by
  obtain ⟨shape, precision, qualifier, array⟩ := ty
  cases array <;> cases shape <;>
    simp [hasComponents, isScalar, isVector, isMatrix, isArray, indexed?] at has indexed
  · rename_i size
    subst indexed
    exact ⟨rfl, size.count_bounds.2⟩
  · rename_i columns rows
    subst indexed
    exact ⟨rfl, columns.count_bounds.2⟩

theorem Access.indexesWithin {tree : Tree} (access : Access handle ty path element term)
    (has : ty.hasComponents = true) (stands : term.Of tree) :
    element.hasComponents = true ∧ ∀ id ∈ term.ids, tree.IndexesWithin id := by
  induction access with
  | use id =>
    refine ⟨has, fun other member => ?_⟩
    simp only [Term.ids_mk, List.flatMap_nil, List.mem_singleton] at member
    subst member
    exact Tree.indexesWithin_of_found stands.found (by simp [Term.node])
  | index id constant inner indexed bounded ih =>
    have base := stands.parts List.mem_cons_self
    have number := stands.parts (List.mem_cons_of_mem _ (List.mem_singleton_self _))
    obtain ⟨components, within⟩ := ih base
    obtain ⟨final, four⟩ := Ty.indexed_hasComponents components indexed
    refine ⟨final, fun other member => ?_⟩
    simp only [Term.ids_mk, List.flatMap_cons, List.flatMap_nil, List.append_nil, List.mem_cons,
      List.mem_append, List.not_mem_nil, or_false] at member
    rcases member with rfl | inside | rfl
    · intro op left index result read
      have same := (Arena.read_eq_ok.mpr stands.found).symm.trans read
      cases same
      refine ⟨rfl, _, _, ?_, Tree.directIndex_ofIndex number.found (by omega), bounded, indexed⟩
      exact (Tree.ty?_eq_ok base.found).trans (congrArg _ inner.ty?)
    · exact within other inside
    · exact Tree.indexesWithin_of_found number.found (by simp [Term.node])

namespace Scalarize

theorem Splits.indexesWithin {pool : Pool} {tree : Tree} (splits : Splits pool target needed first arguments
    fresh declarations accesses) (declared : ∀ declaration ∈ declarations, Declared tree declaration)
    (stand : ∀ access ∈ accesses, access.Of tree) : ∀ id ∈ fresh, tree.IndexesWithin id := by
  induction splits with
  | nil => simp
  | cons _ has _ _ selected rest ih =>
    intro id member
    simp only [List.cons_append, List.nil_append, List.mem_cons, List.mem_append] at member
    have one := declared _ List.mem_cons_self
    rcases member with rfl | rfl | own | later
    · refine Tree.indexesWithin_of_found (one.declarator _ rfl).found (by simp [Term.node])
    · refine Tree.indexesWithin_of_found one.found (by simp [Term.node, Term.initialization])
    · obtain ⟨use, inside, inner⟩ := List.mem_flatMap.mp own
      obtain ⟨part, _, access⟩ := selected.of_mem inside
      exact (access.indexesWithin has (stand use (List.mem_append_left _ inside))).2 id inner
    · exact ih (fun declaration later => declared _ (List.mem_cons_of_mem _ later))
        (fun access later => stand _ (List.mem_append_right _ later)) id later

theorem Splits.copies {pool : Pool} {tree : Tree} (splits : Splits pool target needed first pieces fresh
    declarations accesses) (declared : ∀ declaration ∈ declarations, Declared tree declaration)
    {types : List Ty} (typed : pieces.map Term.ty? = types.map some) (k : Nat) {piece : Term} {ty : Ty}
    (place : pieces[k]? = some piece) (type : types[k]? = some ty) :
    ∃ declaration declarator, (declarations.map Term.id)[k]? = some declaration ∧
      tree.read declaration = .ok (.declaration declarator (some piece.id)) ∧
      tree.read declarator = .ok (.symbol (.pool ⟨first + k⟩) (ty.withQualifier .temporary)) ∧
      IsTemporary pool ⟨first + k⟩ ty := by
  induction splits generalizing types k with
  | nil => simp at place
  | cons typed' has positive temporary selected rest ih =>
    obtain _ | ⟨head, types⟩ := types
    · simp at type
    · simp only [List.map_cons, List.cons.injEq] at typed
      obtain ⟨same, typed⟩ := typed
      obtain rfl := Option.some.inj (same.symm.trans typed')
      cases k with
      | zero =>
        obtain rfl := Option.some.inj place
        obtain rfl := Option.some.inj type
        have one := declared _ List.mem_cons_self
        refine ⟨_, _, rfl, Arena.read_eq_ok.mpr one.found, ?_, temporary⟩
        exact Arena.read_eq_ok.mpr (one.declarator _ rfl).found
      | succ k =>
        have found := ih (fun declaration later => declared _ (List.mem_cons_of_mem _ later)) typed k
          place type
        simpa only [Nat.add_assoc, Nat.add_comm 1 k, List.map_cons, List.getElem?_cons_succ] using found

/-- The constructor at `id` of `after` builds what the one of `before` builds. The value of the old
argument number `k` is in the temporary number `k`, which the declaration number `k` sets to it. -/
structure SameValue (before after : Workspace) (id : NodeId) (ty : Ty) (arguments uses : Arguments)
    (declarations : List NodeId) : Prop where
  plain : ty.isArray = false ∧ (ty.isVector = true ∨ ty.isMatrix = true)
  found : after.tree.read id = .ok (.aggregate .construct (uses.map Prod.fst) ty)
  typed : uses.Typed after.tree
  copies : ∀ k argument, arguments[k]? = some argument → ∃ declaration declarator,
    declarations[k]? = some declaration ∧
    after.tree.read declaration = .ok (.declaration declarator (some argument.1)) ∧
    after.tree.read declarator = .ok (.symbol (.pool ⟨before.table.pool.size + k⟩)
      (argument.2.withQualifier .temporary)) ∧
    IsTemporary after.table.pool ⟨before.table.pool.size + k⟩ argument.2
  size : ty.objectSize before.table.pool = .ok ty.components
  values : ∀ {α : Type} (value : SymbolHandle → List α),
    (∀ k argument, arguments[k]? = some argument →
      (value ⟨before.table.pool.size + k⟩).length = argument.2.components) →
    ∃ scalars, List.Forall₂ (Yields after.tree value) (uses.map Prod.fst) scalars ∧
      scalars.flatten.take ty.components = ((List.range arguments.length).flatMap fun k =>
        value ⟨before.table.pool.size + k⟩).take ty.components
  indices : ∀ node, before.tree.nodes.size ≤ node.index → node.index < after.tree.nodes.size →
    after.tree.IndexesWithin node
  kept : ∀ node, node.index < before.tree.nodes.size → node ≠ id →
    after.tree.read node = before.tree.read node
  accepted : checkConstruct after.table.pool id ty uses = .ok ()
  unmatched : ∀ parent, Pattern.selects { mixedConstructor := true } after.tree after.table.pool id
    parent = .ok false

/-- The pieces that stand for arguments whose types are known. -/
theorem exists_pieces {tree : Tree} {id : NodeId} {arguments : Arguments} (typed : arguments.Typed tree)
    (own : tree.ty? id = .ok (some ty)) : ∃ pieces : List Term,
      pieces.map Term.id = arguments.map Prod.fst ∧
      pieces.map Term.ty? = (arguments.map Prod.snd).map some ∧
      ∀ piece ∈ pieces, (if piece.id = id then some (.aggregate .construct [] ty)
        else tree.nodes.get? piece.id) = some piece.node := by
  induction arguments with
  | nil => exact ⟨[], rfl, rfl, by simp⟩
  | cons argument arguments ih =>
    obtain ⟨pieces, ids, types, found⟩ := ih fun argument later => typed argument (List.mem_cons_of_mem _ later)
    have type := typed argument List.mem_cons_self
    by_cases self : argument.1 = id
    · rw [self, own] at type
      refine ⟨.mk argument.1 (.aggregate .construct [] ty) [] :: pieces, ?_, ?_, ?_⟩
      · simp only [List.map_cons, ids, Term.id]
      · simp only [List.map_cons, types, Term.ty?, Term.node, Node.ty?]
        exact congrArg (· :: _) (Except.ok.inj type)
      · exact List.forall_mem_cons.mpr ⟨if_pos self, found⟩
    · obtain ⟨node, read, same⟩ := bind_eq_ok.mp type
      refine ⟨.mk argument.1 node [] :: pieces, ?_, ?_, ?_⟩
      · simp only [List.map_cons, ids, Term.id]
      · simp only [List.map_cons, types]
        exact congrArg (· :: _) (pure_eq_ok.mp same)
      · exact List.forall_mem_cons.mpr ⟨(if_neg self).trans (Arena.read_eq_ok.mp read), found⟩

theorem piece_of_argument {arguments : Arguments} {pieces : List Term} {k : Nat}
    {argument : NodeId × Ty} (ids : pieces.map Term.id = arguments.map Prod.fst)
    (place : arguments[k]? = some argument) :
    ∃ piece : Term, pieces[k]? = some piece ∧ piece.id = argument.1 ∧
      (arguments.map Prod.snd)[k]? = some argument.2 := by
  have id := congrArg (·[k]?) ids
  simp only [List.getElem?_map, place, Option.map_some, Option.map_eq_some_iff] at id
  obtain ⟨piece, at', same⟩ := id
  exact ⟨piece, at', same, by rw [List.getElem?_map, place, Option.map_some]⟩

/-- Scalarizing an accepted constructor ends without a fault, with the declarations of the
temporaries in front of the statement walked, and the constructor builds the same value. -/
theorem constructor_same_value {before : WalkState Nat} {site : Site} {id : NodeId} {ty : Ty}
    {arguments : Arguments} {parent : Option NodeId} (inBlock : site.blockDepth ≠ 0)
    (found : before.space.tree.read id = .ok (.aggregate .construct (arguments.map Prod.fst) ty))
    (typed : arguments.Typed before.space.tree)
    (accepted : checkConstruct before.space.table.pool id ty arguments = .ok ())
    (matched : Pattern.selects { mixedConstructor := true } before.space.tree
      before.space.table.pool id parent = .ok true) :
    ∃ uses declarations after,
      (constructor site id .construct (arguments.map Prod.fst) ty).run.run before = (.ok (), after) ∧
      after.rebuilt = before.rebuilt ++ declarations.toArray ∧
      SameValue before.space after.space id ty arguments uses declarations := by
  have node := Arena.read_eq_ok.mp found
  have mixed : ty.mixes (arguments.map Prod.snd) = true :=
    Except.ok.inj ((Pattern.selects_construct typed node _ parent).symm.trans matched)
  have has := Ty.hasComponents_of_mixes mixed
  obtain ⟨pieces, ids, types, standing⟩ := exists_pieces typed (Tree.ty?_eq_ok node)
  obtain ⟨all, _, _, fills⟩ := Arguments.fills_of_mixes accepted mixed
  have length : pieces.length = arguments.length := by simpa using congrArg List.length ids
  rw [Arguments.sizes_eq] at fills
  obtain ⟨fresh, declarations, accesses, after, done, scalarized⟩ := constructor_ends .construct
    inBlock (Arena.get?_eq_some_lt node) standing types has
    (fun type member => by
      obtain ⟨argument, inside, rfl⟩ := List.mem_map.mp member
      exact all argument inside) fills
  obtain ⟨uses, firsts, seconds, accepts, unmixed⟩ := scalarized.splits.reconstructs types accepted mixed
  have typedUses : uses.Typed after.space.tree :=
    Arguments.typed_of_pieces firsts seconds fun access member => (scalarized.built access member).found
  rw [ids] at done
  have root := scalarized.found
  rw [← firsts] at root
  refine ⟨uses, declarations.map Term.id, after, done, scalarized.rebuilt, ?_⟩
  exact
    { plain := Ty.plain_of_mixes mixed
      found := Arena.read_eq_ok.mpr root
      typed := typedUses
      copies := by
        intro k argument place
        obtain ⟨piece, at', same, type⟩ := piece_of_argument ids place
        rw [← same]
        exact scalarized.splits.copies scalarized.declared types k at' type
      size := Ty.objectSize_eq_components has _
      values := by
        intro α value lengths
        have sizes : ((List.range' before.space.table.pool.size pieces.length).map (value ⟨·⟩)).map
            List.length = (arguments.map Prod.snd).map Ty.components := by
          refine List.ext_getElem (by simp [length]) fun k left right => ?_
          simp only [List.length_map] at right
          simpa using lengths k _ (List.getElem?_eq_getElem right)
        obtain ⟨scalars, yields, same⟩ := scalarized.splits.yields types scalarized.built rfl sizes
        refine ⟨scalars, firsts ▸ yields, same.trans ?_⟩
        rw [List.range'_eq_map_range, length, List.map_map, List.flatMap_def]
        rfl
      indices := fun other old new => scalarized.splits.indexesWithin scalarized.declared
        scalarized.built other ((scalarized.changes.fresh other).mpr ⟨old, new⟩)
      kept := by
        intro other old different
        simp only [Tree.read, Arena.read, scalarized.changes.kept other old (by simpa using different)]
      accepted := accepts
      unmatched := fun parent => (Pattern.selects_construct typedUses root _ parent).trans
        (congrArg _ unmixed) }

/-- A statement `vec4(x, m)` for a float `x` and a 4-by-4 matrix `m`. -/
def mixedVector : Workspace :=
  let matrix : Ty := .matrix .four .four
  let scalar (name : String) (number : Nat) (ty : Ty) : Symbol :=
    { rawName := name, id := ⟨number⟩, origin := .userDefined, kind := .var { ty } }
  { tree :=
      { nodes := ⟨#[.block [⟨3⟩], .symbol (.pool ⟨0⟩) .float, .symbol (.pool ⟨1⟩) matrix,
          .aggregate .construct [⟨1⟩, ⟨2⟩] (.vector .float .four)]⟩
        root := ⟨0⟩ }
    table :=
      { pool := ⟨#[scalar "x" 96 .float, scalar "m" 97 matrix]⟩
        builtIns := {}
        profile := {} } }

theorem constructor_same_value_vec4 : ∃ uses declarations after,
    (constructor { ancestors := [⟨0⟩], blockDepth := 1 } ⟨3⟩ .construct [⟨1⟩, ⟨2⟩]
      (.vector .float .four)).run.run { space := mixedVector, own := 0 } = (.ok (), after) ∧
    after.rebuilt = #[] ++ declarations.toArray ∧
    SameValue mixedVector after.space ⟨3⟩ (.vector .float .four)
      [(⟨1⟩, .float), (⟨2⟩, .matrix .four .four)] uses declarations := by
  refine @constructor_same_value _ _ _ _ [(⟨1⟩, .float), (⟨2⟩, .matrix .four .four)] none ?_ rfl ?_ rfl rfl
  · decide
  · intro argument member
    revert argument
    decide

end Scalarize
end ShaderTree
