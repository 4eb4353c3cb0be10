import ShaderTree.Proofs.Growth
import ShaderTree.Proofs.Rewrites

/-! Scalarization keeps pieces well formed, apart from the scopes of variables: temporaries
are variables of the types that they hold, indices stay inside of what they index, and the
new arguments build what the old ones built. -/
namespace ShaderTree

theorem Node.index?_ofIndex (ty : Ty) (known : (Node.constant [.ofIndex position] ty).index? = some index) :
    index ≤ position := by
  simp only [Node.index?, Scalar.ofIndex, Option.ite_none_right_eq_some, Option.some.injEq] at known
  obtain ⟨positive, rfl⟩ := known
  have value : (Int32.ofNat position).toInt = (position : Int).bmod (2 ^ 32) := Int32.toInt_ofNat'
  have least := Int32.le_iff_toInt_le.mp positive
  rw [value] at least ⊢
  have wrapped : (position : Int).bmod (2 ^ 32) ≤ position := by
    rw [Int.bmod_def]
    split <;> omega
  simp only [Int32.toInt_zero] at least
  omega

theorem SymbolTable.variableType?_temporary {table : SymbolTable} (temporary : IsTemporary table.pool handle ty) :
    table.variableType? (.pool handle) = some (ty.withQualifier .temporary) := by
  obtain ⟨id, found⟩ := temporary
  have resolved : table.resolve (.pool handle) = _ := Arena.read_eq_ok.mpr found
  simp [variableType?, resolved, Except.toOption, Symbol.asVariable?]

theorem Ty.sameShape_withQualifier (ty : Ty) (qualifier : Qualifier) :
    ty.sameShape (ty.withQualifier qualifier) = true := by simp [sameShape, withQualifier]

section
variable {checks : Checks} {table : SymbolTable} {returns : Option Ty} {handle : SymbolHandle} {ty : Ty}

theorem Access.wellFormed {path : List Nat} {element : Ty} {term : Term} (access : Access handle ty path element term)
    (known : table.variableType? (.pool handle) = some ty) :
    WellFormed checks table returns (.expression none) term := by
  induction access with
  | use id =>
    refine .leaf ⟨ty, rfl, by simp⟩ ⟨ty, known, fun _ => ty.sameShape_refl⟩ rfl rfl
  | @index path base element term position id constant inner indexed bounded ih =>
    have number : WellFormed checks table returns (.expression none)
        (.mk constant (.constant [.ofIndex position] .index) []) := by
      refine .leaf ⟨.index, rfl, by simp⟩ (.inr ⟨1, rfl, fun _ => ⟨rfl, ?_⟩⟩) rfl rfl
      intro value member
      obtain rfl := List.mem_singleton.mp member
      rfl
    refine .mk ⟨element, rfl, by simp⟩ ?_ (by simp [Node.writes, BinaryOp.isAssignment]) ?_
    · refine ⟨_, _, base, .index, rfl, inner.ty?, rfl, fun _ => ⟨fun _ index read => ?_, ?_⟩⟩
      · exact Nat.lt_of_le_of_lt (Node.index?_ofIndex .index read) bounded
      · have result : BinaryOp.indexDirect.result? base .index = base.indexed? := rfl
        rw [result, indexed]
        exact element.sameShape_refl
    · intro role part member
      simp only [Node.roles, List.zip_cons_cons, List.zip_nil_left, List.mem_cons, List.not_mem_nil, or_false,
        Prod.mk.injEq] at member
      rcases member with ⟨rfl, rfl⟩ | ⟨rfl, rfl⟩
      · exact ih
      · exact number

/-- The declaration of a temporary with the argument that it copies. -/
theorem WellFormed.initialization {declaration declarator : NodeId} {argument : Term}
    (known : table.variableType? (.pool handle) = some (ty.withQualifier .temporary))
    (right : WellFormed checks table returns (.expression none) argument) (typed : argument.ty? = some ty) :
    WellFormed checks table returns .statement (.initialization declaration declarator handle ty argument) := by
  refine .mk trivial trivial (by simp [Node.writes]) fun role part member => ?_
  simp only [Node.roles, Option.toList, List.map_cons, List.map_nil, List.head?_cons, Option.bind_some,
    List.zip_cons_cons, List.zip_nil_left, List.mem_cons, List.not_mem_nil, or_false, Prod.mk.injEq] at member
  rcases member with ⟨rfl, rfl⟩ | ⟨rfl, rfl⟩
  · exact .leaf rfl ⟨_, known, fun _ => Ty.sameShape_refl _⟩ rfl rfl
  · refine right.expect fun found other same member => ?_
    cases same.symm.trans typed
    cases member
    exact Ty.sameShape_withQualifier _ _

end

namespace Scalarize

variable {checks : Checks} {table : SymbolTable} {returns : Option Ty}

theorem Splits.wellFormed {target : Target} {arguments declarations accesses : List Term} {fresh : List NodeId}
    (splits : Splits table.pool target needed first arguments fresh declarations accesses)
    (right : ∀ argument ∈ arguments, WellFormed checks table returns (.expression none) argument) :
    (∀ declaration ∈ declarations, WellFormed checks table returns .statement declaration) ∧
      ∀ access ∈ accesses, WellFormed checks table returns (.expression none) access := by
  induction splits with
  | nil => simp
  | cons typed has positive temporary selected rest ih =>
    obtain ⟨declared, accessed⟩ := ih fun argument later => right argument (List.mem_cons_of_mem _ later)
    have known := SymbolTable.variableType?_temporary temporary
    constructor
    · refine List.forall_mem_cons.mpr ⟨?_, declared⟩
      exact .initialization known (right _ List.mem_cons_self) typed
    · intro access member
      rcases List.mem_append.mp member with own | later
      · obtain ⟨part, _, access⟩ := selected.of_mem own
        exact access.wellFormed known
      · exact accessed access later

/-- The new arguments of a constructor are accepted in the place of the old ones. -/
theorem Splits.fits {before : SymbolTable} {id : NodeId} {ids : List NodeId} {ty : Ty}
    {arguments declarations accesses : List Term} {fresh : List NodeId}
    (splits : Splits table.pool ty.target ty.components first arguments fresh declarations accesses)
    (mixed : (Term.mk id (.aggregate .construct ids ty) arguments).mixes = true)
    (constructors : checks.constructors = true)
    (fits : (Node.aggregate .construct ids ty).Fits checks before returns (arguments.map Term.face) id) :
    (Node.aggregate .construct (accesses.map Term.id) ty).Fits checks table returns (accesses.map Term.face) id := by
  obtain ⟨types, known, accepted⟩ := fits
  have typed : arguments.map Term.ty? = types.map some := by
    rw [← known, List.map_map]
    rfl
  have mixes : ty.mixes types = true := (Term.mixes_eq typed).symm.trans mixed
  have length : (arguments.map Term.id).length = types.length := by simpa using congrArg List.length typed
  have firsts : (arguments.map Term.face).map Face.id = arguments.map Term.id := List.map_map
  have seconds := List.map_snd_zip (Nat.le_of_eq length.symm)
  rw [firsts] at accepted
  rw [← seconds] at typed mixes
  obtain ⟨uses, ids, same, builds, _⟩ := splits.reconstructs typed (accepted constructors) mixes
  have handles : (accesses.map Term.face).map Face.id = uses.map Prod.fst := List.map_map.trans ids.symm
  refine ⟨uses.map Prod.snd, List.map_map.trans same.symm, fun _ => ?_⟩
  rw [handles, ← List.zip_of_prod rfl rfl]
  exact builds

end Scalarize

namespace Rewrites

variable {checks : Checks} {before after : SymbolTable} {low : Nat} {term : Term} {result : Rewriting}
  {returns : Option Ty} {role : Role}

theorem exists_result {parts : List Term} {results : List Rewriting} {part : Term}
    (member : (part, term) ∈ parts.zip (results.map Rewriting.term)) :
    ∃ result, (part, result) ∈ parts.zip results ∧ result.term = term := by
  rw [List.zip_map_right] at member
  obtain ⟨⟨_, result⟩, pair, same⟩ := List.mem_map.mp member
  cases same
  exact ⟨result, pair, rfl⟩

/-- A part of a node and its rewriting have a role. -/
theorem exists_role {node : Node} {parts : List Term} {results : List Rewriting} {faces : List Face}
    (children : node.children = parts.map Term.id) (length : parts.length = results.length)
    (member : result ∈ results) :
    ∃ role part, (role, part) ∈ (node.roles returns faces).zip parts ∧ (part, result) ∈ parts.zip results := by
  rw [← List.map_snd_zip (Nat.le_of_eq length.symm)] at member
  obtain ⟨⟨part, _⟩, paired, rfl⟩ := List.mem_map.mp member
  obtain ⟨role, among⟩ := Node.exists_role returns faces children (List.of_mem_zip paired).1
  exact ⟨role, part, among, paired⟩

theorem writable {parts : List Term} {results : List Rewriting} (length : parts.length = results.length)
    (below : ∀ part result, (part, result) ∈ parts.zip results → Rewrites after.pool low part result)
    (extension : before.pool.Extends after.pool)
    (writable : ∀ part ∈ parts.head?, ∀ symbol ∈ part.root?, before.Writable symbol) :
    ∀ part ∈ (results.map Rewriting.term).head?, ∀ symbol ∈ part.root?, after.Writable symbol := by
  obtain _ | ⟨result, results⟩ := results
  · simp
  · obtain _ | ⟨part, parts⟩ := parts
    · cases length
    rintro _ ⟨⟩ symbol root
    rw [(below part result List.mem_cons_self).root?] at root
    exact (writable part rfl symbol root).mono extension

/-- The rewritten piece is well formed in its role, and so are the statements in front. -/
theorem wellFormed (rewrites : Rewrites after.pool low term result) (extension : before.pool.Extends after.pool)
    (constructors : checks.constructors = true) (stands : term.Of tree)
    (right : WellFormed checks before returns role term) :
    WellFormed checks after returns role result.term ∧
      ∀ statement ∈ result.moved, WellFormed checks after returns .statement statement := by
  induction rewrites generalizing returns role with
  | @keep id node parts results plain inner length below ih =>
    obtain ⟨suits, fits, writes, right⟩ := right
    have faces := Rewrites.faces length below
    have children : node.children = parts.map Term.id := stands.children
    constructor
    · refine .mk suits ?_ (fun wanted => writable length below extension (writes wanted)) ?_
      · rw [faces]
        exact fits.mono extension
      · intro role term member
        rw [faces] at member
        rw [Node.inner_mono extension fits.defines]
        obtain ⟨part, among, paired⟩ := exists_zip (length.trans (List.length_map _).symm) member
        obtain ⟨result, pair, rfl⟩ := exists_result paired
        exact (ih part result pair (stands.parts (List.of_mem_zip pair).1) (right role part among)).1
    · intro statement member
      obtain ⟨result, among, moved⟩ := List.mem_flatMap.mp member
      obtain ⟨role, part, placed, paired⟩ := exists_role children length among
      have own := right role part placed
      have moves := (ih part result paired (stands.parts (List.of_mem_zip paired).1) own).2 statement moved
      cases node with
      | definition function inner =>
        -- The part is a block, which sends nothing up.
        obtain rfl : role = .body := List.mem_singleton.mp (List.of_mem_zip placed).1
        rw [(below part result paired).moved_of_block own.suits] at moved
        contradiction
      | _ => exact moves
  | @block id ids parts results length below ih =>
    obtain ⟨suits, fits, writes, right⟩ := right
    have each : ∀ result ∈ results, WellFormed checks after returns .statement result.term ∧
        ∀ statement ∈ result.moved, WellFormed checks after returns .statement statement := by
      intro result among
      obtain ⟨role, part, placed, paired⟩ := exists_role stands.children length among
      obtain ⟨_, _, rfl⟩ := List.mem_map.mp (List.of_mem_zip placed).1
      exact ih part result paired (stands.parts (List.of_mem_zip paired).1) (right _ part placed)
    refine ⟨.mk suits trivial (by simp [Node.writes]) fun role statement member => ?_, by simp⟩
    obtain ⟨_, _, rfl⟩ := List.mem_map.mp (List.of_mem_zip member).1
    obtain ⟨result, among, inside⟩ := List.mem_flatMap.mp (List.of_mem_zip member).2
    rcases List.mem_append.mp inside with moved | own
    · exact (each result among).2 statement moved
    · rw [List.mem_singleton.mp own]
      exact (each result among).1
  | @split id ids ty first arguments fresh declarations accesses mixed high splits =>
    obtain ⟨suits, fits, writes, right⟩ := right
    have each : ∀ argument ∈ arguments, WellFormed checks after returns (.expression none) argument := by
      intro argument among
      obtain ⟨role, placed⟩ := Node.exists_role returns (arguments.map Term.face) stands.children among
      obtain ⟨_, _, rfl⟩ := List.mem_map.mp (List.of_mem_zip placed).1
      exact (right _ argument placed).mono extension
    obtain ⟨declared, accessed⟩ := splits.wellFormed each
    have accepted := splits.fits mixed constructors fits
    refine ⟨.mk suits accepted (by simp [Node.writes]) fun role access member => ?_, declared⟩
    obtain ⟨_, _, rfl⟩ := List.mem_map.mp (List.of_mem_zip member).1
    exact accessed access (List.of_mem_zip member).2

end Rewrites
end ShaderTree
