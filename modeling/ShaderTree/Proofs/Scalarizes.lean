import ShaderTree.Proofs.Constructor

/-! The scalarization of finite pieces as a relation: which statements go in front of a
piece and what is left in its place. A constructor that mixes vectors with matrices is
split and nothing below it is looked at; a block takes the statements that its parts
send up; every other node keeps its parts in their order and sends up all of theirs. -/
namespace ShaderTree

/-- Statements that go in front of a piece, and the piece that stays in its place. -/
structure Rewriting where
  moved : List Term
  term : Term

def Rewriting.statements (result : Rewriting) : List Term := result.moved ++ [result.term]

namespace Term

def mixes (term : Term) : Bool :=
  match term.node with
  | .aggregate .construct _ ty => ty.mixes (term.parts.filterMap Term.ty?)
  | _ => false

theorem filterMap_ty {terms : List Term} {types : List Ty} (typed : terms.map Term.ty? = types.map some) :
    terms.filterMap Term.ty? = types := by
  induction terms generalizing types with
  | nil =>
    obtain rfl : types = [] := by simpa using typed
    rfl
  | cons term terms ih =>
    obtain _ | ⟨type, types⟩ := types
    · simp at typed
    · simp only [List.map_cons, List.cons.injEq] at typed
      rw [List.filterMap_cons, typed.1, ih typed.2]

theorem mixes_eq {id : NodeId} {ids : List NodeId} {ty : Ty} {parts : List Term} {types : List Ty}
    (typed : parts.map Term.ty? = types.map some) :
    (mk id (.aggregate .construct ids ty) parts).mixes = ty.mixes types := by
  simp only [mixes, node, Term.parts, filterMap_ty typed]

theorem mixes_node {term : Term} (mixed : term.mixes = true) :
    ∃ ids ty, term.node = .aggregate .construct ids ty := by
  unfold mixes at mixed
  split at mixed
  · exact ⟨_, _, ‹_›⟩
  · contradiction

end Term

/-- The pieces `terms`, with what becomes of each. Temporaries are numbered from `first` up to
`last`, and `fresh` has the handles of the new nodes. -/
inductive Scalarizes (pool : Pool) : (first : Nat) → (terms : List Term) → (fresh : List NodeId) →
    List Rewriting → (last : Nat) → Prop where
  | nil (first : Nat) : Scalarizes pool first [] [] [] first
  | keep {first between last : Nat} {id : NodeId} {node : Node} {parts terms : List Term}
      {inside outside : List NodeId} {results others : List Rewriting}
      (plain : (Term.mk id node parts).mixes = false) (inner : node.isBlock = false)
      (below : Scalarizes pool first parts inside results between)
      (rest : Scalarizes pool between terms outside others last) :
      Scalarizes pool first (.mk id node parts :: terms) (inside ++ outside)
        (⟨results.flatMap Rewriting.moved, .mk id node (results.map Rewriting.term)⟩ :: others) last
  | block {first between last : Nat} {id : NodeId} {ids : List NodeId} {parts terms : List Term}
      {inside outside : List NodeId} {results others : List Rewriting}
      (below : Scalarizes pool first parts inside results between)
      (rest : Scalarizes pool between terms outside others last) :
      Scalarizes pool first (.mk id (.block ids) parts :: terms) (inside ++ outside)
        (⟨[], .mk id (.block ((results.flatMap Rewriting.statements).map Term.id))
          (results.flatMap Rewriting.statements)⟩ :: others) last
  | split {first last : Nat} {id : NodeId} {ids : List NodeId} {ty : Ty} {arguments terms : List Term}
      {inside outside : List NodeId} {declarations accesses : List Term} {others : List Rewriting}
      (mixed : (Term.mk id (.aggregate .construct ids ty) arguments).mixes = true)
      (splits : Scalarize.Splits pool ty.target ty.components first arguments inside declarations accesses)
      (rest : Scalarizes pool (first + arguments.length) terms outside others last) :
      Scalarizes pool first (.mk id (.aggregate .construct ids ty) arguments :: terms) (inside ++ outside)
        (⟨declarations, .mk id (.aggregate .construct (accesses.map Term.id) ty) accesses⟩ :: others) last

namespace Scalarizes

variable {pool : Pool} {first between last : Nat} {terms : List Term} {fresh : List NodeId}
  {results : List Rewriting}

/-- Pieces keep their handles and types. -/
theorem kept (scalarizes : Scalarizes pool first terms fresh results last) :
    results.map (fun result => (result.term.id, result.term.ty?)) =
      terms.map (fun term => (term.id, term.ty?)) := by
  induction scalarizes with
  | nil => rfl
  | keep _ _ _ _ _ ih => exact congrArg (_ :: ·) ih
  | block _ _ _ ih => exact congrArg (_ :: ·) ih
  | split _ _ _ ih => exact congrArg (_ :: ·) ih

theorem ids (scalarizes : Scalarizes pool first terms fresh results last) :
    (results.map Rewriting.term).map Term.id = terms.map Term.id := by
  have kept := congrArg (List.map Prod.fst) scalarizes.kept
  rw [List.map_map, List.map_map] at kept
  rw [List.map_map]
  exact kept

theorem mono {second : Pool} (scalarizes : Scalarizes pool first terms fresh results last)
    (extension : pool.Extends second) : Scalarizes second first terms fresh results last := by
  induction scalarizes with
  | nil => exact .nil _
  | keep plain inner _ _ below rest => exact .keep plain inner below rest
  | block _ _ below rest => exact .block below rest
  | split mixed splits _ rest => exact .split mixed (splits.mono extension) rest

theorem append {moreTerms : List Term} {moreFresh : List NodeId} {moreResults : List Rewriting}
    (earlier : Scalarizes pool first terms fresh results between)
    (later : Scalarizes pool between moreTerms moreFresh moreResults last) :
    Scalarizes pool first (terms ++ moreTerms) (fresh ++ moreFresh) (results ++ moreResults) last := by
  induction earlier with
  | nil => exact later
  | keep plain inner below _ _ ih =>
    rw [List.append_assoc]
    exact .keep plain inner below (ih later)
  | block below _ _ ih =>
    rw [List.append_assoc]
    exact .block below (ih later)
  | split mixed splits _ ih =>
    rw [List.append_assoc]
    exact .split mixed splits (ih later)

theorem statements_perm (results : List Rewriting) :
    ((results.flatMap Rewriting.moved) ++ results.map Rewriting.term).Perm
      (results.flatMap Rewriting.statements) := by
  induction results with
  | nil => exact .nil
  | cons result results ih =>
    simp only [List.flatMap_cons, List.map_cons, Rewriting.statements, List.append_assoc]
    refine .append_left _ ?_
    rw [List.singleton_append]
    exact List.perm_middle.trans (.cons _ ih)

/-- Splitting keeps the nodes of the arguments, in the declarations. -/
theorem splits_perm {target : Scalarize.Target} {arguments declarations accesses : List Term}
    (splits : Scalarize.Splits pool target needed first arguments fresh declarations accesses) :
    (declarations.flatMap Term.ids ++ accesses.flatMap Term.ids).Perm
      (arguments.flatMap Term.ids ++ fresh) := by
  induction splits with
  | nil => exact .nil
  | cons _ _ _ _ _ _ ih =>
    rw [List.perm_iff_count] at ih ⊢
    intro id
    have same := ih id
    simp only [Term.initialization, List.flatMap_cons, List.flatMap_append, List.flatMap_nil, Term.ids_mk,
      List.count_append, List.count_cons, List.count_nil] at same ⊢
    omega

/-- No node is lost, and none is used twice. -/
theorem perm (scalarizes : Scalarizes pool first terms fresh results last) :
    ((results.flatMap Rewriting.statements).flatMap Term.ids).Perm (terms.flatMap Term.ids ++ fresh) := by
  induction scalarizes with
  | nil => exact .nil
  | @keep _ _ _ _ _ _ _ _ _ results _ _ _ _ _ below rest =>
    have order := (statements_perm results).flatMap_right Term.ids
    rw [List.perm_iff_count] at below rest order ⊢
    intro id
    have inner := below id
    have later := rest id
    have same := order id
    simp only [Rewriting.statements, List.flatMap_cons, List.flatMap_append, List.flatMap_nil, Term.ids_mk,
      List.count_append, List.count_cons, List.count_nil] at inner later same ⊢
    omega
  | block _ _ below rest =>
    rw [List.perm_iff_count] at below rest ⊢
    intro id
    have inner := below id
    have later := rest id
    simp only [Rewriting.statements, List.flatMap_cons, List.flatMap_append, List.flatMap_nil, Term.ids_mk,
      List.count_append, List.count_cons, List.count_nil] at inner later ⊢
    omega
  | split _ splits _ rest =>
    have order := splits_perm splits
    rw [List.perm_iff_count] at rest order ⊢
    intro id
    have later := rest id
    have same := order id
    simp only [Rewriting.statements, List.flatMap_cons, List.flatMap_append, List.flatMap_nil, Term.ids_mk,
      List.count_append, List.count_cons, List.count_nil] at later same ⊢
    omega

end Scalarizes
end ShaderTree
