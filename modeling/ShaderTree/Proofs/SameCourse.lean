import ShaderTree.Proofs.Evaluation
import ShaderTree.Proofs.Hoisting
import ShaderTree.Proofs.SameValue

/-! The course of a constructor that is scalarized. The declarations of its temporaries evaluate
the arguments in their order, and the new constructor, which evaluates nothing but uses of the
temporaries and constant indices, comes to what the old one came to. -/
namespace ShaderTree

open Course

/-- The components of what an index selects make up the whole. -/
theorem Ty.components_of_indexed {ty element : Ty} (has : ty.hasComponents = true) (indexed : ty.indexed? = some element) :
    ty.components = ty.extent * element.components := by
  obtain ⟨shape, precision, qualifier, array⟩ := ty
  cases array <;> cases shape <;>
    simp [hasComponents, isScalar, isVector, isMatrix, isArray, indexed?] at has indexed
  all_goals
    subst indexed
    simp [components, extent, nominalSize, isArray]

theorem Ty.two_le_components {ty : Ty} (composed : ty.isVector = true ∨ ty.isMatrix = true) : 2 ≤ ty.components := by
  obtain ⟨shape, precision, qualifier, array⟩ := ty
  cases shape with
  | vector kind size => exact size.count_bounds.1
  | matrix columns rows => exact Nat.le_trans columns.count_bounds.1 (Nat.le_mul_of_pos_right _ (by have := rows.count_bounds; omega))
  | _ => cases array <;> simp [isVector, isMatrix, isArray] at composed

namespace Term

variable {machine : Machine α} {term : Term} {held other : Held α} {reads : Bool}

theorem Silent.weaken (silent : term.Silent watch false) : term.Silent watch reads :=
  ⟨silent.1, silent.2.1, fun _ => silent.2.2 rfl⟩

theorem course_eq_pure {id : NodeId} {node : Node} {parts : List Term} (values : List (Value α)) (strict : node.isStrict = true)
    (silent : (mk id node parts).Silent machine.toWatch false) (whole : (mk id node parts).targets = 0)
    (operands : (parts.map fun part => part.course machine held) = values.map pure) :
    (mk id node parts).course machine held = pure ((mk id node parts).value machine held [] values) := by
  have plain : node.isBlock = false := isBlock_expression silent.1
  rw [course_plain plain, whole, List.drop_zero, Node.run_strict strict, operands, gather_pure, pure_bind]
  exact finish_eq_pure (plain_expression silent.1) silent.records fun events => value_settled (silent.2.2 rfl) events []

theorem All.agree {watch : Watch} (old : term.All (Predates watch.low)) (held other : Held α) : term.Agree watch held other := by
  intro piece inside symbol ty node keeps
  cases symbol with
  | builtIn => cases keeps
  | pool handle =>
    have below : handle.index < watch.low := old.not_names inside ⟨ty, node⟩
    have above : watch.low ≤ handle.index := of_decide_eq_true keeps
    omega

theorem All.course_eq (old : term.All (Predates machine.low)) (held other : Held α) :
    term.course machine held = term.course machine other :=
  course_congr rfl rfl (fun _ _ => rfl) (old.agree held other)

theorem All.not_keeps {watch : Watch} (old : term.All (Predates watch.low)) (symbol : SymbolRef) (ty : Ty)
    (node : term.node = .symbol symbol ty) : watch.keeps symbol = false := by
  cases symbol with
  | builtIn => rfl
  | pool handle =>
    have below := old.own handle.index ⟨ty, node⟩
    exact decide_eq_false (by omega)

end Term

namespace Access

variable {machine : Machine α} {held : Held α} {handle : SymbolHandle} {ty element : Ty} {path : List Nat} {access : Term}

theorem silent {watch : Watch} (isAccess : Access handle ty path element access) (kept : watch.low ≤ handle.index)
    (unwatched : ∀ id ∈ access.ids, watch.watched id = false) : access.All (Term.Silent watch false) := by
  induction isAccess with
  | use id =>
    refine .mk ⟨rfl, unwatched _ (Term.id_mem_ids _), fun _ => ?_⟩ (by simp)
    exact Bool.not_eq_eq_eq_not.mpr (decide_eq_true kept)
  | index id constant inner indexed bounded ih =>
    refine .mk ⟨rfl, unwatched _ (Term.id_mem_ids _), fun _ => rfl⟩ fun part member => ?_
    have within : ∀ other ∈ part.ids, watch.watched other = false := fun other inside =>
      unwatched other (Term.mem_ids_of_part member inside)
    rcases List.mem_pair.mp member with rfl | rfl
    · exact ih within
    · exact .mk ⟨rfl, within _ (Term.id_mem_ids _), fun _ => rfl⟩ (by simp)

/-- An access comes to the scalars that it selects of those that the temporary holds. -/
theorem course_eq {tree : Tree} {scalars : List α} (isAccess : Access handle ty path element access)
    (kept : machine.low ≤ handle.index) (unwatched : ∀ id ∈ access.ids, machine.watched id = false) (stands : access.Of tree)
    (has : ty.hasComponents = true) (length : (held (.pool handle)).length = ty.components)
    (yields : Yields tree (fun handle => held (.pool handle)) access.id scalars) :
    scalars.length = element.components ∧
      ∃ value, access.course machine held = pure value ∧ value.scalars = scalars := by
  have silent := @Access.silent _ _ _ _ _ machine.toWatch isAccess kept unwatched
  induction isAccess generalizing scalars with
  | use id =>
    have same : scalars = held (.pool handle) := by
      cases yields with
      | use found => cases stands.found.symm.trans found; rfl
      | index found => cases stands.found.symm.trans found
    have keeps : machine.keeps (.pool handle) = true := decide_eq_true kept
    refine ⟨same ▸ length, _, Term.course_eq_pure [] rfl silent.own rfl rfl, ?_⟩
    simp only [Term.value, Term.operator?, Term.node, keeps, if_true, same]
  | @index path base element inner position id constant within indexed bounded ih =>
    have number := List.mem_cons_of_mem inner (List.mem_singleton_self (Term.mk constant (.constant [.ofIndex position] .index) []))
    obtain ⟨components, _⟩ := within.indexesWithin has (stands.parts List.mem_cons_self)
    obtain ⟨own, four⟩ := Ty.indexed_hasComponents components indexed
    cases yields with
    | use found => cases stands.found.symm.trans found
    | @index place _ _ _ _ whole found direct below =>
      cases stands.found.symm.trans found
      obtain rfl : position = place := by
        have same := (Tree.directIndex_ofIndex (stands.parts number).found (by omega)).symm.trans direct
        exact Option.some.inj (Except.ok.inj same)
      obtain ⟨count, value, first, rfl⟩ := ih
        (fun other among => unwatched other (Term.mem_ids_of_part (List.mem_cons_self : inner ∈ [inner, _]) among))
        (stands.parts List.mem_cons_self) below (silent.parts inner List.mem_cons_self)
      let place : Value α := ⟨machine.apply [] (.constant [.ofIndex position]) .index [], []⟩
      have second : (Term.mk constant (.constant [.ofIndex position] .index) []).course machine held = pure place :=
        Term.course_eq_pure [] rfl (silent.parts _ number).own rfl rfl
      rw [Ty.components_of_indexed components indexed] at count
      refine ⟨?_, _, Term.course_eq_pure [value, place] rfl silent.own rfl ?_, ?_⟩
      · rw [List.length_take, List.length_drop, count, ← Nat.sub_mul]
        exact Nat.min_eq_left (Nat.le_mul_of_pos_left _ (by omega))
      · rw [List.map_cons, List.map_singleton, first, second]
        rfl
      · exact machine.indexes own count four bounded

/-- Uses of temporaries come to what is read off the tree. -/
theorem gather_course_eq (machine : Machine α) {tree : Tree} {accesses : List Term} {scalars : List (List α)}
    (each : ∀ access ∈ accesses, ∃ handle ty path element, Access handle ty path element access ∧ ty.hasComponents = true ∧
      machine.low ≤ handle.index ∧ (held (.pool handle)).length = ty.components)
    (unwatched : ∀ access ∈ accesses, ∀ id ∈ access.ids, machine.watched id = false) (stand : ∀ access ∈ accesses, access.Of tree)
    (yields : List.Forall₂ (Yields tree fun handle => held (.pool handle)) (accesses.map Term.id) scalars) :
    ∃ values : List (Value α), (accesses.map fun access => access.course machine held) = values.map pure ∧
      values.map Value.scalars = scalars := by
  induction accesses generalizing scalars with
  | nil =>
    cases yields
    exact ⟨[], rfl, rfl⟩
  | cons access accesses ih =>
    obtain _ | ⟨own, rest⟩ := yields
    obtain ⟨⟨handle, ty, path, element, isAccess, has, kept, length⟩, each⟩ := List.forall_mem_cons.mp each
    obtain ⟨silent, unwatched⟩ := List.forall_mem_cons.mp unwatched
    obtain ⟨stands, stand⟩ := List.forall_mem_cons.mp stand
    obtain ⟨_, value, course, rfl⟩ := isAccess.course_eq kept silent stands has length own
    obtain ⟨values, courses, rfl⟩ := ih each unwatched stand rest
    exact ⟨value :: values, by rw [List.map_cons, List.map_cons, course, courses], rfl⟩

end Access

def Held.assign (first : Nat) : List (Value α) → Held α → Held α
  | [], held => held
  | value :: values, held => assign (first + 1) values (held.declare [.pool ⟨first⟩] value.scalars)

namespace Held

variable {first number : Nat}

theorem assign_of_lt (values : List (Value α)) (held : Held α) (below : number < first) :
    held.assign first values (.pool ⟨number⟩) = held (.pool ⟨number⟩) := by
  induction values generalizing first held with
  | nil => rfl
  | cons value values ih =>
    rw [assign, ih _ (by omega), declare, if_neg (by simp; omega)]

theorem map_assign (first : Nat) (values : List (Value α)) (held : Held α) :
    (List.range' first values.length).map (fun number => held.assign first values (.pool ⟨number⟩)) =
      values.map Value.scalars := by
  induction values generalizing first held with
  | nil => rfl
  | cons value values ih =>
    rw [List.length_cons, List.range'_succ, List.map_cons, List.map_cons, assign, ih]
    rw [assign_of_lt _ _ (Nat.lt_succ_self first), declare, if_pos (List.mem_singleton_self _)]

end Held

/-- The declaration of a temporary does no more than its argument. -/
theorem Term.initialization_course {machine : Machine α} {declaration declarator : NodeId} {handle : SymbolHandle}
    (kept : machine.low ≤ handle.index) (unwatched : machine.watched declaration = false) (ty : Ty) (argument : Term)
    (held : Held α) : (initialization declaration declarator handle ty argument).course machine held =
      argument.course machine held >>= fun value => pure ⟨value.scalars, []⟩ := by
  have keeps : machine.keeps (.pool handle) = true := decide_eq_true kept
  have unrecorded : (initialization declaration declarator handle ty argument).records machine.toWatch = false := by
    simp [records, Term.id, initialization, declared, Term.node, Term.parts, Node.symbol?, unwatched, keeps]
  rw [initialization, course_declaration]
  refine bind_congr fun value => finish_eq_pure (by simp [Term.node]) unrecorded fun events => ?_
  simp [Term.value, operator?, Term.node]

/-- Constructors that are put together from the same scalars do the same. -/
theorem Term.construct_finish {machine : Machine α} {id : NodeId} {ids others : List NodeId} {ty : Ty}
    {arguments accesses : List Term} {values more : List (Value α)} (joins : ty.joins (arguments.filterMap Term.ty?) = true)
    (again : ty.joins (accesses.filterMap Term.ty?) = true)
    (same : (more.map Value.scalars).flatten.take ty.components = (values.map Value.scalars).flatten.take ty.components)
    (held other : Held α) : (mk id (.aggregate .construct others ty) accesses).finish machine held more =
      (mk id (.aggregate .construct ids ty) arguments).finish machine other values := by
  have value (events : List (Effect α)) : (mk id (.aggregate .construct others ty) accesses).value machine held events more =
      (mk id (.aggregate .construct ids ty) arguments).value machine other events values :=
    congrArg (Value.mk · []) (machine.builds again joins same)
  refine Course.ext fun events => ?_
  rw [finish_run (by simp [Term.node]), finish_run (by simp [Term.node]), value]
  rfl

theorem Term.gather_sized {machine : Machine α} {terms : List Term} {types : List Ty}
    (typed : terms.map Term.ty? = types.map some) (has : ∀ ty ∈ types, ty.hasComponents = true)
    (old : ∀ term ∈ terms, term.All (Predates machine.low)) (held : Held α) :
    Returns (gather (terms.map fun term => term.course machine held)) fun values =>
      (values.map Value.scalars).map List.length = types.map Ty.components := by
  induction terms generalizing types with
  | nil =>
    obtain rfl : types = [] := by simpa using typed
    exact .pure rfl
  | cons term terms ih =>
    obtain _ | ⟨type, types⟩ := types
    · cases typed
    · obtain ⟨own, typed⟩ := List.cons.inj typed
      obtain ⟨first, has⟩ := List.forall_mem_cons.mp has
      obtain ⟨here, old⟩ := List.forall_mem_cons.mp old
      refine (course_sized own first here.not_keeps held).bind fun value count => ?_
      refine (ih typed has old).bind fun values counts => .pure ?_
      rw [List.map_cons, List.map_cons, List.map_cons, count, counts]

namespace Scalarize.Splits

variable {pool : Pool} {target : Target} {needed first : Nat} {arguments declarations accesses : List Term}
  {fresh : List NodeId} {machine : Machine α}

/-- The declarations evaluate the arguments in their order, and the temporaries hold what they come to. -/
theorem steps_declarations (splits : Splits pool target needed first arguments fresh declarations accesses)
    (kept : machine.low ≤ first) (unwatched : ∀ id ∈ fresh, machine.watched id = false)
    (old : ∀ argument ∈ arguments, argument.All (Term.Predates machine.low)) (held other : Held α) :
    Term.steps machine declarations held =
      gather (arguments.map fun argument => argument.course machine other) >>= fun values => pure (held.assign first values) := by
  induction splits generalizing held with
  | nil => rfl
  | @cons _ _ _ _ _ first argument _ _ _ _ _ _ _ _ _ _ ih =>
    have own := old argument List.mem_cons_self
    have rest := ih (by omega) (fun id member => unwatched id (List.mem_append_right _ member))
      fun argument later => old argument (List.mem_cons_of_mem _ later)
    rw [Term.steps_cons, Term.initialization_course kept (unwatched _ (by simp)), List.map_cons, gather_cons]
    simp only [bind_assoc, pure_bind, rest, own.course_eq held other]
    rfl

theorem taken_pos (target : Target) {ty : Ty} (has : ty.hasComponents = true) (positive : 0 < needed) : 0 < (taken target needed ty).length := by
  have := (Ty.components_bounds has).1
  unfold taken
  split
  · rw [List.length_map, List.length_range]
    omega
  · exact Nat.one_pos

theorem length_le (splits : Splits pool target needed first arguments fresh declarations accesses) :
    arguments.length ≤ accesses.length := by
  induction splits with
  | nil => exact Nat.le_refl _
  | cons _ has positive _ selected _ ih =>
    have some := taken_pos target has positive
    rw [selected.length_eq] at some
    rw [List.length_cons, List.length_append]
    omega

/-- There is more than one access where an argument was taken apart. -/
theorem one_lt_length {ty : Ty} (splits : Splits pool ty.target ty.components first arguments fresh declarations accesses)
    {id : NodeId} {ids : List NodeId} (mixed : (Term.mk id (.aggregate .construct ids ty) arguments).mixes = true) :
    1 < accesses.length := by
  obtain ⟨types, typed, _⟩ := splits.typed
  rw [Term.mixes_eq typed] at mixed
  have large : 2 ≤ ty.components := Ty.two_le_components (Ty.plain_of_mixes mixed).2
  obtain ⟨type, among, split⟩ := List.any_eq_true.mp (Bool.and_eq_true_iff.mp mixed).2
  have count : arguments.length = types.length := by simpa using congrArg List.length typed
  cases splits with
  | nil =>
    obtain rfl := List.eq_nil_of_length_eq_zero count.symm
    cases among
  | @cons arguments _ _ _ _ _ _ own _ _ uses known has positive _ selected rest =>
    have some := taken_pos ty.target has positive
    rw [List.length_append, ← selected.length_eq]
    cases arguments with
    | nil =>
      obtain ⟨only, rfl⟩ := List.length_eq_one_iff.mp count.symm
      obtain rfl := List.mem_singleton.mp among
      obtain rfl : own = type := Option.some.inj (known.symm.trans (List.singleton_inj.mp typed))
      have larger : 2 ≤ own.components := Ty.two_le_components <| by
        cases target : ty.target <;> rw [target] at split
        · exact .inr split
        · exact .inl split
      rw [taken, if_pos split, List.length_map, List.length_range]
      omega
    | cons =>
      have := rest.length_le
      rw [List.length_cons] at this
      omega

theorem accesses_silent {watch : Watch} (splits : Splits pool target needed first arguments fresh declarations accesses)
    (kept : watch.low ≤ first) (unwatched : ∀ id ∈ fresh, watch.watched id = false) :
    ∀ access ∈ accesses, access.All (Term.Silent watch false) := by
  intro access member
  obtain ⟨_, _, _, _, isAccess, above, _⟩ := splits.access_of_mem member
  exact isAccess.silent (Nat.le_trans kept above) fun id inside => unwatched id (splits.accesses_fresh access member id inside)

/-- Each access is to a temporary that holds what it should. -/
theorem access_held {types : List Ty} {access : Term} {held : Held α} {originals : List (List α)}
    (splits : Splits pool target needed first arguments fresh declarations accesses)
    (typed : arguments.map Term.ty? = types.map some) (member : access ∈ accesses)
    (holds : (List.range' first arguments.length).map (fun number => held (.pool ⟨number⟩)) = originals)
    (sizes : originals.map List.length = types.map Ty.components) :
    ∃ handle ty path element, Access handle ty path element access ∧ ty.hasComponents = true ∧ first ≤ handle.index ∧
      (held (.pool handle)).length = ty.components := by
  induction splits generalizing types originals with
  | nil => cases member
  | cons known has _ _ selected _ ih =>
    obtain _ | ⟨type, types⟩ := types
    · cases typed
    · obtain ⟨own, others⟩ := List.cons.inj typed
      obtain rfl := Option.some.inj (known.symm.trans own)
      subst holds
      rw [List.length_cons, List.range'_succ, List.map_cons, List.map_cons, List.map_cons] at sizes
      obtain ⟨length, sizes⟩ := List.cons.inj sizes
      rcases List.mem_append.mp member with own | later
      · obtain ⟨part, _, isAccess⟩ := selected.of_mem own
        exact ⟨_, _, _, _, isAccess, has, Nat.le_refl _, length⟩
      · obtain ⟨handle, ty, path, element, isAccess, components, above, holds⟩ := ih others later rfl sizes
        exact ⟨handle, ty, path, element, isAccess, components, by omega, holds⟩

/-- A scalarized constructor, with the declarations in front of it, takes the course that it took. -/
theorem course_eq {tree : Tree} {id : NodeId} {ids others : List NodeId} {ty : Ty}
    (splits : Splits pool ty.target ty.components first arguments fresh declarations accesses)
    (mixed : (Term.mk id (.aggregate .construct ids ty) arguments).mixes = true) (kept : machine.low ≤ first)
    (unwatched : ∀ id ∈ fresh, machine.watched id = false)
    (old : ∀ argument ∈ arguments, argument.All (Term.Predates machine.low))
    (stand : ∀ access ∈ accesses, access.Of tree) (held other : Held α) :
    (Term.steps machine declarations held >>= (Term.mk id (.aggregate .construct others ty) accesses).course machine) =
      (Term.mk id (.aggregate .construct ids ty) arguments).course machine other := by
  obtain ⟨types, typed, has⟩ := splits.typed
  have count : arguments.length = types.length := by simpa using congrArg List.length typed
  obtain ⟨composed, _⟩ := Bool.and_eq_true_iff.mp ((Term.mixes_eq typed).symm.trans mixed)
  have joins : ty.joins (arguments.filterMap Term.ty?) = true := by
    rw [Ty.joins, composed, show ty.mixes (arguments.filterMap Term.ty?) = true from mixed, Bool.or_true]
    rfl
  have again : ty.joins (accesses.filterMap Term.ty?) = true := by
    obtain ⟨uses, same, _⟩ := splits.types typed
    have length : accesses.length = uses.length := by simpa using congrArg List.length same
    rw [Ty.joins, composed, Term.filterMap_ty same, ← length, decide_eq_true (splits.one_lt_length mixed)]
    rfl
  rw [splits.steps_declarations kept unwatched old held other, Term.course_aggregate, bind_assoc]
  refine (Term.gather_sized typed has old other).bind_congr fun values sizes => ?_
  have every : values.length = arguments.length := by simpa [count] using congrArg List.length sizes
  have holds := Held.map_assign first values held
  rw [every] at holds
  obtain ⟨scalars, yields, same⟩ : ∃ scalars, List.Forall₂ (Yields tree fun handle => held.assign first values (.pool handle))
      (accesses.map Term.id) scalars ∧ scalars.flatten.take ty.components = (values.map Value.scalars).flatten.take ty.components :=
    splits.yields typed stand holds sizes
  obtain ⟨more, uses, rfl⟩ := Access.gather_course_eq machine (fun access member => by
      obtain ⟨handle, ty, path, element, isAccess, components, above, length⟩ := splits.access_held typed member holds sizes
      exact ⟨handle, ty, path, element, isAccess, components, Nat.le_trans kept above, length⟩)
    (fun access member id inside => unwatched id (splits.accesses_fresh access member id inside)) stand yields
  rw [pure_bind, Term.course_aggregate, uses, gather_pure, pure_bind]
  exact Term.construct_finish joins again same _ _

end Scalarize.Splits
end ShaderTree
