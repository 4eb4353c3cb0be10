import Mathlib.Algebra.Ring.Nat
import ShaderTree.Proofs.Outcome
import ShaderTree.Validity.Construct

/-! Component counts of scalars, vectors and matrices, and the rule by which a list of
arguments builds such a value: it provides enough components, and each argument is
still needed when its turn comes. The rule is stated by recursion over the arguments
with the number of components needed, independently of how the check computes it. -/
namespace ShaderTree

theorem VectorSize.count_bounds (size : VectorSize) : 2 ≤ size.count ∧ size.count ≤ 4 := by
  cases size <;> decide

namespace Ty

/-- How many values an index may take: elements of an array, components of a vector,
columns of a matrix. -/
def extent (ty : Ty) : Nat := if ty.isArray then ty.arrayFactor else ty.nominalSize

def components (ty : Ty) : Nat :=
  match ty.shape with
  | .scalar _ => 1
  | .vector _ size => size.count
  | .matrix columns rows => columns.count * rows.count
  | _ => 0

theorem sameShape_refl (ty : Ty) : ty.sameShape ty = true := by simp [sameShape]

theorem hasComponents_cases {ty : Ty} (has : ty.hasComponents = true) : ty.array = none ∧
    ((∃ kind, ty.shape = .scalar kind) ∨ (∃ kind size, ty.shape = .vector kind size) ∨
      ∃ columns rows, ty.shape = .matrix columns rows) := by
  obtain ⟨shape, precision, qualifier, array⟩ := ty
  cases array with
  | some size => simp [hasComponents, isScalar, isVector, isMatrix, isArray] at has
  | none =>
    refine ⟨rfl, ?_⟩
    cases shape <;> simp [hasComponents, isScalar, isVector, isMatrix, isArray] at has ⊢

theorem components_bounds {ty : Ty} (has : ty.hasComponents = true) :
    1 ≤ ty.components ∧ ty.components ≤ 16 := by
  obtain ⟨_, ⟨kind, shape⟩ | ⟨kind, size, shape⟩ | ⟨columns, rows, shape⟩⟩ := hasComponents_cases has
  · simp [components, shape]
  · have := VectorSize.count_bounds size
    simp only [components, shape]
    omega
  · simp only [components, shape]
    cases columns <;> cases rows <;> decide

theorem objectSize_eq_components {ty : Ty} (has : ty.hasComponents = true) (pool : Pool) :
    ty.objectSize pool = .ok ty.components := by
  have small : ty.components < Count.limit :=
    Nat.lt_of_le_of_lt (components_bounds has).2 (by decide)
  obtain ⟨plain, ⟨kind, shape⟩ | ⟨kind, size, shape⟩ | ⟨columns, rows, shape⟩⟩ := hasComponents_cases has
  all_goals
    simp only [components, shape] at small
    simp [objectSize, Arena.nesting, countWithin, components, shape, Count.mul, arrayFactor, plain,
      small, Bind.bind, Except.bind, pure, Except.pure]

end Ty

/-- The arguments, given by their component counts, are enough for `needed` components,
and components are still needed at each of them. -/
def Fills : (needed : Nat) → List Nat → Prop
  | needed, [] => needed = 0
  | needed, size :: rest => 0 < needed ∧ Fills (needed - size) rest

theorem fills_iff {needed : Nat} {sizes : List Nat} : Fills needed sizes ↔
    needed ≤ sizes.sum ∧ ∀ before size after, sizes = before ++ size :: after → before.sum < needed := by
  induction sizes generalizing needed with
  | nil => simp [Fills]
  | cons first rest ih =>
    simp only [Fills, ih, List.sum_cons]
    constructor
    · rintro ⟨positive, enough, turns⟩
      refine ⟨by omega, ?_⟩
      intro before size after split
      cases before with
      | nil => simpa using positive
      | cons head before =>
        simp only [List.cons_append, List.cons.injEq] at split
        obtain ⟨rfl, split⟩ := split
        have := turns before size after split
        simp only [List.sum_cons]
        omega
    · rintro ⟨enough, turns⟩
      have positive : 0 < needed := by simpa using turns [] first rest rfl
      refine ⟨positive, by omega, ?_⟩
      intro before size after split
      have := turns (first :: before) size after (by rw [split, List.cons_append])
      simp only [List.sum_cons] at this
      omega

/-- Single components in front are taken one by one. -/
theorem fills_ones {needed : Nat} {ones rest : List Nat} (single : ∀ size ∈ ones, size = 1)
    (enough : ones.length ≤ needed) : Fills needed (ones ++ rest) ↔ Fills (needed - ones.length) rest := by
  induction ones generalizing needed with
  | nil => simp
  | cons one ones ih =>
    rw [List.length_cons] at enough
    have first := single one List.mem_cons_self
    have later := fun size member => single size (List.mem_cons_of_mem _ member)
    have others : Fills (needed - 1) (ones ++ rest) ↔ Fills (needed - 1 - ones.length) rest :=
      ih later (by omega)
    simp only [List.cons_append, Fills, first, others, List.length_cons, Nat.sub_sub, Nat.add_comm 1]
    have positive : 0 < needed := by omega
    simp [positive]

namespace Arguments

def sizes (arguments : Arguments) : List Nat := arguments.map fun argument => argument.2.components

theorem sizes_eq (arguments : Arguments) :
    arguments.sizes = (arguments.map Prod.snd).map Ty.components := by
  rw [sizes, List.map_map]
  rfl

theorem componentCount_from (pool : Pool) (arguments : Arguments) (start : Nat)
    (small : start < Count.limit) :
    arguments.foldlM (m := Except Rejection) (fun given (node, ty) => do
        unless ty.hasComponents do throw (.invalid (.typeMismatch node ty))
        Count.add given (← ty.objectSize pool)) start = .ok given ↔
      (∀ argument ∈ arguments, argument.2.hasComponents = true) ∧
        given = start + arguments.sizes.sum ∧ given < Count.limit := by
  induction arguments generalizing start with
  | nil =>
    simp only [List.foldlM_nil, pure_eq_ok, sizes, List.map_nil, List.sum_nil]
    constructor
    · rintro rfl
      exact ⟨by simp, by omega, small⟩
    · rintro ⟨_, same, _⟩
      omega
  | cons first rest ih =>
    obtain ⟨node, ty⟩ := first
    rw [List.foldlM_cons, bind_eq_ok]
    by_cases has : ty.hasComponents = true
    · simp only [has, if_true, Ty.objectSize_eq_components has, bind_eq_ok, Rejection.lift_eq_ok,
        Except.ok.injEq, exists_eq_left', Count.add]
      simp only [sizes, List.map_cons, List.sum_cons, List.forall_mem_cons, has, true_and]
      constructor
      · rintro ⟨total, added, remaining⟩
        split at added
        · cases added
          obtain ⟨others, same, bound⟩ := (ih _ ‹_›).mp remaining
          exact ⟨others, by simp only [same, sizes]; omega, bound⟩
        · contradiction
      · rintro ⟨others, same, bound⟩
        have fits : start + ty.components < Count.limit := by omega
        refine ⟨start + ty.components, if_pos fits, (ih _ fits).mpr ⟨others, ?_, bound⟩⟩
        simp only [same, sizes]
        omega
    · simp only [has]
      constructor
      · rintro ⟨_, impossible, _⟩
        simp [bind_eq_ok, throw_eq_ok] at impossible
      · rintro ⟨others, _⟩
        exact absurd (others _ List.mem_cons_self) has

theorem componentCount_eq_ok {pool : Pool} {arguments : Arguments} :
    arguments.componentCount pool = .ok given ↔
      (∀ argument ∈ arguments, argument.2.hasComponents = true) ∧
        given = arguments.sizes.sum ∧ given < Count.limit := by
  rw [componentCount, componentCount_from pool arguments 0 (by decide), Nat.zero_add]

/-- Arguments that build a value of type `ty` on their own: one scalar fills any value,
and one matrix builds any other. -/
def Converts (ty : Ty) (arguments : Arguments) : Prop :=
  ∃ single, arguments = [single] ∧
    (single.2.isScalar = true ∨ single.2.isMatrix = true ∧ ty.isMatrix = true)

/-- With positive sizes it is enough to look at the last argument: those before it
leave components to provide. -/
theorem fills_snoc {needed last : Nat} {front : List Nat} (positive : ∀ size ∈ front, 0 < size) :
    Fills needed (front ++ [last]) ↔ needed ≤ front.sum + last ∧ front.sum < needed := by
  induction front generalizing needed with
  | nil =>
    simp only [List.nil_append, Fills, List.sum_nil]
    omega
  | cons first rest ih =>
    have one := positive first List.mem_cons_self
    simp only [List.cons_append, Fills, ih fun size member => positive size (by simp [member]),
      List.sum_cons]
    omega

/-- One argument, or the components left before the last are fewer than needed. -/
theorem build_eq_ok {pool : Pool} {ty : Ty} {arguments : Arguments}
    (has : ∀ argument ∈ arguments, argument.2.hasComponents = true) (positive : 0 < expected) :
    arguments.build pool ty expected arguments.sizes.sum = .ok true ↔
      arguments.Converts ty ∨ arguments ≠ [] ∧ Fills expected arguments.sizes := by
  match arguments with
  | [] => simp [build, Converts]
  | [(node, single)] =>
    simp only [build, Except.ok.injEq, Bool.or_eq_true, Bool.and_eq_true, decide_eq_true_eq, sizes,
      List.map_cons, List.map_nil, List.sum_cons, List.sum_nil, Nat.add_zero, Converts, Fills]
    have turn : 0 < expected ∧ expected - single.components = 0 ↔ expected ≤ single.components := by
      omega
    simp [turn]
  | first :: second :: rest =>
    have several : ¬ Converts ty (first :: second :: rest) := by
      rintro ⟨_, impossible, _⟩
      simp at impossible
    obtain ⟨front, last, split⟩ : ∃ front last, first :: second :: rest = front ++ [last] := by
      exact ⟨_, _, (List.dropLast_concat_getLast (by simp)).symm⟩
    have lastEq : (second :: rest).getLast (List.cons_ne_nil second rest) = last := by
      have := congrArg List.getLast? split
      rw [List.getLast?_append, List.getLast?_singleton, List.getLast?_cons_cons,
        List.getLast?_eq_some_getLast (List.cons_ne_nil second rest)] at this
      simpa using this
    have lastHas : last.2.hasComponents = true := has last (by rw [split]; simp)
    have sum : sizes (first :: second :: rest) = sizes front ++ [last.2.components] := by
      rw [split]; simp [sizes]
    have frontPositive : ∀ size ∈ sizes front, 0 < size := by
      intro size member
      obtain ⟨argument, inside, rfl⟩ := List.mem_map.mp member
      exact (Ty.components_bounds (has argument (by rw [split]; simp [inside]))).1
    simp only [several, false_or, ne_eq, reduceCtorEq, not_false_eq_true, true_and]
    rw [sum, fills_snoc frontPositive]
    simp only [build, lastEq, Ty.objectSize_eq_components lastHas, List.sum_append, List.sum_cons,
      List.sum_nil, Nat.add_zero]
    by_cases short : (sizes front).sum + last.2.components < expected
    · simp only [if_pos short, pure_eq_ok, Bool.false_eq_true, false_iff]
      omega
    · have left : Count.sub ((sizes front).sum + last.2.components) last.2.components =
          .ok (sizes front).sum := by
        simp [Count.sub]
      simp only [if_neg short, bind_eq_ok, Except.ok.injEq, exists_eq_left', left, pure_eq_ok,
        decide_eq_true_eq]
      omega

end Arguments

theorem checkConstruct_eq_checkComponents {pool : Pool} {node : NodeId} {ty : Ty} {arguments : Arguments}
    (has : ty.hasComponents = true) :
    checkConstruct pool node ty arguments = checkComponents pool node ty arguments := by
  obtain ⟨plain, ⟨kind, shape⟩ | ⟨kind, size, shape⟩ | ⟨columns, rows, shape⟩⟩ := Ty.hasComponents_cases has
  all_goals simp only [checkConstruct, plain, shape]

/-- The check of a scalar, vector or matrix constructor in terms of component counts. -/
theorem checkConstruct_components {pool : Pool} {node : NodeId} {ty : Ty} {arguments : Arguments}
    (has : ty.hasComponents = true) : checkConstruct pool node ty arguments = .ok () ↔
      (∀ argument ∈ arguments, argument.2.hasComponents = true) ∧
        arguments.sizes.sum < Count.limit ∧
        (arguments.Converts ty ∨ arguments ≠ [] ∧ Fills ty.components arguments.sizes) := by
  simp only [checkConstruct_eq_checkComponents has, checkComponents, bind_eq_ok, Rejection.lift_eq_ok,
    Ty.objectSize_eq_components has, Except.ok.injEq, exists_eq_left']
  constructor
  · rintro ⟨given, counted, built, accepted, verdict⟩
    obtain ⟨all, rfl, bound⟩ := Arguments.componentCount_eq_ok.mp counted
    cases built with
    | false => simp [throw_eq_ok] at verdict
    | true =>
      exact ⟨all, bound, (Arguments.build_eq_ok all (Ty.components_bounds has).1).mp accepted⟩
  · rintro ⟨all, bound, rule⟩
    exact ⟨_, Arguments.componentCount_eq_ok.mpr ⟨all, rfl, bound⟩, true,
      (Arguments.build_eq_ok all (Ty.components_bounds has).1).mpr rule, rfl⟩

end ShaderTree
