import ShaderTree.Proofs.Malformed

/-! The rule for constructors of scalars, vectors and matrices. The check looks at the last argument only;
since every argument has components, that settles all those before it. A list that breaks the rule is
answered with the components expected and given, and no count leaves its range on the way. -/
namespace ShaderTree

namespace Arguments

variable {arguments : Arguments} {pool : Pool} {ty : Ty} {needed : Nat}

/-- Components are still needed when the turn comes to an argument, whichever it is. -/
def Contribute (arguments : Arguments) (needed : Nat) : Prop :=
  ∀ before argument after, arguments = before ++ argument :: after → (sizes before).sum < needed

/-- What the arguments of a constructor of type `ty` have to be. -/
def Builds (arguments : Arguments) (ty : Ty) : Prop :=
  arguments ≠ [] ∧ (arguments.Converts ty ∨ ty.components ≤ arguments.sizes.sum ∧ arguments.Contribute ty.components)

theorem contribute_iff : arguments.Contribute needed ↔
    ∀ before size after, arguments.sizes = before ++ size :: after → before.sum < needed := by
  constructor
  · intro each before size after split
    obtain ⟨front, rest, rfl, rfl, others⟩ := List.map_eq_append_iff.mp split
    obtain ⟨argument, back, rfl, _, _⟩ := List.map_eq_cons_iff.mp others
    exact each front argument back rfl
  · rintro each before argument after rfl
    exact each (sizes before) argument.2.components (sizes after) List.map_append

theorem builds_iff : arguments.Builds ty ↔ arguments.Converts ty ∨ arguments ≠ [] ∧ Fills ty.components arguments.sizes := by
  have some : arguments.Converts ty → arguments ≠ [] := by
    rintro ⟨single, rfl, _⟩
    exact List.cons_ne_nil _ _
  rw [Builds, fills_iff, contribute_iff]
  tauto

theorem mapM_objectSize (all : ∀ argument ∈ arguments, argument.2.hasComponents = true) :
    arguments.mapM (fun argument => argument.2.objectSize pool) = .ok arguments.sizes := by
  induction arguments with
  | nil => rfl
  | cons argument arguments ih =>
    obtain ⟨first, others⟩ := List.forall_mem_cons.mp all
    rw [List.mapM_cons, Ty.objectSize_eq_components first, ih others]
    rfl

end Arguments

section
variable {pool : Pool} {node : NodeId} {ty : Ty} {arguments : Arguments}

theorem checkComponents_eq {built : Bool} (has : ty.hasComponents = true)
    (all : ∀ argument ∈ arguments, argument.2.hasComponents = true) (small : arguments.sizes.sum < Count.limit)
    (verdict : arguments.build pool ty ty.components arguments.sizes.sum = .ok built) :
    checkComponents pool node ty arguments =
      if built then .ok () else .error (.invalid (.constructorSize node ty.components arguments.sizes.sum)) := by
  have counted : arguments.componentCount pool = .ok arguments.sizes.sum :=
    Arguments.componentCount_eq_ok.mpr ⟨all, rfl, small⟩
  simp only [checkComponents, counted, Ty.objectSize_eq_components has]
  change Rejection.ofFault (arguments.build pool ty ty.components arguments.sizes.sum) >>= _ = _
  rw [verdict]
  cases built <;> rfl

/-- A scalar, vector or matrix is constructed from arguments that follow the rule and from no others. The
answer is never a fault, so what is subtracted was added before. -/
theorem checkConstruct_rule (has : ty.hasComponents = true) (all : ∀ argument ∈ arguments, argument.2.hasComponents = true)
    (small : arguments.sizes.sum < Count.limit) :
    ty.objectSize pool = .ok ty.components ∧
      arguments.mapM (fun argument => argument.2.objectSize pool) = .ok arguments.sizes ∧
      (checkConstruct pool node ty arguments = .ok () ↔ arguments.Builds ty) ∧
      (¬ arguments.Builds ty → checkConstruct pool node ty arguments =
        .error (.invalid (.constructorSize node ty.components arguments.sizes.sum))) := by
  have positive : 0 < ty.components := (Ty.components_bounds has).1
  obtain ⟨built, verdict⟩ := Arguments.build_total pool ty ty.components all
  have rule : built = true ↔ arguments.Builds ty := by
    rw [Arguments.builds_iff, ← Arguments.build_eq_ok all positive, verdict, Except.ok.injEq]
  rw [checkConstruct_eq_checkComponents has, checkComponents_eq has all small verdict]
  refine ⟨Ty.objectSize_eq_components has pool, Arguments.mapM_objectSize all, ?_, fun breaks => ?_⟩
  · rw [← rule]
    cases built <;> simp
  · rw [if_neg (mt rule.mp breaks)]

end

/-- A vector of two components leaves nothing for a second argument to provide. -/
theorem checkConstruct_rule_excess :
    let arguments : Arguments := [(⟨1⟩, .vector .float .two), (⟨2⟩, .float)]
    (Ty.vector .float .two).hasComponents = true ∧ (∀ argument ∈ arguments, argument.2.hasComponents = true) ∧
      arguments.sizes.sum < Count.limit ∧ ¬ arguments.Builds (.vector .float .two) ∧
      checkConstruct .empty ⟨0⟩ (.vector .float .two) arguments = .error (.invalid (.constructorSize ⟨0⟩ 2 3)) := by
  intro arguments
  have all : ∀ argument ∈ arguments, argument.2.hasComponents = true := by decide
  have breaks : ¬ arguments.Builds (.vector .float .two) := by
    rintro ⟨_, ⟨single, several, _⟩ | ⟨_, contribute⟩⟩
    · exact absurd (congrArg List.length several) (by simp [arguments])
    · exact absurd (contribute [(⟨1⟩, .vector .float .two)] (⟨2⟩, .float) [] rfl) (by decide)
  obtain ⟨_, _, _, refused⟩ := @checkConstruct_rule .empty ⟨0⟩ (.vector .float .two) arguments rfl all (by decide)
  exact ⟨rfl, all, by decide, breaks, refused breaks⟩

end ShaderTree
