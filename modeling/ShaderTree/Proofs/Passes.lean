import ShaderTree.Proofs.Outcome
import ShaderTree.Validity.Statement

/-! Validation steps that pass. Each step is read as the condition under which it passes
and the progress it leaves, so that a check is taken apart into its conditions. -/
namespace ShaderTree.Validator

variable {before after : Progress}

def Passes (action : ValidateM α) (before : Progress) (value : α) (after : Progress) : Prop :=
  action.run before = .ok (value, after)

theorem exists_unit {holds : Unit → Prop} : (∃ done, holds done) ↔ holds () :=
  ⟨fun ⟨_, found⟩ => found, fun found => ⟨(), found⟩⟩

namespace Passes

theorem pure_iff : Passes (pure result) before value after ↔ result = value ∧ before = after := by
  simp [Passes, StateT.run_pure, pure_eq_ok]

theorem bind_iff {action : ValidateM α} {next : α → ValidateM β} :
    Passes (action >>= next) before result after ↔
      ∃ value between, Passes action before value between ∧ Passes (next value) between result after := by
  simp only [Passes, StateT.run_bind, bind_eq_ok, Prod.exists]

/-- A step that passes leaves the run to what comes next. -/
theorem run_bind {action : ValidateM α} {next : α → ValidateM β} (passes : Passes action before value between) :
    (action >>= next).run before = (next value).run between := by
  rw [StateT.run_bind, passes]
  rfl

/-- Steps without a value come one after the other. -/
theorem seq_iff {action : ValidateM Unit} {next : Unit → ValidateM β} :
    Passes (action >>= next) before result after ↔
      ∃ between, Passes action before () between ∧ Passes (next ()) between result after := by
  rw [bind_iff]
  constructor
  · rintro ⟨_, between, first, second⟩
    exact ⟨between, first, second⟩
  · rintro ⟨between, first, second⟩
    exact ⟨(), between, first, second⟩

theorem map_iff {action : ValidateM α} {f : α → β} : Passes (f <$> action) before result after ↔
    ∃ value, Passes action before value after ∧ f value = result := by
  rw [map_eq_pure_bind, bind_iff]
  constructor
  · rintro ⟨value, between, passes, done⟩
    obtain ⟨rfl, rfl⟩ := pure_iff.mp done
    exact ⟨value, passes, rfl⟩
  · rintro ⟨value, passes, rfl⟩
    exact ⟨value, after, passes, pure_iff.mpr ⟨rfl, rfl⟩⟩

theorem discard_iff {done : Unit} {action : ValidateM α} :
    Passes (discard action) before done after ↔ ∃ value, Passes action before value after := by
  change Passes _ before () after ↔ _
  refine map_iff.trans ⟨?_, ?_⟩
  · rintro ⟨value, passes, _⟩
    exact ⟨value, passes⟩
  · rintro ⟨value, passes⟩
    exact ⟨value, passes, rfl⟩

theorem throw_iff : Passes (throw rejection : ValidateM α) before value after ↔ False := by
  change (Except.error _ : Except Rejection _) = _ ↔ _
  simp

theorem reject_iff : Passes (reject error : ValidateM α) before value after ↔ False := throw_iff

theorem require_iff : Passes (require wanted holds error) before value after ↔
    (wanted = true → holds = true) ∧ before = after := by
  cases wanted <;> cases holds <;> simp [require, reject_iff, pure_iff]

theorem ite_iff {condition : Prop} [Decidable condition] {first second : ValidateM α} :
    Passes (if condition then first else second) before value after ↔
      condition ∧ Passes first before value after ∨ ¬ condition ∧ Passes second before value after := by
  by_cases holds : condition <;> simp [holds]

/-- A check that is made under a condition and changes nothing. -/
theorem when_iff {condition holds : Prop} [Decidable condition] {check : ValidateM Unit} {next : ValidateM α}
    (each : ∀ before after, Passes check before () after ↔ holds ∧ before = after) :
    Passes (if condition then do check; next else next) before value after ↔
      (condition → holds) ∧ Passes next before value after := by
  by_cases wanted : condition
  · simp only [wanted, if_true, forall_const, seq_iff, each]
    constructor
    · rintro ⟨_, ⟨checked, rfl⟩, rest⟩
      exact ⟨checked, rest⟩
    · rintro ⟨checked, rest⟩
      exact ⟨before, ⟨checked, rfl⟩, rest⟩
  · simp [wanted]

theorem get_iff : Passes get before value after ↔ before = value ∧ before = after := by
  change Except.ok _ = _ ↔ _
  simp

theorem set_iff : Passes (set state) before value after ↔ state = after := by
  change Except.ok _ = _ ↔ _
  simp

theorem modify_iff : Passes (modify change) before value after ↔ change before = after := by
  change Except.ok _ = _ ↔ _
  simp

theorem lift_iff {computation : Except Fault α} :
    Passes (liftM computation) before value after ↔ computation = .ok value ∧ before = after := by
  cases computation with
  | ok result =>
    change Except.ok _ = _ ↔ _
    simp
  | error fault =>
    change (Except.error _ : Except Rejection _) = _ ↔ _
    simp

theorem liftRejection_iff {computation : Except Rejection α} :
    Passes (liftM computation) before value after ↔ computation = .ok value ∧ before = after := by
  cases computation with
  | ok result =>
    change Except.ok _ = _ ↔ _
    simp
  | error rejection =>
    change (Except.error _ : Except Rejection _) = _ ↔ _
    simp

theorem inScope_iff {action : ValidateM α} : Passes (inScope names action) before value after ↔
    ∃ inside, Passes action { before with visible := names ++ before.visible } value inside ∧
      after = { inside with visible := before.visible } := by
  simp only [inScope, bind_iff, get_iff, modify_iff, pure_iff]
  constructor
  · rintro ⟨_, _, ⟨rfl, rfl⟩, _, _, rfl, _, inside, passes, _, _, rfl, rfl, rfl⟩
    exact ⟨inside, passes, rfl⟩
  · rintro ⟨inside, passes, rfl⟩
    exact ⟨_, _, ⟨rfl, rfl⟩, (), _, rfl, _, inside, passes, (), _, rfl, rfl, rfl⟩

theorem declare_iff : Passes (declare symbol) before value after ↔
    after = { before with visible := symbol :: before.visible } := by
  rw [declare, modify_iff, eq_comm]

theorem isVisible_iff : Passes (isVisible symbol) before value after ↔
    (symbol.isBuiltIn || before.visible.contains symbol) = value ∧ before = after := by
  simp only [isVisible, bind_iff, get_iff, pure_iff]
  constructor
  · rintro ⟨_, _, ⟨rfl, rfl⟩, rfl, rfl⟩
    exact ⟨rfl, rfl⟩
  · rintro ⟨rfl, rfl⟩
    exact ⟨_, _, ⟨rfl, rfl⟩, rfl, rfl⟩

end Passes
end ShaderTree.Validator
