import ShaderTree.Proofs.Comparisons

/-! The check of references on top of the others. Where a validation passes without it,
the validation with it takes the same way and can end early for one reason only, a
variable that is not declared where it is used. -/
namespace ShaderTree.Validator

variable {before : Progress}

def Undeclared (action : ValidateM α) (before : Progress) : Prop :=
  ∃ id name, action.run before = .error (.invalid (.undeclaredVariable id name))

/-- Where `lax` passes, `strict` passes in the same way or ends for want of a declaration. -/
def Tightens (strict lax : ValidateM α) : Prop :=
  ∀ before value after, Passes lax before value after → Passes strict before value after ∨ Undeclared strict before

theorem Undeclared.bind {action : ValidateM α} {next : α → ValidateM β} (ends : Undeclared action before) :
    Undeclared (action >>= next) before := by
  obtain ⟨id, name, ends⟩ := ends
  refine ⟨id, name, ?_⟩
  rw [StateT.run_bind, ends]
  rfl

theorem Undeclared.after {action : ValidateM α} {next : α → ValidateM β} (passes : Passes action before value between)
    (ends : Undeclared (next value) between) : Undeclared (action >>= next) before := by
  obtain ⟨id, name, ends⟩ := ends
  exact ⟨id, name, passes.run_bind.trans ends⟩

namespace Tightens

theorem refl (action : ValidateM α) : Tightens action action := fun _ _ _ passes => .inl passes

theorem bind {strict lax : ValidateM α} {next other : α → ValidateM β} (first : Tightens strict lax)
    (second : ∀ value, Tightens (next value) (other value)) : Tightens (strict >>= next) (lax >>= other) := by
  intro before result after passes
  obtain ⟨value, between, early, late⟩ := Passes.bind_iff.mp passes
  rcases first before value between early with done | ends
  · rcases second value between result after late with rest | ends
    · exact .inl (Passes.bind_iff.mpr ⟨value, between, done, rest⟩)
    · exact .inr (ends.after done)
  · exact .inr ends.bind

def comparison : Comparison := ⟨Tightens, refl, bind⟩

end Tightens

def referring (validator : Validator) (references : Bool) : Validator :=
  { validator with checks := { validator.checks with references } }

variable {validator : Validator} {id : NodeId}

/-- A use of a variable that is not visible is what the check of references is for. -/
theorem checkUse_tightens (ref : SymbolRef) (ty : Ty) :
    Tightens ((validator.referring true).checkUse id ref ty) ((validator.referring false).checkUse id ref ty) := by
  intro before value after passes
  obtain ⟨⟨expected, known, shape⟩, _, rfl⟩ := checkUse_iff.mp passes
  by_cases seen : ref.VisibleIn before.visible
  · exact .inl (checkUse_iff.mpr ⟨⟨expected, known, shape⟩, fun _ => seen, rfl⟩)
  · obtain ⟨symbol, var, resolved, used, _⟩ := SymbolTable.variableType?_eq_some.mp known
    refine .inr (Undeclared.after (checkHandle_resolved resolved) ?_)
    refine Undeclared.after (Passes.lift_iff.mpr ⟨resolved, rfl⟩) ?_
    simp only [used]
    have hidden : Passes (isVisible ref) before false before := isVisible_iff.mpr ⟨by simp [seen], rfl⟩
    refine Undeclared.after hidden ?_
    exact Undeclared.bind ⟨id, symbol.rawName, rfl⟩

/-- With types checked, calls name functions already. -/
theorem checkAggregate_tightens (types : validator.checks.types = true) (op : AggregateOp) (arguments : Arguments)
    (ty : Ty) : Tightens ((validator.referring true).checkAggregate id op arguments ty)
      ((validator.referring false).checkAggregate id op arguments ty) := by
  intro before value after passes
  left
  cases op with
  | construct => exact passes
  | call function =>
    obtain ⟨⟨_, takes⟩, rfl⟩ := checkAggregate_iff.mp passes
    refine checkAggregate_iff.mpr ⟨⟨fun _ => ?_, takes⟩, rfl⟩
    obtain ⟨target, known, _⟩ := takes types
    exact Option.isSome_iff_exists.mpr ⟨target, known⟩

theorem readOnlyWithin_referring (references : Bool) (steps : Nat) (target : NodeId) :
    (validator.referring references).readOnlyWithin steps target = validator.readOnlyWithin steps target := by
  induction steps generalizing target with
  | zero => rfl
  | succ steps ih =>
    simp only [readOnlyWithin, ih]
    rfl

theorem checkWritable_referring (references : Bool) (target : NodeId) :
    (validator.referring references).checkWritable id target = validator.checkWritable id target := by
  simp only [checkWritable, readOnlyWithin_referring]
  rfl

/-- Only uses and calls are looked at more closely. -/
theorem referring_sides (types : validator.checks.types = true) :
    Tightens.comparison.Sides (validator.referring true) (validator.referring false) where
  tree := rfl
  single := rfl
  types := rfl
  use _ := checkUse_tightens
  fits _ _ := rfl
  writable id target := by
    rw [checkWritable_referring, checkWritable_referring]
    exact .refl _
  aggregate _ := checkAggregate_tightens types
  declarator _ := .refl _
  function _ _ := .refl _
  defines _ := rfl

end Validator

/-- With types checked, the check of references can only add that a variable is not declared. -/
theorem Tree.validate_referring {tree : Tree} {table : SymbolTable} {checks : Checks} (types : checks.types = true)
    (accepted : tree.validate table { checks with references := false } = .ok ()) :
    tree.validate table { checks with references := true } = .ok () ∨
      ∃ id name, tree.validate table { checks with references := true } =
        .error (.invalid (.undeclaredVariable id name)) := by
  let validator : Validator := ⟨checks, tree, table⟩
  have sides : Validator.Tightens.comparison.Sides (validator.referring true) (validator.referring false) :=
    Validator.referring_sides types
  have runs (references : Bool) : tree.validate table { checks with references } =
      ((validator.referring references).body ((validator.referring references).statement validator.depth none)
        tree.root).run' {} := rfl
  rw [runs] at accepted
  rw [runs]
  change Prod.fst <$> _ = Except.ok () at accepted
  rw [map_eq_pure_bind, bind_eq_ok] at accepted
  obtain ⟨⟨_, after⟩, ended, _⟩ := accepted
  rcases sides.run {} () after ended with passes | ⟨id, name, ends⟩
  · exact .inl (congrArg (Prod.fst <$> ·) passes)
  · exact .inr ⟨id, name, congrArg (Prod.fst <$> ·) ends⟩

end ShaderTree
