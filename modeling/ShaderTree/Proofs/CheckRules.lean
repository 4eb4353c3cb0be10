import ShaderTree.Proofs.Passes
import ShaderTree.Proofs.WellFormed

/-! The checks of single nodes, each read as the condition under which it passes. A
check that passes leaves the progress as it is, apart from the node it fetches. -/
namespace ShaderTree.Validator

variable {validator : Validator} {before after : Progress} {id : NodeId}

theorem fetch_iff : Passes (validator.fetch id) before node after ↔
    validator.tree.nodes.get? id = some node ∧
      (validator.checks.singleParent = true → id ∉ before.met) ∧
      after = if validator.checks.singleParent then { before with met := id :: before.met } else before := by
  unfold fetch
  cases found : validator.tree.nodes.get? id with
  | none => simp [Arena.lookup, found, Passes.reject_iff]
  | some other =>
    simp only [Arena.lookup, found, Option.some.injEq]
    cases validator.checks.singleParent with
    | false => simp [Passes.pure_iff, eq_comm]
    | true =>
      simp [Passes.bind_iff, Passes.get_iff, Passes.ite_iff, Passes.reject_iff, Passes.map_iff,
        Passes.set_iff]
      constructor
      · rintro ⟨fresh, rfl, rfl⟩
        exact ⟨rfl, fresh, rfl⟩
      · rintro ⟨rfl, fresh, rfl⟩
        exact ⟨fresh, rfl, rfl⟩

theorem contains_of_resolve {table : SymbolTable} {handle : SymbolHandle}
    (resolved : table.resolve (.pool handle) = .ok symbol) : table.pool.contains handle = true :=
  Arena.contains_iff.mpr (Arena.get?_eq_some_lt (Arena.read_eq_ok.mp resolved))

theorem isFunction_iff {symbol : Symbol} : symbol.isFunction = true ↔ symbol.asFunction?.isSome = true := by
  unfold Symbol.isFunction Symbol.asFunction?
  cases symbol.kind <;> simp

theorem checkFunction_iff {done : Unit} {ref : SymbolRef} : Passes (validator.checkFunction id ref) before done after ↔
    (validator.table.function? ref).isSome = true ∧ before = after := by
  change Passes _ before () after ↔ _
  have known : (∃ symbol, validator.table.resolve ref = .ok symbol ∧ symbol.isFunction = true) ↔
      (validator.table.function? ref).isSome = true := by
    simp only [isFunction_iff, Option.isSome_iff_exists, SymbolTable.function?_eq_some]
    constructor
    · rintro ⟨symbol, resolved, function, same⟩
      exact ⟨function, symbol, resolved, same⟩
    · rintro ⟨function, symbol, resolved, same⟩
      exact ⟨symbol, resolved, function, same⟩
  rw [← known]
  unfold checkFunction
  cases ref with
  | builtIn symbol =>
    simp [Passes.bind_iff, Passes.lift_iff, Passes.ite_iff, Passes.reject_iff, Passes.pure_iff]
    grind
  | pool handle =>
    simp [Passes.bind_iff, Passes.lift_iff, Passes.pure_iff, Passes.ite_iff, Passes.reject_iff]
    have := @contains_of_resolve
    grind

theorem checkHandle_iff {done : Unit} {ref : SymbolRef} : Passes (validator.checkHandle ref) before done after ↔
    (validator.checks.handles = true → ∀ handle, ref = .pool handle →
      validator.table.pool.contains handle = true) ∧ before = after := by
  change Passes _ before () after ↔ _
  cases ref with
  | builtIn symbol => simp [checkHandle, Passes.pure_iff]
  | pool handle =>
    by_cases inside : validator.table.pool.contains handle = true <;>
      simp [checkHandle, Arena.check, inside, Passes.pure_iff, Passes.require_iff]

/-- A symbol that resolves has a handle of the pool. -/
theorem checkHandle_resolved {ref : SymbolRef} (resolved : validator.table.resolve ref = .ok symbol) :
    Passes (validator.checkHandle ref) before () before := by
  refine checkHandle_iff.mpr ⟨fun _ handle same => ?_, rfl⟩
  subst same
  exact contains_of_resolve resolved

theorem isVisible_iff {ref : SymbolRef} {seen : Bool} : Passes (isVisible ref) before seen after ↔
    (seen = true ↔ ref.VisibleIn before.visible) ∧ before = after := by
  rw [Passes.isVisible_iff, SymbolRef.VisibleIn, ← List.contains_iff_mem, ← Bool.or_eq_true]
  cases seen <;> simp

theorem checkUse_iff {done : Unit} {ref : SymbolRef} {ty : Ty} : Passes (validator.checkUse id ref ty) before done after ↔
    (∃ expected, validator.table.variableType? ref = some expected ∧
      (validator.checks.types = true → expected.sameShape ty = true)) ∧
    (validator.checks.references = true → ref.VisibleIn before.visible) ∧ before = after := by
  change Passes _ before () after ↔ _
  simp only [checkUse, Passes.bind_iff, Passes.lift_iff]
  constructor
  · rintro ⟨_, _, handled, symbol, _, ⟨resolved, rfl⟩, rest⟩
    obtain rfl := (checkHandle_iff.mp handled).2
    cases used : symbol.asVariable? with
    | none => simp [used, Passes.reject_iff] at rest
    | some var =>
      simp only [used, Passes.bind_iff, Passes.require_iff, isVisible_iff] at rest
      obtain ⟨seen, _, ⟨visible, rfl⟩, _, _, ⟨wanted, rfl⟩, shape, rfl⟩ := rest
      refine ⟨⟨var.ty, SymbolTable.variableType?_eq_some.mpr ⟨symbol, var, resolved, used, rfl⟩, shape⟩, ?_, rfl⟩
      exact fun references => visible.mp (wanted references)
  · rintro ⟨⟨_, known, shape⟩, visible, rfl⟩
    obtain ⟨symbol, var, resolved, used, rfl⟩ := SymbolTable.variableType?_eq_some.mp known
    refine ⟨(), before, checkHandle_resolved resolved, symbol, before, ⟨resolved, rfl⟩, ?_⟩
    simp only [used, Passes.bind_iff, Passes.require_iff, isVisible_iff]
    by_cases seen : ref.VisibleIn before.visible
    · exact ⟨true, before, ⟨by simp [seen], rfl⟩, (), before, ⟨by simp, rfl⟩, shape, rfl⟩
    · refine ⟨false, before, ⟨by simp [seen], rfl⟩, (), before, ⟨fun references => ?_, rfl⟩, shape, rfl⟩
      exact absurd (visible references) seen

theorem checkWritable_iff {done : Unit} (id target : NodeId) :
    Passes (validator.checkWritable id target) before done after ↔
    validator.readOnlyWithin (validator.tree.nodes.size + 1) target = .ok none ∧ before = after := by
  change Passes _ before () after ↔ _
  simp only [checkWritable, Passes.bind_iff, Passes.lift_iff]
  constructor
  · rintro ⟨found, between, ⟨read, rfl⟩, rest⟩
    cases found with
    | none => exact ⟨read, (Passes.pure_iff.mp rest).2⟩
    | some name => exact absurd rest (by simp [Passes.reject_iff])
  · rintro ⟨read, rfl⟩
    exact ⟨none, before, ⟨read, rfl⟩, Passes.pure_iff.mpr ⟨rfl, rfl⟩⟩

theorem checkBounds_iff {done : Unit} {base : Ty} {index : NodeId} :
    Passes (validator.checkBounds id base index) before done after ↔
      (∃ found, validator.tree.directIndex? index = .ok found ∧ ∀ position ∈ found, position < base.extent) ∧
        before = after := by
  change Passes _ before () after ↔ _
  simp only [checkBounds, Passes.bind_iff, Passes.lift_iff]
  constructor
  · rintro ⟨found, between, ⟨read, rfl⟩, rest⟩
    cases found with
    | none => exact ⟨⟨none, read, by simp⟩, (Passes.pure_iff.mp rest).2⟩
    | some position =>
      simp only [Passes.ite_iff, Passes.pure_iff, Passes.reject_iff, and_false, or_false, true_and] at rest
      exact ⟨⟨some position, read, by simpa [Ty.extent] using rest.1⟩, rest.2⟩
  · rintro ⟨⟨found, read, bounded⟩, rfl⟩
    refine ⟨found, before, ⟨read, rfl⟩, ?_⟩
    cases found with
    | none => exact Passes.pure_iff.mpr ⟨rfl, rfl⟩
    | some position =>
      simp only [Passes.ite_iff, Passes.pure_iff, Passes.reject_iff, and_false, or_false, and_true]
      exact bounded position rfl

theorem checkBinary_iff {done : Unit} {op : BinaryOp} {right : NodeId} {leftTy rightTy ty : Ty} :
    Passes (validator.checkBinary id op right leftTy rightTy ty) before done after ↔
      ((op = .indexDirect → ∃ found, validator.tree.directIndex? right = .ok found ∧
        ∀ position ∈ found, position < leftTy.extent) ∧
      (op.result? leftTy rightTy).any (·.sameShape ty) = true) ∧ before = after := by
  change Passes _ before () after ↔ _
  simp only [checkBinary, Passes.when_iff fun before after => checkBounds_iff, Passes.ite_iff, Passes.pure_iff,
    Passes.reject_iff, and_false, or_false, true_and, and_assoc]

theorem parameter_iff {table : SymbolTable} {parameter : SymbolRef} {found : Ty} {error : ValidationError} :
    Passes (do
      let var := (← liftM (table.resolve parameter)).asVariable?
      unless var.any (·.ty.sameShape found) do reject error) before () after ↔
    (∃ expected, table.variableType? parameter = some expected ∧ expected.sameShape found = true) ∧
      before = after := by
  simp only [Passes.bind_iff, Passes.lift_iff, Passes.ite_iff, Passes.pure_iff, Passes.reject_iff, and_false,
    or_false, true_and, SymbolTable.variableType?_eq_some, Option.any_eq_true]
  constructor
  · rintro ⟨symbol, _, ⟨resolved, rfl⟩, ⟨var, same, shape⟩, rfl⟩
    exact ⟨⟨_, ⟨symbol, var, resolved, same, rfl⟩, shape⟩, rfl⟩
  · rintro ⟨⟨_, ⟨symbol, var, resolved, same, rfl⟩, shape⟩, rfl⟩
    exact ⟨symbol, before, ⟨resolved, rfl⟩, ⟨var, same, shape⟩, rfl⟩

theorem forM_iff {items : List α} {action : α → ValidateM Unit} {holds : α → Prop}
    (each : ∀ item before after, Passes (action item) before () after ↔ holds item ∧ before = after) :
    Passes (items.forM action) before () after ↔ (∀ item ∈ items, holds item) ∧ before = after := by
  induction items generalizing before with
  | nil => simp [Passes.pure_iff]
  | cons item items ih =>
    change Passes (do action item; items.forM action) before () after ↔ _
    simp only [Passes.seq_iff, each, ih, List.forall_mem_cons]
    constructor
    · rintro ⟨_, ⟨first, rfl⟩, others, rfl⟩
      exact ⟨⟨first, others⟩, rfl⟩
    · rintro ⟨⟨first, others⟩, rfl⟩
      exact ⟨before, ⟨first, rfl⟩, others, rfl⟩

theorem checkCall_iff {done : Unit} {callee : SymbolRef} {arguments : Arguments} {ty : Ty} :
    Passes (validator.checkCall id callee arguments ty) before done after ↔
      validator.table.Takes callee (arguments.map Prod.snd) ty ∧ before = after := by
  change Passes _ before () after ↔ _
  have pairs (function : Function) : (∀ pair ∈ function.parameters.zip arguments,
        ∃ expected, validator.table.variableType? pair.1 = some expected ∧
          expected.sameShape pair.2.2 = true) ↔
      ∀ parameter type, (parameter, type) ∈ function.parameters.zip (arguments.map Prod.snd) →
        ∃ expected, validator.table.variableType? parameter = some expected ∧
          expected.sameShape type = true := by
    rw [List.zip_map_right]
    constructor
    · intro each parameter type member
      obtain ⟨⟨_, argument⟩, inside, same⟩ := List.mem_map.mp member
      cases same
      exact each _ inside
    · intro each pair inside
      exact each pair.1 pair.2.2 (List.mem_map_of_mem (f := Prod.map (fun ref => ref) Prod.snd) inside)
  simp only [checkCall, Passes.bind_iff, Passes.lift_iff]
  constructor
  · rintro ⟨symbol, _, ⟨resolved, rfl⟩, rest⟩
    cases called : symbol.asFunction? with
    | none => simp [called, Passes.reject_iff] at rest
    | some function =>
      simp only [called, Passes.ite_iff, Passes.seq_iff, Passes.reject_iff, false_and, and_false,
        or_false, exists_false, Passes.pure_iff, true_and, forM_iff fun pair before after => parameter_iff] at rest
      obtain ⟨length, _, ⟨each, rfl⟩, shape, rfl⟩ := rest
      exact ⟨⟨function, SymbolTable.function?_eq_some.mpr ⟨symbol, resolved, called⟩,
        by rw [List.length_map, length], (pairs function).mp each, shape⟩, rfl⟩
  · rintro ⟨⟨function, known, length, each, shape⟩, rfl⟩
    obtain ⟨symbol, resolved, called⟩ := SymbolTable.function?_eq_some.mp known
    rw [List.length_map] at length
    refine ⟨symbol, before, ⟨resolved, rfl⟩, ?_⟩
    simp only [called, Passes.ite_iff, Passes.seq_iff, Passes.reject_iff, false_and, and_false,
      or_false, exists_false, Passes.pure_iff, true_and, forM_iff fun pair before after => parameter_iff]
    exact ⟨length, before, ⟨(pairs function).mpr each, rfl⟩, shape, rfl⟩

def Agrees (validator : Validator) (id : NodeId) (arguments : Arguments) (ty : Ty) : AggregateOp → Prop
  | .construct => validator.checks.constructors = true →
      checkConstruct validator.table.pool id ty arguments = .ok ()
  | .call function =>
      (validator.checks.references = true → (validator.table.function? function).isSome = true) ∧
      (validator.checks.types = true → validator.table.Takes function (arguments.map Prod.snd) ty)

theorem checkAggregate_iff {done : Unit} {op : AggregateOp} {arguments : Arguments} {ty : Ty} :
    Passes (validator.checkAggregate id op arguments ty) before done after ↔
      validator.Agrees id arguments ty op ∧ before = after := by
  change Passes _ before () after ↔ _
  cases op with
  | construct =>
    simp only [checkAggregate, Agrees, Passes.ite_iff, Passes.liftRejection_iff, Passes.pure_iff, true_and]
    by_cases wanted : validator.checks.constructors = true <;> simp [wanted]
  | call function =>
    simp only [checkAggregate, Agrees]
    by_cases references : validator.checks.references = true <;>
      by_cases types : validator.checks.types = true <;>
      simp [references, types, Passes.seq_iff, checkFunction_iff, checkCall_iff, Passes.pure_iff]
    grind

theorem condition_iff {done : Unit} {expression : NodeId → ValidateM Ty} :
    Passes (validator.condition expression id) before done after ↔
      ∃ ty, Passes (expression id) before ty after ∧
        (validator.checks.types = true → ty.sameShape .bool = true) := by
  change Passes _ before () after ↔ _
  simp only [condition, Passes.bind_iff, Passes.require_iff]
  constructor
  · rintro ⟨ty, _, passes, shape, rfl⟩
    exact ⟨ty, passes, shape⟩
  · rintro ⟨ty, passes, shape⟩
    exact ⟨ty, after, passes, shape, rfl⟩

theorem declarator_iff : Passes (validator.declarator id) before () after ↔
    ∃ ref ty expected between, Passes (validator.fetch id) before (.symbol ref ty) between ∧
      validator.table.variableType? ref = some expected ∧
      (validator.checks.types = true → expected.sameShape ty = true) ∧
      after = { between with visible := ref :: between.visible } := by
  simp only [declarator, Passes.bind_iff]
  constructor
  · rintro ⟨node, between, fetched, rest⟩
    cases node with
    | symbol ref ty =>
      simp only [Passes.bind_iff, checkHandle_iff, Passes.lift_iff] at rest
      obtain ⟨_, _, ⟨_, rfl⟩, symbol, _, ⟨resolved, rfl⟩, rest⟩ := rest
      cases used : symbol.asVariable? with
      | none => simp [used, Passes.reject_iff] at rest
      | some var =>
        simp only [used, Passes.bind_iff, Passes.require_iff, Passes.declare_iff] at rest
        obtain ⟨_, _, ⟨shape, rfl⟩, rfl⟩ := rest
        exact ⟨ref, ty, var.ty, _, fetched, SymbolTable.variableType?_eq_some.mpr ⟨symbol, var, resolved, used, rfl⟩,
          shape, rfl⟩
    | _ => simp [Passes.reject_iff] at rest
  · rintro ⟨ref, ty, _, between, fetched, known, shape, rfl⟩
    obtain ⟨symbol, var, resolved, used, rfl⟩ := SymbolTable.variableType?_eq_some.mp known
    refine ⟨_, between, fetched, ?_⟩
    simp only [Passes.bind_iff, Passes.lift_iff]
    refine ⟨(), between, checkHandle_resolved resolved, symbol, between, ⟨resolved, rfl⟩, ?_⟩
    simp only [used, Passes.bind_iff, Passes.require_iff, Passes.declare_iff]
    exact ⟨(), between, ⟨shape, rfl⟩, rfl⟩

end ShaderTree.Validator
