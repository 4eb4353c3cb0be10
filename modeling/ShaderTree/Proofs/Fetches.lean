import ShaderTree.Proofs.Malformed
import ShaderTree.Proofs.Nesting

/-! How long a validation takes. Its recursion follows handles, which may lead anywhere; what ends it is that
no node is fetched twice. To count the nodes of a validation that is rejected as well, the walk is written
once more with a record of them. The two are shown to do the same, and the record to have just the nodes that
the validation has met. -/
namespace ShaderTree

/-- Validation that records the nodes fetched. A rejection leaves the record. -/
abbrev RecordM := StateT Validator.Progress (ExceptT Rejection (StateM (List NodeId)))

namespace Validator.Recorded

/-- A step that fetches nothing. -/
def quietly (action : ValidateM α) : RecordM α := fun progress => ExceptT.mk (pure (action.run progress))

def fetch (validator : Validator) (id : NodeId) : RecordM Node := do
  modifyThe (List NodeId) (· ++ [id])
  quietly (validator.fetch id)

def inScope (names : List SymbolRef) (action : RecordM α) : RecordM α := do
  let outer := (← quietly get).visible
  quietly (modify fun progress => { progress with visible := names ++ outer })
  let value ← action
  quietly (modify fun progress => { progress with visible := outer })
  return value

def block (statement : NodeId → RecordM Unit) (statements : List NodeId) : RecordM Unit :=
  inScope [] (statements.forM statement)

def body (validator : Validator) (statement : NodeId → RecordM Unit) (id : NodeId) : RecordM Unit := do
  match ← fetch validator id with
  | .block statements => block statement statements
  | _ => quietly (reject (.expectedStatement id))

def condition (validator : Validator) (expression : NodeId → RecordM Ty) (id : NodeId) : RecordM Unit := do
  let ty ← expression id
  quietly (require validator.checks.types (ty.sameShape .bool) (.typeMismatch id ty))

def initializer (validator : Validator) (expression : NodeId → RecordM Ty) (declarator value : NodeId) :
    RecordM Unit := do
  let found ← expression value
  quietly do
    let some expected ← validator.tree.ty? declarator | reject (.expectedExpression declarator)
    require validator.checks.types (found.sameShape expected) (.typeMismatch value found)

def declarator (validator : Validator) (id : NodeId) : RecordM Unit := do
  match ← fetch validator id with
  | .symbol symbol ty => quietly do
    validator.checkHandle symbol
    let some var := (← validator.table.resolve symbol).asVariable? | reject (.expectedExpression id)
    require validator.checks.types (var.ty.sameShape ty) (.typeMismatch id ty)
    declare symbol
  | _ => quietly (reject (.expectedExpression id))

def branchValue (validator : Validator) (expression : NodeId → RecordM Ty) (returns : Option Ty) (kind : BranchKind)
    (id : NodeId) : RecordM Unit := do
  let found ← expression id
  quietly do
    if let some expected := returns then
      if kind = .returnFrom then
        require validator.checks.types (expected.sameShape found) (.typeMismatch id found)

def expressionNode (validator : Validator) (expression : NodeId → RecordM Ty) (id : NodeId) (node : Node) :
    RecordM Ty := do
  let checks := validator.checks
  match node with
  | .symbol symbol ty => quietly do
    validator.checkUse id symbol ty
    return ty
  | .constant values ty => quietly do
    require checks.types (← validator.constantFits values ty) (.typeMismatch id ty)
    return ty
  | .binary op left right ty =>
    let leftTy ← expression left
    let rightTy ← expression right
    quietly do
      if op.isAssignment then validator.checkWritable id left
      if checks.types then validator.checkBinary id op right leftTy rightTy ty
      return ty
  | .unary op operand ty =>
    let operandTy ← expression operand
    quietly do
      if op.isMutating then validator.checkWritable id operand
      require checks.types (operandTy.sameShape ty && op.accepts ty) (.typeMismatch id ty)
      return ty
  | .ternary condition accept reject ty =>
    Recorded.condition validator expression condition
    let acceptTy ← expression accept
    let rejectTy ← expression reject
    quietly do
      require checks.types (acceptTy.sameShape ty && rejectTy.sameShape ty) (.typeMismatch id ty)
      return ty
  | .aggregate op arguments ty =>
    let arguments ← arguments.mapM fun argument => do return (argument, ← expression argument)
    quietly do
      validator.checkAggregate id op arguments ty
      return ty
  | _ => quietly (reject (.expectedExpression id))

def expression (validator : Validator) : (depth : Nat) → (id : NodeId) → RecordM Ty
  | 0, _ => quietly (throw (.fault .endless))
  | depth + 1, id => do
    expressionNode validator (expression validator depth) id (← fetch validator id)

def statementNode (validator : Validator) (statement : Option Ty → NodeId → RecordM Unit)
    (expression : NodeId → RecordM Ty) (returns : Option Ty) (id : NodeId) (node : Node) : RecordM Unit := do
  match node with
  | .block statements => block (statement returns) statements
  | .declaration declarator initializer =>
    if let some value := initializer then
      Recorded.initializer validator expression declarator value
    Recorded.declarator validator declarator
  | .ifElse condition accept reject =>
    Recorded.condition validator expression condition
    body validator (statement returns) accept
    if let some reject := reject then body validator (statement returns) reject
  | .loop _ init condition step inner =>
    inScope [] do
      if let some init := init then statement returns init
      if let some condition := condition then Recorded.condition validator expression condition
      if let some step := step then discard (expression step)
      body validator (statement returns) inner
  | .branch kind value =>
    if let some value := value then branchValue validator expression returns kind value
  | .prototype function => quietly (validator.checkFunction id function)
  | .definition function inner =>
    if returns.isSome then quietly (reject (.expectedStatement id))
    quietly (validator.checkFunction id function)
    let some function := (← quietly (validator.table.resolve function)).asFunction?
      | quietly (reject (.unknownFunction id))
    inScope function.parameters (body validator (statement (some function.returnType)) inner)
  | _ => discard (expressionNode validator expression id node)

def statement (validator : Validator) : (depth : Nat) → (returns : Option Ty) → (id : NodeId) → RecordM Unit
  | 0, _, _ => quietly (throw (.fault .endless))
  | depth + 1, returns, id => do
    statementNode validator (statement validator depth) (expression validator depth) returns id (← fetch validator id)

end Validator.Recorded

/-- What a validation answers, and the nodes that it fetches on its way there, in order. -/
def Tree.fetches (tree : Tree) (table : SymbolTable) (checks : Checks) : Except Rejection Unit × List NodeId :=
  let validator : Validator := { checks, tree, table }
  (((Validator.Recorded.body validator (Validator.Recorded.statement validator validator.depth none) tree.root).run'
    {}).run.run []).run

namespace Validator

variable {validator : Validator} {before : Progress} {id : NodeId}

theorem unmet_congr {after : Progress} (same : after.met = before.met) : validator.unmet after = validator.unmet before := by
  simp only [unmet, same]

structure Fetched (validator : Validator) (before after : Progress) (ids : List NodeId) : Prop where
  met : after.met = ids.reverse ++ before.met
  nodup : before.met.Nodup → after.met.Nodup
  fewer : ids.length + validator.unmet after ≤ validator.unmet before

namespace Fetched

variable {between after : Progress} {ids others : List NodeId}

theorem nil (same : after.met = before.met) : Fetched validator before after [] :=
  ⟨same, fun nodup => same ▸ nodup, by rw [unmet_congr same, List.length_nil, Nat.zero_add]⟩

theorem append (first : Fetched validator before between ids) (second : Fetched validator between after others) :
    Fetched validator before after (ids ++ others) := by
  constructor
  · rw [second.met, first.met, List.reverse_append, List.append_assoc]
  · exact fun nodup => second.nodup (first.nodup nodup)
  · have few := first.fewer
    have fewer := second.fewer
    rw [List.length_append]
    omega

theorem singleton (single : validator.checks.singleParent = true) {node : Node}
    (fetched : Passes (validator.fetch id) before node after) : Fetched validator before after [id] := by
  have fewer := fetch_unmet single fetched
  obtain ⟨_, fresh, rfl⟩ := fetch_iff.mp fetched
  rw [if_pos single] at fewer ⊢
  constructor
  · rfl
  · exact fun nodup => List.nodup_cons.mpr ⟨fresh single, nodup⟩
  · rw [List.length_singleton]
    omega

end Fetched

/-- From `before` on, the walk with a record does what the one without does, and records what that one fetches
on its way. Each of these nodes is one less to come to, apart from one that ends the walk. -/
def Follows (validator : Validator) (recorded : RecordM α) (action : ValidateM α) (before : Progress) : Prop :=
  ∃ fetched : List NodeId, (∀ log, (recorded.run before).run.run log = (action.run before, log ++ fetched)) ∧
    fetched.length ≤ validator.unmet before + 1 ∧
    ∀ value after, Passes action before value after → Fetched validator before after fetched

namespace Follows

theorem quietly {action : ValidateM α} (quiet : ∀ value after, Passes action before value after → after.met = before.met) :
    Follows validator (Recorded.quietly action) action before := by
  refine ⟨[], fun log => ?_, Nat.zero_le _, fun value after passes => .nil (quiet value after passes)⟩
  rw [List.append_nil]
  rfl

theorem pure (value : α) : Follows validator (Pure.pure value) (Pure.pure value) before := by
  refine @quietly _ _ _ (Pure.pure value) fun _ after passes => ?_
  rw [(Passes.pure_iff.mp passes).2]

theorem bind {recorded : RecordM α} {action : ValidateM α} {recordedNext : α → RecordM β} {next : α → ValidateM β}
    (first : Follows validator recorded action before)
    (rest : ∀ value between, Passes action before value between → Follows validator (recordedNext value) (next value) between) :
    Follows validator (recorded >>= recordedNext) (action >>= next) before := by
  obtain ⟨fetched, same, few, own⟩ := first
  cases ran : action.run before with
  | error rejection =>
    refine ⟨fetched, fun log => ?_, few, fun value after passes => ?_⟩
    · simp only [StateT.run_bind, ExceptT.run_bind, same, ran]
      rfl
    · obtain ⟨_, _, passes, _⟩ := Passes.bind_iff.mp passes
      cases passes.symm.trans ran
  | ok pair =>
    obtain ⟨value, between⟩ := pair
    have left := own value between ran
    obtain ⟨more, again, fewMore, others⟩ := rest value between ran
    refine ⟨fetched ++ more, fun log => ?_, ?_, fun result after passes => ?_⟩
    · simp only [StateT.run_bind, ExceptT.run_bind, same, ran]
      exact (again (log ++ fetched)).trans (by rw [List.append_assoc]; rfl)
    · have fewer := left.fewer
      rw [List.length_append]
      omega
    · obtain ⟨_, _, first, second⟩ := Passes.bind_iff.mp passes
      cases first.symm.trans ran
      exact left.append (others result after second)

theorem map {recorded : RecordM α} {action : ValidateM α} (f : α → β) (first : Follows validator recorded action before) :
    Follows validator (f <$> recorded) (f <$> action) before := by
  rw [map_eq_pure_bind, map_eq_pure_bind]
  exact first.bind fun value _ _ => pure (f value)

theorem fetch (single : validator.checks.singleParent = true) :
    Follows validator (Recorded.fetch validator id) (validator.fetch id) before := by
  refine ⟨[id], fun log => rfl, ?_, fun node after fetched => .singleton single fetched⟩
  rw [List.length_singleton]
  omega

theorem inScope {names : List SymbolRef} {recorded : RecordM α} {action : ValidateM α}
    (inside : ∀ before, Follows validator recorded action before) :
    Follows validator (Recorded.inScope names recorded) (Validator.inScope names action) before := by
  have read : ∀ now, Follows validator (Recorded.quietly get) (get : ValidateM Progress) now := fun now =>
    quietly fun _ _ passes => by rw [(Passes.get_iff.mp passes).2]
  have show_ : ∀ visible now, Follows validator
      (Recorded.quietly (modify fun progress : Progress => { progress with visible := visible }))
      (modify fun progress : Progress => { progress with visible := visible }) now := fun visible now =>
    quietly fun _ _ passes => by rw [← Passes.modify_iff.mp passes]
  refine (read _).bind fun _ _ _ => (show_ _ _).bind fun _ _ _ => (inside _).bind fun value _ _ => ?_
  exact (show_ _ _).bind fun _ _ _ => pure value

section
variable {items : List α}

theorem forM {recorded : α → RecordM Unit} {step : α → ValidateM Unit}
    (each : ∀ item before, Follows validator (recorded item) (step item) before) :
    Follows validator (items.forM recorded) (items.forM step) before := by
  induction items generalizing before with
  | nil => exact pure ()
  | cons item items ih =>
    change Follows validator (do recorded item; items.forM recorded) (do step item; items.forM step) before
    exact (each item before).bind fun _ _ _ => ih

theorem mapM {recorded : α → RecordM β} {step : α → ValidateM β}
    (each : ∀ item before, Follows validator (recorded item) (step item) before) :
    Follows validator (items.mapM recorded) (items.mapM step) before := by
  induction items generalizing before with
  | nil => exact pure []
  | cons item items ih =>
    rw [List.mapM_cons, List.mapM_cons]
    exact (each item before).bind fun _ _ _ => ih.bind fun _ _ _ => pure _

end
end Follows

section
variable {recorded : NodeId → RecordM Ty} {expression : NodeId → ValidateM Ty} {returns : Option Ty}
  (operand : ∀ id before, Follows validator (recorded id) (expression id) before)
include operand

theorem condition_follows : Follows validator (Recorded.condition validator recorded id) (validator.condition expression id) before :=
  (operand id before).bind fun _ _ _ => .quietly fun _ _ passes => by rw [(Passes.require_iff.mp passes).2]

theorem initializer_follows {declarator : NodeId} :
    Follows validator (Recorded.initializer validator recorded declarator id)
      (validator.initializer expression declarator id) before := by
  refine (operand id before).bind fun _ _ _ => .quietly fun _ _ passes => ?_
  obtain ⟨found, _, read, rest⟩ := Passes.bind_iff.mp passes
  obtain ⟨_, rfl⟩ := Passes.lift_iff.mp read
  cases found with
  | none => exact (Passes.reject_iff.mp rest).elim
  | some expected => rw [(Passes.require_iff.mp rest).2]

theorem branchValue_follows {kind : BranchKind} :
    Follows validator (Recorded.branchValue validator recorded returns kind id)
      (validator.branchValue expression returns kind id) before := by
  refine (operand id before).bind fun _ _ _ => .quietly fun _ _ passes => ?_
  cases returns with
  | none => rw [(Passes.pure_iff.mp passes).2]
  | some expected =>
    rcases Passes.ite_iff.mp passes with ⟨_, passes⟩ | ⟨_, passes⟩
    · rw [(Passes.require_iff.mp passes).2]
    · rw [(Passes.pure_iff.mp passes).2]

theorem expressionNode_follows {node : Node} :
    Follows validator (Recorded.expressionNode validator recorded id node) (validator.expressionNode expression id node)
      before := by
  cases node with
  | symbol ref ty =>
    refine .quietly fun _ _ passes => ?_
    obtain ⟨_, _, used, done⟩ := Passes.bind_iff.mp passes
    rw [(checkUse_iff.mp used).2.2, (Passes.pure_iff.mp done).2]
  | constant values ty =>
    refine .quietly fun _ _ passes => ?_
    obtain ⟨_, _, read, rest⟩ := Passes.bind_iff.mp passes
    obtain ⟨_, _, fits, done⟩ := Passes.bind_iff.mp rest
    rw [(Passes.lift_iff.mp read).2, (Passes.require_iff.mp fits).2, (Passes.pure_iff.mp done).2]
  | binary op left right ty =>
    refine (operand left _).bind fun _ _ _ => (operand right _).bind fun _ _ _ => .quietly fun _ _ passes => ?_
    simp only [Passes.when_iff fun before after => checkWritable_iff id left,
      Passes.when_iff fun before after => checkBinary_iff] at passes
    rw [(Passes.pure_iff.mp passes.2.2).2]
  | unary op inner ty =>
    refine (operand inner _).bind fun _ _ _ => .quietly fun _ _ passes => ?_
    simp only [Passes.when_iff fun before after => checkWritable_iff id inner] at passes
    obtain ⟨_, _, fits, done⟩ := Passes.bind_iff.mp passes.2
    rw [(Passes.require_iff.mp fits).2, (Passes.pure_iff.mp done).2]
  | ternary test accept reject ty =>
    refine (condition_follows operand).bind fun _ _ _ => (operand accept _).bind fun _ _ _ => ?_
    refine (operand reject _).bind fun _ _ _ => .quietly fun _ _ passes => ?_
    obtain ⟨_, _, fits, done⟩ := Passes.bind_iff.mp passes
    rw [(Passes.require_iff.mp fits).2, (Passes.pure_iff.mp done).2]
  | aggregate op arguments ty =>
    refine .bind (.mapM fun argument _ => (operand argument _).bind fun _ _ _ => .pure _) fun _ _ _ => ?_
    refine .quietly fun _ _ passes => ?_
    obtain ⟨_, _, agrees, done⟩ := Passes.bind_iff.mp passes
    rw [(checkAggregate_iff.mp agrees).2, (Passes.pure_iff.mp done).2]
  | _ => exact .quietly fun _ _ passes => (Passes.reject_iff.mp passes).elim

end

section
variable (single : validator.checks.singleParent = true)
include single

theorem expression_follows {depth : Nat} :
    Follows validator (Recorded.expression validator depth id) (validator.expression depth id) before := by
  induction depth generalizing id before with
  | zero => exact .quietly fun _ _ passes => (Passes.throw_iff.mp passes).elim
  | succ depth ih => exact (Follows.fetch single).bind fun _ _ _ => expressionNode_follows fun _ _ => ih

theorem declarator_follows : Follows validator (Recorded.declarator validator id) (validator.declarator id) before := by
  refine (Follows.fetch single).bind fun node _ _ => ?_
  cases node with
  | symbol ref ty =>
    refine .quietly fun _ _ passes => ?_
    obtain ⟨_, _, handled, rest⟩ := Passes.bind_iff.mp passes
    obtain ⟨symbol, _, read, rest⟩ := Passes.bind_iff.mp rest
    cases used : symbol.asVariable? with
    | none =>
      rw [used] at rest
      exact (Passes.reject_iff.mp rest).elim
    | some var =>
      rw [used] at rest
      obtain ⟨_, _, shape, declared⟩ := Passes.bind_iff.mp rest
      rw [(checkHandle_iff.mp handled).2, (Passes.lift_iff.mp read).2, (Passes.require_iff.mp shape).2,
        Passes.declare_iff.mp declared]
  | _ => exact .quietly fun _ _ passes => (Passes.reject_iff.mp passes).elim

variable {recorded : NodeId → RecordM Unit} {statement : NodeId → ValidateM Unit}
  (each : ∀ id before, Follows validator (recorded id) (statement id) before)
include each

omit single in
theorem block_follows {statements : List NodeId} :
    Follows validator (Recorded.block recorded statements) (block statement statements) before :=
  .inScope fun _ => .forM each

theorem body_follows : Follows validator (Recorded.body validator recorded id) (validator.body statement id) before := by
  refine (Follows.fetch single).bind fun node _ _ => ?_
  cases node with
  | block statements => exact block_follows each
  | _ => exact .quietly fun _ _ passes => (Passes.reject_iff.mp passes).elim

end

section
variable {recorded : Option Ty → NodeId → RecordM Unit} {statement : Option Ty → NodeId → ValidateM Unit}
  {recordedExpression : NodeId → RecordM Ty} {expression : NodeId → ValidateM Ty} {returns : Option Ty}
  (single : validator.checks.singleParent = true)
  (each : ∀ returns id before, Follows validator (recorded returns id) (statement returns id) before)
  (operand : ∀ id before, Follows validator (recordedExpression id) (expression id) before)
include single each operand

/-- The parts of a loop, from the last to the first, each with what comes after it. -/
theorem loop_follows {kind : LoopKind} {init test step : Option NodeId} {inner : NodeId} :
    Follows validator
      (Recorded.statementNode validator recorded recordedExpression returns id (.loop kind init test step inner))
      (validator.statementNode statement expression returns id (.loop kind init test step inner)) before := by
  let recordedIncrement := step.elim (Recorded.body validator (recorded returns) inner) fun step => do
    discard (recordedExpression step)
    Recorded.body validator (recorded returns) inner
  let increment := step.elim (validator.body (statement returns) inner) fun step => do
    discard (expression step)
    validator.body (statement returns) inner
  let recordedStart := test.elim recordedIncrement fun test => do
    Recorded.condition validator recordedExpression test
    recordedIncrement
  let start := test.elim increment fun test => do
    validator.condition expression test
    increment
  have incremented : ∀ now, Follows validator recordedIncrement increment now := by
    intro now
    cases step with
    | none => exact body_follows single (each returns)
    | some step => exact ((operand step now).map _).bind fun _ _ _ => body_follows single (each returns)
  have started : ∀ now, Follows validator recordedStart start now := by
    intro now
    cases test with
    | none => exact incremented now
    | some test => exact (condition_follows operand).bind fun _ _ _ => incremented _
  apply Follows.inScope
  intro now
  cases init with
  | none => cases test <;> cases step <;> exact started now
  | some init =>
    refine (each returns init now).bind fun _ after _ => ?_
    cases test <;> cases step <;> exact started after

omit operand in
theorem definition_follows {function : SymbolRef} {inner : NodeId} :
    Follows validator (Recorded.statementNode validator recorded recordedExpression returns id (.definition function inner))
      (validator.statementNode statement expression returns id (.definition function inner)) before := by
  cases returns with
  | some expected => exact (Follows.quietly fun _ _ passes => (Passes.reject_iff.mp passes).elim).bind fun _ _ passes =>
      (Passes.reject_iff.mp passes).elim
  | none =>
    refine (Follows.quietly fun _ _ passes => by rw [(checkFunction_iff.mp passes).2]).bind fun _ _ _ => ?_
    refine (Follows.quietly fun _ _ passes => by rw [(Passes.lift_iff.mp passes).2]).bind fun symbol _ _ => ?_
    cases symbol.asFunction? with
    | none => exact .quietly fun _ _ passes => (Passes.reject_iff.mp passes).elim
    | some target => exact .inScope fun _ => body_follows single (each _)

theorem statementNode_follows {node : Node} :
    Follows validator (Recorded.statementNode validator recorded recordedExpression returns id node)
      (validator.statementNode statement expression returns id node) before := by
  have body : ∀ id now, Follows validator (Recorded.body validator (recorded returns) id)
      (validator.body (statement returns) id) now := fun _ _ => body_follows single (each returns)
  cases node with
  | block statements => exact block_follows (each returns)
  | declaration declared value =>
    cases value with
    | none => exact declarator_follows single
    | some value => exact (initializer_follows operand).bind fun _ _ _ => declarator_follows single
  | ifElse test accept reject =>
    refine (condition_follows operand).bind fun _ _ _ => (body accept _).bind fun _ _ _ => ?_
    cases reject with
    | none => exact .pure ()
    | some reject => exact body reject _
  | loop kind init test step inner => exact loop_follows single each operand
  | branch kind value =>
    cases value with
    | none => exact .pure ()
    | some value => exact branchValue_follows operand
  | prototype function => exact .quietly fun _ _ passes => by rw [(checkFunction_iff.mp passes).2]
  | definition function inner => exact definition_follows single each
  | _ => exact (expressionNode_follows operand).map _

omit each operand in
theorem statement_follows {depth : Nat} :
    Follows validator (Recorded.statement validator depth returns id) (validator.statement depth returns id) before := by
  induction depth generalizing returns id before with
  | zero => exact .quietly fun _ _ passes => (Passes.throw_iff.mp passes).elim
  | succ depth ih =>
    refine (Follows.fetch single).bind fun _ _ _ => ?_
    exact statementNode_follows single (fun _ _ _ => ih) fun _ _ => expression_follows single

end

/-- No check of a node is endless: what is missing is noticed and what is too large overflows. -/
theorem guards_finite (validator : Validator) (acyclic : Acyclic validator.table.pool.Nests) :
    validator.Guards (· ≠ .endless) := by
  have resolves : ∀ ref cause, validator.table.resolve ref = .error cause → cause ≠ .endless := by
    intro ref cause failed
    rw [SymbolRef.resolve_eq_error failed]
    simp
  constructor
  · exact fun id ref ty _ _ _ => resolves ref
  · rintro id values ty _ _ cause failed rfl
    exact Ty.objectSize_ne_endless acyclic failed
  · intro id op arguments ty _ _ pairs _ _ before
    cases op with
    | construct =>
      simp only [checkAggregate]
      split
      · refine .liftRejection fun cause failed => ?_
        rcases checkConstruct_eq_fault failed with ⟨rfl, _⟩ | ⟨ref, _, missing⟩
        · simp
        · exact resolves ref cause missing
      · exact .pure ()
    | call callee =>
      have called : ∀ now, FaultsOnly (· ≠ .endless) (validator.checkCall id callee pairs ty) now := fun _ =>
        checkCall_faults (resolves callee) fun _ _ parameter _ => resolves parameter
      refine .when (fun _ => checkFunction_faults) fun now => ?_
      split
      · exact called now
      · exact .pure ()
  · intro id declared value _ _ cause failed
    rcases bind_eq_error.mp failed with failed | ⟨_, _, failed⟩
    · rw [(Arena.read_eq_error.mp failed).1]
      simp
    · cases failed

theorem fetches_eq (single : validator.checks.singleParent = true) :
    ∃ fetched, validator.tree.fetches validator.table validator.checks = (validator.run, fetched) ∧
      fetched.length ≤ validator.tree.nodes.size + 1 ∧
      ∀ after, Passes (validator.body (validator.statement validator.depth none) validator.tree.root) {} () after →
        validator.Fetched {} after fetched := by
  obtain ⟨fetched, same, few, met⟩ : validator.Follows
      (Recorded.body validator (Recorded.statement validator validator.depth none) validator.tree.root)
      (validator.body (validator.statement validator.depth none) validator.tree.root) {} :=
    body_follows single fun _ _ => statement_follows single
  refine ⟨fetched, ?_, few.trans (Nat.succ_le_succ (validator.unmet_le_size {})), fun after => met () after⟩
  simp only [Tree.fetches, StateT.run', ExceptT.run_map, StateT.run_map]
  exact congrArg (fun ended => (ended.1.map Prod.fst, ended.2)) (same [])

end Validator

/-- What has been fetched when a tree is accepted is all that can be reached, each node once. -/
theorem Tree.fetches_accepted {tree : Tree} {table : SymbolTable} {checks : Checks} (single : checks.singleParent = true)
    (accepted : tree.validate table checks = .ok ()) :
    (tree.fetches table checks).2.Nodup ∧ ∀ id, id ∈ (tree.fetches table checks).2 ↔ tree.Reachable id := by
  let validator : Validator := ⟨checks, tree, table⟩
  obtain ⟨fetched, both, _, met⟩ := validator.fetches_eq single
  obtain ⟨after, visit⟩ := Validator.run_iff.mp accepted
  obtain ⟨term, root, sound⟩ := Validator.body_sound (validator.statement_sound validator.depth) none tree.root {} after visit
  have own := met after visit
  have same : after.met = fetched.reverse := own.met.trans (List.append_nil _)
  have nodup := own.nodup List.nodup_nil
  change (tree.fetches table checks) = _ at both
  rw [both]
  constructor
  · rw [same, List.nodup_reverse] at nodup
    exact nodup
  · intro id
    rw [sound.stands.reachable_iff root, ← List.mem_reverse, ← same, sound.meets.met id]
    simp [validator, single]

/-- Validation comes to an end, whatever the handles in the tree are: no recursion and no way down to the
variable written is endless. It fetches each node of the arena once at most, and may end with another. -/
theorem Tree.validate_terminates {tree : Tree} {table : SymbolTable} {checks : Checks} (single : checks.singleParent = true)
    (acyclic : Acyclic table.pool.Nests) :
    tree.validate table checks ≠ .error (.fault .endless) ∧
      (tree.fetches table checks).1 = tree.validate table checks ∧
      (tree.fetches table checks).2.length ≤ tree.nodes.size + 1 := by
  let validator : Validator := ⟨checks, tree, table⟩
  have finite : tree.validate table checks ≠ .error (.fault .endless) := fun failed =>
    validate_faults_only single (validator.guards_finite acyclic) failed rfl
  obtain ⟨fetched, both, few, _⟩ := validator.fetches_eq single
  change (tree.fetches table checks) = (tree.validate table checks, fetched) at both
  rw [both]
  exact ⟨finite, rfl, few⟩

def Tree.selfContaining : Tree := { nodes := ⟨#[.block [⟨0⟩]]⟩, root := ⟨0⟩ }

/-- The block is fetched a second time, which is one node more than there are. -/
theorem Tree.validate_terminates_selfContaining :
    let table : SymbolTable := { builtIns := {}, profile := {} }
    Acyclic table.pool.Nests ∧ selfContaining.validate table .all ≠ .error (.fault .endless) ∧
      selfContaining.fetches table .all = (.error (.invalid (.multipleParents ⟨0⟩)), [⟨0⟩, ⟨0⟩]) ∧
      (selfContaining.fetches table .all).2.length ≤ selfContaining.nodes.size + 1 := by
  intro table
  have acyclic : Acyclic table.pool.Nests := Arena.acyclic_of_isOrdered rfl
  obtain ⟨finite, _, few⟩ := @validate_terminates selfContaining table .all rfl acyclic
  exact ⟨acyclic, finite, rfl, few⟩

end ShaderTree
