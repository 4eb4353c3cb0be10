import Mathlib.Data.Finset.Card
import Mathlib.Data.Finset.Range
import ShaderTree.Proofs.Reachability

/-! Faults that a validation can end with. They come from the checks of single nodes: with
the check for single parents the walk itself never runs out of depth, since every node
that it enters is met for the first time, and what it reads of a node that it has
accepted is there. -/
namespace ShaderTree

namespace Validator

variable {causes : Fault → Prop} {before : Progress}

def FaultsOnly (causes : Fault → Prop) (action : ValidateM α) (before : Progress) : Prop :=
  ∀ cause, action.run before = .error (.fault cause) → causes cause

namespace FaultsOnly

theorem of_passes {action : ValidateM α} (passes : Passes action before value after) : FaultsOnly causes action before := by
  intro cause failed
  cases passes.symm.trans failed

theorem pure (value : α) : FaultsOnly causes (Pure.pure value) before := of_passes rfl

theorem get : FaultsOnly causes get before := of_passes rfl

theorem set (state : Progress) : FaultsOnly causes (set state) before := of_passes rfl

theorem modify (change : Progress → Progress) : FaultsOnly causes (modify change) before := of_passes rfl

theorem reject (error : ValidationError) : FaultsOnly causes (Validator.reject error : ValidateM α) before := by
  intro cause failed
  cases failed

theorem accept_or_reject (holds : Prop) [Decidable holds] (value : α) (error : ValidationError) :
    FaultsOnly causes (if holds then Pure.pure value else Validator.reject error) before := by
  split
  · exact pure value
  · exact reject error

theorem require (wanted holds : Bool) (error : ValidationError) :
    FaultsOnly causes (Validator.require wanted holds error) before := by
  unfold Validator.require
  split
  · exact reject error
  · exact pure ()

/-- What comes after a step starts where the step has passed. -/
theorem bind {action : ValidateM α} {next : α → ValidateM β} (first : FaultsOnly causes action before)
    (rest : ∀ value after, Passes action before value after → FaultsOnly causes (next value) after) :
    FaultsOnly causes (action >>= next) before := by
  intro cause failed
  rw [StateT.run_bind] at failed
  cases ran : action.run before with
  | error rejection =>
    rw [ran] at failed
    obtain rfl := Except.error.inj failed
    exact first cause ran
  | ok pair =>
    rw [ran] at failed
    exact rest pair.1 pair.2 ran cause failed

/-- Nothing comes after a rejection. -/
theorem rejected {next : α → ValidateM β} (error : ValidationError) :
    FaultsOnly causes (Validator.reject error >>= next) before :=
  (reject error).bind fun _ _ passes => (Passes.reject_iff.mp passes).elim

theorem map {action : ValidateM α} (f : α → β) (each : FaultsOnly causes action before) :
    FaultsOnly causes (f <$> action) before := by
  rw [map_eq_pure_bind]
  exact each.bind fun _ _ _ => pure _

theorem lift {computation : Except Fault α} (each : ∀ cause, computation = .error cause → causes cause) :
    FaultsOnly causes (liftM computation : ValidateM α) before := by
  intro cause failed
  cases computation with
  | ok value => cases failed
  | error own =>
    cases failed
    exact each _ rfl

/-- Reading what is there. -/
theorem lift_ok {computation : Except Fault α} (done : computation = .ok value) :
    FaultsOnly causes (liftM computation : ValidateM α) before := by
  subst done
  exact lift (by simp)

theorem liftRejection {computation : Except Rejection α}
    (each : ∀ cause, computation = .error (.fault cause) → causes cause) :
    FaultsOnly causes (liftM computation : ValidateM α) before := by
  intro cause failed
  cases computation with
  | ok value => cases failed
  | error own =>
    cases failed
    exact each _ rfl

/-- A check that is made under a condition only. -/
theorem when {condition : Prop} [Decidable condition] {check : ValidateM Unit} {next : ValidateM α}
    (first : condition → FaultsOnly causes check before) (rest : ∀ after, FaultsOnly causes next after) :
    FaultsOnly causes (if condition then do check; next else next) before := by
  split
  · rename_i holds
    exact (first holds).bind fun _ after _ => rest after
  · exact rest before

theorem inScope {action : ValidateM α} {names : List SymbolRef}
    (inside : FaultsOnly causes action { before with visible := names ++ before.visible }) :
    FaultsOnly causes (Validator.inScope names action) before := by
  refine get.bind fun _ _ got => ?_
  obtain ⟨rfl, rfl⟩ := Passes.get_iff.mp got
  refine (modify _).bind fun _ _ opened => ?_
  obtain rfl := Passes.modify_iff.mp opened
  exact inside.bind fun _ _ _ => (modify _).bind fun _ _ _ => pure _

section
variable (inv : Progress → Prop) {items : List α}

theorem forM {step : α → ValidateM Unit} (each : ∀ item ∈ items, ∀ now, inv now → FaultsOnly causes (step item) now)
    (keeps : ∀ item ∈ items, ∀ now after, inv now → Passes (step item) now () after → inv after)
    (start : inv before) : FaultsOnly causes (items.forM step) before := by
  induction items generalizing before with
  | nil => exact pure ()
  | cons item items ih =>
    have first := each item List.mem_cons_self before start
    change FaultsOnly causes (do step item; items.forM step) before
    refine first.bind fun _ after passes => ih ?_ ?_ (keeps item List.mem_cons_self before after start passes)
    · exact fun item member => each item (List.mem_cons_of_mem _ member)
    · exact fun item member => keeps item (List.mem_cons_of_mem _ member)

theorem mapM {step : α → ValidateM β} (each : ∀ item ∈ items, ∀ now, inv now → FaultsOnly causes (step item) now)
    (keeps : ∀ item ∈ items, ∀ now value after, inv now → Passes (step item) now value after → inv after)
    (start : inv before) : FaultsOnly causes (items.mapM step) before := by
  induction items generalizing before with
  | nil => exact pure []
  | cons item items ih =>
    rw [List.mapM_cons]
    refine (each item List.mem_cons_self before start).bind fun value after passes => ?_
    refine bind (ih ?_ ?_ (keeps item List.mem_cons_self before value after start passes)) fun _ _ _ => pure _
    · exact fun item member => each item (List.mem_cons_of_mem _ member)
    · exact fun item member => keeps item (List.mem_cons_of_mem _ member)

end
end FaultsOnly

variable {validator : Validator} {between after : Progress} {id : NodeId} {depth : Nat} {returns : Option Ty}

/-- How many nodes of the arena have not been met. Each node that is fetched takes one away, as it takes
one level of the depth away. -/
def unmet (validator : Validator) (progress : Progress) : Nat :=
  ((Finset.range validator.tree.nodes.size).filter fun index => (⟨index⟩ : NodeId) ∉ progress.met).card

theorem unmet_le_size (validator : Validator) (progress : Progress) :
    validator.unmet progress ≤ validator.tree.nodes.size := by
  rw [← Finset.card_range validator.tree.nodes.size]
  exact Finset.card_filter_le _ _

theorem unmet_lt_depth (validator : Validator) (progress : Progress) : validator.unmet progress < validator.depth := by
  have bound := validator.unmet_le_size progress
  unfold depth
  omega

theorem Meets.unmet_le {single : Bool} {ids : List NodeId} (meets : Meets single ids before after) :
    validator.unmet after ≤ validator.unmet before := by
  apply Finset.card_le_card
  exact Finset.monotone_filter_right _ fun index _ => mt fun met => (meets.met ⟨index⟩).mpr (.inl met)

theorem fetch_unmet (single : validator.checks.singleParent = true) (fetched : Passes (validator.fetch id) before node after) :
    validator.unmet after < validator.unmet before := by
  obtain ⟨found, fresh, rfl⟩ := fetch_iff.mp fetched
  apply Finset.card_lt_card
  refine Finset.ssubset_iff_subset_ne.mpr ⟨?_, fun same => ?_⟩
  · exact Finset.monotone_filter_right _ fun _ _ => mt (by simp +contextual [single])
  · -- The node itself is no longer among them.
    have among : id.index ∈ (Finset.range validator.tree.nodes.size).filter fun index =>
        (⟨index⟩ : NodeId) ∉ before.met :=
      Finset.mem_filter.mpr ⟨Finset.mem_range.mpr (Arena.get?_eq_some_lt found), fresh single⟩
    rw [← same] at among
    exact (Finset.mem_filter.mp among).2 (by simp [single])

section
variable {limit : Nat}

/-- A walk that has room for the nodes not met yet still has it where a visit has passed. -/
theorem Sound.keeps {role : Role} (sound : validator.Sound depth role) (room : validator.unmet before < limit)
    (visit : validator.Visit (validator.statement depth returns) (validator.expression depth) before after role id) :
    validator.unmet after < limit := by
  obtain ⟨_, _, accepted⟩ := sound returns id before after visit
  exact Nat.lt_of_le_of_lt accepted.meets.unmet_le room

variable (room : validator.unmet before < limit)
include room

theorem expression_room (passes : Passes (validator.expression depth id) before ty after) : validator.unmet after < limit := by
  have visit : validator.Visit (validator.statement depth none) (validator.expression depth) before after
      (.expression none) id := ⟨ty, passes, by simp⟩
  exact Sound.keeps (expression_sound none) room visit

theorem condition_room (passes : Passes (validator.condition (validator.expression depth) id) before () after) :
    validator.unmet after < limit := by
  obtain ⟨_, passes, _⟩ := condition_iff.mp passes
  exact expression_room room passes

theorem statement_room (passes : Passes (validator.statement depth returns id) before () after) :
    validator.unmet after < limit :=
  Sound.keeps (statement_sound validator depth) room passes

theorem body_room (passes : Passes (validator.body (validator.statement depth returns) id) before () after) :
    validator.unmet after < limit :=
  Sound.keeps (body_sound (statement_sound validator depth)) room passes

end

/-! ### Single checks -/

theorem fetch_faults : FaultsOnly causes (validator.fetch id) before := by
  unfold fetch
  split
  · exact .reject _
  · split
    · refine .bind .get fun progress now _ => ?_
      split
      · exact .rejected _
      · exact .bind (.set _) fun _ _ _ => .pure _
    · exact .pure _

/-- A node that is fetched is there, and there is one less to come to. -/
theorem fetched_faults (single : validator.checks.singleParent = true) {next : Node → ValidateM α}
    (rest : ∀ node between, validator.tree.nodes.get? id = some node → validator.unmet between < validator.unmet before →
      FaultsOnly causes (next node) between) : FaultsOnly causes (validator.fetch id >>= next) before := by
  refine .bind fetch_faults fun node between fetched => ?_
  obtain ⟨found, _, _⟩ := fetch_iff.mp fetched
  exact rest node between found (fetch_unmet single fetched)

theorem checkHandle_faults {ref : SymbolRef} : FaultsOnly causes (validator.checkHandle ref) before := by
  unfold checkHandle
  split
  · split
    · exact .require _ _ _
    · exact .pure _
  · exact .pure _

/-- The handle of a function is looked for in the pool before it is followed. -/
theorem checkFunction_faults {ref : SymbolRef} : FaultsOnly causes (validator.checkFunction id ref) before := by
  have kind : ∀ symbol now, validator.table.resolve ref = .ok symbol →
      FaultsOnly causes (do
        unless (← liftM (validator.table.resolve ref)).isFunction do reject (.unknownFunction id)) now := by
    intro symbol now resolved
    exact .bind (.lift_ok resolved) fun _ _ _ => .accept_or_reject _ _ _
  unfold checkFunction
  cases ref with
  | builtIn symbol => exact kind _ _ rfl
  | pool handle =>
    by_cases inside : validator.table.pool.contains handle = true
    · obtain ⟨symbol, found⟩ := Arena.get?_of_lt (Arena.contains_iff.mp inside)
      simp only [inside, if_true]
      exact kind symbol before (Arena.read_eq_ok.mpr found)
    · simp only [inside]
      exact .rejected _

/-- The way to the variable written stays inside of a piece that has been accepted. -/
theorem readOnlyWithin_total {checks : Checks} {role : Role} {term : Term} {steps : Nat}
    (right : WellFormed checks validator.table returns role term) (stands : term.Of validator.tree)
    (high : term.height ≤ steps) : ∃ found, validator.readOnlyWithin steps term.id = .ok found := by
  induction right generalizing steps with
  | @mk returns role id node parts suits fits writable below ih =>
    obtain _ | steps := steps
    · exact absurd high (Nat.not_le_of_lt (Term.height_pos _))
    have read : validator.tree.read id = .ok node := Arena.read_eq_ok.mpr stands.found
    simp only [readOnlyWithin, Term.id, read, bind, Except.bind]
    cases node with
    | binary op left right ty =>
      have children : [left, right] = parts.map Term.id := stands.children
      obtain _ | ⟨first, rest⟩ := parts
      · cases children
      obtain rfl : left = first.id := (List.cons.inj children).1
      have own : first ∈ first :: rest := List.mem_cons_self
      have lower : first.height < (Term.mk id (.binary op first.id right ty) (first :: rest)).height :=
        Term.height_lt own
      have low : first.height ≤ steps := by omega
      obtain ⟨inner, among⟩ := Node.exists_role returns _ stands.children own
      obtain ⟨found, rooted⟩ := ih inner first among (stands.parts own) low
      by_cases index : op.isIndex = true
      · exact ⟨found, (if_pos index).trans rooted⟩
      · exact ⟨none, if_neg index⟩
    | symbol ref ty =>
      obtain ⟨_, known, _⟩ := fits
      obtain ⟨symbol, _, resolved, _⟩ := SymbolTable.variableType?_eq_some.mp known
      simp only [resolved]
      exact ⟨_, rfl⟩
    | _ => exact ⟨none, rfl⟩

theorem checkWritable_faults {target : NodeId} (passes : Passes (validator.expression depth target) early ty late) :
    FaultsOnly causes (validator.checkWritable id target) before := by
  obtain ⟨term, rfl, accepted⟩ := expression_sound none none target early late ⟨ty, passes, by simp⟩
  obtain ⟨found, read⟩ := readOnlyWithin_total accepted.wellFormed accepted.stands
    (Nat.le_succ_of_le accepted.stands.height_le_size)
  refine .bind (.lift_ok read) fun _ _ _ => ?_
  split
  · exact .reject _
  · exact .pure _

theorem checkBinary_faults {op : BinaryOp} {right : NodeId} {leftTy rightTy ty : Ty}
    (passes : Passes (validator.expression depth right) early rightTy late) :
    FaultsOnly causes (validator.checkBinary id op right leftTy rightTy ty) before := by
  have bounds : FaultsOnly causes (validator.checkBounds id leftTy right) before := by
    refine .bind (.lift_ok (Tree.face_index (expression_typed passes))) fun found _ _ => ?_
    split
    · exact .accept_or_reject _ _ _
    · exact .pure _
  exact .when (fun _ => bounds) fun _ => .accept_or_reject _ _ _

theorem condition_faults {expression : NodeId → ValidateM Ty} (each : FaultsOnly causes (expression id) before) :
    FaultsOnly causes (validator.condition expression id) before :=
  each.bind fun _ _ _ => .require _ _ _

/-! ### The walk -/

/-- What the checks of the nodes that are reached may fault with. Apart from these, a walk only looks at
what it has found to be there. -/
structure Guards (validator : Validator) (causes : Fault → Prop) : Prop where
  resolve : ∀ id ref ty, validator.tree.Reachable id → validator.tree.nodes.get? id = some (.symbol ref ty) →
    (validator.checks.handles = true → ∀ handle, ref = .pool handle → validator.table.pool.contains handle = true) →
    ∀ cause, validator.table.resolve ref = .error cause → causes cause
  objectSize : ∀ id values ty, validator.tree.Reachable id →
    validator.tree.nodes.get? id = some (.constant values ty) →
    ∀ cause, ty.objectSize validator.table.pool = .error cause → causes cause
  aggregate : ∀ id op arguments ty, validator.tree.Reachable id →
    validator.tree.nodes.get? id = some (.aggregate op arguments ty) → ∀ pairs : Arguments,
    pairs.map Prod.fst = arguments →
    (arguments.map validator.tree.face).map Face.ty? = (pairs.map Prod.snd).map some →
    ∀ before, FaultsOnly causes (validator.checkAggregate id op pairs ty) before
  declarator : ∀ id declared value, validator.tree.Reachable id →
    validator.tree.nodes.get? id = some (.declaration declared (some value)) →
    ∀ cause, validator.tree.ty? declared = .error cause → causes cause

section
variable (guards : validator.Guards causes)
include guards

theorem checkUse_faults {ref : SymbolRef} {ty : Ty} (reached : validator.tree.Reachable id)
    (found : validator.tree.nodes.get? id = some (.symbol ref ty)) :
    FaultsOnly causes (validator.checkUse id ref ty) before := by
  refine .bind checkHandle_faults fun _ _ handled => ?_
  refine .bind (.lift (guards.resolve id ref ty reached found (checkHandle_iff.mp handled).1)) fun symbol _ _ => ?_
  split
  · refine .bind (.bind .get fun _ _ _ => .pure _) fun _ _ _ => ?_
    exact .bind (.require _ _ _) fun _ _ _ => .require _ _ _
  · exact .reject _

theorem constantFits_faults {values : List Scalar} {ty : Ty} (reached : validator.tree.Reachable id)
    (found : validator.tree.nodes.get? id = some (.constant values ty)) :
    FaultsOnly causes (liftM (validator.constantFits values ty)) before := by
  apply FaultsOnly.lift
  intro cause failed
  unfold constantFits at failed
  split at failed
  · cases failed
  · rcases bind_eq_error.mp failed with uncounted | ⟨_, _, failed⟩
    · exact guards.objectSize id values ty reached found cause uncounted
    · cases failed

/-- An operation is checked once its operands have passed. -/
theorem expressionNode_faults {node : Node} (reached : validator.tree.Reachable id)
    (found : validator.tree.nodes.get? id = some node) (room : validator.unmet before < depth)
    (each : ∀ child ∈ node.children, ∀ now, validator.unmet now < depth →
      FaultsOnly causes (validator.expression depth child) now) :
    FaultsOnly causes (validator.expressionNode (validator.expression depth) id node) before := by
  cases node with
  | symbol ref ty => exact .bind (checkUse_faults guards reached found) fun _ _ _ => .pure _
  | constant values ty =>
    refine .bind (constantFits_faults guards reached found) fun _ _ _ => ?_
    exact .bind (.require _ _ _) fun _ _ _ => .pure _
  | binary op left right ty =>
    refine .bind (each left (by simp [Node.children]) _ room) fun leftTy _ first => ?_
    have later := expression_room room first
    refine .bind (each right (by simp [Node.children]) _ later) fun rightTy _ second => ?_
    refine .when (fun _ => checkWritable_faults first) fun _ => ?_
    exact .when (fun _ => checkBinary_faults second) fun _ => .pure _
  | unary op operand ty =>
    refine .bind (each operand (by simp [Node.children]) _ room) fun operandTy _ first => ?_
    refine .when (fun _ => checkWritable_faults first) fun _ => ?_
    exact .bind (.require _ _ _) fun _ _ _ => .pure _
  | ternary test accept reject ty =>
    refine .bind (condition_faults (each test (by simp [Node.children]) _ room)) fun _ _ tested => ?_
    have later := condition_room room tested
    refine .bind (each accept (by simp [Node.children]) _ later) fun _ _ first => ?_
    refine .bind (each reject (by simp [Node.children]) _ (expression_room later first)) fun _ _ _ => ?_
    exact .bind (.require _ _ _) fun _ _ _ => .pure _
  | aggregate op arguments ty =>
    have inner : FaultsOnly causes
        (arguments.mapM fun argument => do return (argument, ← validator.expression depth argument)) before := by
      refine .mapM (fun now => validator.unmet now < depth) ?_ ?_ room
      · exact fun argument member now room => .bind (each argument member now room) fun _ _ _ => .pure _
      · intro argument member now value after room visited
        obtain ⟨_, between, passes, done⟩ := Passes.bind_iff.mp visited
        rw [← (Passes.pure_iff.mp done).2]
        exact expression_room room passes
    refine .bind inner fun pairs _ passes => ?_
    obtain ⟨ids, types, _⟩ := (arguments_iff (fun _ _ _ _ => expression_typed) (fun _ => pure ())).mp passes
    exact .bind (guards.aggregate id op arguments ty reached found pairs ids types _) fun _ _ _ => .pure _
  | _ => exact .reject _

variable (single : validator.checks.singleParent = true)
include single

theorem expression_faults (reached : validator.tree.Reachable id) (room : validator.unmet before < depth) :
    FaultsOnly causes (validator.expression depth id) before := by
  induction depth generalizing id before with
  | zero => exact absurd room (Nat.not_lt_zero _)
  | succ depth ih =>
    refine fetched_faults single fun node between found fewer => ?_
    exact expressionNode_faults guards reached found (by omega) fun child member now room =>
      ih (reached.tail ⟨node, found, member⟩) room

omit single in
theorem declarator_faults (reached : validator.tree.Reachable id) :
    FaultsOnly causes (validator.declarator id) before := by
  refine .bind fetch_faults fun node between fetched => ?_
  obtain ⟨found, _, _⟩ := fetch_iff.mp fetched
  split
  · rename_i ref ty
    refine .bind checkHandle_faults fun _ _ handled => ?_
    refine .bind (.lift (guards.resolve id ref ty reached found (checkHandle_iff.mp handled).1)) fun symbol _ _ => ?_
    split
    · exact .bind (.require _ _ _) fun _ _ _ => .modify _
    · exact .reject _
  · exact .reject _

omit guards single in
theorem block_faults {statements : List NodeId} (room : validator.unmet before < depth)
    (each : ∀ child ∈ statements, ∀ now, validator.unmet now < depth →
      FaultsOnly causes (validator.statement depth returns child) now) :
    FaultsOnly causes (block (validator.statement depth returns) statements) before := by
  apply FaultsOnly.inScope
  apply FaultsOnly.forM (fun now => validator.unmet now < depth) each
  · exact fun child member now after room passes => statement_room room passes
  · exact room

omit guards in
theorem body_faults (reached : validator.tree.Reachable id) (room : validator.unmet before < depth)
    (each : ∀ id now, validator.tree.Reachable id → validator.unmet now < depth →
      FaultsOnly causes (validator.statement depth returns id) now) :
    FaultsOnly causes (validator.body (validator.statement depth returns) id) before := by
  refine fetched_faults single fun node between found fewer => ?_
  split
  · exact block_faults (by omega) fun child member now room =>
      each child now (reached.tail ⟨_, found, member⟩) room
  · exact .reject _

omit guards single in
/-- The parts of a loop, from the last to the first, each with what comes after it. -/
theorem loop_faults {kind : LoopKind} {init test step : Option NodeId} {inner : NodeId}
    (room : validator.unmet before < depth)
    (inits : ∀ part ∈ init, ∀ now, validator.unmet now < depth →
      FaultsOnly causes (validator.statement depth returns part) now)
    (tests : ∀ part ∈ test, ∀ now, validator.unmet now < depth →
      FaultsOnly causes (validator.expression depth part) now)
    (steps : ∀ part ∈ step, ∀ now, validator.unmet now < depth →
      FaultsOnly causes (validator.expression depth part) now)
    (bodies : ∀ now, validator.unmet now < depth →
      FaultsOnly causes (validator.body (validator.statement depth returns) inner) now) :
    FaultsOnly causes (validator.statementNode (validator.statement depth) (validator.expression depth) returns id
      (.loop kind init test step inner)) before := by
  let finish := validator.body (validator.statement depth returns) inner
  let increment := step.elim finish fun step => do
    discard (validator.expression depth step)
    finish
  let start := test.elim increment fun test => do
    validator.condition (validator.expression depth) test
    increment
  have incremented : ∀ now, validator.unmet now < depth → FaultsOnly causes increment now := by
    intro now room
    cases step with
    | none => exact bodies now room
    | some step =>
      refine .bind (.map _ (steps step rfl now room)) fun _ after passes => ?_
      obtain ⟨_, passes⟩ := Passes.discard_iff.mp passes
      exact bodies after (expression_room room passes)
  have started : ∀ now, validator.unmet now < depth → FaultsOnly causes start now := by
    intro now room
    cases test with
    | none => exact incremented now room
    | some test =>
      refine .bind (condition_faults (tests test rfl now room)) fun _ after passes => ?_
      exact incremented after (condition_room room passes)
  apply FaultsOnly.inScope
  cases init with
  | none => cases test <;> cases step <;> exact started _ room
  | some init =>
    refine .bind (inits init rfl _ room) fun _ after passes => ?_
    have later := statement_room room passes
    cases test <;> cases step <;> exact started after later

omit single in
theorem initializer_faults {expression : NodeId → ValidateM Ty} {declared value : NodeId}
    (reached : validator.tree.Reachable id)
    (found : validator.tree.nodes.get? id = some (.declaration declared (some value)))
    (each : FaultsOnly causes (expression value) before) :
    FaultsOnly causes (validator.initializer expression declared value) before := by
  refine each.bind fun ty _ _ => ?_
  refine .bind (.lift (guards.declarator id declared value reached found)) fun _ _ _ => ?_
  split
  · exact .require _ _ _
  · exact .reject _

omit guards single in
theorem branchValue_faults {expression : NodeId → ValidateM Ty} {kind : BranchKind}
    (each : FaultsOnly causes (expression id) before) :
    FaultsOnly causes (validator.branchValue expression returns kind id) before := by
  refine each.bind fun ty _ _ => ?_
  cases returns with
  | none => exact .pure _
  | some expected =>
    simp only
    split
    · exact .require _ _ _
    · exact .pure _

omit guards single in
/-- The function that is defined has just been checked, so it is found. -/
theorem definition_faults {function : SymbolRef} {inner : NodeId} {expression : NodeId → ValidateM Ty}
    (room : validator.unmet before < depth)
    (bodies : ∀ returns now, validator.unmet now < depth →
      FaultsOnly causes (validator.body (validator.statement depth returns) inner) now) :
    FaultsOnly causes (validator.statementNode (validator.statement depth) expression returns id
      (.definition function inner)) before := by
  cases returns with
  | some expected => exact .rejected _
  | none =>
    refine .bind checkFunction_faults fun _ now checked => ?_
    obtain ⟨known, rfl⟩ := checkFunction_iff.mp checked
    obtain ⟨target, found⟩ := Option.isSome_iff_exists.mp known
    obtain ⟨symbol, resolved, _⟩ := SymbolTable.function?_eq_some.mp found
    refine .bind (.lift_ok resolved) fun value _ passes => ?_
    obtain ⟨_, rfl⟩ := Passes.lift_iff.mp passes
    split
    · exact .inScope (bodies _ _ room)
    · exact .reject _

theorem statementNode_faults {node : Node} (reached : validator.tree.Reachable id)
    (found : validator.tree.nodes.get? id = some node) (room : validator.unmet before < depth)
    (each : ∀ returns id now, validator.tree.Reachable id → validator.unmet now < depth →
      FaultsOnly causes (validator.statement depth returns id) now) :
    FaultsOnly causes (validator.statementNode (validator.statement depth) (validator.expression depth) returns id node)
      before := by
  have below : ∀ child ∈ node.children, validator.tree.Reachable child :=
    fun child member => reached.tail ⟨node, found, member⟩
  have operand : ∀ child ∈ node.children, ∀ now, validator.unmet now < depth →
      FaultsOnly causes (validator.expression depth child) now :=
    fun child member now room => expression_faults guards single (below child member) room
  have body : ∀ returns, ∀ child ∈ node.children, ∀ now, validator.unmet now < depth →
      FaultsOnly causes (validator.body (validator.statement depth returns) child) now :=
    fun returns child member now room => body_faults single (below child member) room (each returns)
  cases node with
  | block statements =>
    exact block_faults room fun child member now room => each returns child now (below child member) room
  | declaration declared value =>
    have named : ∀ now, FaultsOnly causes (validator.declarator declared) now :=
      fun _ => declarator_faults guards (below declared (by simp [Node.children]))
    cases value with
    | none => exact named _
    | some value =>
      have initial := operand value (by simp [Node.children]) _ room
      exact .bind (initializer_faults guards reached found initial) fun _ _ _ => named _
  | ifElse test accept reject =>
    refine .bind (condition_faults (operand test (by simp [Node.children]) _ room)) fun _ _ passes => ?_
    have later := condition_room room passes
    refine .bind (body returns accept (by simp [Node.children]) _ later) fun _ _ passes => ?_
    cases reject with
    | none => exact .pure _
    | some reject =>
      exact body returns reject (by simp [Node.children]) _ (body_room later passes)
  | loop kind init test step inner =>
    refine loop_faults room ?_ ?_ ?_ ?_
    · rintro part ⟨⟩ now room
      exact each returns part now (below part (by simp [Node.children])) room
    · rintro part ⟨⟩
      exact operand part (by simp [Node.children])
    · rintro part ⟨⟩
      exact operand part (by simp [Node.children])
    · exact body returns inner (by simp [Node.children])
  | branch kind value =>
    cases value with
    | none => exact .pure _
    | some value => exact branchValue_faults (operand value (by simp [Node.children]) _ room)
  | prototype function => exact checkFunction_faults
  | definition function inner =>
    exact definition_faults room fun returns => body returns inner (by simp [Node.children])
  | _ => exact .map _ (expressionNode_faults guards reached found room operand)

theorem statement_faults (reached : validator.tree.Reachable id) (room : validator.unmet before < depth) :
    FaultsOnly causes (validator.statement depth returns id) before := by
  induction depth generalizing returns id before with
  | zero => exact absurd room (Nat.not_lt_zero _)
  | succ depth ih =>
    refine fetched_faults single fun node between found fewer => ?_
    exact statementNode_faults guards single reached found (by omega) fun returns id now reached room => ih reached room

end

end Validator

/-- With the check for single parents, a validation faults as the checks of the nodes that it reaches do,
and for no other reason: its depth suffices. -/
theorem Tree.validate_faults_only {tree : Tree} {table : SymbolTable} {checks : Checks} {causes : Fault → Prop}
    (single : checks.singleParent = true) (guards : Validator.Guards ⟨checks, tree, table⟩ causes) {cause : Fault}
    (failed : tree.validate table checks = .error (.fault cause)) : causes cause := by
  let validator : Validator := ⟨checks, tree, table⟩
  have walk : Validator.FaultsOnly causes (validator.body (validator.statement validator.depth none) tree.root) {} :=
    Validator.body_faults single .refl (validator.unmet_lt_depth {}) fun id now reached room =>
      Validator.statement_faults guards single reached room
  apply walk
  change Prod.fst <$> (validator.body (validator.statement validator.depth none) tree.root).run {} = _ at failed
  cases ran : (validator.body (validator.statement validator.depth none) tree.root).run {} with
  | ok pair =>
    rw [ran] at failed
    cases failed
  | error rejection =>
    rw [ran] at failed
    exact congrArg Except.error (Except.error.inj failed)

end ShaderTree
