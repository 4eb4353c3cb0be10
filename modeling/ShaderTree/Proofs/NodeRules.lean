import ShaderTree.Proofs.CheckRules

/-! What the validation of a node asks of the node and in which order it visits the
children, with one visit for each role. -/
namespace ShaderTree

def Tree.face (tree : Tree) (id : NodeId) : Face :=
  match tree.nodes.get? id with
  | some node => node.face id
  | none => { id }

theorem Tree.face_id (tree : Tree) (id : NodeId) : (tree.face id).id = id := by
  unfold face
  split <;> rfl

theorem Tree.face_eq {tree : Tree} {id : NodeId} (found : tree.nodes.get? id = some node) :
    tree.face id = node.face id := by
  rw [face, found]

theorem Tree.directIndex_eq {tree : Tree} {id : NodeId} (found : tree.nodes.get? id = some node) :
    tree.directIndex? id = .ok node.index? := by
  simp only [directIndex?, read, Arena.read_eq_ok.mpr found, bind, Except.bind]
  cases node with
  | constant values ty =>
    match values with
    | [] => rfl
    | [.sint value] => rfl
    | [.uint value] => rfl
    | [.float bits] => rfl
    | [.bool value] => rfl
    | _ :: _ :: _ => simp [Node.index?, pure, Except.pure]
  | _ => rfl

theorem Tree.face_index {tree : Tree} {id : NodeId} (typed : (tree.face id).ty? = some ty) :
    tree.directIndex? id = .ok (tree.face id).index? := by
  cases found : tree.nodes.get? id with
  | none => simp [face, found] at typed
  | some node =>
    rw [directIndex_eq found, face_eq found]
    rfl

namespace Validator

variable {validator : Validator} {before after : Progress} {id : NodeId}

/-- A visit of the node at `id` in its role, leading from one progress to another. -/
def Visit (validator : Validator) (statement : NodeId → ValidateM Unit) (expression : NodeId → ValidateM Ty)
    (before after : Progress) : Role → NodeId → Prop
  | .expression expected, id => ∃ ty, Passes (expression id) before ty after ∧
      (validator.checks.types = true → ∀ other ∈ expected, ty.sameShape other = true)
  | .statement, id => Passes (statement id) before () after
  | .body, id => Passes (validator.body statement id) before () after
  | .declarator, id => Passes (validator.declarator id) before () after

def Visits (validator : Validator) (statement : NodeId → ValidateM Unit) (expression : NodeId → ValidateM Ty) :
    (before after : Progress) → List (Role × NodeId) → Prop
  | before, after, [] => before = after
  | before, after, (role, id) :: rest => ∃ between,
      validator.Visit statement expression before between role id ∧
      validator.Visits statement expression between after rest

/-- What is asked of the node at `id` itself, where `visible` are the variables in scope. -/
structure Rule (validator : Validator) (returns : Option Ty) (visible : List SymbolRef) (id : NodeId)
    (node : Node) : Prop where
  fits : Node.Fits validator.checks validator.table returns (node.children.map validator.tree.face) id node
  writable : node.writes = true → ∀ target ∈ node.children.head?,
    validator.readOnlyWithin (validator.tree.nodes.size + 1) target = .ok none
  own : validator.checks.references = true → ∀ ref ∈ node.symbol?, ref.VisibleIn visible

def places (validator : Validator) (returns : Option Ty) (node : Node) : List (Role × NodeId) :=
  (node.roles returns (node.children.map validator.tree.face)).zip node.children

section
variable {expression : NodeId → ValidateM Ty} {statement : NodeId → ValidateM Unit}
  {returns : Option Ty} {ty result : Ty}
  (typed : ∀ id before ty after, Passes (expression id) before ty after →
    (validator.tree.face id).ty? = some ty)

include typed in
theorem arguments_iff (statement : NodeId → ValidateM Unit) {arguments : List NodeId} {pairs : Arguments} :
    Passes (arguments.mapM fun argument => do return (argument, ← expression argument)) before pairs after ↔
      pairs.map Prod.fst = arguments ∧
      (arguments.map validator.tree.face).map Face.ty? = (pairs.map Prod.snd).map some ∧
      validator.Visits statement expression before after
        ((arguments.map fun _ => Role.expression none).zip arguments) := by
  induction arguments generalizing pairs before with
  | nil =>
    simp only [List.mapM_nil, Passes.pure_iff, List.map_eq_nil_iff, List.map_nil, List.zip_nil_left, Visits]
    constructor
    · rintro ⟨rfl, rfl⟩
      exact ⟨rfl, rfl, rfl⟩
    · rintro ⟨rfl, _, rfl⟩
      exact ⟨rfl, rfl⟩
  | cons argument arguments ih =>
    simp only [List.mapM_cons, Passes.bind_iff, Passes.pure_iff, List.map_cons, List.zip_cons_cons, Visits]
    constructor
    · rintro ⟨_, _, ⟨ty, _, passes, rfl, rfl⟩, others, _, rest, rfl, rfl⟩
      obtain ⟨ids, types, visits⟩ := ih.mp rest
      refine ⟨?_, ?_, _, ⟨ty, passes, by simp⟩, visits⟩
      · rw [List.map_cons, ids]
      · rw [List.map_cons, List.map_cons, typed _ _ _ _ passes, types]
    · rintro ⟨ids, types, between, ⟨ty, passes, _⟩, visits⟩
      obtain _ | ⟨⟨first, firstTy⟩, others⟩ := pairs
      · simp at ids
      · simp only [List.map_cons, List.cons.injEq] at ids types
        obtain ⟨rfl, ids⟩ := ids
        obtain rfl := Option.some.inj ((typed _ _ _ _ passes).symm.trans types.1)
        exact ⟨_, between, ⟨ty, between, passes, rfl, rfl⟩, others, after, ih.mpr ⟨ids, types.2, visits⟩,
          rfl, rfl⟩

include typed in
theorem binary_iff {op : BinaryOp} {left right : NodeId} :
    Passes (validator.expressionNode expression id (.binary op left right ty)) before result after ↔
      ty = result ∧ validator.Rule returns before.visible id (.binary op left right ty) ∧
      validator.Visits statement expression before after
        (validator.places returns (.binary op left right ty)) := by
  unfold expressionNode
  simp only [Passes.bind_iff,
    Passes.when_iff (fun before after => checkWritable_iff id left),
    Passes.when_iff (fun before after => checkBinary_iff), Passes.pure_iff]
  constructor
  · rintro ⟨leftTy, middle, first, rightTy, _, second, writable, agrees, rfl, rfl⟩
    have rightFace := typed _ _ _ _ second
    refine ⟨rfl, ⟨⟨_, _, leftTy, rightTy, rfl, typed _ _ _ _ first, rightFace, fun types => ?_⟩, ?_, ?_⟩,
      middle, ⟨leftTy, first, by simp⟩, _, ⟨rightTy, second, by simp⟩, rfl⟩
    · refine ⟨fun direct => ?_, (agrees types).2⟩
      obtain ⟨found, read, bounded⟩ := (agrees types).1 direct
      rw [Tree.face_index rightFace] at read
      exact Except.ok.inj read ▸ bounded
    · rintro writes _ ⟨⟩
      exact writable writes
    · simp [Node.symbol?]
  · rintro ⟨rfl, ⟨fits, writable, _⟩, middle, ⟨leftTy, first, _⟩, _, ⟨rightTy, second, _⟩, rfl⟩
    have leftFace := typed _ _ _ _ first
    have rightFace := typed _ _ _ _ second
    obtain ⟨_, _, _, _, faces, leftKnown, rightKnown, agrees⟩ := fits
    cases faces
    obtain rfl := Option.some.inj (leftFace.symm.trans leftKnown)
    obtain rfl := Option.some.inj (rightFace.symm.trans rightKnown)
    refine ⟨leftTy, middle, first, rightTy, _, second, fun writes => writable writes left rfl, fun types => ?_,
      rfl, rfl⟩
    exact ⟨fun direct => ⟨_, Tree.face_index rightFace, (agrees types).1 direct⟩, (agrees types).2⟩

include typed in
theorem unary_iff {op : UnaryOp} {operand : NodeId} :
    Passes (validator.expressionNode expression id (.unary op operand ty)) before result after ↔
      ty = result ∧ validator.Rule returns before.visible id (.unary op operand ty) ∧
      validator.Visits statement expression before after
        (validator.places returns (.unary op operand ty)) := by
  unfold expressionNode
  simp only [Passes.bind_iff,
    Passes.when_iff (fun before after => checkWritable_iff id operand),
    Passes.require_iff, Passes.pure_iff]
  constructor
  · rintro ⟨operandTy, _, first, writable, _, _, ⟨agrees, rfl⟩, rfl, rfl⟩
    refine ⟨rfl, ⟨⟨_, operandTy, rfl, typed _ _ _ _ first, fun types => ?_⟩, ?_, ?_⟩, _,
      ⟨operandTy, first, by simp⟩, rfl⟩
    · simpa only [Bool.and_eq_true] using agrees types
    · rintro writes _ ⟨⟩
      exact writable writes
    · simp [Node.symbol?]
  · rintro ⟨rfl, ⟨fits, writable, _⟩, _, ⟨operandTy, first, _⟩, rfl⟩
    obtain ⟨_, _, faces, known, agrees⟩ := fits
    cases faces
    obtain rfl := Option.some.inj ((typed _ _ _ _ first).symm.trans known)
    refine ⟨operandTy, _, first, fun writes => writable writes operand rfl, (), _, ⟨fun types => ?_, rfl⟩, rfl, rfl⟩
    simpa only [Bool.and_eq_true] using agrees types

theorem ternary_iff {test accept reject : NodeId} :
    Passes (validator.expressionNode expression id (.ternary test accept reject ty)) before result after ↔
      ty = result ∧ validator.Rule returns before.visible id (.ternary test accept reject ty) ∧
      validator.Visits statement expression before after
        (validator.places returns (.ternary test accept reject ty)) := by
  unfold expressionNode
  simp only [Passes.bind_iff, condition_iff, Passes.require_iff, Passes.pure_iff]
  constructor
  · rintro ⟨_, middle, ⟨testTy, tested, shape⟩, acceptTy, between, first, rejectTy, _, second, _, _,
      ⟨agrees, rfl⟩, rfl, rfl⟩
    simp only [Bool.and_eq_true] at agrees
    refine ⟨rfl, ⟨trivial, by simp [Node.writes], by simp [Node.symbol?]⟩, middle, ⟨testTy, tested, ?_⟩, between,
      ⟨acceptTy, first, ?_⟩, _, ⟨rejectTy, second, ?_⟩, rfl⟩
    · rintro types _ ⟨⟩
      exact shape types
    · rintro types _ ⟨⟩
      exact (agrees types).1
    · rintro types _ ⟨⟩
      exact (agrees types).2
  · rintro ⟨rfl, _, middle, ⟨testTy, tested, shape⟩, between, ⟨acceptTy, first, left⟩, _,
      ⟨rejectTy, second, right⟩, rfl⟩
    refine ⟨(), middle, ⟨testTy, tested, fun types => shape types _ rfl⟩, acceptTy, between, first, rejectTy, _,
      second, (), _, ⟨fun types => ?_, rfl⟩, rfl, rfl⟩
    simp only [Bool.and_eq_true]
    exact ⟨left types _ rfl, right types _ rfl⟩

include typed in
theorem aggregate_iff {op : AggregateOp} {arguments : List NodeId} :
    Passes (validator.expressionNode expression id (.aggregate op arguments ty)) before result after ↔
      ty = result ∧ validator.Rule returns before.visible id (.aggregate op arguments ty) ∧
      validator.Visits statement expression before after
        (validator.places returns (.aggregate op arguments ty)) := by
  unfold expressionNode
  simp only [Passes.bind_iff, arguments_iff typed statement, checkAggregate_iff,
    Passes.pure_iff]
  have faces : (arguments.map validator.tree.face).map Face.id = arguments := by
    rw [List.map_map]
    exact (List.map_congr_left fun id _ => Tree.face_id _ id).trans (List.map_id _)
  have rule : ∀ pairs : Arguments, pairs.map Prod.fst = arguments →
      (arguments.map validator.tree.face).map Face.ty? = (pairs.map Prod.snd).map some →
      (Node.Fits validator.checks validator.table returns (arguments.map validator.tree.face) id
        (.aggregate op arguments ty) ↔ validator.Agrees id pairs ty op) := by
    intro pairs ids known
    have zip : arguments.zip (pairs.map Prod.snd) = pairs := by
      rw [← ids]
      exact (List.zip_of_prod rfl rfl).symm
    have same : ∀ others : List Ty, (arguments.map validator.tree.face).map Face.ty? = others.map some →
        others = pairs.map Prod.snd := fun others other =>
      List.map_injective_iff.mpr (fun _ _ => Option.some.inj) (other.symm.trans known)
    cases op with
    | construct =>
      simp only [Node.Fits, Agrees, faces]
      constructor
      · rintro ⟨others, other, agrees⟩
        rw [same others other, zip] at agrees
        exact agrees
      · intro agrees
        exact ⟨_, known, zip.symm ▸ agrees⟩
    | call function =>
      simp only [Node.Fits, Agrees]
      constructor
      · rintro ⟨others, other, agrees⟩
        exact same others other ▸ agrees
      · exact fun agrees => ⟨_, known, agrees⟩
  constructor
  · rintro ⟨pairs, _, ⟨ids, types, visits⟩, _, _, ⟨agrees, rfl⟩, rfl, rfl⟩
    exact ⟨rfl, ⟨(rule pairs ids types).mpr agrees, by simp [Node.writes], by simp [Node.symbol?]⟩, visits⟩
  · rintro ⟨rfl, ⟨fits, _, _⟩, visits⟩
    have known : ∃ types : List Ty, (arguments.map validator.tree.face).map Face.ty? = types.map some := by
      cases op with
      | construct => exact fits.imp fun _ holds => holds.1
      | call function => exact fits.imp fun _ holds => holds.1
    obtain ⟨types, known⟩ := known
    have length : arguments.length = types.length := by simpa using congrArg List.length known
    have firsts := List.map_fst_zip (Nat.le_of_eq length)
    have seconds := List.map_snd_zip (Nat.le_of_eq length.symm)
    rw [← seconds] at known
    exact ⟨arguments.zip types, _, ⟨firsts, known, visits⟩, (), _, ⟨(rule _ firsts known).mp fits, rfl⟩, rfl, rfl⟩

theorem use_iff {ref : SymbolRef} :
    Passes (validator.expressionNode expression id (.symbol ref ty)) before result after ↔
      ty = result ∧ validator.Rule returns before.visible id (.symbol ref ty) ∧
      validator.Visits statement expression before after (validator.places returns (.symbol ref ty)) := by
  unfold expressionNode
  simp only [Passes.bind_iff, checkUse_iff, Passes.pure_iff]
  constructor
  · rintro ⟨_, _, ⟨known, visible, rfl⟩, rfl, rfl⟩
    refine ⟨rfl, ⟨known, by simp [Node.writes], ?_⟩, rfl⟩
    rintro references _ ⟨⟩
    exact visible references
  · rintro ⟨rfl, ⟨known, _, visible⟩, rfl⟩
    exact ⟨(), before, ⟨known, fun references => visible references ref rfl, rfl⟩, rfl, rfl⟩

theorem constantFits_iff {values : List Scalar} : (∃ fits, validator.constantFits values ty = .ok fits ∧
      (validator.checks.types = true → fits = true)) ↔
    ty.isStruct = true ∨ ∃ size, ty.objectSize validator.table.pool = .ok size ∧
      (validator.checks.types = true → values.length = size ∧
        ∀ value ∈ values, some value.kind = ty.scalarKind?) := by
  unfold constantFits
  cases ty.isStruct with
  | true => simp
  | false =>
    simp only [Bool.false_eq_true, if_false, bind_eq_ok, pure_eq_ok, false_or]
    constructor
    · rintro ⟨_, ⟨size, counted, rfl⟩, agrees⟩
      exact ⟨size, counted, fun types => by simpa using agrees types⟩
    · rintro ⟨size, counted, agrees⟩
      exact ⟨_, ⟨size, counted, rfl⟩, fun types => by simpa using agrees types⟩

theorem constant_iff {values : List Scalar} :
    Passes (validator.expressionNode expression id (.constant values ty)) before result after ↔
      ty = result ∧ validator.Rule returns before.visible id (.constant values ty) ∧
      validator.Visits statement expression before after (validator.places returns (.constant values ty)) := by
  unfold expressionNode
  simp only [Passes.bind_iff, Passes.lift_iff, Passes.require_iff, Passes.pure_iff]
  constructor
  · rintro ⟨fits, _, ⟨read, rfl⟩, _, _, ⟨agrees, rfl⟩, rfl, rfl⟩
    exact ⟨rfl, ⟨constantFits_iff.mp ⟨fits, read, agrees⟩, by simp [Node.writes], by simp [Node.symbol?]⟩, rfl⟩
  · rintro ⟨rfl, ⟨rule, _, _⟩, rfl⟩
    obtain ⟨fits, read, agrees⟩ := constantFits_iff.mpr rule
    exact ⟨fits, before, ⟨read, rfl⟩, (), before, ⟨agrees, rfl⟩, rfl, rfl⟩

include typed in
/-- Expressions are visited in the order of their children. -/
theorem expressionNode_iff (statement : NodeId → ValidateM Unit) (returns : Option Ty) {node : Node} :
    Passes (validator.expressionNode expression id node) before result after ↔
      node.ty? = some result ∧ validator.Rule returns before.visible id node ∧
      validator.Visits statement expression before after (validator.places returns node) := by
  cases node with
  | symbol ref ty => exact use_iff.trans (and_congr (by simp [Node.ty?]) Iff.rfl)
  | constant values ty => exact constant_iff.trans (and_congr (by simp [Node.ty?]) Iff.rfl)
  | binary op left right ty => exact (binary_iff typed).trans (and_congr (by simp [Node.ty?]) Iff.rfl)
  | unary op operand ty => exact (unary_iff typed).trans (and_congr (by simp [Node.ty?]) Iff.rfl)
  | ternary test accept reject ty => exact ternary_iff.trans (and_congr (by simp [Node.ty?]) Iff.rfl)
  | aggregate op arguments ty => exact (aggregate_iff typed).trans (and_congr (by simp [Node.ty?]) Iff.rfl)
  | _ =>
    unfold expressionNode
    simp [Passes.reject_iff, Node.ty?]

end

/-- The order in which the children are visited: the initial value before the variable it is for. -/
def order : Node → List (Role × NodeId) → List (Role × NodeId)
  | .declaration _ _, places => places.reverse
  | _, places => places

def declares (tree : Tree) : Node → List SymbolRef
  | .declaration declarator _ => (tree.face declarator).symbol?.toList
  | _ => []

section
variable {expression : NodeId → ValidateM Ty} {statement : Option Ty → NodeId → ValidateM Unit}
  {returns : Option Ty}

/-- The node at `id` is right, and its children are visited in a scope of their own. -/
def Enters (validator : Validator) (statement : Option Ty → NodeId → ValidateM Unit)
    (expression : NodeId → ValidateM Ty) (returns : Option Ty) (id : NodeId) (node : Node)
    (before after : Progress) : Prop :=
  validator.Rule returns before.visible id node ∧ ∃ inside,
    validator.Visits (statement (node.inner validator.table returns)) expression
      { before with visible := node.names validator.table ++ before.visible } inside
      (order node (validator.places returns node)) ∧
    after = { inside with visible := declares validator.tree node ++ before.visible }

theorem forM_visits (validator : Validator) (expression : NodeId → ValidateM Ty) {statements : List NodeId} {one : NodeId → ValidateM Unit} :
    Passes (statements.forM one) before () after ↔
      validator.Visits one expression before after ((statements.map fun _ => Role.statement).zip statements) := by
  induction statements generalizing before with
  | nil => simp [Passes.pure_iff, Visits]
  | cons first rest ih =>
    change Passes (do one first; rest.forM one) before () after ↔ _
    simp only [Passes.seq_iff, ih, List.map_cons, List.zip_cons_cons, Visits, Visit]

theorem block_iff {statements : List NodeId} :
    Passes (validator.statementNode statement expression returns id (.block statements)) before () after ↔
      validator.Enters statement expression returns id (.block statements) before after := by
  unfold statementNode
  simp only [block, Passes.inScope_iff, forM_visits validator expression]
  constructor
  · rintro ⟨inside, visits, rfl⟩
    exact ⟨⟨trivial, by simp [Node.writes], by simp [Node.symbol?]⟩, inside, visits, rfl⟩
  · rintro ⟨_, inside, visits, rfl⟩
    exact ⟨inside, visits, rfl⟩

theorem body_visible {one : NodeId → ValidateM Unit} (passes : Passes (validator.body one id) before () after) :
    after.visible = before.visible := by
  simp only [body, Passes.bind_iff, fetch_iff] at passes
  obtain ⟨node, _, ⟨_, _, rfl⟩, rest⟩ := passes
  cases node with
  | block statements =>
    obtain ⟨inside, _, rfl⟩ := Passes.inScope_iff.mp rest
    split <;> rfl
  | _ => simp [Passes.reject_iff] at rest

theorem prototype_iff {function : SymbolRef} :
    Passes (validator.statementNode statement expression returns id (.prototype function)) before () after ↔
      validator.Enters statement expression returns id (.prototype function) before after := by
  unfold statementNode
  simp only [checkFunction_iff]
  constructor
  · rintro ⟨known, rfl⟩
    exact ⟨⟨known, by simp [Node.writes], by simp [Node.symbol?]⟩, before, rfl, rfl⟩
  · rintro ⟨⟨known, _, _⟩, inside, visits, rfl⟩
    obtain rfl := visits
    exact ⟨known, rfl⟩

theorem loop_iff {kind : LoopKind} {init test step : Option NodeId} {inner : NodeId} :
    Passes (validator.statementNode statement expression returns id (.loop kind init test step inner)) before () after ↔
      validator.Enters statement expression returns id (.loop kind init test step inner) before after := by
  have rule : validator.Rule returns before.visible id (.loop kind init test step inner) :=
    ⟨trivial, by simp [Node.writes], by simp [Node.symbol?]⟩
  unfold statementNode
  simp only [Passes.inScope_iff]
  cases init <;> cases test <;> cases step <;>
    simp [Enters, rule, places, order, declares, Node.roles, Node.children, Node.names, Node.inner, Visits, Visit,
      Passes.bind_iff, Passes.discard_iff, condition_iff, exists_unit]

/-- Visits of expressions and bodies leave the variables in scope as they are. -/
theorem visits_visible {one : NodeId → ValidateM Unit}
    (keeps : ∀ id before ty after, Passes (expression id) before ty after → after.visible = before.visible)
    {pairs : List (Role × NodeId)} (visits : validator.Visits one expression before after pairs)
    (inner : ∀ pair ∈ pairs, pair.1 ≠ .statement ∧ pair.1 ≠ .declarator) : after.visible = before.visible := by
  induction pairs generalizing before with
  | nil => exact congrArg Progress.visible (Eq.symm visits)
  | cons pair pairs ih =>
    obtain ⟨role, id⟩ := pair
    obtain ⟨between, first, rest⟩ := visits
    obtain ⟨plain, others⟩ := List.forall_mem_cons.mp inner
    refine (ih rest others).trans ?_
    cases role with
    | expression expected =>
      obtain ⟨ty, passes, _⟩ := first
      exact keeps _ _ _ _ passes
    | body => exact body_visible first
    | statement => exact absurd rfl plain.1
    | declarator => exact absurd rfl plain.2

/-- A node that opens no scope and declares nothing enters its children directly. -/
theorem enters_iff {node : Node}
    (keeps : ∀ id before ty after, Passes (expression id) before ty after → after.visible = before.visible)
    (plain : node.names validator.table = [] ∧ declares validator.tree node = [] ∧
      order node (validator.places returns node) = validator.places returns node)
    (inner : ∀ pair ∈ validator.places returns node, pair.1 ≠ .statement ∧ pair.1 ≠ .declarator) :
    validator.Enters statement expression returns id node before after ↔
      validator.Rule returns before.visible id node ∧
      validator.Visits (statement (node.inner validator.table returns)) expression before after
        (validator.places returns node) := by
  simp only [Enters, plain, List.nil_append]
  refine and_congr Iff.rfl ⟨?_, ?_⟩
  · rintro ⟨inside, visits, rfl⟩
    have same := visits_visible keeps visits inner
    simp only at same
    rw [← same]
    exact visits
  · intro visits
    have same := visits_visible keeps visits inner
    exact ⟨after, visits, by rw [← same]⟩

theorem ifElse_iff {test accept : NodeId} {reject : Option NodeId}
    (keeps : ∀ id before ty after, Passes (expression id) before ty after → after.visible = before.visible) :
    Passes (validator.statementNode statement expression returns id (.ifElse test accept reject)) before () after ↔
      validator.Enters statement expression returns id (.ifElse test accept reject) before after := by
  have rule : validator.Rule returns before.visible id (.ifElse test accept reject) :=
    ⟨trivial, by simp [Node.writes], by simp [Node.symbol?]⟩
  rw [enters_iff keeps ⟨rfl, rfl, rfl⟩ (by cases reject <;> simp [places, Node.roles, Node.children])]
  unfold statementNode
  cases reject <;>
    simp [rule, places, Node.roles, Node.children, Node.inner, Visits, Visit, Passes.bind_iff, condition_iff,
      exists_unit]

theorem sameShape_comm (first second : Ty) : first.sameShape second = second.sameShape first := by
  simp [Ty.sameShape, eq_comm]

theorem branch_iff {kind : BranchKind} {value : Option NodeId}
    (keeps : ∀ id before ty after, Passes (expression id) before ty after → after.visible = before.visible) :
    Passes (validator.statementNode statement expression returns id (.branch kind value)) before () after ↔
      validator.Enters statement expression returns id (.branch kind value) before after := by
  have rule : validator.Rule returns before.visible id (.branch kind value) :=
    ⟨trivial, by simp [Node.writes], by simp [Node.symbol?]⟩
  rw [enters_iff keeps ⟨rfl, rfl, rfl⟩ (by cases value <;> simp [places, Node.roles, Node.children])]
  unfold statementNode
  cases value with
  | none => simp [rule, places, Node.roles, Node.children, Visits, Passes.pure_iff]
  | some value =>
    cases returns with
    | none =>
      simp [rule, places, Node.roles, Node.children, Visits, Visit, branchValue, Passes.map_iff]
    | some expected =>
      by_cases returned : kind = .returnFrom
      · subst returned
        simp [rule, places, Node.roles, Node.children, Visits, Visit, branchValue, Passes.bind_iff,
          Passes.require_iff, sameShape_comm expected]
      · simp [rule, returned, places, Node.roles, Node.children, Visits, Visit, branchValue, Passes.map_iff]

theorem definition_iff {function : SymbolRef} {inner : NodeId} :
    Passes (validator.statementNode statement expression returns id (.definition function inner)) before () after ↔
      validator.Enters statement expression returns id (.definition function inner) before after := by
  have rule : validator.Rule returns before.visible id (.definition function inner) ↔
      returns = none ∧ (validator.table.function? function).isSome = true :=
    ⟨Rule.fits, fun fits => ⟨fits, by simp [Node.writes], by simp [Node.symbol?]⟩⟩
  simp only [Enters, rule]
  cases returns with
  | some expected =>
    unfold statementNode
    simp [Passes.bind_iff, Passes.reject_iff]
  | none =>
    unfold statementNode
    simp only [Option.isSome_none, Bool.false_eq_true, if_false, Passes.bind_iff,
      checkFunction_iff, Passes.lift_iff, true_and]
    constructor
    · rintro ⟨_, _, ⟨known, rfl⟩, symbol, _, ⟨resolved, rfl⟩, rest⟩
      cases called : symbol.asFunction? with
      | none => simp [called, Passes.reject_iff] at rest
      | some target =>
        simp only [called, Passes.inScope_iff] at rest
        obtain ⟨inside, passes, rfl⟩ := rest
        have found := SymbolTable.function?_eq_some.mpr ⟨symbol, resolved, called⟩
        refine ⟨known, inside, ?_, rfl⟩
        simp only [order, places, Node.roles, Node.children, Visits, Visit, Node.names, Node.inner, found,
          List.zip_cons_cons, List.zip_nil_left]
        exact ⟨inside, passes, rfl⟩
    · rintro ⟨known, inside, visits, rfl⟩
      obtain ⟨target, found⟩ := Option.isSome_iff_exists.mp known
      obtain ⟨symbol, resolved, called⟩ := SymbolTable.function?_eq_some.mp found
      refine ⟨(), before, ⟨known, rfl⟩, symbol, before, ⟨resolved, rfl⟩, ?_⟩
      simp only [order, places, Node.roles, Node.children, Visits, Visit, Node.names, Node.inner, found,
        List.zip_cons_cons, List.zip_nil_left] at visits
      obtain ⟨_, passes, rfl⟩ := visits
      simp only [called, Passes.inScope_iff]
      exact ⟨_, passes, rfl⟩

/-- The declarator is a use of the variable that the declaration declares. -/
theorem declarator_face (passes : Passes (validator.declarator id) before () after) :
    ∃ ref ty, (validator.tree.face id).symbol? = some ref ∧ (validator.tree.face id).ty? = some ty ∧
      validator.tree.ty? id = .ok (some ty) ∧ after.visible = ref :: before.visible := by
  obtain ⟨ref, ty, _, between, fetched, _, _, rfl⟩ := declarator_iff.mp passes
  obtain ⟨found, _, rfl⟩ := fetch_iff.mp fetched
  refine ⟨ref, ty, ?_, ?_, ?_, ?_⟩
  · rw [Tree.face_eq found]
    rfl
  · rw [Tree.face_eq found]
    rfl
  · simp only [Tree.ty?, Tree.read, Arena.read_eq_ok.mpr found, bind, Except.bind, pure, Except.pure, Node.ty?]
  · split <;> rfl

theorem declaration_iff {declared : NodeId} {value : Option NodeId}
    (keeps : ∀ id before ty after, Passes (expression id) before ty after → after.visible = before.visible) :
    Passes (validator.statementNode statement expression returns id (.declaration declared value)) before () after ↔
      validator.Enters statement expression returns id (.declaration declared value) before after := by
  have rule : validator.Rule returns before.visible id (.declaration declared value) :=
    ⟨trivial, by simp [Node.writes], by simp [Node.symbol?]⟩
  cases value with
  | none =>
    unfold statementNode
    simp only [Enters, rule, true_and, places, order, Node.roles, Node.children, Option.toList,
      List.map_nil, List.zip_cons_cons, List.zip_nil_left, List.reverse_singleton, Visits, Visit]
    constructor
    · intro passes
      obtain ⟨ref, ty, symbol, _, _, visible⟩ := declarator_face passes
      refine ⟨after, ⟨after, passes, rfl⟩, ?_⟩
      simp [declares, symbol, ← visible]
    · rintro ⟨_, ⟨_, passes, rfl⟩, rfl⟩
      obtain ⟨ref, ty, symbol, _, _, visible⟩ := declarator_face passes
      simp only [declares, symbol, Option.toList, List.singleton_append]
      simp only [Node.names, List.nil_append] at visible passes
      rw [← visible]
      exact passes
  | some value =>
    unfold statementNode
    simp only [Enters, rule, true_and, places, order, Node.roles, Node.children, Option.toList,
      List.map_cons, List.map_nil, List.head?_cons, Option.bind_some, List.zip_cons_cons, List.zip_nil_left,
      List.reverse_cons, List.reverse_nil, List.nil_append, List.singleton_append, Visits, Visit, initializer,
      Passes.bind_iff, Passes.lift_iff]
    constructor
    · rintro ⟨_, middle, ⟨found, _, passes, expected, _, ⟨read, rfl⟩, rest⟩, final⟩
      obtain ⟨ref, ty, symbol, type, known, visible⟩ := declarator_face final
      cases read.symm.trans known
      obtain ⟨shape, rfl⟩ := Passes.require_iff.mp rest
      refine ⟨after, ⟨_, ⟨found, passes, ?_⟩, after, final, rfl⟩, ?_⟩
      · intro types other same
        rw [type] at same
        cases same
        exact shape types
      · rw [keeps _ _ _ _ passes] at visible
        simp [declares, symbol, ← visible]
    · rintro ⟨_, ⟨middle, ⟨found, passes, shape⟩, _, final, rfl⟩, rfl⟩
      obtain ⟨ref, ty, symbol, type, known, visible⟩ := declarator_face final
      refine ⟨(), middle, ⟨found, middle, passes, some ty, middle, ⟨known, rfl⟩, ?_⟩, ?_⟩
      · refine Passes.require_iff.mpr ⟨fun types => shape types ty ?_, rfl⟩
        rw [type]
        rfl
      · rw [keeps _ _ _ _ passes] at visible
        simp only [Node.names, List.nil_append] at visible
        simp only [declares, symbol, Option.toList, List.singleton_append, ← visible]
        exact final

/-- The parts of an expression are expressions. -/
theorem roles_expression {node : Node} {ty : Ty} {faces : List Face} {role : Role}
    (isExpression : node.ty? = some ty) (member : role ∈ node.roles returns faces) :
    ∃ expected, role = .expression expected := by
  cases node with
  | symbol | constant => cases member
  | binary | unary | ternary =>
    simp only [Node.roles, List.mem_cons, List.not_mem_nil, or_false, or_self] at member
    grind
  | aggregate op arguments ty =>
    obtain ⟨_, _, rfl⟩ := List.mem_map.mp member
    exact ⟨_, rfl⟩
  | _ => cases isExpression

theorem places_expression {node : Node} {ty : Ty} (isExpression : node.ty? = some ty) :
    ∀ pair ∈ validator.places returns node, pair.1 ≠ .statement ∧ pair.1 ≠ .declarator := by
  intro pair member
  obtain ⟨expected, same⟩ := roles_expression isExpression (List.of_mem_zip member).1
  rw [same]
  simp

/-- Expressions open no scope and declare nothing. -/
theorem expression_enters {node : Node} {ty : Ty} (isExpression : node.ty? = some ty)
    (typed : ∀ id before ty after, Passes (expression id) before ty after →
      (validator.tree.face id).ty? = some ty)
    (keeps : ∀ id before ty after, Passes (expression id) before ty after → after.visible = before.visible) :
    Passes (validator.expressionNode expression id node) before ty after ↔
      validator.Enters statement expression returns id node before after := by
  have rule : _ ↔ node.ty? = some ty ∧ validator.Rule returns before.visible id node ∧
      validator.Visits (statement returns) expression before after (validator.places returns node) :=
    expressionNode_iff typed _ _
  simp only [isExpression, true_and] at rule
  rw [rule, enters_iff keeps]
  · cases node <;> first | rfl | cases isExpression
  · cases node <;> first | exact ⟨rfl, rfl, rfl⟩ | cases isExpression
  · exact places_expression isExpression

theorem expression_iff {node : Node} {ty : Ty} (isExpression : node.ty? = some ty)
    (typed : ∀ id before ty after, Passes (expression id) before ty after →
      (validator.tree.face id).ty? = some ty)
    (keeps : ∀ id before ty after, Passes (expression id) before ty after → after.visible = before.visible) :
    Passes (validator.statementNode statement expression returns id node) before () after ↔
      validator.Enters statement expression returns id node before after := by
  rw [← expression_enters isExpression typed keeps]
  have discarded : Passes (validator.statementNode statement expression returns id node) before () after ↔
      ∃ result, Passes (validator.expressionNode expression id node) before result after := by
    cases node with
    | symbol | constant | binary | unary | ternary | aggregate => exact Passes.discard_iff
    | _ => cases isExpression
  rw [discarded]
  constructor
  · rintro ⟨result, passes⟩
    have same := ((expressionNode_iff typed (statement returns) returns).mp passes).1
    cases same.symm.trans isExpression
    exact passes
  · intro passes
    exact ⟨ty, passes⟩

/-- Validating a node is checking its rule and visiting its children in order. -/
theorem statementNode_iff {node : Node}
    (typed : ∀ id before ty after, Passes (expression id) before ty after →
      (validator.tree.face id).ty? = some ty)
    (keeps : ∀ id before ty after, Passes (expression id) before ty after → after.visible = before.visible) :
    Passes (validator.statementNode statement expression returns id node) before () after ↔
      validator.Enters statement expression returns id node before after := by
  cases node with
  | block statements => exact block_iff
  | declaration declared value => exact declaration_iff keeps
  | ifElse test accept reject => exact ifElse_iff keeps
  | loop kind init test step inner => exact loop_iff
  | branch kind value => exact branch_iff keeps
  | prototype function => exact prototype_iff
  | definition function inner => exact definition_iff
  | _ => exact expression_iff rfl typed keeps

end
end Validator
end ShaderTree
