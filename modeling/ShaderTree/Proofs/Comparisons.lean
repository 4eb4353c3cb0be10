import ShaderTree.Proofs.CheckRules

/-! Two validations of one tree, side by side. They meet the same nodes in the same order, so that whatever can be
said of the checks of single nodes and is kept by a sequence of steps can be said of the validations. -/
namespace ShaderTree.Validator

/-- A way to compare two validations step by step. -/
structure Comparison where
  Holds : {α : Type} → ValidateM α → ValidateM α → Prop
  refl : ∀ {α : Type} (action : ValidateM α), Holds action action
  bind : ∀ {α β : Type} {one other : ValidateM α} {next later : α → ValidateM β}, Holds one other →
    (∀ value, Holds (next value) (later value)) → Holds (one >>= next) (other >>= later)

namespace Comparison

variable (comparison : Comparison) {one other : ValidateM α}

theorem map (f : α → β) (each : comparison.Holds one other) : comparison.Holds (f <$> one) (f <$> other) := by
  rw [map_eq_pure_bind, map_eq_pure_bind]
  exact comparison.bind each fun _ => comparison.refl _

theorem inScope (names : List SymbolRef) (inside : comparison.Holds one other) :
    comparison.Holds (Validator.inScope names one) (Validator.inScope names other) := by
  apply comparison.bind (comparison.refl _)
  intro outer
  apply comparison.bind (comparison.refl _)
  intro _
  exact comparison.bind inside fun _ => comparison.refl _

section
variable {item : Type} {first second : item → ValidateM α}

theorem forM {first second : item → ValidateM Unit} (each : ∀ id, comparison.Holds (first id) (second id))
    (ids : List item) : comparison.Holds (ids.forM first) (ids.forM second) := by
  induction ids with
  | nil => exact comparison.refl _
  | cons id ids ih => exact comparison.bind (each id) fun _ => ih

theorem mapM (each : ∀ id, comparison.Holds (first id) (second id)) (ids : List item) :
    comparison.Holds (ids.mapM first) (ids.mapM second) := by
  induction ids with
  | nil => exact comparison.refl _
  | cons id ids ih =>
    rw [List.mapM_cons, List.mapM_cons]
    apply comparison.bind (each id)
    intro value
    exact comparison.bind ih fun _ => comparison.refl _

end

/-- The two validators read one tree, and their checks of single nodes compare. -/
structure Sides (left right : Validator) : Prop where
  tree : right.tree = left.tree
  single : right.checks.singleParent = left.checks.singleParent
  types : right.checks.types = left.checks.types
  use : ∀ id ref ty, comparison.Holds (left.checkUse id ref ty) (right.checkUse id ref ty)
  fits : ∀ values ty, left.constantFits values ty = right.constantFits values ty
  writable : ∀ id target, comparison.Holds (left.checkWritable id target) (right.checkWritable id target)
  aggregate : ∀ id op arguments ty,
    comparison.Holds (left.checkAggregate id op arguments ty) (right.checkAggregate id op arguments ty)
  declarator : ∀ id, comparison.Holds (left.declarator id) (right.declarator id)
  function : ∀ id ref, comparison.Holds (left.checkFunction id ref) (right.checkFunction id ref)
  defines : ∀ ref, Symbol.asFunction? <$> left.table.resolve ref = Symbol.asFunction? <$> right.table.resolve ref

namespace Sides

variable {comparison} {left right : Validator} (sides : comparison.Sides left right)
include sides

theorem fetch (id : NodeId) : comparison.Holds (left.fetch id) (right.fetch id) := by
  have same : right.fetch id = left.fetch id := by simp only [Validator.fetch, sides.tree, sides.single]
  rw [same]
  exact comparison.refl _

/-- Where a reference is followed, both come to the same function or to none. -/
theorem resolve {next later : Symbol → ValidateM α} (ref : SymbolRef) (each : ∀ symbol same : Symbol,
    symbol.asFunction? = same.asFunction? → comparison.Holds (next symbol) (later same)) :
    comparison.Holds (liftM (left.table.resolve ref) >>= next) (liftM (right.table.resolve ref) >>= later) := by
  have same := sides.defines ref
  cases found : left.table.resolve ref with
  | error fault =>
    cases again : right.table.resolve ref with
    | error cause =>
      rw [found, again] at same
      obtain rfl : fault = cause := Except.error.inj same
      exact comparison.refl (throw (.fault fault))
    | ok symbol =>
      rw [found, again] at same
      cases same
  | ok symbol =>
    cases again : right.table.resolve ref with
    | error cause =>
      rw [found, again] at same
      cases same
    | ok other =>
      rw [found, again] at same
      exact each symbol other (Except.ok.inj same)

theorem require (holds : Bool) (error : ValidationError) :
    comparison.Holds (Validator.require left.checks.types holds error)
      (Validator.require right.checks.types holds error) := by
  rw [sides.types]
  exact comparison.refl _

section
variable {operand again : NodeId → ValidateM Ty} (operands : ∀ id, comparison.Holds (operand id) (again id))
include operands

theorem condition (id : NodeId) : comparison.Holds (left.condition operand id) (right.condition again id) :=
  comparison.bind (operands id) fun _ => sides.require _ _

theorem expressionNode (id : NodeId) (node : Node) :
    comparison.Holds (left.expressionNode operand id node) (right.expressionNode again id node) := by
  cases node with
  | symbol ref ty => exact comparison.bind (sides.use id ref ty) fun _ => comparison.refl _
  | constant values ty =>
    unfold Validator.expressionNode
    simp only [sides.fits]
    apply comparison.bind (comparison.refl _)
    intro fits
    exact comparison.bind (sides.require _ _) fun _ => comparison.refl _
  | binary op first second ty =>
    have checked (leftTy rightTy : Ty) : comparison.Holds
        (do if left.checks.types then left.checkBinary id op second leftTy rightTy ty
            return ty)
        (do if right.checks.types then right.checkBinary id op second leftTy rightTy ty
            return ty) := by
      have same :
          right.checkBinary id op second leftTy rightTy ty = left.checkBinary id op second leftTy rightTy ty := by
        simp only [checkBinary, checkBounds, sides.tree]
      rw [sides.types, same]
      exact comparison.refl _
    apply comparison.bind (operands first)
    intro leftTy
    apply comparison.bind (operands second)
    intro rightTy
    cases op.isAssignment with
    | true => exact comparison.bind (sides.writable id first) fun _ => checked leftTy rightTy
    | false => exact checked leftTy rightTy
  | unary op inner ty =>
    apply comparison.bind (operands inner)
    intro innerTy
    have checked := comparison.bind (sides.require (innerTy.sameShape ty && op.accepts ty) (.typeMismatch id ty))
      fun _ => comparison.refl (pure ty)
    cases op.isMutating with
    | true => exact comparison.bind (sides.writable id inner) fun _ => checked
    | false => exact checked
  | ternary test accept reject ty =>
    apply comparison.bind (sides.condition operands test)
    intro _
    apply comparison.bind (operands accept)
    intro _
    apply comparison.bind (operands reject)
    intro _
    exact comparison.bind (sides.require _ _) fun _ => comparison.refl _
  | aggregate op arguments ty =>
    apply comparison.bind (comparison.mapM
      (fun argument => comparison.bind (operands argument) fun _ => comparison.refl _) arguments)
    intro arguments
    exact comparison.bind (sides.aggregate id op arguments ty) fun _ => comparison.refl _
  | _ => exact comparison.refl _

end

theorem expression (depth : Nat) (id : NodeId) :
    comparison.Holds (left.expression depth id) (right.expression depth id) := by
  induction depth generalizing id with
  | zero => exact comparison.refl _
  | succ depth ih =>
    apply comparison.bind (sides.fetch id)
    intro node
    exact sides.expressionNode ih id node

section
variable {inner again : Option Ty → NodeId → ValidateM Unit}
  (statements : ∀ returns id, comparison.Holds (inner returns id) (again returns id))
include statements

theorem body (returns : Option Ty) (id : NodeId) :
    comparison.Holds (left.body (inner returns) id) (right.body (again returns) id) := by
  apply comparison.bind (sides.fetch id)
  intro node
  cases node with
  | block ids => exact comparison.inScope [] (comparison.forM (statements returns) ids)
  | _ => exact comparison.refl _

section
variable {operand value : NodeId → ValidateM Ty} (operands : ∀ id, comparison.Holds (operand id) (value id))
include operands

omit statements in
theorem initializer (declared initial : NodeId) :
    comparison.Holds (left.initializer operand declared initial) (right.initializer value declared initial) := by
  unfold Validator.initializer
  rw [sides.tree]
  apply comparison.bind (operands initial)
  intro found
  apply comparison.bind (comparison.refl _)
  intro expected
  cases expected with
  | none => exact comparison.refl _
  | some expected => exact sides.require _ _

omit statements in
theorem branchValue (returns : Option Ty) (kind : BranchKind) (own : NodeId) :
    comparison.Holds (left.branchValue operand returns kind own) (right.branchValue value returns kind own) := by
  apply comparison.bind (operands own)
  intro found
  cases returns with
  | none => exact comparison.refl _
  | some expected =>
    by_cases leaves : kind = .returnFrom
    · simp only [leaves, if_true]
      exact sides.require _ _
    · simp only [leaves, if_false]
      exact comparison.refl _

theorem loop (returns : Option Ty) (id : NodeId) (kind : LoopKind) (init test step : Option NodeId) (body : NodeId) :
    comparison.Holds (left.statementNode inner operand returns id (.loop kind init test step body))
      (right.statementNode again value returns id (.loop kind init test step body)) := by
  have last := sides.body statements returns body
  have begun {one other : ValidateM Unit} (init : NodeId) (rest : comparison.Holds one other) :
      comparison.Holds (do inner returns init; one) (do again returns init; other) :=
    comparison.bind (statements returns init) fun _ => rest
  have tested {one other : ValidateM Unit} (test : NodeId) (rest : comparison.Holds one other) :
      comparison.Holds (do left.condition operand test; one) (do right.condition value test; other) :=
    comparison.bind (sides.condition operands test) fun _ => rest
  have stepped {one other : ValidateM Unit} (step : NodeId) (rest : comparison.Holds one other) :
      comparison.Holds (do discard (operand step); one) (do discard (value step); other) :=
    comparison.bind (comparison.map _ (operands step)) fun _ => rest
  apply comparison.inScope
  -- each part of the header may be missing
  rcases init with _ | init <;> rcases test with _ | test <;> rcases step with _ | step
  · exact last
  · exact stepped step last
  · exact tested test last
  · exact tested test (stepped step last)
  · exact begun init last
  · exact begun init (stepped step last)
  · exact begun init (tested test last)
  · exact begun init (tested test (stepped step last))

omit operands in
theorem definition (returns : Option Ty) (id : NodeId) (function : SymbolRef) (body : NodeId) :
    comparison.Holds (left.statementNode inner operand returns id (.definition function body))
      (right.statementNode again value returns id (.definition function body)) := by
  have outermost {one other : ValidateM Unit} (rest : comparison.Holds one other) :
      comparison.Holds
        (do if returns.isSome then reject (.expectedStatement id)
            one)
        (do if returns.isSome then reject (.expectedStatement id)
            other) := by
    cases returns with
    | none => exact rest
    | some outer => exact comparison.bind (comparison.refl _) fun _ => rest
  apply outermost
  apply comparison.bind (sides.function id function)
  intro _
  apply sides.resolve
  intro symbol same target
  rw [target]
  cases same.asFunction? with
  | none => exact comparison.refl _
  | some target => exact comparison.inScope target.parameters (sides.body statements (some target.returnType) body)

theorem statementNode (returns : Option Ty) (id : NodeId) (node : Node) :
    comparison.Holds (left.statementNode inner operand returns id node)
      (right.statementNode again value returns id node) := by
  cases node with
  | block ids => exact comparison.inScope [] (comparison.forM (statements returns) ids)
  | declaration declared initial =>
    cases initial with
    | none => exact sides.declarator declared
    | some initial => exact comparison.bind (sides.initializer operands declared initial) fun _ => sides.declarator declared
  | ifElse test accept reject =>
    apply comparison.bind (sides.condition operands test)
    intro _
    apply comparison.bind (sides.body statements returns accept)
    intro _
    cases reject with
    | none => exact comparison.refl _
    | some reject => exact sides.body statements returns reject
  | loop kind init test step body => exact sides.loop statements operands returns id kind init test step body
  | branch kind own =>
    cases own with
    | none => exact comparison.refl _
    | some own => exact sides.branchValue operands returns kind own
  | prototype function => exact sides.function id function
  | definition function body => exact sides.definition statements returns id function body
  | _ => exact comparison.map _ (sides.expressionNode operands id _)

end

end

theorem statement (depth : Nat) (returns : Option Ty) (id : NodeId) :
    comparison.Holds (left.statement depth returns id) (right.statement depth returns id) := by
  induction depth generalizing returns id with
  | zero => exact comparison.refl _
  | succ depth ih =>
    apply comparison.bind (sides.fetch id)
    intro node
    exact sides.statementNode ih (sides.expression depth) returns id node

/-- The walks through the whole tree compare, and so do the validations. -/
theorem run : comparison.Holds (left.body (left.statement left.depth none) left.tree.root)
    (right.body (right.statement right.depth none) right.tree.root) := by
  have depth : right.depth = left.depth := by simp only [Validator.depth, sides.tree]
  rw [depth, sides.tree]
  exact sides.body (sides.statement left.depth) none left.tree.root

end Sides
end Comparison
end ShaderTree.Validator
