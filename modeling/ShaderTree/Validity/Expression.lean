import ShaderTree.Validity.Construct
import ShaderTree.Validity.Operator
import ShaderTree.Validity.Validator

/-!
Validation of expressions. Operands come before the operation, left before right, and an expression
that is accepted has the type that its node carries.
-/
namespace ShaderTree

namespace Validator

/-- The variable under a chain of at most `steps` index operators, if it is a read-only built-in. -/
def readOnlyWithin (validator : Validator) : (steps : Nat) → NodeId → Except Fault (Option String)
  | 0, _ => .error .endless
  | steps + 1, id => do
    match ← validator.tree.read id with
    | .binary op left _ _ =>
      if op.isIndex then readOnlyWithin validator steps left else return none
    | .symbol symbol _ =>
      let symbol ← validator.table.resolve symbol
      let isReadOnly := symbol.asVariable?.any (·.ty.qualifier.isReadOnly)
      return if symbol.id.isBuiltIn && isReadOnly then some symbol.rawName else none
    | _ => return none

/-- The expression at `target`, written by `node`, is no part of a read-only built-in. -/
def checkWritable (validator : Validator) (node target : NodeId) : ValidateM Unit := do
  match ← validator.readOnlyWithin (validator.tree.nodes.size + 1) target with
  | some name => reject (.builtInModified node name)
  | none => pure ()

/-- A constant index is below the number of elements, components or columns that `base` has. -/
def checkBounds (validator : Validator) (node : NodeId) (base : Ty) (index : NodeId) :
    ValidateM Unit := do
  if let some index ← validator.tree.directIndex? index then
    let size := if base.isArray then base.arrayFactor else base.nominalSize
    unless index < size do reject (.indexOutOfBounds node index size)

/-- Whether constant data has one scalar of the right kind for each component. The data of
structures is not looked at. -/
def constantFits (validator : Validator) (values : List Scalar) (ty : Ty) : Except Fault Bool :=
  if ty.isStruct then .ok true
  else do
    let size ← ty.objectSize validator.table.pool
    return values.length = size && values.all fun value => some value.kind = ty.scalarKind?

/-- The call at `node` gives a function its parameters and is typed like its result. -/
def checkCall (validator : Validator) (node : NodeId) (callee : SymbolRef) (arguments : Arguments)
    (ty : Ty) : ValidateM Unit := do
  let some function := (← validator.table.resolve callee).asFunction?
    | reject (.unknownFunction node)
  unless function.parameters.length = arguments.length do reject (.unknownFunction node)
  (function.parameters.zip arguments).forM fun (parameter, (argument, found)) => do
    let var := (← validator.table.resolve parameter).asVariable?
    unless var.any (·.ty.sameShape found) do reject (.typeMismatch argument found)
  unless function.returnType.sameShape ty do reject (.typeMismatch node ty)

/-- Checks the condition at `id` of a statement or ternary. -/
def condition (validator : Validator) (expression : NodeId → ValidateM Ty) (id : NodeId) :
    ValidateM Unit := do
  let ty ← expression id
  require validator.checks.types (ty.sameShape .bool) (.typeMismatch id ty)

/-- The use at `id` of a variable that is visible there, typed like it. -/
def checkUse (validator : Validator) (id : NodeId) (symbol : SymbolRef) (ty : Ty) :
    ValidateM Unit := do
  validator.checkHandle symbol
  let target ← validator.table.resolve symbol
  let some var := target.asVariable? | reject (.undeclaredVariable id target.rawName)
  require validator.checks.references (← isVisible symbol)
    (.undeclaredVariable id target.rawName)
  require validator.checks.types (var.ty.sameShape ty) (.typeMismatch id ty)

/-- The operation at `id` on operands of types that its operator takes, yielding a `ty`. -/
def checkBinary (validator : Validator) (id : NodeId) (op : BinaryOp) (right : NodeId)
    (leftTy rightTy ty : Ty) : ValidateM Unit := do
  if op = .indexDirect then validator.checkBounds id leftTy right
  unless (op.result? leftTy rightTy).any (·.sameShape ty) do reject (.typeMismatch id ty)

/-- The constructor or call at `id`, yielding a `ty`. -/
def checkAggregate (validator : Validator) (id : NodeId) (op : AggregateOp) (arguments : Arguments)
    (ty : Ty) : ValidateM Unit := do
  match op with
  | .construct =>
    if validator.checks.constructors then checkConstruct validator.table.pool id ty arguments
  | .call function =>
    if validator.checks.references then validator.checkFunction id function
    if validator.checks.types then validator.checkCall id function arguments ty

/-- Checks `node`, met at `id`, with `expression` for its operands, and yields its type. -/
def expressionNode (validator : Validator) (expression : NodeId → ValidateM Ty) (id : NodeId)
    (node : Node) : ValidateM Ty := do
  let checks := validator.checks
  match node with
  | .symbol symbol ty =>
    validator.checkUse id symbol ty
    return ty
  | .constant values ty =>
    require checks.types (← validator.constantFits values ty) (.typeMismatch id ty)
    return ty
  | .binary op left right ty =>
    let leftTy ← expression left
    let rightTy ← expression right
    if op.isAssignment then validator.checkWritable id left
    if checks.types then validator.checkBinary id op right leftTy rightTy ty
    return ty
  | .unary op operand ty =>
    let operandTy ← expression operand
    if op.isMutating then validator.checkWritable id operand
    require checks.types (operandTy.sameShape ty && op.accepts ty) (.typeMismatch id ty)
    return ty
  | .ternary condition accept reject ty =>
    validator.condition expression condition
    let acceptTy ← expression accept
    let rejectTy ← expression reject
    require checks.types (acceptTy.sameShape ty && rejectTy.sameShape ty) (.typeMismatch id ty)
    return ty
  | .aggregate op arguments ty =>
    let arguments ← arguments.mapM fun argument => do return (argument, ← expression argument)
    validator.checkAggregate id op arguments ty
    return ty
  | _ => reject (.expectedExpression id)

/-- Checks the expression at `id` and yields its type, looking at most `depth` levels deep. -/
def expression (validator : Validator) : (depth : Nat) → (id : NodeId) → ValidateM Ty
  | 0, _ => throw (.fault .endless)
  | depth + 1, id => do
    validator.expressionNode (expression validator depth) id (← validator.fetch id)

end Validator

end ShaderTree
