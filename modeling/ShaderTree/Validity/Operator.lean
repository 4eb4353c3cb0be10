import ShaderTree.Tree.Node

/-!
Types of operations: what an operator yields for operands of given types, if it takes them.
-/
namespace ShaderTree

namespace BinaryOp

/-- The products of linear algebra, for operands of different shapes that are no scalars. -/
def product? : Shape → Shape → Option Ty
  | .matrix columns rows, .vector _ size =>
    if size = columns then some (.vector .float rows) else none
  | .vector _ size, .matrix columns rows =>
    if size = rows then some (.vector .float columns) else none
  | .matrix columns rows, .matrix rightColumns rightRows =>
    if columns = rightRows then some (.matrix rightColumns rows) else none
  | _, _ => none

/-- Operands of one shape are combined component by component, save that the product of two matrices
is the one of linear algebra. A scalar is combined with every component. -/
def arithmetic? (op : BinaryOp) (left right : Ty) : Option Ty :=
  if left.scalarKind?.isNone || left.scalarKind? ≠ right.scalarKind? || left.isArray
      || right.isArray then
    none
  else if left.sameShape right then
    match op, left.shape with
    | .multiply, .matrix columns rows => if columns = rows then some left else none
    | _, _ => some left
  else if left.isScalar then some right
  else if right.isScalar then some left
  else if op = .multiply then product? left.shape right.shape
  else none

/-- The type of an operation, if its operands agree. -/
def result? (op : BinaryOp) (left right : Ty) : Option Ty :=
  match op with
  | assign => if left.sameShape right then some left else none
  | comma => some right
  | indexDirect | indexIndirect =>
    if right.isScalar && (right.scalarKind? = some .sint || right.scalarKind? = some .uint) then
      left.indexed?
    else none
  | logicalAnd | logicalOr | logicalXor =>
    if left.sameShape .bool && right.sameShape .bool then some .bool else none
  | equal | notEqual => if left.sameShape right then some .bool else none
  | less | greater | lessEqual | greaterEqual =>
    if left.isScalar && left.sameShape right && left.scalarKind? ≠ some .bool then some .bool
    else none
  | add | subtract | multiply | divide => op.arithmetic? left right

end BinaryOp

/-- Whether the operator takes an operand of type `ty`, yielding the same type. -/
def UnaryOp.accepts (op : UnaryOp) (ty : Ty) : Bool :=
  match op with
  | .logicalNot => ty.sameShape .bool
  | _ => ty.scalarKind? ≠ some .bool

end ShaderTree
