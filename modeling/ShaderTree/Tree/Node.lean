import ShaderTree.Named
import ShaderTree.Scalar

/-!
Nodes of the syntax tree. A node holds handles of its children; expressions carry their type.
Replacing a child agrees with listing the children: the first occurrence is the one that changes.
-/
namespace ShaderTree

/-- Handles of nodes. -/
abbrev NodeId := Handle .node

inductive BinaryOp where
  | add
  | subtract
  | multiply
  | divide
  | equal
  | notEqual
  | less
  | greater
  | lessEqual
  | greaterEqual
  | logicalAnd
  | logicalOr
  | logicalXor
  | assign
  /-- Indexing with a constant. Applied to a matrix and then to a column, it selects an element. -/
  | indexDirect
  | indexIndirect
  /-- Evaluates both operands and yields the right one. -/
  | comma
  deriving DecidableEq, Repr

namespace BinaryOp

def isAssignment : BinaryOp → Bool
  | assign => true
  | _ => false

def isIndex : BinaryOp → Bool
  | indexDirect | indexIndirect => true
  | _ => false

def isComparison : BinaryOp → Bool
  | equal | notEqual | less | greater | lessEqual | greaterEqual => true
  | _ => false

def isLogical : BinaryOp → Bool
  | logicalAnd | logicalOr | logicalXor => true
  | _ => false

end BinaryOp

instance : Named BinaryOp where
  all :=
    [.add, .subtract, .multiply, .divide, .equal, .notEqual, .less, .greater, .lessEqual,
      .greaterEqual, .logicalAnd, .logicalOr, .logicalXor, .assign, .indexDirect, .indexIndirect,
      .comma]
  text
    | .add => "Add"
    | .subtract => "Subtract"
    | .multiply => "Multiply"
    | .divide => "Divide"
    | .equal => "Equal"
    | .notEqual => "NotEqual"
    | .less => "Less"
    | .greater => "Greater"
    | .lessEqual => "LessEqual"
    | .greaterEqual => "GreaterEqual"
    | .logicalAnd => "LogicalAnd"
    | .logicalOr => "LogicalOr"
    | .logicalXor => "LogicalXor"
    | .assign => "Assign"
    | .indexDirect => "IndexDirect"
    | .indexIndirect => "IndexIndirect"
    | .comma => "Comma"

inductive UnaryOp where
  | negate
  | logicalNot
  | preIncrement
  | preDecrement
  | postIncrement
  | postDecrement
  deriving DecidableEq, Repr

/-- Whether the operator writes to its operand. -/
def UnaryOp.isMutating : UnaryOp → Bool
  | negate | logicalNot => false
  | _ => true

instance : Named UnaryOp where
  all := [.negate, .logicalNot, .preIncrement, .preDecrement, .postIncrement, .postDecrement]
  text
    | .negate => "Negate"
    | .logicalNot => "LogicalNot"
    | .preIncrement => "PreIncrement"
    | .preDecrement => "PreDecrement"
    | .postIncrement => "PostIncrement"
    | .postDecrement => "PostDecrement"

/-- What the arguments of an aggregate are for. -/
inductive AggregateOp where
  /-- Builds a value of the type of the node. -/
  | construct
  | call (function : SymbolRef)
  deriving DecidableEq, Repr

inductive LoopKind where
  | forLoop
  | whileLoop
  | doWhile
  deriving DecidableEq, Repr

instance : Named LoopKind where
  all := [.forLoop, .whileLoop, .doWhile]
  text
    | .forLoop => "For"
    | .whileLoop => "While"
    | .doWhile => "DoWhile"

inductive BranchKind where
  | discard
  | returnFrom
  | breakLoop
  | continueLoop
  deriving DecidableEq, Repr

instance : Named BranchKind where
  all := [.discard, .returnFrom, .breakLoop, .continueLoop]
  text
    | .discard => "Discard"
    | .returnFrom => "Return"
    | .breakLoop => "Break"
    | .continueLoop => "Continue"

/-- Decides where a node may stand. -/
inductive NodeCategory where
  | expression
  | statement
  | block
  deriving DecidableEq, Repr

instance : Named NodeCategory where
  all := [.expression, .statement, .block]
  text
    | .expression => "Expression"
    | .statement => "Statement"
    | .block => "Block"

inductive Node where
  /-- A use of a variable. -/
  | symbol (symbol : SymbolRef) (ty : Ty)
  /-- Constant data, one scalar for each component. -/
  | constant (values : List Scalar) (ty : Ty)
  | binary (op : BinaryOp) (left right : NodeId) (ty : Ty)
  | unary (op : UnaryOp) (operand : NodeId) (ty : Ty)
  | ternary (condition accept reject : NodeId) (ty : Ty)
  | aggregate (op : AggregateOp) (arguments : List NodeId) (ty : Ty)
  /-- Declares the variable that `declarator`, a `symbol` node, uses. -/
  | declaration (declarator : NodeId) (initializer : Option NodeId)
  | block (statements : List NodeId)
  | ifElse (condition accept : NodeId) (reject : Option NodeId)
  | loop (kind : LoopKind) (init condition expression : Option NodeId) (body : NodeId)
  | branch (kind : BranchKind) (value : Option NodeId)
  | prototype (function : SymbolRef)
  | definition (function : SymbolRef) (body : NodeId)
  deriving DecidableEq

namespace Node

/-- The type of an expression. -/
def ty? : Node → Option Ty
  | symbol _ ty | constant _ ty | binary _ _ _ ty | unary _ _ ty | ternary _ _ _ ty
  | aggregate _ _ ty => some ty
  | _ => none

def isBlock : Node → Bool
  | block _ => true
  | _ => false

def isDefinition : Node → Bool
  | definition _ _ => true
  | _ => false

/-- Uses of variables, constants and prototypes have no children whatever they hold. -/
def isLeaf : Node → Bool
  | symbol _ _ | constant _ _ | prototype _ => true
  | _ => false

def category (node : Node) : NodeCategory :=
  if node.isBlock then .block else if node.ty?.isSome then .expression else .statement

def isExpression (node : Node) : Bool := node.category = .expression

/-- The children in the order in which a walk visits them. -/
def children : Node → List NodeId
  | symbol _ _ | constant _ _ | prototype _ => []
  | binary _ left right _ => [left, right]
  | unary _ operand _ => [operand]
  | ternary condition accept reject _ => [condition, accept, reject]
  | aggregate _ arguments _ => arguments
  | declaration declarator initializer => declarator :: initializer.toList
  | block statements => statements
  | ifElse condition accept reject => condition :: accept :: reject.toList
  | loop _ init condition expression body =>
    init.toList ++ condition.toList ++ expression.toList ++ [body]
  | branch _ value => value.toList
  | definition _ body => [body]

/-- Puts `replacement` in the place of the first child that is `child`; `none` if no child is. -/
def replaceChild? (child replacement : NodeId) : Node → Option Node
  | symbol _ _ | constant _ _ | prototype _ => none
  | binary op left right ty =>
    if left = child then some (binary op replacement right ty)
    else if right = child then some (binary op left replacement ty)
    else none
  | unary op operand ty =>
    if operand = child then some (unary op replacement ty) else none
  | ternary condition accept reject ty =>
    if condition = child then some (ternary replacement accept reject ty)
    else if accept = child then some (ternary condition replacement reject ty)
    else if reject = child then some (ternary condition accept replacement ty)
    else none
  | aggregate op arguments ty =>
    if child ∈ arguments then some (aggregate op (arguments.replace child replacement) ty)
    else none
  | declaration declarator initializer =>
    if declarator = child then some (declaration replacement initializer)
    else if initializer = some child then some (declaration declarator (some replacement))
    else none
  | block statements =>
    if child ∈ statements then some (block (statements.replace child replacement))
    else none
  | ifElse condition accept reject =>
    if condition = child then some (ifElse replacement accept reject)
    else if accept = child then some (ifElse condition replacement reject)
    else if reject = some child then some (ifElse condition accept (some replacement))
    else none
  | loop kind init condition expression body =>
    if init = some child then some (loop kind (some replacement) condition expression body)
    else if condition = some child then
      some (loop kind init (some replacement) expression body)
    else if expression = some child then
      some (loop kind init condition (some replacement) body)
    else if body = child then some (loop kind init condition expression replacement)
    else none
  | branch kind value =>
    if value = some child then some (branch kind (some replacement)) else none
  | definition function body =>
    if body = child then some (definition function replacement) else none

end Node

end ShaderTree
