import ShaderTree.Tree.Effects

/-!
Shapes of nodes that passes look for. A pattern selects shapes, and a node is matched together with
its parent, since some shapes depend on where the node stands.
-/
namespace ShaderTree

structure Pattern where
  /-- Assignments, constructors and calls that yield an array inside of another expression. -/
  arrayExpression : Bool := false
  /-- Ternaries, and `&&` and `||` with side effects on the right. -/
  shortCircuit : Bool := false
  /-- Declarations of variables of a nameless structure type. -/
  namelessStruct : Bool := false
  /-- Constructors of vectors from matrices and of matrices from vectors. -/
  mixedConstructor : Bool := false
  deriving DecidableEq, Repr

namespace Pattern

/-- One bit for each shape. -/
def bits (pattern : Pattern) : Nat :=
  pattern.arrayExpression.toNat + 2 * pattern.shortCircuit.toNat
    + 4 * pattern.namelessStruct.toNat + 8 * pattern.mixedConstructor.toNat

/-- Whether the node at `parent`, if there is one, satisfies `test`. -/
def parentIs (tree : Tree) (parent : Option NodeId) (test : Node → Bool) : Except Fault Bool :=
  match parent with
  | none => .ok false
  | some parent => do return test (← tree.read parent)

/-- Parents under which an array may be yielded: statements of blocks, and what stores the array. -/
def storesArray : Node → Bool
  | .block _ | .declaration _ _ => true
  | .binary op _ _ _ => op.isAssignment
  | _ => false

/-- Whether some of `arguments` has a type that satisfies `test`. -/
def anyArgument (tree : Tree) (arguments : List NodeId) (test : Ty → Bool) : Except Fault Bool :=
  arguments.anyM fun argument => do return (← tree.ty? argument).any test

def matchesBinary (pattern : Pattern) (tree : Tree) (pool : Pool) (node : NodeId)
    (parent : Option NodeId) : Except Fault Bool := do
  let .binary op _ right ty ← tree.read node | return false
  if pattern.arrayExpression && ty.isArray && op.isAssignment then
    if ← parentIs tree parent (!·.isBlock) then return true
  if pattern.shortCircuit && (op = .logicalAnd || op = .logicalOr) then
    tree.hasSideEffects pool right
  else return false

def matchesAggregate (pattern : Pattern) (tree : Tree) (node : NodeId) (parent : Option NodeId) :
    Except Fault Bool := do
  let .aggregate op arguments ty ← tree.read node | return false
  if pattern.arrayExpression && ty.isArray then
    if ← parentIs tree parent (!storesArray ·) then return true
  if pattern.mixedConstructor && op = .construct then
    if ty.isVector then anyArgument tree arguments Ty.isMatrix
    else if ty.isMatrix then anyArgument tree arguments Ty.isVector
    else return false
  else return false

def matchesTernary (pattern : Pattern) : Bool := pattern.shortCircuit

def matchesDeclaration (pattern : Pattern) (tree : Tree) (pool : Pool) (node : NodeId) :
    Except Fault Bool := do
  if !pattern.namelessStruct then return false
  let .declaration declarator _ ← tree.read node | return false
  match (← tree.ty? declarator).map Ty.shape with
  | some (.struct symbol) => return (← symbol.resolve pool).origin = .empty
  | _ => return false

/-- Whether the node at `node` has one of the shapes selected. -/
def selects (pattern : Pattern) (tree : Tree) (pool : Pool) (node : NodeId)
    (parent : Option NodeId) : Except Fault Bool := do
  match ← tree.read node with
  | .binary _ _ _ _ => pattern.matchesBinary tree pool node parent
  | .aggregate _ _ _ => pattern.matchesAggregate tree node parent
  | .ternary _ _ _ _ => return pattern.matchesTernary
  | .declaration _ _ => pattern.matchesDeclaration tree pool node
  | _ => return false

end Pattern

end ShaderTree
