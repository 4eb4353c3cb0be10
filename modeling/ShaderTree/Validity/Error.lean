import ShaderTree.Tree.Node
import ShaderTree.Ty.Text

/-!
Why a tree is rejected: an error of the program, or a fault that the validator met on its way.
-/
namespace ShaderTree

inductive ValidationError where
  | invalidHandle (bad : BadHandle)
  | multipleParents (node : NodeId)
  | typeMismatch (node : NodeId) (found : Ty)
  | constructorSize (node : NodeId) (expected given : Nat)
  | indexOutOfBounds (node : NodeId) (index size : Nat)
  | undeclaredVariable (node : NodeId) (name : String)
  | unknownFunction (node : NodeId)
  | expectedStatement (node : NodeId)
  | expectedExpression (node : NodeId)
  | builtInModified (node : NodeId) (name : String)
  deriving DecidableEq

def ValidationError.message : ValidationError → String
  | invalidHandle bad => bad.message
  | multipleParents node => "Node " ++ node.text ++ " has more than one parent"
  | typeMismatch node found => "Node " ++ node.text ++ " has unexpected type " ++ found.text
  | constructorSize node expected given =>
    "Constructor " ++ node.text ++ s!" expects {expected} components but {given} were given"
  | indexOutOfBounds node index size =>
    s!"Index {index} of " ++ node.text ++ s!" is out of bounds for size {size}"
  | undeclaredVariable node name =>
    "Variable `" ++ name ++ "` used by " ++ node.text ++ " is not declared"
  | unknownFunction node => "Call " ++ node.text ++ " does not refer to a known function"
  | expectedStatement node => "Node " ++ node.text ++ " is not a valid statement here"
  | expectedExpression node => "Node " ++ node.text ++ " is not an expression"
  | builtInModified node name =>
    "Node " ++ node.text ++ " writes to the read-only built-in `" ++ name ++ "`"

/-- What keeps a tree from being accepted. -/
inductive Rejection where
  | invalid (error : ValidationError)
  | fault (cause : Fault)
  deriving DecidableEq

namespace Rejection

def ofFault (result : Except Fault α) : Except Rejection α :=
  match result with
  | .ok value => .ok value
  | .error cause => .error (.fault cause)

instance : MonadLift (Except Fault) (Except Rejection) := ⟨ofFault⟩

end Rejection

end ShaderTree
