import ShaderTree.SymbolTable

/-!
Parameters while their function is being parsed. A parameter becomes a variable once.
-/
namespace ShaderTree

inductive Parameter where
  | pending (name : String) (ty : Ty)
  | consumed
  deriving DecidableEq

namespace Parameter

def isConsumed : Parameter → Bool
  | pending _ _ => false
  | consumed => true

def ty? : Parameter → Option Ty
  | pending _ ty => some ty
  | consumed => none

/-- Creates the variable that the parameter stands for; nameless parameters become nameless
variables. The parameter is `consumed` from now on. -/
def toVariable (parameter : Parameter) (table : SymbolTable) :
    Except Fault (SymbolHandle × SymbolTable) :=
  match parameter with
  | pending name ty =>
    table.createVariable name ty (if name = "" then .empty else .userDefined)
  | consumed => .error .parameterConsumed

end Parameter

end ShaderTree
