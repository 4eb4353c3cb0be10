import ShaderTree.Ty.Basic

/-!
Constant data, one scalar at a time. Floats are kept as their bit pattern: no float is ever
computed.
-/
namespace ShaderTree

inductive Scalar where
  | sint (value : Int32)
  | uint (value : UInt32)
  | float (bits : UInt32)
  | bool (value : Bool)
  deriving DecidableEq

def Scalar.kind : Scalar → ScalarKind
  | sint _ => .sint
  | uint _ => .uint
  | float _ => .float
  | bool _ => .bool

end ShaderTree
