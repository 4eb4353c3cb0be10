import ShaderTree.BuiltIn

/-!
Encodings of types in mangled names. Each ends with a semicolon, so that those of a parameter list
can be written one after the other. Precision and qualifier leave no trace.
-/
namespace ShaderTree

def ScalarKind.code : ScalarKind → String
  | float => "f"
  | sint => "i"
  | uint => "u"
  | bool => "b"

def SamplerKind.code : SamplerKind → String
  | sampler2D => "s2"
  | sampler3D => "s3"
  | samplerCube => "sC"

/-- Structures and blocks go by their name as written, nameless ones by their identity. -/
def Symbol.tag (symbol : Symbol) : String :=
  if symbol.origin = .empty then "\x7b#" ++ symbol.id.hex ++ "\x7d"
  else "\x7b" ++ symbol.rawName ++ "\x7d"

def Shape.mangled (pool : Pool) : Shape → Except Fault String
  | .void => .ok "v"
  | .scalar kind => .ok kind.code
  | .vector kind size => .ok (kind.code ++ toString size.count)
  | .matrix columns rows => .ok ("m" ++ toString columns.count ++ toString rows.count)
  | .sampler kind => .ok kind.code
  | .struct symbol | .block symbol => do return (← symbol.resolve pool).tag

def Ty.mangled (pool : Pool) (ty : Ty) : Except Fault String := do
  let shape ← ty.shape.mangled pool
  match ty.array with
  | some size => return shape ++ "[" ++ toString size.count ++ "];"
  | none => return shape ++ ";"

end ShaderTree
