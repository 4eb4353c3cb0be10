import ShaderTree.BuiltIn

/-!
The text of a type in error messages.
-/
namespace ShaderTree

def ScalarKind.text : ScalarKind → String
  | sint => "Sint"
  | uint => "Uint"
  | float => "Float"
  | bool => "Bool"

instance : Named ScalarKind := ⟨[.sint, .uint, .float, .bool], ScalarKind.text⟩

def VectorSize.text : VectorSize → String
  | two => "Bi"
  | three => "Tri"
  | four => "Quad"

def SamplerKind.text : SamplerKind → String
  | sampler2D => "Sampler2D"
  | sampler3D => "Sampler3D"
  | samplerCube => "SamplerCube"

def Precision.text : Precision → String
  | undefined => "Undefined"
  | low => "Low"
  | medium => "Medium"
  | high => "High"

instance : Named Precision := ⟨[.undefined, .low, .medium, .high], Precision.text⟩

def Qualifier.text : Qualifier → String
  | temporary => "Temporary"
  | global => "Global"
  | const => "Const"
  | vertexAttribute => "Attribute"
  | varyingIn => "VaryingIn"
  | varyingOut => "VaryingOut"
  | uniform => "Uniform"
  | buffer => "Buffer"
  | shared => "Shared"
  | paramIn => "ParamIn"
  | paramOut => "ParamOut"
  | paramInOut => "ParamInOut"
  | paramConst => "ParamConst"
  | position => "Position"
  | pointSize => "PointSize"
  | fragCoord => "FragCoord"
  | frontFacing => "FrontFacing"
  | pointCoord => "PointCoord"
  | fragColor => "FragColor"
  | fragData => "FragData"
  | fragDepth => "FragDepth"
  | lastFragData => "LastFragData"
  | vertexId => "VertexId"
  | instanceId => "InstanceId"
  | localInvocationId => "LocalInvocationId"
  | workGroupId => "WorkGroupId"
  | numWorkGroups => "NumWorkGroups"

instance : Named Qualifier where
  all :=
    [.temporary, .global, .const, .vertexAttribute, .varyingIn, .varyingOut, .uniform, .buffer,
      .shared, .paramIn, .paramOut, .paramInOut, .paramConst, .position, .pointSize, .fragCoord,
      .frontFacing, .pointCoord, .fragColor, .fragData, .fragDepth, .lastFragData, .vertexId,
      .instanceId, .localInvocationId, .workGroupId, .numWorkGroups]
  text := Qualifier.text

def Shape.text : Shape → String
  | void => "Void"
  | scalar kind => "Scalar(" ++ kind.text ++ ")"
  | vector kind size =>
    "Vector \x7b kind: " ++ kind.text ++ ", size: " ++ size.text ++ " \x7d"
  | matrix columns rows =>
    "Matrix \x7b columns: " ++ columns.text ++ ", rows: " ++ rows.text ++ " \x7d"
  | sampler kind => "Sampler(" ++ kind.text ++ ")"
  | struct symbol => "Struct(" ++ symbol.text ++ ")"
  | block symbol => "InterfaceBlock(" ++ symbol.text ++ ")"

def Ty.text (ty : Ty) : String :=
  let array := match ty.array with
    | some size => "Some(" ++ toString size.count ++ ")"
    | none => "None"
  "Type \x7b inner: " ++ ty.shape.text ++ ", precision: " ++ ty.precision.text
    ++ ", qualifier: " ++ ty.qualifier.text ++ ", array_size: " ++ array ++ " \x7d"

end ShaderTree
