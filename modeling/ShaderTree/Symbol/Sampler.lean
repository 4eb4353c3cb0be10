import ShaderTree.Ty.Size

/-!
Samplers inside structures. Backends cannot keep a sampler in a structure, so each is flattened to a
variable of its own, under a name built from its path of fields and array indices.
-/
namespace ShaderTree

/-- A sampler found in a structure. -/
structure SamplerField where
  /-- Name of the variable: the steps of the path joined by underscores. -/
  name : String
  /-- The path as programs write it, with dots and brackets. -/
  apiName : String
  ty : Ty
  deriving DecidableEq

namespace Struct

/-- Looks through at most `depth` levels of structures. -/
def containsWithin (pool : Pool) : (depth : Nat) → Struct → Except Fault Bool
  | 0, _ => .error .endless
  | depth + 1, struct => struct.fields.anyM fun field =>
    match field.ty.shape with
    | .sampler _ => pure true
    | .struct symbol => do
      match (← symbol.resolve pool).asStruct? with
      | some inner => containsWithin pool depth inner
      | none => pure false
    | _ => pure false

/-- Blocks among the fields are not looked into. -/
def containsSamplers (struct : Struct) (pool : Pool) : Except Fault Bool :=
  struct.containsWithin pool pool.nesting

end Struct

/-- The elements of an array one after the other, or the value itself. -/
def Ty.flatten (ty : Ty) (name apiName : String)
    (collect : Ty → String → String → Except Fault (List SamplerField)) :
    Except Fault (List SamplerField) :=
  match ty.array with
  | none => collect ty name apiName
  | some size => do
    let found ← (List.range size.count).mapM fun index =>
      collect ty.element (name ++ "_" ++ toString index) (apiName ++ "[" ++ toString index ++ "]")
    return found.flatten

namespace Struct

/-- Collects through at most `depth` levels of structures. -/
def collectWithin (pool : Pool) :
    (depth : Nat) → Struct → (name apiName : String) → Except Fault (List SamplerField)
  | 0, _, _, _ => .error .endless
  | depth + 1, struct, name, apiName => do
    let found ← struct.fields.mapM fun field =>
      let path := name ++ "_" ++ field.name
      let apiPath := apiName ++ "." ++ field.name
      match field.ty.shape with
      | .sampler _ => field.ty.flatten path apiPath fun ty name apiName =>
        pure [{ name, apiName, ty }]
      | .struct symbol => field.ty.flatten path apiPath fun _ name apiName => do
        match (← symbol.resolve pool).asStruct? with
        | some inner => collectWithin pool depth inner name apiName
        | none => pure []
      | _ => pure []
    return found.flatten

/-- The samplers of `struct` in the order of fields, array elements by ascending index. -/
def collectSamplers (struct : Struct) (pool : Pool) (name apiName : String) :
    Except Fault (List SamplerField) :=
  struct.collectWithin pool pool.nesting name apiName

end Struct

end ShaderTree
