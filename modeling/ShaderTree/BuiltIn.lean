import ShaderTree.Symbol.Basic

/-!
The catalogue of built-ins: variables, limits, function parameters and functions, in the order of
their identities. A built-in's identity is one more than its place in the catalogue.
-/
namespace ShaderTree

namespace BuiltIn

/-- A place in the catalogue. Parameters of functions have no availability of their own. -/
structure Entry where
  name : String
  kind : SymbolKind
  extension : Extension := .undefined
  availability : Option Availability := none
  deriving DecidableEq

private def core : Availability := { since := .essl100 }

private def modern : Availability := { since := .essl300 }

private def legacy : Availability := { since := .essl100, last := some .essl100 }

private def staged (since : Version) (stage : Stage) : Availability :=
  { since, stage := some stage }

private def legacyFragment : Availability :=
  { since := .essl100, last := some .essl100, stage := some .fragment }

private def value (name : String) (ty : Ty) (availability : Availability)
    (extension : Extension := .undefined) : Entry :=
  { name, kind := .var { ty }, extension, availability := some availability }

private def one : ArraySize := { count := 1 }

private def vec2 : Ty := .vector .float .two

private def vec3 : Ty := .vector .float .three

private def vec4 : Ty := .vector .float .four

private def uvec3 : Ty := (Ty.vector .uint .three).withPrecision .high

private def highFloat : Ty := Ty.float.withPrecision .high

private def highInt : Ty := Ty.int.withPrecision .high

private def depthRangeParameters : Entry :=
  { name := "gl_DepthRangeParameters"
    kind := .struct
      { fields :=
          [{ name := "near", ty := highFloat }, { name := "far", ty := highFloat },
            { name := "diff", ty := highFloat }]
        atGlobalScope := true }
    availability := some core }

/-- Inputs and outputs of the stages. -/
private def stageValues : List Entry :=
  [depthRangeParameters,
    value "gl_DepthRange" ((Ty.struct (.builtIn ⟨0⟩)).withQualifier .uniform) core,
    value "gl_Position" ((vec4.withPrecision .high).withQualifier .position)
      (staged .essl100 .vertex),
    value "gl_PointSize" ((Ty.float.withPrecision .medium).withQualifier .pointSize)
      (staged .essl100 .vertex),
    value "gl_FragCoord" ((vec4.withPrecision .medium).withQualifier .fragCoord)
      (staged .essl100 .fragment),
    value "gl_FrontFacing" (Ty.bool.withQualifier .frontFacing) (staged .essl100 .fragment),
    value "gl_PointCoord" ((vec2.withPrecision .medium).withQualifier .pointCoord)
      (staged .essl100 .fragment),
    value "gl_FragColor" ((vec4.withPrecision .medium).withQualifier .fragColor) legacyFragment,
    value "gl_FragData" (((vec4.withPrecision .medium).withQualifier .fragData).arrayOf one)
      legacyFragment,
    value "gl_FragDepthEXT" (highFloat.withQualifier .fragDepth) legacyFragment .fragDepth,
    value "gl_LastFragData"
      (((vec4.withPrecision .medium).withQualifier .lastFragData).arrayOf one)
      legacyFragment .shaderFramebufferFetch,
    value "gl_FragDepth" (highFloat.withQualifier .fragDepth) (staged .essl300 .fragment),
    value "gl_VertexID" (highInt.withQualifier .vertexId) (staged .essl300 .vertex),
    value "gl_InstanceID" (highInt.withQualifier .instanceId) (staged .essl300 .vertex),
    value "gl_LocalInvocationID" (uvec3.withQualifier .localInvocationId)
      (staged .essl310 .compute),
    value "gl_WorkGroupID" (uvec3.withQualifier .workGroupId) (staged .essl310 .compute),
    value "gl_NumWorkGroups" (uvec3.withQualifier .numWorkGroups) (staged .essl310 .compute)]

private def limit (name : String) (least : Int32) : Entry :=
  { name
    kind := .var
      { ty := (Ty.int.withPrecision .medium).withQualifier .const
        constant := some (.static [.sint least]) }
    availability := some core }

/-- The least values that an implementation may set for its limits. -/
private def limits : List Entry :=
  [limit "gl_MaxVertexAttribs" 8,
    limit "gl_MaxVertexUniformVectors" 128,
    limit "gl_MaxVaryingVectors" 8,
    limit "gl_MaxVertexTextureImageUnits" 0,
    limit "gl_MaxCombinedTextureImageUnits" 8,
    limit "gl_MaxTextureImageUnits" 8,
    limit "gl_MaxFragmentUniformVectors" 16,
    limit "gl_MaxDrawBuffers" 1]

private def parameter (name : String) (ty : Ty) : Entry :=
  { name, kind := .var { ty := ty.withQualifier .paramIn } }

private def mat2 : Ty := .matrix .two .two

private def mat3 : Ty := .matrix .three .three

private def mat4 : Ty := .matrix .four .four

/-- Parameters are shared by all functions that take them. -/
private def parameterEntries : List Entry :=
  [parameter "x" .float, parameter "x" vec2, parameter "x" vec3, parameter "x" vec4,
    parameter "y" .float, parameter "y" vec2, parameter "y" vec3, parameter "y" vec4,
    parameter "a" .float, parameter "a" vec2, parameter "a" vec3, parameter "a" vec4,
    parameter "m" mat2, parameter "m" mat3, parameter "m" mat4,
    parameter "sampler" (.sampler .sampler2D), parameter "sampler" (.sampler .samplerCube),
    parameter "coord" vec2, parameter "coord" vec3]

private def xFloat : BuiltIn := ⟨25⟩

private def xVec2 : BuiltIn := ⟨26⟩

private def xVec3 : BuiltIn := ⟨27⟩

private def xVec4 : BuiltIn := ⟨28⟩

private def yFloat : BuiltIn := ⟨29⟩

private def yVec2 : BuiltIn := ⟨30⟩

private def yVec3 : BuiltIn := ⟨31⟩

private def yVec4 : BuiltIn := ⟨32⟩

private def aFloat : BuiltIn := ⟨33⟩

private def aVec2 : BuiltIn := ⟨34⟩

private def aVec3 : BuiltIn := ⟨35⟩

private def aVec4 : BuiltIn := ⟨36⟩

private def mMat2 : BuiltIn := ⟨37⟩

private def mMat3 : BuiltIn := ⟨38⟩

private def mMat4 : BuiltIn := ⟨39⟩

private def sampler2D : BuiltIn := ⟨40⟩

private def samplerCube : BuiltIn := ⟨41⟩

private def coordVec2 : BuiltIn := ⟨42⟩

private def coordVec3 : BuiltIn := ⟨43⟩

private def call (name codes : String) (parameters : List BuiltIn) (returnType : Ty)
    (intrinsic : Intrinsic) (availability : Availability)
    (extension : Extension := .undefined) : Entry :=
  { name
    kind := .function
      { signature := .fixed parameters (name ++ "(" ++ codes)
        returnType
        intrinsic := some intrinsic
        isPure := true }
    extension
    availability := some availability }

/-- The four overloads of a function from a float or float vector to the same type. -/
private def componentwise (name : String) (intrinsic : Intrinsic) (availability : Availability)
    (extension : Extension := .undefined) : List Entry :=
  [call name "f;" [xFloat] .float intrinsic availability extension,
    call name "f2;" [xVec2] vec2 intrinsic availability extension,
    call name "f3;" [xVec3] vec3 intrinsic availability extension,
    call name "f4;" [xVec4] vec4 intrinsic availability extension]

private def functions : List Entry :=
  componentwise "radians" .radians core
    ++ componentwise "degrees" .degrees core
    ++ componentwise "sin" .sin core
    ++ componentwise "cos" .cos core
    ++ componentwise "sqrt" .sqrt core
    ++ [call "length" "f;" [xFloat] .float .length core,
      call "length" "f2;" [xVec2] .float .length core,
      call "length" "f3;" [xVec3] .float .length core,
      call "length" "f4;" [xVec4] .float .length core]
    ++ componentwise "normalize" .normalize core
    ++ [call "dot" "f;f;" [xFloat, yFloat] .float .dot core,
      call "dot" "f2;f2;" [xVec2, yVec2] .float .dot core,
      call "dot" "f3;f3;" [xVec3, yVec3] .float .dot core,
      call "dot" "f4;f4;" [xVec4, yVec4] .float .dot core,
      call "mix" "f;f;f;" [xFloat, yFloat, aFloat] .float .mix core,
      call "mix" "f2;f2;f2;" [xVec2, yVec2, aVec2] vec2 .mix core,
      call "mix" "f3;f3;f3;" [xVec3, yVec3, aVec3] vec3 .mix core,
      call "mix" "f4;f4;f4;" [xVec4, yVec4, aVec4] vec4 .mix core,
      call "transpose" "m22;" [mMat2] mat2 .transpose modern,
      call "transpose" "m33;" [mMat3] mat3 .transpose modern,
      call "transpose" "m44;" [mMat4] mat4 .transpose modern,
      call "texture2D" "s2;f2;" [sampler2D, coordVec2] vec4 .texture2D legacy,
      call "textureCube" "sC;f3;" [samplerCube, coordVec3] vec4 .textureCube legacy,
      call "texture" "s2;f2;" [sampler2D, coordVec2] vec4 .texture modern,
      call "texture" "sC;f3;" [samplerCube, coordVec3] vec4 .texture modern]
    ++ componentwise "dFdx" .dFdx legacy .standardDerivatives
    ++ componentwise "dFdx" .dFdx modern

def catalogue : Array Entry :=
  (stageValues ++ limits ++ parameterEntries ++ functions).toArray

theorem catalogue_size : catalogue.size = 95 := by decide

def entry (symbol : BuiltIn) : Entry :=
  have inside : symbol.index.val < catalogue.size := by
    rw [catalogue_size]
    exact symbol.index.isLt
  catalogue[symbol.index.val]

def identity (symbol : BuiltIn) : Identity := ⟨symbol.index.val + 1⟩

def symbol (symbol : BuiltIn) : Symbol :=
  { rawName := symbol.entry.name
    id := symbol.identity
    origin := .builtIn
    extension := symbol.entry.extension
    kind := symbol.entry.kind }

/-- Every built-in, in the order of identities. -/
def all : List BuiltIn := (List.finRange 95).map BuiltIn.mk

/-- The built-in with a given identity. -/
def ofIdentity? (number : Nat) : Option BuiltIn :=
  if inside : 0 < number ∧ number ≤ 95 then some ⟨⟨number - 1, by omega⟩⟩ else none

/-- The built-ins that programs can name; the parameters of functions are left out. -/
def nameable : List BuiltIn := all.filter fun symbol => symbol.entry.availability.isSome

def isAvailable (symbol : BuiltIn) (profile : Profile) : Bool :=
  symbol.entry.availability.any (·.covers profile) && profile.enables symbol.entry.extension

/-- The built-ins that programs of `profile` can name. -/
def available (profile : Profile) : List BuiltIn := nameable.filter (·.isAvailable profile)

end BuiltIn

/-- The symbol referred to; built-ins need no pool. -/
def SymbolRef.resolve (pool : Pool) : SymbolRef → Except Fault Symbol
  | .builtIn symbol => .ok symbol.symbol
  | .pool handle => pool.read handle

/-- Built-ins print their name, pool symbols their handle. -/
def SymbolRef.text : SymbolRef → String
  | .builtIn symbol => "BuiltIn(" ++ symbol.entry.name ++ ")"
  | .pool handle => "Pool" ++ handle.text

end ShaderTree
