import ShaderTree.Named

/-!
Profiles: the language version, pipeline stage and extensions a shader is written against.
-/
namespace ShaderTree

/-- Language versions, oldest first. -/
inductive Version where
  | essl100
  | essl300
  | essl310
  deriving DecidableEq, Ord, Repr

namespace Version

def rank : Version → Nat
  | essl100 => 0
  | essl300 => 1
  | essl310 => 2

def text : Version → String
  | essl100 => "Essl100"
  | essl300 => "Essl300"
  | essl310 => "Essl310"

instance : Named Version := ⟨[essl100, essl300, essl310], text⟩

end Version

inductive Stage where
  | vertex
  | fragment
  | compute
  deriving DecidableEq, Repr

def Stage.text : Stage → String
  | vertex => "Vertex"
  | fragment => "Fragment"
  | compute => "Compute"

instance : Named Stage := ⟨[.vertex, .fragment, .compute], Stage.text⟩

/-- What a symbol depends on besides the core language. -/
inductive Extension where
  /-- The symbol belongs to the core language. -/
  | undefined
  | fragDepth
  | shaderFramebufferFetch
  | standardDerivatives
  deriving DecidableEq, Repr

def Extension.text : Extension → String
  | undefined => "Undefined"
  | fragDepth => "ExtFragDepth"
  | shaderFramebufferFetch => "ExtShaderFramebufferFetch"
  | standardDerivatives => "OesStandardDerivatives"

instance : Named Extension :=
  ⟨[.undefined, .fragDepth, .shaderFramebufferFetch, .standardDerivatives], Extension.text⟩

/-- Selects the built-ins that a program sees. -/
structure Profile where
  version : Version := .essl100
  stage : Stage := .fragment
  extensions : List Extension := []
  deriving DecidableEq, Repr

/-- The core language is always enabled. -/
def Profile.enables (profile : Profile) (extension : Extension) : Bool :=
  extension = .undefined || profile.extensions.contains extension

/-- The profiles that expose a symbol: versions from `since` through `last`, of one stage or all. -/
structure Availability where
  since : Version
  last : Option Version := none
  stage : Option Stage := none
  deriving DecidableEq, Repr

def Availability.covers (range : Availability) (profile : Profile) : Bool :=
  range.since.rank ≤ profile.version.rank
    && range.last.all (profile.version.rank ≤ ·.rank)
    && range.stage.all (· = profile.stage)

end ShaderTree
