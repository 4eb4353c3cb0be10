import ShaderTree.Arena

/-!
Types of the shading language. A type is a small value: structures and interface blocks are named by
a reference to their symbol, so two types are the same shape exactly when they name the same one.
-/
namespace ShaderTree

inductive ScalarKind where
  | sint
  | uint
  | float
  | bool
  deriving DecidableEq, Repr

/-- Components of a vector, and columns or rows of a matrix. -/
inductive VectorSize where
  | two
  | three
  | four
  deriving DecidableEq, Repr

def VectorSize.count : VectorSize → Nat
  | two => 2
  | three => 3
  | four => 4

inductive SamplerKind where
  | sampler2D
  | sampler3D
  | samplerCube
  deriving DecidableEq, Repr

inductive Precision where
  | undefined
  | low
  | medium
  | high
  deriving DecidableEq, Repr

/-- Storage of a value. The qualifiers from `position` on belong to built-in inputs and outputs. -/
inductive Qualifier where
  | temporary
  | global
  | const
  | vertexAttribute
  | varyingIn
  | varyingOut
  | uniform
  | buffer
  | shared
  | paramIn
  | paramOut
  | paramInOut
  | paramConst
  | position
  | pointSize
  | fragCoord
  | frontFacing
  | pointCoord
  | fragColor
  | fragData
  | fragDepth
  | lastFragData
  | vertexId
  | instanceId
  | localInvocationId
  | workGroupId
  | numWorkGroups
  deriving DecidableEq, Repr

/-- Values that can never be written. -/
def Qualifier.isReadOnly : Qualifier → Bool
  | const | vertexAttribute | varyingIn | uniform | paramConst | fragCoord | frontFacing
  | pointCoord | lastFragData | vertexId | instanceId | localInvocationId | workGroupId
  | numWorkGroups => true
  | _ => false

/-- A symbol that the language defines itself, by its place in the catalogue of built-ins. -/
structure BuiltIn where
  index : Fin 95
  deriving DecidableEq, Hashable, Repr

/-- Handles of pool symbols. -/
abbrev SymbolHandle := Handle .symbol

/-- A symbol: a built-in, or one of the pool of the compilation. -/
inductive SymbolRef where
  | builtIn (symbol : BuiltIn)
  | pool (handle : SymbolHandle)
  deriving DecidableEq, Hashable, Repr

namespace SymbolRef

def isBuiltIn : SymbolRef → Bool
  | builtIn _ => true
  | pool _ => false

def pool? : SymbolRef → Option SymbolHandle
  | builtIn _ => none
  | pool handle => some handle

end SymbolRef

/-- What a value consists of, leaving arrays aside. Matrices are made of floats. -/
inductive Shape where
  | void
  | scalar (kind : ScalarKind)
  | vector (kind : ScalarKind) (size : VectorSize)
  | matrix (columns rows : VectorSize)
  | sampler (kind : SamplerKind)
  | struct (symbol : SymbolRef)
  | block (symbol : SymbolRef)
  deriving DecidableEq, Repr

/-- Number of elements of an array, a positive 32-bit number. -/
structure ArraySize where
  count : Nat
  pos : 0 < count := by decide
  lt : count < UInt32.size := by decide
  deriving DecidableEq, Repr

structure Ty where
  shape : Shape
  precision : Precision := .undefined
  qualifier : Qualifier := .temporary
  array : Option ArraySize := none
  deriving DecidableEq, Repr

namespace Ty

def void : Ty := ⟨.void, .undefined, .temporary, none⟩

def scalar (kind : ScalarKind) : Ty := ⟨.scalar kind, .undefined, .temporary, none⟩

def float : Ty := scalar .float

def int : Ty := scalar .sint

def uint : Ty := scalar .uint

def bool : Ty := scalar .bool

def vector (kind : ScalarKind) (size : VectorSize) : Ty :=
  ⟨.vector kind size, .undefined, .temporary, none⟩

def matrix (columns rows : VectorSize) : Ty :=
  ⟨.matrix columns rows, .undefined, .temporary, none⟩

def sampler (kind : SamplerKind) : Ty := ⟨.sampler kind, .undefined, .temporary, none⟩

def struct (symbol : SymbolRef) : Ty := ⟨.struct symbol, .undefined, .temporary, none⟩

def withPrecision (ty : Ty) (precision : Precision) : Ty := { ty with precision }

def withQualifier (ty : Ty) (qualifier : Qualifier) : Ty := { ty with qualifier }

def arrayOf (ty : Ty) (size : ArraySize) : Ty := { ty with array := some size }

/-- The type of one array element. -/
def element (ty : Ty) : Ty := { ty with array := none }

def isArray (ty : Ty) : Bool := ty.array.isSome

def isScalar (ty : Ty) : Bool :=
  !ty.isArray && match ty.shape with
    | .scalar _ => true
    | _ => false

def isVector (ty : Ty) : Bool :=
  !ty.isArray && match ty.shape with
    | .vector _ _ => true
    | _ => false

def isMatrix (ty : Ty) : Bool :=
  !ty.isArray && match ty.shape with
    | .matrix _ _ => true
    | _ => false

/-- Arrays of samplers count. -/
def isSampler (ty : Ty) : Bool :=
  match ty.shape with
  | .sampler _ => true
  | _ => false

/-- Arrays of structures count. -/
def isStruct (ty : Ty) : Bool :=
  match ty.shape with
  | .struct _ => true
  | _ => false

/-- Scalars, vectors and matrices. -/
def hasComponents (ty : Ty) : Bool :=
  ty.isScalar || ty.isVector || ty.isMatrix

/-- The kind of the scalars in a value, arrays included. -/
def scalarKind? (ty : Ty) : Option ScalarKind :=
  match ty.shape with
  | .scalar kind | .vector kind _ => some kind
  | .matrix _ _ => some .float
  | _ => none

/-- Components of a vector, columns of a matrix, or 1. -/
def nominalSize (ty : Ty) : Nat :=
  match ty.shape with
  | .vector _ size => size.count
  | .matrix columns _ => columns.count
  | _ => 1

def columns (ty : Ty) : Nat :=
  match ty.shape with
  | .matrix columns _ => columns.count
  | _ => 1

def rows (ty : Ty) : Nat :=
  match ty.shape with
  | .matrix _ rows => rows.count
  | _ => 1

/-- Number of elements of an array, 1 for other types. -/
def arrayFactor (ty : Ty) : Nat :=
  match ty.array with
  | some size => size.count
  | none => 1

/-- Precision and qualifier do not matter. -/
def sameShape (a b : Ty) : Bool :=
  a.shape = b.shape && a.array = b.array

/-- The type of `ty[i]`: an element of an array, a component of a vector, a column of a matrix. -/
def indexed? (ty : Ty) : Option Ty :=
  if ty.isArray then
    some { ty.element with qualifier := .temporary }
  else
    match ty.shape with
    | .vector kind _ => some ⟨.scalar kind, ty.precision, .temporary, none⟩
    | .matrix _ rows => some ⟨.vector .float rows, ty.precision, .temporary, none⟩
    | _ => none

end Ty

end ShaderTree
