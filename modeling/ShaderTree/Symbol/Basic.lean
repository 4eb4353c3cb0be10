import ShaderTree.Named
import ShaderTree.Scalar
import ShaderTree.Layout
import ShaderTree.Profile

/-!
Symbols: variables, structures, interface blocks and functions, each with an identity.
-/
namespace ShaderTree

/-- Tells symbols apart. The built-ins take the numbers from 1 through 95. -/
structure Identity where
  number : Nat
  deriving DecidableEq, Hashable, Repr

namespace Identity

def lastBuiltIn : Nat := 95

def isBuiltIn (id : Identity) : Bool := id.number ≤ lastBuiltIn

def text (id : Identity) : String := s!"#{id.number}"

/-- Lower-case hexadecimal digits. -/
def hex (id : Identity) : String := String.ofList (Nat.toDigits 16 id.number)

end Identity

/-- Identities not handed out yet, from `next` on. -/
structure IdentitySupply where
  next : Nat := Identity.lastBuiltIn + 1
  deriving DecidableEq, Repr

namespace IdentitySupply

/-- There is always one more to take: that identities run out, with more symbols than 32 bits can number, is out
of scope. -/
def take (supply : IdentitySupply) : Identity × IdentitySupply :=
  (⟨supply.next⟩, ⟨supply.next + 1⟩)

/-- The identities that `count` takes hand out. -/
def takeMany (supply : IdentitySupply) : Nat → List Identity
  | 0 => []
  | count + 1 => supply.take.1 :: supply.take.2.takeMany count

end IdentitySupply

/-- Where a symbol comes from. -/
inductive Origin where
  | builtIn
  /-- Written in the program. -/
  | userDefined
  /-- Made by a pass. -/
  | toolInternal
  /-- Has no name and is never bound in a scope. -/
  | empty
  deriving DecidableEq, Repr

instance : Named Origin where
  all := [.builtIn, .userDefined, .toolInternal, .empty]
  text
    | .builtIn => "BuiltIn"
    | .userDefined => "UserDefined"
    | .toolInternal => "ToolInternal"
    | .empty => "Empty"

/-- What a built-in function computes. -/
inductive Intrinsic where
  | radians
  | degrees
  | sin
  | cos
  | sqrt
  | length
  | normalize
  | dot
  | mix
  | transpose
  | texture2D
  | textureCube
  | texture
  | dFdx
  deriving DecidableEq, Repr

instance : Named Intrinsic where
  all :=
    [.radians, .degrees, .sin, .cos, .sqrt, .length, .normalize, .dot, .mix, .transpose,
      .texture2D, .textureCube, .texture, .dFdx]
  text
    | .radians => "Radians"
    | .degrees => "Degrees"
    | .sin => "Sin"
    | .cos => "Cos"
    | .sqrt => "Sqrt"
    | .length => "Length"
    | .normalize => "Normalize"
    | .dot => "Dot"
    | .mix => "Mix"
    | .transpose => "Transpose"
    | .texture2D => "Texture2D"
    | .textureCube => "TextureCube"
    | .texture => "Texture"
    | .dFdx => "DFdx"

/-- Where the value of a constant variable is kept. -/
inductive ConstantRef where
  | static (values : List Scalar)
  | pool (handle : Handle .constant)
  deriving DecidableEq

structure Variable where
  ty : Ty
  constant : Option ConstantRef := none
  deriving DecidableEq

structure Field where
  name : String
  ty : Ty
  layout : Layout := {}
  deriving DecidableEq

structure Struct where
  fields : List Field
  atGlobalScope : Bool := false
  deriving DecidableEq

/-- A block, not an instance of it: instances are variables of the block's type. -/
structure InterfaceBlock where
  fields : List Field
  storage : BlockStorage
  binding : Option UInt32
  deriving DecidableEq

/-- Blocks without a storage layout are shared. -/
def InterfaceBlock.ofLayout (fields : List Field) (layout : Layout) : InterfaceBlock :=
  { fields, storage := layout.storage.getD .shared, binding := layout.binding }

/-- Parameters of a function with its mangled name. -/
inductive Signature where
  /-- A built-in: nothing can be added, and the mangled name is given. -/
  | fixed (parameters : List BuiltIn) (mangled : String)
  /-- A function of the pool: the mangled name is remembered once it was asked for. -/
  | growing (parameters : List SymbolHandle) (mangled : Option String)
  deriving DecidableEq

namespace Signature

def parameters : Signature → List SymbolRef
  | fixed parameters _ => parameters.map .builtIn
  | .growing parameters _ => parameters.map .pool

def mangled? : Signature → Option String
  | fixed _ mangled => some mangled
  | .growing _ mangled => mangled

end Signature

structure Function where
  signature : Signature
  returnType : Ty
  intrinsic : Option Intrinsic := none
  defined : Bool := false
  hasPrototype : Bool := false
  /-- Known to have no side effects. -/
  isPure : Bool := false
  deriving DecidableEq

namespace Function

/-- A function of the program, without parameters yet. -/
def new (returnType : Ty) (isPure : Bool) : Function :=
  { signature := .growing [] none, returnType, isPure }

def parameters (function : Function) : List SymbolRef := function.signature.parameters

/-- The mangled name is forgotten, since the signature changed. -/
def addParameter (function : Function) (parameter : SymbolHandle) : Except Fault Function :=
  match function.signature with
  | .growing parameters _ =>
    .ok { function with signature := .growing (parameters ++ [parameter]) none }
  | .fixed _ _ => .error .builtInImmutable

/-- Takes over the parameters of `source`, with the mangled name remembered for it. -/
def shareParameters (function source : Function) : Except Fault Function :=
  match source.signature with
  | .growing parameters mangled =>
    .ok { function with signature := .growing parameters mangled }
  | .fixed _ _ => .error .builtInUndefined

/-- Remembers `name` as the mangled name of a function of the pool. -/
def remember (function : Function) (name : String) : Function :=
  match function.signature with
  | .growing parameters _ => { function with signature := .growing parameters (some name) }
  | .fixed _ _ => function

end Function

inductive SymbolKind where
  | var (var : Variable)
  | struct (struct : Struct)
  | block (block : InterfaceBlock)
  | function (function : Function)
  deriving DecidableEq

structure Symbol where
  /-- The name as written, possibly empty. -/
  rawName : String
  id : Identity
  origin : Origin
  extension : Extension := .undefined
  kind : SymbolKind
  deriving DecidableEq

namespace Symbol

def isFunction (symbol : Symbol) : Bool :=
  match symbol.kind with
  | .function _ => true
  | _ => false

def isVariable (symbol : Symbol) : Bool :=
  match symbol.kind with
  | .var _ => true
  | _ => false

/-- The entry point of the program. -/
def isMain (symbol : Symbol) : Bool :=
  symbol.isFunction && symbol.rawName = "main"

def asVariable? (symbol : Symbol) : Option Variable :=
  match symbol.kind with
  | .var var => some var
  | _ => none

def asStruct? (symbol : Symbol) : Option Struct :=
  match symbol.kind with
  | .struct struct => some struct
  | _ => none

def asFunction? (symbol : Symbol) : Option Function :=
  match symbol.kind with
  | .function function => some function
  | _ => none

/-- Fields of a structure or interface block, none for other symbols. -/
def fields (symbol : Symbol) : List Field :=
  match symbol.kind with
  | .struct struct => struct.fields
  | .block block => block.fields
  | _ => []

end Symbol

/-- The symbols that a compilation creates. -/
abbrev Pool := Arena .symbol Symbol

end ShaderTree
