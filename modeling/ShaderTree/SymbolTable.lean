import ShaderTree.Scope
import ShaderTree.Symbol.Sampler

/-!
The symbol table: the pool of the symbols that a compilation creates, and the stack of scopes that
binds names to them. The scope of built-ins and the global scope are always there; local scopes come
and go on top of them.
-/
namespace ShaderTree

/-- A name bound twice in one scope. -/
structure Redefinition where
  name : String
  deriving DecidableEq, Repr

def Redefinition.message (redefinition : Redefinition) : String :=
  "Redefinition of `" ++ redefinition.name ++ "`"

structure SymbolTable where
  pool : Pool := .empty
  constants : Arena .constant (List Scalar) := .empty
  supply : IdentitySupply := {}
  builtIns : Scope
  globals : Scope := {}
  /-- Scopes inside the global one, the innermost first. -/
  locals : List Scope := []
  profile : Profile

namespace SymbolTable

/-- A table with the built-ins of `profile` and an empty global scope. -/
def new (profile : Profile) : SymbolTable :=
  { builtIns := .builtIn profile, profile }

def resolve (table : SymbolTable) (symbol : SymbolRef) : Except Fault Symbol :=
  symbol.resolve table.pool

/-! ### Scopes -/

/-- The scopes from the innermost to the one of the built-ins. -/
def scopes (table : SymbolTable) : List Scope :=
  table.locals ++ [table.globals, table.builtIns]

/-- The global scope has level 1. -/
def level (table : SymbolTable) : Nat := table.locals.length + 1

def isGlobalScope (table : SymbolTable) : Bool := table.locals.isEmpty

/-- The scope that declarations go to. -/
def current (table : SymbolTable) : Scope := table.locals.head?.getD table.globals

def withCurrent (table : SymbolTable) (scope : Scope) : SymbolTable :=
  match table.locals with
  | [] => { table with globals := scope }
  | _ :: outer => { table with locals := scope :: outer }

def pushScope (table : SymbolTable) : SymbolTable :=
  { table with locals := {} :: table.locals }

def popScope (table : SymbolTable) : Except Fault SymbolTable :=
  match table.locals with
  | [] => .error .globalScopePopped
  | _ :: outer => .ok { table with locals := outer }

/-- The innermost binding of `name`. -/
def lookup (table : SymbolTable) (name : String) : Option SymbolRef :=
  table.scopes.findSome? (·.find? name)

/-- The function whose mangled name is `mangled`; a binding of another kind hides those outside. -/
def lookupFunction (table : SymbolTable) (mangled : String) : Except Fault (Option SymbolRef) :=
  match table.lookup mangled with
  | none => .ok none
  | some symbol => do
    return if (← table.resolve symbol).isFunction then some symbol else none

def hasFunctionNamed (table : SymbolTable) (name : String) : Bool :=
  table.scopes.any (·.hasFunction name)

def findGlobal (table : SymbolTable) (name : String) : Option SymbolRef :=
  table.globals.find? name

def findBuiltIn (table : SymbolTable) (name : String) : Option SymbolRef :=
  table.builtIns.find? name

/-! ### Symbols -/

/-- Puts a new symbol into the pool, without binding it. -/
def create (table : SymbolTable) (rawName : String) (origin : Origin) (kind : SymbolKind) :
    Except Fault (SymbolHandle × SymbolTable) :=
  if rawName = "" ∧ origin = .userDefined then .error .userSymbolUnnamed
  else if origin = .builtIn then .error .builtInInPool
  else
    let (id, supply) := table.supply.take
    let (handle, pool) := table.pool.append { rawName, id, origin, kind }
    .ok (handle, { table with pool, supply })

def createVariable (table : SymbolTable) (name : String) (ty : Ty) (origin : Origin) :
    Except Fault (SymbolHandle × SymbolTable) :=
  table.create name origin (.var { ty })

def createStruct (table : SymbolTable) (name : String) (fields : List Field) (origin : Origin) :
    Except Fault (SymbolHandle × SymbolTable) :=
  table.create name origin (.struct { fields })

def createBlock (table : SymbolTable) (name : String) (fields : List Field) (layout : Layout)
    (origin : Origin) : Except Fault (SymbolHandle × SymbolTable) :=
  table.create name origin (.block (.ofLayout fields layout))

def createFunction (table : SymbolTable) (name : String) (origin : Origin) (returnType : Ty)
    (isPure : Bool) : Except Fault (SymbolHandle × SymbolTable) :=
  table.create name origin (.function (.new returnType isPure))

/-- Replaces the kind data of a pool symbol; its name and identity stay. -/
def withKind (table : SymbolTable) (handle : SymbolHandle) (kind : SymbolKind) :
    Except Fault SymbolTable := do
  let symbol ← table.pool.read handle
  return { table with pool := ← table.pool.write handle { symbol with kind } }

/-- The function at `handle`. -/
def functionAt (table : SymbolTable) (handle : SymbolHandle) : Except Fault Function := do
  match (← table.pool.read handle).asFunction? with
  | some function => return function
  | none => throw .notFunction

def addParameter (table : SymbolTable) (function parameter : SymbolHandle) :
    Except Fault SymbolTable := do
  unless (← table.pool.read parameter).isVariable do throw .parameterNotVariable
  let extended ← (← table.functionAt function).addParameter parameter
  table.withKind function (.function extended)

/-- Makes a definition refer to the parameters of its prototype. -/
def shareParameters (table : SymbolTable) (definition prototype : SymbolHandle) :
    Except Fault SymbolTable := do
  let source ← table.functionAt prototype
  let shared ← (← table.functionAt definition).shareParameters source
  table.withKind definition (.function shared)

/-- The mangled name of a symbol. A function of the pool remembers it from now on. -/
def mangled (table : SymbolTable) (ref : SymbolRef) : Except Fault (String × SymbolTable) := do
  let symbol ← table.resolve ref
  let name ← symbol.mangled table.pool
  match ref, symbol.kind with
  | .pool handle, .function function =>
    return (name, ← table.withKind handle (.function (function.remember name)))
  | _, _ => return (name, table)

/-- Gives a structure another name. The scope keeps the old one. -/
def rename (table : SymbolTable) (handle : SymbolHandle) (rawName : String) :
    Except Fault SymbolTable := do
  let symbol ← table.pool.read handle
  return { table with pool := ← table.pool.write handle { symbol with rawName } }

/-- Moves constant data into the table. -/
def addConstant (table : SymbolTable) (values : List Scalar) : ConstantRef × SymbolTable :=
  let (handle, constants) := table.constants.append values
  (.pool handle, { table with constants })

def constantValues (table : SymbolTable) : ConstantRef → Except Fault (List Scalar)
  | .static values => .ok values
  | .pool handle => table.constants.read handle

/-- Lets a variable of the pool have the value `constant`; `none` for symbols of other kinds. -/
def shareConstant (table : SymbolTable) (handle : SymbolHandle) (constant : ConstantRef) :
    Except Fault (Option SymbolTable) := do
  match (← table.pool.read handle).asVariable? with
  | some var => some <$> table.withKind handle (.var { var with constant := some constant })
  | none => return none

/-- One internal variable for each sampler in a structure, with the path that the sampler has for
programs. -/
def createSamplers (table : SymbolTable) (symbol : SymbolRef) (name apiName : String) :
    Except Fault (List (SymbolHandle × String) × SymbolTable) := do
  let samplers ← match (← table.resolve symbol).asStruct? with
    | some struct => struct.collectSamplers table.pool name apiName
    | none => pure []
  samplers.foldlM
    (fun (created, table) sampler => do
      let (handle, table) ← table.createVariable sampler.name sampler.ty .toolInternal
      return (created ++ [(handle, sampler.apiName)], table))
    ([], table)

/-! ### Declarations -/

/-- What came of a declaration: the key of a nameless symbol is never asked for. -/
inductive Declaration where
  | nameless
  | bound (key : String)
  | taken (key : String) (error : Redefinition)
  deriving DecidableEq, Repr

/-- A structure remembers whether its latest declaration stood in the global scope. -/
def markStruct (table : SymbolTable) (handle : SymbolHandle) : Except Fault SymbolTable := do
  match (← table.pool.read handle).asStruct? with
  | some struct =>
    table.withKind handle (.struct { struct with atGlobalScope := table.isGlobalScope })
  | none => return table

/-- Binds a pool symbol in the current scope under its mangled name. -/
def declare (table : SymbolTable) (handle : SymbolHandle) :
    Except Fault (Declaration × SymbolTable) := do
  let table ← table.markStruct handle
  let symbol ← table.pool.read handle
  if symbol.origin = .empty then return (.nameless, table)
  let (key, table) ← table.mangled (.pool handle)
  match table.current.insert? key symbol (.pool handle) with
  | some scope => return (.bound key, table.withCurrent scope)
  | none => return (.taken key ⟨symbol.rawName⟩, table)

end SymbolTable

end ShaderTree
