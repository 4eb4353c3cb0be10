import ShaderTree.Symbol.Name

/-!
One lexical scope: what is bound under which mangled name, and the names of its functions. Overloads
share a name, while anything else that is bound keeps its name to itself.
-/
namespace ShaderTree

structure Scope where
  /-- Mangled names with their symbols, the newest first. -/
  bindings : List (String × SymbolRef) := []
  /-- Names of the functions bound, without their parameters. -/
  functionNames : List String := []
  deriving DecidableEq, Repr

namespace Scope

def find? (scope : Scope) (key : String) : Option SymbolRef := scope.bindings.lookup key

def binds (scope : Scope) (key : String) : Bool := (scope.find? key).isSome

def hasFunction (scope : Scope) (name : String) : Bool := scope.functionNames.contains name

/-- Whether `symbol` may be bound under `key`: no symbol has the key, and no function meets another
symbol of its name. -/
def admits (scope : Scope) (key : String) (symbol : Symbol) : Bool :=
  !scope.binds key
    && if symbol.isFunction then !scope.binds symbol.rawName
      else !scope.hasFunction symbol.rawName

def bind (scope : Scope) (key : String) (symbol : Symbol) (ref : SymbolRef) : Scope :=
  { bindings := (key, ref) :: scope.bindings
    functionNames :=
      if symbol.isFunction then scope.functionNames.insert symbol.rawName
      else scope.functionNames }

/-- Binds `symbol`, unless the scope has something else of that name. -/
def insert? (scope : Scope) (key : String) (symbol : Symbol) (ref : SymbolRef) : Option Scope :=
  if scope.admits key symbol then some (scope.bind key symbol ref) else none

end Scope

namespace BuiltIn

/-- The key that binds a built-in, which is its mangled name by `mangled_symbol`. -/
def key (symbol : BuiltIn) : String :=
  match symbol.entry.kind with
  | .function function => function.signature.mangled?.getD symbol.entry.name
  | _ => symbol.entry.name

theorem name_ne_empty (symbol : BuiltIn) : symbol.entry.name ≠ "" := by
  obtain ⟨index⟩ := symbol
  revert index
  decide +kernel

private theorem signature_given (symbol : BuiltIn) :
    (match symbol.entry.kind with
      | .function function => function.signature.mangled?.isSome
      | _ => true) = true := by
  obtain ⟨index⟩ := symbol
  revert index
  decide +kernel

theorem mangled_symbol (symbol : BuiltIn) (pool : Pool) :
    symbol.symbol.mangled pool = .ok symbol.key := by
  have named := symbol.name_ne_empty
  have given := symbol.signature_given
  cases kind : symbol.entry.kind with
  | function function =>
    rw [kind] at given
    obtain ⟨mangled, given⟩ := Option.isSome_iff_exists.mp given
    simp [Symbol.mangled, BuiltIn.symbol, BuiltIn.key, kind, Function.mangled, given]
  | _ => simp [Symbol.mangled, BuiltIn.symbol, BuiltIn.key, kind, Symbol.name, named]

end BuiltIn

/-- The outermost scope, holding the built-ins of `profile`. -/
def Scope.builtIn (profile : Profile) : Scope :=
  (BuiltIn.available profile).foldl
    (fun scope symbol => (scope.insert? symbol.key symbol.symbol (.builtIn symbol)).getD scope) {}

end ShaderTree
