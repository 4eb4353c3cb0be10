import ShaderTree.Tree.Build
import ShaderTree.Validity.Error

/-!
What a validation looks for, what it reads, and what it keeps on its way through a tree: the nodes
already met, so that no node has two parents, and the variables visible at this point.
-/
namespace ShaderTree

/-- What is checked besides the shape of statements. -/
structure Checks where
  /-- Handles of symbols lie in the pool. -/
  handles : Bool
  /-- No node has two parents. -/
  singleParent : Bool
  /-- The types of expressions agree with their operands. -/
  types : Bool
  /-- The arguments of constructors fit the type constructed. -/
  constructors : Bool
  /-- Variables are declared before they are used, and calls name functions. -/
  references : Bool
  deriving DecidableEq, Repr

namespace Checks

def all : Checks := ⟨true, true, true, true, true⟩

def none : Checks := ⟨false, false, false, false, false⟩

/-- One bit for each check. -/
def bits (checks : Checks) : Nat :=
  checks.handles.toNat + 2 * checks.singleParent.toNat + 4 * checks.types.toNat
    + 8 * checks.constructors.toNat + 16 * checks.references.toNat

end Checks

/-- What a validation reads. -/
structure Validator where
  checks : Checks
  tree : Tree
  table : SymbolTable

namespace Validator

/-- What a validation has seen so far. -/
structure Progress where
  /-- The nodes met, kept when every node is to have a single parent. -/
  met : List NodeId := []
  /-- The variables declared up to here in the scopes that are open, the newest first. -/
  visible : List SymbolRef := []

abbrev ValidateM := StateT Progress (Except Rejection)

/-- Ends the validation. -/
def reject (error : ValidationError) : ValidateM α := throw (.invalid error)

/-- Ends the validation where a check that is switched on fails. -/
def require (wanted holds : Bool) (error : ValidationError) : ValidateM Unit :=
  if wanted && !holds then reject error else pure ()

/-- The node at `id`, which is met here for the first time. -/
def fetch (validator : Validator) (id : NodeId) : ValidateM Node := do
  match validator.tree.nodes.lookup id with
  | .error bad => reject (.invalidHandle bad)
  | .ok node =>
    if validator.checks.singleParent then
      let progress ← get
      if id ∈ progress.met then reject (.multipleParents id)
      set { progress with met := id :: progress.met }
    return node

/-- Runs `action` in a scope of its own, in which `names` are visible from the start. -/
def inScope (names : List SymbolRef) (action : ValidateM α) : ValidateM α := do
  let outer := (← get).visible
  modify fun progress => { progress with visible := names ++ outer }
  let value ← action
  modify fun progress => { progress with visible := outer }
  return value

/-- Makes a variable visible from here to the end of the scope. -/
def declare (symbol : SymbolRef) : ValidateM Unit :=
  modify fun progress => { progress with visible := symbol :: progress.visible }

/-- Built-ins are visible everywhere. -/
def isVisible (symbol : SymbolRef) : ValidateM Bool := do
  return symbol.isBuiltIn || (← get).visible.contains symbol

/-- Handles of symbols lie in the pool. -/
def checkHandle (validator : Validator) (symbol : SymbolRef) : ValidateM Unit :=
  match symbol with
  | .pool handle =>
    match validator.table.pool.check handle with
    | .error bad => require validator.checks.handles false (.invalidHandle bad)
    | .ok () => pure ()
  | .builtIn _ => pure ()

/-- The symbol called or defined at `node` is a function, whatever is checked. -/
def checkFunction (validator : Validator) (node : NodeId) (function : SymbolRef) :
    ValidateM Unit := do
  if let .pool handle := function then
    unless validator.table.pool.contains handle do reject (.unknownFunction node)
  unless (← validator.table.resolve function).isFunction do reject (.unknownFunction node)

end Validator

end ShaderTree
