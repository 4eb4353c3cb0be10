import ShaderTree.Log
import ShaderTree.Tree.Build

/-!
The workspace of a compilation: the tree, the symbol table and the log that all work on them writes.
What was logged stays logged when a fault ends the work.
-/
namespace ShaderTree

structure Workspace where
  tree : Tree
  table : SymbolTable
  /-- Records, the oldest first. -/
  log : Array LogRecord := #[]

/-- Work that a fault may end. -/
abbrev WorkM := ExceptT Fault (StateM Workspace)

namespace Workspace

/-- An empty tree, and a table with the built-ins of `profile`. -/
def new (profile : Profile) : Workspace :=
  let table := SymbolTable.new profile
  { tree := .new
    table
    log := #[.builtInsInjected table.builtIns.bindings.length profile] }

def record (entry : LogRecord) : WorkM Unit :=
  modify fun space => { space with log := space.log.push entry }

/-- Reads the tree and the table. -/
def inspect (operation : Tree → SymbolTable → Except Fault α) : WorkM α :=
  ExceptT.mk fun space => (operation space.tree space.table, space)

/-- Puts the tree that `operation` yields in the place of the old one. -/
def onTree (operation : Tree → SymbolTable → Except Fault (α × Tree)) : WorkM α :=
  ExceptT.mk fun space =>
    match operation space.tree space.table with
    | .ok (value, tree) => (.ok value, { space with tree })
    | .error fault => (.error fault, space)

/-- Puts the table that `operation` yields in the place of the old one. -/
def onTable (operation : SymbolTable → Except Fault (α × SymbolTable)) : WorkM α :=
  ExceptT.mk fun space =>
    match operation space.table with
    | .ok (value, table) => (.ok value, { space with table })
    | .error fault => (.error fault, space)

/-! ### The tree -/

def node (id : NodeId) : WorkM Node := inspect fun tree _ => tree.read id

def append (node : Node) : WorkM NodeId := onTree fun tree _ => .ok (tree.append node)

def setNode (id : NodeId) (node : Node) : WorkM Unit :=
  onTree fun tree _ => do return ((), ← tree.write id node)

def pushStatement (block statement : NodeId) : WorkM Unit :=
  onTree fun tree _ => do return ((), ← tree.pushStatement block statement)

def replaceChild (id original replacement : NodeId) : WorkM Bool :=
  onTree fun tree _ => tree.replaceChild id original replacement

/-! ### The table -/

def createTemporary (ty : Ty) : WorkM SymbolHandle := onTable (·.createTemporary ty)

def pushScope : WorkM Unit := do
  onTable fun table => .ok ((), table.pushScope)
  record (.scopeEntered (← get).table.level)

def popScope : WorkM Unit := do
  onTable fun table => do return ((), ← table.popScope)
  record (.scopeLeft ((← get).table.level + 1))

/-- Binds a pool symbol in the current scope, and says why it could not if it could not. -/
def declare (handle : SymbolHandle) : WorkM (Except Redefinition Unit) := do
  match ← onTable (·.declare handle) with
  | .nameless => return .ok ()
  | .bound key => logDeclaration key; return .ok ()
  | .taken key error => logDeclaration key; return .error error
where
  logDeclaration (key : String) : WorkM Unit := do
    let symbol ← inspect fun _ table => table.pool.read handle
    record (.declaring key symbol.id (← get).table.level)

end Workspace

end ShaderTree
