import ShaderTree.Walk.Basic

/-!
Names of local structures. Structures declared inside functions get names that are unique in the
compilation. Those of the global scope keep theirs, since stages may share them through uniforms.
-/
namespace ShaderTree

namespace StructNames

/-- Starts every name given here. -/
def lead : String := "_w_struct_"

def fresh (symbol : Symbol) : String :=
  lead ++ toString symbol.id.number ++ "_" ++ symbol.rawName

structure State where
  /-- Structures met in the global scope so far. They keep their names inside functions too. -/
  kept : List Identity := []
  renamed : Nat := 0
  deriving DecidableEq, Repr

abbrev StructNamesM := WalkM State

/-- The structure of the pool that a use of a variable is typed with. -/
def structOf? : Node → Option SymbolHandle
  | .symbol _ ty =>
    match ty.shape with
    | .struct (.pool handle) => some handle
    | _ => none
  | _ => none

/-- Structures with a name that were not declared in the global scope. -/
def isLocal (symbol : Symbol) : Bool :=
  (symbol.origin = .userDefined || symbol.origin = .toolInternal)
    && symbol.asStruct?.any (!·.atGlobalScope)

/-- A use of the local structure at `handle`. -/
def met (site : Site) (handle : SymbolHandle) (symbol : Symbol) : StructNamesM Unit := do
  let state ← Walk.own
  if site.blockDepth ≤ 1 then
    Walk.modifyOwn fun state => { state with kept := state.kept.insert symbol.id }
  else if !(state.kept.contains symbol.id || lead.toList.isPrefixOf symbol.rawName.toList) then
    let name := fresh symbol
    Walk.work (Workspace.record (.structRenamed symbol.rawName name))
    Walk.work (Workspace.onTable fun table => do return ((), ← table.rename handle name))
    Walk.modifyOwn fun state => { state with renamed := state.renamed + 1 }

def visit (moment : Moment) (site : Site) (id : NodeId) : StructNamesM Bool := do
  if moment = .leaf then
    if let some handle := structOf? (← Walk.work (Workspace.node id)) then
      let symbol ← Walk.work (Workspace.inspect fun _ table => table.pool.read handle)
      if isLocal symbol then met site handle symbol
  return true

def visitor : Visitor State := { visit }

end StructNames

/-- Renames the local structures in reach of the root. -/
def Workspace.renameStructs : WorkM Unit := do
  let state ← Workspace.walk StructNames.visitor {}
  Workspace.record (.renamedCount state.renamed)

end ShaderTree
