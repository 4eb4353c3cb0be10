import ShaderTree.Tree.Node
import ShaderTree.BuiltIn

/-!
The tree of a program: an arena of nodes and the root block. Passes append nodes and redirect
handles; a node that no handle leads to any more is left behind.
-/
namespace ShaderTree

structure Tree where
  nodes : Arena .node Node
  root : NodeId
  deriving DecidableEq

namespace Tree

/-- A tree with an empty root block. -/
def new : Tree :=
  let (root, nodes) := Arena.empty.append (.block [])
  { nodes, root }

def append (tree : Tree) (node : Node) : NodeId × Tree :=
  let (id, nodes) := tree.nodes.append node
  (id, { tree with nodes })

def read (tree : Tree) (id : NodeId) : Except Fault Node := tree.nodes.read id

def write (tree : Tree) (id : NodeId) (node : Node) : Except Fault Tree := do
  return { tree with nodes := ← tree.nodes.write id node }

/-- The type of an expression. -/
def ty? (tree : Tree) (id : NodeId) : Except Fault (Option Ty) := do
  return (← tree.read id).ty?

/-- The statements of a block, `none` for other nodes. -/
def statements? (tree : Tree) (id : NodeId) : Except Fault (Option (List NodeId)) := do
  match ← tree.read id with
  | .block statements => return some statements
  | _ => return none

/-- Puts `statement` at the end of `block`. -/
def pushStatement (tree : Tree) (block statement : NodeId) : Except Fault Tree := do
  match ← tree.read block with
  | .block statements => tree.write block (.block (statements ++ [statement]))
  | _ => throw .notBlock

/-- Replaces a child of the node at `id`, and tells whether there was one to replace. -/
def replaceChild (tree : Tree) (id child replacement : NodeId) : Except Fault (Bool × Tree) := do
  match (← tree.read id).replaceChild? child replacement with
  | some node => return (true, ← tree.write id node)
  | none => return (false, tree)

end Tree

end ShaderTree
