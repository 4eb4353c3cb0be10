import ShaderTree.Tree.Basic

/-!
Side effects of expressions: assignments, increments and decrements, and calls of functions that are
not known to be pure. Statements count as having them.
-/
namespace ShaderTree

/-- Calls of something else than a function count as effects. -/
def SymbolRef.mayHaveEffects (symbol : SymbolRef) (pool : Pool) : Except Fault Bool := do
  match (← symbol.resolve pool).asFunction? with
  | some function => return !function.isPure
  | none => return true

/-- Effects of the node itself, leaving its children aside. -/
def Node.hasOwnEffects (node : Node) (pool : Pool) : Except Fault Bool :=
  match node with
  | .binary op _ _ _ => .ok op.isAssignment
  | .unary op _ _ => .ok op.isMutating
  | .aggregate (.call function) _ _ => function.mayHaveEffects pool
  | .symbol _ _ | .constant _ _ | .ternary _ _ _ _ | .aggregate .construct _ _ => .ok false
  | _ => .ok true

namespace Tree

/-- Looks at most `depth` levels deep. -/
def effectsWithin (tree : Tree) (pool : Pool) : (depth : Nat) → NodeId → Except Fault Bool
  | 0, _ => .error .endless
  | depth + 1, id => do
    let node ← tree.read id
    if ← node.hasOwnEffects pool then return true
    node.children.anyM (effectsWithin tree pool depth)

/-- Whether evaluating the node at `id` may have side effects. No path of a tree without cycles is
longer than its arena, and one more step finds a handle outside. -/
def hasSideEffects (tree : Tree) (pool : Pool) (id : NodeId) : Except Fault Bool :=
  tree.effectsWithin pool (tree.nodes.size + 1) id

end Tree

end ShaderTree
