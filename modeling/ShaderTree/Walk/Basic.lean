import ShaderTree.Workspace

/-!
Depth-first walks over a tree that may change it on the way. A visitor is called at every node and
may edit the workspace, insert statements before the one being walked, and stop the walk of a node.

The children of a node are read after the visit before them, so children put there by that visit are
the ones walked. A block is rebuilt at the end of its walk if statements were inserted into it.
-/
namespace ShaderTree

/-- When a node is visited. Leaves have a visit of their own. -/
inductive Moment where
  | leaf
  /-- Before the children. -/
  | before
  /-- Between two children. -/
  | between
  /-- After the children. -/
  | after
  deriving DecidableEq, Repr

/-- The visits that a visitor wants besides those of leaves. -/
structure Visits where
  before : Bool := true
  between : Bool := false
  after : Bool := false
  deriving DecidableEq, Repr

/-- Where a walk stands. -/
structure Site where
  /-- The nodes around the one visited, the innermost first. -/
  ancestors : List NodeId := []
  /-- How many of them are blocks. -/
  blockDepth : Nat := 0
  /-- Whether one of them is a function definition. -/
  inFunction : Bool := false
  deriving DecidableEq, Repr

namespace Site

def parent? (site : Site) : Option NodeId := site.ancestors.head?

def inGlobalScope (site : Site) : Bool := !site.inFunction

/-- The site of the children of `node`, which is found at `id`. -/
def enter (site : Site) (id : NodeId) (node : Node) : Site :=
  { ancestors := id :: site.ancestors
    blockDepth := if node.isBlock then site.blockDepth + 1 else site.blockDepth
    inFunction := site.inFunction || node.isDefinition }

end Site

/-- State of a walk whose visitor keeps a `σ`. -/
structure WalkState (σ : Type) where
  space : Workspace
  /-- The statements of the innermost open block as they will stand after the walk, up to the one
  being walked. -/
  rebuilt : Array NodeId := #[]
  own : σ

abbrev WalkM (σ : Type) := ExceptT Fault (StateM (WalkState σ))

/-- Called at every node. The answer tells whether the walk of the node goes on: when it does not,
`before` skips the children and the visit after them, and `between` the children left and the visit
after them. Other answers are ignored. -/
structure Visitor (σ : Type) where
  visits : Visits := {}
  visit : Moment → Site → NodeId → WalkM σ Bool
  /-- How many nodes longer than the arena has nodes a path may become by what the visitor does. -/
  growth : Nat := 0

namespace Walk

/-- Work on the workspace as a part of a walk. -/
def work (action : WorkM α) : WalkM σ α :=
  ExceptT.mk fun state =>
    let (result, space) := action state.space
    (result, { state with space })

def own : WalkM σ σ := do return (← get).own

def modifyOwn (f : σ → σ) : WalkM σ Unit :=
  modify fun state => { state with own := f state.own }

/-- Puts `statement` into the innermost open block. -/
def emit (statement : NodeId) : WalkM σ Unit :=
  modify fun state => { state with rebuilt := state.rebuilt.push statement }

/-- Inserts `statement` into the innermost block around `site`, right before the statement walked.
-/
def insertBefore (site : Site) (statement : NodeId) : WalkM σ Unit :=
  if site.blockDepth = 0 then throw .noEnclosingBlock else emit statement

/-- A visit of a node with children, unless it was turned into a leaf on the way. -/
def visitInner (visitor : Visitor σ) (moment : Moment) (site : Site) (id : NodeId) :
    WalkM σ Bool := do
  if (← work (Workspace.node id)).isLeaf then throw .leafRevisited
  visitor.visit moment site id

/-- The children after the first, each with the visit between. Those left when that visit stops the
walk are handed back. -/
def siblings (between : WalkM σ Bool) (child : NodeId → WalkM σ Unit) :
    List NodeId → WalkM σ (List NodeId)
  | [] => return []
  | id :: rest => do
    if ← between then
      child id
      siblings between child rest
    else return id :: rest

/-- All children in order. Those left when the walk was stopped are handed back. -/
def children (between : WalkM σ Bool) (child : NodeId → WalkM σ Unit) :
    List NodeId → WalkM σ (List NodeId)
  | [] => return []
  | id :: rest => do
    child id
    siblings between child rest

/-- Walks the statements of the block at `id`, and rebuilds it if there are more than those walked.
-/
def block (between : WalkM σ Bool) (child : NodeId → WalkM σ Unit) (id : NodeId)
    (statements : List NodeId) : WalkM σ (List NodeId) := do
  let outer := (← get).rebuilt
  modify fun state => { state with rebuilt := #[] }
  let left ← children between (fun statement => do child statement; emit statement) statements
  let rebuilt := (← get).rebuilt
  modify fun state => { state with rebuilt := outer }
  if rebuilt.size + left.length > statements.length then
    work (Workspace.setNode id (.block (rebuilt.toList ++ left)))
  return left

/-- Walks the inside of the node at `id`, with `walk` for its children. -/
def inside (visitor : Visitor σ) (walk : Site → NodeId → WalkM σ Unit) (site : Site)
    (id : NodeId) : WalkM σ Unit := do
  let node ← work (Workspace.node id)
  let within := site.enter id node
  let between :=
    if visitor.visits.between then visitInner visitor .between within id else pure true
  let left ← match node with
    | .block statements => block between (walk within) id statements
    | _ => children between (walk within) node.children
  if left.isEmpty && visitor.visits.after then
    discard (visitInner visitor .after site id)

/-- Walks the node at `id`, at most `depth` levels deep. -/
def node (visitor : Visitor σ) : (depth : Nat) → Site → NodeId → WalkM σ Unit
  | 0, _, _ => throw .endless
  | depth + 1, site, id => do
    if (← work (Workspace.node id)).isLeaf then
      discard (visitor.visit .leaf site id)
    else
      let goesOn ← if visitor.visits.before then visitor.visit .before site id else pure true
      if goesOn then inside visitor (node visitor depth) site id

end Walk

/-- Walks the tree from its root, with `own` as what the visitor keeps at the start. No path of a
tree without cycles is longer than its arena, and one more step finds a handle outside. -/
def Workspace.walk (visitor : Visitor σ) (own : σ) : WorkM σ :=
  ExceptT.mk fun space =>
    let depth := space.tree.nodes.size + 1 + visitor.growth
    let (result, state) := Walk.node visitor depth {} space.tree.root { space, own }
    match result with
    | .ok () => (.ok state.own, state.space)
    | .error fault => (.error fault, state.space)

end ShaderTree
