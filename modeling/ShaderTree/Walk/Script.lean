import ShaderTree.Walk.Basic

/-!
Scripted walks: a visitor that records every visit and applies edits scheduled for given nodes and
moments. It shows what a walk does, edits included, without a pass of its own.
-/
namespace ShaderTree

inductive Edit where
  /-- The visit answers that the walk of the node stops. -/
  | stop
  | insert (statement : NodeId)
  /-- Replaces a child of the node visited. -/
  | replace (child replacement : NodeId)
  | set (target : NodeId) (value : Node)
  | push (block statement : NodeId)
  /-- Moves a child that is an expression to a temporary declared before the statement. -/
  | hoist (value : NodeId)
  deriving DecidableEq

/-- An edit with the visits at which it is due: all those of `node` at `moment`, or only the one
that `nth` others came before. -/
structure Rule where
  node : NodeId
  moment : Moment
  nth : Option Nat := none
  edit : Edit
  deriving DecidableEq

def Rule.concerns (rule : Rule) (moment : Moment) (node : NodeId) : Bool :=
  rule.moment = moment && rule.node = node

inductive Event where
  /-- `node` is what stood at `id` when it was visited. -/
  | visited (moment : Moment) (node : Node) (id : NodeId) (site : Site)
  | replaced (done : Bool)
  deriving DecidableEq

/-- A script under way: each rule with the number of visits that it concerned so far. -/
structure Script where
  rules : List (Rule × Nat)
  events : Array Event := #[]

namespace Script

def start (rules : List Rule) : Script := { rules := rules.map (·, 0) }

def record (event : Event) : WalkM Script Unit :=
  Walk.modifyOwn fun script => { script with events := script.events.push event }

/-- The edits due at a visit, in the order of their rules. -/
def due (script : Script) (moment : Moment) (node : NodeId) : List Edit :=
  script.rules.filterMap fun (rule, met) =>
    if rule.concerns moment node && rule.nth.all (· = met) then some rule.edit else none

/-- Counts a visit. -/
def count (script : Script) (moment : Moment) (node : NodeId) : Script :=
  { script with
    rules := script.rules.map fun (rule, met) =>
      (rule, if rule.concerns moment node then met + 1 else met) }

/-- Declares a copy of `value` before the statement walked, and uses it in the place of `value`. -/
def hoist (site : Site) (node value : NodeId) : WalkM Script Unit := do
  let some ty ← Walk.work (Workspace.inspect fun tree _ => tree.ty? value) | return
  let temporary ← Walk.work (Workspace.createTemporary ty)
  let declaration ← Walk.work (Workspace.onTree (·.appendDeclaration · temporary value))
  Walk.insertBefore site declaration
  let copy ← Walk.work (Workspace.onTree (·.appendUse · temporary))
  discard (Walk.work (Workspace.replaceChild node value copy))

def apply (site : Site) (node : NodeId) : Edit → WalkM Script Unit
  | .stop => return
  | .insert statement => Walk.insertBefore site statement
  | .replace child replacement => do
    record (.replaced (← Walk.work (Workspace.replaceChild node child replacement)))
  | .set target value => Walk.work (Workspace.setNode target value)
  | .push block statement => Walk.work (Workspace.pushStatement block statement)
  | .hoist value => hoist site node value

def visit (moment : Moment) (site : Site) (id : NodeId) : WalkM Script Bool := do
  record (.visited moment (← Walk.work (Workspace.node id)) id site)
  let edits := (← Walk.own).due moment id
  Walk.modifyOwn (·.count moment id)
  edits.forM (apply site id)
  return !edits.contains .stop

/-- Rules can send a walk around in circles for a while before they let it out, so that paths grow
up to the number of handles. -/
def visitor (visits : Visits) : Visitor Script := { visits, visit, growth := UInt32.size }

end Script

/-- Walks the tree by `rules` and yields what happened. -/
def Workspace.walkScript (visits : Visits) (rules : List Rule) : WorkM (Array Event) := do
  return (← Workspace.walk (Script.visitor visits) (.start rules)).events

/-- Walks the tree without doing anything. -/
def Workspace.walkIdle (visits : Visits) : WorkM Unit :=
  Workspace.walk { visits, visit := fun _ _ _ => return true } ()

end ShaderTree
