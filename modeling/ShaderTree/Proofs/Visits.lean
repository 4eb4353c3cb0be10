import ShaderTree.Proofs.Arena
import ShaderTree.Proofs.Outcome

/-! The visits that a walk makes, as a visitor records them that does nothing else. `Runs` says what a
walk does between visits, without running it: with faults, for every visitor and every tree. -/
namespace ShaderTree

namespace Walk

/-- A visit that a walk made: what the visitor found, what it answered, and what it left. -/
structure Visit (σ : Type) where
  moment : Moment
  site : Site
  id : NodeId
  before : WalkState σ
  answer : Except Fault Bool
  after : WalkState σ

/-- What the visit put into the innermost open block. -/
def Visit.inserted (visit : Visit σ) : List NodeId :=
  visit.after.rebuilt.toList.drop visit.before.rebuilt.size

def Visit.Inserts (visit : Visit σ) : Prop := visit.before.rebuilt.toList <+: visit.after.rebuilt.toList

theorem Visit.Inserts.rebuilt_eq {visit : Visit σ} (inserts : visit.Inserts) :
    visit.after.rebuilt.toList = visit.before.rebuilt.toList ++ visit.inserted := by
  have split := List.prefix_iff_eq_append.mp inserts
  rw [Array.length_toList] at split
  exact split.symm

structure Visit.Adds (visit : Visit σ) : Prop where
  appends : visit.before.space.tree.nodes.Extends visit.after.space.tree.nodes
  inserts : visit.Inserts

end Walk

def WalkState.plain (state : WalkState (σ × List (Walk.Visit σ))) : WalkState σ :=
  { space := state.space, rebuilt := state.rebuilt, own := state.own.1 }

def Visitor.recording (visitor : Visitor σ) : Visitor (σ × List (Walk.Visit σ)) where
  visits := visitor.visits
  growth := visitor.growth
  visit moment site id := ExceptT.mk fun state =>
    let (answer, after) := visitor.visit moment site id state.plain
    (answer,
      { space := after.space
        rebuilt := after.rebuilt
        own := (after.own, state.own.2 ++ [⟨moment, site, id, state.plain, answer, after⟩]) })

/-- The visits that a walk of the tree makes, up to the fault that ends it if one does. -/
def Workspace.itinerary (space : Workspace) (visitor : Visitor σ) (own : σ) : List (Walk.Visit σ) :=
  let depth := space.tree.nodes.size + 1 + visitor.growth
  (Walk.node visitor.recording depth {} space.tree.root { space, own := (own, []) }).2.own.2

namespace Walk

/-- What a part of a walk does: the visits it makes between two states, and what comes of it. -/
abbrev Effect (σ α : Type) := WalkState σ → List (Visit σ) → Except Fault α → WalkState σ → Prop

section
variable (visitor : Visitor σ)

/-- A visit that is made if it is wanted. A node that is gone or has become a leaf is not visited. -/
inductive Asks (wanted : Bool) (moment : Moment) (site : Site) (id : NodeId) : Effect σ Bool where
  | skip {state : WalkState σ} (unwanted : wanted = false) : Asks wanted moment site id state [] (.ok true) state
  | visit {before after : WalkState σ} {answer : Except Fault Bool} (wants : wanted = true)
      (visited : visitor.visit moment site id before = (answer, after)) :
      Asks wanted moment site id before [⟨moment, site, id, before, answer, after⟩] answer after
  | refuse {state : WalkState σ} {fault : Fault} (wants : wanted = true)
      (gone : ∀ node, state.space.tree.nodes.get? id = some node → node.isLeaf = true) :
      Asks wanted moment site id state [] (.error fault) state

/-- The children of the node at `owner` in turn, with the visit between before each but the first of
them. Those left when that visit stops the walk are handed back. -/
inductive Row {ι : Type} (child : ι → Effect σ Unit) (site : Site) (owner : NodeId) :
    (first : Bool) → List ι → Effect σ (List ι) where
  | done {first : Bool} {state : WalkState σ} : Row child site owner first [] state [] (.ok []) state
  | stop {first : Bool} {item : ι} {rest : List ι} {before after : WalkState σ} {gap : List (Visit σ)}
      (asked : Asks visitor (!first && visitor.visits.between) .between site owner before gap (.ok false) after) :
      Row child site owner first (item :: rest) before gap (.ok (item :: rest)) after
  | refuse {first : Bool} {item : ι} {rest : List ι} {before after : WalkState σ} {gap : List (Visit σ)}
      {fault : Fault}
      (asked : Asks visitor (!first && visitor.visits.between) .between site owner before gap (.error fault) after) :
      Row child site owner first (item :: rest) before gap (.error fault) after
  | fault {first : Bool} {item : ι} {rest : List ι} {before between after : WalkState σ}
      {gap visits : List (Visit σ)} {fault : Fault}
      (asked : Asks visitor (!first && visitor.visits.between) .between site owner before gap (.ok true) between)
      (walked : child item between visits (.error fault) after) :
      Row child site owner first (item :: rest) before (gap ++ visits) (.error fault) after
  | next {first : Bool} {item : ι} {rest : List ι} {before between further after : WalkState σ}
      {gap visits others : List (Visit σ)} {result : Except Fault (List ι)}
      (asked : Asks visitor (!first && visitor.visits.between) .between site owner before gap (.ok true) between)
      (walked : child item between visits (.ok ()) further)
      (row : Row child site owner false rest further others result after) :
      Row child site owner first (item :: rest) before (gap ++ (visits ++ others)) result after

inductive Emits (walk : Effect σ Unit) (id : NodeId) : Effect σ Unit where
  | done {before after : WalkState σ} {visits : List (Visit σ)} (walked : walk before visits (.ok ()) after) :
      Emits walk id before visits (.ok ()) { after with rebuilt := after.rebuilt.push id }
  | fault {before after : WalkState σ} {visits : List (Visit σ)} {fault : Fault}
      (walked : walk before visits (.error fault) after) : Emits walk id before visits (.error fault) after

/-- The end of the walk of a block, which is rebuilt if it has more statements then. -/
inductive Closes (id : NodeId) (statements : List NodeId) (outer : Array NodeId) (inner : WalkState σ) :
    Except Fault (List NodeId) → Except Fault (List NodeId) → WalkState σ → Prop where
  | fault {fault : Fault} : Closes id statements outer inner (.error fault) (.error fault) inner
  | kept {left : List NodeId} (few : inner.rebuilt.size + left.length ≤ statements.length) :
      Closes id statements outer inner (.ok left) (.ok left) { inner with rebuilt := outer }
  | rebuilt {left : List NodeId} {tree : Tree} (more : statements.length < inner.rebuilt.size + left.length)
      (written : inner.space.tree.write id (.block (inner.rebuilt.toList ++ left)) = .ok tree) :
      Closes id statements outer inner (.ok left) (.ok left)
        { inner with space := { inner.space with tree }, rebuilt := outer }
  | lost {left : List NodeId} {fault : Fault} (gone : inner.space.tree.nodes.get? id = none) :
      Closes id statements outer inner (.ok left) (.error fault) { inner with rebuilt := outer }

/-- The inside of the node at `id`, with `child` for the walks of its children. -/
inductive Inner (child : Site → NodeId → Effect σ Unit) (site : Site) (id : NodeId) : Effect σ (List NodeId) where
  | missing {state : WalkState σ} {fault : Fault} (gone : state.space.tree.nodes.get? id = none) :
      Inner child site id state [] (.error fault) state
  | plain {node : Node} {before after : WalkState σ} {visits : List (Visit σ)} {result : Except Fault (List NodeId)}
      (found : before.space.tree.nodes.get? id = some node) (plain : node.isBlock = false)
      (row : Row visitor (child (site.enter id node)) (site.enter id node) id true node.children before visits
        result after) : Inner child site id before visits result after
  | block {statements : List NodeId} {before inner after : WalkState σ} {visits : List (Visit σ)}
      {left result : Except Fault (List NodeId)}
      (found : before.space.tree.nodes.get? id = some (.block statements))
      (row : Row visitor (fun statement => Emits (child (site.enter id (.block statements)) statement) statement)
        (site.enter id (.block statements)) id true statements { before with rebuilt := #[] } visits left inner)
      (closes : Closes id statements before.rebuilt inner left result after) :
      Inner child site id before visits result after

inductive Inside (child : Site → NodeId → Effect σ Unit) (site : Site) (id : NodeId) : Effect σ Unit where
  | fault {before after : WalkState σ} {visits : List (Visit σ)} {fault : Fault}
      (within : Inner visitor child site id before visits (.error fault) after) :
      Inside child site id before visits (.error fault) after
  | closed {before closed after : WalkState σ} {visits final : List (Visit σ)} {left : List NodeId}
      {answer : Except Fault Bool} (within : Inner visitor child site id before visits (.ok left) closed)
      (last : Asks visitor (left.isEmpty && visitor.visits.after) .after site id closed final answer after) :
      Inside child site id before (visits ++ final) (answer.map fun _ => ()) after

inductive Step (child : Site → NodeId → Effect σ Unit) (site : Site) (id : NodeId) : Effect σ Unit where
  | missing {state : WalkState σ} {fault : Fault} (gone : state.space.tree.nodes.get? id = none) :
      Step child site id state [] (.error fault) state
  | leaf {node : Node} {before after : WalkState σ} {answer : Except Fault Bool}
      (found : before.space.tree.nodes.get? id = some node) (leaf : node.isLeaf = true)
      (visited : visitor.visit .leaf site id before = (answer, after)) :
      Step child site id before [⟨.leaf, site, id, before, answer, after⟩] (answer.map fun _ => ()) after
  | barred {node : Node} {before after : WalkState σ} {visits : List (Visit σ)} {answer : Except Fault Bool}
      (found : before.space.tree.nodes.get? id = some node) (inner : node.isLeaf = false)
      (asked : Asks visitor visitor.visits.before .before site id before visits answer after)
      (stops : answer ≠ .ok true) : Step child site id before visits (answer.map fun _ => ()) after
  | through {node : Node} {before opened after : WalkState σ} {first visits : List (Visit σ)}
      {result : Except Fault Unit} (found : before.space.tree.nodes.get? id = some node) (inner : node.isLeaf = false)
      (asked : Asks visitor visitor.visits.before .before site id before first (.ok true) opened)
      (inside : Inside visitor child site id opened visits result after) :
      Step child site id before (first ++ visits) result after

def Runs : (depth : Nat) → Site → NodeId → Effect σ Unit
  | 0, _, _ => fun before visits result after => visits = [] ∧ result = .error .endless ∧ after = before
  | depth + 1, site, id => Step visitor (Runs depth) site id

end

section
variable {visitor : Visitor σ} {wanted : Bool} {moment : Moment} {site : Site} {id : NodeId}
  {answer : Except Fault Bool} {before after : WalkState σ} {visits : List (Visit σ)}

namespace Asks

theorem visits_eq (asks : Asks visitor wanted moment site id before visits answer after) :
    ∀ visit ∈ visits, visit.moment = moment ∧ visit.site = site ∧ visit.id = id := by
  cases asks <;> simp

theorem rebuilt_eq (asks : Asks visitor wanted moment site id before visits answer after)
    (inserts : ∀ visit ∈ visits, visit.Inserts) :
    after.rebuilt.toList = before.rebuilt.toList ++ visits.flatMap Visit.inserted := by
  cases asks with
  | visit =>
    rw [List.flatMap_singleton]
    exact (inserts _ (List.mem_singleton_self _)).rebuilt_eq
  | _ => simp

end Asks

def Visit.MadeBy (visitor : Visitor σ) (visit : Visit σ) : Prop :=
  visitor.visit visit.moment visit.site visit.id visit.before = (visit.answer, visit.after)

theorem Asks.made (asks : Asks visitor wanted moment site id before visits answer after) :
    ∀ visit ∈ visits, visit.MadeBy visitor := by
  cases asks with
  | visit _ visited =>
    intro visit member
    obtain rfl := List.mem_singleton.mp member
    exact visited
  | _ => simp

theorem Row.made {ι : Type} {child : ι → Effect σ Unit} {owner : NodeId} {first : Bool} {items : List ι}
    {result : Except Fault (List ι)} (row : Row visitor child site owner first items before visits result after)
    (walks : ∀ item before visits result after, child item before visits result after →
      ∀ visit ∈ visits, visit.MadeBy visitor) : ∀ visit ∈ visits, visit.MadeBy visitor := by
  induction row with
  | done => simp
  | stop asked | refuse asked => exact asked.made
  | fault asked walked => exact List.forall_mem_append.mpr ⟨asked.made, walks _ _ _ _ _ walked⟩
  | next asked walked _ ih =>
    exact List.forall_mem_append.mpr ⟨asked.made, List.forall_mem_append.mpr ⟨walks _ _ _ _ _ walked, ih⟩⟩

theorem Emits.mono {first second : Effect σ Unit} {result : Except Fault Unit}
    (emits : Emits first id before visits result after)
    (weaker : ∀ result after, first before visits result after → second before visits result after) :
    Emits second id before visits result after := by
  cases emits with
  | done walked => exact .done (weaker _ _ walked)
  | fault walked => exact .fault (weaker _ _ walked)

theorem Emits.made {walk : Effect σ Unit} {result : Except Fault Unit}
    (emits : Emits walk id before visits result after)
    (walks : ∀ before visits result after, walk before visits result after →
      ∀ visit ∈ visits, visit.MadeBy visitor) :
    ∀ visit ∈ visits, visit.MadeBy visitor := by
  cases emits with
  | done walked | fault walked => exact walks _ _ _ _ walked

section
variable {child : Site → NodeId → Effect σ Unit}
  (walks : ∀ site id before visits result after, child site id before visits result after →
    ∀ visit ∈ visits, visit.MadeBy visitor)
include walks

theorem Inner.made {result : Except Fault (List NodeId)} (inner : Inner visitor child site id before visits result after) :
    ∀ visit ∈ visits, visit.MadeBy visitor := by
  cases inner with
  | missing => simp
  | plain _ _ row => exact row.made (walks _)
  | block _ row _ => exact row.made fun _ _ _ _ _ emits => emits.made (walks _ _)

theorem Step.made {result : Except Fault Unit} (step : Step visitor child site id before visits result after) :
    ∀ visit ∈ visits, visit.MadeBy visitor := by
  cases step with
  | missing => simp
  | leaf _ _ visited =>
    have asked : Asks visitor true .leaf site id before _ _ after := .visit rfl visited
    exact asked.made
  | barred _ _ asked => exact asked.made
  | through _ _ asked inside =>
    refine List.forall_mem_append.mpr ⟨asked.made, ?_⟩
    cases inside with
    | fault within => exact within.made walks
    | closed within last => exact List.forall_mem_append.mpr ⟨within.made walks, last.made⟩

end

theorem Runs.made {depth : Nat} {result : Except Fault Unit}
    (runs : Runs visitor depth site id before visits result after) :
    ∀ visit ∈ visits, visit.MadeBy visitor := by
  induction depth generalizing site id before visits result after with
  | zero => simp [runs.1]
  | succ depth ih => exact Step.made (fun _ _ _ _ _ _ => ih) runs

end
end Walk
end ShaderTree
