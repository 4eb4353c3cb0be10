import ShaderTree.Proofs.Insertions
import ShaderTree.Proofs.Observers

/-! The order in which a walk calls a visitor that edits nothing. `Term.depthFirst` gives it by
recursion over the piece that the root leads to; the visitor may answer as it likes, by all that it
was told before. -/
namespace ShaderTree

/-- What a visitor is told when it is called, and the statements of the innermost open block that
were walked before. -/
structure Call where
  moment : Moment
  site : Site
  id : NodeId
  walked : List NodeId
  deriving DecidableEq, Repr

structure Journal (σ : Type) where
  space : Workspace
  own : σ
  calls : List Call := []

abbrev JournalM (σ : Type) := ExceptT Fault (StateM (Journal σ))

namespace Journal

variable (visitor : Visitor σ)

def call (entry : Call) : JournalM σ Bool :=
  ExceptT.mk fun journal =>
    let (answer, state) := visitor.visit entry.moment entry.site entry.id
      { space := journal.space, rebuilt := entry.walked.toArray, own := journal.own }
    (answer, { space := state.space, own := state.own, calls := journal.calls ++ [entry] })

def ask (wanted : Bool) (entry : Call) : JournalM σ Bool :=
  if wanted then call visitor entry else pure true

end Journal

mutual

/-- The calls for a piece that is entered at `site`: one for a leaf; for another node one before its
parts and one after them, if they are wanted. Where the one before is answered with no, there are
neither parts nor a call after them, and where the parts were broken off there is no call after them.
-/
def Term.depthFirst (visitor : Visitor σ) (site : Site) (walked : List NodeId) : Term → JournalM σ Unit
  | .mk id node parts => do
    if node.isLeaf then
      discard (Journal.call visitor ⟨.leaf, site, id, walked⟩)
    else if ← Journal.ask visitor visitor.visits.before ⟨.before, site, id, walked⟩ then
      let inner := if node.isBlock then [] else walked
      if ← Term.depthFirstParts visitor (site.enter id node) id node.isBlock true inner parts then
        discard (Journal.ask visitor visitor.visits.after ⟨.after, site, id, walked⟩)

/-- The calls for the parts of the node at `owner` in turn, with one between any two of them if it is
wanted. Where that one is answered with no, the parts left are broken off. -/
def Term.depthFirstParts (visitor : Visitor σ) (place : Site) (owner : NodeId) (inBlock first : Bool)
    (walked : List NodeId) : List Term → JournalM σ Bool
  | [] => return true
  | part :: rest => do
    if ← Journal.ask visitor (!first && visitor.visits.between) ⟨.between, place, owner, walked⟩ then
      part.depthFirst visitor place walked
      Term.depthFirstParts visitor place owner inBlock false
        (if inBlock then walked ++ [part.id] else walked) rest
    else return false

end

namespace Walk

def Visit.call (visit : Visit σ) : Call :=
  { moment := visit.moment, site := visit.site, id := visit.id, walked := visit.before.rebuilt.toList }

def Plays (program : JournalM σ α) (before : WalkState σ) (visits : List (Visit σ)) (result : Except Fault α)
    (after : WalkState σ) : Prop :=
  ∀ past, program.run.run { space := before.space, own := before.own, calls := past } =
    (result, { space := after.space, own := after.own, calls := past ++ visits.map Visit.call })

variable {visitor : Visitor σ} {tree : Tree} {place site : Site} {id owner : NodeId} {parts : List Term}
  {before between after : WalkState σ} {visits others : List (Visit σ)}

namespace Plays

variable {program : JournalM σ α} {next : α → JournalM σ β}

theorem pure {value : α} : Plays (Pure.pure value : JournalM σ α) before [] (.ok value) before := by
  intro past
  simp only [List.map_nil, List.append_nil]
  rfl

theorem bind {value : α} {result : Except Fault β} (first : Plays program before visits (.ok value) between)
    (rest : Plays (next value) between others result after) :
    Plays (program >>= next) before (visits ++ others) result after := by
  intro past
  simp only [ExceptT.run_bind, StateT.run_bind, first past]
  rw [List.map_append, ← List.append_assoc]
  exact rest (past ++ visits.map Visit.call)

theorem bind_fault {fault : Fault} (first : Plays program before visits (.error fault) after) :
    Plays (program >>= next) before visits (.error fault) after := by
  intro past
  simp only [ExceptT.run_bind, StateT.run_bind, first past]
  rfl

theorem discard {result : Except Fault α} (plays : Plays program before visits result after) :
    Plays (Functor.discard program) before visits (result.map fun _ => ()) after := by
  cases result with
  | error fault => exact bind_fault plays
  | ok value =>
    rw [← List.append_nil visits]
    exact bind plays pure

/-- A visitor is told of the open block what has been walked of it. -/
theorem call {moment : Moment} {answer : Except Fault Bool}
    (visited : visitor.visit moment site id before = (answer, after)) :
    Plays (Journal.call visitor ⟨moment, site, id, before.rebuilt.toList⟩) before
      [⟨moment, site, id, before, answer, after⟩] answer after := by
  intro past
  simp only [Journal.call, ExceptT.run_mk, StateT.run, Array.toArray_toList]
  rw [visited]
  rfl

end Plays

theorem Asks.plays {wanted : Bool} {moment : Moment} {answer : Except Fault Bool} {node : Node}
    (asks : Asks visitor wanted moment site id before visits answer after)
    (found : before.space.tree.nodes.get? id = some node) (inner : node.isLeaf = false) :
    Plays (Journal.ask visitor wanted ⟨moment, site, id, before.rebuilt.toList⟩) before visits answer after := by
  cases asks with
  | skip unwanted =>
    rw [Journal.ask, unwanted]
    exact .pure
  | visit wants visited =>
    rw [Journal.ask, wants]
    exact .call visited
  | refuse _ gone =>
    rw [gone node found] at inner
    cases inner

/-- What the walk of a child does besides visits: it leaves the tree as it was, and puts the child
into the open block if that is the node it is a child of. -/
structure Leaves (inBlock : Bool) (id : NodeId) (before : WalkState σ) (result : Except Fault Unit)
    (after : WalkState σ) : Prop where
  tree : after.space.tree = before.space.tree
  rebuilt : result = .ok () → after.rebuilt.toList = if inBlock then before.rebuilt.toList ++ [id] else before.rebuilt.toList

/-- The walks of the children of a node make the calls for its parts, if each walk makes those for
its part. -/
theorem Row.plays {walks : NodeId → Effect σ Unit} {inBlock first : Bool} {result : Except Fault (List NodeId)}
    {node : Node} (row : Row visitor walks place owner first (parts.map Term.id) before visits result after)
    (observes : ∀ visit ∈ visits, visit.Observes)
    (found : before.space.tree.nodes.get? owner = some node) (inner : node.isLeaf = false)
    (stand : ∀ part ∈ parts, part.Of before.space.tree)
    (each : ∀ part ∈ parts, ∀ before visits result after, walks part.id before visits result after →
      (∀ visit ∈ visits, visit.Observes) → part.Of before.space.tree →
      Leaves inBlock part.id before result after ∧
        Plays (part.depthFirst visitor place before.rebuilt.toList) before visits result after) :
    Plays (Term.depthFirstParts visitor place owner inBlock first before.rebuilt.toList parts) before visits
      (result.map List.isEmpty) after := by
  induction parts generalizing first before visits with
  | nil =>
    cases row with
    | done => exact .pure
  | cons part rest ih =>
    rw [Term.depthFirstParts]
    cases row with
    | stop asked =>
      rw [← List.append_nil visits]
      exact (asked.plays found inner).bind .pure
    | refuse asked => exact (asked.plays found inner).bind_fault
    | fault asked walked =>
      obtain ⟨observesGap, observes⟩ := List.forall_mem_append.mp observes
      have still := asked.still observesGap
      have stands := stand part List.mem_cons_self
      rw [← still.tree] at stands
      obtain ⟨_, plays⟩ := each part List.mem_cons_self _ _ _ _ walked observes stands
      rw [still.rebuilt _ rfl] at plays
      exact (asked.plays found inner).bind plays.bind_fault
    | next asked walked row =>
      obtain ⟨observesGap, observes⟩ := List.forall_mem_append.mp observes
      obtain ⟨observes, observesLater⟩ := List.forall_mem_append.mp observes
      have still := asked.still observesGap
      have stands := stand part List.mem_cons_self
      rw [← still.tree] at stands
      obtain ⟨left, plays⟩ := each part List.mem_cons_self _ _ _ _ walked observes stands
      have same := left.tree.trans still.tree
      have later := ih row observesLater (same ▸ found)
        (fun other member => same ▸ stand other (List.mem_cons_of_mem _ member))
        (fun other member => each other (List.mem_cons_of_mem _ member))
      rw [left.rebuilt rfl, still.rebuilt _ rfl] at later
      rw [still.rebuilt _ rfl] at plays
      exact (asked.plays found inner).bind (plays.bind later)

section
variable {child : Site → NodeId → Effect σ Unit} {node : Node}
  (still : ∀ site id before visits result after, child site id before visits result after →
    (∀ visit ∈ visits, visit.Observes) → Still before result after)
  (each : ∀ part ∈ parts, ∀ before visits result after, child (site.enter id node) part.id before visits result after →
    (∀ visit ∈ visits, visit.Observes) → part.Of before.space.tree →
    Plays (part.depthFirst visitor (site.enter id node) before.rebuilt.toList) before visits result after)
  (stands : (Term.mk id node parts).Of before.space.tree) (inner : node.isLeaf = false)
include still each stands inner

theorem Inner.plays {result : Except Fault (List NodeId)} (within : Inner visitor child site id before visits result after)
    (observes : ∀ visit ∈ visits, visit.Observes) :
    Plays (Term.depthFirstParts visitor (site.enter id node) id node.isBlock true
      (if node.isBlock then [] else before.rebuilt.toList) parts) before visits (result.map List.isEmpty) after := by
  have found : before.space.tree.nodes.get? id = some node := stands.found
  have children : node.children = parts.map Term.id := stands.children
  have standing : ∀ part ∈ parts, part.Of before.space.tree := fun part => stands.parts
  cases within with
  | missing gone => cases found.symm.trans gone
  | plain again plain row =>
    obtain rfl := Option.some.inj (found.symm.trans again)
    rw [children] at row
    rw [plain]
    refine row.plays observes found inner standing fun part member before visits result after walked observes stands => ?_
    have left := still _ _ _ _ _ _ walked observes
    exact ⟨⟨left.tree, fun done => by rw [left.rebuilt _ done]; rfl⟩, each part member _ _ _ _ walked observes stands⟩
  | @block statements _ closed _ _ left _ again row closes =>
    obtain rfl := Option.some.inj (found.symm.trans again)
    obtain ⟨tree, whole⟩ := row.still_block still observes
    obtain ⟨space, own, rfl, _⟩ := closes.unwritten (fun rest done => by simpa using Nat.le_of_eq (whole rest done))
      (by simp [tree, found])
    obtain rfl : statements = parts.map Term.id := children
    have plays : Plays (Term.depthFirstParts visitor (site.enter id (.block (parts.map Term.id))) id true true [] parts)
        { before with rebuilt := #[] } visits (result.map List.isEmpty) closed := by
      refine row.plays observes found inner standing fun part member before visits result after emits observes stands => ?_
      obtain ⟨same, pushed⟩ := emits.still fun _ _ walked => still _ _ _ _ _ _ walked observes
      refine ⟨⟨same, pushed⟩, ?_⟩
      -- what is pushed after the walk of a statement is no call
      cases emits with
      | done walked | fault walked =>
        have plays := each part member _ _ _ _ walked observes stands
        exact plays
    intro past
    rw [space, own]
    exact plays past

theorem Inside.plays {result : Except Fault Unit} (inside : Inside visitor child site id before visits result after)
    (observes : ∀ visit ∈ visits, visit.Observes) :
    Plays (do
      if ← Term.depthFirstParts visitor (site.enter id node) id node.isBlock true
          (if node.isBlock then [] else before.rebuilt.toList) parts then
        discard (Journal.ask visitor visitor.visits.after ⟨.after, site, id, before.rebuilt.toList⟩))
      before visits result after := by
  cases inside with
  | fault within => exact (within.plays still each stands inner observes).bind_fault
  | @closed _ closed _ _ _ left answer within last =>
    obtain ⟨observes, observesLast⟩ := List.forall_mem_append.mp observes
    have kept := within.still still observes
    have found : closed.space.tree.nodes.get? id = some node := kept.tree ▸ stands.found
    refine (within.plays still each stands inner observes).bind ?_
    cases whole : left.isEmpty with
    | true =>
      rw [whole, Bool.true_and] at last
      rw [← kept.rebuilt _ rfl]
      exact (last.plays found inner).discard
    | false =>
      rw [whole, Bool.false_and] at last
      cases last with
      | skip => exact .pure
      | visit wants | refuse wants => cases wants

end

/-- The walk of a piece makes the calls of a depth-first tour of it. The induction is on the piece. -/
theorem Runs.plays {depth : Nat} {term : Term} {result : Except Fault Unit}
    (runs : Runs visitor depth site term.id before visits result after) (deep : term.height ≤ depth)
    (observes : ∀ visit ∈ visits, visit.Observes) (stands : term.Of before.space.tree) :
    Plays (term.depthFirst visitor site before.rebuilt.toList) before visits result after := by
  induction term using Term.induct generalizing depth site before visits result after with
  | step id node parts ih =>
    obtain _ | depth := depth
    · have positive := Term.height_pos (.mk id node parts)
      omega
    have found : before.space.tree.nodes.get? id = some node := stands.found
    rw [Term.depthFirst]
    cases (runs : Step visitor (Runs visitor depth) site id before visits result after) with
    | missing gone => cases found.symm.trans gone
    | leaf again leaf visited =>
      obtain rfl := Option.some.inj (found.symm.trans again)
      rw [if_pos leaf]
      exact (Plays.call visited).discard
    | @barred _ _ _ _ answer again inner asked stops =>
      obtain rfl := Option.some.inj (found.symm.trans again)
      rw [if_neg (by simp [inner])]
      have plays := asked.plays found inner
      cases answer with
      | error fault => exact plays.bind_fault
      | ok goesOn =>
        obtain rfl : goesOn = false := by simpa using stops
        rw [← List.append_nil visits]
        exact plays.bind .pure
    | through again inner asked inside =>
      obtain rfl := Option.some.inj (found.symm.trans again)
      obtain ⟨observesFirst, observes⟩ := List.forall_mem_append.mp observes
      have opened := asked.still observesFirst
      rw [if_neg (by simp [inner])]
      apply (asked.plays found inner).bind
      rw [← opened.rebuilt _ rfl]
      refine inside.plays (fun _ _ _ _ _ _ runs => runs.still) ?_ (opened.tree ▸ stands) inner observes
      intro part member before visits result after runs observes stands
      have lower : part.height < (Term.mk id node parts).height := Term.height_lt member
      exact ih part member runs (by omega) observes stands

theorem Visit.Observes.adds {visit : Visit σ} (observes : visit.Observes) : visit.Adds := by
  refine ⟨?_, ?_⟩
  · rw [observes.tree]
    exact .refl _
  · exact ⟨[], by rw [List.append_nil, observes.rebuilt]⟩

/-- Every walk of a node is a run. -/
theorem exists_runs (visitor : Visitor σ) (depth : Nat) (site : Site) (id : NodeId) (before : WalkState σ) :
    ∃ visits, (∀ visit ∈ visits, visit.MadeBy visitor) ∧
      Runs visitor depth site id before visits ((node visitor depth site id).run.run before).1
        ((node visitor depth site id).run.run before).2 := by
  let recorded : WalkState (σ × List (Visit σ)) :=
    { space := before.space, rebuilt := before.rebuilt, own := (before.own, []) }
  obtain ⟨visits, _, same, runs⟩ : Records recorded _ _ (Runs visitor depth site id recorded.plain) :=
    node_records depth site id
  have outcome : (node visitor depth site id).run.run before = _ := same
  rw [outcome]
  exact ⟨visits, runs.made, runs⟩

end Walk

namespace Workspace

variable {space : Workspace} {visitor : Visitor σ}

/-- A walk calls a visitor that edits nothing in depth-first order: the calls, the site of each and the
statements walked before it in the innermost open block are those of `Term.depthFirst`, which passes a
place on from a part to the next as it was before that part. Only a visit can make the walk fail. The
walk of any node leaves the tree and the open block as they were. -/
theorem itinerary_depthFirst (observes : visitor.Observes) (unshared : space.tree.Unshared)
    (inside : space.tree.root.index < space.tree.nodes.size) (own : σ) :
    ∃ (term : Term) (result : Except Fault Unit) (journal : Journal σ),
      term.id = space.tree.root ∧ term.Of space.tree ∧
      (term.depthFirst visitor {} []).run.run { space, own } = (result, journal) ∧
      (space.itinerary visitor own).map Walk.Visit.call = journal.calls ∧
      (walk visitor own).run.run space = (result.map fun _ => journal.own, journal.space) ∧
      (∀ fault, result = .error fault → ∃ visit ∈ space.itinerary visitor own, visit.answer = .error fault) ∧
      journal.space.tree = space.tree ∧
      ∀ (depth : Nat) (site : Site) (id : NodeId) (before after : WalkState σ),
        (Walk.node visitor depth site id).run.run before = (.ok (), after) →
          after.rebuilt = before.rebuilt ∧ after.space.tree = before.space.tree := by
  obtain ⟨term, root, stands, nodup⟩ := unshared.exists_term inside
  obtain ⟨result, after, outcome, runs⟩ := walk_runs visitor own space
  have each : ∀ visit ∈ space.itinerary visitor own, visit.Observes := fun visit member =>
    observes visit (itinerary_made visitor own space visit member)
  rw [← root] at runs
  have deep : term.height ≤ space.tree.nodes.size + 1 + visitor.growth := by
    have low := stands.height_le_size
    omega
  have toured : Walk.Toured space.tree {} term (.start space own) _ result after :=
    runs.toured (fun visit member => (each visit member).adds) deep stands stands nodup (by simp)
  have plays := runs.plays deep each stands []
  refine ⟨term, result, _, root, stands, plays, rfl, outcome, toured.faults, (runs.still each).tree, ?_⟩
  intro depth site id before last ran
  obtain ⟨visits, made, runs⟩ := Walk.exists_runs visitor depth site id before
  rw [ran] at runs
  have still := runs.still fun visit member => observes visit (made visit member)
  exact ⟨still.rebuilt () rfl, still.tree⟩

end Workspace

def Visitor.declining : Visitor Nat where
  visits := { before := true, between := true, after := true }
  visit _ _ _ := do
    let made ← Walk.own
    Walk.modifyOwn (· + 1)
    return made ≠ 3

theorem Visitor.declining_observes : declining.Observes := by
  rintro ⟨moment, site, id, before, answer, after⟩ made
  have left : { before with own := before.own + 1 } = after := congrArg Prod.snd made
  subst left
  exact ⟨rfl, rfl⟩

/-- The inner block of `true; { false; }` is declined, so that its statement is not walked and there
is no visit after it; the visit after the outer block is made. -/
theorem Workspace.itinerary_depthFirst_declining : Visitor.declining.Observes ∧ nestedBlock.tree.Unshared ∧
    nestedBlock.tree.root.index < nestedBlock.tree.nodes.size ∧
    ∃ (term : Term) (journal : Journal Nat), term.id = nestedBlock.tree.root ∧ term.Of nestedBlock.tree ∧
      (term.depthFirst .declining {} []).run.run { space := nestedBlock, own := 0 } = (.ok (), journal) ∧
      journal.calls.map (fun call => (call.moment, call.id, call.walked)) =
        [(.before, ⟨0⟩, []), (.leaf, ⟨1⟩, []), (.between, ⟨0⟩, [⟨1⟩]), (.before, ⟨2⟩, [⟨1⟩]), (.after, ⟨0⟩, [])] := by
  have inside : nestedBlock.tree.root.index < nestedBlock.tree.nodes.size := by decide
  have calls : (nestedBlock.itinerary .declining 0).map
      (fun visit => (visit.moment, visit.id, visit.before.rebuilt.toList)) =
      [(.before, ⟨0⟩, []), (.leaf, ⟨1⟩, []), (.between, ⟨0⟩, [⟨1⟩]), (.before, ⟨2⟩, [⟨1⟩]), (.after, ⟨0⟩, [])] := by
    decide +kernel
  have ends : ((walk .declining 0).run.run nestedBlock).1.isOk = true := by decide +kernel
  obtain ⟨term, result, journal, root, stands, played, made, outcome, _⟩ :=
    itinerary_depthFirst Visitor.declining_observes nestedBlock_unshared inside 0
  rw [outcome] at ends
  cases result with
  | error fault => cases ends
  | ok _ =>
    refine ⟨Visitor.declining_observes, nestedBlock_unshared, inside, term, journal, root, stands, played, ?_⟩
    rw [← made, List.map_map]
    exact calls

end ShaderTree
