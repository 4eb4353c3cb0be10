import ShaderTree.Proofs.Recording
import ShaderTree.Proofs.Sites
import ShaderTree.Walk.Script

/-! What becomes of the edits that visits make. Between two visits a walk changes nothing but a block
that statements were inserted into, whatever the tree and the visitor. So a block keeps an edit of
it, unless something is inserted into that block as well. -/
namespace ShaderTree

def Tree.KeepsBlocks (first second : Tree) : Prop :=
  ∀ id node, first.nodes.get? id = some node →
    ∃ other, second.nodes.get? id = some other ∧ other.isBlock = node.isBlock

namespace Tree.KeepsBlocks

variable {first second third : Tree}

theorem refl (tree : Tree) : tree.KeepsBlocks tree := fun _ node found => ⟨node, found, rfl⟩

theorem trans (earlier : first.KeepsBlocks second) (later : second.KeepsBlocks third) : first.KeepsBlocks third := by
  intro id node found
  obtain ⟨middle, between, same⟩ := earlier id node found
  obtain ⟨last, final, again⟩ := later id middle between
  exact ⟨last, final, again.trans same⟩

theorem isBlock_eq {id : NodeId} {node : Node} (keeps : first.KeepsBlocks second)
    (found : first.nodes.get? id = some node) : second.isBlock id = node.isBlock := by
  obtain ⟨other, present, same⟩ := keeps id node found
  simp [isBlock, present, same]

/-- A block that is rebuilt stays a block. -/
theorem of_write {id : NodeId} {old new : Node} (written : first.write id new = .ok second)
    (found : first.nodes.get? id = some old) (same : new.isBlock = old.isBlock) : first.KeepsBlocks second := by
  obtain ⟨final, others⟩ := get?_of_write written
  intro other node present
  by_cases own : other = id
  · subst own
    obtain rfl := Option.some.inj (found.symm.trans present)
    exact ⟨new, final, same⟩
  · exact ⟨node, (others other own).trans present, rfl⟩

end Tree.KeepsBlocks

namespace Walk

def Visit.KeepsBlocks (visit : Visit σ) : Prop := visit.before.space.tree.KeepsBlocks visit.after.space.tree

structure Visit.Fair (steady : Prop) (visit : Visit σ) : Prop where
  inserts : visit.Inserts
  keeps : steady → visit.KeepsBlocks

/-- What the visits at this depth insert, all of it into one open block. -/
def frame (depth : Nat) (visits : List (Visit σ)) : List NodeId :=
  (visits.filter (·.site.blockDepth = depth)).flatMap Visit.inserted

/-- What stands at `id` is the same from the start to the first visit, between visits, and from the
last visit to the end. -/
def Carried (id : NodeId) : (start : Option Node) → List (Visit σ) → (final : Option Node) → Prop
  | start, [], final => final = start
  | start, visit :: later, final => visit.before.space.tree.nodes.get? id = start ∧
      Carried id (visit.after.space.tree.nodes.get? id) later final

namespace Carried

variable {id : NodeId} {start middle final : Option Node} {earlier later : List (Visit σ)} {edit : Visit σ}

theorem append (first : Carried id start earlier middle) (second : Carried id middle later final) :
    Carried id start (earlier ++ later) final := by
  induction earlier generalizing start with
  | nil => exact (show middle = start from first) ▸ second
  | cons visit rest ih => exact ⟨first.1, ih first.2⟩

/-- What the last edit left is there at the end. -/
theorem last (carried : Carried id start (earlier ++ edit :: later) final)
    (unedited : ∀ visit ∈ later, visit.after.space.tree.nodes.get? id = visit.before.space.tree.nodes.get? id) :
    final = edit.after.space.tree.nodes.get? id := by
  induction earlier generalizing start with
  | cons visit rest ih => exact ih carried.2
  | nil =>
    replace carried := carried.2
    generalize edit.after.space.tree.nodes.get? id = held at carried
    induction later generalizing held with
    | nil => exact carried
    | cons visit rest ih =>
      have same := (unedited visit List.mem_cons_self).trans carried.1
      exact ih (fun other member => unedited other (List.mem_cons_of_mem _ member)) held (same ▸ carried.2)

end Carried

/-- The visit is in reach of the innermost open block of `site`, or in a block further inside. If
blocks stay blocks, no block is between then. -/
structure Visit.Below (steady : Prop) (site : Site) (tree : Tree) (inner : List NodeId) (visit : Visit σ) :
    Prop where
  ancestors : visit.site.ancestors = inner ++ site.ancestors
  blockDepth : site.blockDepth ≤ visit.site.blockDepth
  kinds : steady → tree.KeepsBlocks visit.before.space.tree
  plain : steady → visit.site.blockDepth = site.blockDepth → ∀ id ∈ inner, visit.before.space.tree.isBlock id = false

def Visit.Into (steady : Prop) (block : NodeId) (visit : Visit σ) : Prop :=
  block ∈ visit.site.ancestors ∧ (steady → visit.site.block? visit.before.space.tree = some block)

/-- What a part of a walk does to `block` beside what its visits do. `steady` holds if no visit turns
blocks into other nodes or back. -/
structure Passage (steady : Prop) (block : NodeId) (site : Site) (first : Tree) (visits : List (Visit σ))
    (second : Tree) : Prop where
  kinds : steady → first.KeepsBlocks second
  below : ∀ visit ∈ visits, ∃ inner, visit.Below steady site first inner
  carried : (∀ visit ∈ visits, visit.Into steady block → visit.inserted = []) →
    Carried block (first.nodes.get? block) visits (second.nodes.get? block)

variable {visitor : Visitor σ} {steady : Prop} {block id owner : NodeId} {site place : Site} {node : Node}
  {before between after : WalkState σ} {visits others : List (Visit σ)}

namespace Passage

variable {first second third : Tree}

theorem nil (steady : Prop) (block : NodeId) (site : Site) (tree : Tree) :
    Passage steady block site tree ([] : List (Visit σ)) tree :=
  ⟨fun _ => .refl _, by simp, fun _ => rfl⟩

theorem append (earlier : Passage steady block site first visits second)
    (later : Passage steady block site second others third) : Passage steady block site first (visits ++ others) third := by
  refine ⟨fun holds => (earlier.kinds holds).trans (later.kinds holds), ?_, fun none => ?_⟩
  · refine List.forall_mem_append.mpr ⟨earlier.below, fun visit member => ?_⟩
    obtain ⟨inner, below⟩ := later.below visit member
    exact ⟨inner, { below with kinds := fun holds => (earlier.kinds holds).trans (below.kinds holds) }⟩
  · obtain ⟨here, further⟩ := List.forall_mem_append.mp none
    exact (earlier.carried here).append (later.carried further)

/-- What is known of the inside of a node is known around the node. -/
theorem leave (passage : Passage steady block (site.enter id node) first visits second)
    (found : first.nodes.get? id = some node) : Passage steady block site first visits second := by
  refine ⟨passage.kinds, fun visit member => ?_, passage.carried⟩
  obtain ⟨inner, below⟩ := passage.below visit member
  have deeper : site.blockDepth ≤ (site.enter id node).blockDepth := by
    simp only [Site.enter]
    split <;> omega
  refine ⟨inner ++ [id], by simp [below.ancestors, Site.enter], Nat.le_trans deeper below.blockDepth, below.kinds, ?_⟩
  intro holds same
  have level : (site.enter id node).blockDepth = site.blockDepth := Nat.le_antisymm (same ▸ below.blockDepth) deeper
  have plain : node.isBlock = false := by
    cases isBlock : node.isBlock with
    | false => rfl
    | true => simp [Site.enter, isBlock] at level
  refine List.forall_mem_append.mpr ⟨below.plain holds (same.trans level.symm), ?_⟩
  simpa [plain] using (below.kinds holds).isBlock_eq found

end Passage

theorem Asks.passage {wanted : Bool} {moment : Moment} {answer : Except Fault Bool}
    (asks : Asks visitor wanted moment site id before visits answer after)
    (fair : ∀ visit ∈ visits, visit.Fair steady) (block : NodeId) :
    Passage steady block site before.space.tree visits after.space.tree := by
  cases asks with
  | visit =>
    refine ⟨(fair _ (List.mem_singleton_self _)).keeps, ?_, fun _ => ⟨rfl, rfl⟩⟩
    intro visit member
    obtain rfl := List.mem_singleton.mp member
    exact ⟨[], rfl, Nat.le_refl _, fun _ => .refl _, by simp⟩
  | _ => exact .nil _ _ _ _

theorem frame_append (depth : Nat) (first rest : List (Visit σ)) :
    frame depth (first ++ rest) = frame depth first ++ frame depth rest := by
  simp [frame]

/-- Visits further inside insert into other blocks. -/
theorem frame_eq_nil {depth : Nat} (deeper : ∀ visit ∈ visits, depth < visit.site.blockDepth) :
    frame depth visits = [] := by
  have none : visits.filter (·.site.blockDepth = depth) = [] := by
    refine List.filter_eq_nil_iff.mpr fun visit member => ?_
    have := deeper visit member
    simp only [decide_eq_true_eq]
    omega
  rw [frame, none, List.flatMap_nil]

theorem Asks.rebuilt_frame {wanted : Bool} {moment : Moment} {answer : Except Fault Bool}
    (asks : Asks visitor wanted moment site id before visits answer after) (fair : ∀ visit ∈ visits, visit.Fair steady) :
    after.rebuilt.toList = before.rebuilt.toList ++ frame site.blockDepth visits := by
  have all : visits.filter (·.site.blockDepth = site.blockDepth) = visits := by
    refine List.filter_eq_self.mpr fun visit member => decide_eq_true ?_
    rw [(asks.visits_eq visit member).2.1]
  rw [frame, all]
  exact asks.rebuilt_eq fun visit member => (fair visit member).inserts

structure Passed (steady : Prop) (block : NodeId) (site : Site) (before : WalkState σ) (visits : List (Visit σ))
    (result : Except Fault Unit) (after : WalkState σ) : Prop
    extends Passage steady block site before.space.tree visits after.space.tree where
  rebuilt : result = .ok () → after.rebuilt.toList = before.rebuilt.toList ++ frame site.blockDepth visits

theorem Emits.passage {result : Except Fault Unit}
    (emits : Emits (Passed steady block site) id before visits result after) :
    Passage steady block site before.space.tree visits after.space.tree := by
  cases emits with
  | done walked => exact ⟨walked.kinds, walked.below, walked.carried⟩
  | fault walked => exact walked.toPassage

section
variable {ι : Type} {leg : ι → Effect σ Unit} {first : Bool} {items : List ι}

theorem Row.passage {result : Except Fault (List ι)} (fair : ∀ visit ∈ visits, visit.Fair steady)
    (row : Row visitor leg place owner first items before visits result after)
    (legs : ∀ item before visits result after, (∀ visit ∈ visits, visit.Fair steady) →
      leg item before visits result after → Passage steady block place before.space.tree visits after.space.tree) :
    Passage steady block place before.space.tree visits after.space.tree := by
  induction row with
  | done => exact .nil _ _ _ _
  | stop asked | refuse asked => exact asked.passage fair block
  | fault asked walked =>
    obtain ⟨fairGap, fair⟩ := List.forall_mem_append.mp fair
    exact (asked.passage fairGap block).append (legs _ _ _ _ _ fair walked)
  | next asked walked _ ih =>
    obtain ⟨fairGap, fair⟩ := List.forall_mem_append.mp fair
    obtain ⟨fair, fairLater⟩ := List.forall_mem_append.mp fair
    exact (asked.passage fairGap block).append ((legs _ _ _ _ _ fair walked).append (ih fairLater))

theorem Row.rebuilt_frame {left : List ι} (fair : ∀ visit ∈ visits, visit.Fair steady)
    (row : Row visitor leg place owner first items before visits (.ok left) after)
    (legs : ∀ item before visits after, (∀ visit ∈ visits, visit.Fair steady) →
      leg item before visits (.ok ()) after →
      after.rebuilt.toList = before.rebuilt.toList ++ frame place.blockDepth visits) :
    after.rebuilt.toList = before.rebuilt.toList ++ frame place.blockDepth visits := by
  generalize same : Except.ok left = result at row
  induction row with
  | done => simp [frame]
  | stop asked => exact asked.rebuilt_frame fair
  | refuse | fault => cases same
  | next asked walked _ ih =>
    obtain ⟨fairGap, fair⟩ := List.forall_mem_append.mp fair
    obtain ⟨fair, fairLater⟩ := List.forall_mem_append.mp fair
    rw [ih fairLater same, legs _ _ _ _ fair walked, asked.rebuilt_frame fairGap]
    simp only [frame_append, List.append_assoc]

/-- A block has as many statements more as were inserted into it. -/
theorem Row.rebuilt_size {walks : NodeId → Effect σ Unit} {ids left : List NodeId}
    (fair : ∀ visit ∈ visits, visit.Fair steady)
    (row : Row visitor (fun id => Emits (walks id) id) place owner first ids before visits (.ok left) after)
    (legs : ∀ id before visits after, (∀ visit ∈ visits, visit.Fair steady) →
      walks id before visits (.ok ()) after →
      after.rebuilt.toList = before.rebuilt.toList ++ frame place.blockDepth visits) :
    after.rebuilt.size + left.length = before.rebuilt.size + ids.length + (frame place.blockDepth visits).length := by
  generalize same : Except.ok left = result at row
  induction row with
  | done =>
    obtain rfl := Except.ok.inj same
    simp [frame]
  | stop asked =>
    obtain rfl := Except.ok.inj same
    have size := congrArg List.length (asked.rebuilt_frame fair)
    simp only [List.length_append, Array.length_toList] at size
    omega
  | refuse | fault => cases same
  | next asked walked _ ih =>
    obtain ⟨fairGap, fair⟩ := List.forall_mem_append.mp fair
    obtain ⟨fair, fairLater⟩ := List.forall_mem_append.mp fair
    cases walked with
    | done walked =>
      have later := ih fairLater same
      have own := congrArg List.length (legs _ _ _ _ fair walked)
      have gap := congrArg List.length (asked.rebuilt_frame fairGap)
      simp only [List.length_append, Array.length_toList, Array.size_push, List.length_cons, frame_append]
        at later own gap ⊢
      omega

end

/-- What is inserted into no block but a `block` that nothing is inserted into is nothing. -/
theorem Passage.frame_enter_eq_nil {statements : List NodeId}
    (passage : Passage steady id (site.enter id (.block statements)) before.space.tree visits after.space.tree)
    (found : before.space.tree.nodes.get? id = some (.block statements))
    (none : ∀ visit ∈ visits, visit.Into steady id → visit.inserted = []) :
    frame (site.enter id (.block statements)).blockDepth visits = [] := by
  refine List.flatMap_eq_nil_iff.mpr fun visit member => ?_
  obtain ⟨among, same⟩ := List.mem_filter.mp member
  obtain ⟨inner, below⟩ := passage.below visit among
  refine none visit among ⟨by simp [below.ancestors, Site.enter], fun holds => ?_⟩
  have plain := below.plain holds (of_decide_eq_true same)
  have isBlock : visit.before.space.tree.isBlock id = true := (below.kinds holds).isBlock_eq found
  have skipped : inner.find? visit.before.space.tree.isBlock = Option.none :=
    List.find?_eq_none.mpr fun other inside => by simp [plain other inside]
  rw [Site.block?, below.ancestors, List.find?_append, skipped, Option.none_or, Site.enter, List.find?_cons_of_pos isBlock]

section
variable {child : Site → NodeId → Effect σ Unit}
  (walks : ∀ site id before visits result after, (∀ visit ∈ visits, visit.Fair steady) →
    child site id before visits result after → Passed steady block site before visits result after)
include walks

theorem Inner.passed {result : Except Fault (List NodeId)} (fair : ∀ visit ∈ visits, visit.Fair steady)
    (inner : Inner visitor child site id before visits result after) :
    Passed steady block site before visits (result.map fun _ => ()) after := by
  cases inner with
  | missing => exact ⟨.nil _ _ _ _, by simp [Except.map]⟩
  | @plain node _ _ _ _ found plain row =>
    have passage := row.passage fair fun item before visits result after fair walked =>
      (walks _ _ _ _ _ _ fair walked).toPassage
    refine ⟨passage.leave found, fun done => ?_⟩
    cases result with
    | error fault => cases done
    | ok left =>
      have level : (site.enter id node).blockDepth = site.blockDepth := by simp [Site.enter, plain]
      exact level ▸ row.rebuilt_frame fair fun _ _ _ _ fair walked => (walks _ _ _ _ _ _ fair walked).rebuilt rfl
  | @block statements _ closed _ _ left _ found row closes =>
    have passage := row.passage fair fun item before visits result after fair emits =>
      Emits.passage (emits.mono fun result after walked => walks _ _ _ _ _ _ fair walked)
    have outside := passage.leave found
    have deeper : ∀ visit ∈ visits, site.blockDepth < visit.site.blockDepth := fun visit member => by
      obtain ⟨inner, below⟩ := passage.below visit member
      exact Nat.lt_of_succ_le below.blockDepth
    cases closes with
    | fault => exact ⟨outside, by simp [Except.map]⟩
    | kept few => exact ⟨outside, fun _ => by simp [frame_eq_nil deeper]⟩
    | lost gone => exact ⟨outside, by simp [Except.map]⟩
    | @rebuilt left tree more written =>
      obtain ⟨_, others⟩ := Tree.get?_of_write written
      refine ⟨⟨fun holds => ?_, outside.below, fun none => ?_⟩, fun _ => by simp [frame_eq_nil deeper]⟩
      · obtain ⟨node, present, isBlock⟩ := passage.kinds holds id _ found
        exact (passage.kinds holds).trans (.of_write written present isBlock.symm)
      · have other : block ≠ id := by
          -- the block would have no more statements than were walked
          rintro rfl
          have size := row.rebuilt_size fair fun _ _ _ _ fair walked => (walks _ _ _ _ _ _ fair walked).rebuilt rfl
          rw [passage.frame_enter_eq_nil found none] at size
          simp only [List.size_toArray, List.length_nil] at size
          omega
        rw [others block other]
        exact passage.carried none

theorem Step.passed {result : Except Fault Unit} (fair : ∀ visit ∈ visits, visit.Fair steady)
    (step : Step visitor child site id before visits result after) :
    Passed steady block site before visits result after := by
  cases step with
  | missing => exact ⟨.nil _ _ _ _, by simp⟩
  | leaf found leaf visited =>
    have asked : Asks visitor true .leaf site id before _ _ after := .visit rfl visited
    exact ⟨asked.passage fair block, fun _ => asked.rebuilt_frame fair⟩
  | barred found inner asked => exact ⟨asked.passage fair block, fun _ => asked.rebuilt_frame fair⟩
  | through found inner asked inside =>
    obtain ⟨fairFirst, fair⟩ := List.forall_mem_append.mp fair
    cases inside with
    | fault within =>
      exact ⟨(asked.passage fairFirst block).append (within.passed walks fair).toPassage, by simp⟩
    | closed within last =>
      obtain ⟨fair, fairLast⟩ := List.forall_mem_append.mp fair
      have passed := within.passed walks fair
      refine ⟨(asked.passage fairFirst block).append (passed.toPassage.append (last.passage fairLast block)), fun _ => ?_⟩
      rw [last.rebuilt_frame fairLast, passed.rebuilt rfl, asked.rebuilt_frame fairFirst, frame_append, frame_append]
      simp only [List.append_assoc]

end

theorem Runs.passed {depth : Nat} {result : Except Fault Unit} (fair : ∀ visit ∈ visits, visit.Fair steady)
    (runs : Runs visitor depth site id before visits result after) :
    Passed steady block site before visits result after := by
  induction depth generalizing site id before visits result after with
  | zero =>
    obtain ⟨rfl, rfl, rfl⟩ := runs
    exact ⟨.nil _ _ _ _, by simp⟩
  | succ depth ih => exact Step.passed (fun _ _ _ _ _ _ => ih) fair runs

end Walk

/-- The last edit of a block is there after the walk, or something was inserted while the block was
walked: into the block itself, unless visits turn blocks into other nodes or back. -/
theorem Workspace.walk_keeps_edit {space after : Workspace} {visitor : Visitor σ} {own : σ} {outcome : Except Fault σ}
    {earlier later : List (Walk.Visit σ)} {edit : Walk.Visit σ}
    (inserts : ∀ visit ∈ space.itinerary visitor own, visit.Inserts)
    (ends : (walk visitor own).run.run space = (outcome, after))
    (made : space.itinerary visitor own = earlier ++ edit :: later) (block : NodeId)
    (last : ∀ visit ∈ later, visit.after.space.tree.nodes.get? block = visit.before.space.tree.nodes.get? block) :
    after.tree.nodes.get? block = edit.after.space.tree.nodes.get? block ∨
      ∃ visit ∈ space.itinerary visitor own, visit.inserted ≠ [] ∧ block ∈ visit.site.ancestors ∧
        ((∀ other ∈ space.itinerary visitor own, other.KeepsBlocks) →
          visit.site.block? visit.before.space.tree = some block) := by
  obtain ⟨result, final, run, runs⟩ := walk_runs visitor own space
  obtain ⟨_, rfl⟩ := Prod.mk.inj (ends.symm.trans run)
  have passed : Walk.Passed (∀ other ∈ space.itinerary visitor own, other.KeepsBlocks) block {} (.start space own)
      (space.itinerary visitor own) result final :=
    runs.passed fun visit member => ⟨inserts visit member, fun steady => steady visit member⟩
  refine or_iff_not_imp_right.mpr fun none => ?_
  have carried := passed.carried fun visit member into => by
    by_contra some
    exact none ⟨visit, member, some, into⟩
  rw [made] at carried
  exact carried.last last

/-- The program `1; 2;`, with two more statements that are nowhere. -/
def Workspace.spareStatements : Workspace :=
  { tree :=
      { nodes := ⟨#[.block [⟨1⟩, ⟨2⟩], .constant [.sint 1] .int, .constant [.sint 2] .int, .constant [.sint 3] .int,
          .constant [.sint 4] .int]⟩
        root := ⟨0⟩ }
    table := { builtIns := {}, profile := {} } }

def Script.appending : Script :=
  .start
    [{ node := ⟨1⟩, moment := .leaf, edit := .push ⟨0⟩ ⟨3⟩ }, { node := ⟨2⟩, moment := .leaf, edit := .insert ⟨4⟩ }]

def Visitor.ofLeaves : Visitor Script := Script.visitor { before := false }

/-- The statement appended is lost to the one inserted. -/
theorem Workspace.walk_keeps_edit_lost :
    (∀ visit ∈ spareStatements.itinerary .ofLeaves .appending, visit.Inserts) ∧
      ∃ edit later outcome after, spareStatements.itinerary .ofLeaves .appending = [] ++ edit :: later ∧
        (walk .ofLeaves .appending).run.run spareStatements = (outcome, after) ∧
        (∀ visit ∈ later, visit.after.space.tree.nodes.get? ⟨0⟩ = visit.before.space.tree.nodes.get? ⟨0⟩) ∧
        edit.after.space.tree.nodes.get? ⟨0⟩ = some (.block [⟨1⟩, ⟨2⟩, ⟨3⟩]) ∧
        after.tree.nodes.get? ⟨0⟩ = some (.block [⟨1⟩, ⟨4⟩, ⟨2⟩]) ∧
        ∃ visit ∈ spareStatements.itinerary .ofLeaves .appending,
          visit.inserted ≠ [] ∧ ⟨0⟩ ∈ visit.site.ancestors := by
  have prefixes : (spareStatements.itinerary .ofLeaves .appending).all (fun visit =>
      visit.before.rebuilt.toList.isPrefixOf visit.after.rebuilt.toList) = true := by decide +kernel
  have long : (spareStatements.itinerary .ofLeaves .appending).isEmpty = false := by decide +kernel
  have edited : ((spareStatements.itinerary .ofLeaves .appending).head?.bind fun edit =>
      edit.after.space.tree.nodes.get? ⟨0⟩) = some (.block [⟨1⟩, ⟨2⟩, ⟨3⟩]) := by decide +kernel
  have unedited : (spareStatements.itinerary .ofLeaves .appending).tail.all (fun visit =>
      visit.after.space.tree.nodes.get? ⟨0⟩ = visit.before.space.tree.nodes.get? ⟨0⟩) = true := by decide +kernel
  have final : ((walk .ofLeaves .appending).run.run spareStatements).2.tree.nodes.get? ⟨0⟩ =
      some (.block [⟨1⟩, ⟨4⟩, ⟨2⟩]) := by decide +kernel
  have inserts : ∀ visit ∈ spareStatements.itinerary .ofLeaves .appending, visit.Inserts := fun visit member =>
    List.isPrefixOf_iff_prefix.mp (List.all_eq_true.mp prefixes visit member)
  obtain ⟨edit, later, made⟩ := List.exists_cons_of_ne_nil (List.isEmpty_eq_false_iff.mp long)
  rw [made] at edited unedited
  have last : ∀ visit ∈ later, visit.after.space.tree.nodes.get? ⟨0⟩ = visit.before.space.tree.nodes.get? ⟨0⟩ :=
    fun visit member => of_decide_eq_true (List.all_eq_true.mp unedited visit member)
  rcases ends : (walk .ofLeaves .appending).run.run spareStatements with ⟨outcome, after⟩
  rw [ends] at final
  have split : spareStatements.itinerary .ofLeaves .appending = [] ++ edit :: later := made
  refine ⟨inserts, edit, later, outcome, after, split, rfl, last, edited, final, ?_⟩
  rcases walk_keeps_edit inserts ends split ⟨0⟩ last with kept | ⟨visit, member, inserted, inside, _⟩
  · cases (kept.trans edited).symm.trans final
  · exact ⟨visit, member, inserted, inside⟩

end ShaderTree
