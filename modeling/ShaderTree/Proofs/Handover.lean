import ShaderTree.Proofs.Recording

/-! What walks hand on from visit to visit. Between visits a walk changes blocks of the tree at most,
so that every visit finds the table, and what the visitor keeps, as the visit before left them. -/
namespace ShaderTree

/-- What only visits change: the table, and what the visitor keeps. -/
def WalkState.held (state : WalkState σ) : SymbolTable × σ := (state.space.table, state.own)

namespace Walk

def Linked : (start : WalkState σ) → List (Visit σ) → (final : WalkState σ) → Prop
  | start, [], final => final.held = start.held
  | start, visit :: later, final => visit.before.held = start.held ∧ Linked visit.after later final

namespace Linked

variable {start middle final other : WalkState σ} {earlier later : List (Visit σ)}

theorem refl (state : WalkState σ) : Linked state [] state := rfl

/-- Where a chain of visits starts and ends matters only by what is held there. -/
theorem congr (linked : Linked start later final) (first : other.held = start.held) (last : middle.held = final.held) :
    Linked other later middle := by
  induction later generalizing start other with
  | nil => exact last.trans (Eq.trans linked first.symm)
  | cons visit rest ih => exact ⟨linked.1.trans first.symm, ih linked.2 rfl⟩

theorem append (first : Linked start earlier middle) (second : Linked middle later final) :
    Linked start (earlier ++ later) final := by
  induction earlier generalizing start with
  | nil => exact second.congr (Eq.symm first) rfl
  | cons visit rest ih => exact ⟨first.1, ih first.2⟩

/-- What every visit keeps is kept from the start to the end. -/
theorem relates {relation : SymbolTable → SymbolTable → Prop} (linked : Linked start later final)
    (refl : ∀ table, relation table table)
    (trans : ∀ first second third, relation first second → relation second third → relation first third)
    (each : ∀ visit ∈ later, relation visit.before.space.table visit.after.space.table) :
    relation start.space.table final.space.table := by
  induction later generalizing start with
  | nil =>
    have same : final.space.table = start.space.table := congrArg Prod.fst linked
    rw [same]
    exact refl _
  | cons visit rest ih =>
    have found : visit.before.space.table = start.space.table := congrArg Prod.fst linked.1
    have own := each visit List.mem_cons_self
    rw [found] at own
    exact trans _ _ _ own (ih linked.2 fun other member => each other (List.mem_cons_of_mem _ member))

end Linked

structure HandsOn (before : WalkState σ) (visits : List (Visit σ)) (result : Except Fault α) (after : WalkState σ) :
    Prop where
  linked : Linked before visits after
  answered : ∀ value, result = .ok value → ∀ visit ∈ visits, ∃ answer, visit.answer = .ok answer

namespace HandsOn

variable {before between after : WalkState σ} {visits others : List (Visit σ)} {result : Except Fault α}

theorem refl (state : WalkState σ) (result : Except Fault α) : HandsOn state [] result state :=
  ⟨.refl _, by simp⟩

theorem append {value : β} (earlier : HandsOn before visits (.ok value) between)
    (later : HandsOn between others result after) : HandsOn before (visits ++ others) result after where
  linked := earlier.linked.append later.linked
  answered value done := List.forall_mem_append.mpr ⟨earlier.answered _ rfl, later.answered value done⟩

theorem fault {value : β} {cause : Fault} (earlier : HandsOn before visits (.ok value) between)
    (later : Linked between others after) :
    HandsOn before (visits ++ others) (.error cause : Except Fault α) after :=
  ⟨earlier.linked.append later, by simp⟩

theorem map (handsOn : HandsOn before visits result after) (f : α → β) :
    HandsOn before visits (result.map f) after := by
  refine ⟨handsOn.linked, fun value done => ?_⟩
  cases result with
  | error cause => cases done
  | ok value => exact handsOn.answered value rfl

end HandsOn

variable {visitor : Visitor σ} {site place : Site} {id owner : NodeId} {before after : WalkState σ}
  {visits : List (Visit σ)}

theorem Asks.handsOn {wanted : Bool} {moment : Moment} {answer : Except Fault Bool}
    (asks : Asks visitor wanted moment site id before visits answer after) : HandsOn before visits answer after := by
  cases asks with
  | visit =>
    refine ⟨⟨rfl, rfl⟩, fun value done visit member => ?_⟩
    obtain rfl := List.mem_singleton.mp member
    exact ⟨value, done⟩
  | _ => exact .refl _ _

theorem Row.handsOn {walks : NodeId → Effect σ Unit} {first : Bool} {ids : List NodeId}
    {result : Except Fault (List NodeId)} (row : Row visitor walks place owner first ids before visits result after)
    (each : ∀ id before visits result after, walks id before visits result after →
      HandsOn before visits result after) : HandsOn before visits result after := by
  induction row with
  | done => exact .refl _ _
  | stop asked => exact ⟨asked.handsOn.linked, fun _ _ => asked.handsOn.answered _ rfl⟩
  | refuse asked => exact ⟨asked.handsOn.linked, by simp⟩
  | fault asked walked => exact asked.handsOn.fault (each _ _ _ _ _ walked).linked
  | next asked walked _ ih => exact asked.handsOn.append ((each _ _ _ _ _ walked).append ih)

section
variable {child : Site → NodeId → Effect σ Unit}
  (walks : ∀ site id before visits result after, child site id before visits result after →
    HandsOn before visits result after)
include walks

theorem Inner.handsOn {result : Except Fault (List NodeId)}
    (inner : Inner visitor child site id before visits result after) : HandsOn before visits result after := by
  cases inner with
  | missing => exact .refl _ _
  | plain _ _ row => exact row.handsOn fun _ _ _ _ _ walked => walks _ _ _ _ _ _ walked
  | block _ row closes =>
    have statements := row.handsOn fun id before visits result after emits => by
      cases emits with
      | done walked | fault walked =>
        have handsOn := walks _ _ _ _ _ _ walked
        exact ⟨handsOn.linked.congr rfl rfl, handsOn.answered⟩
    -- to write the block again changes the tree only
    cases closes with
    | fault => exact ⟨statements.linked.congr rfl rfl, by simp⟩
    | lost => exact ⟨statements.linked.congr rfl rfl, by simp⟩
    | kept | rebuilt => exact ⟨statements.linked.congr rfl rfl, statements.answered⟩

theorem Step.handsOn {result : Except Fault Unit} (step : Step visitor child site id before visits result after) :
    HandsOn before visits result after := by
  cases step with
  | missing => exact .refl _ _
  | @leaf _ _ _ answer _ _ visited =>
    have asked : Asks visitor true .leaf site id before _ answer after := .visit rfl visited
    exact asked.handsOn.map _
  | barred _ _ asked => exact asked.handsOn.map _
  | through _ _ asked inside =>
    apply asked.handsOn.append
    cases inside with
    | fault within => exact ⟨(within.handsOn walks).linked, by simp⟩
    | closed within last => exact (within.handsOn walks).append (last.handsOn.map _)

end

theorem Runs.handsOn {depth : Nat} {result : Except Fault Unit}
    (runs : Runs visitor depth site id before visits result after) : HandsOn before visits result after := by
  induction depth generalizing site id before visits result after with
  | zero =>
    obtain ⟨rfl, rfl, rfl⟩ := runs
    exact .refl _ _
  | succ depth ih => exact Step.handsOn (fun _ _ _ _ _ _ => ih) runs

end Walk

/-- A walk that comes to an end is a run whose visits are a chain, none of which failed. -/
theorem Workspace.walk_ends {visitor : Visitor σ} {own value : σ} {space after : Workspace}
    (ends : Ends (walk visitor own) space value after) :
    ∃ last : WalkState σ, last.space = after ∧ Walk.Linked (.start space own) (space.itinerary visitor own) last ∧
      (∀ visit ∈ space.itinerary visitor own, visit.MadeBy visitor ∧ ∃ answer, visit.answer = .ok answer) ∧
      Walk.Runs visitor (space.tree.nodes.size + 1 + visitor.growth) {} space.tree.root (.start space own)
        (space.itinerary visitor own) (.ok ()) last := by
  obtain ⟨result, last, outcome, runs⟩ := walk_runs visitor own space
  have same := ends.symm.trans outcome
  cases result with
  | error fault => cases congrArg Prod.fst same
  | ok done =>
    have handsOn := runs.handsOn
    refine ⟨last, (congrArg Prod.snd same).symm, handsOn.linked, fun visit member => ?_, runs⟩
    exact ⟨itinerary_made visitor own space visit member, handsOn.answered done rfl visit member⟩

end ShaderTree
