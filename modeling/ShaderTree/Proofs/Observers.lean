import ShaderTree.Proofs.Recording

/-! Walks by visitors that edit no node and insert nothing. They leave the tree and the open block as
they were, whatever the tree: no block has more statements at the end of its walk. -/
namespace ShaderTree

namespace Walk

variable {visitor : Visitor σ} {place site : Site} {id owner : NodeId} {before after : WalkState σ}
  {visits : List (Visit σ)}

structure Visit.Observes (visit : Visit σ) : Prop where
  tree : visit.after.space.tree = visit.before.space.tree
  rebuilt : visit.after.rebuilt = visit.before.rebuilt

structure Still (before : WalkState σ) (result : Except Fault α) (after : WalkState σ) : Prop where
  tree : after.space.tree = before.space.tree
  rebuilt : ∀ value, result = .ok value → after.rebuilt = before.rebuilt

namespace Still

variable {result : Except Fault α}

theorem refl (state : WalkState σ) (result : Except Fault α) : Still state result state :=
  ⟨rfl, fun _ _ => rfl⟩

theorem trans {value : β} {between : WalkState σ} (earlier : Still before (.ok value) between)
    (later : Still between result after) : Still before result after where
  tree := later.tree.trans earlier.tree
  rebuilt value done := (later.rebuilt value done).trans (earlier.rebuilt _ rfl)

theorem map (still : Still before result after) (f : α → β) : Still before (result.map f) after := by
  refine ⟨still.tree, fun value done => ?_⟩
  cases result with
  | error fault => cases done
  | ok value => exact still.rebuilt value rfl

end Still

theorem Asks.still {wanted : Bool} {moment : Moment} {answer : Except Fault Bool}
    (asks : Asks visitor wanted moment site id before visits answer after)
    (observes : ∀ visit ∈ visits, visit.Observes) : Still before answer after := by
  cases asks with
  | visit =>
    have observed := observes _ (List.mem_singleton_self _)
    exact ⟨observed.tree, fun _ _ => observed.rebuilt⟩
  | _ => exact .refl _ _

/-- The walks of the children of a node put no more into the open block than they are meant to:
`pushed`, one statement each in a block. -/
theorem Row.still {walks : NodeId → Effect σ Unit} {first : Bool} {ids : List NodeId}
    {result : Except Fault (List NodeId)} (pushed : NodeId → List NodeId)
    (row : Row visitor walks place owner first ids before visits result after)
    (observes : ∀ visit ∈ visits, visit.Observes)
    (each : ∀ id before visits result after, walks id before visits result after →
      (∀ visit ∈ visits, visit.Observes) → after.space.tree = before.space.tree ∧
        (result = .ok () → after.rebuilt.toList = before.rebuilt.toList ++ pushed id)) :
    after.space.tree = before.space.tree ∧ ∀ left, result = .ok left →
      after.rebuilt.toList ++ left.flatMap pushed = before.rebuilt.toList ++ ids.flatMap pushed := by
  induction row with
  | done =>
    refine ⟨rfl, fun left done => ?_⟩
    obtain rfl := Except.ok.inj done
    rfl
  | stop asked =>
    have still := asked.still observes
    refine ⟨still.tree, fun left done => ?_⟩
    obtain rfl := Except.ok.inj done
    rw [still.rebuilt _ rfl]
  | refuse asked => exact ⟨(asked.still observes).tree, by simp⟩
  | fault asked walked =>
    obtain ⟨observesGap, observes⟩ := List.forall_mem_append.mp observes
    obtain ⟨tree, _⟩ := each _ _ _ _ _ walked observes
    exact ⟨tree.trans (asked.still observesGap).tree, by simp⟩
  | next asked walked _ ih =>
    obtain ⟨observesGap, observes⟩ := List.forall_mem_append.mp observes
    obtain ⟨observes, observesLater⟩ := List.forall_mem_append.mp observes
    have opened := asked.still observesGap
    obtain ⟨own, pushes⟩ := each _ _ _ _ _ walked observes
    obtain ⟨tree, balance⟩ := ih observesLater
    refine ⟨tree.trans (own.trans opened.tree), fun left done => ?_⟩
    rw [balance left done, pushes rfl, opened.rebuilt _ rfl, List.append_assoc, List.flatMap_cons]

theorem Emits.still {walk : Effect σ Unit} {result : Except Fault Unit}
    (emits : Emits walk id before visits result after)
    (walks : ∀ result after, walk before visits result after → Still before result after) :
    after.space.tree = before.space.tree ∧
      (result = .ok () → after.rebuilt.toList = before.rebuilt.toList ++ [id]) := by
  cases emits with
  | fault walked => exact ⟨(walks _ _ walked).tree, by simp⟩
  | done walked =>
    have still := walks _ _ walked
    exact ⟨still.tree, fun _ => by simp [still.rebuilt _ rfl]⟩

/-- A block that has no more statements at the end of its walk is left as it is. -/
theorem Closes.unwritten {statements : List NodeId} {outer : Array NodeId} {inner : WalkState σ}
    {left result : Except Fault (List NodeId)} (closes : Closes id statements outer inner left result after)
    (few : ∀ rest, left = .ok rest → inner.rebuilt.size + rest.length ≤ statements.length)
    (there : inner.space.tree.nodes.get? id ≠ none) :
    after.space = inner.space ∧ after.own = inner.own ∧ result = left ∧
      ∀ value, result = .ok value → after.rebuilt = outer := by
  cases closes with
  | fault => exact ⟨rfl, rfl, rfl, by simp⟩
  | kept => exact ⟨rfl, rfl, rfl, fun _ _ => rfl⟩
  | rebuilt more =>
    have bound := few _ rfl
    omega
  | lost gone => exact absurd gone there

section
variable {child : Site → NodeId → Effect σ Unit}
  (walks : ∀ site id before visits result after, child site id before visits result after →
    (∀ visit ∈ visits, visit.Observes) → Still before result after)
include walks

/-- The statements of a block that were walked and those left are all that there are. -/
theorem Row.still_block {statements : List NodeId} {first : Bool} {result : Except Fault (List NodeId)}
    (row : Row visitor (fun statement => Emits (child place statement) statement) place owner first statements
      before visits result after)
    (observes : ∀ visit ∈ visits, visit.Observes) :
    after.space.tree = before.space.tree ∧
      ∀ left, result = .ok left → after.rebuilt.size + left.length = before.rebuilt.size + statements.length := by
  obtain ⟨tree, balance⟩ := row.still (fun id => [id]) observes fun id before visits result after emits observes =>
    emits.still fun _ _ walked => walks _ _ _ _ _ _ walked observes
  refine ⟨tree, fun left done => ?_⟩
  have length := congrArg List.length (balance left done)
  simpa only [List.flatMap_singleton', List.length_append, Array.length_toList] using length

theorem Inner.still {result : Except Fault (List NodeId)}
    (inner : Inner visitor child site id before visits result after)
    (observes : ∀ visit ∈ visits, visit.Observes) : Still before result after := by
  cases inner with
  | missing => exact .refl _ _
  | plain found plain row =>
    obtain ⟨tree, balance⟩ := row.still (fun _ => []) observes fun id before visits result after walked observes => by
      have still := walks _ _ _ _ _ _ walked observes
      exact ⟨still.tree, fun done => by rw [still.rebuilt _ done, List.append_nil]⟩
    have nothing (ids : List NodeId) : ids.flatMap (fun _ => ([] : List NodeId)) = [] :=
      List.flatMap_eq_nil_iff.mpr fun _ _ => rfl
    refine ⟨tree, fun left done => Array.toList_inj.mp ?_⟩
    simpa only [nothing, List.append_nil] using balance left done
  | block found row closes =>
    obtain ⟨tree, whole⟩ := row.still_block walks observes
    obtain ⟨space, _, _, restored⟩ := closes.unwritten (fun rest done => by simpa using Nat.le_of_eq (whole rest done))
      (by simp [tree, found])
    exact ⟨space ▸ tree, restored⟩

theorem Step.still {result : Except Fault Unit} (step : Step visitor child site id before visits result after)
    (observes : ∀ visit ∈ visits, visit.Observes) : Still before result after := by
  cases step with
  | missing => exact .refl _ _
  | @leaf _ _ _ answer _ _ visited =>
    have asked : Asks visitor true .leaf site id before _ answer after := .visit rfl visited
    exact (asked.still observes).map _
  | barred _ _ asked => exact (asked.still observes).map _
  | through _ _ asked inside =>
    obtain ⟨observesFirst, observes⟩ := List.forall_mem_append.mp observes
    apply (asked.still observesFirst).trans
    cases inside with
    | fault within =>
      have still := within.still walks observes
      exact ⟨still.tree, by simp⟩
    | closed within last =>
      obtain ⟨observes, observesLast⟩ := List.forall_mem_append.mp observes
      exact (within.still walks observes).trans ((last.still observesLast).map _)

end

theorem Runs.still {depth : Nat} {result : Except Fault Unit}
    (runs : Runs visitor depth site id before visits result after)
    (observes : ∀ visit ∈ visits, visit.Observes) : Still before result after := by
  induction depth generalizing site id before visits result after with
  | zero =>
    obtain ⟨rfl, rfl, rfl⟩ := runs
    exact .refl _ _
  | succ depth ih => exact Step.still (fun _ _ _ _ _ _ => ih) runs observes

end Walk

/-- Whatever comes of the work, `view` shows the state as it was. -/
def Holding (view : τ → ρ) (action : ExceptT Fault (StateM τ) α) : Prop :=
  ∀ state, view (action.run.run state).2 = view state

namespace Holding

variable {view : τ → ρ} {action : ExceptT Fault (StateM τ) α} {next : α → ExceptT Fault (StateM τ) β}

theorem pure (value : α) : Holding view (Pure.pure value : ExceptT Fault (StateM τ) α) := fun _ => rfl

theorem throw (fault : Fault) : Holding view (throw fault : ExceptT Fault (StateM τ) α) := fun _ => rfl

theorem bind (first : Holding view action) (rest : ∀ value, Holding view (next value)) :
    Holding view (action >>= next) := by
  intro state
  have own := first state
  simp only [ExceptT.run_bind, StateT.run_bind]
  generalize action.run.run state = outcome at own ⊢
  obtain ⟨_ | value, between⟩ := outcome
  · exact own
  · exact (rest value between).trans own

theorem get : Holding view (get : ExceptT Fault (StateM τ) τ) := fun _ => rfl

theorem onTable (operation : SymbolTable → Except Fault (α × SymbolTable)) :
    Holding Workspace.tree (Workspace.onTable operation) := by
  intro space
  simp only [Workspace.onTable, ExceptT.run_mk, StateT.run]
  cases operation space.table <;> rfl

theorem inspect (operation : Tree → SymbolTable → Except Fault α) :
    Holding Workspace.tree (Workspace.inspect operation) := fun _ => rfl

theorem record {view : Workspace → ρ} (entry : LogRecord)
    (same : ∀ space, view { space with log := space.log.push entry } = view space) :
    Holding view (Workspace.record entry) := same

end Holding

/-- What a visitor that edits nothing leaves alone: the tree and the open block. -/
def WalkState.shown (state : WalkState σ) : Tree × Array NodeId := (state.space.tree, state.rebuilt)

namespace Holding

theorem work {action : WorkM α} (holding : Holding Workspace.tree action) :
    Holding WalkState.shown (Walk.work action : WalkM σ α) := by
  intro state
  exact congrArg (·, state.rebuilt) (holding state.space)

theorem own : Holding WalkState.shown (Walk.own : WalkM σ σ) := fun _ => rfl

theorem modifyOwn (change : σ → σ) : Holding WalkState.shown (Walk.modifyOwn change) := fun _ => rfl

end Holding

def Visitor.Observes (visitor : Visitor σ) : Prop :=
  ∀ visit : Walk.Visit σ, visit.MadeBy visitor → visit.Observes

theorem Visitor.observes_of_holding {visitor : Visitor σ}
    (each : ∀ moment site id, Holding WalkState.shown (visitor.visit moment site id)) : visitor.Observes := by
  rintro ⟨moment, site, id, before, answer, after⟩ made
  have shown := each moment site id before
  have left : ((visitor.visit moment site id).run.run before).2 = after := congrArg Prod.snd made
  rw [left] at shown
  exact ⟨congrArg Prod.fst shown, congrArg Prod.snd shown⟩

/-- A walk by a visitor that edits nothing leaves the tree as it was, even if a fault ends it. -/
theorem Visitor.Observes.holding {visitor : Visitor σ} (observes : visitor.Observes) (own : σ) :
    Holding Workspace.tree (Workspace.walk visitor own) := by
  intro space
  obtain ⟨result, after, outcome, runs⟩ := Workspace.walk_runs visitor own space
  rw [outcome]
  exact (runs.still fun visit member =>
    observes visit (Workspace.itinerary_made visitor own space visit member)).tree

end ShaderTree
