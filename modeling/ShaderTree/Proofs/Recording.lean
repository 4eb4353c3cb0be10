import ShaderTree.Proofs.Arena
import ShaderTree.Proofs.Visits

/-! A visitor that records its visits walks like the one without a record, so that the record can be
read as what the walk did. -/
namespace ShaderTree

theorem Arena.get?_eq_none_of_read {item : Item} {arena : Arena item α} {handle : Handle item}
    (missing : arena.read handle = .error fault) : arena.get? handle = none := by
  cases found : arena.get? handle with
  | none => rfl
  | some value => cases missing.symm.trans (read_eq_ok.mpr found)

theorem Tree.get?_eq_none_of_write {tree : Tree} {id : NodeId} (missing : tree.write id node = .error fault) :
    tree.nodes.get? id = none := by
  cases found : tree.nodes.get? id with
  | none => rfl
  | some old =>
    obtain ⟨nodes, written, _⟩ := Arena.write_spec node (Arena.get?_eq_some_lt found)
    simp [write, written, Bind.bind, Except.bind, Pure.pure, Except.pure] at missing

namespace WalkState

variable {state : WalkState (σ × List (Walk.Visit σ))}

@[simp] theorem plain_rebuilt : state.plain.rebuilt = state.rebuilt := rfl

end WalkState

namespace Walk

/-- From `state` on, the work with a record does what it does without one, and `holds` is true of the
visits that it records. -/
def Records (state : WalkState (σ × List (Visit σ))) (action : WalkM σ α) (recording : WalkM (σ × List (Visit σ)) α)
    (holds : List (Visit σ) → Except Fault α → WalkState σ → Prop) : Prop :=
  ∃ visits, (recording.run.run state).2.own.2 = state.own.2 ++ visits ∧
    action.run.run state.plain = ((recording.run.run state).1, (recording.run.run state).2.plain) ∧
    holds visits (recording.run.run state).1 (recording.run.run state).2.plain

namespace Records

variable {state : WalkState (σ × List (Visit σ))} {action : WalkM σ α} {recording : WalkM (σ × List (Visit σ)) α}
  {holds middle : List (Visit σ) → Except Fault α → WalkState σ → Prop}

theorem mono (records : Records state action recording middle)
    (weaker : ∀ visits result after, middle visits result after → holds visits result after) :
    Records state action recording holds := by
  obtain ⟨visits, record, same, known⟩ := records
  exact ⟨visits, record, same, weaker _ _ _ known⟩

theorem pure {value : α} (known : holds [] (.ok value) state.plain) :
    Records state (Pure.pure value) (Pure.pure value) holds :=
  ⟨[], (List.append_nil _).symm, rfl, known⟩

theorem throw {fault : Fault} (known : holds [] (.error fault) state.plain) :
    Records state (MonadExcept.throw fault) (MonadExcept.throw fault) holds :=
  ⟨[], (List.append_nil _).symm, rfl, known⟩

theorem bind {next : α → WalkM σ β} {recordingNext : α → WalkM (σ × List (Visit σ)) β}
    {holds : List (Visit σ) → Except Fault β → WalkState σ → Prop} (first : Records state action recording middle)
    (faults : ∀ visits fault after, middle visits (.error fault) after → holds visits (.error fault) after)
    (rest : ∀ visits value between, middle visits (.ok value) between.plain →
      Records between (next value) (recordingNext value) fun more result after => holds (visits ++ more) result after) :
    Records state (action >>= next) (recording >>= recordingNext) holds := by
  obtain ⟨visits, record, same, known⟩ := first
  simp only [Records, ExceptT.run_bind, StateT.run_bind, same]
  generalize recording.run.run state = outcome at *
  obtain ⟨result, between⟩ := outcome
  cases result with
  | error fault => exact ⟨visits, record, rfl, faults _ _ _ known⟩
  | ok value =>
    obtain ⟨more, further, again, holds⟩ := rest visits value between known
    refine ⟨visits ++ more, further.trans ?_, again, holds⟩
    rw [record, List.append_assoc]

theorem discard (records : Records state action recording middle)
    (answers : ∀ visits answer after, middle visits answer after → done visits (answer.map fun _ => ()) after) :
    Records state (Functor.discard action) (Functor.discard recording) done := by
  refine bind records (fun visits fault after => answers visits (.error fault) after) fun visits value between known => ?_
  refine pure ?_
  rw [List.append_nil]
  exact answers visits (.ok value) _ known

theorem read {next : WalkState σ → WalkM σ α}
    {recordingNext : WalkState (σ × List (Visit σ)) → WalkM (σ × List (Visit σ)) α}
    (rest : Records state (next state.plain) (recordingNext state) holds) :
    Records state (get >>= next) (get >>= recordingNext) holds := rest

theorem rebuild (change : Array NodeId → Array NodeId) :
    Records state (modify fun state => { state with rebuilt := change state.rebuilt })
      (modify fun state => { state with rebuilt := change state.rebuilt }) fun visits result after =>
        visits = [] ∧ result = .ok () ∧ after = { state.plain with rebuilt := change state.rebuilt } :=
  ⟨[], (List.append_nil _).symm, rfl, rfl, rfl, rfl⟩

theorem work (action : WorkM α) :
    Records state (Walk.work action) (Walk.work action) fun visits result after =>
      visits = [] ∧ ∃ space, action state.space = (result, space) ∧ after = { state.plain with space } :=
  ⟨[], (List.append_nil _).symm, rfl, rfl, _, rfl, rfl⟩

theorem setNode (id : NodeId) (value : Node) :
    Records state (Walk.work (Workspace.setNode id value)) (Walk.work (Workspace.setNode id value))
      fun visits result after => visits = [] ∧
        ((∃ tree, state.space.tree.write id value = .ok tree ∧ result = .ok () ∧
            after = { state.plain with space := { state.space with tree } }) ∨
          ∃ fault, state.space.tree.write id value = .error fault ∧ result = .error fault ∧ after = state.plain) := by
  refine (work _).mono ?_
  rintro _ result _ ⟨rfl, space, run, rfl⟩
  refine ⟨rfl, ?_⟩
  simp only [Workspace.setNode, Workspace.onTree, ExceptT.mk] at run
  cases written : state.space.tree.write id value with
  | ok tree =>
    rw [written] at run
    obtain ⟨rfl, rfl⟩ := Prod.mk.inj run
    exact .inl ⟨tree, rfl, rfl, rfl⟩
  | error fault =>
    rw [written] at run
    obtain ⟨rfl, rfl⟩ := Prod.mk.inj run
    exact .inr ⟨fault, rfl, rfl, rfl⟩

theorem node (id : NodeId) :
    Records state (Walk.work (Workspace.node id)) (Walk.work (Workspace.node id))
      fun visits result after => visits = [] ∧ result = state.space.tree.read id ∧ after = state.plain :=
  ⟨[], (List.append_nil _).symm, rfl, rfl, rfl, rfl⟩

theorem visit (visitor : Visitor σ) (moment : Moment) (site : Site) (id : NodeId) :
    Records state (visitor.visit moment site id) (visitor.recording.visit moment site id)
      fun visits answer after => visitor.visit moment site id state.plain = (answer, after) ∧
        visits = [⟨moment, site, id, state.plain, answer, after⟩] :=
  ⟨_, rfl, rfl, rfl, rfl⟩

end Records

section
variable {visitor : Visitor σ} {state : WalkState (σ × List (Visit σ))}

/-- A visit of a node with children is refused if the node is gone or has become a leaf. -/
theorem visitInner_records (moment : Moment) (site : Site) (id : NodeId) :
    Records state (visitInner visitor moment site id) (visitInner visitor.recording moment site id)
      (Asks visitor true moment site id state.plain) := by
  refine .bind (.node id) ?_ ?_
  · rintro _ fault _ ⟨rfl, missing, rfl⟩
    refine .refuse rfl fun node found => ?_
    cases missing.trans (Arena.read_eq_ok.mpr found)
  · rintro _ node between ⟨rfl, read, same⟩
    have standing : between.plain.space.tree.nodes.get? id = some node := same ▸ Arena.read_eq_ok.mp read.symm
    rw [← same]
    by_cases leaf : node.isLeaf = true
    · simp only [leaf, if_true]
      refine Records.throw (.refuse rfl fun other found => ?_)
      rwa [← Option.some.inj (standing.symm.trans found)]
    · simp only [leaf, Bool.false_eq_true, if_false]
      refine (Records.visit visitor moment site id).mono ?_
      rintro _ answer after ⟨visited, rfl⟩
      exact .visit rfl visited

theorem asks_records (visitor : Visitor σ) (wanted : Bool) (moment : Moment) (site : Site) (id : NodeId)
    (state : WalkState (σ × List (Visit σ))) :
    Records state (if wanted then visitInner visitor moment site id else pure true)
      (if wanted then visitInner visitor.recording moment site id else pure true)
      (Asks visitor wanted moment site id state.plain) := by
  cases wanted with
  | true => exact visitInner_records moment site id
  | false => exact .pure (.skip rfl)

section
variable {between : WalkM σ Bool} {recordingBetween : WalkM (σ × List (Visit σ)) Bool}
  {child : NodeId → WalkM σ Unit} {recordingChild : NodeId → WalkM (σ × List (Visit σ)) Unit}
  {effect : NodeId → Effect σ Unit} {site : Site} {owner : NodeId}

theorem siblings_records
    (asks : ∀ state, Records state between recordingBetween
      (Asks visitor visitor.visits.between .between site owner state.plain))
    (walks : ∀ id state, Records state (child id) (recordingChild id) (effect id state.plain)) (ids : List NodeId) :
    Records state (siblings between child ids) (siblings recordingBetween recordingChild ids)
      (Row visitor effect site owner false ids state.plain) := by
  induction ids generalizing state with
  | nil => exact .pure .done
  | cons id rest ih =>
    refine .bind (asks state) (fun gap fault after refused => .refuse refused) fun gap goesOn opened asked => ?_
    cases goesOn with
    | false =>
      refine .pure ?_
      rw [List.append_nil]
      exact .stop asked
    | true =>
      refine .bind (walks id opened) (fun visits fault after walked => .fault asked walked) ?_
      exact fun visits done further walked => ih.mono fun others result after rows => .next asked walked rows

theorem children_records
    (asks : ∀ state, Records state between recordingBetween
      (Asks visitor visitor.visits.between .between site owner state.plain))
    (walks : ∀ id state, Records state (child id) (recordingChild id) (effect id state.plain)) (ids : List NodeId) :
    Records state (children between child ids) (children recordingBetween recordingChild ids)
      (Row visitor effect site owner true ids state.plain) := by
  cases ids with
  | nil => exact .pure .done
  | cons id rest =>
    refine .bind (walks id state) (fun visits fault after walked => .fault (.skip rfl) walked) ?_
    intro visits done further walked
    exact (siblings_records asks walks rest).mono fun others result after rows => .next (.skip rfl) walked rows

theorem emits_records (walks : ∀ id state, Records state (child id) (recordingChild id) (effect id state.plain))
    (id : NodeId) (state : WalkState (σ × List (Visit σ))) :
    Records state (do child id; emit id) (do recordingChild id; emit id) (Emits (effect id) id state.plain) := by
  refine .bind (walks id state) (fun visits fault after walked => .fault walked) fun visits done after walked => ?_
  refine (Records.rebuild (·.push id)).mono ?_
  rintro _ _ _ ⟨rfl, rfl, rfl⟩
  rw [List.append_nil]
  exact .done walked

end

theorem block_records {child : NodeId → WalkM σ Unit} {recordingChild : NodeId → WalkM (σ × List (Visit σ)) Unit}
    {walk : Site → NodeId → Effect σ Unit} {site : Site} {id : NodeId} {statements : List NodeId}
    (found : state.space.tree.nodes.get? id = some (.block statements))
    (asks : ∀ state, Records state between recordingBetween
      (Asks visitor visitor.visits.between .between (site.enter id (.block statements)) id state.plain))
    (walks : ∀ statement state, Records state (child statement) (recordingChild statement)
      (walk (site.enter id (.block statements)) statement state.plain)) :
    Records state (block between child id statements) (block recordingBetween recordingChild id statements)
      (Inner visitor walk site id state.plain) := by
  refine .read (.bind (.rebuild fun _ => #[]) ?_ ?_)
  · rintro _ fault _ ⟨_, never, _⟩
    cases never
  rintro _ _ opened ⟨rfl, _, same⟩
  refine .bind (children_records asks (emits_records walks) statements) ?_ ?_
  · intro visits fault after row
    rw [same] at row
    exact .block found row .fault
  intro visits left closed row
  rw [same] at row
  refine .read (.bind (.rebuild fun _ => state.plain.rebuilt) ?_ ?_)
  · rintro _ fault _ ⟨_, never, _⟩
    cases never
  rintro _ _ restored ⟨rfl, _, back⟩
  have space : restored.space = closed.space := congrArg (fun state => state.space) back
  simp only [WalkState.plain_rebuilt, List.nil_append]
  by_cases more : closed.rebuilt.size + left.length > statements.length
  · simp only [more, if_true]
    refine .bind (.setNode id _) ?_ ?_
    · rintro _ fault _ ⟨rfl, ⟨_, _, never, _⟩ | ⟨_, missing, _, rfl⟩⟩
      · cases never
      · rw [space] at missing
        rw [back, List.append_nil]
        exact .block found row (.lost (Tree.get?_eq_none_of_write missing))
    · rintro _ _ after ⟨rfl, ⟨_, written, _, same⟩ | ⟨_, _, never, _⟩⟩
      · rw [space] at written
        have rebuilt : Inner visitor walk site id state.plain visits (.ok left) _ :=
          .block found row (.rebuilt more written)
        refine .pure ?_
        rw [same, space, back]
        simp only [List.append_nil]
        exact rebuilt
      · cases never
  · simp only [more, if_false]
    refine .pure ?_
    rw [back, List.append_nil]
    exact .block found row (.kept (Nat.le_of_not_lt more))

section
variable {walk : Site → NodeId → WalkM σ Unit} {recordingWalk : Site → NodeId → WalkM (σ × List (Visit σ)) Unit}
  {effect : Site → NodeId → Effect σ Unit}

theorem inside_records
    (walks : ∀ site id state, Records state (walk site id) (recordingWalk site id) (effect site id state.plain))
    (site : Site) (id : NodeId) :
    Records state (inside visitor walk site id) (inside visitor.recording recordingWalk site id)
      (Inside visitor effect site id state.plain) := by
  refine .bind (.node id) ?_ ?_
  · rintro _ fault _ ⟨rfl, missing, rfl⟩
    exact .fault (.missing (Arena.get?_eq_none_of_read missing.symm))
  rintro _ node opened ⟨rfl, read, same⟩
  have found : opened.plain.space.tree.nodes.get? id = some node := same ▸ Arena.read_eq_ok.mp read.symm
  rw [← same]
  have last (visits left closed) (within : Inner visitor effect site id opened.plain visits (.ok left) closed.plain) :
      Records closed
        (if left.isEmpty && visitor.visits.after then discard (visitInner visitor .after site id) else pure ())
        (if left.isEmpty && visitor.visits.after then discard (visitInner visitor.recording .after site id) else pure ())
        fun final result after => Inside visitor effect site id opened.plain (visits ++ final) result after := by
    by_cases wanted : (left.isEmpty && visitor.visits.after) = true
    · simp only [wanted, if_true]
      refine .discard (visitInner_records .after site id) fun final answer after asked => ?_
      exact .closed within (wanted ▸ asked)
    · have skipped : Asks visitor (left.isEmpty && visitor.visits.after) .after site id closed.plain [] (.ok true)
        closed.plain := .skip (eq_false_of_ne_true wanted)
      simp only [wanted]
      exact .pure (.closed within skipped)
  have asks := asks_records visitor visitor.visits.between .between (site.enter id node) id
  cases node with
  | block statements =>
    exact .bind (block_records found asks (walks _)) (fun _ _ _ => .fault) last
  | _ =>
    exact .bind ((children_records asks (walks _) _).mono fun _ _ _ => .plain found rfl) (fun _ _ _ => .fault) last

theorem step_records (depth : Nat)
    (walks : ∀ site id state, Records state (Walk.node visitor depth site id)
      (Walk.node visitor.recording depth site id) (effect site id state.plain))
    (site : Site) (id : NodeId) :
    Records state (Walk.node visitor (depth + 1) site id) (Walk.node visitor.recording (depth + 1) site id)
      (Step visitor effect site id state.plain) := by
  refine .bind (.node id) ?_ ?_
  · rintro _ fault _ ⟨rfl, missing, rfl⟩
    exact .missing (Arena.get?_eq_none_of_read missing.symm)
  rintro _ node opened ⟨rfl, read, same⟩
  have found : opened.plain.space.tree.nodes.get? id = some node := same ▸ Arena.read_eq_ok.mp read.symm
  rw [← same]
  by_cases leaf : node.isLeaf = true
  · simp only [leaf, if_true]
    refine .discard (.visit visitor .leaf site id) ?_
    rintro _ answer after ⟨visited, rfl⟩
    exact .leaf found leaf visited
  · have inner := eq_false_of_ne_true leaf
    simp only [inner, Bool.false_eq_true, if_false]
    have rest (first goesOn entered)
        (asked : Asks visitor visitor.visits.before .before site id opened.plain first (.ok goesOn) entered.plain) :
        Records entered (if goesOn then inside visitor (Walk.node visitor depth) site id else pure ())
          (if goesOn then inside visitor.recording (Walk.node visitor.recording depth) site id else pure ())
          fun more result after => Step visitor effect site id opened.plain (first ++ more) result after := by
      cases goesOn with
      | true => exact (inside_records walks site id).mono fun visits result after => .through found inner asked
      | false =>
        refine .pure ?_
        rw [List.append_nil]
        exact .barred found inner asked (by simp)
    by_cases wanted : visitor.visits.before = true
    · simp only [wanted, Visitor.recording, if_true]
      refine .bind (.visit visitor .before site id) ?_ ?_
      · rintro _ fault after ⟨visited, rfl⟩
        exact .barred found inner (.visit wanted visited) (by simp)
      · rintro _ goesOn entered ⟨visited, rfl⟩
        exact rest _ goesOn entered (.visit wanted visited)
    · simp only [wanted, Visitor.recording]
      exact rest [] true opened (.skip (eq_false_of_ne_true wanted))

end

theorem node_records (depth : Nat) (site : Site) (id : NodeId) :
    Records state (Walk.node visitor depth site id) (Walk.node visitor.recording depth site id)
      (Runs visitor depth site id state.plain) := by
  induction depth generalizing state site id with
  | zero => exact .throw ⟨rfl, rfl, rfl⟩
  | succ depth ih => exact step_records depth (fun site id state => ih site id) site id

end

end Walk

def WalkState.start (space : Workspace) (own : σ) : WalkState σ := { space, own }

/-- What a walk of the tree does is what its itinerary says. -/
theorem Workspace.walk_runs (visitor : Visitor σ) (own : σ) (space : Workspace) :
    ∃ (result : Except Fault Unit) (after : WalkState σ),
      (walk visitor own).run.run space = (result.map fun _ => after.own, after.space) ∧
      Walk.Runs visitor (space.tree.nodes.size + 1 + visitor.growth) {} space.tree.root (.start space own)
        (space.itinerary visitor own) result after := by
  let depth := space.tree.nodes.size + 1 + visitor.growth
  let recorded := (Walk.node visitor.recording depth {} space.tree.root).run.run { space, own := (own, []) }
  obtain ⟨visits, record, same, runs⟩ : Walk.Records { space, own := (own, []) } _ _ _ :=
    Walk.node_records depth {} space.tree.root
  have itinerary : space.itinerary visitor own = visits := record
  refine ⟨recorded.1, recorded.2.plain, ?_, itinerary ▸ runs⟩
  have outcome : Walk.node visitor depth {} space.tree.root { space, own } = (recorded.1, recorded.2.plain) := same
  simp only [Workspace.walk, ExceptT.run_mk, StateT.run]
  rw [outcome]
  cases recorded.1 <;> rfl

theorem Workspace.itinerary_made (visitor : Visitor σ) (own : σ) (space : Workspace) :
    ∀ visit ∈ space.itinerary visitor own, visit.MadeBy visitor := by
  obtain ⟨result, after, _, runs⟩ := walk_runs visitor own space
  exact runs.made

end ShaderTree
