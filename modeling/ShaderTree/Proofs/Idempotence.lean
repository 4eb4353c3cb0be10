import ShaderTree.Proofs.DepthFirst
import ShaderTree.Proofs.LocalNames

/-! To rename local structures once is enough. A walk decides by the uses that it has come to and by the names that
it finds, and the names that it gives are none that it would change: so a second walk, which comes to the same uses,
finds nothing to do. -/
namespace ShaderTree
namespace StructNames

variable {held next last : SymbolTable × State} {leaf : Site × Node} {leaves others : List (Site × Node)}
  {state : WalkState State} {site : Site} {id : NodeId} {node : Node} {handle : SymbolHandle} {symbol old new : Symbol}
  {tree : Tree} {term : Term}

/-! ### Traces -/

/-- What a leaf changes of what the walk holds. -/
inductive Settles (leaf : Site × Node) (held : SymbolTable × State) : SymbolTable × State → Prop where
  | idle (free : ∀ handle symbol, structOf? leaf.2 = some handle → held.1.pool.get? handle = some symbol →
      isLocal symbol = false) : Settles leaf held held
  | met {handle : SymbolHandle} {symbol : Symbol} {next : SymbolTable × State} (typed : structOf? leaf.2 = some handle)
      (found : held.1.pool.get? handle = some symbol) (inside : isLocal symbol = true)
      (notes : Notes leaf.1 handle symbol held.1 held.2 next) : Settles leaf held next

inductive Trace : SymbolTable × State → List (Site × Node) → SymbolTable × State → Prop where
  | nil {held : SymbolTable × State} : Trace held [] held
  | cons {leaf : Site × Node} {leaves : List (Site × Node)} {held next last : SymbolTable × State}
      (settles : Settles leaf held next) (rest : Trace next leaves last) : Trace held (leaf :: leaves) last

theorem Trace.append (first : Trace held leaves next) (second : Trace next others last) : Trace held (leaves ++ others) last := by
  induction first with
  | nil => exact second
  | cons settles _ ih => exact .cons settles (ih second)

structure Follows (old new : Symbol) : Prop where
  id : new.id = old.id
  isLocal : isLocal new = isLocal old
  isLed : isLed old = true → isLed new = true

theorem Follows.refl (symbol : Symbol) : Follows symbol symbol := ⟨rfl, rfl, fun led => led⟩

def FollowsOn (first second : SymbolTable) : Prop :=
  ∀ handle, Option.Rel Follows (first.pool.get? handle) (second.pool.get? handle)

namespace FollowsOn

theorem refl (table : SymbolTable) : FollowsOn table table := Arena.Matches.refl Follows.refl table.pool

theorem trans {first second third : SymbolTable} (earlier : FollowsOn first second) (later : FollowsOn second third) :
    FollowsOn first third :=
  Arena.Matches.trans (fun one other => ⟨other.id.trans one.id, other.isLocal.trans one.isLocal, other.isLed ∘ one.isLed⟩)
    earlier later

theorem later {first second : SymbolTable} (follows : FollowsOn first second) (found : first.pool.get? handle = some old) :
    ∃ new, second.pool.get? handle = some new ∧ Follows old new :=
  Arena.Matches.later follows found

theorem earlier {first second : SymbolTable} (follows : FollowsOn first second) (held : second.pool.get? handle = some new) :
    ∃ old, first.pool.get? handle = some old ∧ Follows old new :=
  Arena.Matches.earlier follows held

end FollowsOn

theorem Notes.follows (notes : Notes site handle symbol held.1 held.2 next) (found : held.1.pool.get? handle = some symbol) :
    FollowsOn held.1 next.1 := by
  cases notes with
  | keep | pass => exact .refl _
  | rename _ _ _ renamed others =>
    intro place
    by_cases here : place = handle
    · subst here
      rw [found, renamed]
      exact .some ⟨rfl, rfl, fun _ => isLed_fresh symbol⟩
    · rw [others place here]
      exact FollowsOn.refl held.1 place

theorem Settles.follows (settles : Settles leaf held next) : FollowsOn held.1 next.1 := by
  cases settles with
  | idle => exact .refl _
  | met _ found _ notes => exact notes.follows found

theorem Trace.follows (trace : Trace held leaves last) : FollowsOn held.1 last.1 := by
  induction trace with
  | nil => exact .refl _
  | cons settles _ ih => exact settles.follows.trans ih

/-! ### A second walk -/

/-- A use that was settled finds, at the end of the walk, nothing to change. -/
theorem Settles.again {again : SymbolTable × State} {kept : State} (settles : Settles leaf held next)
    (rest : FollowsOn next.1 last.1) (second : Settles leaf (last.1, kept) again) (same : kept.kept = held.2.kept) :
    again.1 = last.1 ∧ again.2.kept = next.2.kept := by
  have follows := settles.follows.trans rest
  cases settles with
  | idle free =>
    cases second with
    | idle => exact ⟨rfl, same⟩
    | met typed found inside =>
      obtain ⟨old, before, kin⟩ := follows.earlier found
      cases (free _ old typed before).symm.trans (kin.isLocal.symm.trans inside)
  | @met handle old _ typed before inside notes =>
    obtain ⟨new, found, kin⟩ := follows.later before
    cases second with
    | idle free => cases (free handle new typed found).symm.trans (kin.isLocal.trans inside)
    | @met handle' new' _ typed' found' _ notes' =>
      obtain rfl := Option.some.inj (typed.symm.trans typed')
      obtain rfl := Option.some.inj (found.symm.trans found')
      cases notes' with
      | keep outside =>
        cases notes with
        | keep => exact ⟨rfl, by rw [same, kin.id]⟩
        | pass deep | rename deep => exact absurd outside (Nat.not_le_of_lt deep)
      | pass deep =>
        cases notes with
        | keep outside => exact absurd outside (Nat.not_le_of_lt deep)
        | pass | rename => exact ⟨rfl, same⟩
      | rename deep unkept unled =>
        -- the first walk has given a name, if there was none that it would leave
        have led : isLed new = true := by
          cases notes with
          | keep outside => exact absurd outside (Nat.not_le_of_lt deep)
          | pass _ settled =>
            rw [same, kin.id] at unkept
            exact kin.isLed (settled.resolve_left unkept)
          | rename _ _ _ renamed =>
            obtain ⟨_, again, since⟩ := rest.later renamed
            obtain rfl := Option.some.inj (again.symm.trans found)
            exact since.isLed (isLed_fresh old)
        cases unled.symm.trans led

theorem Trace.again {second : SymbolTable × State} {kept : State} (first : Trace held leaves last)
    (trace : Trace (last.1, kept) leaves second) (same : kept.kept = held.2.kept) : second.1 = last.1 := by
  induction first generalizing kept with
  | nil =>
    cases trace
    rfl
  | @cons leaf leaves held next last settles rest ih =>
    cases trace with
    | @cons _ _ _ between _ settled others =>
      obtain ⟨table, kept⟩ := settles.again rest.follows settled same
      obtain ⟨_, state⟩ := between
      obtain rfl : _ = last.1 := table
      exact ih others kept

/-! ### At most once -/

def ledAt (handle : SymbolHandle) (table : SymbolTable) : Bool := (table.pool.get? handle).any isLed

def renames (handle : SymbolHandle) (first second : SymbolTable) : Bool :=
  (first.pool.get? handle).map Symbol.rawName != (second.pool.get? handle).map Symbol.rawName

def renamesAt (handle : SymbolHandle) (visit : Walk.Visit State) : Bool :=
  renames handle visit.before.space.table visit.after.space.table

/-- A change makes the name one of those given, and such a name stays. -/
theorem Notes.ledAt {place : SymbolHandle} {table : SymbolTable} {own : State}
    (notes : Notes site place symbol table own next) (found : table.pool.get? place = some symbol) (handle : SymbolHandle) :
    (renames handle table next.1).toNat + (ledAt handle table).toNat ≤ (ledAt handle next.1).toNat := by
  cases notes with
  | keep | pass => simp [renames]
  | rename _ _ unled renamed others =>
    by_cases here : handle = place
    · subst here
      have led := isLed_fresh symbol
      simp [StructNames.ledAt, found, renamed, unled, led, Bool.toNat_le]
    · simp [renames, StructNames.ledAt, others handle here]

theorem visit_ledAt {visit : Walk.Visit State} {answer : Bool} (made : visit.MadeBy visitor)
    (answered : visit.answer = .ok answer) (handle : SymbolHandle) :
    (renamesAt handle visit).toNat + (ledAt handle visit.before.space.table).toNat ≤
      (ledAt handle visit.after.space.table).toNat := by
  obtain ⟨_, ⟨_, same⟩ | ⟨place, symbol, meets, notes⟩⟩ := visit_ends made answered
  · have table : visit.after.space.table = visit.before.space.table := congrArg Prod.fst same
    simp [renamesAt, renames, table]
  · exact notes.ledAt meets.found handle

/-- Each visit that changes a name spends what no other can. -/
theorem countP_renamesAt {start final : WalkState State} {visits : List (Walk.Visit State)}
    (linked : Walk.Linked start visits final)
    (each : ∀ visit ∈ visits, visit.MadeBy visitor ∧ ∃ answer, visit.answer = .ok answer) (handle : SymbolHandle) :
    visits.countP (renamesAt handle) + (ledAt handle start.space.table).toNat ≤
      (ledAt handle final.space.table).toNat := by
  induction visits generalizing start with
  | nil =>
    have same : final.space.table = start.space.table := congrArg Prod.fst linked
    simp [same]
  | cons visit rest ih =>
    obtain ⟨⟨made, answer, answered⟩, others⟩ := List.forall_mem_cons.mp each
    have found : visit.before.space.table = start.space.table := congrArg Prod.fst linked.1
    have own := visit_ledAt made answered handle
    have later := ih linked.2 others
    rw [List.countP_cons, ← found]
    cases changes : renamesAt handle visit with
    | true => simp [changes] at own ⊢; omega
    | false => simp [changes] at own ⊢; omega

/-! ### Walks -/

theorem met_ends (site : Site) (found : state.space.table.pool.get? handle = some symbol) :
    ∃ after, Ends (met site handle symbol) state () after := by
  apply Ends.exists_bind (Ends.own_iff.mpr ⟨rfl, rfl⟩)
  split
  · exact ⟨_, Ends.modify _ _⟩
  split
  · obtain ⟨pool, renamed, _⟩ := SymbolTable.rename_spec found (fresh symbol)
    have done : (do return ((), ← state.space.table.rename handle (fresh symbol)) : Except Fault (Unit × SymbolTable)) =
        .ok ((), { state.space.table with pool }) := bind_eq_ok.mpr ⟨_, renamed, rfl⟩
    apply Ends.exists_bind (Ends.work (Ends.modify _ _))
    apply Ends.exists_bind (Ends.work (Ends.onTable done))
    exact ⟨_, Ends.modify _ _⟩
  · exact ⟨_, Ends.pure _ _⟩

theorem visit_leaf_ends (site : Site) (stands : state.space.tree.nodes.get? id = some node)
    (resolves : ∀ handle, structOf? node = some handle → ∃ symbol, state.space.table.pool.get? handle = some symbol) :
    ∃ after, Ends (visit .leaf site id) state true after := by
  have fetched : Ends (Walk.work (Workspace.node id)) state node state :=
    Ends.reads_iff.mpr ⟨Arena.read_eq_ok.mpr stands, rfl⟩
  rw [visit, if_pos rfl]
  apply fetched.exists_bind
  split
  case h_1 handle typed =>
    obtain ⟨symbol, found⟩ := resolves handle typed
    apply Ends.exists_bind (Ends.reads_iff.mpr ⟨Arena.read_eq_ok.mpr found, rfl⟩)
    split
    · obtain ⟨after, ends⟩ := met_ends site found
      exact ⟨after, ends.bind (Ends.pure _ _)⟩
    · exact ⟨_, Ends.pure _ _⟩
  case h_2 => exact ⟨_, Ends.pure _ _⟩

/-- A walk that comes to the leaf goes on, and holds what the leaf makes of what was held. -/
theorem visit_settles (site : Site) (stands : state.space.tree.nodes.get? id = some node)
    (resolves : ∀ handle, structOf? node = some handle → ∃ symbol, state.space.table.pool.get? handle = some symbol) :
    ∃ after, Ends (visit .leaf site id) state true after ∧ after.space.tree = state.space.tree ∧
      Settles (site, node) state.held after.held := by
  obtain ⟨after, ends⟩ := visit_leaf_ends site stands resolves
  have made : Walk.Visit.MadeBy visitor ⟨.leaf, site, id, state, .ok true, after⟩ := ends
  refine ⟨after, ends, (visitor_observes _ made).tree, ?_⟩
  obtain ⟨_, ⟨free, same⟩ | ⟨handle, symbol, meets, notes⟩⟩ := visit_ends made rfl
  · rw [same]
    refine .idle fun handle symbol typed found => ?_
    by_contra inside
    exact free handle symbol ⟨rfl, by rw [stands]; exact typed, found, by simpa using inside⟩
  · have typed := meets.typed
    rw [stands] at typed
    exact .met typed meets.found meets.isLocal notes

end StructNames

def Journal.held (journal : Journal σ) : SymbolTable × σ := (journal.space.table, journal.own)

theorem Journal.call_ends {visitor : Visitor σ} {moment : Moment} {site : Site} {id : NodeId} {walked : List NodeId}
    {journal : Journal σ} {answer : Bool} {after : WalkState σ}
    (ends : Ends (visitor.visit moment site id) { space := journal.space, rebuilt := walked.toArray, own := journal.own }
      answer after) :
    Ends (Journal.call visitor ⟨moment, site, id, walked⟩) journal answer
      { space := after.space, own := after.own, calls := journal.calls ++ [⟨moment, site, id, walked⟩] } := by
  have visited : visitor.visit moment site id
      { space := journal.space, rebuilt := walked.toArray, own := journal.own } = (.ok answer, after) := ends
  simp only [Ends, Journal.call, ExceptT.run_mk, StateT.run]
  rw [visited]

/-- Variables in the piece are typed with structures of the table only. -/
def Term.StructsResolve (table : SymbolTable) (term : Term) : Prop :=
  ∀ piece ∈ term.pieces, ∀ handle, StructNames.structOf? piece.node = some handle →
    ∃ symbol, table.pool.get? handle = some symbol

namespace Term

open StructNames (Trace FollowsOn)

variable {term : Term} {tree : Tree} {table : SymbolTable} {id : NodeId} {node : Node} {parts : List Term}

theorem StructsResolve.part {part : Term} (resolves : (mk id node parts).StructsResolve table) (member : part ∈ parts) :
    part.StructsResolve table :=
  fun piece inside => resolves piece (mem_pieces_of_part member inside)

theorem StructsResolve.follows {after : SymbolTable} (resolves : term.StructsResolve table) (follows : FollowsOn table after) :
    term.StructsResolve after := by
  intro piece member handle typed
  obtain ⟨symbol, found⟩ := resolves piece member handle typed
  obtain ⟨new, held, _⟩ := follows.later found
  exact ⟨new, held⟩

def leafNodes (site : Site) (term : Term) : List (Site × Node) :=
  (term.leaves site).map fun (place, piece) => (place, piece.node)

def Traces (tree : Tree) (leaves : List (Site × Node)) (program : JournalM StructNames.State α) (value : α)
    (journal : Journal StructNames.State) : Prop :=
  ∃ after, Ends program journal value after ∧ after.space.tree = tree ∧ Trace journal.held leaves after.held

namespace Traces

variable {leaves others : List (Site × Node)} {program : JournalM StructNames.State α} {value : α} {result : β}
  {next : α → JournalM StructNames.State β} {journal : Journal StructNames.State}

theorem pure (same : journal.space.tree = tree) (value : α) :
    Traces tree [] (Pure.pure value : JournalM StructNames.State α) value journal :=
  ⟨journal, Ends.pure _ _, same, .nil⟩

theorem bind (first : Traces tree leaves program value journal)
    (rest : ∀ after, after.space.tree = tree → FollowsOn journal.space.table after.space.table →
      Traces tree others (next value) result after) : Traces tree (leaves ++ others) (program >>= next) result journal := by
  obtain ⟨between, ends, same, trace⟩ := first
  obtain ⟨after, finishes, left, traces⟩ := rest between same trace.follows
  exact ⟨after, ends.bind finishes, left, trace.append traces⟩

theorem discard (traces : Traces tree leaves program value journal) :
    Traces tree leaves (Functor.discard program) () journal := by
  rw [← List.append_nil leaves]
  exact traces.bind fun _ same _ => .pure same ()

end Traces

theorem call_leaf_traces {journal : Journal StructNames.State} (stands : journal.space.tree.nodes.get? id = some node)
    (resolves : ∀ handle, StructNames.structOf? node = some handle → ∃ symbol, journal.space.table.pool.get? handle = some symbol)
    (site : Site) (walked : List NodeId) : Traces journal.space.tree [(site, node)]
      (Journal.call StructNames.visitor ⟨.leaf, site, id, walked⟩) true journal := by
  let state : WalkState StructNames.State := { space := journal.space, rebuilt := walked.toArray, own := journal.own }
  have found : state.space.tree.nodes.get? id = some node := stands
  obtain ⟨after, ends, same, settles⟩ := StructNames.visit_settles site found resolves
  exact ⟨_, Journal.call_ends ends, same, .cons settles .nil⟩

/-- Calls for other nodes are answered, and trace nothing. -/
theorem call_inner_traces {journal : Journal StructNames.State} (same : journal.space.tree = tree) {moment : Moment}
    (inner : moment ≠ .leaf) (site : Site) (walked : List NodeId) :
    Traces tree [] (Journal.call StructNames.visitor ⟨moment, site, id, walked⟩) true journal := by
  let state : WalkState StructNames.State := { space := journal.space, rebuilt := walked.toArray, own := journal.own }
  have visited : Ends (StructNames.visit moment site id) state true state := by
    rw [StructNames.visit, if_neg inner]
    exact Ends.pure true state
  exact ⟨_, Journal.call_ends visited, same, .nil⟩

theorem ask_between (first : Bool) (entry : Call) :
    Journal.ask StructNames.visitor (!first && StructNames.visitor.visits.between) entry = Pure.pure true := by
  cases first <;> rfl

theorem depthFirstParts_traces {place : Site} (each : ∀ part ∈ parts, ∀ walked (journal : Journal StructNames.State),
      journal.space.tree = tree → part.StructsResolve journal.space.table →
        Traces tree (part.leafNodes place) (part.depthFirst StructNames.visitor place walked) () journal)
    (owner : NodeId) (inBlock first : Bool) (walked : List NodeId) (journal : Journal StructNames.State)
    (same : journal.space.tree = tree) (resolves : ∀ part ∈ parts, part.StructsResolve journal.space.table) :
    Traces tree (parts.flatMap (leafNodes place))
      (depthFirstParts StructNames.visitor place owner inBlock first walked parts) true journal := by
  induction parts generalizing first walked journal with
  | nil =>
    rw [depthFirstParts]
    exact .pure same true
  | cons part rest ih =>
    obtain ⟨here, others⟩ := List.forall_mem_cons.mp each
    obtain ⟨own, later⟩ := List.forall_mem_cons.mp resolves
    rw [depthFirstParts, ask_between, pure_bind, if_pos rfl, List.flatMap_cons]
    apply (here walked journal same own).bind
    intro after still follows
    exact ih others false _ after still fun other member => (later other member).follows follows

/-- A depth-first tour traces the leaves from left to right. -/
theorem depthFirst_traces (stands : term.Of tree) (site : Site) (walked : List NodeId)
    (journal : Journal StructNames.State) (same : journal.space.tree = tree) (resolves : term.StructsResolve journal.space.table) :
    Traces tree (term.leafNodes site) (term.depthFirst StructNames.visitor site walked) () journal := by
  induction term using Term.induct generalizing site walked journal with
  | step id node parts ih =>
    rw [depthFirst]
    cases leaf : node.isLeaf with
    | true =>
      rw [if_pos rfl, leafNodes, leaves_leaf leaf]
      have found : journal.space.tree.nodes.get? id = some node := same ▸ stands.found
      subst same
      exact (call_leaf_traces found (resolves _ (mem_pieces_self _)) site walked).discard
    | false =>
      rw [if_neg (by decide), leafNodes, leaves_inner leaf, List.map_flatMap]
      rw [← List.nil_append (List.flatMap _ _), ← List.append_nil (List.flatMap _ _)]
      apply Traces.bind (call_inner_traces same (by decide) site walked)
      intro opened still follows
      rw [if_pos rfl]
      apply (depthFirstParts_traces _ id node.isBlock true _ opened still ?_).bind
      · intro closed done _
        rw [if_pos rfl]
        exact .pure done ()
      · intro part member walked journal same resolves
        exact ih part member (stands.parts member) _ walked journal same resolves
      · intro part member
        exact (resolves.part member).follows follows

end Term

namespace Workspace

open StructNames (renamesAt structOf?)

variable {space : Workspace} {term : Term}

/-- The walk ends if the structures are in the table, and traces the leaves of the tree. -/
theorem renameStructs_traces (root : term.id = space.tree.root) (stands : term.Of space.tree)
    (resolves : term.StructsResolve space.table) : ∃ (after : Workspace) (state : StructNames.State),
      Ends renameStructs space () after ∧ after.tree = space.tree ∧
        StructNames.Trace (space.table, {}) (term.leafNodes {}) (after.table, state) := by
  obtain ⟨result, last, outcome, runs⟩ := walk_runs StructNames.visitor {} space
  have each : ∀ visit ∈ space.itinerary StructNames.visitor {}, visit.Observes := fun visit member =>
    StructNames.visitor_observes visit (itinerary_made _ _ space visit member)
  rw [← root] at runs
  have deep : term.height ≤ space.tree.nodes.size + 1 + StructNames.visitor.growth := by
    have low := stands.height_le_size
    omega
  obtain ⟨journal, ends, same, trace⟩ := term.depthFirst_traces stands {} [] { space, own := {} } rfl resolves
  have plays := (runs.plays deep each stands []).symm.trans ends
  obtain ⟨rfl, rfl⟩ := Prod.mk.inj plays
  have walked : Ends (walk StructNames.visitor {}) space last.own last.space := outcome
  exact ⟨_, last.own, walked.bind (Ends.modify _ _), same, trace⟩

theorem renameStructs_renamesAt {after : Workspace} (ends : Ends renameStructs space () after) (handle : SymbolHandle) :
    (space.itinerary StructNames.visitor {}).countP (renamesAt handle) ≤ 1 := by
  obtain ⟨own, between, walks, _⟩ := Ends.bind_iff.mp ends
  obtain ⟨last, _, linked, each, _⟩ := walk_ends walks
  have spent := StructNames.countP_renamesAt linked each handle
  have bound := Bool.toNat_le (StructNames.ledAt handle last.space.table)
  omega

/-- To rename local structures a second time is to do nothing: the table stays as it is. No structure is
renamed by two visits of a walk. -/
theorem renameStructs_idempotent (unshared : space.tree.Unshared) (inside : space.tree.root.index < space.tree.nodes.size)
    (resolves : ∀ id node handle, space.tree.Reachable id → space.tree.nodes.get? id = some node →
      structOf? node = some handle → ∃ symbol, space.table.pool.get? handle = some symbol) :
    ∃ once twice : Workspace, Ends renameStructs space () once ∧ Ends renameStructs once () twice ∧
      once.tree = space.tree ∧ twice.tree = space.tree ∧ twice.table = once.table ∧
      ∀ handle, (space.itinerary StructNames.visitor {}).countP (renamesAt handle) ≤ 1 := by
  obtain ⟨term, root, stands, _⟩ := unshared.exists_term inside
  have resolves : term.StructsResolve space.table := fun piece member handle typed =>
    resolves piece.id piece.node handle ((stands.reachable_iff_piece root).mpr ⟨piece, member, rfl⟩)
      (stands.of_mem_pieces member).found typed
  obtain ⟨once, state, ends, same, trace⟩ := renameStructs_traces root stands resolves
  have standing : term.Of once.tree := same ▸ stands
  have resolved : term.StructsResolve once.table := resolves.follows trace.follows
  obtain ⟨twice, _, again, still, second⟩ := renameStructs_traces (same ▸ root) standing resolved
  exact ⟨once, twice, ends, again, same, still.trans same, trace.again second rfl, renameStructs_renamesAt ends⟩

/-- The first use gives the structure of `Compiler.laterUse` its name, and the use in the global scope leaves
it. -/
theorem renameStructs_idempotent_laterUse : Compiler.laterUse.tree.Unshared ∧
    (Compiler.laterUse.itinerary StructNames.visitor {}).countP (renamesAt ⟨1⟩) = 1 ∧
    ∃ once twice : Workspace, Ends renameStructs Compiler.laterUse () once ∧ Ends renameStructs once () twice ∧
      twice.table = once.table ∧
      once.table.pool.items.toList.map Symbol.rawName = ["main", "_w_struct_97_S", "a", "g"] := by
  have accepted : Compiler.laterUse.tree.validate Compiler.laterUse.table .all = .ok () := by decide +kernel
  have changes : (Compiler.laterUse.itinerary StructNames.visitor {}).countP (renamesAt ⟨1⟩) = 1 := by decide +kernel
  have names : (renameStructs.run.run Compiler.laterUse).2.table.pool.items.toList.map Symbol.rawName =
      ["main", "_w_struct_97_S", "a", "g"] := by
    decide +kernel
  obtain ⟨term, root, stands, valid⟩ := Tree.validate_iff.mp accepted
  have unshared := stands.unshared root (valid.nodup rfl)
  have typed : ∀ node ∈ Compiler.laterUse.tree.nodes.items, ∀ handle ∈ structOf? node,
      (Compiler.laterUse.table.pool.get? handle).isSome := by
    decide
  obtain ⟨once, twice, first, second, _, _, same, _⟩ := renameStructs_idempotent unshared (by decide)
    fun id node handle _ found struct => Option.isSome_iff_exists.mp (typed node (Array.mem_of_getElem? found) handle struct)
  have outcome : renameStructs.run.run Compiler.laterUse = (.ok (), once) := first
  rw [outcome] at names
  exact ⟨unshared, changes, once, twice, first, second, same, names⟩

end Workspace
end ShaderTree
