import ShaderTree.Proofs.Scalarizes

/-! The walk of the scalarization pass ends and does what `Scalarizes` says, on every
piece whose constructors have typed arguments and are accepted where they mix vectors
with matrices. The induction follows the piece; nodes outside of it stay, so the walks
of one node's children go one after the other. -/
namespace ShaderTree

/-- The arguments of a constructor are expressions, and they fill it where it mixes vectors with
matrices. -/
def Term.Constructs (term : Term) : Prop :=
  ∀ ids ty, term.node = .aggregate .construct ids ty →
    ∃ types, term.parts.map Term.ty? = types.map some ∧ (ty.mixes types = true →
      (∀ type ∈ types, type.hasComponents = true) ∧ Fills ty.components (types.map Ty.components))

theorem Term.Constructs.types {id : NodeId} {ids : List NodeId} {ty : Ty} {parts : List Term}
    (constructs : (mk id (.aggregate .construct ids ty) parts).Constructs) :
    ∃ types, parts.map Term.ty? = types.map some ∧ (ty.mixes types = true →
      (∀ type ∈ types, type.hasComponents = true) ∧ Fills ty.components (types.map Ty.components)) :=
  constructs ids ty rfl

namespace Scalarize

/-- What the walk of `terms` does to its state; `emitted` goes into the open block. -/
structure Walked (terms : List Term) (results : List Rewriting) (emitted : List Term)
    (before after : WalkState Nat) (fresh : List NodeId) : Prop where
  scalarizes : Scalarizes after.space.table.pool before.space.table.pool.size terms fresh results
    after.space.table.pool.size
  changes : Tree.Changes before.space.tree after.space.tree (terms.flatMap Term.ids) fresh
  stand : ∀ term ∈ results.flatMap Rewriting.statements, term.Of after.space.tree
  rebuilt : after.rebuilt = before.rebuilt ++ (emitted.map Term.id).toArray
  table : before.space.table.Grows after.space.table

namespace Walked

variable {before between after : WalkState Nat} {terms moreTerms : List Term}
  {results moreResults : List Rewriting} {emitted moreEmitted : List Term} {fresh moreFresh : List NodeId}

theorem nil (state : WalkState Nat) : Walked [] [] [] state state [] := by
  refine ⟨.nil _, .refl _, by simp, ?_, .refl _⟩
  simp

theorem append (earlier : Walked terms results emitted before between fresh)
    (later : Walked moreTerms moreResults moreEmitted between after moreFresh)
    (bounded : ∀ id ∈ moreTerms.flatMap Term.ids, id.index < before.space.tree.nodes.size)
    (apart : ∀ id ∈ terms.flatMap Term.ids, id ∉ moreTerms.flatMap Term.ids) :
    Walked (terms ++ moreTerms) (results ++ moreResults) (emitted ++ moreEmitted) before after
      (fresh ++ moreFresh) := by
  refine ⟨(earlier.scalarizes.mono later.table.pool).append later.scalarizes, ?_, ?_, ?_,
    earlier.table.trans later.table⟩
  · rw [List.flatMap_append]
    exact earlier.changes.trans later.changes
  · rw [List.flatMap_append]
    intro term member
    rcases List.mem_append.mp member with old | new
    · refine later.changes.of (earlier.stand term old) fun id inside touched => ?_
      have origin := earlier.scalarizes.perm.mem_iff.mp (List.mem_flatMap.mpr ⟨term, old, inside⟩)
      rcases List.mem_append.mp origin with own | added
      · exact apart id own touched
      · have := ((earlier.changes.fresh id).mp added).1
        have := bounded id touched
        omega
    · exact later.stand term new
  · rw [later.rebuilt, earlier.rebuilt, List.map_append, ← List.append_toArray, Array.append_assoc]

end Walked
def Chain (child : NodeId → ScalarizeM Unit) : List NodeId → WalkState Nat → WalkState Nat → Prop
  | [], before, after => before = after
  | id :: rest, before, after =>
    ∃ between, Ends (child id) before () between ∧ Chain child rest between after

theorem siblings_ends {child : NodeId → ScalarizeM Unit} {ids : List NodeId} {before after : WalkState Nat}
    (chain : Chain child ids before after) : Ends (Walk.siblings (pure true) child ids) before [] after := by
  induction ids generalizing before with
  | nil =>
    obtain rfl := chain
    exact .pure _ _
  | cons id ids ih =>
    obtain ⟨between, one, others⟩ := chain
    exact .bind (.pure true before) (one.bind (ih others))

theorem children_ends {child : NodeId → ScalarizeM Unit} {ids : List NodeId} {before after : WalkState Nat}
    (chain : Chain child ids before after) : Ends (Walk.children (pure true) child ids) before [] after := by
  cases ids with
  | nil =>
    obtain rfl := chain
    exact .pure _ _
  | cons id ids =>
    obtain ⟨between, one, others⟩ := chain
    exact one.bind (siblings_ends others)

theorem chain_same {child : NodeId → ScalarizeM Unit} {state : WalkState Nat} {terms : List Term}
    (same : ∀ term ∈ terms, Ends (child term.id) state () state) :
    Chain child (terms.map Term.id) state state := by
  induction terms with
  | nil => rfl
  | cons term terms ih =>
    exact ⟨state, same term List.mem_cons_self, ih fun term later => same term (List.mem_cons_of_mem _ later)⟩

section
variable {depth : Nat} {site : Site} {id : NodeId} {node : Node} {before between after : WalkState Nat}

theorem node_ends (found : before.space.tree.nodes.get? id = some node) :
    Ends (Walk.work (Workspace.node id) : ScalarizeM Node) before node before :=
  .work (.inspect (Arena.read_eq_ok.mpr found))

theorem visit_other (moment : Moment) (found : before.space.tree.nodes.get? id = some node)
    (other : ∀ op arguments ty, node ≠ .aggregate op arguments ty) :
    Ends (visit moment site id) before true before := by
  refine .bind (node_ends found) ?_
  cases node with
  | aggregate op arguments ty => exact absurd rfl (other op arguments ty)
  | _ => exact .pure _ _

theorem walk_leaf (found : before.space.tree.nodes.get? id = some node) (leaf : node.isLeaf = true) :
    Ends (Walk.node visitor (depth + 1) site id) before () before := by
  refine .bind (node_ends found) ?_
  simp only [leaf, if_true]
  refine .bind (visit_other .leaf found ?_) (.pure _ _)
  rintro op arguments ty rfl
  cases leaf

theorem walk_inner (found : before.space.tree.nodes.get? id = some node) (inner : node.isLeaf = false)
    (visited : Ends (visit .before site id) before true between)
    (walked : Ends (Walk.inside visitor (Walk.node visitor depth) site id) between () after) :
    Ends (Walk.node visitor (depth + 1) site id) before () after := by
  refine .bind (node_ends found) ?_
  simp only [inner, Bool.false_eq_true, if_false]
  exact visited.bind walked

theorem inside_children (found : before.space.tree.nodes.get? id = some node) (inner : node.isBlock = false)
    (chain : Chain (Walk.node visitor depth (site.enter id node)) node.children before after) :
    Ends (Walk.inside visitor (Walk.node visitor depth) site id) before () after := by
  refine .bind (node_ends found) ?_
  cases node with
  | block => cases inner
  | _ => exact (children_ends chain).bind (.pure _ _)

end

/-- A piece without constructors, calls and blocks stays as it is. -/
theorem walk_plain {term : Term} {state : WalkState Nat} {site : Site} {depth : Nat}
    (stands : term.Of state.space.tree) (deep : term.height ≤ depth)
    (plain : term.All fun part => part.node.isBlock = false ∧
      ∀ op arguments ty, part.node ≠ .aggregate op arguments ty) :
    Ends (Walk.node visitor depth site term.id) state () state := by
  induction term using Term.induct generalizing site depth with
  | step id node parts ih =>
    have found := stands.found
    obtain _ | depth := depth
    · rw [Term.height_mk] at deep
      omega
    · by_cases leaf : node.isLeaf = true
      · exact walk_leaf found leaf
      · refine walk_inner found (eq_false_of_ne_true leaf) (visit_other .before found plain.own.2) ?_
        refine inside_children found plain.own.1 ?_
        rw [stands.children]
        refine chain_same fun part member => ?_
        have lower := Term.height_lt member
        exact ih part member (stands.parts member) (by omega) (plain.parts part member)

theorem walk_access {term : Term} {state : WalkState Nat} {site : Site} {depth : Nat}
    (access : Access handle ty path element term) (short : path.length + 1 ≤ depth)
    (stands : term.Of state.space.tree) : Ends (Walk.node visitor depth site term.id) state () state := by
  refine walk_plain stands (Nat.le_trans access.height_le short) ?_
  clear stands short
  induction access with
  | use id => exact .mk (by simp [Term.node, Node.isBlock]) (by simp)
  | index id constant inner _ _ ih =>
    refine .mk (by simp [Term.node, Node.isBlock]) fun part member => ?_
    rcases List.mem_pair.mp member with rfl | rfl
    · exact ih
    · exact .mk (by simp [Term.node, Node.isBlock]) (by simp)

/-- Parts are walked one after the other, since the walk of one leaves the others as they are. -/
theorem parts_walked (child : NodeId → ScalarizeM Unit) (emit : Rewriting → List Term)
    {parts : List Term} (before : WalkState Nat)
    (walks : ∀ part ∈ parts, ∀ state : WalkState Nat, part.Of state.space.tree →
      ∃ result fresh after, Ends (child part.id) state () after ∧
        Walked [part] [result] (emit result) state after fresh)
    (stand : ∀ part ∈ parts, part.Of before.space.tree) (nodup : (parts.flatMap Term.ids).Nodup) :
    ∃ results fresh after, Chain child (parts.map Term.id) before after ∧
      Walked parts results (results.flatMap emit) before after fresh := by
  induction parts generalizing before with
  | nil => exact ⟨[], [], before, rfl, .nil before⟩
  | cons part parts ih =>
    rw [List.flatMap_cons, List.nodup_append'] at nodup
    obtain ⟨own, rest, apart⟩ := nodup
    obtain ⟨result, fresh, between, done, one⟩ := walks part List.mem_cons_self before
      (stand part List.mem_cons_self)
    have touched : [part].flatMap Term.ids = part.ids := List.flatMap_singleton ..
    have standing : ∀ other ∈ parts, other.Of between.space.tree := by
      intro other later
      refine one.changes.of (stand other (List.mem_cons_of_mem _ later)) fun id inside own => ?_
      rw [touched] at own
      exact apart own (List.mem_flatMap.mpr ⟨other, later, inside⟩)
    obtain ⟨results, moreFresh, after, chain, others⟩ := ih between
      (fun other later => walks other (List.mem_cons_of_mem _ later)) standing rest
    refine ⟨result :: results, fresh ++ moreFresh, after, ⟨between, done, chain⟩, ?_⟩
    refine one.append others ?_ ?_
    · intro id member
      obtain ⟨other, later, inside⟩ := List.mem_flatMap.mp member
      exact (stand other (List.mem_cons_of_mem _ later)).bounded id inside
    · intro id member
      rw [touched] at member
      exact fun other => apart member other

theorem Walked.keep {id : NodeId} {node : Node} {parts : List Term} {before after : WalkState Nat}
    {results : List Rewriting} {fresh : List NodeId}
    (walked : Walked parts results (results.flatMap Rewriting.moved) before after fresh)
    (plain : (Term.mk id node parts).mixes = false) (inner : node.isBlock = false)
    (stands : (Term.mk id node parts).Of before.space.tree) (nodup : (Term.mk id node parts).ids.Nodup) :
    Walked [.mk id node parts] [⟨results.flatMap Rewriting.moved, .mk id node (results.map Rewriting.term)⟩]
      (results.flatMap Rewriting.moved) before after fresh := by
  rw [Term.ids_mk, List.nodup_cons] at nodup
  have order := Scalarizes.statements_perm results
  refine ⟨?_, walked.changes.weaken fun other inside => .inr ?_, ?_, walked.rebuilt, walked.table⟩
  · have whole := Scalarizes.keep plain inner walked.scalarizes (.nil _)
    rwa [List.append_nil] at whole
  · rw [List.flatMap_singleton, Term.ids_mk]
    exact List.mem_cons_of_mem _ inside
  · intro term member
    simp only [List.flatMap_singleton, Rewriting.statements, List.mem_append, List.mem_singleton] at member
    rcases member with moved | rfl
    · exact walked.stand term (order.mem_iff.mp (List.mem_append_left _ moved))
    · refine .mk ?_ ?_ fun part inside =>
        walked.stand part (order.mem_iff.mp (List.mem_append_right _ inside))
      · have found := stands.found
        exact (walked.changes.kept id (Arena.get?_eq_some_lt found) nodup.1).trans found
      · exact stands.children.trans walked.scalarizes.ids.symm

/-- A statement walked is put into the open block, behind what it sends up. -/
theorem emit_walked {child : NodeId → ScalarizeM Unit} {part : Term} {before after : WalkState Nat}
    (done : Ends (child part.id) before () after)
    (walked : Walked [part] [result] result.moved before after fresh) :
    ∃ final, Ends (do child part.id; Walk.emit part.id : ScalarizeM Unit) before () final ∧
      Walked [part] [result] result.statements before final fresh := by
  refine ⟨{ after with rebuilt := after.rebuilt.push part.id }, done.bind (.modify _ _), ?_⟩
  refine ⟨walked.scalarizes, walked.changes, walked.stand, ?_, walked.table⟩
  have same := walked.scalarizes.ids
  simp only [List.map_cons, List.map_nil, List.cons.injEq, and_true] at same
  rw [walked.rebuilt, Rewriting.statements, List.map_append, List.map_singleton, same,
    ← List.append_toArray, ← Array.append_assoc]
  exact Array.push_eq_append

/-- Without statements to insert a block has those that were walked. -/
theorem statements_eq {results : List Rewriting} {parts : List Term}
    (few : (results.flatMap Rewriting.statements).length ≤ parts.length)
    (ids : (results.map Rewriting.term).map Term.id = parts.map Term.id) :
    results.flatMap Rewriting.statements = results.map Rewriting.term := by
  have length : results.length = parts.length := by simpa using congrArg List.length ids
  rw [← length] at few
  clear ids length
  induction results with
  | nil => rfl
  | cons result results ih =>
    have count := Scalarizes.statements_perm results |>.length_eq
    simp only [List.flatMap_cons, Rewriting.statements, List.length_append, List.length_cons,
      List.length_nil, List.length_map] at few count
    have none : result.moved = [] := List.eq_nil_of_length_eq_zero (by omega)
    simp only [List.flatMap_cons, List.map_cons, Rewriting.statements, none, List.nil_append,
      List.singleton_append]
    rw [ih (by omega)]

/-- A block that has got statements is written anew at its end, and another one stays as it is. -/
theorem close_ends {id : NodeId} {ids statements : List NodeId} {state : WalkState Nat} (outer : Array NodeId)
    (kept : state.space.tree.nodes.get? id = some (.block ids)) (rebuilt : state.rebuilt = statements.toArray)
    (few : statements.length ≤ ids.length → statements = ids) :
    ∃ tree, Ends (if state.rebuilt.size + 0 > ids.length then do
          Walk.work (Workspace.setNode id (.block (state.rebuilt.toList ++ [])))
          return []
        else return [] : ScalarizeM (List NodeId)) { state with rebuilt := outer } []
        { state with space := { state.space with tree }, rebuilt := outer } ∧
      state.space.tree.Changes tree [id] [] ∧ tree.nodes.get? id = some (.block statements) := by
  split
  case isTrue =>
    obtain ⟨tree, written, changes, _, final⟩ := setNode_ends { state with rebuilt := outer }
      (.block (state.rebuilt.toList ++ [])) (Arena.get?_eq_some_lt kept)
    rw [rebuilt, List.append_nil] at final
    exact ⟨tree, written.bind (.pure _ _), changes, final⟩
  case isFalse enough =>
    have same : statements = ids := few (by simpa [rebuilt] using enough)
    exact ⟨state.space.tree, .pure _ _, (Tree.Changes.refl _).weaken (by simp), same ▸ kept⟩

theorem Walked.block {id : NodeId} {ids : List NodeId} {parts : List Term} {before after : WalkState Nat}
    {results : List Rewriting} {fresh : List NodeId} {tree : Tree}
    (walked : Walked parts results (results.flatMap Rewriting.statements) { before with rebuilt := #[] } after fresh)
    (changes : after.space.tree.Changes tree [id] [])
    (final : tree.nodes.get? id = some (.block ((results.flatMap Rewriting.statements).map Term.id)))
    (stands : (Term.mk id (.block ids) parts).Of before.space.tree) (nodup : (Term.mk id (.block ids) parts).ids.Nodup) :
    Walked [.mk id (.block ids) parts]
      [⟨[], .mk id (.block ((results.flatMap Rewriting.statements).map Term.id)) (results.flatMap Rewriting.statements)⟩] []
      before { after with space := { after.space with tree }, rebuilt := before.rebuilt } fresh := by
  rw [Term.ids_mk, List.nodup_cons] at nodup
  -- neither a statement nor a new node is the block itself
  have apart : ∀ term ∈ results.flatMap Rewriting.statements, id ∉ term.ids := by
    intro term inside inner
    have origin := walked.scalarizes.perm.mem_iff.mp (List.mem_flatMap.mpr ⟨term, inside, inner⟩)
    rcases List.mem_append.mp origin with own | added
    · exact nodup.1 own
    · have old := Arena.get?_eq_some_lt stands.found
      have new := ((walked.changes.fresh id).mp added).1
      exact absurd old (Nat.not_lt.mpr new)
  constructor
  case scalarizes =>
    rw [← List.append_nil fresh]
    exact .block walked.scalarizes (.nil _)
  case changes =>
    have whole := walked.changes.trans changes
    rw [List.append_nil] at whole
    apply whole.weaken
    intro other touched
    rw [List.flatMap_singleton, Term.ids_mk]
    rcases List.mem_append.mp touched with inside | same
    · exact .inr (List.mem_cons_of_mem _ inside)
    · exact .inr (List.mem_singleton.mp same ▸ List.mem_cons_self)
  case stand =>
    intro term member
    simp only [List.flatMap_singleton, Rewriting.statements, List.nil_append, List.mem_singleton] at member
    subst member
    apply Term.Of.mk final rfl
    intro part inside
    apply changes.of (walked.stand part inside)
    intro other inner same
    exact apart part inside (List.mem_singleton.mp same ▸ inner)
  case rebuilt => simp
  case table => exact walked.table

theorem block_walked {id : NodeId} {ids : List NodeId} {parts : List Term} {before : WalkState Nat}
    {child : NodeId → ScalarizeM Unit}
    (walks : ∀ part ∈ parts, ∀ state : WalkState Nat, part.Of state.space.tree →
      ∃ result fresh after, Ends (child part.id) state () after ∧
        Walked [part] [result] result.moved state after fresh)
    (stands : (Term.mk id (.block ids) parts).Of before.space.tree)
    (nodup : (Term.mk id (.block ids) parts).ids.Nodup) :
    ∃ result fresh after, Ends (Walk.block (pure true) child id ids) before [] after ∧
      Walked [.mk id (.block ids) parts] [result] result.moved before after fresh := by
  have unique := nodup
  rw [Term.ids_mk, List.nodup_cons] at unique
  have found := stands.found
  obtain rfl : ids = parts.map Term.id := stands.children
  have statements : ∀ part ∈ parts, ∀ state : WalkState Nat, part.Of state.space.tree →
      ∃ result fresh after, Ends (do child part.id; Walk.emit part.id) state () after ∧
        Walked [part] [result] result.statements state after fresh := by
    intro part member state stands
    obtain ⟨result, fresh, after, done, one⟩ := walks part member state stands
    obtain ⟨final, emitted, all⟩ := emit_walked done one
    exact ⟨result, fresh, final, emitted, all⟩
  obtain ⟨results, fresh, between, chain, walked⟩ :=
    parts_walked (fun id => do child id; Walk.emit id) Rewriting.statements { before with rebuilt := #[] }
      statements (fun part member => stands.parts member) unique.2
  have kept : between.space.tree.nodes.get? id = some (.block (parts.map Term.id)) :=
    (walked.changes.kept id (Arena.get?_eq_some_lt found) unique.1).trans found
  have rebuilt : between.rebuilt = ((results.flatMap Rewriting.statements).map Term.id).toArray := by
    rw [walked.rebuilt, Array.empty_append]
  have few (small : ((results.flatMap Rewriting.statements).map Term.id).length ≤ (parts.map Term.id).length) :
      (results.flatMap Rewriting.statements).map Term.id = parts.map Term.id := by
    rw [List.length_map, List.length_map] at small
    rw [statements_eq small walked.scalarizes.ids, walked.scalarizes.ids]
  obtain ⟨tree, done, changes, final⟩ := close_ends before.rebuilt kept rebuilt few
  have ends : Ends (Walk.block (pure true) child id (parts.map Term.id)) before [] _ :=
    .bind (.get _) (.bind (.modify _ _) (.bind (children_ends chain) (.bind (.get _) (.bind (.modify _ _) done))))
  exact ⟨_, fresh, _, ends, walked.block changes final stands nodup⟩

section
variable {site : Site} {id : NodeId} {ids : List NodeId} {ty : Ty} {parts : List Term}
  {before : WalkState Nat}

theorem selects_call {tree : Tree} {id : NodeId} {pool : Pool} {parent : Option NodeId}
    (found : tree.nodes.get? id = some (.aggregate (.call function) ids ty)) :
    Pattern.selects { mixedConstructor := true } tree pool id parent = .ok false := by
  have read : tree.read id = .ok (.aggregate (.call function) ids ty) := Arena.read_eq_ok.mpr found
  simp [Pattern.selects, Pattern.matchesAggregate, read, bind, Except.bind, pure, Except.pure]

theorem visit_unselected {op : AggregateOp}
    (found : before.space.tree.nodes.get? id = some (.aggregate op ids ty))
    (unselected : Pattern.selects { mixedConstructor := true } before.space.tree before.space.table.pool id
      site.parent? = .ok false) : Ends (visit .before site id) before true before := by
  refine .bind (node_ends found) ?_
  exact .bind (.work (.inspect unselected)) (.pure _ _)

theorem visit_selected {op : AggregateOp} {after : WalkState Nat}
    (found : before.space.tree.nodes.get? id = some (.aggregate op ids ty))
    (selected : Pattern.selects { mixedConstructor := true } before.space.tree before.space.table.pool id
      site.parent? = .ok true) (done : Ends (constructor site id op ids ty) before () after) :
    ∃ log own, Ends (visit .before site id) before true
      { after with space := { after.space with log }, own } := by
  refine ⟨after.space.log.push (.scalarized id), after.own + 1, ?_⟩
  refine .bind (node_ends found) ?_
  refine .bind (.work (.inspect selected)) ?_
  refine done.bind (.bind (.work (.modify _ _)) (.bind (.modify _ _) (.pure _ _)))

end

/-- Types of arguments that stand in the tree. -/
theorem selects_term {tree : Tree} {id : NodeId} {ids : List NodeId} {ty : Ty} {parts : List Term}
    {types : List Ty} (stands : (Term.mk id (.aggregate .construct ids ty) parts).Of tree)
    (typed : parts.map Term.ty? = types.map some) (pool : Pool) (parent : Option NodeId) :
    Pattern.selects { mixedConstructor := true } tree pool id parent = .ok (ty.mixes types) := by
  obtain rfl : ids = parts.map Term.id := stands.children
  have length : (parts.map Term.id).length = types.length := by simpa using congrArg List.length typed
  have firsts := List.map_fst_zip (Nat.le_of_eq length)
  have seconds := List.map_snd_zip (Nat.le_of_eq length.symm)
  have typedArguments : Arguments.Typed tree ((parts.map Term.id).zip types) := by
    refine Arguments.typed_of_pieces firsts ?_ fun part member => (stands.parts member).found
    rw [seconds, typed]
  have found := stands.found
  simp only [Term.node, Term.id] at found
  rw [← firsts] at found
  rw [Pattern.selects_construct typedArguments found, seconds]

theorem Splits.access_of_mem {pool : Pool} (splits : Splits pool target needed first arguments fresh
    declarations accesses) (member : access ∈ accesses) :
    ∃ handle ty path element, Access handle ty path element access ∧ first ≤ handle.index ∧
      handle.index < first + arguments.length ∧ path.length ≤ 2 := by
  induction splits with
  | nil => contradiction
  | cons _ _ _ _ selected _ ih =>
    rw [List.length_cons]
    rcases List.mem_append.mp member with own | later
    · obtain ⟨part, _, found⟩ := selected.of_mem own
      refine ⟨_, _, _, _, found, Nat.le_refl _, Nat.lt_add_of_pos_right (Nat.succ_pos _), ?_⟩
      cases part <;> simp [Part.path]
    · obtain ⟨handle, ty, path, element, found, above, below, short⟩ := ih later
      exact ⟨handle, ty, path, element, found, by omega, by omega, short⟩

theorem Splits.declarations_stand {pool : Pool} {tree : Tree} (splits : Splits pool target needed first
    arguments fresh declarations accesses) (declared : ∀ declaration ∈ declarations, Declared tree declaration)
    (stand : ∀ argument ∈ arguments, argument.Of tree) : ∀ declaration ∈ declarations, declaration.Of tree := by
  induction splits with
  | nil => simp
  | cons _ _ _ _ _ _ ih =>
    intro declaration member
    rcases List.mem_cons.mp member with rfl | later
    · have one := declared _ List.mem_cons_self
      refine .mk one.found rfl fun part inside => ?_
      rcases List.mem_pair.mp inside with rfl | rfl
      · exact one.declarator _ rfl
      · exact stand _ List.mem_cons_self
    · exact ih (fun other later => declared other (List.mem_cons_of_mem _ later))
        (fun argument later => stand argument (List.mem_cons_of_mem _ later)) declaration later

def Ready (depth : Nat) (site : Site) (term : Term) (state : WalkState Nat) : Prop :=
  ∃ result fresh after, Ends (Walk.node visitor depth site term.id) state () after ∧
    Walked [term] [result] result.moved state after fresh

theorem visit_plain (site : Site) {id : NodeId} {node : Node} {parts : List Term} {before : WalkState Nat}
    (stands : (Term.mk id node parts).Of before.space.tree)
    (constructs : (Term.mk id node parts).Constructs) (plain : (Term.mk id node parts).mixes = false) :
    Ends (visit .before site id) before true before := by
  have found := stands.found
  cases node with
  | aggregate op ids ty =>
    refine visit_unselected found ?_
    cases op with
    | call function => exact selects_call found
    | construct =>
      obtain ⟨types, typed, _⟩ := constructs.types
      rw [Term.mixes_eq typed] at plain
      exact (selects_term stands typed _ _).trans (congrArg _ plain)
  | _ => exact visit_other .before found (by simp [Term.node])

theorem inner_ready {depth : Nat} {site : Site} {id : NodeId} {node : Node} {parts : List Term}
    {before : WalkState Nat} (stands : (Term.mk id node parts).Of before.space.tree)
    (nodup : (Term.mk id node parts).ids.Nodup) (constructs : (Term.mk id node parts).Constructs)
    (plain : (Term.mk id node parts).mixes = false) (inner : node.isLeaf = false)
    (below : ∀ part ∈ parts, ∀ state : WalkState Nat, part.Of state.space.tree →
      Ready depth (site.enter id node) part state) : Ready (depth + 1) site (.mk id node parts) before := by
  have found := stands.found
  have visited := visit_plain site stands constructs plain
  have unique := nodup
  rw [Term.ids_mk, List.nodup_cons] at unique
  by_cases block : node.isBlock = true
  · cases node with
    | block ids =>
      obtain ⟨result, fresh, after, done, walked⟩ := block_walked below stands nodup
      refine ⟨result, fresh, after, walk_inner found rfl visited ?_, walked⟩
      exact .bind (node_ends found) (done.bind (.pure _ _))
    | _ => cases block
  · have other : node.isBlock = false := eq_false_of_ne_true block
    obtain ⟨results, fresh, after, chain, walked⟩ := parts_walked _ _ _ below (fun part => stands.parts) unique.2
    refine ⟨_, fresh, after, walk_inner found inner visited (inside_children found other ?_),
      walked.keep plain other stands nodup⟩
    exact stands.children ▸ chain

theorem mixed_ready {depth : Nat} {site : Site} {id : NodeId} {ids : List NodeId} {ty : Ty}
    {parts : List Term} {before : WalkState Nat} (inBlock : site.blockDepth ≠ 0) (deep : 3 ≤ depth)
    (stands : (Term.mk id (.aggregate .construct ids ty) parts).Of before.space.tree)
    (nodup : (Term.mk id (.aggregate .construct ids ty) parts).ids.Nodup)
    (constructs : (Term.mk id (.aggregate .construct ids ty) parts).Constructs)
    (mixed : (Term.mk id (.aggregate .construct ids ty) parts).mixes = true) :
    Ready (depth + 1) site (.mk id (.aggregate .construct ids ty) parts) before := by
  obtain ⟨types, typed, rule⟩ := constructs.types
  have mixes := (Term.mixes_eq typed).symm.trans mixed
  obtain ⟨all, fills⟩ := rule mixes
  rw [Term.ids_mk, List.nodup_cons] at nodup
  have found := stands.found
  obtain rfl : ids = parts.map Term.id := stands.children
  have standing : ∀ part ∈ parts, (if part.id = id then some (.aggregate .construct [] ty)
      else before.space.tree.nodes.get? part.id) = some part.node := by
    intro part member
    refine (if_neg ?_).trans (stands.parts member).found
    rintro rfl
    exact nodup.1 (List.mem_flatMap.mpr ⟨part, member, part.id_mem_ids⟩)
  obtain ⟨fresh, declarations, accesses, after, done, scalarized⟩ := constructor_ends .construct
    inBlock (Arena.get?_eq_some_lt found) standing typed (Ty.hasComponents_of_mixes mixes) all fills
  obtain ⟨log, own, visited⟩ := visit_selected found
    ((selects_term stands typed _ _).trans (congrArg _ mixes)) done
  have scalarizes := Scalarizes.split mixed scalarized.splits (.nil _)
  rw [List.append_nil, ← scalarized.size] at scalarizes
  refine ⟨⟨declarations, .mk id (.aggregate .construct (accesses.map Term.id) ty) accesses⟩, fresh,
    { after with space := { after.space with log }, own }, ?_, scalarizes, ?_, ?_, scalarized.rebuilt,
    scalarized.table⟩
  · refine walk_inner found rfl visited (inside_children scalarized.found rfl ?_)
    refine chain_same fun access member => ?_
    obtain ⟨_, _, path, _, selected, _, _, short⟩ := scalarized.splits.access_of_mem member
    exact walk_access selected (by omega) (scalarized.built access member)
  · refine scalarized.changes.weaken fun other same => .inr ?_
    rw [List.flatMap_singleton, List.mem_singleton.mp same]
    exact Term.id_mem_ids _
  · intro term member
    simp only [List.flatMap_singleton, Rewriting.statements, List.mem_append, List.mem_singleton] at member
    rcases member with moved | rfl
    · refine scalarized.splits.declarations_stand scalarized.declared (fun part inside => ?_) term moved
      refine scalarized.changes.of (stands.parts inside) fun other inner same => ?_
      rw [List.mem_singleton.mp same] at inner
      exact nodup.1 (List.mem_flatMap.mpr ⟨part, inside, inner⟩)
    · exact .mk scalarized.found rfl scalarized.built

/-- The walk of the pass ends on every piece in reach of a block. -/
theorem walk_ready {depth : Nat} {site : Site} {term : Term} {before : WalkState Nat}
    (stands : term.Of before.space.tree) (nodup : term.ids.Nodup) (constructs : term.All Term.Constructs)
    (inBlock : term.node.isBlock = true ∨ site.blockDepth ≠ 0) (deep : term.height + 3 ≤ depth) :
    Ready depth site term before := by
  induction term using Term.induct generalizing depth site before with
  | step id node parts ih =>
    obtain _ | depth := depth
    · omega
    · have found := stands.found
      have within : (site.enter id node).blockDepth ≠ 0 := by
        simp only [Site.enter]
        split
        · omega
        · exact inBlock.resolve_left ‹_›
      have positive := Term.height_pos (.mk id node parts)
      by_cases leaf : node.isLeaf = true
      · have none : parts = [] := by
          have children := stands.children
          cases node <;> simp [Node.isLeaf] at leaf <;> simpa [Term.node, Node.children, Term.parts] using children
        subst none
        refine ⟨_, _, before, walk_leaf found leaf, (Walked.nil before).keep ?_ ?_ stands nodup⟩ <;>
          cases node <;> first | rfl | cases leaf
      · by_cases mixed : (Term.mk id node parts).mixes = true
        · obtain ⟨ids, ty, same⟩ := Term.mixes_node mixed
          simp only [Term.node] at same
          subst same
          have inside := inBlock.resolve_left (by simp [Term.node, Node.isBlock])
          exact mixed_ready inside (by omega) stands nodup constructs.own mixed
        · refine inner_ready stands nodup constructs.own (eq_false_of_ne_true mixed)
            (eq_false_of_ne_true leaf) fun part member state standing => ?_
          have lower : part.height < (Term.mk id node parts).height := Term.height_lt member
          rw [Term.ids_mk, List.nodup_cons] at nodup
          exact ih part member standing ((List.nodup_flatMap.mp nodup.2).1 part member)
            (constructs.parts part member) (.inr within) (by omega)

end Scalarize
end ShaderTree
