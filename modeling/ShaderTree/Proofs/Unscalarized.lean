import ShaderTree.Proofs.Reachability
import ShaderTree.Proofs.Revalidation

/-! The constructors that scalarization leaves as they are although they mix vectors with
matrices. A constructor that is scalarized moves its arguments away before the walk gets to
them, and nothing walks them later. What stood below another such constructor is left, and
nothing else is. -/
namespace ShaderTree

variable {pool : Pool} {term piece access : Term}

/-- The pieces that stand below a constructor which is scalarized. -/
def Term.Nested (term piece : Term) : Prop :=
  ∃ outer ∈ term.pieces, outer.mixes = true ∧ ∃ part ∈ outer.parts, piece ∈ part.pieces

theorem Term.Nested.mem_pieces (nested : term.Nested piece) : piece ∈ term.pieces := by
  obtain ⟨outer, inside, _, part, member, deeper⟩ := nested
  exact mem_pieces_trans (mem_pieces_of_part member deeper) inside

theorem Term.nested_iff {id : NodeId} {node : Node} {parts : List Term} (plain : (mk id node parts).mixes = false) :
    (mk id node parts).Nested piece ↔ ∃ part ∈ parts, part.Nested piece := by
  constructor
  · rintro ⟨outer, inside, mixes, below⟩
    rcases mem_pieces_iff.mp inside with rfl | ⟨part, member, deeper⟩
    · exact absurd (plain.symm.trans mixes) Bool.false_ne_true
    · exact ⟨part, member, outer, deeper, mixes, below⟩
  · rintro ⟨part, member, outer, inside, mixes, below⟩
    exact ⟨outer, mem_pieces_of_part member inside, mixes, below⟩

theorem exists_right {first : List α} {second : List β} (length : first.length = second.length)
    (member : a ∈ first) : ∃ b, (a, b) ∈ first.zip second := by
  rw [← List.map_fst_zip (Nat.le_of_eq length)] at member
  obtain ⟨⟨_, b⟩, among, rfl⟩ := List.mem_map.mp member
  exact ⟨b, among⟩

theorem exists_left {first : List α} {second : List β} (length : first.length = second.length)
    (member : b ∈ second) : ∃ a, (a, b) ∈ first.zip second := by
  rw [← List.map_snd_zip (Nat.le_of_eq length.symm)] at member
  obtain ⟨⟨a, _⟩, among, rfl⟩ := List.mem_map.mp member
  exact ⟨a, among⟩

/-- An access to a temporary consists of index operators, their constants and the use of the
temporary. -/
theorem Access.of_mem_pieces (isAccess : Access handle ty path element access) (member : piece ∈ access.pieces) :
    piece.node = .symbol (.pool handle) ty ∨ (∃ base position type, piece.node = .binary .indexDirect base position type) ∨
      ∃ values, piece.node = .constant values .index := by
  induction isAccess with
  | use id =>
    rcases Term.mem_pieces_iff.mp member with rfl | ⟨part, none, _⟩
    · exact .inl rfl
    · cases none
  | index id constant inner indexed bounded ih =>
    rcases Term.mem_pieces_iff.mp member with rfl | ⟨part, among, inside⟩
    · exact .inr (.inl ⟨_, _, _, rfl⟩)
    · rcases List.mem_pair.mp among with rfl | rfl
      · exact ih inside
      · rcases Term.mem_pieces_iff.mp inside with rfl | ⟨part, none, _⟩
        · exact .inr (.inr ⟨_, rfl⟩)
        · cases none

theorem Access.mixes (isAccess : Access handle ty path element access) (member : piece ∈ access.pieces) :
    piece.mixes = false := by
  unfold Term.mixes
  rcases isAccess.of_mem_pieces member with node | ⟨base, position, type, node⟩ | ⟨values, node⟩ <;> rw [node]

namespace Scalarize.Splits

variable {target : Target} {needed first : Nat} {arguments declarations accesses : List Term} {fresh : List NodeId}

theorem typed (splits : Splits pool target needed first arguments fresh declarations accesses) :
    ∃ types : List Ty, arguments.map Term.ty? = types.map some ∧ ∀ ty ∈ types, ty.hasComponents = true := by
  induction splits with
  | nil => exact ⟨[], rfl, by simp⟩
  | @cons _ _ _ _ _ _ _ ty _ _ _ known has _ _ _ _ ih =>
    obtain ⟨types, same, rest⟩ := ih
    exact ⟨ty :: types, by rw [List.map_cons, List.map_cons, known, same], List.forall_mem_cons.mpr ⟨has, rest⟩⟩

theorem pieces_of_argument (splits : Splits pool target needed first arguments fresh declarations accesses)
    (member : argument ∈ arguments) (inside : piece ∈ argument.pieces) :
    ∃ declaration ∈ declarations, piece ∈ declaration.pieces := by
  induction splits with
  | nil => cases member
  | cons _ _ _ _ _ _ ih =>
    rcases List.mem_cons.mp member with rfl | later
    · refine ⟨_, List.mem_cons_self, ?_⟩
      exact Term.mem_pieces_of_part (List.mem_cons_of_mem _ List.mem_cons_self) inside
    · obtain ⟨declaration, among, found⟩ := ih later
      exact ⟨declaration, List.mem_cons_of_mem _ among, found⟩

theorem argument_of_mixes (splits : Splits pool target needed first arguments fresh declarations accesses)
    (mixes : piece.mixes = true) (member : declaration ∈ declarations) (inside : piece ∈ declaration.pieces) :
    ∃ argument ∈ arguments, piece ∈ argument.pieces := by
  induction splits with
  | nil => cases member
  | @cons _ _ _ _ _ _ argument _ _ _ _ _ _ _ _ _ _ ih =>
    rcases List.mem_cons.mp member with rfl | later
    · refine ⟨argument, List.mem_cons_self, ?_⟩
      rcases Term.mem_pieces_iff.mp inside with rfl | ⟨part, among, deeper⟩
      · cases mixes
      · rcases List.mem_cons.mp among with rfl | last
        · rcases Term.mem_pieces_iff.mp deeper with rfl | ⟨_, none, _⟩
          · cases mixes
          · cases none
        · obtain rfl := List.mem_singleton.mp last
          exact deeper
    · obtain ⟨other, among, found⟩ := ih later
      exact ⟨other, List.mem_cons_of_mem _ among, found⟩

theorem unmixed {id : NodeId} {ids : List NodeId} {ty : Ty}
    (splits : Splits pool ty.target needed first arguments fresh declarations accesses) :
    (Term.mk id (.aggregate .construct ids ty) accesses).mixes = false := by
  obtain ⟨types, typed, _⟩ := splits.typed
  obtain ⟨uses, same, plain, _⟩ := splits.types typed
  rw [Term.mixes_eq same, Ty.mixes, Bool.and_eq_false_iff]
  refine .inr (List.any_eq_false.mpr fun type member => ?_)
  rw [(plain type member).2]
  exact Bool.false_ne_true

end Scalarize.Splits

namespace Rewrites

variable {low : Nat} {result : Rewriting}

theorem mixes_of_keep {id : NodeId} {node : Node} {parts : List Term} {results : List Rewriting}
    (length : parts.length = results.length)
    (below : ∀ part result, (part, result) ∈ parts.zip results → Rewrites pool low part result) :
    (Term.mk id node (results.map Rewriting.term)).mixes = (Term.mk id node parts).mixes := by
  have types : (results.map Rewriting.term).map Term.ty? = parts.map Term.ty? := by
    rw [List.map_map]
    exact map_eq_of_zip length fun part result member => congrArg Face.ty? (below part result member).face
  have visible (terms : List Term) : terms.filterMap Term.ty? = (terms.map Term.ty?).filterMap fun ty => ty := by
    rw [List.filterMap_map]
    rfl
  cases node with
  | aggregate op ids ty =>
    cases op with
    | construct => simp only [Term.mixes, Term.node, Term.parts, visible, types]
    | call => rfl
  | _ => rfl

/-- What stood below a constructor that is scalarized is left as it was, in a declaration. -/
theorem pieces_of_nested (rewrites : Rewrites pool low term result) (nested : term.Nested piece) :
    ∃ statement ∈ result.statements, piece ∈ statement.pieces := by
  induction rewrites with
  | @keep id node parts results plain inner length below ih =>
    obtain ⟨part, member, nested⟩ := (Term.nested_iff plain).mp nested
    obtain ⟨result, pair⟩ := exists_right length member
    obtain ⟨statement, sent, inside⟩ := ih part result pair nested
    have among : result ∈ results := (List.of_mem_zip pair).2
    rcases List.mem_append.mp sent with moved | last
    · exact ⟨statement, List.mem_append_left _ (List.mem_flatMap.mpr ⟨result, among, moved⟩), inside⟩
    · obtain rfl := List.mem_singleton.mp last
      refine ⟨_, List.mem_append_right _ (List.mem_singleton.mpr rfl), ?_⟩
      exact Term.mem_pieces_of_part (List.mem_map_of_mem among) inside
  | @block id ids parts results length below ih =>
    obtain ⟨part, member, nested⟩ := (Term.nested_iff rfl).mp nested
    obtain ⟨result, pair⟩ := exists_right length member
    obtain ⟨statement, sent, inside⟩ := ih part result pair nested
    refine ⟨_, List.mem_singleton.mpr rfl, ?_⟩
    exact Term.mem_pieces_of_part (List.mem_flatMap.mpr ⟨result, (List.of_mem_zip pair).2, sent⟩) inside
  | @split id ids ty first arguments fresh declarations accesses mixed high splits =>
    obtain ⟨outer, inside, _, part, member, deeper⟩ := nested
    obtain ⟨argument, among, within⟩ : ∃ argument ∈ arguments, piece ∈ argument.pieces := by
      rcases Term.mem_pieces_iff.mp inside with rfl | ⟨argument, among, within⟩
      · exact ⟨part, member, deeper⟩
      · exact ⟨argument, among, Term.mem_pieces_trans (Term.mem_pieces_of_part member deeper) within⟩
    obtain ⟨declaration, sent, found⟩ := splits.pieces_of_argument among within
    exact ⟨declaration, List.mem_append_left _ sent, found⟩

/-- What still mixes vectors with matrices stood below a constructor that was scalarized. -/
theorem nested_of_mixes (rewrites : Rewrites pool low term result) (mixes : piece.mixes = true)
    (member : statement ∈ result.statements) (inside : piece ∈ statement.pieces) : term.Nested piece := by
  induction rewrites generalizing statement with
  | @keep id node parts results plain inner length below ih =>
    have own : (Term.mk id node (results.map Rewriting.term)).mixes = false :=
      (mixes_of_keep length below).trans plain
    obtain ⟨result, among, statement, sent, within⟩ :
        ∃ result ∈ results, ∃ statement ∈ result.statements, piece ∈ statement.pieces := by
      rcases List.mem_append.mp member with moved | last
      · obtain ⟨result, among, moved⟩ := List.mem_flatMap.mp moved
        exact ⟨result, among, statement, List.mem_append_left _ moved, inside⟩
      · obtain rfl := List.mem_singleton.mp last
        rcases Term.mem_pieces_iff.mp inside with rfl | ⟨part, among, deeper⟩
        · exact absurd (own.symm.trans mixes) Bool.false_ne_true
        · obtain ⟨result, within, rfl⟩ := List.mem_map.mp among
          exact ⟨result, within, result.term, List.mem_append_right _ (List.mem_singleton.mpr rfl), deeper⟩
    obtain ⟨part, pair⟩ := exists_left length among
    exact (Term.nested_iff plain).mpr ⟨part, (List.of_mem_zip pair).1, ih part result pair sent within⟩
  | @block id ids parts results length below ih =>
    obtain rfl := List.mem_singleton.mp member
    rcases Term.mem_pieces_iff.mp inside with rfl | ⟨part, among, deeper⟩
    · cases mixes
    · obtain ⟨result, within, sent⟩ := List.mem_flatMap.mp among
      obtain ⟨part, pair⟩ := exists_left length within
      exact (Term.nested_iff rfl).mpr ⟨part, (List.of_mem_zip pair).1, ih part result pair sent deeper⟩
  | @split id ids ty first arguments fresh declarations accesses mixed high splits =>
    rcases List.mem_append.mp member with moved | last
    · obtain ⟨argument, among, within⟩ := splits.argument_of_mixes mixes moved inside
      exact ⟨_, Term.mem_pieces_self _, mixed, argument, among, within⟩
    · obtain rfl := List.mem_singleton.mp last
      rcases Term.mem_pieces_iff.mp inside with rfl | ⟨access, among, deeper⟩
      · exact absurd (splits.unmixed.symm.trans mixes) Bool.false_ne_true
      · obtain ⟨_, _, _, _, isAccess, _⟩ := splits.access_of_mem among
        exact absurd ((isAccess.mixes deeper).symm.trans mixes) Bool.false_ne_true

end Rewrites

/-- The test that selects constructors for scalarization says of a piece in the tree whether it
mixes vectors with matrices, wherever it stands. -/
theorem Term.Of.selects {tree : Tree} (stands : term.Of tree) (constructs : term.Constructs) (pool : Pool)
    (parent : Option NodeId) :
    Pattern.selects { mixedConstructor := true } tree pool term.id parent = .ok term.mixes := by
  obtain ⟨id, node, parts⟩ := term
  have found : tree.nodes.get? id = some node := stands.found
  have read : tree.read id = .ok node := Arena.read_eq_ok.mpr found
  cases node with
  | aggregate op ids ty =>
    cases op with
    | call function => exact Scalarize.selects_call found
    | construct =>
      obtain ⟨types, typed, _⟩ := constructs.types
      rw [Term.mixes_eq typed]
      exact Scalarize.selects_term stands typed pool parent
  | binary op left right ty =>
    simp [Pattern.selects, Pattern.matchesBinary, Term.id, Term.mixes, Term.node, read, bind, Except.bind, pure,
      Except.pure]
  | ternary condition accept reject ty =>
    simp [Pattern.selects, Pattern.matchesTernary, Term.id, Term.mixes, Term.node, read, bind, Except.bind, pure,
      Except.pure]
  | declaration declarator initializer =>
    simp [Pattern.selects, Pattern.matchesDeclaration, Term.id, Term.mixes, Term.node, read, bind, Except.bind, pure,
      Except.pure]
  | _ => simp [Pattern.selects, Term.id, Term.mixes, Term.node, read, bind, Except.bind, pure, Except.pure]

def Workspace.Mixes (space : Workspace) (id : NodeId) : Prop :=
  space.tree.Reachable id ∧
    Pattern.selects { mixedConstructor := true } space.tree space.table.pool id none = .ok true

theorem Workspace.mixes_iff {space : Workspace} {id : NodeId} (root : term.id = space.tree.root)
    (stands : term.Of space.tree) (constructs : term.All Term.Constructs) :
    space.Mixes id ↔ ∃ piece ∈ term.pieces, piece.id = id ∧ piece.mixes = true := by
  have selects : ∀ piece ∈ term.pieces, Pattern.selects { mixedConstructor := true } space.tree space.table.pool
      piece.id none = .ok piece.mixes :=
    fun piece member => (stands.of_mem_pieces member).selects (constructs.of_mem_pieces member).own _ _
  unfold Mixes
  rw [stands.reachable_iff_piece root]
  constructor
  · rintro ⟨⟨piece, member, rfl⟩, selected⟩
    exact ⟨piece, member, rfl, Except.ok.inj ((selects piece member).symm.trans selected)⟩
  · rintro ⟨piece, member, rfl, mixes⟩
    exact ⟨⟨piece, member, rfl⟩, (selects piece member).trans (congrArg _ mixes)⟩

theorem Workspace.below_mixes_iff {space : Workspace} (root : term.id = space.tree.root) (stands : term.Of space.tree)
    (constructs : term.All Term.Constructs) (inside : piece ∈ term.pieces) :
    (∃ outer, space.Mixes outer ∧ Relation.TransGen space.tree.Child outer piece.id) ↔ term.Nested piece := by
  constructor
  · rintro ⟨outer, selected, below⟩
    obtain ⟨outer, member, rfl, above⟩ := (mixes_iff root stands constructs).mp selected
    obtain ⟨part, among, deeper⟩ := (stands.of_mem_pieces member).below_iff.mp below
    rw [Term.ids_eq_pieces] at deeper
    obtain ⟨other, within, same⟩ := List.mem_map.mp deeper
    have whole := Term.mem_pieces_trans (Term.mem_pieces_of_part among within) member
    obtain rfl := (stands.of_mem_pieces whole).unique (stands.of_mem_pieces inside) same
    exact ⟨outer, member, above, part, among, within⟩
  · rintro ⟨outer, member, above, part, among, deeper⟩
    refine ⟨outer.id, (mixes_iff root stands constructs).mpr ⟨outer, member, rfl, above⟩, ?_⟩
    refine (stands.of_mem_pieces member).below_iff.mpr ⟨part, among, ?_⟩
    rw [Term.ids_eq_pieces]
    exact List.mem_map_of_mem deeper

/-- Over a valid program the pass ends, and it leaves the constructors that mix vectors with matrices
which stood below others that do, and no more. -/
theorem Workspace.scalarizeConstructors_leaves {space : Workspace}
    (valid : space.tree.validate space.table .all = .ok ()) :
    ∃ after, scalarizeConstructors.run.run space = (.ok (), after) ∧
      ∀ id, after.Mixes id ↔
        space.Mixes id ∧ ∃ outer, space.Mixes outer ∧ Relation.TransGen space.tree.Child outer id := by
  obtain ⟨program, root, stands, right⟩ := Tree.validate_iff.mp valid
  have constructs := right.wellFormed.constructs stands rfl
  obtain ⟨result, fresh, after, done, scalarized⟩ :=
    scalarizeConstructors_ends root stands (right.nodup rfl) right.wellFormed.suits constructs
  refine ⟨after, done, fun id => ?_⟩
  have rewritten := (scalarized.rewrites.wellFormed scalarized.table.pool rfl stands right.wellFormed).1
  have top : result.id = after.tree.root := by rw [scalarized.changes.root, ← root, scalarized.id]
  have constructsAfter := rewritten.constructs scalarized.stands rfl
  rw [mixes_iff top scalarized.stands constructsAfter, mixes_iff root stands constructs]
  constructor
  · rintro ⟨piece, inside, rfl, mixes⟩
    have nested := scalarized.rewrites.nested_of_mixes mixes (List.mem_singleton.mpr rfl) inside
    have whole := nested.mem_pieces
    exact ⟨⟨piece, whole, rfl, mixes⟩, (below_mixes_iff root stands constructs whole).mpr nested⟩
  · rintro ⟨⟨piece, inside, rfl, mixes⟩, below⟩
    have nested := (below_mixes_iff root stands constructs inside).mp below
    obtain ⟨statement, single, left⟩ := scalarized.rewrites.pieces_of_nested nested
    obtain rfl := List.mem_singleton.mp single
    exact ⟨piece, left, rfl, mixes⟩

/-- The program `vec2 a; vec2 b; vec4(mat2(a, b));`. -/
def nestedConstructor : Workspace :=
  let vector : Ty := .vector .float .two
  let symbol (name : String) (number : Nat) : Symbol :=
    { rawName := name, id := ⟨number⟩, origin := .userDefined, kind := .var { ty := vector } }
  { tree :=
      { nodes := ⟨#[.block [⟨2⟩, ⟨4⟩, ⟨8⟩], .symbol (.pool ⟨0⟩) vector, .declaration ⟨1⟩ none,
          .symbol (.pool ⟨1⟩) vector, .declaration ⟨3⟩ none, .symbol (.pool ⟨0⟩) vector, .symbol (.pool ⟨1⟩) vector,
          .aggregate .construct [⟨5⟩, ⟨6⟩] (.matrix .two .two), .aggregate .construct [⟨7⟩] (.vector .float .four)]⟩
        root := ⟨0⟩ }
    table :=
      { pool := ⟨#[symbol "a" 96, symbol "b" 97]⟩
        builtIns := {}
        profile := {} } }

/-- The inner constructor is left as it is. -/
theorem Workspace.scalarizeConstructors_leaves_nested :
    nestedConstructor.tree.validate nestedConstructor.table .all = .ok () ∧
      ∃ after, scalarizeConstructors.run.run nestedConstructor = (.ok (), after) ∧ after.Mixes ⟨7⟩ := by
  have valid : nestedConstructor.tree.validate nestedConstructor.table .all = .ok () := rfl
  obtain ⟨after, done, leaves⟩ := scalarizeConstructors_leaves valid
  have outer : nestedConstructor.tree.Child ⟨0⟩ ⟨8⟩ := ⟨_, rfl, by decide⟩
  have inner : nestedConstructor.tree.Child ⟨8⟩ ⟨7⟩ := ⟨_, rfl, by decide⟩
  have reached : nestedConstructor.tree.Reachable ⟨8⟩ := .single outer
  exact ⟨valid, after, done, (leaves ⟨7⟩).mpr ⟨⟨reached.tail inner, rfl⟩, ⟨8⟩, ⟨reached, rfl⟩, .single inner⟩⟩

end ShaderTree
