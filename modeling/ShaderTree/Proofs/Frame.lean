import ShaderTree.Proofs.Hoisting
import ShaderTree.Proofs.Visibility

/-! What scalarization does to the tree, node by node. Each argument of a constructor that is
scalarized goes to a declaration of its own, the declarations go in front of the statement in
the innermost block, and all else stays: the other statements of the blocks in their order, and
every old node but the constructors and the blocks. -/
namespace ShaderTree

namespace Tree

def Inner (tree : Tree) (parent child : NodeId) : Prop :=
  ∃ node, tree.nodes.get? parent = some node ∧ node.isBlock = false ∧ child ∈ node.children

end Tree

namespace Workspace

/-- The constructors that are scalarized: they mix vectors with matrices and stand below no other that
does. -/
def Scalarizable (space : Workspace) (id : NodeId) : Prop :=
  space.Mixes id ∧ ∀ outer, space.Mixes outer → ¬ Relation.TransGen space.tree.Child outer id

/-- The declaration sets a new internal variable without a name to the argument, which has no other
place. The variable has no other declaration and is used below `uses` only. -/
structure Holds (before after : Workspace) (uses : List NodeId) (declarator : NodeId) (handle : SymbolHandle)
    (ty : Ty) (declaration argument : NodeId) : Prop where
  reached : after.tree.Reachable declaration
  declares : after.tree.nodes.get? declaration = some (.declaration declarator (some argument))
  named : after.tree.nodes.get? declarator = some (.symbol (.pool handle) (ty.withQualifier .temporary))
  only : ∀ parent, after.tree.Reachable parent → after.tree.Child parent argument → parent = declaration
  typed : before.tree.ty? argument = .ok (some ty)
  fresh : before.table.pool.size ≤ handle.index
  temporary : IsTemporary after.table.pool handle ty
  once : ∀ other, after.tree.Reachable other → after.tree.Declares other (.pool handle) → other = declaration
  used : ∀ id other, after.tree.Reachable id → after.tree.nodes.get? id = some (.symbol (.pool handle) other) →
    id = declarator ∨ ∃ use ∈ uses, after.tree.Below use id

/-- The constructor at `id` has `uses` for its `arguments`, which the declarations hold in their order. They
are in the innermost block around it, in front of the statement that it stands in and nowhere else there. -/
structure Hoists (before after : Workspace) (id block statement : NodeId)
    (arguments uses declarations : List NodeId) : Prop where
  rewritten : ∃ ty, before.tree.nodes.get? id = some (.aggregate .construct arguments ty) ∧
    after.tree.nodes.get? id = some (.aggregate .construct uses ty)
  holds : List.Forall₂ (fun declaration argument => ∃ declarator handle ty,
    before.Holds after uses declarator handle ty declaration argument) declarations arguments
  reached : before.tree.Reachable block
  around : ∃ statements, before.tree.nodes.get? block = some (.block statements) ∧ statement ∈ statements
  innermost : Relation.ReflTransGen before.tree.Inner statement id
  placed : ∃ front between back, after.tree.nodes.get? block =
      some (.block (front ++ declarations ++ between ++ statement :: back)) ∧
    (front ++ declarations ++ between ++ statement :: back).Nodup ∧
    ∀ added ∈ between, before.tree.nodes.size ≤ added.index

end Workspace

theorem Term.Keeps.inner {tree : Tree} {term piece : Term} (keeps : term.Keeps piece) (stands : term.Of tree) :
    Relation.ReflTransGen tree.Inner term.id piece.id := by
  induction keeps with
  | here => exact .refl
  | @step id node parts part piece plain inner member _ ih =>
    have children : node.children = parts.map Term.id := stands.children
    have link : tree.Inner id part.id := ⟨node, stands.found, inner, children ▸ List.mem_map_of_mem member⟩
    exact Relation.ReflTransGen.head link (ih (stands.parts member))

theorem Term.Of.found_block {tree : Tree} {term : Term} (stands : term.Of tree) (isBlock : term.node.isBlock = true) :
    tree.nodes.get? term.id = some (.block (term.parts.map Term.id)) := by
  have children := stands.children
  rw [stands.found]
  cases node : term.node with
  | block statements =>
    rw [node] at children
    exact congrArg (some ∘ Node.block) children
  | _ =>
    rw [node] at isBlock
    cases isBlock

namespace ScalarizedProgram

variable {before after : Workspace} {term result : Term} {fresh : List NodeId}

def run (scalarized : ScalarizedProgram before after term result fresh)
    (known : term.All (Term.Resolves before.table)) : Run after.table.pool before.table.pool.size where
  first := before.table.pool.size
  last := after.table.pool.size
  fresh := fresh
  term := term
  result := ⟨[], result⟩
  scalarizes := scalarized.scalarizes
  high := Nat.le_refl _
  old := known.imp fun _ => Term.Resolves.predates

section
variable (scalarized : ScalarizedProgram before after term result fresh) (root : term.id = before.tree.root)
  (stands : term.Of before.tree) (nodup : term.ids.Nodup) (known : term.All (Term.Resolves before.table))

include scalarized root in
theorem top : result.id = after.tree.root := by rw [scalarized.changes.root, ← root, scalarized.id]

include scalarized root stands nodup in
theorem unshared : after.tree.Unshared :=
  scalarized.stands.unshared (scalarized.top root) (scalarized.nodup stands nodup)

include scalarized root in
theorem reachable {piece : Term} (inside : piece ∈ result.pieces) : after.tree.Reachable piece.id :=
  (scalarized.stands.reachable_iff_piece (scalarized.top root)).mpr ⟨piece, inside, rfl⟩

include scalarized in
theorem found {piece : Term} (inside : piece ∈ result.pieces) :
    after.tree.nodes.get? piece.id = some piece.node := (scalarized.stands.of_mem_pieces inside).found

section
variable {constructor : Run after.table.pool before.table.pool.size} {ids : List NodeId} {ty : Ty}
  {declarations accesses : List Term} (includes : (scalarized.run known).Includes constructor)
  (split : constructor.Split ids ty declarations accesses)

include scalarized known includes split in
theorem accesses_in (used : access ∈ accesses) (inside : piece ∈ access.pieces) : piece ∈ result.pieces := by
  have image := includes.result
  rw [split.result] at image
  exact Term.mem_pieces_trans (Term.mem_pieces_of_part used inside) image

include scalarized root stands nodup known includes split in
/-- What is above a piece of a new argument is no declaration. -/
theorem above_access {symbol access : Term} {parent declarator : NodeId} {initializer : Option NodeId}
    (used : access ∈ accesses) (inside : symbol ∈ access.pieces) (reached : after.tree.Reachable parent)
    (links : after.tree.Child parent symbol.id) :
    after.tree.nodes.get? parent ≠ some (.declaration declarator initializer) := by
  intro declares
  have unshared := scalarized.unshared root stands nodup
  obtain ⟨above, place, part⟩ := Term.exists_parent (show access ∈ (Term.mk _ _ accesses).parts from used) inside
  have within : above ∈ result.pieces := by
    rcases place with rfl | inAccess
    · have image := includes.result
      rw [split.result] at image
      exact image
    · exact scalarized.accesses_in known includes split used inAccess
  have stand := scalarized.stands.of_mem_pieces within
  have child : after.tree.Child above.id symbol.id := ⟨_, stand.found, stand.children ▸ List.mem_map_of_mem part⟩
  obtain rfl := unshared.parent_unique reached links (scalarized.reachable root within) child
  have node := Option.some.inj (stand.found.symm.trans declares)
  rcases place with rfl | inAccess
  · cases node
  · obtain ⟨_, _, _, _, isAccess, _⟩ := split.splits.access_of_mem used
    rcases isAccess.of_mem_pieces inAccess with plain | ⟨_, _, _, plain⟩ | ⟨_, plain⟩ <;> cases plain.symm.trans node

include scalarized root stands nodup known includes split in
theorem holds {declaration argument : Term} (inside : constructor.term ∈ term.pieces)
    (moved : ∀ declaration ∈ declarations, declaration ∈ result.pieces)
    (pair : (declaration, argument) ∈ declarations.zip constructor.term.parts) :
    ∃ declarator handle ty, before.Holds after (accesses.map Term.id) declarator handle ty declaration.id argument.id := by
  have member := (List.of_mem_zip pair).1
  have argued := Term.mem_pieces_of_part (List.of_mem_zip pair).2 (Term.mem_pieces_self _)
  obtain ⟨id, declarator, number, type, rfl, low, high, typed, temporary⟩ := List.forall₂_zip split.splits.each pair
  have held := moved _ member
  have inDeclarator : Term.mk declarator (.symbol (.pool ⟨number⟩) (type.withQualifier .temporary)) [] ∈ result.pieces :=
    Term.mem_pieces_trans (Term.mem_pieces_of_part List.mem_cons_self (Term.mem_pieces_self _)) held
  have new := Nat.le_trans constructor.high low
  have reachedHeld := scalarized.reachable root held
  have unshared := scalarized.unshared root stands nodup
  have places : ∀ id other, after.tree.Reachable id → after.tree.nodes.get? id = some (.symbol (.pool ⟨number⟩) other) →
      id = declarator ∨ ∃ access ∈ accesses, ∃ symbol ∈ access.pieces, symbol.id = id := by
    intro id other reached node
    obtain ⟨symbol, among, rfl⟩ := (scalarized.stands.reachable_iff_piece (scalarized.top root)).mp reached
    have names : symbol.Names number := ⟨other, Option.some.inj ((scalarized.found among).symm.trans node)⟩
    have own := includes.alone symbol (Rewriting.mem_pieces_iff.mpr (.inr among)) number names low (split.last ▸ high)
    rcases split.places member List.mem_cons_self new own names with head | ⟨access, used, deeper⟩
    · obtain rfl := Option.some.inj head
      exact .inl rfl
    · exact .inr ⟨access, used, symbol, deeper, rfl⟩
  refine ⟨declarator, ⟨number⟩, type, reachedHeld, scalarized.found held, scalarized.found inDeclarator, ?_, ?_, new,
    temporary, ?_, ?_⟩
  · intro parent reached links
    refine unshared.parent_unique reachedHeld ⟨_, scalarized.found held, ?_⟩ reached links
    simp [Term.initialization, Term.node, Node.children]
  · have found := (stands.of_mem_pieces (Term.mem_pieces_trans argued inside)).found
    exact (Tree.ty?_eq_ok found).trans (congrArg _ typed)
  · rintro other reached ⟨child, initializer, type, node, named⟩
    have links : after.tree.Child other child := ⟨_, node, List.mem_cons_self⟩
    rcases places child type (reached.tail links) named with rfl | ⟨access, used, symbol, deeper, rfl⟩
    · exact unshared.parent_unique reachedHeld ⟨_, scalarized.found held, List.mem_cons_self⟩ reached links
    · exact absurd node (scalarized.above_access root stands nodup known includes split used deeper reached links)
  · intro id other reached node
    refine (places id other reached node).imp_right ?_
    rintro ⟨access, used, symbol, deeper, rfl⟩
    have stand := scalarized.stands.of_mem_pieces
      (scalarized.accesses_in known includes split used (Term.mem_pieces_self _))
    refine ⟨access.id, List.mem_map_of_mem used, stand.mem_ids_iff.mp ?_⟩
    rw [Term.ids_eq_pieces]
    exact List.mem_map_of_mem deeper

end

include scalarized root stands nodup in
/-- The list of a block where a statement of it sends declarations up: they stand together, and only others that
the statement sends up are between them and the statement. -/
theorem placed {block statement constructor : Run after.table.pool before.table.pool.size}
    (outer : (scalarized.run known).Includes block) (isBlock : block.term.node.isBlock = true)
    (contains : block.Contains statement) (sends : statement.Sends constructor) :
    ∃ front between back, after.tree.nodes.get? block.term.id =
        some (.block (front ++ constructor.result.moved.map Term.id ++ between ++ statement.term.id :: back)) ∧
      (front ++ constructor.result.moved.map Term.id ++ between ++ statement.term.id :: back).Nodup ∧
      ∀ added ∈ between, before.tree.nodes.size ≤ added.index := by
  obtain ⟨results, _, image⟩ := block.exists_statements isBlock
  obtain ⟨earlier, later, placed⟩ := contains.placed
  obtain ⟨front, back, moved⟩ := sends.moved
  have children : block.result.term.parts.map Term.id = earlier.map Term.id ++ front.map Term.id ++
      constructor.result.moved.map Term.id ++ back.map Term.id ++ statement.term.id :: later.map Term.id := by
    rw [placed, Rewriting.statements, moved]
    simp [statement.id_eq]
  have found := (scalarized.stands.of_mem_pieces outer.result).found_block (by rw [image]; rfl)
  rw [children] at found
  have differ := (scalarized.unshared root stands nodup).children_nodup (scalarized.reachable root outer.result) found
  rw [block.id_eq] at found
  refine ⟨earlier.map Term.id ++ front.map Term.id, back.map Term.id, later.map Term.id, found, differ, ?_⟩
  intro added member
  obtain ⟨declaration, sent, rfl⟩ := List.mem_map.mp member
  have new : declaration.id ∈ statement.fresh := statement.moved_fresh (moved ▸ List.mem_append_right _ sent)
  exact ((scalarized.changes.fresh _).mp (outer.fresh _ (contains.fresh _ new))).1

include scalarized root stands nodup in
/-- What a constructor in a statement of a block sends up. -/
theorem hoists {block statement constructor : Run after.table.pool before.table.pool.size}
    (outer : (scalarized.run known).Includes block) (within : block.term ∈ term.pieces)
    (isBlock : block.term.node.isBlock = true) (contains : block.Contains statement)
    (sends : statement.Sends constructor) :
    ∃ arguments uses, before.Hoists after constructor.term.id block.term.id statement.term.id arguments uses
      (constructor.result.moved.map Term.id) := by
  obtain ⟨ids, ty, declarations, accesses, split⟩ := constructor.exists_split sends.mixes
  obtain ⟨earlier, later, placed⟩ := contains.placed
  obtain ⟨front, back, moved⟩ := sends.moved
  have includes := outer.trans (contains.toIncludes.trans sends.toIncludes)
  have inStatement : statement.term ∈ term.pieces :=
    Term.mem_pieces_trans (Term.mem_pieces_of_part contains.member (Term.mem_pieces_self _)) within
  have inside : constructor.term ∈ term.pieces := Term.mem_pieces_trans sends.keeps.exposes.mem_pieces inStatement
  have found := (stands.of_mem_pieces inside).found
  obtain rfl : ids = constructor.term.parts.map Term.id := by
    have children := (stands.of_mem_pieces inside).children
    rw [split.node] at children
    exact children
  refine ⟨constructor.term.parts.map Term.id, accesses.map Term.id, ?_, ?_, ?_, ?_, ?_, ?_⟩
  · refine ⟨ty, split.node ▸ found, ?_⟩
    have image := scalarized.found includes.result
    rw [split.result] at image
    exact image
  · rw [split.result, List.forall₂_map_left_iff, List.forall₂_map_right_iff, List.forall₂_iff_zip]
    refine ⟨split.splits.each.length_eq, fun pair => ?_⟩
    refine scalarized.holds root stands nodup known includes split inside (fun declaration member => ?_) pair
    refine Term.mem_pieces_trans (Term.mem_pieces_of_part ?_ (Term.mem_pieces_self _)) outer.result
    rw [placed, Rewriting.statements, moved, split.result]
    simp [member]
  · exact (stands.reachable_iff_piece root).mpr ⟨_, within, rfl⟩
  · exact ⟨_, (stands.of_mem_pieces within).found_block isBlock, List.mem_map_of_mem contains.member⟩
  · exact sends.keeps.inner (stands.of_mem_pieces inStatement)
  · exact scalarized.placed root stands nodup known outer isBlock contains sends

include scalarized root stands nodup known in
/-- Every constructor that the walk gets to is in a statement of a block, and sends its declarations
there. -/
theorem exists_hoists {piece : Term} (top : term.node.isBlock = true) (exposes : term.Exposes piece)
    (mixes : piece.mixes = true) : ∃ block statement arguments uses declarations,
      before.Hoists after piece.id block statement arguments uses declarations := by
  rcases exposes.innermost with keeps | ⟨block, statement, outer, isBlock, member, keeps⟩
  · cases keeps with
    | here => exact absurd (mixes.symm.trans (Term.mixes_of_block top)) (by decide)
    | step _ inner => exact absurd (top.symm.trans inner) (by decide)
  · obtain ⟨block, rfl, includes⟩ := (scalarized.run known).exists_of_exposes outer
    obtain ⟨statement, rfl, contains⟩ := block.exists_contains isBlock member
    obtain ⟨constructor, rfl, sends⟩ := statement.exists_sends_of_keeps keeps mixes
    obtain ⟨arguments, uses, hoists⟩ :=
      scalarized.hoists root stands nodup known includes outer.mem_pieces isBlock contains sends
    exact ⟨_, _, arguments, uses, _, hoists⟩

include scalarized in
theorem not_nested {constructor : Run after.table.pool before.table.pool.size}
    (includes : (scalarized.run known).Includes constructor) (mixes : constructor.term.mixes = true) :
    ¬ term.Nested constructor.term := by
  intro nested
  obtain ⟨ids, ty, declarations, accesses, split⟩ := constructor.exists_split mixes
  obtain ⟨statement, single, left⟩ := scalarized.rewrites.pieces_of_nested nested
  obtain rfl := List.mem_singleton.mp single
  have equal := (scalarized.stands.of_mem_pieces includes.result).unique (scalarized.stands.of_mem_pieces left)
    constructor.id_eq
  rw [← equal, split.result, split.splits.unmixed] at mixes
  cases mixes

include scalarized in
theorem nested_kept {piece : Term} (nested : term.Nested piece) : after.tree.nodes.get? piece.id = some piece.node := by
  obtain ⟨statement, single, left⟩ := scalarized.rewrites.pieces_of_nested nested
  obtain rfl := List.mem_singleton.mp single
  exact scalarized.found left

include scalarized known in
theorem plain_kept {piece : Term} (inside : piece ∈ term.pieces) (inner : piece.node.isBlock = false)
    (plain : piece.mixes = true → term.Nested piece) : after.tree.nodes.get? piece.id = some piece.node := by
  rcases Term.exposes_or_nested inside with exposes | nested
  · cases mixes : piece.mixes with
    | true => exact scalarized.nested_kept (plain mixes)
    | false =>
      obtain ⟨part, rfl, includes⟩ := (scalarized.run known).exists_of_exposes exposes
      obtain ⟨results, below⟩ := part.exists_below mixes
      have image := scalarized.found includes.result
      rw [part.id_eq, below.result, Rewriting.rebuild_keep inner] at image
      exact image
  · exact scalarized.nested_kept nested

include scalarized root stands nodup known in
/-- A block has its old statements, and declarations that hold arguments. -/
theorem block_kept {block : Term} (inside : block ∈ term.pieces) (isBlock : block.node.isBlock = true) :
    ∃ statements, after.tree.nodes.get? block.id = some (.block statements) ∧ statements.Nodup ∧
      statements.filter (fun id => id.index < before.tree.nodes.size) = block.parts.map Term.id ∧
      ∀ added ∈ statements, before.tree.nodes.size ≤ added.index →
        ∃ piece ∈ term.pieces, (piece.mixes = true ∧ ¬ term.Nested piece) ∧
          ∃ statement arguments uses declarations,
            before.Hoists after piece.id block.id statement arguments uses declarations ∧ added ∈ declarations := by
  have parts : ∀ part ∈ block.parts, part.id.index < before.tree.nodes.size := fun part member =>
    (stands.of_mem_pieces inside).bounded _ (Term.mem_ids_of_part member part.id_mem_ids)
  rcases Term.exposes_or_nested inside with exposes | nested
  · obtain ⟨run, rfl, includes⟩ := (scalarized.run known).exists_of_exposes exposes
    obtain ⟨results, _, image⟩ := run.exists_statements isBlock
    have found := (scalarized.stands.of_mem_pieces includes.result).found_block (by rw [image]; rfl)
    have differ := (scalarized.unshared root stands nodup).children_nodup (scalarized.reachable root includes.result) found
    rw [run.id_eq] at found
    refine ⟨_, found, differ, run.statements_filter isBlock parts ?_, ?_⟩
    · exact fun id new => ((scalarized.changes.fresh id).mp (includes.fresh id new)).1
    · intro added member new
      obtain ⟨declaration, among, rfl⟩ := List.mem_map.mp member
      obtain ⟨statement, contains, sent⟩ := run.exists_contains_of_new isBlock among
      rcases List.mem_append.mp sent with moved | last
      · obtain ⟨constructor, sends, own⟩ := statement.exists_sends_of_moved moved
        obtain ⟨arguments, uses, hoists⟩ := scalarized.hoists root stands nodup known includes inside isBlock contains sends
        have outer := includes.trans (contains.toIncludes.trans sends.toIncludes)
        have within := Term.mem_pieces_trans (Term.mem_pieces_of_part contains.member sends.keeps.exposes.mem_pieces) inside
        exact ⟨constructor.term, within, ⟨sends.mixes, scalarized.not_nested known outer sends.mixes⟩,
          statement.term.id, arguments, uses, _, hoists, List.mem_map_of_mem own⟩
      · -- The statement itself is no new one.
        have old := parts _ contains.member
        rw [List.mem_singleton.mp last, statement.id_eq] at new
        omega
  · have standing := stands.of_mem_pieces inside
    have own := standing.found_block isBlock
    have found := (scalarized.nested_kept nested).trans (standing.found.symm.trans own)
    have differ := (stands.unshared root nodup).children_nodup
      ((stands.reachable_iff_piece root).mpr ⟨_, inside, rfl⟩) own
    have old : ∀ id ∈ block.parts.map Term.id, id.index < before.tree.nodes.size := by
      intro id member
      obtain ⟨part, among, rfl⟩ := List.mem_map.mp member
      exact parts part among
    refine ⟨_, found, differ, List.filter_eq_self.mpr fun id member => decide_eq_true (old id member), ?_⟩
    intro added member new
    exact absurd (old added member) (Nat.not_lt.mpr new)

end

end ScalarizedProgram

theorem Workspace.scalarizable_iff {space : Workspace} {term piece : Term} (root : term.id = space.tree.root)
    (stands : term.Of space.tree) (constructs : term.All Term.Constructs) (inside : piece ∈ term.pieces) :
    space.Scalarizable piece.id ↔ piece.mixes = true ∧ ¬ term.Nested piece := by
  have own : space.Mixes piece.id ↔ piece.mixes = true := by
    rw [mixes_iff root stands constructs]
    constructor
    · rintro ⟨other, member, same, mixes⟩
      obtain rfl := (stands.of_mem_pieces member).unique (stands.of_mem_pieces inside) same
      exact mixes
    · exact fun mixes => ⟨piece, inside, rfl, mixes⟩
  rw [Scalarizable, own, ← below_mixes_iff root stands constructs inside, not_exists]
  simp only [not_and]

/-- Over a valid program the pass ends, and no node of the new program has two places. Each argument of a
constructor that the pass scalarizes goes to a declaration of its own, a block gets nothing but such declarations,
each of them once, and a node stays as it is unless it is such a constructor or a block of the program. -/
theorem Workspace.scalarizeConstructors_frame {space : Workspace}
    (valid : space.tree.validate space.table .all = .ok ()) :
    ∃ after, scalarizeConstructors.run.run space = (.ok (), after) ∧ after.tree.Unshared ∧
      (∀ id, space.Scalarizable id → ∃ block statement arguments uses declarations,
        space.Hoists after id block statement arguments uses declarations) ∧
      (∀ block old, space.tree.Reachable block → space.tree.nodes.get? block = some (.block old) →
        ∃ statements, after.tree.nodes.get? block = some (.block statements) ∧ statements.Nodup ∧
          statements.filter (fun id => id.index < space.tree.nodes.size) = old ∧
          ∀ added ∈ statements, space.tree.nodes.size ≤ added.index → ∃ id, space.Scalarizable id ∧
            ∃ statement arguments uses declarations,
              space.Hoists after id block statement arguments uses declarations ∧ added ∈ declarations) ∧
      ∀ id node, space.tree.nodes.get? id = some node → ¬ space.Scalarizable id →
        (node.isBlock = true → ¬ space.tree.Reachable id) → after.tree.nodes.get? id = some node := by
  obtain ⟨program, root, stands, right⟩ := Tree.validate_iff.mp valid
  have constructs := right.wellFormed.constructs stands rfl
  have nodup := right.nodup rfl
  have known := right.wellFormed.resolves stands
  have isBlock := right.wellFormed.suits
  obtain ⟨result, fresh, after, done, scalarized⟩ := scalarizeConstructors_ends root stands nodup isBlock constructs
  refine ⟨after, done, scalarized.unshared root stands nodup, ?_, ?_, ?_⟩
  · intro id selected
    obtain ⟨piece, inside, rfl⟩ := (stands.reachable_iff_piece root).mp selected.1.1
    obtain ⟨mixes, single⟩ := (scalarizable_iff root stands constructs inside).mp selected
    have exposes := (Term.exposes_or_nested inside).resolve_right single
    exact scalarized.exists_hoists root stands nodup known isBlock exposes mixes
  · intro block old reached found
    obtain ⟨piece, inside, rfl⟩ := (stands.reachable_iff_piece root).mp reached
    have standing := stands.of_mem_pieces inside
    have node : piece.node = .block old := Option.some.inj (standing.found.symm.trans found)
    obtain ⟨statements, atBlock, differ, order, added⟩ :=
      scalarized.block_kept root stands nodup known inside (by rw [node]; rfl)
    have children := standing.children
    rw [node] at children
    refine ⟨statements, atBlock, differ, order.trans children.symm, fun id member new => ?_⟩
    obtain ⟨constructor, within, selected, rest⟩ := added id member new
    exact ⟨constructor.id, (scalarizable_iff root stands constructs within).mpr selected, rest⟩
  · intro id node found other apart
    by_cases reached : space.tree.Reachable id
    · obtain ⟨piece, inside, rfl⟩ := (stands.reachable_iff_piece root).mp reached
      obtain rfl : piece.node = node := Option.some.inj ((stands.of_mem_pieces inside).found.symm.trans found)
      refine scalarized.plain_kept known inside (eq_false_of_ne_true fun block => apart block reached) fun mixes => ?_
      by_contra single
      exact other ((scalarizable_iff root stands constructs inside).mpr ⟨mixes, single⟩)
    · have outside : id ∉ program.ids := fun inside => reached ((stands.reachable_iff root).mpr inside)
      exact (scalarized.changes.kept id (Arena.get?_eq_some_lt found) outside).trans found

/-- The outer constructor of `vec4(mat2(a, b))` is scalarized, and its argument gets a declaration. -/
theorem Workspace.scalarizeConstructors_frame_nested :
    nestedConstructor.tree.validate nestedConstructor.table .all = .ok () ∧ nestedConstructor.Scalarizable ⟨8⟩ ∧
      ∃ after, scalarizeConstructors.run.run nestedConstructor = (.ok (), after) ∧
        ∃ block statement arguments uses declarations,
          nestedConstructor.Hoists after ⟨8⟩ block statement arguments uses declarations := by
  have valid : nestedConstructor.tree.validate nestedConstructor.table .all = .ok () := rfl
  obtain ⟨term, root, stands, right⟩ := Tree.validate_iff.mp valid
  have unshared := stands.unshared root (right.nodup rfl)
  have step : nestedConstructor.tree.Child ⟨0⟩ ⟨8⟩ := ⟨_, rfl, by decide⟩
  have selected : nestedConstructor.Scalarizable ⟨8⟩ := by
    refine ⟨⟨.single step, rfl⟩, fun outer mixes below => ?_⟩
    obtain ⟨parent, above, links⟩ := Relation.TransGen.tail'_iff.mp below
    obtain rfl := unshared.parent_unique .refl step (mixes.1.trans above) links
    rcases above.cases_tail with rfl | ⟨other, path, links⟩
    · cases mixes.2
    · exact unshared.root other (mixes.1.trans path) links
  obtain ⟨after, done, _, hoists, _⟩ := scalarizeConstructors_frame valid
  exact ⟨valid, selected, after, done, hoists ⟨8⟩ selected⟩

end ShaderTree
