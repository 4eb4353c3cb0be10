import Mathlib.Data.List.Flatten
import ShaderTree.Proofs.Acceptance

/-! Which nodes of a tree can be reached from its root, and by which links. In a valid
tree the links form a tree in the proper sense: no node is shared, none stands below
itself, and no link leaves the arena. -/
namespace ShaderTree

namespace Tree

def Child (tree : Tree) (parent child : NodeId) : Prop :=
  ∃ node, tree.nodes.get? parent = some node ∧ child ∈ node.children

def Below (tree : Tree) (parent id : NodeId) : Prop := Relation.ReflTransGen tree.Child parent id

def Reachable (tree : Tree) (id : NodeId) : Prop := tree.Below tree.root id

/-- What can be reached is a tree: links stay inside of the arena, and every node but the root
has one parent, which has it as a child once. -/
structure Unshared (tree : Tree) : Prop where
  inside : ∀ parent child, tree.Reachable parent → tree.Child parent child → child.index < tree.nodes.size
  root : ∀ parent, tree.Reachable parent → ¬ tree.Child parent tree.root
  parent : ∀ id, tree.Reachable id → id ≠ tree.root →
    ∃ parent node, tree.Reachable parent ∧ tree.nodes.get? parent = some node ∧ node.children.count id = 1 ∧
      ∀ other, tree.Reachable other → tree.Child other id → other = parent

theorem Unshared.parent_unique {tree : Tree} {one other child : NodeId} (unshared : tree.Unshared)
    (left : tree.Reachable one) (links : tree.Child one child) (right : tree.Reachable other)
    (again : tree.Child other child) : other = one := by
  have below : child ≠ tree.root := fun root => unshared.root one left (root ▸ links)
  obtain ⟨parent, _, _, _, _, unique⟩ := unshared.parent child (left.tail links) below
  rw [unique one left links, unique other right again]

theorem Unshared.children_nodup {tree : Tree} {id : NodeId} {node : Node} (unshared : tree.Unshared)
    (reached : tree.Reachable id) (found : tree.nodes.get? id = some node) : node.children.Nodup := by
  refine List.nodup_iff_count_eq_one.mpr fun child member => ?_
  have link : tree.Child id child := ⟨node, found, member⟩
  have below : child ≠ tree.root := fun root => unshared.root id reached (root ▸ link)
  obtain ⟨parent, other, _, held, once, unique⟩ := unshared.parent child (reached.tail link) below
  obtain rfl := unique id reached link
  obtain rfl := Option.some.inj (found.symm.trans held)
  exact once

end Tree

namespace Term

variable {tree : Tree} {term : Term} {parent child handle : NodeId}

def links : Term → List (NodeId × NodeId)
  | mk id _ parts => parts.flatMap fun part => (id, part.id) :: part.links
  termination_by term => sizeOf term

theorem links_mk (id : NodeId) (node : Node) (parts : List Term) :
    (mk id node parts).links = parts.flatMap fun part => (id, part.id) :: part.links := by rw [links]

/-- A handle occurs at the top of the piece and once for every link to it. -/
theorem ids_eq_links (term : Term) : term.ids = term.id :: term.links.map Prod.snd := by
  induction term using induct with
  | step id node parts ih =>
    rw [ids_mk, links_mk, List.map_flatMap]
    exact congrArg (id :: ·) (List.flatMap_congr ih)

theorem mem_ids_of_link (link : (parent, child) ∈ term.links) : child ∈ term.ids := by
  rw [ids_eq_links]
  exact List.mem_cons_of_mem _ (List.mem_map_of_mem link)

namespace Of

/-- At every handle of the piece stands a piece, whose handles and links are among those of the
whole. -/
theorem piece (stands : Of tree term) (inside : handle ∈ term.ids) :
    ∃ piece, piece.id = handle ∧ Of tree piece ∧ piece.ids.Sublist term.ids ∧ piece.links.Sublist term.links := by
  induction stands with
  | @mk own node parts found children stand ih =>
    rw [ids_mk] at inside
    rcases List.mem_cons.mp inside with rfl | deeper
    · exact ⟨_, rfl, .mk found children stand, List.Sublist.refl _, List.Sublist.refl _⟩
    · obtain ⟨part, member, inner⟩ := List.mem_flatMap.mp deeper
      obtain ⟨piece, same, standing, ids, links⟩ := ih part member inner
      have among : [part].Sublist parts := List.singleton_sublist.mpr member
      refine ⟨piece, same, standing, ?_, ?_⟩
      · have wide := among.flatMap Term.ids
        rw [List.flatMap_singleton] at wide
        rw [ids_mk]
        exact (ids.trans wide).cons own
      · have wide := among.flatMap fun part => (own, part.id) :: part.links
        rw [List.flatMap_singleton] at wide
        rw [links_mk]
        exact (links.cons _).trans wide

/-- The links of the piece are the ways from its nodes to their children. -/
theorem link_iff (stands : Of tree term) :
    (parent, child) ∈ term.links ↔ parent ∈ term.ids ∧ tree.Child parent child := by
  constructor
  · intro link
    induction stands with
    | @mk own node parts found children stand ih =>
      rw [links_mk] at link
      obtain ⟨part, member, inside⟩ := List.mem_flatMap.mp link
      rcases List.mem_cons.mp inside with here | deeper
      · obtain ⟨rfl, rfl⟩ := Prod.mk.inj here
        refine ⟨id_mem_ids _, node, found, ?_⟩
        rw [children]
        exact List.mem_map_of_mem member
      · obtain ⟨inner, step⟩ := ih part member deeper
        exact ⟨mem_ids_of_part member inner, step⟩
  · rintro ⟨inside, node, found, among⟩
    obtain ⟨⟨own, same, parts⟩, rfl, standing, _, links⟩ := stands.piece inside
    obtain rfl : same = node := Option.some.inj (standing.found.symm.trans found)
    have children : same.children = parts.map Term.id := standing.children
    rw [children] at among
    obtain ⟨part, member, rfl⟩ := List.mem_map.mp among
    apply links.subset
    rw [links_mk]
    exact List.mem_flatMap.mpr ⟨part, member, List.mem_cons_self⟩

/-- The handles of the piece are those that can be reached from its top. -/
theorem mem_ids_iff (stands : Of tree term) : handle ∈ term.ids ↔ tree.Below term.id handle := by
  constructor
  · intro inside
    induction stands with
    | @mk own node parts found children stand ih =>
      rw [ids_mk] at inside
      rcases List.mem_cons.mp inside with rfl | deeper
      · exact Relation.ReflTransGen.refl
      · obtain ⟨part, member, inner⟩ := List.mem_flatMap.mp deeper
        have step : tree.Child own part.id := ⟨node, found, by rw [children]; exact List.mem_map_of_mem member⟩
        exact Relation.ReflTransGen.head step (ih part member inner)
  · intro below
    induction below with
    | refl => exact id_mem_ids term
    | tail _ step ih => exact mem_ids_of_link (stands.link_iff.mpr ⟨ih, step⟩)

theorem reachable_iff (stands : Of tree term) (root : term.id = tree.root) :
    tree.Reachable handle ↔ handle ∈ term.ids := by
  rw [stands.mem_ids_iff, root]
  rfl

/-- The children of a node differ where no handle occurs twice. -/
theorem children_nodup (stands : Of tree term) (nodup : term.ids.Nodup) : term.node.children.Nodup := by
  obtain ⟨id, node, parts⟩ := term
  have heads : (parts.flatMap fun part => [part.id]).Sublist (parts.flatMap Term.ids) := by
    apply List.Sublist.flatMap_right
    intro part _
    exact List.singleton_sublist.mpr (id_mem_ids part)
  rw [ids_mk] at nodup
  rw [stands.children, ← List.flatMap_pure_eq_map]
  exact heads.nodup (List.nodup_cons.mp nodup).2

/-- A piece at the root in which no handle occurs twice is all that can be reached, and a tree. -/
theorem unshared (stands : Of tree term) (root : term.id = tree.root) (nodup : term.ids.Nodup) : tree.Unshared := by
  have reachable : ∀ id, tree.Reachable id → id ∈ term.ids := fun id => (stands.reachable_iff root).mp
  have link : ∀ parent child, tree.Reachable parent → tree.Child parent child → (parent, child) ∈ term.links :=
    fun parent child reached step => stands.link_iff.mpr ⟨reachable parent reached, step⟩
  have once := nodup
  rw [ids_eq_links, root] at once
  obtain ⟨top, targets⟩ := List.nodup_cons.mp once
  constructor
  · intro parent child reached step
    exact stands.bounded child (mem_ids_of_link (link parent child reached step))
  · intro parent reached step
    exact top (List.mem_map_of_mem (link parent tree.root reached step))
  · intro id reached other
    have inside := reachable id reached
    rw [ids_eq_links, root] at inside
    obtain ⟨⟨parent, child⟩, linked, rfl⟩ := List.mem_map.mp ((List.mem_cons.mp inside).resolve_left other)
    obtain ⟨above, node, found, among⟩ := stands.link_iff.mp linked
    obtain ⟨piece, rfl, standing, ids, _⟩ := stands.piece above
    obtain rfl : piece.node = node := Option.some.inj (standing.found.symm.trans found)
    have single : piece.node.children.count child = 1 :=
      List.count_eq_one_of_mem (standing.children_nodup (ids.nodup nodup)) among
    refine ⟨piece.id, piece.node, (stands.reachable_iff root).mpr above, found, single, ?_⟩
    intro second reached step
    exact congrArg Prod.fst (List.inj_on_of_nodup_map targets (link second child reached step) linked rfl)

end Of
end Term

namespace Term

variable {tree : Tree} {term piece part : Term} {handle : NodeId}

def pieces : Term → List Term
  | mk id node parts => mk id node parts :: parts.flatMap pieces
  termination_by term => sizeOf term

theorem pieces_eq (term : Term) : term.pieces = term :: term.parts.flatMap pieces := by
  obtain ⟨id, node, parts⟩ := term
  rw [pieces, Term.parts]

theorem mem_pieces_self (term : Term) : term ∈ term.pieces := by
  rw [pieces_eq]
  exact List.mem_cons_self

/-- A piece is the whole or stands below one of the parts. -/
theorem mem_pieces_iff : piece ∈ term.pieces ↔ piece = term ∨ ∃ part ∈ term.parts, piece ∈ part.pieces := by
  rw [pieces_eq, List.mem_cons, List.mem_flatMap]

theorem mem_pieces_of_part (member : part ∈ term.parts) (inside : piece ∈ part.pieces) : piece ∈ term.pieces :=
  mem_pieces_iff.mpr (.inr ⟨part, member, inside⟩)

theorem mem_pieces_trans (inner : piece ∈ part.pieces) (outer : part ∈ term.pieces) : piece ∈ term.pieces := by
  induction term using induct with
  | step id node parts ih =>
    rcases mem_pieces_iff.mp outer with rfl | ⟨other, member, inside⟩
    · exact inner
    · exact mem_pieces_of_part member (ih other member inside)

/-- What stands below a part is a part of something, which is the whole or stands below that part. -/
theorem exists_parent (member : part ∈ term.parts) (inside : piece ∈ part.pieces) :
    ∃ parent, (parent = term ∨ parent ∈ part.pieces) ∧ piece ∈ parent.parts := by
  induction part using induct generalizing term with
  | step id node parts ih =>
    rcases mem_pieces_iff.mp inside with rfl | ⟨deeper, among, within⟩
    · exact ⟨term, .inl rfl, member⟩
    · obtain ⟨parent, rfl | above, held⟩ := ih deeper among among within
      · exact ⟨_, .inr (mem_pieces_self _), held⟩
      · exact ⟨parent, .inr (mem_pieces_of_part among above), held⟩

theorem ids_eq_pieces (term : Term) : term.ids = term.pieces.map Term.id := by
  induction term using induct with
  | step id node parts ih =>
    rw [ids_mk, pieces, List.map_cons, List.map_flatMap]
    exact congrArg (id :: ·) (List.flatMap_congr ih)

theorem All.of_mem_pieces {holds : Term → Prop} (all : All holds term) (member : piece ∈ term.pieces) :
    All holds piece := by
  induction all with
  | mk own rest ih =>
    rcases mem_pieces_iff.mp member with rfl | ⟨part, among, inside⟩
    · exact .mk own rest
    · exact ih part among inside

namespace Of

theorem of_mem_pieces (stands : Of tree term) (member : piece ∈ term.pieces) : Of tree piece := by
  induction stands with
  | mk found children stand ih =>
    rcases mem_pieces_iff.mp member with rfl | ⟨part, among, inside⟩
    · exact .mk found children stand
    · exact ih part among inside

/-- Every handle that can be reached is the handle of one of the pieces. -/
theorem reachable_iff_piece (stands : Of tree term) (root : term.id = tree.root) :
    tree.Reachable handle ↔ ∃ piece ∈ term.pieces, piece.id = handle := by
  rw [stands.reachable_iff root, ids_eq_pieces, List.mem_map]

/-- The handles below a piece are those that one link or more lead to. -/
theorem below_iff (stands : Of tree term) :
    Relation.TransGen tree.Child term.id handle ↔ ∃ part ∈ term.parts, handle ∈ part.ids := by
  rw [Relation.TransGen.head'_iff]
  constructor
  · rintro ⟨child, ⟨node, found, among⟩, below⟩
    obtain rfl : term.node = node := Option.some.inj (stands.found.symm.trans found)
    rw [stands.children] at among
    obtain ⟨part, member, rfl⟩ := List.mem_map.mp among
    exact ⟨part, member, (stands.parts member).mem_ids_iff.mpr below⟩
  · rintro ⟨part, member, inside⟩
    refine ⟨part.id, ⟨term.node, stands.found, ?_⟩, (stands.parts member).mem_ids_iff.mp inside⟩
    rw [stands.children]
    exact List.mem_map_of_mem member

end Of
end Term

section
variable {checks : Checks} {table : SymbolTable} {tree : Tree} {term : Term} {id : NodeId} {node : Node}

/-- At every handle in a valid program stands a piece that is well formed. -/
theorem Valid.piece (valid : Valid checks table term) (stands : term.Of tree) (inside : id ∈ term.ids) :
    ∃ returns role piece, Term.id piece = id ∧ piece.Of tree ∧ WellFormed checks table returns role piece := by
  have each : term.All fun piece => ∃ returns role, WellFormed checks table returns role piece :=
    valid.wellFormed.all stands fun returns role _ _ right => ⟨returns, role, right⟩
  rw [Term.ids_eq_pieces, List.mem_map] at inside
  obtain ⟨piece, among, same⟩ := inside
  obtain ⟨returns, role, right⟩ := (each.of_mem_pieces among).own
  exact ⟨returns, role, piece, same, stands.of_mem_pieces among, right⟩

/-- In a valid program every node fits what its children show. -/
theorem Valid.fits (valid : Valid checks table term) (stands : term.Of tree) (inside : id ∈ term.ids)
    (found : tree.nodes.get? id = some node) :
    ∃ returns, node.Fits checks table returns (node.children.map tree.face) id := by
  obtain ⟨returns, _, piece, rfl, standing, right⟩ := valid.piece stands inside
  obtain rfl : piece.node = node := Option.some.inj (standing.found.symm.trans found)
  rw [standing.children, Term.faces_of fun part member => standing.parts member]
  cases right with
  | mk _ fits _ _ => exact ⟨returns, fits⟩

theorem Tree.fits_of_accepted (accepted : tree.validate table checks = .ok ()) (reached : tree.Reachable id)
    (found : tree.nodes.get? id = some node) :
    ∃ returns, node.Fits checks table returns (node.children.map tree.face) id := by
  obtain ⟨term, root, stands, valid⟩ := validate_iff.mp accepted
  exact valid.fits stands ((stands.reachable_iff root).mp reached) found

end

/-- Whatever else validation looks at, a tree that it accepts with the check for single parents is a
tree in the proper sense. -/
theorem Tree.validate_unshared {tree : Tree} {table : SymbolTable} {checks : Checks}
    (single : checks.singleParent = true) (accepted : tree.validate table checks = .ok ()) : tree.Unshared := by
  obtain ⟨term, root, stands, valid⟩ := validate_iff.mp accepted
  exact stands.unshared root (valid.nodup single)

def Tree.branching : Tree :=
  { nodes := ⟨#[.block [⟨1⟩], .ifElse ⟨2⟩ ⟨3⟩ none, .constant [.bool true] .bool, .block []]⟩
    root := ⟨0⟩ }

theorem Tree.validate_unshared_branching :
    branching.validate { builtIns := {}, profile := {} } .all = .ok () ∧ branching.Unshared := by
  have accepted : branching.validate { builtIns := {}, profile := {} } .all = .ok () := rfl
  exact ⟨accepted, validate_unshared rfl accepted⟩

end ShaderTree
