import ShaderTree.Proofs.Ancestry
import ShaderTree.Proofs.Visits

/-! Where the visits of a walk take place. On the way down to a piece a walk enters the nodes above
it, so that its site is known from the site it began with and the pieces entered since. -/
namespace ShaderTree

namespace Tree

def isBlock (tree : Tree) (id : NodeId) : Bool := (tree.nodes.get? id).any Node.isBlock

def isDefinition (tree : Tree) (id : NodeId) : Bool := (tree.nodes.get? id).any Node.isDefinition

theorem get?_of_write {first second : Tree} {id : NodeId} {node : Node} (written : first.write id node = .ok second) :
    second.nodes.get? id = some node ∧ ∀ other, other ≠ id → second.nodes.get? other = first.nodes.get? other := by
  obtain ⟨nodes, write, same⟩ := bind_eq_ok.mp written
  obtain rfl : { first with nodes } = second := Except.ok.inj same
  have inside : id.index < first.nodes.size := by
    by_contra outside
    simp [Arena.write, Arena.contains_iff.not.mpr outside] at write
  obtain ⟨after, again, _, present, others⟩ := Arena.write_spec node inside
  obtain rfl := Except.ok.inj (write.symm.trans again)
  exact ⟨present, others⟩

def Keeps (ids : List NodeId) (first second : Tree) : Prop :=
  ∀ id node, first.nodes.get? id = some node → id ∉ ids → second.nodes.get? id = some node

namespace Keeps

variable {first second third : Tree} {ids : List NodeId}

theorem refl (tree : Tree) : Keeps ids tree tree := fun _ _ found _ => found

theorem of_extends (extension : first.nodes.Extends second.nodes) : Keeps ids first second :=
  fun id node found _ => extension id node found

theorem trans (earlier : Keeps ids first second) (later : Keeps ids second third) : Keeps ids first third :=
  fun id node found outside => later id node (earlier id node found outside) outside

theorem mono (keeps : Keeps ids first second) (wider : ids ⊆ others) : Keeps others first second :=
  fun id node found outside => keeps id node found fun inside => outside (wider inside)

theorem of (keeps : Keeps ids first second) {term : Term} (stands : term.Of first) (apart : ∀ id ∈ term.ids, id ∉ ids) :
    term.Of second := by
  induction stands with
  | @mk id node parts found children _ ih =>
    refine .mk (keeps id node found (apart id (Term.id_mem_ids _))) children fun part member => ?_
    exact ih part member fun id inside => apart id (Term.mem_ids_of_part member inside)

/-- Writing one node keeps the others. -/
theorem of_write {id : NodeId} {node : Node} (written : first.write id node = .ok second) : Keeps [id] first second :=
  fun other old found apart => ((get?_of_write written).2 other (by simpa using apart)).trans found

end Keeps
end Tree

namespace Site

/-- The innermost block around. -/
def block? (site : Site) (tree : Tree) : Option NodeId := site.ancestors.find? tree.isBlock

/-- The statement of the innermost block that is being walked when the walk has come to `id`. -/
def statement (site : Site) (tree : Tree) (id : NodeId) : NodeId :=
  (site.ancestors.takeWhile (!tree.isBlock ·)).getLastD id

theorem block?_ne {site : Site} {tree : Tree} {id : NodeId} (outside : id ∉ site.ancestors) :
    site.block? tree ≠ some id :=
  fun inside => outside (List.mem_of_find?_eq_some inside)

/-- The site knows the way to `id`, the blocks on it, and whether a function is on it. -/
structure Tells (tree : Tree) (site : Site) (id : NodeId) : Prop where
  ancestry : tree.Ancestry id site.ancestors
  blockDepth : site.blockDepth = site.ancestors.countP tree.isBlock
  inFunction : site.inFunction = site.ancestors.any tree.isDefinition

theorem enter_blockDepth {tree : Tree} {site : Site} {id : NodeId} {node : Node} (found : tree.nodes.get? id = some node)
    (known : site.blockDepth = site.ancestors.countP tree.isBlock) :
    (site.enter id node).blockDepth = (site.enter id node).ancestors.countP tree.isBlock := by
  simp only [enter, List.countP_cons, Tree.isBlock, found, Option.any_some, known]
  split <;> rfl

theorem enter_inFunction {tree : Tree} {site : Site} {id : NodeId} {node : Node} (found : tree.nodes.get? id = some node)
    (known : site.inFunction = site.ancestors.any tree.isDefinition) :
    (site.enter id node).inFunction = (site.enter id node).ancestors.any tree.isDefinition := by
  simp only [enter, List.any_cons, Tree.isDefinition, found, Option.any_some, known]
  exact Bool.or_comm _ _

theorem Tells.enter {tree : Tree} {site : Site} {id child : NodeId} {node : Node} (tells : site.Tells tree id)
    (found : tree.nodes.get? id = some node) (member : child ∈ node.children) :
    (site.enter id node).Tells tree child :=
  ⟨tells.ancestry.child ⟨node, found, member⟩, enter_blockDepth found tells.blockDepth,
    enter_inFunction found tells.inFunction⟩

end Site

inductive Term.Arrives : (site : Site) → (term : Term) → (place : Site) → (piece : Term) → Prop where
  | here {site : Site} {term : Term} : Arrives site term site term
  | inside {site place : Site} {id : NodeId} {node : Node} {parts : List Term} {part piece : Term}
      (member : part ∈ parts) (arrives : Arrives (site.enter id node) part place piece) :
      Arrives site (.mk id node parts) place piece

namespace Term.Arrives

variable {tree : Tree} {site place : Site} {term piece : Term}

theorem mem_pieces (arrives : Arrives site term place piece) : piece ∈ term.pieces := by
  induction arrives with
  | here => exact mem_pieces_self _
  | inside member _ ih => exact mem_pieces_of_part member ih

theorem tells (arrives : Arrives site term place piece) (stands : term.Of tree) (knows : site.Tells tree term.id) :
    place.Tells tree piece.id := by
  induction arrives with
  | here => exact knows
  | @inside site place id node parts part piece member _ ih =>
    have children : node.children = parts.map Term.id := stands.children
    refine ih (stands.parts member) (knows.enter stands.found ?_)
    rw [children]
    exact List.mem_map_of_mem member

/-- The nodes entered are pieces, and the outermost of them is the piece as a whole. -/
theorem entered (arrives : Arrives site term place piece) : ∃ inner : List Term,
    place.ancestors = inner.map Term.id ++ site.ancestors ∧ (∀ part ∈ inner, part ∈ term.pieces) ∧
      (inner.map Term.id).getLastD piece.id = term.id := by
  induction arrives with
  | here => exact ⟨[], rfl, by simp, rfl⟩
  | @inside site place id node parts part piece member _ ih =>
    obtain ⟨inner, ancestors, pieces, _⟩ := ih
    refine ⟨inner ++ [.mk id node parts], ?_, ?_, ?_⟩
    · simp [ancestors, Site.enter, Term.id]
    · intro other among
      rcases List.mem_append.mp among with deeper | own
      · exact mem_pieces_of_part member (pieces other deeper)
      · rw [List.mem_singleton.mp own]
        exact mem_pieces_self _
    · simp

end Term.Arrives

/-- The visit is one of a piece of `term`, which the walk enters at `site`. A visit between the
children of a piece takes place inside of it. -/
def Walk.Visit.Within (site : Site) (term : Term) (visit : Walk.Visit σ) : Prop :=
  ∃ place piece, Term.Arrives site term place piece ∧ visit.id = piece.id ∧
    visit.site = if visit.moment = .between then place.enter piece.id piece.node else place

theorem Term.mem_ids_of_piece {term piece : Term} (inside : piece ∈ term.pieces) : piece.id ∈ term.ids := by
  rw [ids_eq_pieces]
  exact List.mem_map_of_mem inside

namespace Walk.Visit

variable {tree : Tree} {site : Site} {term part : Term} {visit : Visit σ}

theorem Within.id_mem (within : visit.Within site term) : visit.id ∈ term.ids := by
  obtain ⟨place, piece, arrives, same, _⟩ := within
  exact same ▸ Term.mem_ids_of_piece arrives.mem_pieces

theorem Within.of_part {id : NodeId} {node : Node} {parts : List Term} (member : part ∈ parts)
    (within : visit.Within (site.enter id node) part) : visit.Within site (.mk id node parts) := by
  obtain ⟨place, piece, arrives, same⟩ := within
  exact ⟨place, piece, arrives.inside member, same⟩

theorem Within.entered (within : visit.Within site term) : ∃ inner : List Term,
    visit.site.ancestors = inner.map Term.id ++ site.ancestors ∧ (∀ part ∈ inner, part ∈ term.pieces) ∧
      (inner.map Term.id).getLastD visit.id = term.id := by
  obtain ⟨place, piece, arrives, same, stands⟩ := within
  obtain ⟨inner, ancestors, pieces, last⟩ := arrives.entered
  by_cases between : visit.moment = .between
  · refine ⟨piece :: inner, ?_, List.forall_mem_cons.mpr ⟨arrives.mem_pieces, pieces⟩, ?_⟩
    · simp [stands, between, Site.enter, ancestors]
    · rw [List.map_cons, List.getLastD_cons]
      exact last
  · exact ⟨inner, by rw [stands, if_neg between, ancestors], pieces, same ▸ last⟩

end Walk.Visit
end ShaderTree
