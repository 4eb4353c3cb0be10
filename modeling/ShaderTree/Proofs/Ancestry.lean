import ShaderTree.Proofs.Reachability

/-! The nodes above a node. In a tree where every node has one parent they are known from the node,
and they differ, so that such a tree is finite below every node. -/
namespace ShaderTree
namespace Tree

/-- A way from the root to `id` leads through `above`, the innermost first. -/
inductive Ancestry (tree : Tree) : (id : NodeId) → (above : List NodeId) → Prop where
  | root : Ancestry tree tree.root []
  | child {parent id : NodeId} {above : List NodeId} (outer : Ancestry tree parent above)
      (link : tree.Child parent id) : Ancestry tree id (parent :: above)

namespace Ancestry

variable {tree : Tree} {id : NodeId} {above others : List NodeId}

theorem reachable (ancestry : tree.Ancestry id above) : tree.Reachable id := by
  induction ancestry with
  | root => exact .refl
  | child _ link ih => exact ih.tail link

/-- The way to a node is known from the node. -/
theorem unique (unshared : tree.Unshared) (one : tree.Ancestry id above) (other : tree.Ancestry id others) :
    above = others := by
  induction one generalizing others with
  | root =>
    cases other with
    | root => rfl
    | child outer link => exact absurd link (unshared.root _ outer.reachable)
  | child outer link ih =>
    cases other with
    | root => exact absurd link (unshared.root _ outer.reachable)
    | child further again =>
      obtain rfl := unshared.parent_unique outer.reachable link further.reachable again
      rw [ih further]

theorem of_suffix {outer : List NodeId} (ancestry : tree.Ancestry id above) (suffix : parent :: outer <:+ id :: above) :
    tree.Ancestry parent outer := by
  induction ancestry with
  | root =>
    obtain ⟨rfl, rfl⟩ := List.cons.inj (suffix.eq_of_length_le (by simp))
    exact .root
  | child further link ih =>
    rcases List.suffix_cons_iff.mp suffix with same | deeper
    · obtain ⟨rfl, rfl⟩ := List.cons.inj same
      exact further.child link
    · exact ih deeper

/-- No way leads through the node that it leads to. -/
theorem not_mem (unshared : tree.Unshared) (ancestry : tree.Ancestry id above) : id ∉ above := by
  intro again
  obtain ⟨front, outer, split⟩ := List.append_of_mem again
  have suffix : id :: outer <:+ id :: above := split ▸ (List.suffix_append front _).trans (List.suffix_cons _ _)
  have same := (ancestry.of_suffix suffix).unique unshared ancestry
  have longer := congrArg List.length split
  rw [← same, List.length_append, List.length_cons] at longer
  omega

theorem nodup (unshared : tree.Unshared) (ancestry : tree.Ancestry id above) : (id :: above).Nodup := by
  refine List.nodup_cons.mpr ⟨ancestry.not_mem unshared, ?_⟩
  induction ancestry with
  | root => exact List.nodup_nil
  | child outer link ih => exact List.nodup_cons.mpr ⟨outer.not_mem unshared, ih⟩

theorem mem_lt (ancestry : tree.Ancestry id above) : ∀ outer ∈ above, outer.index < tree.nodes.size := by
  induction ancestry with
  | root => simp
  | child _ link ih =>
    obtain ⟨node, found, _⟩ := link
    exact List.forall_mem_cons.mpr ⟨Arena.get?_eq_some_lt found, ih⟩

theorem length_lt (unshared : tree.Unshared) (inside : id.index < tree.nodes.size)
    (ancestry : tree.Ancestry id above) : above.length < tree.nodes.size := by
  have within : id :: above ⊆ (List.range tree.nodes.size).map Handle.mk := by
    intro other member
    refine List.mem_map.mpr ⟨other.index, List.mem_range.mpr ?_, rfl⟩
    rcases List.mem_cons.mp member with rfl | outer
    · exact inside
    · exact ancestry.mem_lt other outer
  have short := ((ancestry.nodup unshared).subperm within).length_le
  simpa [Nat.succ_le_iff] using short

/-- What is below a node has the way to that node as the outer part of its own. -/
theorem of_mem_ids {term : Term} {handle : NodeId} (stands : term.Of tree) (ancestry : tree.Ancestry term.id above)
    (inside : handle ∈ term.ids) : ∃ inner, tree.Ancestry handle inner ∧ term.id :: above <:+ handle :: inner := by
  induction stands generalizing above with
  | @mk own node parts found children stand ih =>
    rw [Term.ids_mk] at inside
    rcases List.mem_cons.mp inside with rfl | deeper
    · exact ⟨above, ancestry, List.suffix_refl _⟩
    · obtain ⟨part, member, inner⟩ := List.mem_flatMap.mp deeper
      have link : tree.Child own part.id := ⟨node, found, by rw [children]; exact List.mem_map_of_mem member⟩
      obtain ⟨outer, leads, suffix⟩ := ih part member (ancestry.child link) inner
      exact ⟨outer, leads, (List.suffix_cons _ _).trans suffix⟩

end Ancestry

section
variable {tree : Tree}

private theorem exists_parts {ids : List NodeId} (each : ∀ id ∈ ids, ∃ term : Term, term.id = id ∧ term.Of tree) :
    ∃ parts : List Term, ids = parts.map Term.id ∧ ∀ part ∈ parts, part.Of tree := by
  induction ids with
  | nil => exact ⟨[], rfl, by simp⟩
  | cons id rest ih =>
    obtain ⟨first, rfl, stands⟩ := each id List.mem_cons_self
    obtain ⟨others, rfl, standing⟩ := ih fun other member => each other (List.mem_cons_of_mem _ member)
    exact ⟨first :: others, rfl, List.forall_mem_cons.mpr ⟨stands, standing⟩⟩

/-- Below every node stands a piece, as ways are shorter than the arena is large. -/
theorem Ancestry.exists_term (unshared : tree.Unshared) {id : NodeId} {above : List NodeId}
    (inside : id.index < tree.nodes.size) (ancestry : tree.Ancestry id above) :
    ∃ term : Term, term.id = id ∧ term.Of tree := by
  have bound := ancestry.length_lt unshared inside
  obtain ⟨node, found⟩ := Arena.get?_of_lt inside
  have each : ∀ child ∈ node.children, ∃ term : Term, term.id = child ∧ term.Of tree := by
    intro child member
    have link : tree.Child id child := ⟨node, found, member⟩
    exact exists_term unshared (unshared.inside id child ancestry.reachable link) (ancestry.child link)
  obtain ⟨parts, children, standing⟩ := exists_parts each
  exact ⟨.mk id node parts, rfl, .mk found children standing⟩
  termination_by tree.nodes.size - above.length

theorem Ancestry.ids_nodup (unshared : tree.Unshared) {term : Term} {above : List NodeId} (stands : term.Of tree)
    (ancestry : tree.Ancestry term.id above) : term.ids.Nodup := by
  induction stands generalizing above with
  | @mk own node parts found children stand ih =>
    have below : ∀ part ∈ parts, tree.Ancestry part.id (own :: above) := fun part member =>
      ancestry.child ⟨node, found, by rw [children]; exact List.mem_map_of_mem member⟩
    have differ := unshared.children_nodup ancestry.reachable found
    rw [children, List.Nodup, List.pairwise_map] at differ
    rw [Term.ids_mk, List.nodup_cons, List.nodup_flatMap]
    refine ⟨fun again => ?_, fun part member => ih part member (below part member),
      differ.imp_of_mem fun {one other} left right apart handle first second => apart ?_⟩
    · -- the way to the node would lead through one of its parts
      obtain ⟨part, member, inside⟩ := List.mem_flatMap.mp again
      obtain ⟨inner, leads, suffix⟩ := (below part member).of_mem_ids (stand part member) inside
      obtain rfl := leads.unique unshared ancestry
      have longer := suffix.length_le
      simp only [List.length_cons] at longer
      omega
    · -- the ways through both parts are one way, and the parts stand at the same place of it
      obtain ⟨inner, leads, suffix⟩ := (below one left).of_mem_ids (stand one left) first
      obtain ⟨outer, again, suffix'⟩ := (below other right).of_mem_ids (stand other right) second
      obtain rfl := leads.unique unshared again
      have same := (List.suffix_of_suffix_length_le suffix suffix' (by simp)).eq_of_length (by simp)
      exact (List.cons.inj same).1

/-- Without sharing, all that can be reached is one finite piece, in which no handle occurs twice. -/
theorem Unshared.exists_term (unshared : tree.Unshared) (inside : tree.root.index < tree.nodes.size) :
    ∃ term : Term, term.id = tree.root ∧ term.Of tree ∧ term.ids.Nodup := by
  obtain ⟨term, root, stands⟩ := Ancestry.root.exists_term unshared inside
  have ancestry : tree.Ancestry term.id [] := root ▸ Ancestry.root
  exact ⟨term, root, stands, ancestry.ids_nodup unshared stands⟩

end
end Tree
end ShaderTree
