import Mathlib.Data.List.Nodup
import Mathlib.Data.List.Perm.Subperm
import Mathlib.Logic.Relation
import ShaderTree.Proofs.Arena
import ShaderTree.Tree.Basic

/-! The finite pieces that trees are made of. A `Term` is a node together with the
pieces below its children, so that proofs follow the syntax by induction where the
tree itself only has handles; `Term.Of` says that a piece stands in a tree. A handle
that is reached is the handle of some part, and parts without a common handle keep
what they are when the others change. -/
namespace ShaderTree

/-- A node with its handle and the pieces below its children, in their order. -/
inductive Term where
  | mk (id : NodeId) (node : Node) (parts : List Term)

namespace Term

def id : Term → NodeId
  | mk id _ _ => id

def node : Term → Node
  | mk _ node _ => node

def parts : Term → List Term
  | mk _ _ parts => parts

def ty? (term : Term) : Option Ty := term.node.ty?

theorem induct {motive : Term → Prop}
    (step : ∀ id node parts, (∀ part ∈ parts, motive part) → motive (mk id node parts))
    (term : Term) : motive term := by
  refine Term.rec (motive_1 := motive) (motive_2 := fun parts => ∀ part ∈ parts, motive part)
    ?_ ?_ ?_ term
  · exact step
  · intro part member
    contradiction
  · intro first rest one others part member
    rcases List.mem_cons.mp member with rfl | later
    · exact one
    · exact others part later

def ids : Term → List NodeId
  | mk id _ parts => id :: parts.flatMap ids
  termination_by term => sizeOf term

def height : Term → Nat
  | mk _ _ parts => (parts.map height).foldr max 0 + 1
  termination_by term => sizeOf term

theorem ids_mk (id : NodeId) (node : Node) (parts : List Term) :
    (mk id node parts).ids = id :: parts.flatMap ids := by rw [ids]

theorem id_mem_ids (term : Term) : term.id ∈ term.ids := by
  obtain ⟨id, node, parts⟩ := term
  rw [ids_mk]
  exact List.mem_cons_self

theorem mem_ids_of_part {term part : Term} (member : part ∈ term.parts) (inside : handle ∈ part.ids) :
    handle ∈ term.ids := by
  obtain ⟨id, node, parts⟩ := term
  rw [ids_mk]
  exact List.mem_cons_of_mem _ (List.mem_flatMap.mpr ⟨part, member, inside⟩)

private theorem le_foldr_max {values : List Nat} (member : value ∈ values) :
    value ≤ values.foldr max 0 := by
  induction values with
  | nil => contradiction
  | cons first rest ih =>
    simp only [List.foldr_cons]
    rcases List.mem_cons.mp member with rfl | later
    · exact Nat.le_max_left _ _
    · exact Nat.le_trans (ih later) (Nat.le_max_right _ _)

private theorem foldr_max_le {values : List Nat} (bounded : ∀ value ∈ values, value ≤ limit) :
    values.foldr max 0 ≤ limit := by
  induction values with
  | nil => exact Nat.zero_le _
  | cons first rest ih =>
    simp only [List.foldr_cons]
    exact Nat.max_le.mpr ⟨bounded first (by simp), ih fun value later => bounded value (by simp [later])⟩

private theorem foldr_max_mem {values : List Nat} (some : values ≠ []) : values.foldr max 0 ∈ values := by
  induction values with
  | nil => contradiction
  | cons first rest ih =>
    simp only [List.foldr_cons]
    rcases Nat.le_total first (rest.foldr max 0) with low | high
    · rw [Nat.max_eq_right low]
      by_cases last : rest = []
      · subst last
        simp only [List.foldr_nil, Nat.le_zero] at low
        simp [low]
      · exact List.mem_cons_of_mem _ (ih last)
    · rw [Nat.max_eq_left high]
      exact List.mem_cons_self

theorem height_mk (id : NodeId) (node : Node) (parts : List Term) :
    (mk id node parts).height = (parts.map height).foldr max 0 + 1 := by rw [height]

theorem height_pos (term : Term) : 0 < term.height := by
  obtain ⟨id, node, parts⟩ := term
  rw [height_mk]
  exact Nat.succ_pos _

theorem height_lt {term part : Term} (member : part ∈ term.parts) : part.height < term.height := by
  obtain ⟨id, node, parts⟩ := term
  rw [height_mk]
  exact Nat.lt_succ_of_le (le_foldr_max (List.mem_map_of_mem member))

theorem height_le {limit : Nat} {id : NodeId} {node : Node} {parts : List Term} (bounded : ∀ part ∈ parts, part.height ≤ limit) :
    (mk id node parts).height ≤ limit + 1 := by
  rw [height_mk]
  apply Nat.succ_le_succ
  apply foldr_max_le
  intro value member
  obtain ⟨part, inside, rfl⟩ := List.mem_map.mp member
  exact bounded part inside

theorem height_eq {id : NodeId} {node : Node} {parts : List Term} (inner : parts ≠ []) :
    ∃ part ∈ parts, (mk id node parts).height = part.height + 1 := by
  have heights : parts.map height ≠ [] := mt List.map_eq_nil_iff.mp inner
  obtain ⟨part, member, same⟩ := List.mem_map.mp (foldr_max_mem heights)
  exact ⟨part, member, by rw [height_mk, same]⟩

inductive All (holds : Term → Prop) : Term → Prop where
  | mk {id : NodeId} {node : Node} {parts : List Term} (own : holds (.mk id node parts))
      (rest : ∀ part ∈ parts, All holds part) : All holds (.mk id node parts)

namespace All

theorem own {holds : Term → Prop} {term : Term} (all : All holds term) : holds term := by
  cases all with
  | mk own _ => exact own

theorem parts {holds : Term → Prop} {term : Term} (all : All holds term) :
    ∀ part ∈ term.parts, All holds part := by
  cases all with
  | mk _ rest => exact rest

theorem imp {first second : Term → Prop} (implies : ∀ term, first term → second term) {term : Term}
    (all : All first term) : All second term := by
  induction all with
  | mk own _ ih => exact .mk (implies _ own) ih

end All

/-- The piece stands in `tree`: every node is there, with the pieces of its children. -/
inductive Of (tree : Tree) : Term → Prop where
  | mk {id : NodeId} {node : Node} {parts : List Term} (found : tree.nodes.get? id = some node)
      (children : node.children = parts.map Term.id) (stand : ∀ part ∈ parts, Of tree part) :
      Of tree (.mk id node parts)

namespace Of

variable {tree other : Tree} {term : Term}

theorem found (stands : Of tree term) : tree.nodes.get? term.id = some term.node := by
  cases stands with
  | mk found _ _ => exact found

theorem children (stands : Of tree term) : term.node.children = term.parts.map Term.id := by
  cases stands with
  | mk _ children _ => exact children

theorem parts (stands : Of tree term) (member : part ∈ term.parts) : Of tree part := by
  cases stands with
  | mk _ _ stand => exact stand part member

/-- A piece stays where none of its nodes changes. -/
theorem congr (stands : Of tree term)
    (same : ∀ id ∈ term.ids, other.nodes.get? id = tree.nodes.get? id) : Of other term := by
  induction stands with
  | mk found children _ ih =>
    refine .mk ((same _ (id_mem_ids _)).trans found) children fun part member => ?_
    exact ih part member fun id inside => same id (mem_ids_of_part member inside)

theorem mono (stands : Of tree term) (extension : tree.nodes.Extends other.nodes) : Of other term := by
  induction stands with
  | mk found children _ ih => exact .mk (extension _ _ found) children ih

theorem bounded (stands : Of tree term) : ∀ id ∈ term.ids, id.index < tree.nodes.size := by
  induction stands with
  | mk found _ _ ih =>
    intro id inside
    rw [ids_mk] at inside
    rcases List.mem_cons.mp inside with rfl | deeper
    · exact Arena.get?_eq_some_lt found
    · obtain ⟨part, member, inner⟩ := List.mem_flatMap.mp deeper
      exact ih part member id inner

/-- Handles name pieces. -/
theorem unique (stands : Of tree term) (others : Of tree piece) (same : term.id = piece.id) : term = piece := by
  induction stands generalizing piece with
  | @mk id node parts found children _ ih =>
    obtain @⟨_, _, pieces, again, those, stand⟩ := others
    obtain rfl : id = _ := same
    obtain rfl := Option.some.inj (found.symm.trans again)
    have ids : pieces.map Term.id = parts.map Term.id := those.symm.trans children
    refine congrArg (Term.mk id node) (List.ext_getElem ?_ fun index inside bound => ?_)
    · simpa using congrArg List.length ids.symm
    · refine ih _ (List.getElem_mem inside) (stand _ (List.getElem_mem bound)) ?_
      have at_index := congrArg (fun ids => ids[index]?) ids.symm
      simpa [inside, bound] using at_index

/-- A handle of the piece is the handle of a piece that is no higher. -/
theorem inside {handle : NodeId} (stands : Of tree term) (member : handle ∈ term.ids) :
    ∃ piece, Of tree piece ∧ piece.id = handle ∧ piece.height ≤ term.height := by
  induction stands with
  | @mk own node parts found children stand ih =>
    rw [ids_mk] at member
    rcases List.mem_cons.mp member with rfl | deeper
    · exact ⟨_, .mk found children stand, rfl, Nat.le_refl _⟩
    · obtain ⟨part, among, inner⟩ := List.mem_flatMap.mp deeper
      obtain ⟨piece, stands, same, low⟩ := ih part among inner
      exact ⟨piece, stands, same, Nat.le_trans low (Nat.le_of_lt (height_lt among))⟩

/-- The handles on a longest path down differ, since no piece contains itself. -/
theorem path (stands : Of tree term) : ∃ handles : List NodeId,
    handles.length = term.height ∧ handles.Nodup ∧ ∀ id ∈ handles, id ∈ term.ids := by
  induction stands with
  | @mk own node parts found children stand ih =>
    by_cases leaf : parts = []
    · subst leaf
      exact ⟨[own], by simp [height_mk], by simp, by simp [ids_mk]⟩
    · obtain ⟨part, among, high⟩ := height_eq leaf
      obtain ⟨handles, length, nodup, below⟩ := ih part among
      refine ⟨own :: handles, by rw [List.length_cons, length, high], List.nodup_cons.mpr ⟨?_, nodup⟩, ?_⟩
      · intro again
        obtain ⟨piece, stands, same, low⟩ := (stand part among).inside (below own again)
        have whole := stands.unique (.mk found children stand) same
        rw [whole, high] at low
        omega
      · intro id member
        rw [ids_mk]
        rcases List.mem_cons.mp member with rfl | later
        · exact List.mem_cons_self
        · exact List.mem_cons_of_mem _ (List.mem_flatMap.mpr ⟨part, among, below id later⟩)

theorem height_le_size (stands : Of tree term) : term.height ≤ tree.nodes.size := by
  obtain ⟨handles, length, nodup, below⟩ := stands.path
  have within : handles ⊆ (List.range tree.nodes.size).map Handle.mk := by
    intro id member
    exact List.mem_map.mpr ⟨id.index, List.mem_range.mpr (stands.bounded id (below id member)), rfl⟩
  rw [← length]
  simpa using (nodup.subperm within).length_le

end Of
end Term
end ShaderTree
