import ShaderTree.Proofs.Components
import ShaderTree.Proofs.Term
import ShaderTree.Pass.Scalarize

/-! Uses of a temporary and of its components: which pieces a pass builds for them.
An access is read off its piece, as the indices taken from the outside in, and every
index is within the bounds of what it is applied to. Building only appends nodes. -/
namespace ShaderTree

/-- The type of constant indices. -/
def Ty.index : Ty := (Ty.int.withPrecision .high).withQualifier .const

namespace Tree

theorem appendUse_eq (tree : Tree) {table : SymbolTable} (found : table.pool.get? handle = some symbol)
    (isVariable : symbol.asVariable? = some var) :
    tree.appendUse table handle = .ok (tree.append (.symbol (.pool handle) var.ty)) := by
  simp only [appendUse, Arena.read_eq_ok.mpr found, isVariable, bind, Except.bind, pure, Except.pure]

theorem ty?_eq_ok {tree : Tree} {id : NodeId} (found : tree.nodes.get? id = some node) :
    tree.ty? id = .ok node.ty? := by
  simp only [ty?, read, Arena.read_eq_ok.mpr found, bind, Except.bind, pure, Except.pure]

theorem appendIndexed_eq {tree : Tree} (typed : tree.ty? base = .ok (some ty))
    (indexed : ty.indexed? = some element) : tree.appendIndexed base index =
      .ok ((tree.appendIndex index).2.append
        (.binary .indexDirect base (tree.appendIndex index).1 element)) := by
  simp only [appendIndexed, typed, bind, Except.bind, pure, Except.pure, Option.bind_some, indexed]

structure Appends (before after : Tree) (ids : List NodeId) : Prop where
  root : after.root = before.root
  extension : before.nodes.Extends after.nodes
  fresh : ∀ id, id ∈ ids ↔ before.nodes.size ≤ id.index ∧ id.index < after.nodes.size
  nodup : ids.Nodup

/-- Handles of a range of the arena, and of the range that follows it. -/
theorem nodup_append_of_ranges {first second : List NodeId} {low middle high : Nat}
    (lower : ∀ id, id ∈ first ↔ low ≤ id.index ∧ id.index < middle)
    (upper : ∀ id, id ∈ second ↔ middle ≤ id.index ∧ id.index < high) (left : first.Nodup) (right : second.Nodup) :
    (first ++ second).Nodup := by
  refine List.nodup_append.mpr ⟨left, right, ?_⟩
  rintro id inFirst _ inSecond rfl
  have below := (lower id).mp inFirst
  have above := (upper id).mp inSecond
  omega

namespace Appends

variable {before between after : Tree} {first second : List NodeId}

theorem nil (tree : Tree) : Appends tree tree [] := by
  refine ⟨rfl, .refl _, ?_, List.nodup_nil⟩
  intro id
  simp only [List.not_mem_nil, false_iff]
  omega

theorem node (tree : Tree) (node : Node) : Appends tree (tree.append node).2 [⟨tree.nodes.size⟩] := by
  refine ⟨rfl, .append _ _, ?_, List.nodup_singleton _⟩
  rintro ⟨index⟩
  simp only [List.mem_singleton, Handle.mk.injEq, append, Arena.size_append]
  omega

theorem append (earlier : Appends before between first) (later : Appends between after second) :
    Appends before after (first ++ second) := by
  have grows := earlier.extension.size_le
  have growsMore := later.extension.size_le
  constructor
  case root => exact later.root.trans earlier.root
  case extension => exact earlier.extension.trans later.extension
  case fresh =>
    intro id
    rw [List.mem_append, earlier.fresh, later.fresh]
    omega
  case nodup => exact nodup_append_of_ranges earlier.fresh later.fresh earlier.nodup later.nodup

theorem perm (appended : Appends before after first) (same : first.Perm second) :
    Appends before after second :=
  ⟨appended.root, appended.extension, fun id => same.mem_iff.symm.trans (appended.fresh id),
    same.nodup_iff.mp appended.nodup⟩

end Appends

structure Builds (before after : Tree) (terms : List Term) : Prop extends
    Appends before after (terms.flatMap Term.ids) where
  stand : ∀ term ∈ terms, term.Of after

namespace Builds

variable {before between after : Tree} {first second : List Term}

theorem nil (tree : Tree) : Builds tree tree [] := ⟨.nil tree, by simp⟩

theorem append (earlier : Builds before between first) (later : Builds between after second) :
    Builds before after (first ++ second) := by
  refine ⟨?_, ?_⟩
  · rw [List.flatMap_append]
    exact earlier.toAppends.append later.toAppends
  · intro term member
    rcases List.mem_append.mp member with old | new
    · exact (earlier.stand term old).mono later.extension
    · exact later.stand term new

/-- A node appended above pieces that were built makes one piece of them. -/
theorem node (built : Builds before between first) (node : Node)
    (children : node.children = first.map Term.id) :
    Builds before (between.append node).2 [.mk ⟨between.nodes.size⟩ node first] := by
  refine ⟨?_, ?_⟩
  · simp only [List.flatMap_cons, List.flatMap_nil, List.append_nil, Term.ids_mk]
    exact (built.toAppends.append (.node between node)).perm List.perm_append_comm
  · intro term member
    obtain rfl := List.mem_singleton.mp member
    exact .mk (Arena.get?_append_new node) children fun part inside =>
      (built.stand part inside).mono (.append _ _)

theorem leaf (tree : Tree) (node : Node) (children : node.children = []) :
    Builds tree (tree.append node).2 [.mk ⟨tree.nodes.size⟩ node []] :=
  (nil tree).node node children

end Builds
end Tree

/-- The piece is the part of the variable at `handle`, of type `ty`, that the indices of
`path` select; `element` is the type of that part. -/
inductive Access (handle : SymbolHandle) (ty : Ty) : (path : List Nat) → (element : Ty) → Term → Prop where
  | use (id : NodeId) : Access handle ty [] ty (.mk id (.symbol (.pool handle) ty) [])
  | index {path : List Nat} {base element : Ty} {term : Term} {position : Nat} (id constant : NodeId)
      (inner : Access handle ty path base term) (indexed : base.indexed? = some element)
      (bounded : position < base.extent) :
      Access handle ty (path ++ [position]) element
        (.mk id (.binary .indexDirect term.id constant element)
          [term, .mk constant (.constant [.ofIndex position] .index) []])

namespace Access

theorem ty? (access : Access handle ty path element term) : term.ty? = some element := by
  cases access <;> rfl

theorem nil_iff : Access handle ty [] element term ↔
    element = ty ∧ ∃ id, term = .mk id (.symbol (.pool handle) ty) [] := by
  constructor
  · generalize outside : [] = path
    intro access
    cases access with
    | use id => exact ⟨rfl, id, rfl⟩
    | index => simp at outside
  · rintro ⟨rfl, id, rfl⟩
    exact .use id

theorem snoc_iff : Access handle ty (path ++ [position]) element term ↔
    ∃ id constant base inner, Access handle ty path base inner ∧ base.indexed? = some element ∧
      position < base.extent ∧ term = .mk id (.binary .indexDirect inner.id constant element)
        [inner, .mk constant (.constant [.ofIndex position] .index) []] := by
  constructor
  · generalize whole : path ++ [position] = indices
    intro access
    cases access with
    | use id => simp at whole
    | index id constant inner indexed bounded =>
      obtain ⟨rfl, same⟩ := List.append_inj' whole rfl
      obtain rfl := List.singleton_inj.mp same
      exact ⟨id, constant, _, _, inner, indexed, bounded, rfl⟩
  · rintro ⟨id, constant, base, inner, access, indexed, bounded, rfl⟩
    exact .index id constant access indexed bounded

theorem height_le (access : Access handle ty path element term) : term.height ≤ path.length + 1 := by
  induction access with
  | use id => exact Term.height_le (by simp)
  | index id constant inner indexed bounded ih =>
    rw [List.length_append, List.length_singleton]
    apply Term.height_le
    intro part member
    rcases List.mem_pair.mp member with rfl | rfl
    · exact ih
    · simp [Term.height_mk]

end Access

namespace Tree

/-- Indexing an access by a position within bounds. -/
theorem appendIndexed_access {before tree : Tree} (built : Builds before tree [term])
    (access : Access handle ty path base term) (indexed : base.indexed? = some element)
    (bounded : position < base.extent) :
    ∃ whole after, tree.appendIndexed term.id position = .ok (whole.id, after) ∧
      Builds before after [whole] ∧ Access handle ty (path ++ [position]) element whole := by
  have stands := built.stand term List.mem_cons_self
  have typed : tree.ty? term.id = .ok (some base) := (ty?_eq_ok stands.found).trans (congrArg _ access.ty?)
  have right := built.append (Builds.leaf tree (.constant [.ofIndex position] .index) rfl)
  have whole := right.node (.binary .indexDirect term.id ⟨tree.nodes.size⟩ element) rfl
  exact ⟨_, _, appendIndexed_eq typed indexed, whole, .index _ _ access indexed bounded⟩

end Tree
end ShaderTree
