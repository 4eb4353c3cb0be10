import ShaderTree.Proofs.IndexBounds
import ShaderTree.Proofs.SameValue

/-! Constant indices from where they are built to where they are checked. The builder writes the 32 bits of an index as
a signed number, and the reader declines negative numbers: from 2 ^ 31 on, an index is written as a constant that is
not read as an index, and its bounds are not checked. -/
namespace ShaderTree

/-- From 2 ^ 31 on, the bits of an index are those of a number below zero. -/
theorem Scalar.ofIndex_negative {index : Nat} (large : 2 ^ 31 ≤ index) (small : index < UInt32.size) :
    ¬ (0 : Int32) ≤ Int32.ofNat index := by
  have value : (Int32.ofNat index).toInt = (index : Int).bmod (2 ^ 32) := Int32.toInt_ofNat'
  rw [Int32.le_iff_toInt_le, value, Int.bmod, Int32.toInt_zero]
  simp only [UInt32.size] at small
  omega

namespace Tree

variable {tree : Tree} {base id : NodeId} {ty element : Ty} {index : Nat}

theorem directIndex_ofIndex_eq (found : tree.nodes.get? id = some (.constant [.ofIndex index] ty))
    (small : index < UInt32.size) : tree.directIndex? id = .ok (if index < 2 ^ 31 then some index else none) := by
  by_cases low : index < 2 ^ 31
  · rw [if_pos low]
    exact directIndex_ofIndex found low
  · have negative := Scalar.ofIndex_negative (Nat.le_of_not_lt low) small
    rw [directIndex_eq found, if_neg low]
    simp only [Node.index?, Scalar.ofIndex, negative, if_false]

theorem appendIndexed_nodes (typed : tree.ty? base = .ok (some ty)) (indexed : ty.indexed? = some element) :
    ∃ whole right after, tree.appendIndexed base index = .ok (whole, after) ∧ tree.nodes.Extends after.nodes ∧
      after.nodes.get? whole = some (.binary .indexDirect base right element) ∧
      after.nodes.get? right = some (.constant [.ofIndex index] .index) := by
  have later := Arena.Extends.append (tree.appendIndex index).2.nodes
    (.binary .indexDirect base (tree.appendIndex index).1 element)
  exact ⟨_, _, _, appendIndexed_eq typed indexed, (Arena.Extends.append _ _).trans later, Arena.get?_append_new _,
    later _ _ (Arena.get?_append_new _)⟩

end Tree

namespace Validator

variable {validator : Validator} {id base right : NodeId} {ty element : Ty} {start before between after : Progress}
  {index depth : Nat}

theorem run_checkBounds_outside (direct : validator.tree.directIndex? right = .ok (some index))
    (outside : ty.extent ≤ index) :
    (validator.checkBounds id ty right).run before = .error (.invalid (.indexOutOfBounds id index ty.extent)) := by
  unfold checkBounds
  rw [Passes.run_bind (Passes.lift_iff.mpr ⟨direct, rfl⟩)]
  unfold Ty.extent at outside ⊢
  simp only [Nat.not_lt_of_le outside, if_false]
  rfl

theorem expression_ofIndex (depth : Nat)
    (reads : Passes (validator.fetch right) before (.constant [.ofIndex index] .index) after) :
    Passes (validator.expression (depth + 1) right) before .index after := by
  refine Passes.bind_iff.mpr ⟨_, after, reads, ?_⟩
  refine Passes.bind_iff.mpr ⟨true, after, Passes.lift_iff.mpr ⟨rfl, rfl⟩, ?_⟩
  exact Passes.seq_iff.mpr ⟨after, Passes.require_iff.mpr ⟨fun _ => rfl, rfl⟩, Passes.pure_iff.mpr ⟨rfl, rfl⟩⟩

/-- An expression `base[index]` is reported just if the index is read and out of bounds. -/
theorem run_expression_index (types : validator.checks.types = true) (indexed : ty.indexed? = some element)
    (small : index < UInt32.size)
    (enters : Passes (validator.fetch id) start (.binary .indexDirect base right element) before)
    (passes : Passes (validator.expression (depth + 1) base) before ty between)
    (reads : Passes (validator.fetch right) between (.constant [.ofIndex index] .index) after) :
    (validator.expression (depth + 2) id).run start =
      if index < 2 ^ 31 ∧ ty.extent ≤ index then .error (.invalid (.indexOutOfBounds id index ty.extent))
      else .ok (element, after) := by
  have direct := Tree.directIndex_ofIndex_eq (fetch_iff.mp reads).1 small
  have operands : (validator.expression (depth + 2) id).run start =
      (validator.checkBinary id .indexDirect right ty .index element >>= fun _ => pure element).run after := by
    rw [expression, enters.run_bind, expressionNode, passes.run_bind, (expression_ofIndex depth reads).run_bind]
    simp only [BinaryOp.isAssignment, types, if_true]
    rfl
  rw [operands]
  split
  case isTrue reported =>
    rw [if_pos reported.1] at direct
    simp only [checkBinary, if_true]
    rw [StateT.run_bind, StateT.run_bind, run_checkBounds_outside direct reported.2]
    rfl
  case isFalse quiet =>
    have bounded : Passes (validator.checkBinary id .indexDirect right ty .index element) after () after := by
      refine checkBinary_iff.mpr ⟨⟨fun _ => ⟨_, direct, ?_⟩, ?_⟩, rfl⟩
      · intro position read
        rw [Option.mem_def, Option.ite_none_right_eq_some] at read
        obtain ⟨low, same⟩ := read
        obtain rfl := Option.some.inj same
        omega
      · rw [show BinaryOp.indexDirect.result? ty .index = some element from indexed]
        exact element.sameShape_refl
    rw [bounded.run_bind]
    rfl

end Validator

namespace Tree

open Validator

variable {tree : Tree} {base : NodeId} {ty element : Ty} {index : Nat}

/-- An expression `base[index]` has the type of what the base consists of. Its index is read as it was built if it is a
signed number, and not at all if it is larger. Once the base has passed, the validation reports the expression just if
the index is read and not less than the number of elements, components or columns. -/
theorem appendIndexed_reads (typed : tree.ty? base = .ok (some ty)) (indexed : ty.indexed? = some element)
    (small : index < UInt32.size) : ∃ whole right after, tree.appendIndexed base index = .ok (whole, after) ∧
      after.nodes.get? whole = some (.binary .indexDirect base right element) ∧
      after.ty? whole = .ok (some element) ∧
      after.directIndex? right = .ok (if index < 2 ^ 31 then some index else none) ∧
      ∀ (checks : Checks) (table : SymbolTable) (depth : Nat) (start before between last : Progress) (found : Ty),
        checks.types = true →
        Passes (fetch ⟨checks, after, table⟩ whole) start (.binary .indexDirect base right element) before →
        Passes (expression ⟨checks, after, table⟩ (depth + 1) base) before found between →
        Passes (fetch ⟨checks, after, table⟩ right) between (.constant [.ofIndex index] .index) last →
        (expression ⟨checks, after, table⟩ (depth + 2) whole).run start =
          if index < 2 ^ 31 ∧ ty.extent ≤ index then .error (.invalid (.indexOutOfBounds whole index ty.extent))
          else .ok (element, last) := by
  obtain ⟨whole, right, after, built, extension, here, constant⟩ := appendIndexed_nodes typed indexed
  refine ⟨whole, right, after, built, here, ty?_eq_ok here, directIndex_ofIndex_eq constant small, ?_⟩
  intro checks table depth start before between last found types enters passes reads
  obtain rfl : found = ty := by
    obtain ⟨node, read, ofNode⟩ := bind_eq_ok.mp typed
    have seen := expression_typed passes
    rw [face_eq (extension base node (Arena.read_eq_ok.mp read))] at seen
    exact Option.some.inj (seen.symm.trans (pure_eq_ok.mp ofNode))
  exact run_expression_index types indexed small enters passes reads

/-- The last component of a vector of two is 1, so an index of 2 is reported; the largest index is not. -/
theorem appendIndexed_reads_component : component.ty? ⟨4⟩ = .ok (some (.vector .float .two)) ∧
    (∃ whole after, component.appendIndexed ⟨4⟩ 2 = .ok (whole, after) ∧
      (expression ⟨.all, after, .oneVector⟩ 2 whole).run { visible := [.pool ⟨0⟩] } =
        .error (.invalid (.indexOutOfBounds whole 2 2))) ∧
    ∃ whole right after last, component.appendIndexed ⟨4⟩ 4294967295 = .ok (whole, after) ∧
      after.nodes.get? whole = some (.binary .indexDirect ⟨4⟩ right .float) ∧ after.directIndex? right = .ok none ∧
      (expression ⟨.all, after, .oneVector⟩ 2 whole).run { visible := [.pool ⟨0⟩] } = .ok (.float, last) := by
  have typed : component.ty? ⟨4⟩ = .ok (some (.vector .float .two)) := rfl
  have indexed : (Ty.vector .float .two).indexed? = some .float := rfl
  refine ⟨typed, ?_, ?_⟩
  · obtain ⟨whole, right, after, built, here, _, _, outcome⟩ :=
      appendIndexed_reads typed indexed (show 2 < UInt32.size by decide)
    obtain ⟨rfl, rfl⟩ := Prod.mk.inj (Except.ok.inj built)
    obtain rfl : ⟨6⟩ = right := (Node.binary.inj (Option.some.inj here)).2.2.1
    exact ⟨_, _, built, outcome .all .oneVector 0 _ _ _ _ _ rfl rfl rfl rfl⟩
  · obtain ⟨whole, right, after, built, here, _, none, outcome⟩ :=
      appendIndexed_reads typed indexed (show 4294967295 < UInt32.size by decide)
    obtain ⟨rfl, rfl⟩ := Prod.mk.inj (Except.ok.inj built)
    obtain rfl : ⟨6⟩ = right := (Node.binary.inj (Option.some.inj here)).2.2.1
    exact ⟨_, _, _, _, built, here, none, outcome .all .oneVector 0 _ _ _ _ _ rfl rfl rfl rfl⟩

end Tree
end ShaderTree
