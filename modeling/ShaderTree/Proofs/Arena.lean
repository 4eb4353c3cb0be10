import ShaderTree.Arena

/-! Arenas through their one view, the item at a handle: what appending and
replacing do to it, when one arena continues another, and when two hold related
items at the same handles. -/
namespace ShaderTree.Arena

variable {item : Item} {α : Type u} {arena first second : Arena item α} {handle other : Handle item}

theorem get?_eq_some_lt (found : arena.get? handle = some value) : handle.index < arena.size :=
  (Array.getElem?_eq_some_iff.mp found).1

theorem get?_of_lt (inside : handle.index < arena.size) : ∃ value, arena.get? handle = some value :=
  ⟨arena.items[handle.index], Array.getElem?_eq_getElem inside⟩

theorem contains_iff : arena.contains handle = true ↔ handle.index < arena.size := by
  simp [contains, size]

@[simp] theorem size_append (value : α) : (arena.append value).2.size = arena.size + 1 := by
  simp [append, size]

theorem get?_append_new (value : α) : (arena.append value).2.get? ⟨arena.size⟩ = some value := by
  simp [append, get?, size]

theorem get?_append_of_lt (value : α) (inside : handle.index < arena.size) :
    (arena.append value).2.get? handle = arena.get? handle := by
  simp only [append, get?, size] at inside ⊢
  exact Array.getElem?_push_lt inside ▸ (Array.getElem?_eq_getElem inside).symm

theorem get?_append_eq_some {found : α} (held : (arena.append value).2.get? handle = some found) :
    arena.get? handle = some found ∨ handle = ⟨arena.size⟩ ∧ found = value := by
  have inside := get?_eq_some_lt held
  rw [size_append] at inside
  by_cases before : handle.index < arena.size
  · exact .inl ((get?_append_of_lt value before).symm.trans held)
  · obtain rfl : handle = ⟨arena.size⟩ := congrArg Handle.mk (by omega)
    exact .inr ⟨rfl, Option.some.inj (held.symm.trans (get?_append_new value))⟩

theorem read_eq_ok : arena.read handle = .ok value ↔ arena.get? handle = some value := by
  unfold read
  cases arena.get? handle <;> simp

theorem read_eq_error {cause : Fault} :
    arena.read handle = .error cause ↔ cause = .outOfBounds ∧ arena.size ≤ handle.index := by
  unfold read
  cases found : arena.get? handle with
  | none =>
    have outside : arena.size ≤ handle.index := Array.getElem?_eq_none_iff.mp found
    simp [outside, eq_comm]
  | some value =>
    have inside := get?_eq_some_lt found
    simp [Nat.not_le_of_lt inside]

/-- Writing inside of the arena succeeds, changes one item and keeps the size. -/
theorem write_spec (value : α) (inside : handle.index < arena.size) :
    ∃ after, arena.write handle value = .ok after ∧ after.size = arena.size ∧
      after.get? handle = some value ∧ ∀ other, other ≠ handle → after.get? other = arena.get? other := by
  refine ⟨⟨arena.items.setIfInBounds handle.index value⟩, ?_, ?_, ?_, ?_⟩
  · simp only [write, contains_iff.mpr inside, if_true]
  · simp [size]
  · simp only [get?, Array.getElem?_setIfInBounds_self]
    exact if_pos inside
  · intro other different
    have index : handle.index ≠ other.index := fun same => different (congrArg Handle.mk same.symm)
    simp [get?, Array.getElem?_setIfInBounds_ne index]

def Extends (first second : Arena item α) : Prop :=
  ∀ handle value, first.get? handle = some value → second.get? handle = some value

namespace Extends

theorem refl (arena : Arena item α) : Extends arena arena := fun _ _ found => found

theorem trans (earlier : Extends first second) (later : Extends second third) : Extends first third :=
  fun handle value found => later handle value (earlier handle value found)

theorem append (arena : Arena item α) (value : α) : Extends arena (arena.append value).2 :=
  fun _ _ found => (get?_append_of_lt value (get?_eq_some_lt found)).trans found

theorem size_le (extension : Extends first second) : first.size ≤ second.size := by
  rcases Nat.eq_zero_or_pos first.size with empty | positive
  · omega
  · have last : first.size - 1 < first.size := by omega
    obtain ⟨value, found⟩ := get?_of_lt last
    have bound := get?_eq_some_lt (extension _ _ found)
    simp only at bound
    omega

end Extends

def Matches (rel : α → α → Prop) (first second : Arena item α) : Prop :=
  ∀ handle, Option.Rel rel (first.get? handle) (second.get? handle)

namespace Matches

variable {rel : α → α → Prop} {third : Arena item α} {old new : α}

theorem refl (reflexive : ∀ value, rel value value) (arena : Arena item α) : Matches rel arena arena := by
  intro handle
  cases arena.get? handle with
  | none => exact .none
  | some value => exact .some (reflexive value)

theorem later (matched : Matches rel first second) (found : first.get? handle = some old) :
    ∃ new, second.get? handle = some new ∧ rel old new := by
  have related := matched handle
  rw [found] at related
  cases held : second.get? handle with
  | none => rw [held] at related; cases related
  | some new =>
    rw [held] at related
    cases related with
    | some related => exact ⟨new, rfl, related⟩

theorem earlier (matched : Matches rel first second) (held : second.get? handle = some new) :
    ∃ old, first.get? handle = some old ∧ rel old new := by
  have related := matched handle
  rw [held] at related
  cases found : first.get? handle with
  | none => rw [found] at related; cases related
  | some old =>
    rw [found] at related
    cases related with
    | some related => exact ⟨old, rfl, related⟩

theorem missing_iff (matched : Matches rel first second) : first.get? handle = none ↔ second.get? handle = none := by
  have related := matched handle
  generalize first.get? handle = one at related ⊢
  generalize second.get? handle = other at related ⊢
  cases related <;> simp

theorem trans (transitive : ∀ {one two three}, rel one two → rel two three → rel one three)
    (before : Matches rel first second) (after : Matches rel second third) : Matches rel first third := by
  intro handle
  cases found : first.get? handle with
  | none =>
    rw [after.missing_iff.mp (before.missing_iff.mp found)]
    exact .none
  | some old =>
    obtain ⟨between, held, early⟩ := before.later found
    obtain ⟨new, holds, late⟩ := after.later held
    rw [holds]
    exact .some (transitive early late)

theorem size (matched : Matches rel first second) : second.size = first.size := by
  have outside (arena : Arena item α) (index : Nat) : arena.get? ⟨index⟩ = none ↔ arena.size ≤ index :=
    Array.getElem?_eq_none_iff
  apply Nat.le_antisymm
  · exact (outside second _).mp (matched.missing_iff.mp ((outside first _).mpr (Nat.le_refl _)))
  · exact (outside first _).mp (matched.missing_iff.mpr ((outside second _).mpr (Nat.le_refl _)))

theorem contains (matched : Matches rel first second) (handle : Handle item) :
    second.contains handle = first.contains handle := by
  have same : second.items.size = first.items.size := matched.size
  simp only [Arena.contains, same]

end Matches
end ShaderTree.Arena
