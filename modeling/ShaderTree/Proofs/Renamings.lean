import ShaderTree.Proofs.InternalSymbols
import ShaderTree.Proofs.LocalNames

/-! What compilations do to names. New symbols have none, and where a structure gets another name, that is its
old one with something in front. -/
namespace ShaderTree

variable {first second third table after : SymbolTable}

/-- `after` continues `before`, and new names of structures end in their old ones. -/
structure SymbolTable.Renames (before after : SymbolTable) : Prop where
  continues : before.Continues after
  suffix : ∀ handle symbol later, before.pool.get? handle = some symbol → after.pool.get? handle = some later →
    symbol.rawName.toList <:+ later.rawName.toList

theorem StructNames.suffix_fresh (symbol : Symbol) : symbol.rawName.toList <:+ (fresh symbol).toList :=
  ⟨lead.toList ++ (Nat.toDigits 10 symbol.id.number ++ ['_']), by simp [fresh_toList]⟩

namespace SymbolTable

theorem Renames.refl (table : SymbolTable) : table.Renames table where
  continues := .refl table
  suffix _ _ _ found held := by
    obtain rfl := Option.some.inj (found.symm.trans held)
    exact List.suffix_refl _

theorem Renames.trans (earlier : first.Renames second) (later : second.Renames third) : first.Renames third where
  continues := earlier.continues.trans later.continues
  suffix handle symbol last found held := by
    obtain ⟨_, between, _⟩ := earlier.continues.kept handle symbol found
    exact (earlier.suffix handle _ _ found between).trans (later.suffix handle _ _ between held)

theorem Revision.renames (revision : table.Revision after) : table.Renames after := by
  constructor
  case continues => exact revision.continues
  case suffix =>
    intro place old later held holds
    cases revision with
    | @rename handle symbol _ found _ puts =>
      by_cases here : place = handle
      · subst here
        obtain rfl := Option.some.inj (found.symm.trans held)
        obtain rfl := Option.some.inj (puts.found.symm.trans holds)
        exact StructNames.suffix_fresh _
      · obtain rfl := Option.some.inj (((puts.others place here).trans held).symm.trans holds)
        exact List.suffix_refl _
    | @create ty handle _ created _ =>
      obtain ⟨grown, creates, grows, _⟩ := table.createTemporary_spec ty
      obtain ⟨_, rfl⟩ := Prod.mk.inj (Except.ok.inj (creates.symm.trans created))
      obtain rfl := Option.some.inj ((grows.pool place old held).symm.trans holds)
      exact List.suffix_refl _

theorem Revisions.renames (revisions : table.Revisions after) : table.Renames after := by
  induction revisions with
  | refl => exact .refl table
  | tail _ revision ih => exact ih.trans revision.renames

end SymbolTable
end ShaderTree
