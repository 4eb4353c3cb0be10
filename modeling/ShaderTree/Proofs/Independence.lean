import ShaderTree.Proofs.Acceptance

/-! Validation under several checks is validation under each of them. The types that go
up a tree, the scopes and the nodes met are the same whatever is checked, so a program
that is right under two sets of checks is right under both together. -/
namespace ShaderTree

inductive Check where
  | handles
  | singleParent
  | types
  | constructors
  | references
  deriving DecidableEq

namespace Checks

def has (checks : Checks) : Check → Bool
  | .handles => checks.handles
  | .singleParent => checks.singleParent
  | .types => checks.types
  | .constructors => checks.constructors
  | .references => checks.references

def only (check : Check) : Checks where
  handles := check = .handles
  singleParent := check = .singleParent
  types := check = .types
  constructors := check = .constructors
  references := check = .references

def union (first second : Checks) : Checks where
  handles := first.handles || second.handles
  singleParent := first.singleParent || second.singleParent
  types := first.types || second.types
  constructors := first.constructors || second.constructors
  references := first.references || second.references

instance : Union Checks := ⟨union⟩

def ofList : List Check → Checks
  | [] => .none
  | check :: rest => only check ∪ ofList rest

def toList (checks : Checks) : List Check :=
  [.handles, .singleParent, .types, .constructors, .references].filter checks.has

theorem mem_toList {checks : Checks} {check : Check} : check ∈ checks.toList ↔ checks.has check = true := by
  cases check <;> simp [toList]

theorem ofList_toList (checks : Checks) : ofList checks.toList = checks := by
  obtain ⟨handles, single, types, constructors, references⟩ := checks
  revert handles single types constructors references
  decide

end Checks

section
variable {first second : Checks} {table : SymbolTable} {returns : Option Ty} {role : Role} {term : Term}

theorem Role.Suits.union_iff {face : Face} :
    role.Suits (first ∪ second) face ↔ role.Suits first face ∧ role.Suits second face := by
  have types : (first ∪ second).types = (first.types || second.types) := rfl
  cases role with
  | expression expected =>
    simp only [Suits, types]
    grind
  | _ => exact (and_self_iff).symm

/-- What a node shows is the same for both, and each check adds a condition of its own. -/
theorem Node.Fits.union_iff {faces : List Face} {id : NodeId} {node : Node} :
    node.Fits (first ∪ second) table returns faces id ↔
      node.Fits first table returns faces id ∧ node.Fits second table returns faces id := by
  have types : (first ∪ second).types = (first.types || second.types) := rfl
  have constructors : (first ∪ second).constructors = (first.constructors || second.constructors) := rfl
  have references : (first ∪ second).references = (first.references || second.references) := rfl
  cases node with
  | aggregate op arguments ty =>
    cases op <;> simp only [Fits, types, constructors, references] <;> grind
  | _ =>
    simp only [Fits, types]
    grind

theorem WellFormed.union_iff : WellFormed (first ∪ second) table returns role term ↔
    WellFormed first table returns role term ∧ WellFormed second table returns role term := by
  induction term using Term.induct generalizing returns role with
  | step id node parts ih =>
    constructor
    · intro right
      cases right with
      | mk suits fits writable below =>
        obtain ⟨suitsFirst, suitsSecond⟩ := Role.Suits.union_iff.mp suits
        obtain ⟨fitsFirst, fitsSecond⟩ := Node.Fits.union_iff.mp fits
        have both := fun role part among => (ih part (List.of_mem_zip among).2).mp (below role part among)
        exact ⟨.mk suitsFirst fitsFirst writable fun role part among => (both role part among).1,
          .mk suitsSecond fitsSecond writable fun role part among => (both role part among).2⟩
    · rintro ⟨right, other⟩
      cases right with
      | mk suits fits writable below =>
        cases other with
        | mk suitsSecond fitsSecond _ belowSecond =>
          refine .mk (Role.Suits.union_iff.mpr ⟨suits, suitsSecond⟩) (Node.Fits.union_iff.mpr ⟨fits, fitsSecond⟩)
            writable fun role part among => ?_
          exact (ih part (List.of_mem_zip among).2).mpr ⟨below role part among, belowSecond role part among⟩

theorem Valid.union_iff : Valid (first ∪ second) table term ↔ Valid first table term ∧ Valid second table term := by
  have references : (first ∪ second).references = (first.references || second.references) := rfl
  have single : (first ∪ second).singleParent = (first.singleParent || second.singleParent) := rfl
  constructor
  · rintro ⟨right, sees, nodup⟩
    obtain ⟨rightFirst, rightSecond⟩ := WellFormed.union_iff.mp right
    simp only [references, single, Bool.or_eq_true, or_imp] at sees nodup
    exact ⟨⟨rightFirst, sees.1, nodup.1⟩, ⟨rightSecond, sees.2, nodup.2⟩⟩
  · rintro ⟨one, other⟩
    refine ⟨WellFormed.union_iff.mpr ⟨one.wellFormed, other.wellFormed⟩, ?_, ?_⟩
    · simp only [references, Bool.or_eq_true, or_imp]
      exact ⟨one.sees, other.sees⟩
    · simp only [single, Bool.or_eq_true, or_imp]
      exact ⟨one.nodup, other.nodup⟩

end

namespace Tree

variable {tree : Tree} {table : SymbolTable} {first second : Checks}

/-- The piece at the root is one, so both validations are of the same piece. -/
theorem validate_union_iff : tree.validate table (first ∪ second) = .ok () ↔
    tree.validate table first = .ok () ∧ tree.validate table second = .ok () := by
  simp only [validate_iff]
  constructor
  · rintro ⟨term, root, stands, valid⟩
    obtain ⟨one, other⟩ := Valid.union_iff.mp valid
    exact ⟨⟨term, root, stands, one⟩, ⟨term, root, stands, other⟩⟩
  · rintro ⟨⟨term, root, stands, one⟩, ⟨again, same, standing, other⟩⟩
    obtain rfl := stands.unique standing (root.trans same.symm)
    exact ⟨term, root, stands, Valid.union_iff.mpr ⟨one, other⟩⟩

theorem validate_ofList_iff (tree : Tree) (table : SymbolTable) (list : List Check) : tree.validate table (.ofList list) = .ok () ↔
    tree.validate table .none = .ok () ∧ ∀ check ∈ list, tree.validate table (.only check) = .ok () := by
  induction list with
  | nil => simp [Checks.ofList]
  | cons check list ih =>
    rw [Checks.ofList, validate_union_iff, ih, List.forall_mem_cons]
    exact and_left_comm

/-- A validation is passed exactly where the one that looks for nothing is, and those that look for
one thing each. So one that looks for less is passed as well. -/
theorem validate_iff_forall_check (tree : Tree) (table : SymbolTable) (checks : Checks) :
    (tree.validate table checks = .ok () ↔ tree.validate table .none = .ok () ∧
      ∀ check, checks.has check = true → tree.validate table (.only check) = .ok ()) ∧
    ∀ fewer : Checks, (∀ check, fewer.has check = true → checks.has check = true) →
      tree.validate table checks = .ok () → tree.validate table fewer = .ok () := by
  have each (checks : Checks) : tree.validate table checks = .ok () ↔ tree.validate table .none = .ok () ∧
      ∀ check, checks.has check = true → tree.validate table (.only check) = .ok () := by
    simpa only [Checks.ofList_toList, Checks.mem_toList] using validate_ofList_iff tree table checks.toList
  refine ⟨each checks, fun fewer included accepted => ?_⟩
  obtain ⟨plain, single⟩ := (each checks).mp accepted
  exact (each fewer).mpr ⟨plain, fun check wanted => single check (included check wanted)⟩

end Tree
end ShaderTree
