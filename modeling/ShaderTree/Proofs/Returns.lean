import ShaderTree.Proofs.Reachability

/-! Returns and what functions return. The type that a function returns is known everywhere in its body, as no
function is defined inside of another. The value of a return is compared with it, and a return without a value is
not: so it may stand in a function that returns something. -/
namespace ShaderTree

/-- The return gives what a function of type `ty` returns: a value of that shape, or none if there is none to
give. -/
def Tree.Returns (tree : Tree) (ty : Ty) : (value : Option NodeId) → Prop
  | some value => ∃ found, (tree.face value).ty? = some found ∧ ty.sameShape found = true
  | none => ty.sameShape .void = true

section
variable {checks : Checks} {table : SymbolTable} {tree : Tree} {term piece : Term} {role : Role} {ty : Ty}

theorem WellFormed.of_mem_pieces (right : WellFormed checks table (some ty) role term) (stands : term.Of tree)
    (member : piece ∈ term.pieces) : ∃ role, WellFormed checks table (some ty) role piece := by
  induction term using Term.induct generalizing role with
  | step id node parts ih =>
    rcases Term.mem_pieces_iff.mp member with rfl | ⟨part, among, inside⟩
    · exact ⟨role, right⟩
    · obtain ⟨inner, roled⟩ := Node.exists_role (some ty) (parts.map Term.face) stands.children among
      cases right with
      | mk _ fits _ below =>
        have same : node.inner table (some ty) = some ty := by
          cases node with
          | definition => cases fits.1
          | _ => rfl
        have right := below inner part roled
        rw [same] at right
        exact ih part among right (stands.parts among) inside

theorem WellFormed.returns {value : NodeId} (right : WellFormed checks table (some ty) role term)
    (stands : term.Of tree)
    (types : checks.types = true) (isReturn : term.node = .branch .returnFrom (some value)) :
    tree.Returns ty (some value) := by
  obtain ⟨id, node, parts⟩ := term
  obtain rfl : node = _ := isReturn
  have children : [value] = parts.map Term.id := stands.children
  obtain ⟨part, rfl, rfl⟩ := List.map_eq_singleton_iff.mp children.symm
  cases right with
  | mk _ _ _ below =>
    obtain ⟨found, typed, shape⟩ := (below (.expression (some ty)) part (by simp [Node.roles])).suits
    rw [← Term.face_of (stands.parts List.mem_cons_self)] at typed
    exact ⟨found, typed, by rw [Validator.sameShape_comm]; exact shape types ty rfl⟩

/-- The body of a function is checked for the type that it returns. -/
theorem Valid.definition {site : NodeId} {function : SymbolRef} {body : NodeId} (valid : Valid checks table term)
    (stands : term.Of tree) (inside : site ∈ term.ids)
    (found : tree.nodes.get? site = some (.definition function body)) :
    ∃ known part, table.function? function = some known ∧ part.id = body ∧ part.Of tree ∧
      WellFormed checks table (some known.returnType) .body part := by
  obtain ⟨_, _, ⟨id, node, parts⟩, rfl, standing, right⟩ := valid.piece stands inside
  obtain rfl : node = .definition function body := Option.some.inj (standing.found.symm.trans found)
  have children : [body] = parts.map Term.id := standing.children
  obtain ⟨part, rfl, rfl⟩ := List.map_eq_singleton_iff.mp children.symm
  cases right with
  | mk _ fits _ below =>
    obtain ⟨known, defined⟩ := Option.isSome_iff_exists.mp fits.2
    have right := below .body part (by simp [Node.roles])
    rw [Node.inner, defined] at right
    exact ⟨known, part, defined, rfl, standing.parts List.mem_cons_self, right⟩

end

def SymbolTable.withFunction (ty : Ty) : SymbolTable where
  pool := ⟨#[{ rawName := "f", id := ⟨96⟩, origin := .userDefined, kind := .function (.new ty false) }]⟩
  builtIns := {}
  profile := {}

namespace Tree

def returningNothing : Tree where
  nodes := ⟨#[.block [⟨3⟩], .branch .returnFrom none, .block [⟨1⟩], .definition (.pool ⟨0⟩) ⟨2⟩]⟩
  root := ⟨0⟩

theorem returningNothing_reachable : returningNothing.Reachable ⟨3⟩ :=
  .single ⟨.block [⟨3⟩], rfl, List.mem_singleton_self _⟩

theorem returningNothing_below : returningNothing.Below ⟨2⟩ ⟨1⟩ :=
  .single ⟨.block [⟨1⟩], rfl, List.mem_singleton_self _⟩

theorem returningNothing_accepted (ty : Ty) : returningNothing.validate (.withFunction ty) .all = .ok () := rfl

variable {tree : Tree} {table : SymbolTable} {site body id : NodeId} {function : SymbolRef} {value : Option NodeId}

/-- A return anywhere in a function of a valid program gives what the function returns, but for one without a value in
a function that returns something. -/
theorem validate_returns_iff (accepted : tree.validate table .all = .ok ()) (reached : tree.Reachable site)
    (found : tree.nodes.get? site = some (.definition function body)) (below : tree.Below body id)
    (isReturn : tree.nodes.get? id = some (.branch .returnFrom value)) :
    ∃ known, table.function? function = some known ∧
      (tree.Returns known.returnType value ↔ (value = none → known.returnType.sameShape .void = true)) := by
  obtain ⟨term, root, stands, valid⟩ := validate_iff.mp accepted
  obtain ⟨known, inner, defined, rfl, standing, right⟩ :=
    valid.definition stands ((stands.reachable_iff root).mp reached) found
  refine ⟨known, defined, ?_⟩
  cases value with
  | none => simp [Returns]
  | some value =>
    refine iff_of_true ?_ (by simp)
    obtain ⟨piece, among, rfl⟩ := List.mem_map.mp (inner.ids_eq_pieces ▸ standing.mem_ids_iff.mpr below)
    obtain ⟨_, right⟩ := right.of_mem_pieces standing among
    have stands := standing.of_mem_pieces among
    exact right.returns stands rfl (Option.some.inj (stands.found.symm.trans isReturn))

/-- The return of `float f() { return; }` gives nothing. -/
theorem validate_returns_iff_returningNothing :
    ∃ known, (SymbolTable.withFunction .float).function? (.pool ⟨0⟩) = some known ∧
    returningNothing.validate (.withFunction .float) .all = .ok () ∧
    ¬ returningNothing.Returns known.returnType none := by
  have accepted := returningNothing_accepted .float
  obtain ⟨known, defined, returns⟩ := validate_returns_iff accepted
    returningNothing_reachable rfl returningNothing_below rfl
  refine ⟨known, defined, accepted, fun gives => ?_⟩
  cases defined
  cases returns.mp gives rfl

end Tree
end ShaderTree
