import ShaderTree.Proofs.Reachability

/-! What the references of a valid program resolve to. Symbols that nodes name are in the
pool or built in. The types of nodes are compared with each other and not looked up, so
the structure or block that a type names may be missing; where it is, a leaf brought it. -/
namespace ShaderTree

def Ty.reference? (ty : Ty) : Option SymbolRef :=
  match ty.shape with
  | .struct symbol | .block symbol => some symbol
  | _ => none

def Node.named? : Node → Option SymbolRef
  | .symbol ref _ | .aggregate (.call ref) _ _ | .prototype ref | .definition ref _ => some ref
  | _ => none

def SymbolTable.Holds (table : SymbolTable) (ref : SymbolRef) : Prop :=
  ∃ symbol, table.resolve ref = .ok symbol

/-- A leaf below the node at `id` has a type that refers to `ref` without a look at the pool: constant
data of a structure, a variable of that type or a call that returns one. -/
inductive Tree.Brings (tree : Tree) (table : SymbolTable) (id : NodeId) (ref : SymbolRef) : Prop where
  | constant {leaf : NodeId} {values : List Scalar} {ty : Ty} (below : tree.Below id leaf)
      (found : tree.nodes.get? leaf = some (.constant values ty)) (struct : ty.shape = .struct ref)
  | use {leaf : NodeId} {symbol : SymbolRef} {ty declared : Ty} (below : tree.Below id leaf)
      (found : tree.nodes.get? leaf = some (.symbol symbol ty)) (known : table.variableType? symbol = some declared)
      (refers : declared.reference? = some ref)
  | call {leaf : NodeId} {callee : SymbolRef} {arguments : List NodeId} {ty : Ty} {function : Function}
      (below : tree.Below id leaf) (found : tree.nodes.get? leaf = some (.aggregate (.call callee) arguments ty))
      (known : table.function? callee = some function) (refers : function.returnType.reference? = some ref)

theorem Tree.Brings.up {tree : Tree} {table : SymbolTable} {parent id : NodeId} {ref : SymbolRef}
    (link : tree.Child parent id) (brings : tree.Brings table id ref) : tree.Brings table parent ref := by
  cases brings with
  | constant below found struct => exact .constant (.head link below) found struct
  | use below found known refers => exact .use (.head link below) found known refers
  | call below found known refers => exact .call (.head link below) found known refers

namespace SymbolTable

variable {table : SymbolTable} {ref : SymbolRef}

theorem holds_of_variable {ty : Ty} (known : table.variableType? ref = some ty) : table.Holds ref := by
  obtain ⟨symbol, _, resolved, _⟩ := variableType?_eq_some.mp known
  exact ⟨symbol, resolved⟩

theorem holds_of_function (known : (table.function? ref).isSome = true) : table.Holds ref := by
  obtain ⟨_, found⟩ := Option.isSome_iff_exists.mp known
  obtain ⟨symbol, resolved, _⟩ := function?_eq_some.mp found
  exact ⟨symbol, resolved⟩

end SymbolTable

namespace Ty

variable {ty first second : Ty} {ref : SymbolRef}

/-- A type is counted through the symbol that it refers to. -/
theorem resolves_of_countWithin {pool : Pool} {depth count : Nat} (counted : ty.countWithin pool depth = .ok count)
    (refers : ty.reference? = some ref) : ∃ symbol, ref.resolve pool = .ok symbol := by
  obtain _ | depth := depth
  · cases counted
  obtain ⟨shape, _, _, _⟩ := ty
  rw [countWithin] at counted
  cases shape with
  | struct symbol | block symbol =>
    obtain rfl : symbol = ref := Option.some.inj refers
    obtain ⟨found, resolved, _⟩ := bind_eq_ok.mp counted
    exact ⟨found, resolved⟩
  | _ => cases refers

theorem reference?_of_sameShape (same : first.sameShape second = true) : first.reference? = second.reference? := by
  simp only [sameShape, Bool.and_eq_true, decide_eq_true_eq] at same
  simp only [reference?, same.1]

theorem reference?_of_scalarKind (kind : ty.scalarKind? ≠ none) : ty.reference? = none := by
  unfold scalarKind? at kind
  unfold reference?
  split <;> simp_all

theorem reference?_of_indexed (indexed : ty.indexed? = some second) (refers : second.reference? = some ref) :
    ty.reference? = some ref := by
  unfold indexed? at indexed
  split at indexed
  · cases indexed
    exact refers
  · split at indexed <;> cases indexed <;> cases refers

theorem reference?_of_isStruct (struct : ty.isStruct = true) (refers : ty.reference? = some ref) :
    ty.shape = .struct ref := by
  unfold isStruct at struct
  unfold reference? at refers
  split at struct <;> simp_all

end Ty

namespace BinaryOp

variable {op : BinaryOp} {left right ty : Ty} {ref : SymbolRef}

theorem reference?_of_product {one two : Shape} (yields : product? one two = some ty) : ty.reference? = none := by
  unfold product? at yields
  split at yields
  · split at yields <;> cases yields
    rfl
  · split at yields <;> cases yields
    rfl
  · split at yields <;> cases yields
    rfl
  · cases yields

/-- Arithmetic is for numbers. -/
theorem reference?_of_arithmetic (yields : op.arithmetic? left right = some ty) : ty.reference? = none := by
  unfold arithmetic? at yields
  split at yields
  · cases yields
  · rename_i numbers
    simp only [Bool.or_eq_true, Option.isNone_iff_eq_none, decide_eq_true_eq, not_or, ne_eq, not_not] at numbers
    obtain ⟨⟨⟨known, same⟩, _⟩, _⟩ := numbers
    have alike : left.reference? = none := Ty.reference?_of_scalarKind known
    have other : right.reference? = none := Ty.reference?_of_scalarKind (same ▸ known)
    split at yields
    · split at yields
      · split at yields <;> cases yields
        exact alike
      · cases yields
        exact alike
    · split at yields
      · cases yields
        exact other
      · split at yields
        · cases yields
          exact alike
        · split at yields
          · exact reference?_of_product yields
          · cases yields

/-- What an operator yields refers to nothing that its operands do not refer to. -/
theorem reference?_of_result (yields : op.result? left right = some ty) (refers : ty.reference? = some ref) :
    left.reference? = some ref ∨ right.reference? = some ref := by
  cases op with
  | assign =>
    simp only [result?, Option.ite_none_right_eq_some, Option.some.injEq] at yields
    exact .inl (yields.2 ▸ refers)
  | comma => exact .inr (Option.some.inj yields ▸ refers)
  | indexDirect | indexIndirect =>
    simp only [result?, Option.ite_none_right_eq_some] at yields
    exact .inl (Ty.reference?_of_indexed yields.2 refers)
  | add | subtract | multiply | divide => cases (reference?_of_arithmetic yields).symm.trans refers
  | _ =>
    simp only [result?, Option.ite_none_right_eq_some, Option.some.injEq] at yields
    obtain ⟨_, rfl⟩ := yields
    cases refers

end BinaryOp

namespace Arguments

theorem checkLength_eq_ok {arguments : Arguments} {node : NodeId} {expected : Nat} :
    arguments.checkLength node expected = .ok () ↔ arguments.length = expected := by
  unfold checkLength
  split <;> simp_all

theorem checkShapes_eq_ok {arguments : Arguments} {expected : List Ty} : arguments.checkShapes expected = .ok () ↔
    ∀ pair ∈ arguments.zip expected, pair.1.2.sameShape pair.2 = true := by
  unfold checkShapes
  split
  · rename_i found
    have inside := List.mem_of_find?_eq_some found
    have other := List.find?_some found
    simp only [reduceCtorEq, false_iff]
    intro each
    simp [each _ inside] at other
  · rename_i none
    simpa using List.find?_eq_none.mp none

end Arguments

/-- A constructor looks a structure up, and an array has an element to take the reference from. -/
theorem reference?_of_construct {pool : Pool} {node : NodeId} {ty : Ty} {arguments : Arguments} {ref : SymbolRef}
    (built : checkConstruct pool node ty arguments = .ok ()) (refers : ty.reference? = some ref) :
    (∃ symbol, ref.resolve pool = .ok symbol) ∨ ∃ argument ∈ arguments, argument.2.reference? = some ref := by
  unfold checkConstruct at built
  cases array : ty.array with
  | some size =>
    right
    simp only [array, bind_eq_ok] at built
    obtain ⟨_, length, shapes⟩ := built
    rw [Arguments.checkLength_eq_ok] at length
    rw [Arguments.checkShapes_eq_ok] at shapes
    obtain ⟨argument, rest, rfl⟩ := List.exists_cons_of_length_pos (length ▸ size.pos)
    refine ⟨argument, List.mem_cons_self, ?_⟩
    rw [Ty.reference?_of_sameShape (shapes (argument, ty.element) List.mem_cons_self)]
    exact refers
  | none =>
    left
    obtain ⟨shape, _, _, _⟩ := ty
    obtain rfl := array
    cases shape with
    | struct symbol =>
      obtain rfl : symbol = ref := Option.some.inj refers
      obtain ⟨found, resolved, _⟩ := bind_eq_ok.mp built
      exact ⟨found, Rejection.lift_eq_ok.mp resolved⟩
    | block symbol => cases built
    | _ => cases refers

section
variable {checks : Checks} {table : SymbolTable} {returns : Option Ty} {role : Role} {term : Term} {tree : Tree}
  {ref : SymbolRef} {ty : Ty}

/-- What a well-formed piece names is there. -/
theorem WellFormed.named (right : WellFormed checks table returns role term) (references : checks.references = true)
    (names : term.node.named? = some ref) : table.Holds ref := by
  cases right with
  | @mk _ _ id node parts suits fits _ _ =>
    have names : node.named? = some ref := names
    cases node with
    | symbol symbol ty =>
      obtain rfl : symbol = ref := Option.some.inj names
      obtain ⟨expected, known, _⟩ := fits
      exact SymbolTable.holds_of_variable known
    | aggregate op arguments ty =>
      cases op with
      | construct => cases names
      | call function =>
        obtain rfl : function = ref := Option.some.inj names
        obtain ⟨_, _, known, _⟩ := fits
        exact SymbolTable.holds_of_function (known references)
    | prototype function =>
      obtain rfl : function = ref := Option.some.inj names
      exact SymbolTable.holds_of_function fits
    | definition function inner =>
      obtain rfl : function = ref := Option.some.inj names
      exact SymbolTable.holds_of_function fits.2
    | _ => cases names

/-- The type of an expression takes its reference from the pool or from a part, which has it from a
leaf in the end. -/
theorem WellFormed.reference (right : WellFormed checks table returns role term) (stands : term.Of tree)
    (types : checks.types = true) (constructors : checks.constructors = true) (typed : term.ty? = some ty)
    (refers : ty.reference? = some ref) : table.Holds ref ∨ tree.Brings table term.id ref := by
  induction right generalizing ty with
  | @mk returns role id node parts suits fits writable below ih =>
    have found : tree.nodes.get? id = some node := stands.found
    have children : node.children = parts.map Term.id := stands.children
    have through : ∀ face ∈ parts.map Term.face, ∀ inner, face.ty? = some inner → inner.reference? = some ref →
        table.Holds ref ∨ tree.Brings table id ref := by
      intro face seen inner typed refers
      obtain ⟨part, member, rfl⟩ := List.mem_map.mp seen
      obtain ⟨role, among⟩ := Node.exists_role returns (parts.map Term.face) children member
      refine (ih role part among (stands.parts member) typed refers).imp_right (Tree.Brings.up ⟨node, found, ?_⟩)
      rw [children]
      exact List.mem_map_of_mem member
    cases node with
    | symbol symbol own =>
      obtain rfl : own = ty := Option.some.inj typed
      obtain ⟨expected, known, shape⟩ := fits
      rw [← Ty.reference?_of_sameShape (shape types)] at refers
      exact .inr (.use .refl found known refers)
    | constant values own =>
      obtain rfl : own = ty := Option.some.inj typed
      obtain struct | ⟨size, counted, _⟩ := fits
      · exact .inr (.constant .refl found (Ty.reference?_of_isStruct struct refers))
      · exact .inl (Ty.resolves_of_countWithin counted refers)
    | binary op left right own =>
      obtain rfl : own = ty := Option.some.inj typed
      obtain ⟨first, second, leftTy, rightTy, faces, leftTyped, rightTyped, agrees⟩ := fits
      obtain ⟨yielded, yields, shape⟩ := (Option.any_eq_true ..).mp (agrees types).2
      rw [← Ty.reference?_of_sameShape shape] at refers
      rw [faces] at through
      rcases BinaryOp.reference?_of_result yields refers with refers | refers
      · exact through first (by simp) leftTy leftTyped refers
      · exact through second (by simp) rightTy rightTyped refers
    | unary op operand own =>
      obtain rfl : own = ty := Option.some.inj typed
      obtain ⟨face, operandTy, faces, operandTyped, agrees⟩ := fits
      rw [← Ty.reference?_of_sameShape (agrees types).1] at refers
      rw [faces] at through
      exact through face (by simp) operandTy operandTyped refers
    | ternary condition accept reject own =>
      obtain rfl : own = ty := Option.some.inj typed
      obtain ⟨test, taken, other, rfl⟩ : ∃ test taken other, parts = [test, taken, other] :=
        List.length_eq_three.mp (by simpa [Node.children] using (congrArg List.length children).symm)
      have suits : Role.Suits checks (.expression (some own)) taken.face := (below _ taken (by simp [Node.roles])).suits
      obtain ⟨takenTy, takenTyped, shape⟩ := suits
      rw [← Ty.reference?_of_sameShape (shape types own rfl)] at refers
      exact through taken.face (by simp) takenTy takenTyped refers
    | aggregate op arguments own =>
      obtain rfl : own = ty := Option.some.inj typed
      cases op with
      | construct =>
        obtain ⟨types, known, built⟩ := fits
        rcases reference?_of_construct (built constructors) refers with resolves | ⟨argument, among, refers⟩
        · exact .inl resolves
        · have type : some argument.2 ∈ types.map some := List.mem_map_of_mem (List.of_mem_zip among).2
          rw [← known] at type
          obtain ⟨face, member, typed⟩ := List.mem_map.mp type
          exact through face member argument.2 typed refers
      | call function =>
        obtain ⟨_, _, _, takes⟩ := fits
        obtain ⟨target, known, _, _, shape⟩ := takes types
        rw [← Ty.reference?_of_sameShape shape] at refers
        exact .inr (.call .refl found known refers)
    | _ => cases typed

end

/-- In a valid program the variables and functions that nodes name are in the pool or built in. The
structure or block that a type refers to is as well, unless a leaf below brought the reference. -/
theorem Tree.validate_references {tree : Tree} {table : SymbolTable} {id : NodeId} {node : Node}
    (accepted : tree.validate table .all = .ok ()) (reached : tree.Reachable id)
    (found : tree.nodes.get? id = some node) :
    (∀ ref, node.named? = some ref → table.Holds ref) ∧
      ∀ ty ref, node.ty? = some ty → ty.reference? = some ref → table.Holds ref ∨ tree.Brings table id ref := by
  obtain ⟨term, root, stands, valid⟩ := validate_iff.mp accepted
  obtain ⟨piece, member, rfl⟩ := (stands.reachable_iff_piece root).mp reached
  have standing := stands.of_mem_pieces member
  obtain rfl : piece.node = node := Option.some.inj (standing.found.symm.trans found)
  have each : term.All fun piece => (∀ ref, piece.node.named? = some ref → table.Holds ref) ∧
      ∀ ty ref, piece.ty? = some ty → ty.reference? = some ref → table.Holds ref ∨ tree.Brings table piece.id ref :=
    valid.wellFormed.all stands fun _ _ _ stands right =>
      ⟨fun _ => right.named rfl, fun _ _ => right.reference stands rfl rfl⟩
  exact (each.of_mem_pieces member).own

def Tree.constantOf (symbol : SymbolRef) : Tree :=
  { nodes := ⟨#[.block [⟨1⟩], .constant [] (.struct symbol)]⟩
    root := ⟨0⟩ }

/-- The program is valid when there is no such structure, so the constant itself must bring it. -/
theorem Tree.validate_references_constantOf :
    (constantOf (.pool ⟨7⟩)).validate { builtIns := {}, profile := {} } .all = .ok () ∧
      (constantOf (.pool ⟨7⟩)).Reachable ⟨1⟩ ∧
      ¬ ({ builtIns := {}, profile := {} } : SymbolTable).Holds (.pool ⟨7⟩) ∧
      (constantOf (.pool ⟨7⟩)).Brings { builtIns := {}, profile := {} } ⟨1⟩ (.pool ⟨7⟩) := by
  have accepted : (constantOf (.pool ⟨7⟩)).validate { builtIns := {}, profile := {} } .all = .ok () := rfl
  have reached : (constantOf (.pool ⟨7⟩)).Reachable ⟨1⟩ := .tail .refl ⟨.block [⟨1⟩], rfl, by simp [Node.children]⟩
  have missing : ¬ ({ builtIns := {}, profile := {} } : SymbolTable).Holds (.pool ⟨7⟩) := by
    rintro ⟨symbol, resolved⟩
    cases resolved
  refine ⟨accepted, reached, missing, ?_⟩
  exact ((validate_references accepted reached rfl).2 _ _ rfl rfl).resolve_left missing

end ShaderTree
