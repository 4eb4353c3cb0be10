import ShaderTree.Proofs.Reachability

/-! What valid programs calculate with. The operands of an arithmetic operation have components of one kind, which
the operation takes for numbers though they may be booleans. An operator that negates or counts asks for the kind
only: what has none is taken as well, and so are arrays. -/
namespace ShaderTree

namespace Ty

variable {ty left right : Ty}

def isNumeric (ty : Ty) : Bool := ty.hasComponents && ty.scalarKind? != some .bool

def isBoolean (ty : Ty) : Bool := ty.hasComponents && ty.scalarKind? == some .bool

theorem hasComponents_iff : ty.hasComponents = true ↔ ty.isArray = false ∧ ty.scalarKind? ≠ none := by
  obtain ⟨shape, _, _, array⟩ := ty
  cases array <;> cases shape <;> simp [hasComponents, isScalar, isVector, isMatrix, isArray, scalarKind?]

theorem scalarKind?_of_sameShape (same : left.sameShape right = true) : left.scalarKind? = right.scalarKind? := by
  simp only [sameShape, Bool.and_eq_true, decide_eq_true_eq] at same
  simp only [scalarKind?, same.1]

end Ty

namespace BinaryOp

variable {op : BinaryOp} {left right ty : Ty}

def isArithmetic : BinaryOp → Bool
  | add | subtract | multiply | divide => true
  | _ => false

theorem result?_of_isArithmetic (arithmetic : op.isArithmetic = true) :
    op.result? left right = op.arithmetic? left right := by
  cases op <;> first | rfl | cases arithmetic

/-- Operands that go together. -/
theorem arithmetic?_operands (yields : op.arithmetic? left right = some ty) :
    left.hasComponents = true ∧ right.hasComponents = true ∧ left.scalarKind? = right.scalarKind? := by
  unfold arithmetic? at yields
  split at yields
  · cases yields
  · rename_i numbers
    simp only [Bool.or_eq_true, Option.isNone_iff_eq_none, decide_eq_true_eq, not_or, ne_eq, not_not, Bool.not_eq_true]
      at numbers
    obtain ⟨⟨⟨known, same⟩, plain⟩, other⟩ := numbers
    exact ⟨Ty.hasComponents_iff.mpr ⟨plain, known⟩, Ty.hasComponents_iff.mpr ⟨other, same ▸ known⟩, same⟩

/-- What has components goes together with a scalar of their kind. -/
theorem arithmetic?_scalar {kind : ScalarKind} (has : ty.hasComponents = true) (known : ty.scalarKind? = some kind) :
    op.arithmetic? ty (.scalar kind) = some ty := by
  obtain ⟨plain, shape⟩ := Ty.hasComponents_cases has
  obtain ⟨_, _, _, _⟩ := ty
  obtain rfl := plain
  rcases shape with ⟨_, rfl⟩ | ⟨_, _, rfl⟩ | ⟨_, _, rfl⟩ <;> cases known <;>
    simp [arithmetic?, Ty.scalarKind?, Ty.isArray, Ty.sameShape, Ty.isScalar, Ty.scalar]

end BinaryOp

namespace Node

def combines : Node → Bool
  | binary op _ _ _ => op.isArithmetic
  | _ => false

/-- Negates or counts. -/
def steps : Node → Bool
  | unary op _ _ => op != .logicalNot
  | _ => false

end Node

def Tree.Operands (tree : Tree) (node : Node) (sort : Ty → Bool) : Prop :=
  ∀ child ∈ node.children, ∃ ty, (tree.face child).ty? = some ty ∧ sort ty = true

section
variable {checks : Checks} {table : SymbolTable} {returns : Option Ty} {tree : Tree} {id : NodeId} {node : Node}

theorem Node.Fits.combined (fits : node.Fits checks table returns (node.children.map tree.face) id)
    (types : checks.types = true) (combines : node.combines = true) :
    tree.Operands node Ty.isNumeric ∨ tree.Operands node Ty.isBoolean := by
  cases node with
  | binary op left right own =>
    obtain ⟨_, _, one, other, faces, leftTyped, rightTyped, agrees⟩ := fits
    cases faces
    obtain ⟨yielded, yields, _⟩ := (Option.any_eq_true ..).mp (agrees types).2
    rw [BinaryOp.result?_of_isArithmetic combines] at yields
    obtain ⟨oneHas, otherHas, kinds⟩ := BinaryOp.arithmetic?_operands yields
    have both {sort : Ty → Bool} (first : sort one = true) (second : sort other = true) :
        tree.Operands (.binary op left right own) sort :=
      List.forall_mem_cons.mpr ⟨⟨one, leftTyped, first⟩, List.forall_mem_singleton.mpr ⟨other, rightTyped, second⟩⟩
    by_cases boolean : one.scalarKind? = some .bool
    · refine .inr (both ?_ ?_)
      · simp [Ty.isBoolean, oneHas, boolean]
      · simp [Ty.isBoolean, otherHas, ← kinds, boolean]
    · refine .inl (both ?_ ?_)
      · simp [Ty.isNumeric, oneHas, boolean]
      · simp [Ty.isNumeric, otherHas, ← kinds, boolean]
  | _ => cases combines

theorem Node.Fits.stepped (fits : node.Fits checks table returns (node.children.map tree.face) id)
    (types : checks.types = true) (steps : node.steps = true) :
    tree.Operands node fun ty => ty.scalarKind? != some .bool := by
  cases node with
  | unary op operand own =>
    obtain ⟨_, one, faces, typed, agrees⟩ := fits
    cases faces
    obtain ⟨shape, accepts⟩ := agrees types
    refine List.forall_mem_singleton.mpr ⟨one, typed, ?_⟩
    change (one.scalarKind? != some .bool) = true
    rw [Ty.scalarKind?_of_sameShape shape]
    cases op <;> first | simpa [UnaryOp.accepts] using accepts | cases steps
  | _ => cases steps

end

/-! ### Programs with any such operands -/

/-- The program that applies an operation to the results of functions that return a `one` and an `other`. -/
def Tree.onResults (one other : Ty) (operation : Node) : Tree where
  nodes := ⟨#[.block [⟨3⟩], .aggregate (.call (.pool ⟨0⟩)) [] one, .aggregate (.call (.pool ⟨1⟩)) [] other, operation]⟩
  root := ⟨0⟩

def SymbolTable.returning (one other : Ty) : SymbolTable where
  pool := ⟨#[{ rawName := "f", id := ⟨96⟩, origin := .userDefined, kind := .function (.new one false) },
    { rawName := "g", id := ⟨97⟩, origin := .userDefined, kind := .function (.new other false) }]⟩
  builtIns := {}
  profile := {}

section
variable {one other : Ty} {operation : Node}

def Term.results (one other : Ty) : List Term :=
  [.mk ⟨1⟩ (.aggregate (.call (.pool ⟨0⟩)) [] one) [], .mk ⟨2⟩ (.aggregate (.call (.pool ⟨1⟩)) [] other) []]

theorem Term.result_wellFormed {part : Term} (member : part ∈ results one other) :
    WellFormed .all (.returning one other) none (.expression none) part := by
  have takes {ref : SymbolRef} {ty : Ty}
      (known : (SymbolTable.returning one other).function? ref = some (.new ty false)) :
      (SymbolTable.returning one other).Takes ref [] ty :=
    ⟨_, known, rfl, by simp [Function.new, Function.parameters], ty.sameShape_refl⟩
  simp only [results, List.mem_cons, List.not_mem_nil, or_false] at member
  rcases member with rfl | rfl
  · exact .leaf ⟨one, rfl, by simp⟩ ⟨[], rfl, fun _ => rfl, fun _ => takes rfl⟩ rfl rfl
  · exact .leaf ⟨other, rfl, by simp⟩ ⟨[], rfl, fun _ => rfl, fun _ => takes rfl⟩ rfl rfl

/-- An operation that fits the results makes the program valid. -/
theorem Tree.onResults_accepted (parts : List Term) (children : operation.children = parts.map Term.id)
    (operands : parts.Sublist (Term.results one other)) (inner : operation.symbol? = none)
    (fits : operation.Fits .all (.returning one other) none (parts.map Term.face) ⟨3⟩)
    (roles : ∀ role ∈ operation.roles none (parts.map Term.face), role = .expression none)
    (returns : operation.inner (.returning one other) none = none) :
    (onResults one other operation).validate (.returning one other) .all = .ok () := by
  have call : ∀ part ∈ parts, part ∈ Term.results one other := fun part member => operands.subset member
  refine Tree.validate_iff.mpr ⟨.mk ⟨0⟩ (.block [⟨3⟩]) [.mk ⟨3⟩ operation parts], rfl, ?_, ?_, fun _ => ?_, fun _ => ?_⟩
  · refine .mk rfl rfl (List.forall_mem_singleton.mpr (.mk rfl children fun part member => ?_))
    have among := call part member
    simp only [Term.results, List.mem_cons, List.not_mem_nil, or_false] at among
    rcases among with rfl | rfl
    · exact .mk rfl rfl (by simp)
    · exact .mk rfl rfl (by simp)
  · refine .mk rfl trivial (by simp [Node.writes]) fun role part member => ?_
    obtain ⟨rfl, rfl⟩ : role = .statement ∧ part = .mk ⟨3⟩ operation parts := by simpa [Node.roles] using member
    refine .mk trivial fits (fun _ part first symbol root => ?_) fun role part member => ?_
    · have among := call part (List.mem_of_mem_head? first)
      simp only [Term.results, List.mem_cons, List.not_mem_nil, or_false] at among
      rcases among with rfl | rfl <;> cases root
    · obtain rfl := roles role (List.of_mem_zip member).1
      change WellFormed _ _ (operation.inner _ none) _ _
      rw [returns]
      exact Term.result_wellFormed (call part (List.of_mem_zip member).2)
  · refine .mk (by simp [Node.symbol?]) fun front part back split _ => ?_
    obtain ⟨rfl, rfl, rfl⟩ : front = [] ∧ part = .mk ⟨3⟩ operation parts ∧ back = [] := by
      rw [eq_comm, List.append_eq_singleton_iff] at split
      simpa using split
    refine .mk (by simp [inner]) fun front part back split _ => ?_
    have among := call part (split ▸ List.mem_append_right _ List.mem_cons_self)
    simp only [Term.results, List.mem_cons, List.not_mem_nil, or_false] at among
    rcases among with rfl | rfl <;> exact .mk (by simp [Node.symbol?]) (by simp)
  · have ids : (Term.mk ⟨0⟩ (.block [⟨3⟩]) [.mk ⟨3⟩ operation parts]).ids = [⟨0⟩, ⟨3⟩] ++ parts.flatMap Term.ids := by
      simp [Term.ids_mk]
    have sub := (operands.flatMap Term.ids).append_left [⟨0⟩, ⟨3⟩]
    rw [ids]
    refine sub.nodup ?_
    simp [Term.results, Term.ids_mk]

theorem Tree.onResults_reachable : (onResults one other operation).Reachable ⟨3⟩ :=
  .single ⟨.block [⟨3⟩], rfl, List.mem_singleton_self _⟩

/-- Whatever has components, booleans included, is added to the scalars of its kind in some valid program, and so for
the other operations. -/
theorem Tree.exists_combined {op : BinaryOp} {ty : Ty} (arithmetic : op.isArithmetic = true)
    (has : ty.hasComponents = true) :
    ∃ tree table id left right own, Tree.validate tree table .all = .ok () ∧ tree.Reachable id ∧
      tree.nodes.get? id = some (.binary op left right own) ∧ (tree.face left).ty? = some ty := by
  obtain ⟨kind, known⟩ := Option.ne_none_iff_exists'.mp (Ty.hasComponents_iff.mp has).2
  refine ⟨onResults ty (.scalar kind) (.binary op ⟨1⟩ ⟨2⟩ ty), .returning ty (.scalar kind), ⟨3⟩, ⟨1⟩, ⟨2⟩, ty, ?_,
    onResults_reachable, rfl, rfl⟩
  refine onResults_accepted (Term.results ty (.scalar kind)) rfl (.refl _) rfl ?_ (by simp [Node.roles]) rfl
  refine ⟨_, _, ty, .scalar kind, rfl, rfl, rfl, fun _ => ⟨fun direct => ?_, ?_⟩⟩
  · subst direct
    cases arithmetic
  · rw [BinaryOp.result?_of_isArithmetic arithmetic, BinaryOp.arithmetic?_scalar has known]
    exact ty.sameShape_refl

/-- Whatever is not made of booleans, in numbers or not, is negated and counted in some valid program. -/
theorem Tree.exists_stepped {op : UnaryOp} {ty : Ty} (other : op ≠ .logicalNot) (kind : ty.scalarKind? ≠ some .bool) :
    ∃ tree table id operand own, Tree.validate tree table .all = .ok () ∧ tree.Reachable id ∧
      tree.nodes.get? id = some (.unary op operand own) ∧ (tree.face operand).ty? = some ty := by
  refine ⟨onResults ty ty (.unary op ⟨1⟩ ty), .returning ty ty, ⟨3⟩, ⟨1⟩, ty, ?_, onResults_reachable, rfl, rfl⟩
  refine onResults_accepted ((Term.results ty ty).take 1) rfl (List.take_sublist 1 _) rfl ?_ (by simp [Node.roles]) rfl
  refine ⟨_, ty, rfl, rfl, fun _ => ⟨ty.sameShape_refl, ?_⟩⟩
  cases op <;> first | simpa [UnaryOp.accepts] using kind | exact absurd rfl other

end

namespace Tree

variable {tree : Tree} {table : SymbolTable} {id : NodeId} {node : Node}

/-- In a valid program the operands of an operation that adds, subtracts, multiplies or divides are numbers or
vectors or matrices of them, just if they are not all made of booleans. The operand of an operator that negates or
counts is one of these just if it is a scalar, vector or matrix at all. -/
theorem validate_numeric_iff (accepted : tree.validate table .all = .ok ()) (reached : tree.Reachable id)
    (found : tree.nodes.get? id = some node) :
    (node.combines = true → (tree.Operands node Ty.isNumeric ↔ ¬ tree.Operands node Ty.isBoolean)) ∧
      (node.steps = true → (tree.Operands node Ty.isNumeric ↔ tree.Operands node Ty.hasComponents)) := by
  obtain ⟨_, fits⟩ := fits_of_accepted accepted reached found
  constructor
  · intro combines
    refine ⟨fun numeric boolean => ?_, (fits.combined rfl combines).resolve_right⟩
    obtain ⟨first, member⟩ : ∃ first, first ∈ node.children := by
      cases node <;> first | exact ⟨_, List.mem_cons_self⟩ | cases combines
    obtain ⟨ty, typed, number⟩ := numeric first member
    obtain ⟨_, same, truth⟩ := boolean first member
    obtain rfl := Option.some.inj (typed.symm.trans same)
    simp only [Ty.isNumeric, Ty.isBoolean, Bool.and_eq_true, bne_iff_ne, beq_iff_eq] at number truth
    exact number.2 truth.2
  · intro steps
    have unboolean := fits.stepped rfl steps
    constructor
    · intro numeric child member
      obtain ⟨ty, typed, number⟩ := numeric child member
      exact ⟨ty, typed, (Bool.and_eq_true_iff.mp number).1⟩
    · intro scalars child member
      obtain ⟨ty, typed, has⟩ := scalars child member
      obtain ⟨_, same, kind⟩ := unboolean child member
      obtain rfl := Option.some.inj (typed.symm.trans same)
      exact ⟨ty, typed, Bool.and_eq_true_iff.mpr ⟨has, kind⟩⟩

/-- The program `f() + g();` for functions that return booleans. -/
def addingBooleans : Tree := onResults .bool .bool (.binary .add ⟨1⟩ ⟨2⟩ .bool)

def floats : Ty := Ty.float.arrayOf { count := 2 }

/-- The program `-f();` for a function that returns two floats. -/
def negatingFloats : Tree := onResults floats floats (.unary .negate ⟨1⟩ floats)

/-- Booleans are added and arrays negated in programs that are valid. -/
theorem validate_numeric_iff_addingBooleans :
    (addingBooleans.validate (.returning .bool .bool) .all = .ok () ∧ addingBooleans.Reachable ⟨3⟩ ∧
      ¬ addingBooleans.Operands (.binary .add ⟨1⟩ ⟨2⟩ .bool) Ty.isNumeric) ∧
    negatingFloats.validate (.returning floats floats) .all = .ok () ∧ negatingFloats.Reachable ⟨3⟩ ∧
      ¬ negatingFloats.Operands (.unary .negate ⟨1⟩ floats) Ty.isNumeric := by
  have added : addingBooleans.validate (.returning .bool .bool) .all = .ok () := rfl
  have negated : negatingFloats.validate (.returning floats floats) .all = .ok () := rfl
  have booleans : addingBooleans.Operands (.binary .add ⟨1⟩ ⟨2⟩ .bool) Ty.isBoolean :=
    List.forall_mem_cons.mpr ⟨⟨_, rfl, rfl⟩, List.forall_mem_singleton.mpr ⟨_, rfl, rfl⟩⟩
  refine ⟨⟨added, onResults_reachable, fun numeric => ?_⟩, negated, onResults_reachable, fun numeric => ?_⟩
  · exact ((validate_numeric_iff added onResults_reachable rfl).1 rfl).mp numeric booleans
  · obtain ⟨_, typed, has⟩ := ((validate_numeric_iff negated onResults_reachable rfl).2 rfl).mp
      numeric ⟨1⟩ List.mem_cons_self
    cases typed
    cases has

end Tree
end ShaderTree
