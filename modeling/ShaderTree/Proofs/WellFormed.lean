import ShaderTree.Proofs.Components
import ShaderTree.Proofs.Term
import ShaderTree.Validity.Statement

/-! What validation asks of a piece, stated without running it. `WellFormed` says that
every node fits what its parts show and stands where such a node may stand; `Scoped`
says that variables are in scope where they are used. Neither looks at handles, so
that no node occurs twice is a third condition. -/
namespace ShaderTree

def Node.index? : Node → Option Nat
  | .constant [.sint value] _ => if 0 ≤ value then some value.toInt.toNat else none
  | .constant [.uint value] _ => some value.toNat
  | _ => none

def Node.symbol? : Node → Option SymbolRef
  | .symbol ref _ => some ref
  | _ => none

def Node.writes : Node → Bool
  | .binary op _ _ _ => op.isAssignment
  | .unary op _ _ => op.isMutating
  | _ => false

/-- What a node sees of one of its parts. -/
structure Face where
  id : NodeId
  ty? : Option Ty := none
  symbol? : Option SymbolRef := none
  index? : Option Nat := none
  isBlock : Bool := false

def Node.face (id : NodeId) (node : Node) : Face := ⟨id, node.ty?, node.symbol?, node.index?, node.isBlock⟩

namespace Term

def face (term : Term) : Face := term.node.face term.id

def root? : Term → Option SymbolRef
  | mk _ (.symbol symbol _) _ => some symbol
  | mk _ (.binary op _ _ _) (left :: _) => if op.isIndex then left.root? else none
  | _ => none

def declared (term : Term) : List SymbolRef :=
  match term.node, term.parts with
  | .declaration _ _, declarator :: _ => declarator.node.symbol?.toList
  | _, _ => []

end Term

/-- A piece declares one variable at most. -/
theorem Term.declared_reverse (term : Term) : term.declared.reverse = term.declared := by
  unfold declared
  split
  · rename_i declarator _ _ _
    cases declarator.node.symbol? <;> rfl
  · rfl

/-- Where a piece stands. Some expressions must have the shape of a given type. -/
inductive Role where
  | expression (expected : Option Ty)
  | statement
  | body
  | declarator

namespace Role

def Suits (checks : Checks) : Role → Face → Prop
  | expression expected, face => ∃ ty, face.ty? = some ty ∧
      (checks.types = true → ∀ other ∈ expected, ty.sameShape other = true)
  | statement, _ => True
  | body, face => face.isBlock = true
  | declarator, face => face.symbol?.isSome = true

end Role

namespace SymbolTable

def function? (table : SymbolTable) (symbol : SymbolRef) : Option Function :=
  (table.resolve symbol).toOption.bind Symbol.asFunction?

def variableType? (table : SymbolTable) (symbol : SymbolRef) : Option Ty :=
  ((table.resolve symbol).toOption.bind Symbol.asVariable?).map Variable.ty

/-- A variable that is no read-only built-in. -/
def Writable (table : SymbolTable) (symbol : SymbolRef) : Prop :=
  ∃ target, table.resolve symbol = .ok target ∧
    (target.id.isBuiltIn && target.asVariable?.any (·.ty.qualifier.isReadOnly)) = false

def Takes (table : SymbolTable) (callee : SymbolRef) (types : List Ty) (ty : Ty) : Prop :=
  ∃ function, table.function? callee = some function ∧
    function.parameters.length = types.length ∧
    (∀ parameter type, (parameter, type) ∈ function.parameters.zip types →
      ∃ expected, table.variableType? parameter = some expected ∧ expected.sameShape type = true) ∧
    function.returnType.sameShape ty = true

theorem function?_eq_some {table : SymbolTable} {ref : SymbolRef} : table.function? ref = some function ↔
    ∃ symbol, table.resolve ref = .ok symbol ∧ symbol.asFunction? = some function := by
  unfold function?
  cases table.resolve ref <;> simp [Except.toOption]

theorem variableType?_eq_some {table : SymbolTable} {ref : SymbolRef} :
    table.variableType? ref = some ty ↔ ∃ symbol var, table.resolve ref = .ok symbol ∧
      symbol.asVariable? = some var ∧ var.ty = ty := by
  unfold variableType?
  cases table.resolve ref <;> simp [Except.toOption, Option.map_eq_some_iff]

end SymbolTable

namespace Node

variable (checks : Checks) (table : SymbolTable) (returns : Option Ty) (faces : List Face)

/-- The roles of the parts, in the order of the children. `returns` is the type that the function
around the node returns. -/
def roles : Node → List Role
  | symbol _ _ | constant _ _ | prototype _ => []
  | binary _ _ _ _ => [.expression none, .expression none]
  | unary _ _ _ => [.expression none]
  | ternary _ _ _ ty => [.expression (some .bool), .expression (some ty), .expression (some ty)]
  | aggregate _ arguments _ => arguments.map fun _ => .expression none
  | declaration _ initializer =>
    .declarator :: initializer.toList.map fun _ => .expression (faces.head?.bind Face.ty?)
  | block statements => statements.map fun _ => .statement
  | ifElse _ _ reject => [.expression (some .bool), .body] ++ reject.toList.map fun _ => .body
  | loop _ init condition step _ =>
    init.toList.map (fun _ => .statement) ++ condition.toList.map (fun _ => .expression (some .bool))
      ++ step.toList.map (fun _ => .expression none) ++ [.body]
  | branch kind value =>
    value.toList.map fun _ => .expression (if kind = .returnFrom then returns else none)
  | definition _ _ => [.body]

def Fits (id : NodeId) : Node → Prop
  | symbol ref ty => ∃ expected, table.variableType? ref = some expected ∧
      (checks.types = true → expected.sameShape ty = true)
  | constant values ty => ty.isStruct = true ∨ ∃ size, ty.objectSize table.pool = .ok size ∧
      (checks.types = true → values.length = size ∧ ∀ value ∈ values, some value.kind = ty.scalarKind?)
  | binary op _ _ ty => ∃ left right leftTy rightTy, faces = [left, right] ∧
      left.ty? = some leftTy ∧ right.ty? = some rightTy ∧ (checks.types = true →
        (op = .indexDirect → ∀ index ∈ right.index?, index < leftTy.extent) ∧
        (op.result? leftTy rightTy).any (·.sameShape ty) = true)
  | unary op _ ty => ∃ operand operandTy, faces = [operand] ∧ operand.ty? = some operandTy ∧
      (checks.types = true → operandTy.sameShape ty = true ∧ op.accepts ty = true)
  | aggregate .construct _ ty => ∃ types, faces.map Face.ty? = types.map some ∧
      (checks.constructors = true →
        checkConstruct table.pool id ty ((faces.map Face.id).zip types) = .ok ())
  | aggregate (.call function) _ ty => ∃ types, faces.map Face.ty? = types.map some ∧
      (checks.references = true → (table.function? function).isSome = true) ∧
      (checks.types = true → table.Takes function types ty)
  | prototype function => (table.function? function).isSome = true
  | definition function _ => returns = none ∧ (table.function? function).isSome = true
  | _ => True

/-- What a function around the parts returns. -/
def inner : Node → Option Ty
  | definition function _ => (table.function? function).map Function.returnType
  | _ => returns

/-- The variables that a function brings into its body. -/
def names : Node → List SymbolRef
  | definition function _ => ((table.function? function).map Function.parameters).getD []
  | _ => []

/-- The variables in scope of a part, given those around the node and the parts before. -/
def scope (visible : List SymbolRef) (front : List Term) (node : Node) : List SymbolRef :=
  match node with
  | block _ | loop _ _ _ _ _ => (front.flatMap Term.declared).reverse ++ visible
  | _ => node.names table ++ visible

end Node

def SymbolRef.VisibleIn (symbol : SymbolRef) (visible : List SymbolRef) : Prop :=
  symbol.isBuiltIn = true ∨ symbol ∈ visible

/-- The piece is right apart from the scopes of its variables. -/
inductive WellFormed (checks : Checks) (table : SymbolTable) : (returns : Option Ty) → Role → Term → Prop where
  | mk {returns : Option Ty} {role : Role} {id : NodeId} {node : Node} {parts : List Term}
      (suits : role.Suits checks (Term.mk id node parts).face)
      (fits : Node.Fits checks table returns (parts.map Term.face) id node)
      (writable : node.writes = true → ∀ part ∈ parts.head?, ∀ symbol ∈ part.root?, table.Writable symbol)
      (below : ∀ role part, (role, part) ∈ (node.roles returns (parts.map Term.face)).zip parts →
        WellFormed checks table (node.inner table returns) role part) :
      WellFormed checks table returns role (.mk id node parts)

theorem Node.roles_length (returns : Option Ty) (faces : List Face) (node : Node) :
    (node.roles returns faces).length = node.children.length := by
  cases node <;> simp [roles, children]

theorem Node.exists_role {node : Node} {parts : List Term} {part : Term} (returns : Option Ty) (faces : List Face)
    (children : node.children = parts.map Term.id) (member : part ∈ parts) :
    ∃ role, (role, part) ∈ (node.roles returns faces).zip parts := by
  have length : (node.roles returns faces).length = parts.length := by
    rw [roles_length, children, List.length_map]
  rw [← List.map_snd_zip (Nat.le_of_eq length.symm)] at member
  obtain ⟨⟨role, _⟩, among, rfl⟩ := List.mem_map.mp member
  exact ⟨role, among⟩

theorem WellFormed.suits {checks : Checks} {role : Role} {term : Term}
    (right : WellFormed checks table returns role term) : role.Suits checks term.face := by
  cases right with
  | mk suits => exact suits

section
variable {checks : Checks} {table : SymbolTable} {returns : Option Ty}

/-- A node without parts. -/
theorem WellFormed.leaf {role : Role} {id : NodeId} {node : Node} (suits : role.Suits checks (node.face id))
    (fits : node.Fits checks table returns [] id) (plain : node.writes = false)
    (roles : node.roles returns [] = []) : WellFormed checks table returns role (.mk id node []) :=
  .mk suits fits (by simp [plain]) (by simp [roles])

/-- Whatever type is expected matters for the node itself only. -/
theorem WellFormed.expect {expected : Option Ty} {term : Term}
    (right : WellFormed checks table returns (.expression none) term)
    (shape : ∀ ty other, term.ty? = some ty → other ∈ expected → ty.sameShape other = true) :
    WellFormed checks table returns (.expression expected) term := by
  cases right with
  | mk suits fits writable below =>
    obtain ⟨ty, typed, _⟩ := suits
    exact .mk ⟨ty, typed, fun _ other member => shape ty other typed member⟩ fits writable below

end

/-- What holds of every piece that is well formed holds of all that it is made of. -/
theorem WellFormed.all {checks : Checks} {returns : Option Ty} {role : Role} {term : Term} {holds : Term → Prop}
    (right : WellFormed checks table returns role term) (stands : term.Of tree)
    (each : ∀ returns role term, term.Of tree → WellFormed checks table returns role term → holds term) :
    term.All holds := by
  induction term using Term.induct generalizing returns role with
  | step id node parts ih =>
    refine .mk (each returns role _ stands right) fun part member => ?_
    obtain ⟨inner, among⟩ := Node.exists_role returns (parts.map Term.face) stands.children member
    cases right with
    | mk _ _ _ below => exact ih part member (below inner part among) (stands.parts member)

/-- Variables are in scope where they are used. The variable that a declaration declares is no use. -/
inductive Scoped (table : SymbolTable) : (visible : List SymbolRef) → Term → Prop where
  | mk {visible : List SymbolRef} {id : NodeId} {node : Node} {parts : List Term}
      (own : ∀ ref ∈ node.symbol?, ref.VisibleIn visible)
      (below : ∀ front part back, parts = front ++ part :: back →
        (front = [] → ∀ declarator initializer, node ≠ .declaration declarator initializer) →
        Scoped table (node.scope table visible front) part) :
      Scoped table visible (.mk id node parts)

end ShaderTree
