import ShaderTree.Proofs.Constructor
import ShaderTree.Proofs.Course
import ShaderTree.Proofs.Unscalarized

/-! What running a piece of a program does and what it comes to. Operands go from left to right,
the right operands of `&&` and `||` and the branches of a ternary are evaluated when they are
chosen, and a loop evaluates its condition and its expression once for each turn. The variables
of the program are left to the world: what is read from one depends on the effects that have
happened, as does what a function returns. A variable that is set as a whole is not read.
Temporaries hold what they are declared with. -/
namespace ShaderTree

open Course

/-- The scalars of a value, those of a matrix column by column, and the indices that lead to its
place in a variable. -/
structure Value (α : Type) where
  scalars : List α
  place : List (List α)

/-- A node that was evaluated, and the values that it was evaluated with. -/
structure Effect (α : Type) where
  id : NodeId
  values : List (Value α)

inductive Operator where
  | use (symbol : SymbolRef)
  | constant (values : List Scalar)
  | unary (op : UnaryOp)
  | binary (op : BinaryOp)
  | ternary
  | call (function : SymbolRef)
  | construct (types : List Ty)

/-- Whether what it yields depends on what has happened. -/
def Operator.reads : Operator → Bool
  | use _ | call _ => true
  | _ => false

/-- Such a value is put together scalar by scalar. A single argument may be converted as a whole. -/
def Ty.joins (ty : Ty) (types : List Ty) : Bool :=
  (ty.isVector || ty.isMatrix) && (decide (1 < types.length) || ty.mixes types)

/-- What the operators yield, which values are true, and how many turns of a loop are waited for. -/
structure World (α : Type) where
  apply : List (Effect α) → Operator → Ty → List (List α) → List α
  truth : List α → Bool
  limit : Nat
  sized {events : List (Effect α)} {op : Operator} {ty : Ty} {operands : List (List α)}
    (has : ty.hasComponents = true) : (apply events op ty operands).length = ty.components
  settled {op : Operator} (events others : List (Effect α)) (constant : op.reads = false) : apply events op = apply others op
  indexes {events : List (Effect α)} {element : Ty} {count position : Nat} {scalars : List α}
    (has : element.hasComponents = true) (length : scalars.length = count * element.components) (few : count ≤ 4)
    (inside : position < count) :
    apply events (.binary .indexDirect) element [scalars, apply events (.constant [.ofIndex position]) .index []] =
      (scalars.drop (position * element.components)).take element.components
  builds {events : List (Effect α)} {ty : Ty} {types others : List Ty} {first second : List (List α)}
    (joins : ty.joins types = true) (again : ty.joins others = true)
    (same : first.flatten.take ty.components = second.flatten.take ty.components) :
    apply events (.construct types) ty first = apply events (.construct others) ty second

/-- Which nodes are watched, and from which number on the variables of the pool are temporaries, which
are not the program's own. -/
structure Watch where
  watched : NodeId → Bool
  low : Nat

def Watch.keeps (watch : Watch) : SymbolRef → Bool
  | .pool handle => watch.low ≤ handle.index
  | .builtIn _ => false

structure Machine (α : Type) extends World α, Watch

abbrev Held (α : Type) := SymbolRef → List α

def Held.declare (held : Held α) (declared : List SymbolRef) (scalars : List α) : Held α := fun symbol =>
  if symbol ∈ declared then scalars else held symbol

def BranchKind.exit : BranchKind → Exit
  | discard | returnFrom => .leaves
  | breakLoop => .breaks
  | continueLoop => .continues

namespace Node

/-- All operands are evaluated, one after the other, before the node itself. -/
def isStrict : Node → Bool
  | symbol _ _ | constant _ _ | unary _ _ _ | aggregate _ _ _ | declaration _ _ | branch _ _ => true
  | binary op _ _ _ => op ≠ .logicalAnd && op ≠ .logicalOr
  | _ => false

/-- The first operand is evaluated before all others, one of which may be evaluated then. -/
def isChoice : Node → Bool
  | binary op _ _ _ => op = .logicalAnd || op = .logicalOr
  | ternary _ _ _ _ | ifElse _ _ _ => true
  | _ => false

def picks (node : Node) (truth : Bool) : Option Nat :=
  match node, truth with
  | binary .logicalAnd _ _ _, true | binary .logicalOr _ _ _, false => some 0
  | binary _ _ _ _, _ => none
  | _, true => some 0
  | _, false => some 1

def place (node : Node) (operands : List (Value α)) : List (List α) :=
  match node, operands with
  | binary op _ _ _, [base, position] => if op.isIndex then base.place ++ [position.scalars] else []
  | _, _ => []

/-- What is recorded of the node: the operands, but of a constructor the value that it builds. -/
def recorded (node : Node) (operands : List (Value α)) (value : Value α) : List (Value α) :=
  match node with
  | aggregate .construct _ _ => [value]
  | _ => operands

end Node

namespace World

variable (world : World α)

/-- The turns of a loop, each with its test in front. No test is passed. -/
def turns (test : Course (Effect α) (List (Value α))) (body step : Course (Effect α) Unit) : Nat → Course (Effect α) Unit
  | 0 => stop .cut
  | limit + 1 => do
    let values ← test
    if values.all fun value => world.truth value.scalars then
      turn body (step >>= fun _ => turns test body step limit)
    else skip

def loop (kind : LoopKind) (test : Course (Effect α) (List (Value α))) (body step : Course (Effect α) Unit) :
    Course (Effect α) Unit :=
  match kind with
  | .forLoop | .whileLoop => world.turns test body step world.limit
  | .doWhile => turn body (step >>= fun _ => world.turns test body step world.limit)

end World

/-- How a node that is no block runs, from how its operands run and what is left to do when they are
there. The body of a function does not run where the function is defined. -/
def Node.run (world : World α) (node : Node) (finish : List (Value α) → Course (Effect α) (Value α))
    (courses : List (Course (Effect α) (Value α))) : Course (Effect α) (Value α) :=
  match node with
  | .prototype _ | .definition _ _ => finish []
  | .loop kind init condition step _ => do
    let inside := courses.drop init.toList.length
    let rest := inside.drop condition.toList.length
    let _ ← gather (courses.take init.toList.length)
    world.loop kind (gather (inside.take condition.toList.length))
      (gather (rest.drop step.toList.length) >>= fun _ => skip)
      (gather (rest.take step.toList.length) >>= fun _ => skip)
    finish []
  | _ =>
    match node.isChoice, courses with
    | true, first :: others => do
      let value ← first
      let rest ← gather ((node.picks (world.truth value.scalars)).bind fun index => others[index]?).toList
      finish (value :: rest)
    | _, _ => gather courses >>= finish

def inOrder : List (List SymbolRef × (Held α → Course (Effect α) (Value α))) → Held α → Course (Effect α) (Held α)
  | [], held => pure held
  | (declared, course) :: rest, held => do
    let value ← course held
    inOrder rest (held.declare declared value.scalars)

namespace Term

def operator? (term : Term) : Option (Operator × Ty) :=
  match term.node with
  | .symbol symbol ty => some (.use symbol, ty)
  | .constant values ty => some (.constant values, ty)
  | .unary op _ ty => some (.unary op, ty)
  | .binary op _ _ ty => some (.binary op, ty)
  | .ternary _ _ _ ty => some (.ternary, ty)
  | .aggregate .construct _ ty => some (.construct (term.parts.filterMap Term.ty?), ty)
  | .aggregate (.call function) _ ty => some (.call function, ty)
  | _ => none

/-- What the node comes to. A declaration passes the value on. -/
def value (machine : Machine α) (term : Term) (held : Held α) (events : List (Effect α)) (operands : List (Value α)) :
    Value α :=
  match term.operator? with
  | some (.use symbol, ty) => ⟨if machine.keeps symbol then held symbol else machine.apply events (.use symbol) ty [], []⟩
  | some (op, ty) => ⟨machine.apply events op ty (operands.map Value.scalars), term.node.place operands⟩
  | none => ⟨operands.flatMap Value.scalars, []⟩

def records (watch : Watch) (term : Term) : Bool :=
  watch.watched term.id || term.declared.any fun symbol => !watch.keeps symbol

def finish (machine : Machine α) (term : Term) (held : Held α) (operands : List (Value α)) : Course (Effect α) (Value α) :=
  ExceptT.mk fun events =>
    let value := term.value machine held events operands
    (match term.node with
      | .branch kind _ => .error kind.exit
      | _ => .ok value,
    if term.records machine.toWatch then events ++ [⟨term.id, term.node.recorded operands value⟩] else events)

/-- How many parts, at the front, are no operands: a variable that is declared or assigned to. -/
def targets (term : Term) : Nat :=
  match term.node, term.parts with
  | .declaration _ _, _ => 1
  | .binary .assign _ _ _, target :: _ => if target.node.symbol?.isSome then 1 else 0
  | _, _ => 0

/-- The course of the piece, where the temporaries hold what they hold. -/
def course (machine : Machine α) : Term → Held α → Course (Effect α) (Value α)
  | mk id node parts, held =>
    if node.isBlock then
      inOrder (parts.map fun part => (part.declared, course machine part)) held >>= fun _ => pure ⟨[], []⟩
    else
      node.run machine.toWorld ((mk id node parts).finish machine held)
        ((parts.map fun part => course machine part held).drop (mk id node parts).targets)
  termination_by term => sizeOf term

def steps (machine : Machine α) (terms : List Term) : Held α → Course (Effect α) (Held α) :=
  inOrder (terms.map fun term => (term.declared, term.course machine))

end Term

namespace Node

variable {world : World α} {node : Node} {finish : List (Value α) → Course (Effect α) (Value α)}
  {first : Course (Effect α) (Value α)} {courses others : List (Course (Effect α) (Value α))}

theorem strict_or_choice (expression : node.ty?.isSome = true) : node.isStrict = true ∨ node.isChoice = true := by
  cases node with
  | binary op left right ty => cases op <;> first | exact .inl rfl | exact .inr rfl
  | symbol | constant | unary | aggregate => exact .inl rfl
  | ternary => exact .inr rfl
  | _ => cases expression

theorem run_strict (strict : node.isStrict = true) : node.run world finish courses = gather courses >>= finish := by
  cases node with
  | binary op left right ty => cases op <;> first | rfl | cases strict
  | symbol | constant | unary | aggregate | declaration | branch => rfl
  | _ => cases strict

theorem run_choice (choice : node.isChoice = true) : node.run world finish (first :: others) =
    first >>= fun value => gather ((node.picks (world.truth value.scalars)).bind fun index => others[index]?).toList >>=
      fun rest => finish (value :: rest) := by
  cases node with
  | binary op left right ty => cases op <;> first | rfl | cases choice
  | ternary | ifElse => rfl
  | _ => cases choice

/-- What a loop starts with comes first. -/
theorem run_loop (world : World α) (finish : List (Value α) → Course (Effect α) (Value α)) (kind : LoopKind)
    (init body : NodeId) (condition step : Option NodeId) :
    ∃ rest : List (Course (Effect α) (Value α)) → Course (Effect α) (Value α), ∀ first others,
      (loop kind (some init) condition step body).run world finish (first :: others) = first >>= fun _ => rest others :=
  ⟨_, fun _ _ => by
    simp only [run, Option.toList_some, List.length_singleton, List.take_succ_cons, List.take_zero, List.drop_succ_cons,
      List.drop_zero, gather_cons, gather_nil, pure_bind, bind_assoc]
    rfl⟩

/-- An expression is left to itself when its operands are there. -/
theorem exists_operands (expression : node.ty?.isSome = true) (reads : Bool) (world : World α)
    (finish : List (Value α) → Course (Effect α) (Value α)) (courses : List (Course (Effect α) (Value α))) :
    ∃ operands : Course (Effect α) (List (Value α)), node.run world finish courses = operands >>= finish ∧
      ((∀ course ∈ courses, Limited reads course) → Limited reads operands) := by
  rcases strict_or_choice expression with strict | choice
  · exact ⟨gather courses, run_strict strict, .gather⟩
  · cases courses with
    | nil =>
      refine ⟨pure [], ?_, fun _ => .pure []⟩
      cases node with
      | binary op left right ty => cases op <;> rfl
      | ternary => rfl
      | ifElse => cases expression
      | _ => cases choice
    | cons first others =>
      let chosen (value : Value α) := (node.picks (world.truth value.scalars)).bind fun index => others[index]?
      refine ⟨first >>= fun value => gather (chosen value).toList >>= fun rest => pure (value :: rest), ?_, fun limited => ?_⟩
      · simp only [run_choice choice, bind_assoc, pure_bind, chosen]
      obtain ⟨own, rest⟩ := List.forall_mem_cons.mp limited
      refine own.bind fun value => (Limited.gather fun course among => ?_).bind fun values => .pure (value :: values)
      obtain ⟨index, _, place⟩ := Option.bind_eq_some_iff.mp (Option.mem_toList.mp among)
      exact rest course (List.mem_of_getElem? place)

def reads (watch : Watch) : Node → Bool
  | symbol ref _ => !watch.keeps ref
  | aggregate (.call _) _ _ => true
  | _ => false

end Node

namespace Term

variable {machine : Machine α} {term : Term} {held other : Held α} {operands : List (Value α)} {reads : Bool}

/-- Evaluating the node itself leaves no event, and looks at none unless `reads` is set. -/
def Silent (watch : Watch) (reads : Bool) (term : Term) : Prop :=
  term.ty?.isSome = true ∧ watch.watched term.id = false ∧ (reads = false → term.node.reads watch = false)

theorem declared_expression (expression : term.ty?.isSome = true) : term.declared = [] := by
  obtain ⟨id, node, parts⟩ := term
  cases node with
  | declaration => cases expression
  | _ => rfl

theorem Silent.records (silent : term.Silent watch reads) : term.records watch = false := by
  rw [Term.records, silent.2.1, declared_expression silent.1]
  rfl

theorem value_settled (constant : term.node.reads machine.toWatch = false) (events others : List (Effect α)) :
    term.value machine held events operands = term.value machine held others operands := by
  obtain ⟨id, node, parts⟩ := term
  cases node with
  | symbol ref ty =>
    have keeps : machine.keeps ref = true := by simpa [Node.reads, Term.node] using constant
    simp only [value, operator?, Term.node, keeps, if_true]
  | aggregate op arguments ty =>
    cases op with
    | construct =>
      simp only [value, operator?, Term.node]
      rw [machine.settled events others rfl]
    | call => cases constant
  | constant | unary | binary | ternary =>
    simp only [value, operator?, Term.node]
    rw [machine.settled events others rfl]
  | _ => rfl

/-- A node that is no branch goes on. -/
theorem finish_run (plain : ∀ kind value, term.node ≠ .branch kind value) (events : List (Effect α)) :
    (term.finish machine held operands).run.run events = (.ok (term.value machine held events operands),
      if term.records machine.toWatch then
        events ++ [⟨term.id, term.node.recorded operands (term.value machine held events operands)⟩]
      else events) := by
  obtain ⟨id, node, parts⟩ := term
  cases node with
  | branch kind value => exact absurd rfl (plain kind value)
  | _ => rfl

theorem plain_expression (expression : term.ty?.isSome = true) (kind : BranchKind) (value : Option NodeId) :
    term.node ≠ .branch kind value := by
  intro branch
  rw [ty?, branch] at expression
  cases expression

theorem finish_eq_pure {value : Value α} (plain : ∀ kind value, term.node ≠ .branch kind value)
    (unrecorded : term.records machine.toWatch = false) (fixed : ∀ events, term.value machine held events operands = value) :
    term.finish machine held operands = pure value := by
  refine Course.ext fun events => ?_
  rw [finish_run plain, unrecorded, fixed]
  rfl

theorem finish_limited (silent : term.Silent machine.toWatch reads) (operands : List (Value α)) :
    Limited reads (term.finish machine held operands) := by
  refine ⟨fun events => term.value machine held events operands, fun events => ?_, fun none events others => ?_⟩
  · rw [finish_run (plain_expression silent.1), silent.records]
    rfl
  · exact value_settled (silent.2.2 none) events others

/-- What an expression comes to has as many scalars as its type. -/
theorem value_sized {ty : Ty} (typed : term.ty? = some ty) (has : ty.hasComponents = true)
    (own : ∀ symbol ty, term.node = .symbol symbol ty → machine.keeps symbol = false) (events : List (Effect α)) :
    (term.value machine held events operands).scalars.length = ty.components := by
  obtain ⟨id, node, parts⟩ := term
  cases node with
  | symbol ref ty =>
    cases typed
    simp only [value, operator?, Term.node, own ref _ rfl]
    exact machine.sized has
  | aggregate op arguments ty =>
    cases typed
    cases op <;> exact machine.sized has
  | constant | unary | binary | ternary =>
    cases typed
    exact machine.sized has
  | _ => cases typed

theorem finish_sized {ty : Ty} (typed : term.ty? = some ty) (has : ty.hasComponents = true)
    (own : ∀ symbol ty, term.node = .symbol symbol ty → machine.keeps symbol = false) (operands : List (Value α)) :
    Returns (term.finish machine held operands) fun value => value.scalars.length = ty.components := by
  intro events after value ends
  rw [finish_run (plain_expression (by rw [typed]; rfl))] at ends
  cases ends
  exact value_sized typed has own events

theorem course_block {id : NodeId} {node : Node} {parts : List Term} (block : node.isBlock = true) :
    (mk id node parts).course machine held = steps machine parts held >>= fun _ => pure ⟨[], []⟩ := by
  rw [course, block]
  rfl

theorem course_plain {id : NodeId} {node : Node} {parts : List Term} (plain : node.isBlock = false) :
    (mk id node parts).course machine held = node.run machine.toWorld ((mk id node parts).finish machine held)
      ((parts.map fun part => part.course machine held).drop (mk id node parts).targets) := by
  rw [course, plain]
  rfl

theorem isBlock_expression {node : Node} (expression : node.ty?.isSome = true) : node.isBlock = false := by
  cases node with
  | block => cases expression
  | _ => rfl

theorem course_aggregate {id : NodeId} {op : AggregateOp} {ids : List NodeId} {ty : Ty} {parts : List Term} :
    (mk id (.aggregate op ids ty) parts).course machine held =
      gather (parts.map fun part => part.course machine held) >>= (mk id (.aggregate op ids ty) parts).finish machine held := by
  rw [course_plain rfl, Node.run_strict rfl]
  rfl

theorem course_declaration {id declared : NodeId} {value : Option NodeId} {declarator initial : Term} :
    (mk id (.declaration declared value) [declarator, initial]).course machine held = initial.course machine held >>= fun operand =>
      (mk id (.declaration declared value) [declarator, initial]).finish machine held [operand] := by
  rw [course_plain rfl, Node.run_strict rfl]
  change gather [initial.course machine held] >>= _ = _
  rw [gather_cons, gather_nil]
  simp only [bind_assoc, pure_bind]

theorem course_limited (silent : term.All (Silent machine.toWatch reads)) (held : Held α) :
    Limited reads (term.course machine held) := by
  induction silent with
  | @mk id node parts own _ ih =>
    have expression : node.ty?.isSome = true := own.1
    obtain ⟨operands, runs, limited⟩ := Node.exists_operands expression reads machine.toWorld
      ((mk id node parts).finish machine held) ((parts.map fun part => part.course machine held).drop (mk id node parts).targets)
    rw [course_plain (isBlock_expression expression), runs]
    refine (limited fun course among => ?_).bind (finish_limited own)
    obtain ⟨part, member, rfl⟩ := List.mem_map.mp (List.mem_of_mem_drop among)
    exact ih part member

theorem course_sized {ty : Ty} (typed : term.ty? = some ty) (has : ty.hasComponents = true)
    (own : ∀ symbol ty, term.node = .symbol symbol ty → machine.keeps symbol = false) (held : Held α) :
    Returns (term.course machine held) fun value => value.scalars.length = ty.components := by
  obtain ⟨id, node, parts⟩ := term
  have expression : node.ty?.isSome = true := by
    rw [show node.ty? = some ty from typed]
    rfl
  obtain ⟨operands, runs, _⟩ := Node.exists_operands expression true machine.toWorld
    ((mk id node parts).finish machine held) ((parts.map fun part => part.course machine held).drop (mk id node parts).targets)
  rw [course_plain (isBlock_expression expression), runs]
  exact (Returns.any operands).bind fun operands _ => finish_sized typed has own operands

section
variable {terms more : List Term}

@[simp] theorem steps_nil (held : Held α) : steps machine [] held = pure held := rfl

@[simp] theorem steps_cons (held : Held α) : steps machine (term :: terms) held =
    term.course machine held >>= fun value => steps machine terms (held.declare term.declared value.scalars) := rfl

theorem steps_append (held : Held α) :
    steps machine (terms ++ more) held = steps machine terms held >>= fun between => steps machine more between := by
  induction terms generalizing held with
  | nil => exact (pure_bind _ _).symm
  | cons term terms ih => simp only [List.cons_append, steps_cons, bind_assoc, ih]

end

def Agree (watch : Watch) (held other : Held α) (term : Term) : Prop :=
  ∀ piece ∈ term.pieces, ∀ symbol ty, piece.node = .symbol symbol ty → watch.keeps symbol = true → held symbol = other symbol

theorem Agree.declare (agree : term.Agree watch held other) (declared : List SymbolRef) (scalars : List α) :
    term.Agree watch (held.declare declared scalars) (other.declare declared scalars) := by
  intro piece inside symbol ty node keeps
  simp only [Held.declare, agree piece inside symbol ty node keeps]

theorem steps_congr {first second : Machine α} {terms : List Term} {watch : Watch}
    (each : ∀ term ∈ terms, ∀ held other, term.Agree watch held other → term.course first held = term.course second other)
    (agree : ∀ term ∈ terms, term.Agree watch held other) {next : Course (Effect α) β} :
    (steps first terms held >>= fun _ => next) = steps second terms other >>= fun _ => next := by
  induction terms generalizing held other with
  | nil => rfl
  | cons term terms ih =>
    obtain ⟨own, rest⟩ := List.forall_mem_cons.mp each
    obtain ⟨here, later⟩ := List.forall_mem_cons.mp agree
    simp only [steps_cons, bind_assoc, own held other here]
    exact bind_congr fun value => ih rest fun term member => (later term member).declare _ _

/-- A piece runs the same where its nodes are watched the same and its temporaries hold the same. -/
theorem course_congr {first second : Machine α} (world : first.toWorld = second.toWorld) (low : first.low = second.low)
    (watched : ∀ id ∈ term.ids, first.watched id = second.watched id) (agree : term.Agree first.toWatch held other) :
    term.course first held = term.course second other := by
  obtain ⟨first, watch⟩ := first
  obtain ⟨second, another⟩ := second
  obtain rfl : first = second := world
  have keeps : watch.keeps = another.keeps := by
    funext symbol
    cases symbol <;> simp only [Watch.keeps, show watch.low = another.low from low]
  induction term using induct generalizing held other with
  | step id node parts ih =>
    have each : ∀ part ∈ parts, ∀ held other, part.Agree watch held other →
        part.course ⟨first, watch⟩ held = part.course ⟨first, another⟩ other := fun part member held other agree =>
      ih part member agree fun id inside => watched id (mem_ids_of_part member inside)
    have inside : ∀ part ∈ parts, part.Agree watch held other := fun part member piece deeper =>
      agree piece (mem_pieces_of_part member deeper)
    cases block : node.isBlock with
    | true =>
      rw [course_block block, course_block block]
      exact steps_congr each inside
    | false =>
      have records : (mk id node parts).records watch = (mk id node parts).records another := by
        simp only [Term.records, keeps, Term.id, show watch.watched id = another.watched id from watched id (id_mem_ids _)]
      have value : (mk id node parts).value ⟨first, watch⟩ held = (mk id node parts).value ⟨first, another⟩ other := by
        funext events operands
        cases node with
        | symbol ref ty =>
          have same := agree _ (mem_pieces_self _) ref ty rfl
          simp only [value, operator?, Term.node, ← keeps]
          split
          · rw [same ‹_›]
          · rfl
        | aggregate op arguments ty => cases op <;> rfl
        | _ => rfl
      have finish : (mk id node parts).finish ⟨first, watch⟩ held = (mk id node parts).finish ⟨first, another⟩ other := by
        funext operands
        unfold Term.finish
        simp only [records, value]
      have courses : (parts.map fun part => part.course ⟨first, watch⟩ held) =
          parts.map fun part => part.course ⟨first, another⟩ other :=
        List.map_congr_left fun part member => each part member held other (inside part member)
      rw [course_plain block, course_plain block, finish, courses]

end Term
end ShaderTree
