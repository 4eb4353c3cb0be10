import ShaderTree.Proofs.EvaluationOrder
import ShaderTree.Proofs.Frame

/-! The side effects of a program before and after scalarization: assignments, increments and
decrements, and calls of functions that are not known to be pure. They happen in the same order
and under the same conditions where what a statement sends up happens first in it. -/
namespace ShaderTree

/-- Evaluating the node has a side effect of its own. -/
def Node.affects (pool : Pool) (node : Node) : Bool :=
  node.ty?.isSome &&
    match node.hasOwnEffects pool with
    | .ok effects => effects
    | .error _ => true

theorem Access.not_affects {handle : SymbolHandle} {ty element : Ty} {path : List Nat} {access piece : Term} (pool : Pool)
    (isAccess : Access handle ty path element access) (inside : piece ∈ access.pieces) : piece.node.affects pool = false := by
  rcases isAccess.of_mem_pieces inside with node | ⟨base, position, type, node⟩ | ⟨values, node⟩ <;> rw [node] <;> rfl

/-- A function that is known stays as pure as it is. -/
theorem Node.affects_mono {first second : SymbolTable} {node : Node} (extension : first.pool.Extends second.pool)
    (known : ∀ callee arguments ty, node = .aggregate (.call callee) arguments ty → (first.function? callee).isSome = true) :
    node.affects second.pool = node.affects first.pool := by
  cases node with
  | aggregate op arguments ty =>
    cases op with
    | construct => rfl
    | call callee =>
      obtain ⟨function, found⟩ := Option.isSome_iff_exists.mp (known callee arguments ty rfl)
      obtain ⟨symbol, resolved, _⟩ := SymbolTable.function?_eq_some.mp found
      have later : callee.resolve second.pool = .ok symbol := SymbolRef.resolve_mono extension resolved
      have before : callee.resolve first.pool = .ok symbol := resolved
      simp only [affects, hasOwnEffects, SymbolRef.mayHaveEffects, before, later]
  | _ => rfl

theorem Scalarize.Made.not_affects {first last : Nat} {fresh : List NodeId} {piece : Term} (pool : Pool)
    (made : Made first last fresh piece) : piece.id ∈ fresh ∧ piece.node.affects pool = false := by
  cases made with
  | declaration own node =>
    rw [node]
    exact ⟨own, rfl⟩
  | access own isAccess inside => exact ⟨own, isAccess.not_affects pool inside⟩

theorem Scalarize.Reforms.affects_eq {before after : Node} (pool : Pool) (reforms : Reforms before after) :
    after.affects pool = before.affects pool := by
  cases reforms <;> rfl

namespace Workspace

def affects (space : Workspace) (id : NodeId) : Bool := (space.tree.nodes.get? id).any (Node.affects space.table.pool)

theorem affects_eq_false {space : Workspace} {id : NodeId} (outside : space.tree.nodes.size ≤ id.index) :
    space.affects id = false := by
  cases found : space.tree.nodes.get? id with
  | none =>
    rw [affects, found]
    rfl
  | some node => exact absurd (Arena.get?_eq_some_lt found) (Nat.not_lt.mpr outside)

/-- Watches side effects and the nodes of `extra`, in a program that had `low` symbols before its temporaries. -/
def watch (space : Workspace) (low : Nat) (extra : NodeId → Bool) : Watch where
  watched id := space.affects id || extra id
  low := low

/-- The piece of the program at `id` takes this course, whatever temporaries hold before. -/
def Takes (space : Workspace) (world : World α) (low : Nat) (extra : NodeId → Bool) (id : NodeId)
    (course : Course (Effect α) (Value α)) : Prop :=
  ∃ term : Term, term.id = id ∧ term.Of space.tree ∧ ∀ held, term.course ⟨world, space.watch low extra⟩ held = course

def Orderly (space : Workspace) (extra : NodeId → Bool) : Prop :=
  ∀ program : Term, program.id = space.tree.root → program.Of space.tree →
    program.Orderly (space.watch space.table.pool.size extra)

end Workspace

def Term.Calls (table : SymbolTable) (term : Term) : Prop :=
  ∀ callee arguments ty, term.node = .aggregate (.call callee) arguments ty → (table.function? callee).isSome = true

theorem WellFormed.calls {checks : Checks} {table : SymbolTable} {returns : Option Ty} {role : Role} {term : Term}
    (references : checks.references = true) (right : WellFormed checks table returns role term) (stands : term.Of tree) :
    term.All (Term.Calls table) := by
  refine right.all stands fun returns role term _ right => ?_
  rintro callee arguments ty node
  cases right with
  | mk _ fits _ _ =>
    obtain rfl : _ = Node.aggregate (.call callee) arguments ty := node
    obtain ⟨_, _, known, _⟩ := fits
    exact known references

namespace ScalarizedProgram

variable {before after : Workspace} {term result : Term} {fresh : List NodeId}
  (scalarized : ScalarizedProgram before after term result fresh) (stands : term.Of before.tree)
  (calls : term.All (Term.Calls before.table))

include scalarized stands calls in
/-- Effects are where they were, and new nodes have none. -/
theorem affects_eq {id : NodeId} (inside : id ∈ result.ids) : after.affects id = before.affects id := by
  rw [Term.ids_eq_pieces] at inside
  obtain ⟨piece, among, rfl⟩ := List.mem_map.mp inside
  have here : after.affects piece.id = piece.node.affects after.table.pool := by
    rw [Workspace.affects, scalarized.found among]
    rfl
  have held : piece ∈ (Rewriting.mk [] result).pieces := Rewriting.mem_pieces_iff.mpr (.inr among)
  rcases scalarized.scalarizes.origin List.mem_cons_self held with made | ⟨_, single, old, within, same, reforms⟩
  · obtain ⟨new, none⟩ := made.not_affects after.table.pool
    rw [here, none, Workspace.affects_eq_false ((scalarized.changes.fresh piece.id).mp new).1]
  · obtain rfl := List.mem_singleton.mp single
    have found := (stands.of_mem_pieces within).found
    rw [here, reforms.affects_eq, Node.affects_mono scalarized.table.pool (calls.of_mem_pieces within).own, ← same, Workspace.affects, found]
    rfl

include scalarized stands calls in
/-- What the program is made of after the pass takes the same course whether the effects are looked up before or after. -/
theorem watched_alike (world : World α) (low : Nat) (extra : NodeId → Bool) {image : Term} (inside : image ∈ result.pieces)
    (held : Held α) :
    image.course ⟨world, after.watch low extra⟩ held = image.course ⟨world, before.watch low extra⟩ held := by
  refine Term.course_congr rfl rfl (fun id member => ?_) fun _ _ _ _ _ _ => rfl
  have whole : id ∈ result.ids := by
    rw [Term.ids_eq_pieces] at member ⊢
    obtain ⟨part, deeper, rfl⟩ := List.mem_map.mp member
    exact List.mem_map_of_mem (Term.mem_pieces_trans deeper inside)
  exact congrArg (· || extra id) (scalarized.affects_eq stands calls whole)

include scalarized in
theorem new_unwatched {extra : NodeId → Bool} (old : ∀ id, extra id = true → id.index < before.tree.nodes.size)
    {id : NodeId} (new : id ∈ fresh) (low : Nat) : (before.watch low extra).watched id = false := by
  have high := ((scalarized.changes.fresh id).mp new).1
  have unwatched : extra id = false := eq_false_of_ne_true fun watched => Nat.not_lt.mpr high (old id watched)
  exact Bool.or_eq_false_iff.mpr ⟨Workspace.affects_eq_false high, unwatched⟩

include scalarized in
/-- Every block stands for a block that takes the course that it took. -/
theorem exists_image (world : World α) {extra : NodeId → Bool} (known : term.All (Term.Resolves before.table))
    (old : ∀ id, extra id = true → id.index < before.tree.nodes.size)
    (orderly : term.Orderly (before.watch before.table.pool.size extra)) {block : Term} (inside : block ∈ term.pieces)
    (isBlock : block.node.isBlock = true) :
    ∃ image ∈ result.pieces, image.id = block.id ∧ ∀ held other,
      image.course ⟨world, before.watch before.table.pool.size extra⟩ held =
        block.course ⟨world, before.watch before.table.pool.size extra⟩ other := by
  let machine : Machine α := ⟨world, before.watch before.table.pool.size extra⟩
  rcases Term.exposes_or_nested inside with exposes | nested
  · obtain ⟨run, rfl, includes⟩ := (scalarized.run known).exists_of_exposes exposes
    have behaves : Rewriting.Behaves machine run.term run.result :=
      @Run.behaves _ machine _ _ run (scalarized.stands.of_mem_pieces includes.result)
        (fun id member => scalarized.new_unwatched old (includes.fresh id member) _)
        fun block deeper => orderly block (exposes.trans deeper)
    have moved := ((run.scalarizes.rewrites run.high).2 run.term run.result List.mem_cons_self).moved_of_block isBlock
    refine ⟨run.result.term, includes.result, run.id_eq, fun held other => ?_⟩
    have joins := behaves.joins (.idle (.of_block isBlock)) held other
    rw [moved, Term.steps_nil, pure_bind] at joins
    exact joins
  · -- Below an argument of a constructor nothing changes.
    obtain ⟨statement, single, left⟩ := scalarized.rewrites.pieces_of_nested nested
    obtain rfl := List.mem_singleton.mp single
    have predates : block.All (Term.Predates machine.low) := (known.imp fun _ => Term.Resolves.predates).of_mem_pieces inside
    exact ⟨block, left, rfl, predates.course_eq⟩

end ScalarizedProgram

/-- Over a valid program the pass ends. If what it moves in front of a statement may be evaluated first in the
statement, every block takes the course that it took: it has the same side effects with the same values, in the same
order and under the same conditions, and so has what else is watched. -/
theorem Workspace.scalarizeConstructors_takes {space : Workspace} (world : World α) {extra : NodeId → Bool}
    (valid : space.tree.validate space.table .all = .ok ())
    (old : ∀ id, extra id = true → id.index < space.tree.nodes.size) (orderly : space.Orderly extra) :
    ∃ after, scalarizeConstructors.run.run space = (.ok (), after) ∧
      ∀ block statements, space.tree.Reachable block → space.tree.nodes.get? block = some (.block statements) →
        ∃ course, space.Takes world space.table.pool.size extra block course ∧
          after.Takes world space.table.pool.size extra block course := by
  obtain ⟨program, root, stands, right⟩ := Tree.validate_iff.mp valid
  have known := right.wellFormed.resolves stands
  have calls := right.wellFormed.calls rfl stands
  obtain ⟨result, fresh, after, done, scalarized⟩ := scalarizeConstructors_ends root stands (right.nodup rfl)
    right.wellFormed.suits (right.wellFormed.constructs stands rfl)
  refine ⟨after, done, fun block statements reached found => ?_⟩
  obtain ⟨piece, inside, rfl⟩ := (stands.reachable_iff_piece root).mp reached
  have standing := stands.of_mem_pieces inside
  have isBlock : piece.node.isBlock = true := by
    rw [Option.some.inj (standing.found.symm.trans found)]
    rfl
  obtain ⟨image, among, same, takes⟩ :=
    scalarized.exists_image world known old (orderly program root stands) inside isBlock
  have predates := (known.imp fun _ => Term.Resolves.predates).of_mem_pieces inside
  let nothing : Held α := fun _ => []
  refine ⟨piece.course ⟨world, space.watch space.table.pool.size extra⟩ nothing,
    ⟨piece, rfl, standing, fun held => predates.course_eq held nothing⟩,
    ⟨image, same, scalarized.stands.of_mem_pieces among, fun held => ?_⟩⟩
  exact (scalarized.watched_alike stands calls world _ extra among held).trans (takes held nothing)

/-- As many scalars as the type has, with zeros for those that are missing. -/
def Ty.fit (ty : Ty) (scalars : List Scalar) : List Scalar :=
  (scalars ++ List.replicate ty.components (Scalar.uint 0)).take ty.components

theorem Ty.length_fit (ty : Ty) (scalars : List Scalar) : (ty.fit scalars).length = ty.components := by
  rw [fit, List.length_take, List.length_append, List.length_replicate]
  omega

/-- A world in which all that is read is the number of effects so far. -/
def World.counting : World Scalar where
  apply effects op ty operands :=
    match op with
    | .use _ | .call _ => ty.fit (List.replicate ty.components (Scalar.uint (.ofNat effects.length)))
    | .constant values => ty.fit values
    | .binary .indexDirect =>
      match operands with
      | [base, [.sint position]] => ty.fit (base.drop (position.toInt.toNat * ty.components))
      | _ => ty.fit []
    | .construct _ => ty.fit (operands.flatten.take ty.components)
    | _ => ty.fit operands.flatten
  truth scalars := scalars.any (· ≠ Scalar.uint 0)
  limit := 1000
  sized := by
    intro effects op ty operands _
    cases op with
    | binary op =>
      cases op with
      | indexDirect =>
        dsimp only
        split <;> exact ty.length_fit _
      | _ => exact ty.length_fit _
    | _ => exact ty.length_fit _
  settled := by
    intro op effects others constant
    cases op with
    | use | call => cases constant
    | binary op => cases op <;> rfl
    | _ => rfl
  indexes := by
    intro effects element count position scalars has length few inside
    have number : (Int32.ofNat position).toInt.toNat = position := by
      rw [Int32.toInt_ofNat_of_lt (by omega), Int.toNat_natCast]
    have single : Ty.index.fit [.ofIndex position] = [.sint (.ofNat position)] := rfl
    have enough : element.components ≤ (scalars.drop (position * element.components)).length := by
      rw [List.length_drop, length, ← Nat.sub_mul]
      exact Nat.le_mul_of_pos_left _ (by omega)
    simp only [single, number]
    exact List.take_append_of_le_length enough
  builds _ _ same := congrArg (Ty.fit _) same

/-- The program `float x; mat2 m; vec4 y; y = vec4(x++, m);`. -/
def incrementedArgument : Workspace :=
  let vector : Ty := .vector .float .four
  let matrix : Ty := .matrix .two .two
  let symbol (name : String) (number : Nat) (ty : Ty) : Symbol :=
    { rawName := name, id := ⟨number⟩, origin := .userDefined, kind := .var { ty } }
  { tree :=
      { nodes := ⟨#[.block [⟨2⟩, ⟨4⟩, ⟨6⟩, ⟨12⟩], .symbol (.pool ⟨0⟩) .float, .declaration ⟨1⟩ none,
          .symbol (.pool ⟨1⟩) matrix, .declaration ⟨3⟩ none, .symbol (.pool ⟨2⟩) vector, .declaration ⟨5⟩ none,
          .symbol (.pool ⟨2⟩) vector, .symbol (.pool ⟨0⟩) .float, .unary .postIncrement ⟨8⟩ .float,
          .symbol (.pool ⟨1⟩) matrix, .aggregate .construct [⟨9⟩, ⟨10⟩] vector, .binary .assign ⟨7⟩ ⟨11⟩ vector]⟩
        root := ⟨0⟩ }
    table :=
      { pool := ⟨#[symbol "x" 96 .float, symbol "m" 97 matrix, symbol "y" 98 vector]⟩
        builtIns := {}
        profile := {} } }

namespace incrementedArgument

def assignment : Term :=
  .mk ⟨12⟩ (.binary .assign ⟨7⟩ ⟨11⟩ (.vector .float .four))
    [.mk ⟨7⟩ (.symbol (.pool ⟨2⟩) (.vector .float .four)) [],
      .mk ⟨11⟩ (.aggregate .construct [⟨9⟩, ⟨10⟩] (.vector .float .four))
        [.mk ⟨9⟩ (.unary .postIncrement ⟨8⟩ .float) [.mk ⟨8⟩ (.symbol (.pool ⟨0⟩) .float) []],
          .mk ⟨10⟩ (.symbol (.pool ⟨1⟩) (.matrix .two .two)) []]]

def program : Term :=
  .mk ⟨0⟩ (.block [⟨2⟩, ⟨4⟩, ⟨6⟩, ⟨12⟩])
    [.mk ⟨2⟩ (.declaration ⟨1⟩ none) [.mk ⟨1⟩ (.symbol (.pool ⟨0⟩) .float) []],
      .mk ⟨4⟩ (.declaration ⟨3⟩ none) [.mk ⟨3⟩ (.symbol (.pool ⟨1⟩) (.matrix .two .two)) []],
      .mk ⟨6⟩ (.declaration ⟨5⟩ none) [.mk ⟨5⟩ (.symbol (.pool ⟨2⟩) (.vector .float .four)) []], assignment]

theorem program_of : program.Of incrementedArgument.tree := by
  have leaf (id : NodeId) (node : Node) (found : incrementedArgument.tree.nodes.get? id = some node) (none : node.children = []) :
      (Term.mk id node []).Of incrementedArgument.tree := .mk found none (by simp)
  refine .mk rfl rfl fun statement member => ?_
  simp only [List.mem_cons, List.not_mem_nil, or_false] at member
  rcases member with rfl | rfl | rfl | rfl
  all_goals
    refine .mk rfl rfl fun part member => ?_
    simp only [List.mem_cons, List.not_mem_nil, or_false] at member
  · exact member ▸ leaf _ _ rfl rfl
  · exact member ▸ leaf _ _ rfl rfl
  · exact member ▸ leaf _ _ rfl rfl
  · rcases member with rfl | rfl
    · exact leaf _ _ rfl rfl
    · refine .mk rfl rfl fun argument member => ?_
      simp only [List.mem_cons, List.not_mem_nil, or_false] at member
      rcases member with rfl | rfl
      · exact .mk rfl rfl fun operand member => List.mem_singleton.mp member ▸ leaf _ _ rfl rfl
      · exact leaf _ _ rfl rfl

/-- All that the constructor needs is evaluated before the assignment. -/
theorem orderly (extra : NodeId → Bool) : incrementedArgument.Orderly extra := by
  intro term root stands
  obtain rfl := stands.unique program_of root
  intro block exposes isBlock statement member
  have only : block = program := by
    have inside := exposes.mem_pieces
    simp only [program, assignment, Term.pieces_eq, Term.parts, List.flatMap_cons, List.flatMap_nil, List.mem_cons,
      List.mem_append, List.not_mem_nil, or_false] at inside
    rcases inside with same | inside
    · exact same
    · exfalso
      revert isBlock
      rcases inside with (rfl | rfl) | (rfl | rfl) | (rfl | rfl) | rfl | rfl | rfl | (rfl | rfl) | rfl <;> decide
  subst only
  have leaf (id : NodeId) (symbol : SymbolRef) (ty : Ty) : ∀ piece ∈ (Term.mk id (.symbol symbol ty) []).pieces, piece.mixes = false := by
    intro piece inside
    rcases Term.mem_pieces_iff.mp inside with rfl | ⟨_, none, _⟩
    · rfl
    · cases none
  have declares (id declared : NodeId) (symbol : SymbolRef) (ty : Ty) :
      (Term.mk id (.declaration declared none) [.mk declared (.symbol symbol ty) []]).Leads
        (incrementedArgument.watch incrementedArgument.table.pool.size extra) := by
    refine .idle (Term.Idle.of_unmixed fun piece inside => ?_)
    rcases Term.mem_pieces_iff.mp inside with rfl | ⟨part, among, deeper⟩
    · rfl
    · obtain rfl := List.mem_singleton.mp among
      exact leaf _ _ _ piece deeper
  simp only [program, Term.parts, List.mem_cons, List.not_mem_nil, or_false] at member
  rcases member with rfl | rfl | rfl | rfl
  · exact declares _ _ _ _
  · exact declares _ _ _ _
  · exact declares _ _ _ _
  · refine .strict rfl ?_ ?_ (List.pairwise_singleton _ _)
    · exact List.forall_mem_singleton.mpr (.of_unmixed (leaf _ _ _))
    · exact List.forall_mem_singleton.mpr (.split rfl)

end incrementedArgument

/-- The increment and the use of the matrix happen as before, and the assignment after them. -/
theorem Workspace.scalarizeConstructors_takes_incremented :
    incrementedArgument.tree.validate incrementedArgument.table .all = .ok () ∧
      incrementedArgument.Orderly (· == ⟨10⟩) ∧
      ∃ after, scalarizeConstructors.run.run incrementedArgument = (.ok (), after) ∧
        ∃ course, incrementedArgument.Takes World.counting 3 (· == ⟨10⟩) ⟨0⟩ course ∧
          after.Takes World.counting 3 (· == ⟨10⟩) ⟨0⟩ course := by
  have valid : incrementedArgument.tree.validate incrementedArgument.table .all = .ok () := rfl
  have orderly := incrementedArgument.orderly (· == ⟨10⟩)
  obtain ⟨after, done, takes⟩ := scalarizeConstructors_takes World.counting valid
    (fun id watched => by
      obtain rfl : id = ⟨10⟩ := by simpa using watched
      decide) orderly
  exact ⟨valid, orderly, after, done, takes ⟨0⟩ _ .refl rfl⟩

end ShaderTree
