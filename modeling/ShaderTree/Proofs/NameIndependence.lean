import ShaderTree.Proofs.Comparisons
import ShaderTree.Proofs.Idempotence
import ShaderTree.Proofs.Revalidation

/-! Names of structures and validation. No check looks at the name of a structure: over two pools that differ in
such names only, a tree has the same outcome, but that the error about a structure in the place of a variable gives
its name. So no program becomes invalid when its local structures are renamed. -/
namespace ShaderTree

/-- The same symbol, and a structure if it goes by another name. -/
structure Symbol.Renamed (old new : Symbol) : Prop where
  rest : new = { old with rawName := new.rawName }
  struct : new.rawName = old.rawName ∨ old.asStruct?.isSome = true

namespace Symbol.Renamed

variable {old new last : Symbol}

theorem refl (symbol : Symbol) : symbol.Renamed symbol := ⟨rfl, .inl rfl⟩

theorem kind (renamed : old.Renamed new) : new.kind = old.kind := by rw [renamed.rest]

theorem asStruct? (renamed : old.Renamed new) : new.asStruct? = old.asStruct? := by
  simp only [Symbol.asStruct?, renamed.kind]

theorem asVariable? (renamed : old.Renamed new) : new.asVariable? = old.asVariable? := by
  simp only [Symbol.asVariable?, renamed.kind]

theorem asFunction? (renamed : old.Renamed new) : new.asFunction? = old.asFunction? := by
  simp only [Symbol.asFunction?, renamed.kind]

theorem isFunction (renamed : old.Renamed new) : new.isFunction = old.isFunction := by
  simp only [Symbol.isFunction, renamed.kind]

theorem fields (renamed : old.Renamed new) : new.fields = old.fields := by
  simp only [Symbol.fields, renamed.kind]

theorem trans (earlier : old.Renamed new) (later : new.Renamed last) : old.Renamed last where
  rest := by rw [later.rest, earlier.rest]
  struct := by
    rcases later.struct with same | struct
    · rw [same]
      exact earlier.struct
    · exact .inr (earlier.asStruct? ▸ struct)

/-- Variables keep their names. -/
theorem eq_of_variable (renamed : old.Renamed new) (isVar : old.asVariable?.isSome = true) : new = old := by
  rcases renamed.struct with same | struct
  · rw [renamed.rest, same]
  · obtain ⟨_, _, _, _, kind⟩ := old
    cases kind <;> simp [Symbol.asVariable?, Symbol.asStruct?] at isVar struct

end Symbol.Renamed

abbrev Arena.Renamed (first second : Pool) : Prop := first.Matches Symbol.Renamed second

section
variable {first second : Pool} (renamed : first.Renamed second)
include renamed

theorem SymbolRef.resolve_renamed (ref : SymbolRef) :
    (∃ cause, ref.resolve first = .error cause ∧ ref.resolve second = .error cause) ∨
      ∃ old new, ref.resolve first = .ok old ∧ ref.resolve second = .ok new ∧ old.Renamed new := by
  cases ref with
  | builtIn symbol => exact .inr ⟨_, _, rfl, rfl, .refl _⟩
  | pool handle =>
    cases found : first.get? handle with
    | none =>
      refine .inl ⟨.outOfBounds, ?_, ?_⟩
      · simp only [SymbolRef.resolve, Arena.read, found]
      · simp only [SymbolRef.resolve, Arena.read, renamed.missing_iff.mp found]
    | some old =>
      obtain ⟨new, held, kin⟩ := renamed.later found
      exact .inr ⟨old, new, Arena.read_eq_ok.mpr found, Arena.read_eq_ok.mpr held, kin⟩

theorem Ty.countWithin_renamed (depth : Nat) (ty : Ty) : ty.countWithin second depth = ty.countWithin first depth := by
  induction depth generalizing ty with
  | zero => rfl
  | succ depth ih =>
    unfold countWithin
    split
    case h_6 ref _ | h_7 ref _ =>
      rcases ref.resolve_renamed renamed with ⟨cause, found, held⟩ | ⟨old, new, found, held, kin⟩
      · rw [found, held]
        rfl
      · simp only [found, held, bind, Except.bind, kin.fields, ih]
    all_goals rfl

theorem Ty.objectSize_renamed (ty : Ty) : ty.objectSize second = ty.objectSize first := by
  have size : second.nesting = first.nesting := by simp only [Arena.nesting, renamed.size]
  rw [objectSize, size]
  exact ty.countWithin_renamed renamed _

theorem checkConstruct_renamed (id : NodeId) (ty : Ty) (arguments : Arguments) :
    checkConstruct second id ty arguments = checkConstruct first id ty arguments := by
  have count : arguments.componentCount second = arguments.componentCount first := by
    simp only [Arguments.componentCount, Ty.objectSize_renamed renamed]
  have build (expected given : Nat) :
      arguments.build second ty expected given = arguments.build first ty expected given := by
    unfold Arguments.build
    split <;> simp only [Ty.objectSize_renamed renamed]
  unfold checkConstruct checkComponents
  simp only [count, build, Ty.objectSize_renamed renamed]
  split
  · rfl
  · split
    case h_4 ref _ =>
      rcases ref.resolve_renamed renamed with ⟨cause, found, held⟩ | ⟨old, new, found, held, kin⟩
      · rw [found, held]
      · rw [found, held]
        change (do arguments.checkLength id new.fields.length; arguments.checkShapes (new.fields.map Field.ty)) = _
        rw [kin.fields]
        rfl
    all_goals rfl

end

/-- The same rejection, or one of the same use of something that is no variable, which gives the name that it goes
by in its pool. -/
inductive Rejection.Like (first second : Pool) : Rejection → Rejection → Prop where
  | same (rejection : Rejection) : Like first second rejection rejection
  | undeclared {ref : SymbolRef} {old new : Symbol} (node : NodeId) (before : ref.resolve first = .ok old)
      (after : ref.resolve second = .ok new) :
      Like first second (.invalid (.undeclaredVariable node old.rawName))
        (.invalid (.undeclaredVariable node new.rawName))

inductive SameOutcome (first second : Pool) : Except Rejection α → Except Rejection α → Prop where
  | ok (value : α) : SameOutcome first second (.ok value) (.ok value)
  | error {one other : Rejection} (like : one.Like first second other) :
      SameOutcome first second (.error one) (.error other)

theorem SameOutcome.map {first second : Pool} {one other : Except Rejection α} (f : α → β)
    (same : SameOutcome first second one other) : SameOutcome first second (f <$> one) (f <$> other) := by
  cases same with
  | ok value => exact .ok (f value)
  | error like => exact .error like

namespace Validator

variable {first second : Pool}

def Concurs (first second : Pool) (one other : ValidateM α) : Prop :=
  ∀ before, SameOutcome first second (one.run before) (other.run before)

namespace Concurs

theorem refl (action : ValidateM α) : Concurs first second action action := by
  intro before
  cases action.run before with
  | ok value => exact .ok value
  | error rejection => exact .error (.same rejection)

theorem bind {one other : ValidateM α} {next later : α → ValidateM β} (early : Concurs first second one other)
    (late : ∀ value, Concurs first second (next value) (later value)) :
    Concurs first second (one >>= next) (other >>= later) := by
  intro before
  rw [StateT.run_bind, StateT.run_bind]
  have outcome := early before
  generalize one.run before = left at outcome ⊢
  generalize other.run before = right at outcome ⊢
  cases outcome with
  | ok value => exact late value.1 value.2
  | error like => exact .error like

def comparison (first second : Pool) : Comparison := ⟨Concurs first second, refl, bind⟩

end Concurs

def withTable (validator : Validator) (table : SymbolTable) : Validator := { validator with table }

variable {validator : Validator} {table : SymbolTable} (renamed : validator.table.pool.Renamed table.pool)
include renamed

theorem checkHandle_renamed (ref : SymbolRef) :
    (validator.withTable table).checkHandle ref = validator.checkHandle ref := by
  cases ref with
  | builtIn symbol => rfl
  | pool handle =>
    have same : (validator.withTable table).table.pool.check handle = validator.table.pool.check handle := by
      simp only [Arena.check, withTable, renamed.contains]
    simp only [checkHandle, same]
    rfl

/-- What is done next depends on what the reference leads to, not on its name. -/
theorem resolve_concurs {next later : Symbol → ValidateM α} (ref : SymbolRef)
    (each : ∀ old new : Symbol, ref.resolve validator.table.pool = .ok old → ref.resolve table.pool = .ok new →
      old.Renamed new → Concurs validator.table.pool table.pool (next old) (later new)) :
    Concurs validator.table.pool table.pool (liftM (validator.table.resolve ref) >>= next)
      (liftM (table.resolve ref) >>= later) := by
  unfold SymbolTable.resolve
  rcases ref.resolve_renamed renamed with ⟨cause, found, held⟩ | ⟨old, new, found, held, kin⟩
  · rw [found, held]
    exact .refl (throw (.fault cause))
  · rw [found, held]
    exact each old new found held kin

theorem checkUse_concurs (id : NodeId) (ref : SymbolRef) (ty : Ty) :
    Concurs validator.table.pool table.pool (validator.checkUse id ref ty)
      ((validator.withTable table).checkUse id ref ty) := by
  unfold checkUse
  rw [checkHandle_renamed renamed]
  apply Concurs.bind (.refl _)
  intro _
  apply resolve_concurs renamed
  intro old new found held kin
  cases isVar : old.asVariable? with
  | none =>
    intro before
    rw [kin.asVariable?, isVar]
    exact .error (.undeclared id found held)
  | some var =>
    rw [kin.eq_of_variable (by rw [isVar]; rfl), isVar]
    exact .refl _

theorem constantFits_renamed (values : List Scalar) (ty : Ty) :
    validator.constantFits values ty = (validator.withTable table).constantFits values ty := by
  simp only [constantFits, withTable, Ty.objectSize_renamed renamed]

theorem readOnlyWithin_renamed (steps : Nat) (id : NodeId) :
    (validator.withTable table).readOnlyWithin steps id = validator.readOnlyWithin steps id := by
  induction steps generalizing id with
  | zero => rfl
  | succ steps ih =>
    have root (ref : SymbolRef) : (do
          let symbol ← table.resolve ref
          let isReadOnly := symbol.asVariable?.any (·.ty.qualifier.isReadOnly)
          return if symbol.id.isBuiltIn && isReadOnly then some symbol.rawName else none : Except Fault (Option String)) = (do
          let symbol ← validator.table.resolve ref
          let isReadOnly := symbol.asVariable?.any (·.ty.qualifier.isReadOnly)
          return if symbol.id.isBuiltIn && isReadOnly then some symbol.rawName else none) := by
      unfold SymbolTable.resolve
      rcases ref.resolve_renamed renamed with ⟨cause, found, held⟩ | ⟨old, new, found, held, kin⟩
      · rw [found, held]
      · rw [found, held]
        cases isVar : old.asVariable? with
        | none => simp [bind, Except.bind, kin.asVariable?, isVar]
        | some var => rw [kin.eq_of_variable (by rw [isVar]; rfl)]
    unfold readOnlyWithin
    congr 1
    funext node
    cases node with
    | symbol ref ty => exact root ref
    | binary op left right ty => simp only [ih]
    | _ => rfl

theorem checkWritable_renamed (id target : NodeId) :
    (validator.withTable table).checkWritable id target = validator.checkWritable id target := by
  unfold checkWritable
  rw [readOnlyWithin_renamed renamed]
  rfl

theorem checkFunction_concurs (id : NodeId) (ref : SymbolRef) :
    Concurs validator.table.pool table.pool (validator.checkFunction id ref)
      ((validator.withTable table).checkFunction id ref) := by
  have kind : Concurs validator.table.pool table.pool
      (do unless (← validator.table.resolve ref).isFunction do reject (.unknownFunction id))
      (do unless (← table.resolve ref).isFunction do reject (.unknownFunction id)) := by
    apply resolve_concurs renamed
    intro old new _ _ kin
    rw [kin.isFunction]
    exact .refl _
  cases ref with
  | builtIn symbol => exact kind
  | pool handle =>
    have same : (validator.withTable table).table.pool.contains handle = validator.table.pool.contains handle :=
      renamed.contains handle
    simp only [checkFunction, same]
    cases validator.table.pool.contains handle with
    | true => exact kind
    | false => exact Concurs.bind (.refl _) fun _ => kind

theorem checkCall_concurs (id : NodeId) (callee : SymbolRef) (arguments : Arguments) (ty : Ty) :
    Concurs validator.table.pool table.pool (validator.checkCall id callee arguments ty)
      ((validator.withTable table).checkCall id callee arguments ty) := by
  apply resolve_concurs renamed
  intro old new _ _ kin
  rw [kin.asFunction?]
  cases old.asFunction? with
  | none => exact .refl _
  | some function =>
    have parameter (pair : SymbolRef × NodeId × Ty) : Concurs validator.table.pool table.pool
        (do let var := (← validator.table.resolve pair.1).asVariable?
            unless var.any (·.ty.sameShape pair.2.2) do reject (.typeMismatch pair.2.1 pair.2.2))
        (do let var := (← table.resolve pair.1).asVariable?
            unless var.any (·.ty.sameShape pair.2.2) do reject (.typeMismatch pair.2.1 pair.2.2)) := by
      apply resolve_concurs renamed
      intro old new _ _ kin
      rw [kin.asVariable?]
      exact .refl _
    have parameters := (Concurs.comparison validator.table.pool table.pool).forM parameter
      (function.parameters.zip arguments)
    by_cases length : function.parameters.length = arguments.length
    · simp only [length, if_true]
      exact Concurs.bind parameters fun _ => .refl _
    · simp only [length, if_false]
      exact Concurs.bind (.refl _) fun _ => Concurs.bind parameters fun _ => .refl _

theorem checkAggregate_concurs (id : NodeId) (op : AggregateOp) (arguments : Arguments) (ty : Ty) :
    Concurs validator.table.pool table.pool (validator.checkAggregate id op arguments ty)
      ((validator.withTable table).checkAggregate id op arguments ty) := by
  cases op with
  | construct =>
    have same : checkConstruct (validator.withTable table).table.pool id ty arguments =
        checkConstruct validator.table.pool id ty arguments := checkConstruct_renamed renamed id ty arguments
    simp only [checkAggregate, same]
    exact .refl _
  | call function =>
    have typed : Concurs validator.table.pool table.pool
        (do if validator.checks.types then validator.checkCall id function arguments ty)
        (do if validator.checks.types then (validator.withTable table).checkCall id function arguments ty) := by
      cases validator.checks.types with
      | true => exact checkCall_concurs renamed id function arguments ty
      | false => exact .refl _
    unfold checkAggregate
    cases wanted : validator.checks.references with
    | true =>
      simp only [withTable, wanted, if_true]
      exact Concurs.bind (checkFunction_concurs renamed id function) fun _ => typed
    | false =>
      simp only [withTable, wanted]
      exact typed

theorem declarator_concurs (id : NodeId) :
    Concurs validator.table.pool table.pool (validator.declarator id) ((validator.withTable table).declarator id) := by
  apply Concurs.bind (.refl (validator.fetch id))
  intro node
  cases node with
  | symbol ref ty =>
    simp only [checkHandle_renamed renamed]
    apply Concurs.bind (.refl _)
    intro _
    apply resolve_concurs renamed
    intro old new _ _ kin
    rw [kin.asVariable?]
    exact .refl _
  | _ => exact .refl _

/-- Whether the tables differ in names of structures only is not to be seen from any check. -/
theorem withTable_sides :
    (Concurs.comparison validator.table.pool table.pool).Sides validator (validator.withTable table) where
  tree := rfl
  single := rfl
  types := rfl
  use := checkUse_concurs renamed
  fits := constantFits_renamed renamed
  writable id target := by
    rw [checkWritable_renamed renamed]
    exact .refl _
  aggregate := checkAggregate_concurs renamed
  declarator := declarator_concurs renamed
  function := checkFunction_concurs renamed
  defines ref := by
    change Symbol.asFunction? <$> ref.resolve validator.table.pool = Symbol.asFunction? <$> ref.resolve table.pool
    rcases ref.resolve_renamed renamed with ⟨cause, found, held⟩ | ⟨old, new, found, held, kin⟩
    · rw [found, held]
    · rw [found, held]
      exact congrArg Except.ok kin.asFunction?.symm

end Validator

/-- Over tables that differ in the names of structures only, a validation has one outcome. -/
theorem Tree.validate_renamed {first second : SymbolTable} (renamed : first.pool.Renamed second.pool) (tree : Tree)
    (checks : Checks) :
    SameOutcome first.pool second.pool (tree.validate first checks) (tree.validate second checks) := by
  let validator : Validator := ⟨checks, tree, first⟩
  have sides : (Validator.Concurs.comparison validator.table.pool second.pool).Sides validator
      (validator.withTable second) :=
    Validator.withTable_sides renamed
  exact SameOutcome.map Prod.fst (sides.run {})

namespace StructNames

variable {held next last : SymbolTable × State} {leaf : Site × Node} {leaves : List (Site × Node)} {site : Site}
  {handle : SymbolHandle} {symbol : Symbol}

theorem asStruct?_of_isLocal (inside : isLocal symbol = true) : symbol.asStruct?.isSome = true := by
  rw [isLocal, Bool.and_eq_true] at inside
  cases struct : symbol.asStruct? with
  | none => rw [struct] at inside; cases inside.2
  | some _ => rfl

theorem Notes.renamed (notes : Notes site handle symbol held.1 held.2 next)
    (found : held.1.pool.get? handle = some symbol) (inside : isLocal symbol = true) :
    held.1.pool.Renamed next.1.pool := by
  cases notes with
  | keep | pass => exact Arena.Matches.refl Symbol.Renamed.refl _
  | rename _ _ _ renamed others =>
    intro place
    by_cases here : place = handle
    · subst here
      rw [found, renamed]
      exact .some ⟨rfl, .inr (asStruct?_of_isLocal inside)⟩
    · rw [others place here]
      exact Arena.Matches.refl Symbol.Renamed.refl _ place

theorem Settles.renamed (settles : Settles leaf held next) : held.1.pool.Renamed next.1.pool := by
  cases settles with
  | idle => exact Arena.Matches.refl Symbol.Renamed.refl _
  | met _ found inside notes => exact notes.renamed found inside

/-- A walk gives names to structures only. -/
theorem Trace.renamed (trace : Trace held leaves last) : held.1.pool.Renamed last.1.pool := by
  induction trace with
  | nil => exact Arena.Matches.refl Symbol.Renamed.refl _
  | cons settles _ ih => exact Arena.Matches.trans Symbol.Renamed.trans settles.renamed ih

end StructNames

namespace Compiler

open StructNames (structOf?)

/-- The pass on local structures is successful on each program that is valid, and gives names to structures only:
and over two tables that differ in such names only, a validation has one outcome, whatever is validated. -/
theorem structNames_valid (compiler : Compiler) :
    (∀ space : Workspace, space.tree.validate space.table compiler.checks = .ok () →
      (∀ id node handle, space.tree.Reachable id → space.tree.nodes.get? id = some node →
        structOf? node = some handle → ∃ symbol, space.table.pool.get? handle = some symbol) →
      ∃ after, Ends (compiler.runPass .structNames) space (.ok ()) after ∧ after.tree = space.tree ∧
        space.table.pool.Renamed after.table.pool) ∧
    ∀ (tree : Tree) (first second : SymbolTable), first.pool.Renamed second.pool →
      SameOutcome first.pool second.pool (tree.validate first compiler.checks)
        (tree.validate second compiler.checks) := by
  refine ⟨fun space accepted resolves => ?_,
    fun tree first second renamed => tree.validate_renamed renamed compiler.checks⟩
  obtain ⟨term, root, stands, _⟩ := Tree.validate_iff.mp accepted
  have resolves : term.StructsResolve space.table := fun piece member handle typed =>
    resolves piece.id piece.node handle ((stands.reachable_iff_piece root).mpr ⟨piece, member, rfl⟩)
      (stands.of_mem_pieces member).found typed
  obtain ⟨after, _, ends, same, trace⟩ := Workspace.renameStructs_traces root stands resolves
  have renamed : space.table.pool.Renamed after.table.pool := trace.renamed
  have outcome := space.tree.validate_renamed renamed compiler.checks
  rw [accepted] at outcome
  have again : space.tree.validate after.table compiler.checks = .ok () := by
    generalize space.tree.validate after.table compiler.checks = verdict at outcome
    cases outcome
    rfl
  exact ⟨after, ends.bind (validateTree_iff.mpr ⟨same ▸ again, rfl⟩), same, renamed⟩

/-- A structure stands in the place of a variable. -/
def strayStruct : Tree where
  nodes := ⟨#[.block [⟨1⟩], .symbol (.pool ⟨1⟩) (.struct (.pool ⟨1⟩))]⟩
  root := ⟨0⟩

/-- The structure of `laterUse` gets another name. It is no variable before and none after, and only the name that
is reported differs. -/
theorem structNames_valid_laterUse : ∃ after : Workspace,
    Ends (({} : Compiler).runPass .structNames) laterUse (.ok ()) after ∧ laterUse.table.pool.Renamed after.table.pool ∧
      strayStruct.validate laterUse.table .all = .error (.invalid (.undeclaredVariable ⟨1⟩ "S")) ∧
      strayStruct.validate after.table .all = .error (.invalid (.undeclaredVariable ⟨1⟩ "_w_struct_97_S")) ∧
      SameOutcome laterUse.table.pool after.table.pool (strayStruct.validate laterUse.table .all)
        (strayStruct.validate after.table .all) := by
  have accepted : laterUse.tree.validate laterUse.table .all = .ok () := by decide +kernel
  have before : strayStruct.validate laterUse.table .all = .error (.invalid (.undeclaredVariable ⟨1⟩ "S")) := by
    decide +kernel
  have reported : strayStruct.validate ((({} : Compiler).runPass .structNames).run.run laterUse).2.table .all =
      .error (.invalid (.undeclaredVariable ⟨1⟩ "_w_struct_97_S")) := by
    decide +kernel
  have typed : ∀ node ∈ laterUse.tree.nodes.items, ∀ handle ∈ structOf? node,
      (laterUse.table.pool.get? handle).isSome := by
    decide
  obtain ⟨passes, concur⟩ := structNames_valid {}
  obtain ⟨after, ends, _, renamed⟩ := passes laterUse accepted fun id node handle _ found struct =>
    Option.isSome_iff_exists.mp (typed node (Array.mem_of_getElem? found) handle struct)
  have outcome : (({} : Compiler).runPass .structNames).run.run laterUse = (.ok (.ok ()), after) := ends
  rw [outcome] at reported
  exact ⟨after, ends, renamed, before, reported, concur strayStruct _ _ renamed⟩

end Compiler
end ShaderTree
