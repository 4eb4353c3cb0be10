import Mathlib.Logic.Relation
import ShaderTree.Proofs.Declarations
import ShaderTree.Proofs.Handover
import ShaderTree.Proofs.Splitting
import ShaderTree.Proofs.StructNames

/-! What a compilation does to the table. It may rename local structures and add internal variables;
everything else in the table is as it was, and the validations only read it. -/
namespace ShaderTree

/-- `after` has what is in `before`, local structures perhaps under other names, and beyond that
nameless internal variables that are temporary and no arrays. -/
structure SymbolTable.Continues (before after : SymbolTable) : Prop where
  kept : ∀ handle symbol, before.pool.get? handle = some symbol → ∃ rawName,
    after.pool.get? handle = some { symbol with rawName } ∧
      (rawName = symbol.rawName ∨ StructNames.isLocal symbol = true)
  added : ∀ handle symbol, before.pool.get? handle = none → after.pool.get? handle = some symbol →
    ∃ id ty, symbol = { rawName := "", id, origin := .toolInternal, kind := .var { ty } } ∧
      ty.isArray = false ∧ ty.qualifier = .temporary
  rest : after = { before with pool := after.pool, supply := after.supply }

namespace SymbolTable.Continues

variable {first second third table : SymbolTable}

theorem refl (table : SymbolTable) : Continues table table where
  kept _ symbol found := ⟨symbol.rawName, found, .inl rfl⟩
  added _ _ missing found := by cases missing.symm.trans found
  rest := rfl

theorem trans (earlier : Continues first second) (later : Continues second third) : Continues first third where
  kept handle symbol found := by
    obtain ⟨between, held, known⟩ := earlier.kept handle symbol found
    obtain ⟨rawName, holds, same | renamed⟩ := later.kept handle _ held
    · exact ⟨rawName, holds, known.imp_left same.trans⟩
    · exact ⟨rawName, holds, .inr renamed⟩
  added handle symbol missing found := by
    cases held : second.pool.get? handle with
    | none => exact later.added handle symbol held found
    | some temporary =>
      obtain ⟨id, ty, rfl, plain, qualifier⟩ := earlier.added handle temporary missing held
      -- a variable is no structure, so that it was not renamed
      obtain ⟨rawName, holds, rfl | renamed⟩ := later.kept handle _ held
      · exact ⟨id, ty, Option.some.inj (found.symm.trans holds), plain, qualifier⟩
      · cases renamed
  rest := by rw [later.rest, earlier.rest]

end SymbolTable.Continues

namespace SymbolTable

variable {table after : SymbolTable}

/-- What a compilation does to the table at a time: a local structure gets a name of its own, or there is one
more temporary. -/
inductive Revision (table : SymbolTable) : SymbolTable → Prop where
  | rename {handle : SymbolHandle} {symbol : Symbol} {after : SymbolTable} (found : table.pool.get? handle = some symbol)
      (isLocal : StructNames.isLocal symbol = true)
      (puts : table.Puts handle { symbol with rawName := StructNames.fresh symbol } after) : Revision table after
  | create {ty : Ty} {handle : SymbolHandle} {after : SymbolTable}
      (created : table.createTemporary ty = .ok (handle, after)) (plain : ty.isArray = false) : Revision table after

abbrev Revisions := Relation.ReflTransGen Revision

theorem Revision.continues (revision : table.Revision after) : table.Continues after := by
  cases revision with
  | @rename handle symbol _ found isLocal puts =>
    constructor
    case kept =>
      intro other old held
      by_cases same : other = handle
      · subst same
        obtain rfl := Option.some.inj (found.symm.trans held)
        exact ⟨_, puts.found, .inr isLocal⟩
      · exact ⟨_, (puts.others other same).trans held, .inl rfl⟩
    case added =>
      intro other new missing held
      have outside : table.pool.size ≤ other.index := Array.getElem?_eq_none_iff.mp missing
      have bound : other.index < after.pool.size := Arena.get?_eq_some_lt held
      have size := puts.size
      omega
    case rest =>
      rw [puts.rest]
  | @create ty handle _ created plain =>
    obtain ⟨grown, creates, grows, size, id, new⟩ := table.createTemporary_spec ty
    obtain ⟨_, rfl⟩ := Prod.mk.inj (Except.ok.inj (creates.symm.trans created))
    constructor
    case kept => exact fun other symbol found => ⟨_, grows.pool other symbol found, .inl rfl⟩
    case added =>
      intro other symbol missing found
      have outside : table.pool.size ≤ other.index := Array.getElem?_eq_none_iff.mp missing
      have inside : other.index < grown.pool.size := Arena.get?_eq_some_lt found
      obtain rfl : other = ⟨table.pool.size⟩ := congrArg Handle.mk (by omega)
      exact ⟨id, _, Option.some.inj (found.symm.trans new), plain, rfl⟩
    case rest => exact grows.rest

theorem Revisions.continues (revisions : table.Revisions after) : table.Continues after := by
  induction revisions with
  | refl => exact .refl table
  | tail _ revision ih => exact ih.trans revision.continues

end SymbolTable

theorem StructNames.Notes.revises {site : Site} {handle : SymbolHandle} {symbol : Symbol} {table : SymbolTable}
    {state : State} {after : SymbolTable × State} (notes : Notes site handle symbol table state after)
    (found : table.pool.get? handle = some symbol) (inside : isLocal symbol = true) : table.Revisions after.1 := by
  cases notes with
  | keep | pass => exact .refl
  | rename _ _ _ renamed others size => exact .single (.rename found inside ⟨renamed, others, size, rfl⟩)

def WalkState.table (state : WalkState σ) : SymbolTable := state.space.table

def Revising (table : σ → SymbolTable) (action : ExceptT Fault (StateM σ) α) : Prop :=
  ∀ before value after, Ends action before value after → (table before).Revisions (table after)

namespace Revising

variable {table : σ → SymbolTable} {action : ExceptT Fault (StateM σ) α} {next : α → ExceptT Fault (StateM σ) β}

theorem pure (value : α) : Revising table (Pure.pure value : ExceptT Fault (StateM σ) α) := by
  intro before result after ends
  obtain ⟨_, rfl⟩ := Ends.pure_iff.mp ends
  exact .refl

theorem throw (fault : Fault) : Revising table (throw fault : ExceptT Fault (StateM σ) α) :=
  fun _ _ _ ends => (Ends.throw_iff.mp ends).elim

theorem bind (first : Revising table action) (rest : ∀ value, Revising table (next value)) :
    Revising table (action >>= next) := by
  intro before result after ends
  obtain ⟨value, between, earlier, later⟩ := Ends.bind_iff.mp ends
  exact (first _ _ _ earlier).trans (rest value _ _ _ later)

theorem modify {change : σ → σ} (same : ∀ state, table (change state) = table state) :
    Revising table (modify change : ExceptT Fault (StateM σ) Unit) := by
  intro before _ after ends
  obtain rfl := Ends.modify_iff.mp ends
  rw [same]

theorem mapM {action : α → ExceptT Fault (StateM σ) β} (each : ∀ item, Revising table (action item)) (items : List α) :
    Revising table (items.mapM action) := by
  induction items with
  | nil => exact .pure _
  | cons item rest ih =>
    rw [List.mapM_cons]
    exact (each item).bind fun _ => ih.bind fun _ => .pure _

theorem inspect (operation : Tree → SymbolTable → Except Fault α) :
    Revising Workspace.table (Workspace.inspect operation) := by
  intro before value after ends
  obtain ⟨_, rfl⟩ := Ends.inspect_iff.mp ends
  exact .refl

theorem onTree (operation : Tree → SymbolTable → Except Fault (α × Tree)) :
    Revising Workspace.table (Workspace.onTree operation) := by
  intro before value after ends
  obtain ⟨tree, _, rfl⟩ := Ends.onTree_iff.mp ends
  exact .refl

theorem record (entry : LogRecord) : Revising Workspace.table (Workspace.record entry) := .modify fun _ => rfl

theorem work {action : WorkM α} (revising : Revising Workspace.table action) :
    Revising WalkState.table (Walk.work action : WalkM σ α) := by
  intro before value after ends
  obtain ⟨space, done, rfl⟩ := Ends.work_iff.mp ends
  exact revising _ _ _ done

theorem modifyOwn (change : σ → σ) : Revising WalkState.table (Walk.modifyOwn change) := .modify fun _ => rfl

theorem insertBefore (site : Site) (statement : NodeId) :
    Revising WalkState.table (Walk.insertBefore site statement : WalkM σ Unit) := by
  unfold Walk.insertBefore
  split
  · exact .throw _
  · exact .modify fun _ => rfl

theorem createTemporary {ty : Ty} (plain : ty.isArray = false) :
    Revising WalkState.table (Walk.work (Workspace.createTemporary ty) : WalkM σ SymbolHandle) := by
  refine .work fun before handle after ends => ?_
  obtain ⟨table, created, rfl⟩ := Ends.onTable_iff.mp ends
  exact .single (.create created plain)

end Revising

namespace Scalarize

/-- Arrays have no parts that constructors take. -/
theorem isArray_of_parts {target : Target} {needed : Nat} {ty : Ty} {result : List Part × Nat}
    (done : parts target needed ty = .ok result) : ty.isArray = false := by
  cases array : ty.isArray with
  | false => rfl
  | true => simp [parts, Ty.isScalar, Ty.isVector, Ty.isMatrix, array] at done

theorem splitArgument_revises (site : Site) (target : Target) (needed : Nat) (argument : NodeId) :
    Revising WalkState.table (splitArgument site target needed argument) := by
  unfold splitArgument
  split
  · exact .throw _
  apply (Revising.work (.inspect _)).bind
  intro found
  split
  · rename_i ty
    intro before result after ends
    obtain ⟨temporary, held, creates, copies⟩ := Ends.bind_iff.mp ends
    -- the temporary is made before it is known that its type is no array
    have plain : ty.isArray = false := by
      obtain ⟨_, _, _, inserts⟩ := Ends.bind_iff.mp copies
      obtain ⟨_, _, _, takes⟩ := Ends.bind_iff.mp inserts
      obtain ⟨_, _, taking, _⟩ := Ends.bind_iff.mp takes
      exact isArray_of_parts (Ends.reads_iff.mp taking).1
    refine (Revising.createTemporary plain _ _ _ creates).trans ((?_ : Revising WalkState.table _) _ _ _ copies)
    apply (Revising.work (.onTree _)).bind
    intro declaration
    apply (Revising.insertBefore site declaration).bind
    intro _
    apply (Revising.work (.inspect _)).bind
    intro found
    exact (Revising.mapM (fun part => .work (.onTree _)) _).bind fun _ => .pure _
  · exact .throw _

theorem splitArguments_revises (site : Site) (target : Target) (needed : Nat) (arguments : List NodeId) :
    Revising WalkState.table (splitArguments site target needed arguments) := by
  induction arguments generalizing needed with
  | nil => exact .pure _
  | cons argument rest ih =>
    exact (splitArgument_revises site target needed argument).bind fun _ => (ih _).bind fun _ => .pure _

theorem constructor_revises (site : Site) (id : NodeId) (op : AggregateOp) (arguments : List NodeId) (ty : Ty) :
    Revising WalkState.table (constructor site id op arguments ty) := by
  apply (Revising.work (.onTree _)).bind
  intro _
  apply (Revising.work (.inspect _)).bind
  intro needed
  exact (splitArguments_revises _ _ _ _).bind fun _ => .work (.onTree _)

theorem visit_revises (moment : Moment) (site : Site) (id : NodeId) : Revising WalkState.table (visit moment site id) := by
  apply (Revising.work (.inspect _)).bind
  intro node
  split
  · split
    · apply (Revising.work (.inspect _)).bind
      intro selected
      split
      · apply (constructor_revises _ _ _ _ _).bind
        intro _
        apply (Revising.work (.record _)).bind
        intro _
        exact (Revising.modifyOwn _).bind fun _ => .pure _
      · exact .pure _
    · exact .pure _
  · exact .pure _

end Scalarize

/-- A walk is as its visits are. -/
theorem Workspace.walk_revises {visitor : Visitor σ} (own : σ)
    (each : ∀ visit : Walk.Visit σ, visit.MadeBy visitor → (∃ answer, visit.answer = .ok answer) →
      visit.before.space.table.Revisions visit.after.space.table) :
    Revising Workspace.table (Workspace.walk visitor own) := by
  intro before value after ends
  obtain ⟨last, rfl, linked, visits, _⟩ := walk_ends ends
  apply linked.relates (fun _ => .refl) fun _ _ _ => .trans
  intro visit member
  obtain ⟨made, answered⟩ := visits visit member
  exact each visit made answered

theorem Workspace.renameStructs_revises : Revising Workspace.table renameStructs := by
  refine (walk_revises _ fun visit made ⟨answer, answered⟩ => ?_).bind fun _ => .record _
  obtain ⟨_, ⟨_, held⟩ | ⟨handle, symbol, meets, notes⟩⟩ := StructNames.visit_ends made answered
  · have same : visit.after.space.table = visit.before.space.table := congrArg Prod.fst held
    rw [same]
  · exact notes.revises meets.found meets.isLocal

theorem Workspace.scalarizeConstructors_revises : Revising Workspace.table scalarizeConstructors := by
  refine (walk_revises _ fun visit made ⟨answer, answered⟩ => ?_).bind fun _ => .record _
  rw [Walk.Visit.MadeBy, answered] at made
  exact Scalarize.visit_revises _ _ _ _ _ _ made

namespace Compiler

variable (compiler : Compiler)

theorem validateTree_revises : Revising Workspace.table compiler.validateTree := by
  intro before value after ends
  have same := compiler.validateTree_holding before
  rw [ends] at same
  have table : after.table = before.table := congrArg Prod.snd same
  rw [table]

theorem runPass_revises (pass : Pass) : Revising Workspace.table (compiler.runPass pass) := by
  cases pass with
  | structNames => exact Workspace.renameStructs_revises.bind fun _ => compiler.validateTree_revises
  | scalarize => exact Workspace.scalarizeConstructors_revises.bind fun _ => compiler.validateTree_revises

theorem runPasses_revises (passes : List Pass) : Revising Workspace.table (compiler.runPasses passes) := by
  induction passes with
  | nil => exact .pure _
  | cons pass rest ih =>
    apply (Revising.record _).bind
    intro _
    apply (compiler.runPass_revises pass).bind
    intro verdict
    cases verdict with
    | error error => exact .pure _
    | ok _ => exact (Revising.record _).bind fun _ => ih

theorem compile_revises : Revising Workspace.table compiler.compile := by
  unfold compile
  split
  · apply compiler.validateTree_revises.bind
    intro verdict
    cases verdict with
    | error error => exact .pure _
    | ok _ => exact compiler.runPasses_revises _
  · exact compiler.runPasses_revises _

variable {compiler : Compiler}

/-- A compilation that comes to an end, with an error or without, leaves the table as it was but for
the names of local structures and for new internal variables. To rename the structures changes
nothing in the tree. -/
theorem compile_frame {outcome : Except CompileError Unit} {space after : Workspace}
    (ends : compiler.compile.run.run space = (.ok outcome, after)) :
    space.table.Continues after.table ∧
      (∀ name, after.table.lookup name = space.table.lookup name ∧
        after.table.findGlobal name = space.table.findGlobal name ∧
        after.table.findBuiltIn name = space.table.findBuiltIn name ∧
        after.table.hasFunctionNamed name = space.table.hasFunctionNamed name) ∧
      after.table.constants = space.table.constants ∧ after.table.profile = space.table.profile ∧
      ∀ other : Workspace, ((compiler.runPass .structNames).run.run other).2.tree = other.tree := by
  have continues := (compiler.compile_revises space outcome after ends).continues
  have same := continues.rest
  refine ⟨continues, fun name => ?_, ?_, ?_, ?_⟩
  · rw [same]
    exact ⟨rfl, rfl, rfl, rfl⟩
  · rw [same]
  · rw [same]
  · exact runPass_structNames_holding

/-- A function declares a variable of a local structure, and builds a vector from a matrix. -/
def localStruct : Workspace :=
  let struct : Ty := .struct (.pool ⟨0⟩)
  let matrix : Ty := .matrix .two .two
  let symbol (name : String) (number : Nat) (kind : SymbolKind) : Symbol :=
    { rawName := name, id := ⟨number⟩, origin := .userDefined, kind }
  { tree :=
      { nodes := ⟨#[.block [⟨11⟩], .symbol (.pool ⟨1⟩) struct, .declaration ⟨1⟩ none, .symbol (.pool ⟨2⟩) .float,
          .declaration ⟨3⟩ none, .symbol (.pool ⟨3⟩) matrix, .declaration ⟨5⟩ none, .symbol (.pool ⟨2⟩) .float,
          .symbol (.pool ⟨3⟩) matrix, .aggregate .construct [⟨7⟩, ⟨8⟩] (.vector .float .four),
          .block [⟨2⟩, ⟨4⟩, ⟨6⟩, ⟨9⟩], .definition (.pool ⟨4⟩) ⟨10⟩]⟩
        root := ⟨0⟩ }
    table :=
      { pool := ⟨#[symbol "S" 96 (.struct { fields := [⟨"a", .float, {}⟩] }), symbol "v" 97 (.var { ty := struct }),
          symbol "x" 98 (.var { ty := .float }), symbol "m" 99 (.var { ty := matrix }),
          symbol "main" 100 (.function (.new .void false))]⟩
        builtIns := {}
        profile := {}
        supply := ⟨101⟩ } }

def allPasses : Compiler := { options := { scalarize := true, structNames := true, validate := true } }

/-- The structure is renamed, and there are temporaries for both arguments. -/
theorem compile_frame_localStruct : ∃ after : Workspace, allPasses.compile.run.run localStruct = (.ok (.ok ()), after) ∧
    localStruct.table.Continues after.table ∧
    after.table.pool.items.toList.map Symbol.rawName = ["_w_struct_96_S", "v", "x", "m", "main", "", ""] := by
  have ends : (allPasses.compile.run.run localStruct).1 = .ok (.ok ()) := by decide +kernel
  have names : (allPasses.compile.run.run localStruct).2.table.pool.items.toList.map Symbol.rawName =
      ["_w_struct_96_S", "v", "x", "m", "main", "", ""] := by
    decide +kernel
  generalize compiled : allPasses.compile.run.run localStruct = run at ends names
  obtain ⟨_, after⟩ := run
  obtain rfl := ends
  obtain ⟨continues, _⟩ := compile_frame compiled
  exact ⟨after, rfl, continues, names⟩

end Compiler
end ShaderTree
