import Mathlib.Data.List.Induction
import Mathlib.Logic.Relation
import ShaderTree.Proofs.Declarations
import ShaderTree.Proofs.Renamings

/-! Runs of operations on a table, from a new one on. What an operation may do is said once: most make
changes that rename nothing and leave the scopes as they are. -/
namespace ShaderTree

variable {table after : SymbolTable} {handle : SymbolHandle}

/-- What is done to a table: symbols are created, changed and bound, scopes are entered and left, and
programs are compiled. -/
inductive Operation where
  | createVariable (name : String) (ty : Ty) (origin : Origin)
  | createStruct (name : String) (fields : List Field) (origin : Origin)
  | createBlock (name : String) (fields : List Field) (layout : Layout) (origin : Origin)
  | createFunction (name : String) (origin : Origin) (returnType : Ty) (isPure : Bool)
  | createSamplers (symbol : SymbolRef) (name apiName : String)
  | addParameter (function parameter : SymbolHandle)
  | shareParameters (definition prototype : SymbolHandle)
  | markDefined (function : SymbolHandle)
  | markPrototype (function : SymbolHandle)
  | addConstant (values : List Scalar)
  | shareConstant (var : SymbolHandle) (constant : ConstantRef)
  | mangle (symbol : SymbolRef)
  | declare (handle : SymbolHandle)
  | pushScope
  | popScope
  | runPass (compiler : Compiler) (pass : Pass) (tree : Tree)
  | compile (compiler : Compiler) (tree : Tree)

/-- The table after work on a program, whatever its verdict is. -/
def SymbolTable.afterWork (table : SymbolTable) (tree : Tree) (work : WorkM α) : Except Fault SymbolTable :=
  match work.run.run { tree, table } with
  | (.ok _, space) => .ok space.table
  | (.error fault, _) => .error fault

namespace Operation

/-- The table after the operation. A declaration that is refused ends no run, as a fault does. -/
def perform (table : SymbolTable) : Operation → Except Fault SymbolTable
  | createVariable name ty origin => Prod.snd <$> table.createVariable name ty origin
  | createStruct name fields origin => Prod.snd <$> table.createStruct name fields origin
  | createBlock name fields layout origin => Prod.snd <$> table.createBlock name fields layout origin
  | createFunction name origin returnType isPure => Prod.snd <$> table.createFunction name origin returnType isPure
  | createSamplers symbol name apiName => Prod.snd <$> table.createSamplers symbol name apiName
  | addParameter function parameter => table.addParameter function parameter
  | shareParameters definition prototype => table.shareParameters definition prototype
  | markDefined handle => do
    table.withKind handle (.function { ← table.functionAt handle with defined := true })
  | markPrototype handle => do
    table.withKind handle (.function { ← table.functionAt handle with hasPrototype := true })
  | addConstant values => .ok (table.addConstant values).2
  | shareConstant var constant => do return (← table.shareConstant var constant).getD table
  | mangle symbol => Prod.snd <$> table.mangled symbol
  | declare handle => Prod.snd <$> table.declare handle
  | pushScope => .ok table.pushScope
  | popScope => table.popScope
  | runPass compiler pass tree => table.afterWork tree (compiler.runPass pass)
  | compile compiler tree => table.afterWork tree compiler.compile

/-- Neither a scope nor a name is changed, and no function takes over what another one remembers. -/
def Plain : Operation → Prop
  | shareParameters _ _ | declare _ | pushScope | popScope | runPass _ _ _ | compile _ _ => False
  | _ => True

end Operation

namespace SymbolTable

def run (table : SymbolTable) (operations : List Operation) : Except Fault SymbolTable :=
  operations.foldlM Operation.perform table

def Reachable (table : SymbolTable) : Prop := ∃ profile operations, (new profile).run operations = .ok table

theorem run_nil : table.run [] = .ok table := rfl

theorem run_cons {operation : Operation} {rest : List Operation} : table.run (operation :: rest) = .ok after ↔
    ∃ between, operation.perform table = .ok between ∧ between.run rest = .ok after := by
  rw [run, List.foldlM_cons]
  exact bind_eq_ok

theorem run_append {first second : List Operation} : table.run (first ++ second) = .ok after ↔
    ∃ between, table.run first = .ok between ∧ between.run second = .ok after := by
  rw [run, List.foldlM_append]
  exact bind_eq_ok

theorem run_snoc {operation : Operation} {past : List Operation} : table.run (past ++ [operation]) = .ok after ↔
    ∃ between, table.run past = .ok between ∧ operation.perform between = .ok after := by
  simp [run_append, run_cons, run_nil]

/-- What every operation of a run keeps is kept by the run. -/
theorem run_preserves {holds : SymbolTable → Prop} {operations : List Operation}
    (each : ∀ {before after operation}, operation ∈ operations → holds before →
      Operation.perform before operation = .ok after → holds after)
    (done : table.run operations = .ok after) (start : holds table) : holds after := by
  induction operations generalizing table with
  | nil =>
    obtain rfl := Except.ok.inj (run_nil.symm.trans done)
    exact start
  | cons operation rest ih =>
    obtain ⟨between, performed, later⟩ := run_cons.mp done
    exact ih (fun member => each (List.mem_cons_of_mem _ member)) later (each List.mem_cons_self start performed)

/-- What holds of a new table and is kept by every operation holds of every table in reach. -/
theorem Reachable.induct {holds : SymbolTable → Prop} (start : ∀ profile, holds (new profile))
    (each : ∀ {before after operation}, holds before → Operation.perform before operation = .ok after → holds after)
    (reachable : table.Reachable) : holds table := by
  obtain ⟨profile, operations, done⟩ := reachable
  exact run_preserves (fun _ => each) done (start profile)

def Meets (start : SymbolTable) (operations : List Operation) (table : SymbolTable) : Prop :=
  ∃ past, past <+: operations ∧ start.run past = .ok table

/-- What holds at the start holds all along a run just if no step of it spoils that. -/
theorem meets_iff {operations : List Operation} {holds : SymbolTable → Prop}
    {spoils : SymbolTable → Operation → SymbolTable → Prop} (start : holds table)
    (each : ∀ past operation before after, past ++ [operation] <+: operations → table.run past = .ok before →
      operation.perform before = .ok after → holds before → (holds after ↔ ¬ spoils before operation after)) :
    (∀ after, table.Meets operations after → holds after) ↔ ∀ past operation before after,
      past ++ [operation] <+: operations → table.run past = .ok before → operation.perform before = .ok after →
        ¬ spoils before operation after := by
  constructor
  · intro all past operation before after inside done performed
    have earlier := all before ⟨past, (List.prefix_append past _).trans inside, done⟩
    have later := all after ⟨_, inside, run_snoc.mpr ⟨before, done, performed⟩⟩
    exact (each past operation before after inside done performed earlier).mp later
  · rintro none after ⟨past, inside, done⟩
    induction past using List.reverseRecOn generalizing after with
    | nil =>
      obtain rfl := Except.ok.inj (run_nil.symm.trans done)
      exact start
    | append_singleton past operation ih =>
      obtain ⟨before, earlier, performed⟩ := run_snoc.mp done
      have holding := ih before ((List.prefix_append past _).trans inside) earlier
      exact (each past operation before after inside earlier performed holding).mpr
        (none past operation before after inside earlier performed)

end SymbolTable

inductive SymbolKind.New : SymbolKind → Prop where
  | var (ty : Ty) : New (.var { ty })
  | struct (fields : List Field) : New (.struct { fields })
  | block (fields : List Field) (layout : Layout) : New (.block (.ofLayout fields layout))
  | function (returnType : Ty) (isPure : Bool) : New (.function (.new returnType isPure))

namespace SymbolTable

/-- What the kind data of the symbol may become, declarations and shared parameters apart. -/
inductive Edits (table : SymbolTable) (symbol : Symbol) : SymbolKind → Prop where
  | constant {var : Variable} (kind : symbol.kind = .var var) (constant : ConstantRef) :
      Edits table symbol (.var { var with constant := some constant })
  | mark {function : Function} (kind : symbol.kind = .function function) (defined hasPrototype : Bool) :
      Edits table symbol (.function { function with defined, hasPrototype })
  | extend {function : Function} {parameters : List SymbolHandle} {mangled : Option String} {parameter : SymbolHandle}
      {var : Symbol} (kind : symbol.kind = .function function) (signature : function.signature = .growing parameters mangled)
      (found : table.pool.get? parameter = some var) (isVariable : var.isVariable = true) :
      Edits table symbol (.function { function with signature := .growing (parameters ++ [parameter]) none })
  | remember {function : Function} {name : String} (kind : symbol.kind = .function function)
      (mangled : symbol.mangled table.pool = .ok name) : Edits table symbol (.function (function.remember name))

inductive Change (table : SymbolTable) : SymbolTable → Prop where
  | create {name : String} {origin : Origin} {kind : SymbolKind} {handle : SymbolHandle} {after : SymbolTable} (new : kind.New)
      (created : table.create name origin kind = .ok (handle, after)) : Change table after
  | edit {handle : SymbolHandle} {symbol : Symbol} {kind : SymbolKind} {after : SymbolTable}
      (found : table.pool.get? handle = some symbol) (edits : table.Edits symbol kind)
      (puts : table.Puts handle { symbol with kind } after) : Change table after
  | constant (values : List Scalar) : Change table (table.addConstant values).2

abbrev Changes := Relation.ReflTransGen Change

/-- What every change keeps is kept by what operations do with them. -/
theorem Changes.preserves {holds : SymbolTable → Prop}
    (each : ∀ {before after : SymbolTable}, holds before → before.Change after → holds after)
    (changes : table.Changes after) (start : holds table) : holds after := by
  induction changes with
  | refl => exact start
  | tail _ change ih => exact each ih change

theorem functionAt_eq_ok {function : Function} : table.functionAt handle = .ok function ↔
    ∃ symbol, table.pool.get? handle = some symbol ∧ symbol.kind = .function function := by
  simp only [functionAt, bind_eq_ok, Arena.read_eq_ok]
  constructor
  · rintro ⟨symbol, found, rest⟩
    refine ⟨symbol, found, ?_⟩
    cases kind : symbol.kind <;> simp_all [Symbol.asFunction?, pure_eq_ok, throw_eq_ok]
  · rintro ⟨symbol, found, kind⟩
    exact ⟨symbol, found, by simp [Symbol.asFunction?, kind, pure_eq_ok]⟩

/-- The symbol that is edited is the one at the handle. -/
theorem Change.of_withKind {symbol : Symbol} {kind : SymbolKind} (found : table.pool.get? handle = some symbol)
    (edits : table.Edits symbol kind) (done : table.withKind handle kind = .ok after) : table.Change after := by
  obtain ⟨_, held, puts⟩ := withKind_puts done
  obtain rfl := Option.some.inj (found.symm.trans held)
  exact .edit found edits puts

theorem addParameter_changes {function parameter : SymbolHandle} (done : table.addParameter function parameter = .ok after) :
    table.Change after := by
  obtain ⟨var, read, rest⟩ := bind_eq_ok.mp done
  cases isVariable : var.isVariable with
  | false => simp [isVariable, Bind.bind, Except.bind, throw, throwThe, MonadExceptOf.throw] at rest
  | true =>
    rw [isVariable] at rest
    obtain ⟨target, functionAt, rest⟩ := bind_eq_ok.mp rest
    obtain ⟨symbol, found, kind⟩ := functionAt_eq_ok.mp functionAt
    obtain ⟨extended, extends_, written⟩ := bind_eq_ok.mp rest
    unfold Function.addParameter at extends_
    split at extends_
    case h_1 parameters mangled signature =>
      obtain rfl := Except.ok.inj extends_
      exact .of_withKind found (.extend kind signature (Arena.read_eq_ok.mp read) isVariable) written
    case h_2 => cases extends_

/-- What sharing does: `definition` takes over the parameters of `prototype`, with its remembered name. -/
inductive Shares (table : SymbolTable) (definition prototype : SymbolHandle) : SymbolTable → Prop where
  | intro {target source : Symbol} {function sharing : Function} {parameters : List SymbolHandle} {mangled : Option String}
      {after : SymbolTable} (found : table.pool.get? definition = some target) (kind : target.kind = .function function)
      (sourceFound : table.pool.get? prototype = some source) (sourceKind : source.kind = .function sharing)
      (signature : sharing.signature = .growing parameters mangled)
      (puts : table.Puts definition
        { target with kind := .function { function with signature := .growing parameters mangled } } after) :
      Shares table definition prototype after

theorem shareParameters_shares {definition prototype : SymbolHandle}
    (done : table.shareParameters definition prototype = .ok after) : table.Shares definition prototype after := by
  obtain ⟨sharing, sourceAt, rest⟩ := bind_eq_ok.mp done
  obtain ⟨source, sourceFound, sourceKind⟩ := functionAt_eq_ok.mp sourceAt
  obtain ⟨function, functionAt, rest⟩ := bind_eq_ok.mp rest
  obtain ⟨target, found, kind⟩ := functionAt_eq_ok.mp functionAt
  obtain ⟨shared, shares, written⟩ := bind_eq_ok.mp rest
  unfold Function.shareParameters at shares
  split at shares
  case h_1 parameters mangled signature =>
    obtain rfl := Except.ok.inj shares
    obtain ⟨_, held, puts⟩ := withKind_puts written
    obtain rfl := Option.some.inj (found.symm.trans held)
    exact .intro found kind sourceFound sourceKind signature puts
  case h_2 => cases shares

/-- A loop makes changes if each of its steps does. -/
theorem foldlM_changes {step : σ × SymbolTable → α → Except Fault (σ × SymbolTable)}
    (each : ∀ before item after, step before item = .ok after → before.2.Changes after.2) {items : List α}
    {start final : σ × SymbolTable} (done : items.foldlM step start = .ok final) : start.2.Changes final.2 := by
  induction items generalizing start with
  | nil =>
    obtain rfl := Except.ok.inj done
    exact .refl
  | cons item items ih =>
    rw [List.foldlM_cons] at done
    obtain ⟨between, first, later⟩ := bind_eq_ok.mp done
    exact (each start item between first).trans (ih later)

theorem createSamplers_changes {symbol : SymbolRef} {name apiName : String} {created : List (SymbolHandle × String)}
    (done : table.createSamplers symbol name apiName = .ok (created, after)) : table.Changes after := by
  obtain ⟨owner, _, rest⟩ := bind_eq_ok.mp done
  cases is : owner.asStruct? with
  | none =>
    obtain ⟨_, rfl⟩ := Prod.mk.inj (Except.ok.inj (is ▸ rest))
    exact .refl
  | some struct =>
    rw [is] at rest
    obtain ⟨samplers, _, rest⟩ := bind_eq_ok.mp rest
    refine foldlM_changes (fun before sampler next made => ?_) rest
    obtain ⟨⟨handle, between⟩, create, same⟩ := bind_eq_ok.mp made
    obtain rfl := pure_eq_ok.mp same
    exact .single (.create (.var _) create)

theorem mangled_changes {symbol : SymbolRef} {name : String} (done : table.mangled symbol = .ok (name, after)) :
    table.Changes after := by
  obtain ⟨target, resolved, rest⟩ := bind_eq_ok.mp done
  obtain ⟨_, mangled, rest⟩ := bind_eq_ok.mp rest
  split at rest
  case h_1 handle function kind _ =>
    obtain ⟨_, written, rest⟩ := bind_eq_ok.mp rest
    obtain ⟨_, rfl⟩ := Prod.mk.inj (pure_eq_ok.mp rest)
    exact .single (.of_withKind (Arena.read_eq_ok.mp resolved) (.remember kind mangled) written)
  case h_2 =>
    obtain ⟨_, rfl⟩ := Prod.mk.inj (pure_eq_ok.mp rest)
    exact .refl

theorem shareConstant_changes {constant : ConstantRef} {result : Option SymbolTable}
    (done : table.shareConstant handle constant = .ok result) : table.Changes (result.getD table) := by
  obtain ⟨symbol, read, rest⟩ := bind_eq_ok.mp done
  have found := Arena.read_eq_ok.mp read
  cases kind : symbol.kind with
  | var var =>
    simp only [Symbol.asVariable?, kind] at rest
    cases written : table.withKind handle (.var { var with constant := some constant }) with
    | error fault => simp [written] at rest
    | ok after =>
      obtain rfl : some after = result := by simpa [written] using rest
      exact .single (.of_withKind found (.constant kind constant) written)
  | _ =>
    simp only [Symbol.asVariable?, kind] at rest
    obtain rfl := pure_eq_ok.mp rest
    exact .refl

theorem exists_declares {outcome : Declaration} (done : table.declare handle = .ok (outcome, after)) :
    ∃ symbol, table.pool.get? handle = some symbol ∧ table.Declares handle symbol outcome after := by
  obtain ⟨marked, marks, _⟩ := bind_eq_ok.mp done
  obtain ⟨symbol, read, _⟩ := bind_eq_ok.mp marks
  have found := Arena.read_eq_ok.mp read
  exact ⟨symbol, found, declare_declares found done⟩

end SymbolTable

namespace Operation

variable {operation : Operation}

inductive Effect (table : SymbolTable) : Operation → SymbolTable → Prop where
  | plain {operation : Operation} {after : SymbolTable} (plain : operation.Plain) (changes : table.Changes after) :
      Effect table operation after
  | share {definition prototype : SymbolHandle} {after : SymbolTable} (shares : table.Shares definition prototype after) :
      Effect table (.shareParameters definition prototype) after
  | declare {handle : SymbolHandle} {symbol : Symbol} {outcome : SymbolTable.Declaration} {after : SymbolTable}
      (found : table.pool.get? handle = some symbol) (declares : table.Declares handle symbol outcome after) :
      Effect table (.declare handle) after
  | push : Effect table .pushScope table.pushScope
  | pop {innermost : Scope} {outer : List Scope} (locals : table.locals = innermost :: outer) :
      Effect table .popScope { table with locals := outer }
  | pass {compiler : Compiler} {pass : Pass} {tree : Tree} {after : SymbolTable} (revises : table.Revisions after) :
      Effect table (.runPass compiler pass tree) after
  | compile {compiler : Compiler} {tree : Tree} {after : SymbolTable} (revises : table.Revisions after) :
      Effect table (.compile compiler tree) after

theorem afterWork_eq_ok {tree : Tree} {work : WorkM α} : table.afterWork tree work = .ok after ↔
    ∃ value space, Ends work { tree, table } value space ∧ space.table = after := by
  unfold SymbolTable.afterWork Ends
  generalize work.run.run { tree, table } = run
  obtain ⟨_ | value, space⟩ := run
  · refine ⟨fun done => (by cases done), fun ⟨_, _, ends, _⟩ => ?_⟩
    cases congrArg Prod.fst ends
  · refine ⟨fun done => ⟨value, space, rfl, Except.ok.inj done⟩, fun ⟨_, _, ends, same⟩ => ?_⟩
    obtain rfl : space = _ := congrArg Prod.snd ends
    exact congrArg _ same

theorem map_snd_eq_ok {result : Except Fault (α × SymbolTable)} : Prod.snd <$> result = .ok after ↔
    ∃ value, result = .ok (value, after) := by
  cases result <;> simp [Prod.ext_iff]

theorem perform_effect (done : operation.perform table = .ok after) : operation.Effect table after := by
  cases operation with
  | createVariable name ty origin =>
    obtain ⟨_, created⟩ := map_snd_eq_ok.mp done
    exact .plain trivial (.single (.create (.var ty) created))
  | createStruct name fields origin =>
    obtain ⟨_, created⟩ := map_snd_eq_ok.mp done
    exact .plain trivial (.single (.create (.struct fields) created))
  | createBlock name fields layout origin =>
    obtain ⟨_, created⟩ := map_snd_eq_ok.mp done
    exact .plain trivial (.single (.create (.block fields layout) created))
  | createFunction name origin returnType isPure =>
    obtain ⟨_, created⟩ := map_snd_eq_ok.mp done
    exact .plain trivial (.single (.create (.function returnType isPure) created))
  | createSamplers symbol name apiName =>
    obtain ⟨_, created⟩ := map_snd_eq_ok.mp done
    exact .plain trivial (SymbolTable.createSamplers_changes created)
  | addParameter function parameter => exact .plain trivial (.single (SymbolTable.addParameter_changes done))
  | shareParameters definition prototype => exact .share (SymbolTable.shareParameters_shares done)
  | markDefined handle =>
    obtain ⟨function, functionAt, written⟩ := bind_eq_ok.mp done
    obtain ⟨symbol, found, kind⟩ := SymbolTable.functionAt_eq_ok.mp functionAt
    exact .plain trivial (.single (.of_withKind found (.mark kind true function.hasPrototype) written))
  | markPrototype handle =>
    obtain ⟨function, functionAt, written⟩ := bind_eq_ok.mp done
    obtain ⟨symbol, found, kind⟩ := SymbolTable.functionAt_eq_ok.mp functionAt
    exact .plain trivial (.single (.of_withKind found (.mark kind function.defined true) written))
  | addConstant values =>
    obtain rfl := Except.ok.inj done
    exact .plain trivial (.single (.constant values))
  | shareConstant var constant =>
    obtain ⟨result, shared, same⟩ := bind_eq_ok.mp done
    obtain rfl := pure_eq_ok.mp same
    exact .plain trivial (SymbolTable.shareConstant_changes shared)
  | mangle symbol =>
    obtain ⟨_, mangled⟩ := map_snd_eq_ok.mp done
    exact .plain trivial (SymbolTable.mangled_changes mangled)
  | declare handle =>
    obtain ⟨_, declared⟩ := map_snd_eq_ok.mp done
    obtain ⟨symbol, found, declares⟩ := SymbolTable.exists_declares declared
    exact .declare found declares
  | pushScope =>
    obtain rfl := Except.ok.inj done
    exact .push
  | popScope =>
    have pops : table.popScope = .ok after := done
    unfold SymbolTable.popScope at pops
    split at pops
    case h_1 => cases pops
    case h_2 innermost outer locals =>
      obtain rfl := Except.ok.inj pops
      exact .pop locals
  | runPass compiler pass tree =>
    obtain ⟨_, _, ends, rfl⟩ := afterWork_eq_ok.mp done
    exact .pass (compiler.runPass_revises pass _ _ _ ends)
  | compile compiler tree =>
    obtain ⟨_, _, ends, rfl⟩ := afterWork_eq_ok.mp done
    exact .compile (compiler.compile_revises _ _ _ ends)

end Operation

end ShaderTree
