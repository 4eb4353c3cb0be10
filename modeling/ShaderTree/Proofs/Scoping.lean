import ShaderTree.Proofs.Aging

/-! Scopes along runs. A declaration binds one name in the innermost scope, and nothing else reaches the
scopes: so a scope that was entered is left with all outer scopes as they were. -/
namespace ShaderTree

variable {table first second outer inside after : SymbolTable} {handle : SymbolHandle} {operation : Operation}

namespace Scope

variable {scope : Scope} {key name : String} {symbol : Symbol} {ref : SymbolRef}

@[simp] theorem find?_bind_self : (scope.bind key symbol ref).find? key = some ref := by
  simp [find?, bind]

theorem find?_bind_of_ne (differs : name ≠ key) : (scope.bind key symbol ref).find? name = scope.find? name := by
  have unequal : (name == key) = false := beq_eq_false_iff_ne.mpr differs
  simp [find?, bind, List.lookup_cons, unequal]

theorem insert?_eq_some {later : Scope} (inserted : scope.insert? key symbol ref = some later) :
    later = scope.bind key symbol ref := by
  unfold insert? at inserted
  split at inserted
  · exact (Option.some.inj inserted).symm
  · cases inserted

def Bound (scope : Scope) (pool : Pool) : Prop :=
  ∀ key handle, scope.find? key = some (.pool handle) → ∃ symbol, pool.get? handle = some symbol

theorem bound_empty (pool : Pool) : Bound {} pool := fun _ _ found => nomatch found

theorem Bound.bind {pool : Pool} (bound : scope.Bound pool)
    (present : ∀ handle, ref = .pool handle → ∃ symbol, pool.get? handle = some symbol) :
    (scope.bind key symbol ref).Bound pool := by
  intro name handle found
  by_cases same : name = key
  · subst same
    exact present handle (Option.some.inj (find?_bind_self.symm.trans found))
  · exact bound name handle ((find?_bind_of_ne same).symm.trans found)

/-- What holds of the empty scope and is kept wherever a built-in is bound holds of the scope of built-ins. -/
theorem builtIn_induct {motive : Scope → Prop} (profile : Profile) (start : motive {})
    (each : ∀ {scope later : Scope} {symbol : BuiltIn}, motive scope →
      scope.insert? symbol.key symbol.symbol (.builtIn symbol) = some later → motive later) : motive (builtIn profile) := by
  unfold builtIn
  generalize BuiltIn.available profile = symbols
  have all : ∀ scope : Scope, motive scope →
      motive (symbols.foldl (fun scope symbol => (scope.insert? symbol.key symbol.symbol (.builtIn symbol)).getD scope) scope) := by
    induction symbols with
    | nil => exact fun _ held => held
    | cons symbol rest ih =>
      intro scope held
      apply ih
      cases inserted : scope.insert? symbol.key symbol.symbol (.builtIn symbol) with
      | none => simpa only [inserted, Option.getD_none] using held
      | some later => simpa only [inserted, Option.getD_some] using each held inserted
  exact all {} start

/-- Nothing of the pool is bound among the built-ins. -/
theorem bound_builtIn (profile : Profile) (pool : Pool) : (builtIn profile).Bound pool := by
  apply builtIn_induct (motive := (Bound · pool)) profile (bound_empty pool)
  intro scope later symbol bound inserted
  rw [insert?_eq_some inserted]
  exact bound.bind nofun

end Scope

namespace SymbolTable

def enclosing (table : SymbolTable) : List Scope :=
  match table.locals with
  | [] => [table.builtIns]
  | _ :: outer => outer ++ [table.globals, table.builtIns]

theorem scopes_eq (table : SymbolTable) : table.scopes = table.current :: table.enclosing := by
  cases locals : table.locals <;> simp [scopes, current, enclosing, locals]

theorem scopes_withCurrent (table : SymbolTable) (scope : Scope) :
    (table.withCurrent scope).scopes = scope :: table.enclosing := by
  cases locals : table.locals <;> simp [scopes, withCurrent, enclosing, locals]

theorem lookup_bind_self (table : SymbolTable) {key : String} {symbol : Symbol} {ref : SymbolRef} :
    (table.withCurrent (table.current.bind key symbol ref)).lookup key = some ref := by
  simp [lookup, scopes_withCurrent]

theorem lookup_bind_of_ne (table : SymbolTable) {key name : String} {symbol : Symbol} {ref : SymbolRef}
    (differs : name ≠ key) :
    (table.withCurrent (table.current.bind key symbol ref)).lookup name = table.lookup name := by
  simp only [lookup, scopes_withCurrent, scopes_eq table, List.findSome?_cons, Scope.find?_bind_of_ne differs]

@[simp] theorem withCurrent_builtIns (scope : Scope) : (table.withCurrent scope).builtIns = table.builtIns := by
  unfold withCurrent
  split <;> rfl

structure SameScopes (first second : SymbolTable) : Prop where
  builtIns : second.builtIns = first.builtIns
  globals : second.globals = first.globals
  locals : second.locals = first.locals

namespace SameScopes

theorem refl (table : SymbolTable) : table.SameScopes table := ⟨rfl, rfl, rfl⟩

theorem trans {third : SymbolTable} (earlier : first.SameScopes second) (later : second.SameScopes third) :
    first.SameScopes third where
  builtIns := later.builtIns.trans earlier.builtIns
  globals := later.globals.trans earlier.globals
  locals := later.locals.trans earlier.locals

theorem scopes (same : first.SameScopes second) : second.scopes = first.scopes := by
  simp only [SymbolTable.scopes, same.builtIns, same.globals, same.locals]

theorem enclosing (same : first.SameScopes second) : second.enclosing = first.enclosing := by
  simp only [SymbolTable.enclosing, same.builtIns, same.globals, same.locals]

theorem lookup (same : first.SameScopes second) : second.lookup = first.lookup := by
  funext name
  simp only [SymbolTable.lookup, same.scopes]

end SameScopes

theorem Puts.sameScopes {symbol : Symbol} (puts : table.Puts handle symbol after) : table.SameScopes after := by
  rw [puts.rest]
  exact ⟨rfl, rfl, rfl⟩

theorem Shares.sameScopes {definition prototype : SymbolHandle} (shares : table.Shares definition prototype after) :
    table.SameScopes after := by
  obtain ⟨_, _, _, _, _, puts⟩ := shares
  exact puts.sameScopes

theorem Renames.sameScopes (renames : table.Renames after) : table.SameScopes after := by
  rw [renames.continues.rest]
  exact ⟨rfl, rfl, rfl⟩

theorem Change.sameScopes (change : table.Change after) : table.SameScopes after := by
  cases change with
  | create _ created =>
    rw [create_append created]
    exact ⟨rfl, rfl, rfl⟩
  | edit _ _ puts => exact puts.sameScopes
  | constant values => exact ⟨rfl, rfl, rfl⟩

/-- A declaration changes the innermost scope only, where it binds its symbol. -/
theorem Declares.scopes {symbol : Symbol} {outcome : Declaration} (declares : table.Declares handle symbol outcome after) :
    table.SameScopes after ∨ ∃ between key scope, table.SameScopes between ∧ outcome = .bound key ∧
      symbol.mangled table.pool = .ok key ∧ table.current.insert? key symbol (.pool handle) = some scope ∧
      after = between.withCurrent scope := by
  cases declares with
  | nameless _ puts => exact .inl puts.sameScopes
  | bound _ mangled puts inserted => exact .inr ⟨_, _, _, puts.sameScopes, rfl, mangled, inserted, rfl⟩
  | taken _ _ puts _ => exact .inl puts.sameScopes

/-! ### Bindings -/

def Bound (table : SymbolTable) : Prop := ∀ scope ∈ table.scopes, scope.Bound table.pool

namespace Bound

theorem later {relation : Symbol → Symbol → Prop} (bound : table.Bound) (each : table.Symbolwise relation after) :
    ∀ scope ∈ table.scopes, scope.Bound after.pool := by
  intro scope member key handle found
  obtain ⟨symbol, held⟩ := bound scope member key handle found
  obtain ⟨new, holds, _⟩ := each handle symbol held
  exact ⟨new, holds⟩

theorem change (bound : table.Bound) (change : table.Change after) : after.Bound :=
  fun scope member => bound.later change.stays scope (change.sameScopes.scopes ▸ member)

theorem declares {symbol : Symbol} {outcome : Declaration} (bound : table.Bound) (found : table.pool.get? handle = some symbol)
    (declares : table.Declares handle symbol outcome after) : after.Bound := by
  have older := bound.later (declares.stays found)
  obtain ⟨new, holds, _⟩ := declares.stays found handle symbol found
  obtain same | ⟨between, key, later, same, _, _, inserted, rfl⟩ := declares.scopes
  · intro scope member
    exact older scope (same.scopes ▸ member)
  · intro scope member
    rw [scopes_withCurrent, same.enclosing] at member
    rw [scopes_eq] at older
    obtain rfl := Scope.insert?_eq_some inserted
    obtain rfl | outer := List.mem_cons.mp member
    · exact (older _ List.mem_cons_self).bind fun other is => ⟨new, SymbolRef.pool.inj is ▸ holds⟩
    · exact older scope (List.mem_cons_of_mem _ outer)

theorem effect (bound : table.Bound) (effect : operation.Effect table after) : after.Bound := by
  have older := bound.later effect.ages
  cases effect with
  | plain _ changes => exact changes.preserves change bound
  | share shares => exact fun scope member => older scope (shares.sameScopes.scopes ▸ member)
  | declare found declares => exact bound.declares found declares
  | push =>
    intro scope member
    obtain rfl | outer := List.mem_cons.mp member
    · exact Scope.bound_empty _
    · exact older scope outer
  | pop locals =>
    intro scope member
    refine older scope ?_
    simp only [scopes, locals]
    exact List.mem_cons_of_mem _ member
  | pass revises | compile revises => exact fun scope member => older scope (revises.renames.sameScopes.scopes ▸ member)

end Bound

theorem Reachable.bound (reachable : table.Reachable) : table.Bound := by
  refine reachable.induct (fun profile => ?_) fun bound performed => bound.effect (Operation.perform_effect performed)
  intro scope member
  obtain rfl | rfl : scope = {} ∨ scope = .builtIn profile := by simpa [scopes, new] using member
  · exact Scope.bound_empty _
  · exact Scope.bound_builtIn profile _

/-! ### Answers -/

structure SameAnswers (first second : SymbolTable) : Prop where
  lookup : second.lookup = first.lookup
  lookupFunction : second.lookupFunction = first.lookupFunction
  findGlobal : second.findGlobal = first.findGlobal
  findBuiltIn : second.findBuiltIn = first.findBuiltIn
  hasFunctionNamed : second.hasFunctionNamed = first.hasFunctionNamed

/-- What a function lookup asks of the symbol found does not change. -/
theorem SameScopes.answers (same : first.SameScopes second) (bound : first.Bound) (each : first.Symbolwise Symbol.Ages second) :
    first.SameAnswers second where
  lookup := same.lookup
  lookupFunction := by
    funext name
    simp only [SymbolTable.lookupFunction, same.lookup]
    cases looked : first.lookup name with
    | none => rfl
    | some ref =>
      cases ref with
      | builtIn symbol => rfl
      | pool handle =>
        obtain ⟨scope, member, binding⟩ := List.exists_of_findSome?_eq_some looked
        obtain ⟨old, found⟩ := bound scope member name handle binding
        obtain ⟨new, held, ages⟩ := each handle old found
        have before : first.resolve (.pool handle) = .ok old := Arena.read_eq_ok.mpr found
        have later : second.resolve (.pool handle) = .ok new := Arena.read_eq_ok.mpr held
        simp only [before, later, Bind.bind, Except.bind, ages.isFunction]
  findGlobal := by
    funext name
    simp only [SymbolTable.findGlobal, same.globals]
  findBuiltIn := by
    funext name
    simp only [SymbolTable.findBuiltIn, same.builtIns]
  hasFunctionNamed := by
    funext name
    simp only [SymbolTable.hasFunctionNamed, same.scopes]

/-- `inside` is `depth` scopes further in than the first scope that was entered in `outer`. -/
structure Within (outer : SymbolTable) (depth : Nat) (inside : SymbolTable) : Prop where
  builtIns : inside.builtIns = outer.builtIns
  globals : inside.globals = outer.globals
  locals : ∃ entered : List Scope, entered.length = depth + 1 ∧ inside.locals = entered ++ outer.locals

end SymbolTable

/-- How many scopes are entered and not left after the operation, if `depth` were before it. -/
def Operation.depthAfter (depth : Nat) : Operation → Option Nat
  | pushScope => some (depth + 1)
  | popScope => if depth = 0 then none else some (depth - 1)
  | _ => some depth

def Operation.Balanced (operations : List Operation) : Prop := operations.foldlM Operation.depthAfter 0 = some 0

instance (operations : List Operation) : Decidable (Operation.Balanced operations) :=
  inferInstanceAs (Decidable (_ = _))

theorem Operation.Plain.depthAfter (plain : operation.Plain) (depth : Nat) : operation.depthAfter depth = some depth := by
  cases operation <;> first | rfl | exact plain.elim

namespace SymbolTable.Within

variable {depth next : Nat}

theorem pushScope (table : SymbolTable) : table.Within 0 table.pushScope := ⟨rfl, rfl, [{}], rfl, rfl⟩

theorem sameScopes (within : outer.Within depth table) (same : table.SameScopes after) : outer.Within depth after where
  builtIns := same.builtIns.trans within.builtIns
  globals := same.globals.trans within.globals
  locals := by
    rw [same.locals]
    exact within.locals

theorem withCurrent (within : outer.Within depth table) (scope : Scope) : outer.Within depth (table.withCurrent scope) := by
  obtain ⟨builtIns, globals, entered, length, locals⟩ := within
  cases entered with
  | nil => simp at length
  | cons innermost entered =>
    have replaced : table.withCurrent scope = { table with locals := scope :: entered ++ outer.locals } := by
      simp [SymbolTable.withCurrent, locals]
    rw [replaced]
    exact ⟨builtIns, globals, scope :: entered, length, rfl⟩

/-- The operation works on the scopes that were entered, and on no other. -/
theorem effect (within : outer.Within depth table) (effect : operation.Effect table after)
    (deepens : operation.depthAfter depth = some next) : outer.Within next after := by
  cases effect with
  | plain plain changes =>
    obtain rfl := Option.some.inj ((plain.depthAfter depth).symm.trans deepens)
    exact changes.preserves (fun within change => within.sameScopes change.sameScopes) within
  | share shares =>
    obtain rfl := Option.some.inj deepens
    exact within.sameScopes shares.sameScopes
  | declare found declares =>
    obtain rfl := Option.some.inj deepens
    obtain same | ⟨between, _, _, same, _, _, _, rfl⟩ := declares.scopes
    · exact within.sameScopes same
    · exact (within.sameScopes same).withCurrent _
  | push =>
    obtain rfl := Option.some.inj deepens
    obtain ⟨builtIns, globals, entered, length, locals⟩ := within
    exact ⟨builtIns, globals, {} :: entered, congrArg (· + 1) length, congrArg (List.cons _) locals⟩
  | @pop innermost rest stack =>
    obtain ⟨builtIns, globals, entered, length, locals⟩ := within
    simp only [Operation.depthAfter, Option.ite_none_left_eq_some, Option.some.injEq] at deepens
    obtain ⟨deep, rfl⟩ := deepens
    cases entered with
    | nil => simp at length
    | cons first entered =>
      obtain ⟨_, left⟩ := List.cons.inj (stack.symm.trans locals)
      exact ⟨builtIns, globals, entered, by simp at length; omega, left⟩
  | pass revises | compile revises =>
    obtain rfl := Option.some.inj deepens
    exact within.sameScopes revises.renames.sameScopes

theorem run {operations : List Operation} (within : outer.Within depth table) (done : table.run operations = .ok after)
    (deepens : operations.foldlM Operation.depthAfter depth = some next) : outer.Within next after := by
  -- the depth counts the scopes that are entered, so that a pop takes away one of them
  induction operations generalizing table depth with
  | nil =>
    obtain rfl := Except.ok.inj (run_nil.symm.trans done)
    obtain rfl := Option.some.inj deepens
    exact within
  | cons operation rest ih =>
    obtain ⟨between, performed, later⟩ := run_cons.mp done
    rw [List.foldlM_cons] at deepens
    obtain ⟨depth, deepened, deepens⟩ := Option.bind_eq_some_iff.mp deepens
    exact ih (within.effect (Operation.perform_effect performed) deepened) later deepens

/-- The scope that was entered first can be left, and the scopes are then as they were. -/
theorem popScope (within : outer.Within 0 inside) :
    ∃ after, inside.popScope = .ok after ∧ after.pool = inside.pool ∧ outer.SameScopes after := by
  obtain ⟨builtIns, globals, entered, length, locals⟩ := within
  obtain ⟨innermost, rfl⟩ := List.length_eq_one_iff.mp length
  exact ⟨{ inside with locals := outer.locals }, by simp [SymbolTable.popScope, locals], rfl, builtIns, globals, rfl⟩

end SymbolTable.Within

namespace SymbolTable

/-- A symbol that was bound is found under its mangled name, and all other names stand for what they did. -/
theorem Declares.lookup {symbol : Symbol} {outcome : Declaration} (declares : table.Declares handle symbol outcome after) :
    (symbol.origin = .empty → after.lookup = table.lookup) ∧
      (symbol.origin ≠ .empty → (∃ key error, outcome = .taken key error) ∨
        ∃ key, Prod.fst <$> after.mangled (.pool handle) = .ok key ∧ after.lookup key = some (.pool handle) ∧
          ∀ name, name ≠ key → after.lookup name = table.lookup name) := by
  cases declares with
  | nameless origin puts => exact ⟨fun _ => puts.sameScopes.lookup, absurd origin⟩
  | taken origin _ _ _ => exact ⟨fun empty => absurd empty origin, fun _ => .inl ⟨_, _, rfl⟩⟩
  | @bound key between scope origin mangled puts inserted =>
    refine ⟨fun empty => absurd empty origin, fun _ => .inr ⟨key, ?_, ?_⟩⟩
    · rw [mangled_fst ((congrArg (·.get? handle) (withCurrent_pool scope)).trans puts.found)]
      exact Symbol.mangled_remembering origin mangled
    · rw [← puts.current] at inserted
      rw [Scope.insert?_eq_some inserted]
      refine ⟨between.lookup_bind_self, fun name differs => ?_⟩
      rw [between.lookup_bind_of_ne differs, puts.sameScopes.lookup]

theorem builtIns_of_effect (effect : operation.Effect table after) : after.builtIns = table.builtIns := by
  cases effect with
  | plain _ changes => exact changes.preserves (fun earlier change => change.sameScopes.builtIns.trans earlier) rfl
  | share shares => exact shares.sameScopes.builtIns
  | declare found declares =>
    obtain same | ⟨between, _, _, same, _, _, _, rfl⟩ := declares.scopes
    · exact same.builtIns
    · rw [withCurrent_builtIns, same.builtIns]
  | push | pop => rfl
  | pass revises | compile revises => exact revises.renames.sameScopes.builtIns

theorem run_builtIns {operations : List Operation} (done : table.run operations = .ok after) :
    after.builtIns = table.builtIns := by
  have each {before next : SymbolTable} {operation : Operation} (earlier : before.builtIns = table.builtIns)
      (performed : operation.perform before = .ok next) : next.builtIns = table.builtIns :=
    (builtIns_of_effect (Operation.perform_effect performed)).trans earlier
  exact run_preserves (fun _ => each) done rfl

theorem answers_after_pop {inner : List Operation} (bound : table.Bound) (balanced : Operation.Balanced inner)
    (done : table.pushScope.run inner = .ok inside) :
    ∃ after, inside.popScope = .ok after ∧ table.SameAnswers after := by
  obtain ⟨after, pops, pool, same⟩ := ((Within.pushScope table).run done balanced).popScope
  refine ⟨after, pops, same.answers bound fun handle old found => ?_⟩
  rw [pool]
  exact run_ages done handle old found

/-- In any table that operations lead to, declarations bind what they are given and hide nothing but the
name that they bind, scopes are left as they were entered, whatever was done in between, and the built-ins
never change. -/
theorem scope_discipline (reachable : table.Reachable) :
    (∀ handle symbol outcome after,
      table.pool.get? handle = some symbol → table.declare handle = .ok (outcome, after) →
      (symbol.origin = .empty → after.lookup = table.lookup) ∧
        (symbol.origin ≠ .empty → (∃ key error, outcome = .taken key error) ∨
          ∃ key, Prod.fst <$> after.mangled (.pool handle) = .ok key ∧ after.lookup key = some (.pool handle) ∧
            ∀ name, name ≠ key → after.lookup name = table.lookup name)) ∧
      (∀ inner inside, Operation.Balanced inner → table.pushScope.run inner = .ok inside →
        ∃ after, inside.popScope = .ok after ∧ table.SameAnswers after) ∧
      ∀ operations after, table.run operations = .ok after → after.findBuiltIn = table.findBuiltIn := by
  refine ⟨fun _ _ _ _ found declared => (declare_declares found declared).lookup,
    fun _ _ balanced done => answers_after_pop reachable.bound balanced done, fun _ _ done => ?_⟩
  funext name
  simp only [findBuiltIn, run_builtIns done]

/-- A variable `x` of an inner scope hides the one outside, until the scope is left. -/
theorem scope_discipline_shadowing : ∃ table inside after : SymbolTable,
    (new {}).run [.createVariable "x" .float .userDefined, .declare ⟨0⟩] = .ok table ∧
      table.pushScope.run [.createVariable "x" .int .userDefined, .declare ⟨1⟩] = .ok inside ∧
      inside.lookup "x" = some (.pool ⟨1⟩) ∧ inside.popScope = .ok after ∧ after.lookup "x" = some (.pool ⟨0⟩) := by
  have started : (new {}).run [.createVariable "x" .float .userDefined, .declare ⟨0⟩] = .ok _ := rfl
  obtain ⟨after, pops, same⟩ := (scope_discipline ⟨{}, _, started⟩).2.1
    [.createVariable "x" .int .userDefined, .declare ⟨1⟩] _ (by decide) rfl
  exact ⟨_, _, after, started, rfl, rfl, pops, congrFun same.lookup "x"⟩

end SymbolTable

end ShaderTree
