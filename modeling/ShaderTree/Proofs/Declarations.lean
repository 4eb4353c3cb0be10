import ShaderTree.SymbolTable
import ShaderTree.Proofs.Arena
import ShaderTree.Proofs.Outcome

/-! Declarations, the ones that are refused among them. A symbol that was asked for its mangled name
remembers it, and a structure remembers the scope of its latest declaration, whether it was bound there
or not; the scopes change only when it was. -/
namespace ShaderTree

variable {table first second third after : SymbolTable} {handle : SymbolHandle} {symbol : Symbol}

structure SymbolTable.Puts (first : SymbolTable) (handle : SymbolHandle) (symbol : Symbol) (second : SymbolTable) : Prop where
  found : second.pool.get? handle = some symbol
  others : ∀ other, other ≠ handle → second.pool.get? other = first.pool.get? other
  size : second.pool.size = first.pool.size
  rest : second = { first with pool := second.pool }

namespace SymbolTable.Puts

theorem self (found : table.pool.get? handle = some symbol) : table.Puts handle symbol table :=
  ⟨found, fun _ _ => rfl, rfl, rfl⟩

theorem trans {one other : Symbol} (earlier : first.Puts handle one second) (later : second.Puts handle other third) :
    first.Puts handle other third where
  found := later.found
  others place differs := (later.others place differs).trans (earlier.others place differs)
  size := later.size.trans earlier.size
  rest := by rw [later.rest, earlier.rest]

theorem current (puts : first.Puts handle symbol second) : second.current = first.current := by
  rw [puts.rest]
  rfl

end SymbolTable.Puts

/-- The symbol after a declaration in the global scope, or in another one. -/
def Symbol.placed (symbol : Symbol) (isGlobal : Bool) : Symbol :=
  match symbol.kind with
  | .struct struct => { symbol with kind := .struct { struct with atGlobalScope := isGlobal } }
  | _ => symbol

def Symbol.remembering (symbol : Symbol) (mangled : String) : Symbol :=
  match symbol.kind with
  | .function function => { symbol with kind := .function (function.remember mangled) }
  | _ => symbol

/-- What was remembered is what is answered, whatever becomes of the pool. -/
theorem Symbol.mangled_remembering {isGlobal : Bool} {key : String} {pool later : Pool} (origin : symbol.origin ≠ .empty)
    (mangled : symbol.mangled pool = .ok key) : ((symbol.placed isGlobal).remembering key).mangled later = .ok key := by
  obtain ⟨rawName, id, from_, extension, kind⟩ := symbol
  cases kind with
  | function function =>
    cases signature : function.signature <;>
      simp_all [Symbol.mangled, placed, remembering, Function.mangled, Function.remember, Signature.mangled?]
  | _ =>
    simp only [Symbol.mangled, placed, remembering, Symbol.name, Symbol.isVariable] at mangled ⊢
    exact mangled

section
variable (symbol) (isGlobal : Bool)

@[simp] theorem Symbol.placed_rawName : (symbol.placed isGlobal).rawName = symbol.rawName := by
  unfold placed
  split <;> rfl

@[simp] theorem Symbol.placed_origin : (symbol.placed isGlobal).origin = symbol.origin := by
  unfold placed
  split <;> rfl

@[simp] theorem Symbol.placed_isFunction : (symbol.placed isGlobal).isFunction = symbol.isFunction := by
  cases kind : symbol.kind <;> simp [placed, isFunction, kind]

/-- What a scope does with a symbol does not depend on where the symbol was declared before. -/
theorem Scope.insert?_placed (scope : Scope) (key : String) (ref : SymbolRef) :
    scope.insert? key (symbol.placed isGlobal) ref = scope.insert? key symbol ref := by
  simp [insert?, admits, bind]

end

namespace SymbolTable

theorem withKind_puts {kind : SymbolKind} (done : table.withKind handle kind = .ok after) :
    ∃ symbol, table.pool.get? handle = some symbol ∧ table.Puts handle { symbol with kind } after := by
  obtain ⟨symbol, read, rest⟩ := bind_eq_ok.mp done
  obtain ⟨pool, written, rest⟩ := bind_eq_ok.mp rest
  obtain rfl := Except.ok.inj rest
  have found := Arena.read_eq_ok.mp read
  obtain ⟨other, writes, size, present, others⟩ :=
    Arena.write_spec { symbol with kind } (Arena.get?_eq_some_lt found)
  obtain rfl := Except.ok.inj (writes.symm.trans written)
  exact ⟨symbol, found, present, others, size, rfl⟩

theorem markStruct_puts (found : table.pool.get? handle = some symbol) (done : table.markStruct handle = .ok after) :
    table.Puts handle (symbol.placed table.isGlobalScope) after := by
  obtain ⟨_, read, rest⟩ := bind_eq_ok.mp done
  obtain rfl := Option.some.inj (found.symm.trans (Arena.read_eq_ok.mp read))
  cases kind : symbol.kind with
  | struct struct =>
    simp only [Symbol.asStruct?, kind] at rest
    obtain ⟨_, held, puts⟩ := withKind_puts rest
    obtain rfl := Option.some.inj (found.symm.trans held)
    simpa only [Symbol.placed, kind] using puts
  | _ =>
    simp only [Symbol.asStruct?, kind] at rest
    obtain rfl := pure_eq_ok.mp rest
    simpa only [Symbol.placed, kind] using Puts.self found

theorem mangled_puts {name : String} (found : table.pool.get? handle = some symbol)
    (done : table.mangled (.pool handle) = .ok (name, after)) :
    symbol.mangled table.pool = .ok name ∧ table.Puts handle (symbol.remembering name) after := by
  obtain ⟨_, read, rest⟩ := bind_eq_ok.mp done
  obtain rfl := Option.some.inj (found.symm.trans (Arena.read_eq_ok.mp read))
  obtain ⟨_, mangled, rest⟩ := bind_eq_ok.mp rest
  cases kind : symbol.kind with
  | function function =>
    simp only [kind] at rest
    obtain ⟨_, written, rest⟩ := bind_eq_ok.mp rest
    obtain ⟨rfl, rfl⟩ := Prod.mk.inj (pure_eq_ok.mp rest)
    obtain ⟨_, held, puts⟩ := withKind_puts written
    obtain rfl := Option.some.inj (found.symm.trans held)
    exact ⟨mangled, by simpa only [Symbol.remembering, kind] using puts⟩
  | _ =>
    simp only [kind] at rest
    obtain ⟨rfl, rfl⟩ := Prod.mk.inj (pure_eq_ok.mp rest)
    exact ⟨mangled, by simpa only [Symbol.remembering, kind] using Puts.self found⟩

/-- Asking for a mangled name succeeds whenever there is one. -/
theorem mangled_fst (found : table.pool.get? handle = some symbol) :
    Prod.fst <$> table.mangled (.pool handle) = symbol.mangled table.pool := by
  have resolved : table.resolve (.pool handle) = .ok symbol := Arena.read_eq_ok.mpr found
  cases mangled : symbol.mangled table.pool with
  | error fault => simp [SymbolTable.mangled, resolved, mangled, Bind.bind, Except.bind, Functor.map, Except.map]
  | ok name =>
    cases kind : symbol.kind with
    | function function =>
      have read : table.pool.read handle = .ok symbol := Arena.read_eq_ok.mpr found
      obtain ⟨pool, written, _⟩ := Arena.write_spec
        { symbol with kind := .function (function.remember name) } (Arena.get?_eq_some_lt found)
      simp [SymbolTable.mangled, resolved, mangled, kind, withKind, read, written, Bind.bind, Except.bind, pure, Except.pure,
        Functor.map, Except.map]
    | _ => simp [SymbolTable.mangled, resolved, mangled, kind, Bind.bind, Except.bind, pure, Except.pure,
        Functor.map, Except.map]

inductive Declares (table : SymbolTable) (handle : SymbolHandle) (symbol : Symbol) : Declaration → SymbolTable → Prop where
  | nameless {after : SymbolTable} (origin : symbol.origin = .empty)
      (puts : table.Puts handle (symbol.placed table.isGlobalScope) after) : Declares table handle symbol .nameless after
  | bound {key : String} {after : SymbolTable} {scope : Scope} (origin : symbol.origin ≠ .empty)
      (mangled : symbol.mangled table.pool = .ok key)
      (puts : table.Puts handle ((symbol.placed table.isGlobalScope).remembering key) after)
      (inserted : table.current.insert? key symbol (.pool handle) = some scope) :
      Declares table handle symbol (.bound key) (after.withCurrent scope)
  | taken {key : String} {after : SymbolTable} (origin : symbol.origin ≠ .empty)
      (mangled : symbol.mangled table.pool = .ok key)
      (puts : table.Puts handle ((symbol.placed table.isGlobalScope).remembering key) after)
      (refused : table.current.insert? key symbol (.pool handle) = none) :
      Declares table handle symbol (.taken key ⟨symbol.rawName⟩) after

/-- To mark a structure does not change what it is bound under. -/
theorem mangled_placed {name : String} (puts : table.Puts handle (symbol.placed table.isGlobalScope) after)
    (marked : table.markStruct handle = .ok after) (found : table.pool.get? handle = some symbol)
    (mangled : (symbol.placed table.isGlobalScope).mangled after.pool = .ok name) : symbol.mangled table.pool = .ok name := by
  cases kind : symbol.kind with
  | function function =>
    -- a function is not marked, so that the pool is the same
    have unmarked : table.markStruct handle = .ok table := by
      simp [markStruct, Arena.read_eq_ok.mpr found, Symbol.asStruct?, kind, Bind.bind, Except.bind, pure, Except.pure]
    obtain rfl := Except.ok.inj (marked.symm.trans unmarked)
    simpa only [Symbol.placed, kind] using mangled
  | _ =>
    simp only [Symbol.placed, kind, Symbol.mangled, Symbol.name, Symbol.isVariable] at mangled ⊢
    exact mangled

theorem declare_declares {outcome : Declaration} (found : table.pool.get? handle = some symbol)
    (done : table.declare handle = .ok (outcome, after)) : table.Declares handle symbol outcome after := by
  obtain ⟨marked, marks, rest⟩ := bind_eq_ok.mp done
  have puts := markStruct_puts found marks
  obtain ⟨_, read, rest⟩ := bind_eq_ok.mp rest
  obtain rfl := Option.some.inj (puts.found.symm.trans (Arena.read_eq_ok.mp read))
  rw [Symbol.placed_origin] at rest
  split at rest
  case isTrue empty =>
    obtain ⟨rfl, rfl⟩ := Prod.mk.inj (pure_eq_ok.mp rest)
    exact .nameless empty puts
  case isFalse named =>
    obtain ⟨⟨key, remembered⟩, asked, rest⟩ := bind_eq_ok.mp rest
    obtain ⟨mangled, remembers⟩ := mangled_puts puts.found asked
    have mangled := mangled_placed puts marks found mangled
    have both := puts.trans remembers
    simp only [both.current, Scope.insert?_placed, Symbol.placed_rawName] at rest
    split at rest
    case h_1 scope inserted =>
      obtain ⟨rfl, rfl⟩ := Prod.mk.inj (pure_eq_ok.mp rest)
      exact .bound named mangled both inserted
    case h_2 refused =>
      obtain ⟨rfl, rfl⟩ := Prod.mk.inj (pure_eq_ok.mp rest)
      exact .taken named mangled both refused

end SymbolTable

def Signature.forgetting : Signature → Signature
  | .growing parameters _ => .growing parameters none
  | fixed parameters mangled => fixed parameters mangled

def Symbol.forgetting (symbol : Symbol) : Symbol :=
  match symbol.kind with
  | .function function =>
    { symbol with kind := .function { function with signature := function.signature.forgetting } }
  | _ => symbol

theorem Symbol.forgetting_remembering (symbol : Symbol) (mangled : String) :
    (symbol.remembering mangled).forgetting = symbol.forgetting := by
  cases kind : symbol.kind with
  | function function => cases signature : function.signature <;>
      simp [remembering, forgetting, kind, Function.remember, signature, Signature.forgetting]
  | _ => simp [remembering, kind]

theorem Symbol.forgetting_placed_iff (symbol : Symbol) (isGlobal : Bool) :
    (symbol.placed isGlobal).forgetting = symbol.forgetting ↔
      ∀ struct, symbol.kind = .struct struct → struct.atGlobalScope = isGlobal := by
  obtain ⟨rawName, id, origin, extension, kind⟩ := symbol
  cases kind with
  | struct struct =>
    obtain ⟨fields, atGlobalScope⟩ := struct
    simp [placed, forgetting, eq_comm]
  | _ => simp [placed]

namespace SymbolTable

/-- The tables are the same but for the mangled names that functions remember. -/
def SameButRemembered (first second : SymbolTable) : Prop :=
  second = { first with pool := second.pool } ∧
    ∀ handle, (second.pool.get? handle).map Symbol.forgetting = (first.pool.get? handle).map Symbol.forgetting

theorem Puts.sameButRemembered_iff {other : Symbol} (puts : table.Puts handle other after)
    (found : table.pool.get? handle = some symbol) :
    table.SameButRemembered after ↔ other.forgetting = symbol.forgetting := by
  constructor
  · intro ⟨_, same⟩
    simpa [puts.found, found] using same handle
  · intro same
    refine ⟨puts.rest, fun place => ?_⟩
    by_cases here : place = handle
    · subst here
      simp [puts.found, found, same]
    · rw [puts.others place here]

/-- A refused declaration binds nothing, and of the pool it changes the declared symbol only. The table
is as it was just if the symbol is no structure, or a structure declared in such a scope before: a
structure remembers the scope that refused it. -/
theorem declare_taken_iff {key : String} {error : Redefinition} (found : table.pool.get? handle = some symbol)
    (refused : table.declare handle = .ok (.taken key error, after)) :
    table.Puts handle ((symbol.placed table.isGlobalScope).remembering key) after ∧
      (table.SameButRemembered after ↔
        ∀ struct, symbol.kind = .struct struct → struct.atGlobalScope = table.isGlobalScope) := by
  cases declare_declares found refused with
  | taken _ _ puts =>
    rw [puts.sameButRemembered_iff found, Symbol.forgetting_remembering, Symbol.forgetting_placed_iff]
    exact ⟨puts, Iff.rfl⟩

def variableFirst : SymbolTable :=
  { pool := ⟨#[{ rawName := "S", id := ⟨96⟩, origin := .userDefined, kind := .var { ty := .float } },
      { rawName := "S", id := ⟨97⟩, origin := .userDefined, kind := .struct { fields := [⟨"x", .float, {}⟩] } }]⟩
    builtIns := {}
    globals := { bindings := [("S", .pool ⟨0⟩)] }
    profile := {}
    supply := ⟨98⟩ }

/-- The structure is in no scope, and yet it counts as one of the global scope. -/
theorem declare_taken_iff_variableFirst : ∃ after, variableFirst.declare ⟨1⟩ = .ok (.taken "S" ⟨"S"⟩, after) ∧
    ¬ variableFirst.SameButRemembered after ∧
    (after.pool.get? ⟨1⟩).bind Symbol.asStruct? = some { fields := [⟨"x", .float, {}⟩], atGlobalScope := true } := by
  have refused : (variableFirst.declare ⟨1⟩).map Prod.fst = .ok (.taken "S" ⟨"S"⟩) := by rfl
  cases declared : variableFirst.declare ⟨1⟩ with
  | error fault => simp [declared, Except.map] at refused
  | ok result =>
    obtain ⟨outcome, after⟩ := result
    obtain rfl : outcome = .taken "S" ⟨"S"⟩ := by simpa [declared, Except.map] using refused
    obtain ⟨puts, same⟩ := declare_taken_iff rfl declared
    refine ⟨after, rfl, fun unchanged => ?_, ?_⟩
    · exact absurd (same.mp unchanged _ rfl) (by decide)
    · rw [puts.found]
      rfl

end SymbolTable

end ShaderTree
