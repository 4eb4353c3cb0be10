import ShaderTree.Proofs.Scoping

/-! Functions and other symbols of one name. A scope keeps them apart in whichever order they are declared, but
for nameless symbols: these are bound under the names that are generated for them, and it is their written name, of
which they have none, that is looked for among the functions. -/
namespace ShaderTree

variable {table first second after : SymbolTable} {handle : SymbolHandle} {symbol new : Symbol} {ref : SymbolRef}
  {pool next : Pool} {scope later : Scope} {key name : String} {operation : Operation}

theorem Symbol.name_of_mangled (other : symbol.isFunction = false) (mangled : symbol.mangled pool = .ok key) :
    symbol.name = .ok key := by
  unfold Symbol.mangled at mangled
  split at mangled
  · cases mangled
  · cases kind : symbol.kind with
    | function function => simp [Symbol.isFunction, kind] at other
    | _ => simpa only [kind] using mangled

/-- A symbol with a name that is written goes by that name. -/
theorem Symbol.rawName_of_name (named : symbol.name = .ok key) (written : symbol.rawName ≠ "") :
    symbol.rawName = key := by
  simpa [Symbol.name, written] using named

def Pool.Keeps (pool next : Pool) : Prop :=
  ∀ ref symbol, SymbolRef.resolve pool ref = .ok symbol → ∃ new, SymbolRef.resolve next ref = .ok new ∧ symbol.Stays new

/-! ### One scope -/

namespace Scope

def BindsSuch (scope : Scope) (pool : Pool) (such : Symbol → Prop) : Prop :=
  ∃ key ref symbol, scope.find? key = some ref ∧ ref.resolve pool = .ok symbol ∧ such symbol

def BindsFunction (scope : Scope) (pool : Pool) (name : String) : Prop :=
  scope.BindsSuch pool fun symbol => symbol.isFunction = true ∧ symbol.rawName = name

def BindsOther (scope : Scope) (pool : Pool) (name : String) : Prop :=
  scope.BindsSuch pool fun symbol => symbol.isFunction = false ∧ symbol.name = .ok name

/-- No name is that of a function in the scope and of something else. -/
def Apart (scope : Scope) (pool : Pool) : Prop := ∀ name, ¬ (scope.BindsFunction pool name ∧ scope.BindsOther pool name)

/-- Functions are noted by name, and all else is bound under its name. -/
def Filed (scope : Scope) (pool : Pool) : Prop :=
  ∀ key ref, scope.find? key = some ref → ∃ symbol, ref.resolve pool = .ok symbol ∧
    (symbol.isFunction = true → scope.hasFunction symbol.rawName = true) ∧
    (symbol.isFunction = false → symbol.name = .ok key)

namespace Filed

theorem hasFunction (filed : scope.Filed pool) (binds : scope.BindsFunction pool name) : scope.hasFunction name = true := by
  obtain ⟨key, ref, symbol, found, resolved, isFunction, rfl⟩ := binds
  obtain ⟨_, again, noted, _⟩ := filed key ref found
  obtain rfl := Except.ok.inj (resolved.symm.trans again)
  exact noted isFunction

theorem binds (filed : scope.Filed pool) (binds : scope.BindsOther pool name) : scope.binds name = true := by
  obtain ⟨key, ref, symbol, found, resolved, other, named⟩ := binds
  obtain ⟨_, again, _, keyed⟩ := filed key ref found
  obtain rfl := Except.ok.inj (resolved.symm.trans again)
  obtain rfl := Except.ok.inj (named.symm.trans (keyed other))
  simp [Scope.binds, found]

theorem keeps (filed : scope.Filed pool) (keeps : pool.Keeps next) : scope.Filed next := by
  intro key ref found
  obtain ⟨symbol, resolved, noted, keyed⟩ := filed key ref found
  obtain ⟨new, again, stays⟩ := keeps ref symbol resolved
  rw [← stays.isFunction, ← stays.rawName] at noted
  rw [← stays.isFunction, ← stays.name] at keyed
  exact ⟨new, again, noted, keyed⟩

theorem bindsSuch_iff {such : Symbol → Prop} (filed : scope.Filed pool) (keeps : pool.Keeps next)
    (alike : ∀ {old new}, old.Stays new → (such new ↔ such old)) : scope.BindsSuch next such ↔ scope.BindsSuch pool such := by
  constructor
  · rintro ⟨key, ref, new, found, again, is⟩
    obtain ⟨symbol, resolved, _⟩ := filed key ref found
    obtain ⟨_, same, stays⟩ := keeps ref symbol resolved
    obtain rfl := Except.ok.inj (again.symm.trans same)
    exact ⟨key, ref, symbol, found, resolved, (alike stays).mp is⟩
  · rintro ⟨key, ref, symbol, found, resolved, is⟩
    obtain ⟨new, again, stays⟩ := keeps ref symbol resolved
    exact ⟨key, ref, new, found, again, (alike stays).mpr is⟩

theorem bindsFunction_iff (filed : scope.Filed pool) (keeps : pool.Keeps next) :
    scope.BindsFunction next name ↔ scope.BindsFunction pool name :=
  filed.bindsSuch_iff keeps fun stays => by rw [stays.isFunction, stays.rawName]

theorem apart_iff (filed : scope.Filed pool) (keeps : pool.Keeps next) : scope.Apart next ↔ scope.Apart pool := by
  have others (name : String) : scope.BindsOther next name ↔ scope.BindsOther pool name :=
    filed.bindsSuch_iff keeps fun stays => by rw [stays.isFunction, stays.name]
  simp only [Apart, filed.bindsFunction_iff keeps, others]

end Filed

/-! ### Binding -/

/-- What is in the scope once the symbol at `ref` is bound under a key that was free. -/
theorem find?_bind_iff {other : String} {twin : SymbolRef} (free : scope.find? key = none) :
    (scope.bind key symbol ref).find? other = some twin ↔ other = key ∧ twin = ref ∨ scope.find? other = some twin := by
  by_cases same : other = key
  · subst same
    simp [free, eq_comm]
  · simp [find?_bind_of_ne same, same]

theorem bindsSuch_bind {such : Symbol → Prop} (free : scope.find? key = none) (resolved : ref.resolve pool = .ok new) :
    (scope.bind key symbol ref).BindsSuch pool such ↔ such new ∨ scope.BindsSuch pool such := by
  constructor
  · rintro ⟨other, twin, found, bound, held, is⟩
    rcases (find?_bind_iff free).mp bound with ⟨rfl, rfl⟩ | before
    · obtain rfl := Except.ok.inj (resolved.symm.trans held)
      exact .inl is
    · exact .inr ⟨other, twin, found, before, held, is⟩
  · rintro (is | ⟨other, twin, found, before, held, is⟩)
    · exact ⟨key, ref, new, find?_bind_self, resolved, is⟩
    · exact ⟨other, twin, found, (find?_bind_iff free).mpr (.inr before), held, is⟩

theorem admits_of_insert? (inserted : scope.insert? key symbol ref = some later) : scope.admits key symbol = true := by
  unfold insert? at inserted
  split at inserted
  case isTrue admits => exact admits
  case isFalse => cases inserted

theorem find?_of_admits (admits : scope.admits key symbol = true) : scope.find? key = none := by
  have free := (Bool.and_eq_true_iff.mp admits).1
  simpa [binds] using free

/-- A function is admitted where nothing is bound under its name. -/
theorem binds_of_admits (admits : scope.admits key symbol = true) (isFunction : symbol.isFunction = true) :
    scope.binds symbol.rawName = false := by
  have checked := (Bool.and_eq_true_iff.mp admits).2
  simpa [isFunction] using checked

/-- Another symbol is admitted where no function is called as it is written. -/
theorem hasFunction_of_admits (admits : scope.admits key symbol = true) (plain : symbol.isFunction = false) :
    scope.hasFunction symbol.rawName = false := by
  have checked := (Bool.and_eq_true_iff.mp admits).2
  simpa [plain] using checked

theorem hasFunction_bind_iff : (scope.bind key symbol ref).hasFunction name = true ↔
    symbol.isFunction = true ∧ symbol.rawName = name ∨ scope.hasFunction name = true := by
  cases function : symbol.isFunction <;>
    simp [Scope.hasFunction, Scope.bind, function, List.mem_insert_iff, eq_comm (a := name)]

theorem Filed.bind (filed : scope.Filed pool) (free : scope.find? key = none) (resolved : ref.resolve pool = .ok new)
    (stays : symbol.Stays new) (named : symbol.isFunction = false → symbol.name = .ok key) :
    (scope.bind key symbol ref).Filed pool := by
  intro other twin found
  rcases (find?_bind_iff free).mp found with ⟨rfl, rfl⟩ | before
  · have noted (isFunction : symbol.isFunction = true) : (scope.bind other symbol twin).hasFunction symbol.rawName = true :=
      hasFunction_bind_iff.mpr (.inl ⟨isFunction, rfl⟩)
    rw [← stays.isFunction, ← stays.rawName] at noted
    rw [← stays.isFunction, ← stays.name] at named
    exact ⟨new, resolved, noted, named⟩
  · obtain ⟨held, again, noted, keyed⟩ := filed other twin before
    exact ⟨held, again, fun isFunction => hasFunction_bind_iff.mpr (.inr (noted isFunction)), keyed⟩

/-- Names stay apart where a symbol is bound, unless it is nameless and a function has the name generated for it. -/
theorem Filed.apart_bind_iff (filed : scope.Filed pool) (admits : scope.admits key symbol = true)
    (resolved : ref.resolve pool = .ok new) (stays : symbol.Stays new)
    (named : symbol.isFunction = false → symbol.name = .ok key) (apart : scope.Apart pool) :
    (scope.bind key symbol ref).Apart pool ↔
      ¬ (symbol.isFunction = false ∧ symbol.rawName = "" ∧ scope.BindsFunction pool key) := by
  have free := find?_of_admits admits
  constructor
  · rintro later ⟨plain, _, binds⟩
    have own : new.isFunction = false ∧ new.name = .ok key := ⟨stays.isFunction.trans plain, stays.name.trans (named plain)⟩
    exact later key ⟨(bindsSuch_bind free resolved).mpr (.inr binds), (bindsSuch_bind free resolved).mpr (.inl own)⟩
  · rintro honest name ⟨function, other⟩
    rcases (bindsSuch_bind free resolved).mp function with ⟨called, rfl⟩ | function <;>
      rcases (bindsSuch_bind free resolved).mp other with ⟨plain, own⟩ | other
    case inl.inl => cases called.symm.trans plain
    case inl.inr =>
      have untaken := binds_of_admits admits (stays.isFunction.symm.trans called)
      rw [← stays.rawName, filed.binds other] at untaken
      cases untaken
    case inr.inl =>
      have plain : symbol.isFunction = false := stays.isFunction.symm.trans plain
      obtain rfl := Except.ok.inj ((named plain).symm.trans (stays.name.symm.trans own))
      by_cases nameless : symbol.rawName = ""
      · exact honest ⟨plain, nameless, function⟩
      · have untaken := hasFunction_of_admits admits plain
        rw [Symbol.rawName_of_name (named plain) nameless, filed.hasFunction function] at untaken
        cases untaken
    case inr.inr => exact apart name ⟨function, other⟩

theorem filed_empty (pool : Pool) : Filed {} pool := fun _ _ found => nomatch found

theorem apart_empty (pool : Pool) : Apart {} pool := by
  rintro name ⟨⟨_, _, _, found, _⟩, _⟩
  cases found

/-- The built-ins all have written names. -/
theorem builtIn_apart (profile : Profile) (pool : Pool) : (builtIn profile).Filed pool ∧ (builtIn profile).Apart pool := by
  apply builtIn_induct (motive := fun scope => scope.Filed pool ∧ scope.Apart pool) profile ⟨filed_empty pool, apart_empty pool⟩
  rintro scope later symbol ⟨filed, apart⟩ inserted
  have admits := admits_of_insert? inserted
  have resolved : (SymbolRef.builtIn symbol).resolve pool = .ok symbol.symbol := rfl
  have named (plain : symbol.symbol.isFunction = false) := Symbol.name_of_mangled plain (symbol.mangled_symbol pool)
  rw [insert?_eq_some inserted]
  constructor
  · exact filed.bind (find?_of_admits admits) resolved (.refl _) named
  · apply (filed.apart_bind_iff admits resolved (.refl _) named apart).mpr
    exact fun ⟨_, nameless, _⟩ => symbol.name_ne_empty nameless

end Scope

/-! ### Tables -/

/-- The operation runs passes, which give structures other names than the ones that they are bound under. -/
def Operation.isCompilation : Operation → Bool
  | runPass _ _ _ | compile _ _ => true
  | _ => false

/-- A nameless symbol is bound where a function has the name that is generated for it. -/
inductive Operation.Usurps (table : SymbolTable) : Operation → Prop where
  | intro {handle : SymbolHandle} {symbol : Symbol} {key : String} {after : SymbolTable}
      (found : table.pool.get? handle = some symbol) (plain : symbol.isFunction = false) (nameless : symbol.rawName = "")
      (binds : table.declare handle = .ok (.bound key, after)) (taken : table.current.BindsFunction table.pool key) :
      Usurps table (.declare handle)

namespace SymbolTable

def Apart (table : SymbolTable) : Prop := ∀ scope ∈ table.scopes, scope.Apart table.pool

def Filed (table : SymbolTable) : Prop := ∀ scope ∈ table.scopes, scope.Filed table.pool

theorem Symbolwise.keeps (stays : table.Symbolwise Symbol.Stays after) : table.pool.Keeps after.pool := by
  intro ref symbol resolved
  cases ref with
  | builtIn => exact ⟨symbol, resolved, .refl symbol⟩
  | pool handle =>
    obtain ⟨new, held, same⟩ := stays handle symbol (Arena.read_eq_ok.mp resolved)
    exact ⟨new, Arena.read_eq_ok.mpr held, same⟩

theorem filed_new (profile : Profile) : (SymbolTable.new profile).Filed := by
  intro scope member
  obtain rfl | rfl : scope = {} ∨ scope = .builtIn profile := by simpa [scopes, SymbolTable.new] using member
  · exact Scope.filed_empty _
  · exact (Scope.builtIn_apart profile _).1

theorem apart_new (profile : Profile) : (SymbolTable.new profile).Apart := by
  intro scope member
  obtain rfl | rfl : scope = {} ∨ scope = .builtIn profile := by simpa [scopes, SymbolTable.new] using member
  · exact Scope.apart_empty _
  · exact (Scope.builtIn_apart profile _).2

def KeepsScopes (first second : SymbolTable) : Prop := ∀ scope ∈ second.scopes, scope = {} ∨ scope ∈ first.scopes

theorem SameScopes.keepsScopes (same : first.SameScopes second) : first.KeepsScopes second :=
  fun _ member => .inr (same.scopes ▸ member)

namespace Filed

theorem keepsScopes (filed : table.Filed) (stays : table.Symbolwise Symbol.Stays after) (keeps : table.KeepsScopes after) :
    after.Filed := by
  intro scope member
  rcases keeps scope member with rfl | before
  · exact Scope.filed_empty _
  · exact (filed scope before).keeps stays.keeps

theorem apart_keepsScopes (filed : table.Filed) (apart : table.Apart) (stays : table.Symbolwise Symbol.Stays after)
    (keeps : table.KeepsScopes after) : after.Apart := by
  intro scope member
  rcases keeps scope member with rfl | before
  · exact Scope.apart_empty _
  · exact ((filed scope before).apart_iff stays.keeps).mpr (apart scope before)

end Filed

/-- Unless it declares a symbol or is a compilation, an operation touches no scope that it leaves. -/
theorem quiet_of_effect (effect : operation.Effect table after) (uncompiled : operation.isCompilation = false)
    (undeclared : ∀ handle, operation ≠ .declare handle) :
    table.Symbolwise Symbol.Stays after ∧ table.KeepsScopes after := by
  cases effect with
  | plain _ changes =>
    have same : table.SameScopes after :=
      changes.preserves (fun earlier change => earlier.trans change.sameScopes) (.refl table)
    exact ⟨changes.stays, same.keepsScopes⟩
  | share shares => exact ⟨shares.stays, shares.sameScopes.keepsScopes⟩
  | declare => exact absurd rfl (undeclared _)
  | push =>
    constructor
    · exact .of_pool .refl rfl
    · exact fun scope member => List.mem_cons.mp member
  | pop locals =>
    constructor
    · exact .of_pool .refl rfl
    · intro scope member
      simp only [scopes, locals]
      exact .inr (List.mem_cons_of_mem _ member)
  | pass | compile => cases uncompiled

structure Binds (table : SymbolTable) (handle : SymbolHandle) (symbol : Symbol) (key : String) (after : SymbolTable) :
    Prop where
  admits : table.current.admits key symbol = true
  named : symbol.isFunction = false → symbol.name = .ok key
  resolved : ∃ new, (SymbolRef.pool handle).resolve after.pool = .ok new ∧ symbol.Stays new
  scopes : after.scopes = table.current.bind key symbol (.pool handle) :: table.enclosing

theorem Declares.binds {outcome : Declaration} (declares : table.Declares handle symbol outcome after)
    (found : table.pool.get? handle = some symbol) : (table.SameScopes after ∧ ∀ key, outcome ≠ .bound key) ∨
      ∃ key, outcome = .bound key ∧ table.Binds handle symbol key after := by
  obtain ⟨new, held, stays⟩ := declares.stays found handle symbol found
  cases declares with
  | nameless _ puts => exact .inl ⟨puts.sameScopes, nofun⟩
  | taken _ _ puts _ => exact .inl ⟨puts.sameScopes, nofun⟩
  | @bound key between scope _ mangled puts inserted =>
    have scopes : (between.withCurrent scope).scopes = table.current.bind key symbol (.pool handle) :: table.enclosing := by
      rw [scopes_withCurrent, puts.sameScopes.enclosing, Scope.insert?_eq_some inserted]
    exact .inr ⟨key, rfl, Scope.admits_of_insert? inserted, fun plain => Symbol.name_of_mangled plain mangled,
      ⟨new, Arena.read_eq_ok.mpr held, stays⟩, scopes⟩

namespace Filed

variable {outcome : Declaration}

theorem current (filed : table.Filed) : table.current.Filed table.pool :=
  filed _ (scopes_eq table ▸ List.mem_cons_self)

theorem enclosing (filed : table.Filed) : ∀ scope ∈ table.enclosing, scope.Filed table.pool :=
  fun scope outer => filed scope (scopes_eq table ▸ List.mem_cons_of_mem _ outer)

theorem declares (filed : table.Filed) (found : table.pool.get? handle = some symbol)
    (declares : table.Declares handle symbol outcome after) : after.Filed := by
  have keeps := (declares.stays found).keeps
  rcases declares.binds found with ⟨same, _⟩ | ⟨key, _, binds⟩
  · exact filed.keepsScopes (declares.stays found) same.keepsScopes
  · obtain ⟨new, resolved, aged⟩ := binds.resolved
    rw [SymbolTable.Filed, binds.scopes, List.forall_mem_cons]
    constructor
    · exact (filed.current.keeps keeps).bind (Scope.find?_of_admits binds.admits) resolved aged binds.named
    · exact fun scope outer => (filed.enclosing scope outer).keeps keeps

theorem apart_declares_iff (filed : table.Filed) (apart : table.Apart) (found : table.pool.get? handle = some symbol)
    (declares : table.Declares handle symbol outcome after) : after.Apart ↔
      ¬ (symbol.isFunction = false ∧ symbol.rawName = "" ∧
        ∃ key, outcome = .bound key ∧ table.current.BindsFunction table.pool key) := by
  have keeps := (declares.stays found).keeps
  rcases declares.binds found with ⟨same, unbound⟩ | ⟨key, bound, binds⟩
  · apply iff_of_true (filed.apart_keepsScopes apart (declares.stays found) same.keepsScopes)
    rintro ⟨_, _, key, is, _⟩
    exact unbound key is
  · obtain ⟨new, resolved, aged⟩ := binds.resolved
    rw [SymbolTable.Apart, scopes_eq, List.forall_mem_cons] at apart
    have innermost := (filed.current.apart_iff keeps).mpr apart.1
    have others : ∀ scope ∈ table.enclosing, scope.Apart after.pool := fun scope outer =>
      ((filed.enclosing scope outer).apart_iff keeps).mpr (apart.2 scope outer)
    rw [SymbolTable.Apart, binds.scopes, List.forall_mem_cons, and_iff_left others,
      (filed.current.keeps keeps).apart_bind_iff binds.admits resolved aged binds.named innermost,
      filed.current.bindsFunction_iff keeps]
    simp [bound]

end Filed

theorem usurps_declare_iff {outcome : Declaration} (found : table.pool.get? handle = some symbol)
    (done : table.declare handle = .ok (outcome, after)) : (Operation.declare handle).Usurps table ↔
      symbol.isFunction = false ∧ symbol.rawName = "" ∧
        ∃ key, outcome = .bound key ∧ table.current.BindsFunction table.pool key := by
  constructor
  · rintro ⟨again, plain, nameless, binds, taken⟩
    obtain rfl := Option.some.inj (found.symm.trans again)
    obtain ⟨rfl, _⟩ := Prod.mk.inj (Except.ok.inj (done.symm.trans binds))
    exact ⟨plain, nameless, _, rfl, taken⟩
  · rintro ⟨plain, nameless, key, rfl, taken⟩
    exact .intro found plain nameless done taken

/-- What a step other than a compilation does to the names of a table. -/
theorem Filed.perform (filed : table.Filed) (performed : operation.perform table = .ok after)
    (uncompiled : operation.isCompilation = false) :
    after.Filed ∧ (table.Apart → (after.Apart ↔ ¬ operation.Usurps table)) := by
  by_cases declared : ∃ handle, operation = .declare handle
  · obtain ⟨handle, rfl⟩ := declared
    obtain ⟨outcome, done⟩ := Operation.map_snd_eq_ok.mp performed
    obtain ⟨symbol, found, declares⟩ := exists_declares done
    have usurps := usurps_declare_iff found done
    exact ⟨filed.declares found declares, fun apart =>
      (filed.apart_declares_iff apart found declares).trans (not_congr usurps.symm)⟩
  · obtain ⟨stays, keeps⟩ := quiet_of_effect (Operation.perform_effect performed) uncompiled fun handle is => declared ⟨handle, is⟩
    have honest : ¬ operation.Usurps table := by
      rintro ⟨⟩
      exact declared ⟨_, rfl⟩
    exact ⟨filed.keepsScopes stays keeps, fun apart => iff_of_true (filed.apart_keepsScopes apart stays keeps) honest⟩

/-- Along a run without compilations functions and other symbols of a scope go by different names, in whichever order
they are declared, just if no nameless symbol is bound where a function has the name that is generated for it. -/
theorem run_apart_iff (profile : Profile) (operations : List Operation)
    (uncompiled : ∀ operation ∈ operations, operation.isCompilation = false) :
    (∀ table, (SymbolTable.new profile).Meets operations table → table.Apart) ↔ ∀ past operation before after,
      past ++ [operation] <+: operations → (SymbolTable.new profile).run past = .ok before →
        operation.perform before = .ok after → ¬ operation.Usurps before := by
  refine meets_iff (apart_new profile) fun past operation before after inside done performed => ?_
  have listed {one : Operation} (member : one ∈ past ++ [operation]) : one.isCompilation = false :=
    uncompiled one (inside.subset member)
  have filed : before.Filed := run_preserves
    (fun member filed performed => (filed.perform performed (listed (List.mem_append_left _ member))).1) done (filed_new profile)
  exact (filed.perform performed (listed (List.mem_append_right past List.mem_cons_self))).2

def functionFirst : List Operation :=
  [.createFunction "s61" .userDefined .void false, .declare ⟨0⟩, .createVariable "" .float .toolInternal, .declare ⟨1⟩]

theorem run_apart_iff_functionFirst : ∃ table, (SymbolTable.new {}).run functionFirst = .ok table ∧
    table.current.bindings = [("s61", .pool ⟨1⟩), ("s61(", .pool ⟨0⟩)] ∧
    ¬ ∀ table, (SymbolTable.new {}).Meets functionFirst table → table.Apart := by
  refine ⟨_, rfl, rfl, fun all => ?_⟩
  have honest := (run_apart_iff {} functionFirst (by decide)).mp all
    [.createFunction "s61" .userDefined .void false, .declare ⟨0⟩, .createVariable "" .float .toolInternal] (.declare ⟨1⟩)
    _ _ (List.prefix_refl _) rfl rfl
  exact honest (.intro rfl rfl rfl rfl ⟨"s61(", .pool ⟨0⟩, _, rfl, rfl, rfl, rfl⟩)

end SymbolTable
end ShaderTree
