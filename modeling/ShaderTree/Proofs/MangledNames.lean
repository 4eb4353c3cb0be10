import ShaderTree.Proofs.Aging
import ShaderTree.Proofs.Encodings

/-! Whether functions remember the mangled names that they have. Two things make a function remember another
one: to take over what a function of another name remembers, and to have a structure in its parameters
renamed. Nothing else does. -/
namespace ShaderTree

variable {table first second after : SymbolTable} {handle : SymbolHandle} {symbol old new : Symbol}
  {function former : Function} {operation : Operation} {name key : String} {ty : Ty}

/-- Each function, asked for its mangled name, answers the one that is made of its name and its parameters
as they are now. -/
def SymbolTable.Coherent (table : SymbolTable) : Prop := ∀ handle symbol function, table.pool.get? handle = some symbol →
  symbol.kind = .function function → function.mangled symbol.rawName table.pool = function.buildMangled symbol.rawName table.pool

/-- The operation makes some function remember a mangled name that it does not have. -/
inductive Operation.Misleads (table : SymbolTable) : Operation → SymbolTable → Prop where
  /-- The prototype remembers its own mangled name, and the definition has another name. -/
  | share {definition prototype : SymbolHandle} {target source : Symbol} {function : Function} {name : String}
      {after : SymbolTable} (found : table.pool.get? definition = some target)
      (sourceFound : table.pool.get? prototype = some source) (kind : source.kind = .function function)
      (remembers : function.signature.mangled? = some name) (differs : target.rawName ≠ source.rawName) :
      Misleads table (.shareParameters definition prototype) after
  /-- A parameter has the type of a structure that is renamed. -/
  | rename {operation : Operation} {handle place : SymbolHandle} {symbol old new : Symbol} {function : Function}
      {name : String} {parameter : SymbolRef} {ty : Ty} {after : SymbolTable} (found : table.pool.get? handle = some symbol)
      (kind : symbol.kind = .function function) (remembers : function.signature.mangled? = some name)
      (listed : parameter ∈ function.parameters) (known : table.variableType? parameter = some ty)
      (refers : ty.reference? = some (.pool place)) (before : table.pool.get? place = some old)
      (later : after.pool.get? place = some new) (renamed : new.rawName ≠ old.rawName) : Misleads table operation after

theorem Symbol.Ages.tag (ages : old.Ages new) (same : new.rawName = old.rawName) : new.tag = old.tag := by
  simp only [Symbol.tag, ages.origin, ages.id, same]

/-- A tag gets no shorter, and it gets longer with a new name. -/
theorem Symbol.Ages.tag_length (ages : old.Ages new) : old.tag.length ≤ new.tag.length ∧
    (new.tag.length ≤ old.tag.length → old.origin ≠ .empty → new.rawName = old.rawName) := by
  unfold Symbol.tag
  rw [ages.origin, ages.id]
  split
  case isTrue empty => exact ⟨Nat.le_refl _, fun _ named => absurd empty named⟩
  case isFalse =>
    have bound := ages.suffix.length_le
    simp only [String.length_append, String.length_toList] at bound ⊢
    refine ⟨by omega, fun short _ => ?_⟩
    have same : old.rawName.toList.length = new.rawName.toList.length := by
      simp only [String.length_toList]
      omega
    exact (String.toList_inj.mp (ages.suffix.eq_of_length same)).symm

namespace SymbolTable

/-- What is remembered is what would be built, where anything is remembered. -/
theorem coherent_iff_remembered : table.Coherent ↔ ∀ handle symbol function name, table.pool.get? handle = some symbol →
    symbol.kind = .function function → function.signature.mangled? = some name →
    function.buildMangled symbol.rawName table.pool = .ok name := by
  constructor
  · intro coherent handle symbol function name found kind remembers
    rw [← coherent handle symbol function found kind, Function.mangled, remembers]
  · intro remembered handle symbol function found kind
    cases remembers : function.signature.mangled? with
    | none => rw [Function.mangled, remembers]
    | some name => rw [remembered handle symbol function name found kind remembers, Function.mangled, remembers]

/-- In a coherent table, the mangled name of a function is the one built now. -/
theorem Coherent.mangled (coherent : table.Coherent) (found : table.pool.get? handle = some symbol)
    (kind : symbol.kind = .function function) (named : symbol.origin ≠ .empty) :
    Prod.fst <$> table.mangled (.pool handle) = function.buildMangled symbol.rawName table.pool := by
  rw [mangled_fst found, Symbol.mangled, if_neg named, kind]
  exact coherent handle symbol function found kind

/-! ### Codes over time -/

/-- A code depends on the tags of what the type refers to. -/
theorem mangled_kept {code : String} (kept : ∀ place old, ty.reference? = some (.pool place) → first.pool.get? place = some old →
      ∃ new, second.pool.get? place = some new ∧ new.tag = old.tag)
    (mangled : ty.mangled first.pool = .ok code) : ty.mangled second.pool = .ok code := by
  obtain ⟨text, shape, rfl⟩ := Ty.mangled_eq_ok.mp mangled
  refine Ty.mangled_eq_ok.mpr ⟨text, ?_, rfl⟩
  obtain ⟨form, _, _, _⟩ := ty
  cases form with
  | struct ref | block ref =>
    obtain ⟨old, resolved, same⟩ := bind_eq_ok.mp shape
    obtain rfl := pure_eq_ok.mp same
    cases ref with
    | builtIn => exact shape
    | pool place =>
      obtain ⟨new, held, tag⟩ := kept place old rfl (Arena.read_eq_ok.mp resolved)
      exact bind_eq_ok.mpr ⟨new, Arena.read_eq_ok.mpr held, pure_eq_ok.mpr tag⟩
  | _ => exact shape

theorem variableType?_kept {parameter : SymbolRef} (ages : first.Symbolwise Symbol.Ages second)
    (known : first.variableType? parameter = some ty) : second.variableType? parameter = some ty := by
  obtain ⟨symbol, var, resolved, is, rfl⟩ := variableType?_eq_some.mp known
  cases parameter with
  | builtIn => exact known
  | pool place =>
    obtain ⟨later, held, aged⟩ := ages place symbol (Arena.read_eq_ok.mp resolved)
    have type := aged.asVariable?
    rw [is] at type
    obtain ⟨other, used, same⟩ := Option.map_eq_some_iff.mp type
    exact variableType?_eq_some.mpr ⟨later, other, Arena.read_eq_ok.mpr held, used, same⟩

theorem parameterTypes_kept {types : List Ty} (ages : first.Symbolwise Symbol.Ages second)
    (known : function.ParameterTypes first types) : function.ParameterTypes second types :=
  known.imp fun _ _ => variableType?_kept ages

/-- A mangled name is built again, as long as the structures in the parameters keep their names. -/
theorem buildMangled_kept (ages : first.Symbolwise Symbol.Ages second)
    (kept : ∀ parameter ty place old new, parameter ∈ function.parameters → first.variableType? parameter = some ty →
      ty.reference? = some (.pool place) → first.pool.get? place = some old → second.pool.get? place = some new →
      new.rawName = old.rawName)
    (built : function.buildMangled name first.pool = .ok key) : function.buildMangled name second.pool = .ok key := by
  obtain ⟨types, codes, known, mangled, rfl⟩ := Function.buildMangled_eq_ok.mp built
  refine Function.buildMangled_eq_ok.mpr ⟨types, codes, parameterTypes_kept ages known, mapM_eq_ok.mpr ?_, rfl⟩
  have tags : ∀ ty ∈ types, ∀ place old, ty.reference? = some (.pool place) → first.pool.get? place = some old →
      ∃ new, second.pool.get? place = some new ∧ new.tag = old.tag := by
    intro ty member place old refers found
    obtain ⟨parameter, listed, is⟩ := exists_of_mem_right known member
    obtain ⟨new, held, aged⟩ := ages place old found
    exact ⟨new, held, aged.tag (kept parameter ty place old new listed is refers found held)⟩
  have each := (List.forall₂_and_left types codes).mpr ⟨tags, mapM_eq_ok.mp mangled⟩
  exact each.imp fun _ _ ⟨tag, encoded⟩ => mangled_kept tag encoded

/-! ### Steps -/

def Answers (table : SymbolTable) (handle : SymbolHandle) (symbol : Symbol) (function : Function) (name : String) : Prop :=
  ∃ old former, table.pool.get? handle = some old ∧ old.kind = .function former ∧ old.rawName = symbol.rawName ∧
    former.parameters = function.parameters ∧ former.mangled old.rawName table.pool = .ok name

theorem answers_remembered (found : table.pool.get? handle = some symbol) (kind : symbol.kind = .function function)
    (remembers : function.signature.mangled? = some name) : table.Answers handle symbol function name :=
  ⟨symbol, function, found, kind, rfl, rfl, by rw [Function.mangled, remembers]⟩

theorem Puts.answers {place : SymbolHandle} (puts : table.Puts place new after)
    (here : ∀ function, new.kind = .function function → function.signature.mangled? = some name →
      table.Answers place new function name)
    (found : after.pool.get? handle = some symbol) (kind : symbol.kind = .function function)
    (remembers : function.signature.mangled? = some name) : table.Answers handle symbol function name := by
  by_cases same : handle = place
  · subst same
    obtain rfl := Option.some.inj (puts.found.symm.trans found)
    exact here function kind remembers
  · exact answers_remembered ((puts.others handle same).symm.trans found) kind remembers

theorem answers_remember {asked : String} (found : table.pool.get? handle = some old) (was : old.kind = .function former)
    (mangled : old.mangled table.pool = .ok asked) (remembers : (former.remember asked).signature.mangled? = some name) :
    table.Answers handle { old with kind := .function (former.remember asked) } (former.remember asked) name := by
  cases signature : former.signature with
  | growing parameters =>
    have answered : former.mangled old.rawName table.pool = .ok asked := by
      unfold Symbol.mangled at mangled
      split at mangled
      · cases mangled
      · simpa only [was] using mangled
    simp only [Function.remember, signature] at remembers ⊢
    obtain rfl := Option.some.inj remembers
    exact ⟨old, former, found, was, rfl, by simp [Function.parameters, signature, Signature.parameters], answered⟩
  | fixed parameters mangled =>
    simp only [Function.remember, signature] at remembers ⊢
    exact ⟨old, former, found, was, rfl, rfl, by rw [Function.mangled, signature, remembers]⟩

theorem Edits.answers {kind : SymbolKind} (found : table.pool.get? handle = some old) (edits : table.Edits old kind)
    (is : kind = .function function) (remembers : function.signature.mangled? = some name) :
    table.Answers handle { old with kind } function name := by
  cases edits with
  | constant => cases is
  | mark was =>
    obtain rfl := SymbolKind.function.inj is
    exact ⟨old, _, found, was, rfl, rfl, by rw [Function.mangled, remembers]⟩
  | extend =>
    obtain rfl := SymbolKind.function.inj is
    cases remembers
  | remember was mangled =>
    obtain rfl := SymbolKind.function.inj is
    exact answers_remember found was mangled remembers

theorem answers_placed {isGlobal : Bool} (found : table.pool.get? handle = some old)
    (kind : (old.placed isGlobal).kind = .function function) (remembers : function.signature.mangled? = some name) :
    table.Answers handle (old.placed isGlobal) function name := by
  cases was : old.kind with
  | function former =>
    have same : old.placed isGlobal = old := by simp [Symbol.placed, was]
    rw [same] at kind ⊢
    exact answers_remembered found kind remembers
  | _ => simp [Symbol.placed, was] at kind

theorem answers_declared {isGlobal : Bool} (found : table.pool.get? handle = some old)
    (mangled : old.mangled table.pool = .ok key)
    (kind : ((old.placed isGlobal).remembering key).kind = .function function)
    (remembers : function.signature.mangled? = some name) :
    table.Answers handle ((old.placed isGlobal).remembering key) function name := by
  cases was : old.kind with
  | function former =>
    have same : (old.placed isGlobal).remembering key = { old with kind := .function (former.remember key) } := by
      simp [Symbol.placed, Symbol.remembering, was]
    rw [same] at kind ⊢
    obtain rfl := SymbolKind.function.inj kind
    exact answers_remember found was mangled remembers
  | _ => simp [Symbol.placed, Symbol.remembering, was] at kind

/-- What is remembered after a change is what would have been answered before it. -/
theorem Change.answers (change : table.Change after) (found : after.pool.get? handle = some symbol)
    (kind : symbol.kind = .function function) (remembers : function.signature.mangled? = some name) :
    table.Answers handle symbol function name := by
  cases change with
  | create made created =>
    rw [create_append created] at found
    rcases Arena.get?_append_eq_some found with earlier | ⟨rfl, rfl⟩
    · exact answers_remembered earlier kind remembers
    · -- the function that is new remembers nothing
      cases made with
      | function =>
        obtain rfl := SymbolKind.function.inj kind
        cases remembers
      | _ => cases kind
  | edit held edits puts => exact puts.answers (fun _ is remembers => edits.answers held is remembers) found kind remembers
  | constant => exact answers_remembered found kind remembers

theorem Declares.answers {place : SymbolHandle} {outcome : Declaration} (declares : table.Declares place old outcome after)
    (held : table.pool.get? place = some old) (found : after.pool.get? handle = some symbol)
    (kind : symbol.kind = .function function) (remembers : function.signature.mangled? = some name) :
    table.Answers handle symbol function name := by
  cases declares with
  | nameless _ puts => exact puts.answers (fun _ => answers_placed held) found kind remembers
  | bound _ mangled puts =>
    rw [withCurrent_pool] at found
    exact puts.answers (fun _ => answers_declared held mangled) found kind remembers
  | taken _ mangled puts => exact puts.answers (fun _ => answers_declared held mangled) found kind remembers

theorem buildMangled_stays (stays : first.Symbolwise Symbol.Stays second)
    (built : function.buildMangled name first.pool = .ok key) : function.buildMangled name second.pool = .ok key := by
  refine buildMangled_kept (stays.imp Symbol.Stays.toAges) ?_ built
  intro _ _ place old new _ _ _ found held
  obtain ⟨later, again, same⟩ := stays place old found
  obtain rfl := Option.some.inj (again.symm.trans held)
  exact same.rawName

/-- What was answered right stays right where no symbol is renamed. -/
theorem Coherent.of_answers (coherent : table.Coherent) (stays : table.Symbolwise Symbol.Stays after)
    (answers : table.Answers handle symbol function name) : function.buildMangled symbol.rawName after.pool = .ok name := by
  obtain ⟨old, former, found, kind, rawName, parameters, answered⟩ := answers
  rw [coherent handle old former found kind, Function.buildMangled_congr parameters, rawName] at answered
  exact buildMangled_stays stays answered

theorem Coherent.change (coherent : table.Coherent) (change : table.Change after) : after.Coherent :=
  coherent_iff_remembered.mpr fun _ _ _ _ found kind remembers =>
    coherent.of_answers change.stays (change.answers found kind remembers)

theorem Coherent.declares {place : SymbolHandle} {outcome : Declaration} (coherent : table.Coherent)
    (held : table.pool.get? place = some old) (declares : table.Declares place old outcome after) : after.Coherent :=
  coherent_iff_remembered.mpr fun _ _ _ _ found kind remembers =>
    coherent.of_answers (declares.stays held) (declares.answers held found kind remembers)

/-! ### Shared parameters -/

theorem rawName_of_stays {place : SymbolHandle} (stays : table.Symbolwise Symbol.Stays after)
    (before : table.pool.get? place = some old) (later : after.pool.get? place = some new) : new.rawName = old.rawName := by
  obtain ⟨_, held, same⟩ := stays place old before
  obtain rfl := Option.some.inj (held.symm.trans later)
  exact same.rawName

/-- A definition may share the parameters of a prototype of its name, and of one that remembers nothing. -/
theorem Coherent.shares_iff {definition prototype : SymbolHandle} (coherent : table.Coherent)
    (shares : table.Shares definition prototype after) :
    after.Coherent ↔ ¬ Operation.Misleads table (.shareParameters definition prototype) after := by
  have stays := shares.stays
  have remembered := coherent_iff_remembered.mp coherent
  obtain @⟨target, source, function, sharing, _, _, _, found, kind, sourceFound, sourceKind, signature, puts⟩ := shares
  rw [← signature] at puts
  constructor
  · intro later misleads
    cases misleads with
    | @share _ _ _ _ _ name _ found' sourceFound' kind' remembers differs =>
      obtain rfl := Option.some.inj (found.symm.trans found')
      obtain rfl := Option.some.inj (sourceFound.symm.trans sourceFound')
      obtain rfl := SymbolKind.function.inj (sourceKind.symm.trans kind')
      have own := buildMangled_stays stays (remembered prototype source sharing name sourceFound sourceKind remembers)
      have taken := coherent_iff_remembered.mp later definition _ _ name puts.found rfl remembers
      exact differs (Function.name_of_buildMangled ((Function.buildMangled_congr rfl).trans taken) own)
    | rename _ _ _ _ _ _ before later renamed => exact renamed (rawName_of_stays stays before later)
  · intro honest
    refine coherent_iff_remembered.mpr fun handle symbol function' name held is remembers => ?_
    by_cases here : handle = definition
    -- the definition answers for the prototype, which has its name
    · subst here
      obtain rfl := Option.some.inj (puts.found.symm.trans held)
      obtain rfl := SymbolKind.function.inj is
      have same : target.rawName = source.rawName := by
        by_contra differs
        exact honest (.share found sourceFound sourceKind remembers differs)
      have own := remembered prototype source sharing name sourceFound sourceKind remembers
      rw [← same] at own
      exact buildMangled_stays stays ((Function.buildMangled_congr rfl).trans own)
    · rw [puts.others handle here] at held
      exact buildMangled_stays stays (remembered handle symbol function' name held is remembers)

/-! ### Renamed structures -/

variable {code text : String} {types : List Ty} {codes texts : List String}

def KeepsName (first second : SymbolTable) (ty : Ty) : Prop := ∀ place old new, ty.reference? = some (.pool place) →
  first.pool.get? place = some old → second.pool.get? place = some new → old.origin ≠ .empty → new.rawName = old.rawName

/-- The code of a type gets no shorter, and it gets longer if what the type refers to is renamed. -/
theorem mangled_length (ages : first.Symbolwise Symbol.Ages second) (one : ty.mangled first.pool = .ok code)
    (other : ty.mangled second.pool = .ok text) :
    code.length ≤ text.length ∧ (text.length ≤ code.length → KeepsName first second ty) := by
  obtain ⟨front, shape, rfl⟩ := Ty.mangled_eq_ok.mp one
  obtain ⟨back, again, rfl⟩ := Ty.mangled_eq_ok.mp other
  simp only [String.length_append]
  suffices front.length ≤ back.length ∧ (back.length ≤ front.length → KeepsName first second ty) from
    ⟨by omega, fun short => this.2 (by omega)⟩
  clear one other
  obtain ⟨form, _, _, _⟩ := ty
  cases form with
  | struct ref | block ref =>
    obtain ⟨old, resolved, tag⟩ := bind_eq_ok.mp shape
    obtain ⟨new, found, later⟩ := bind_eq_ok.mp again
    obtain rfl := pure_eq_ok.mp tag
    obtain rfl := pure_eq_ok.mp later
    cases ref with
    | builtIn =>
      obtain rfl := Except.ok.inj (resolved.symm.trans found)
      exact ⟨Nat.le_refl _, fun _ _ _ _ refers => by cases refers⟩
    | pool place =>
      have before := Arena.read_eq_ok.mp resolved
      have after := Arena.read_eq_ok.mp found
      obtain ⟨_, held, aged⟩ := ages place old before
      obtain rfl := Option.some.inj (held.symm.trans after)
      obtain ⟨longer, kept⟩ := aged.tag_length
      refine ⟨longer, fun short other _ _ refers held holds => ?_⟩
      obtain rfl : place = other := by cases refers; rfl
      obtain rfl := Option.some.inj (before.symm.trans held)
      obtain rfl := Option.some.inj (after.symm.trans holds)
      exact kept short
  | _ =>
    obtain rfl := Except.ok.inj (shape.symm.trans again)
    exact ⟨Nat.le_refl _, fun _ _ _ _ refers => by cases refers⟩

/-- Where joined codes stay the same, nothing that their types refer to is renamed. -/
theorem keepsName_of_join (ages : first.Symbolwise Symbol.Ages second) (one : types.mapM (Ty.mangled first.pool) = .ok codes)
    (other : types.mapM (Ty.mangled second.pool) = .ok texts) :
    (String.join codes).length ≤ (String.join texts).length ∧
      ((String.join texts).length ≤ (String.join codes).length → ∀ ty ∈ types, KeepsName first second ty) := by
  rw [mapM_eq_ok] at one other
  induction one generalizing texts with
  | nil =>
    cases other
    exact ⟨Nat.le_refl _, fun _ _ member => absurd member List.not_mem_nil⟩
  | cons head _ ih =>
    cases other with
    | cons again rest =>
      obtain ⟨longer, keeps⟩ := mangled_length ages head again
      obtain ⟨more, others⟩ := ih rest
      simp only [String.join_cons, String.length_append]
      exact ⟨by omega, fun short => List.forall_mem_cons.mpr ⟨keeps (by omega), others (by omega)⟩⟩

theorem not_isLocal_of_function (kind : symbol.kind = .function function) : StructNames.isLocal symbol = false := by
  simp [StructNames.isLocal, Symbol.asStruct?, kind]

/-- A compilation touches no function. -/
theorem Renames.function_iff (renames : table.Renames after) (kind : symbol.kind = .function function) :
    after.pool.get? handle = some symbol ↔ table.pool.get? handle = some symbol := by
  have kept {old : Symbol} (is : old.kind = .function function) (held : table.pool.get? handle = some old) :
      after.pool.get? handle = some old := by
    obtain ⟨rawName, holds, same | inside⟩ := renames.continues.kept handle old held
    · rwa [same] at holds
    · simp [not_isLocal_of_function is] at inside
  refine ⟨fun found => ?_, kept kind⟩
  cases held : table.pool.get? handle with
  | none =>
    obtain ⟨_, _, rfl, _⟩ := renames.continues.added handle symbol held found
    cases kind
  | some old =>
    obtain ⟨_, holds, _⟩ := renames.continues.kept handle old held
    have is := Option.some.inj (found.symm.trans holds)
    have was : old.kind = .function function := by
      rw [is] at kind
      exact kind
    exact (kept was held).symm.trans found

theorem Renames.named_of_renamed {place : SymbolHandle} (renames : table.Renames after)
    (before : table.pool.get? place = some old) (later : after.pool.get? place = some new)
    (renamed : new.rawName ≠ old.rawName) : old.origin ≠ .empty := by
  obtain ⟨rawName, holds, same | inside⟩ := renames.continues.kept place old before
  · obtain rfl := Option.some.inj (later.symm.trans holds)
    exact absurd same renamed
  · intro empty
    simp [StructNames.isLocal, empty] at inside

theorem Coherent.renames_iff (coherent : table.Coherent) (renames : table.Renames after)
    (alone : ∀ definition prototype, operation ≠ .shareParameters definition prototype) :
    after.Coherent ↔ ¬ operation.Misleads table after := by
  have remembered := coherent_iff_remembered.mp coherent
  constructor
  · intro later misleads
    cases misleads with
    | share => exact alone _ _ rfl
    | @rename _ handle place symbol old new function name parameter ty _ found kind remembers listed known refers before after
        renamed =>
      obtain ⟨types, codes, typed, one, rfl⟩ :=
        Function.buildMangled_eq_ok.mp (remembered handle symbol function name found kind remembers)
      obtain ⟨others, texts, again, other, same⟩ := Function.buildMangled_eq_ok.mp
        (coherent_iff_remembered.mp later handle symbol function _ ((renames.function_iff kind).mpr found) kind remembers)
      obtain rfl := (parameterTypes_kept renames.ages typed).unique again
      have joined : String.join codes = String.join texts := by simpa only [String.append_right_inj] using same
      obtain ⟨declared, member, is⟩ := exists_of_mem_right typed.flip listed
      obtain rfl : ty = declared := Option.some.inj (known.symm.trans is)
      -- new names are longer, so that a name in the parameters that is new shows in the length
      have keeps := (keepsName_of_join renames.ages one other).2 (by rw [joined]) ty member
      exact renamed (keeps place old new refers before after (renames.named_of_renamed before after renamed))
  · intro honest
    refine coherent_iff_remembered.mpr fun handle symbol function name held kind remembers => ?_
    have found := (renames.function_iff kind).mp held
    refine buildMangled_kept renames.ages ?_ (remembered handle symbol function name found kind remembers)
    intro parameter ty place old new listed known refers before later
    by_contra renamed
    exact honest (.rename found kind remembers listed known refers before later renamed)

/-! ### Runs -/

theorem not_misleads_of_stays (stays : table.Symbolwise Symbol.Stays after)
    (alone : ∀ definition prototype, operation ≠ .shareParameters definition prototype) : ¬ operation.Misleads table after := by
  intro misleads
  cases misleads with
  | share => exact alone _ _ rfl
  | rename _ _ _ _ _ _ before later renamed => exact renamed (rawName_of_stays stays before later)

/-- A coherent table stays coherent in a step just if the step misleads no function. -/
theorem Coherent.effect_iff (coherent : table.Coherent) (effect : operation.Effect table after) :
    after.Coherent ↔ ¬ operation.Misleads table after := by
  cases effect with
  | plain plain changes =>
    have alone definition prototype : operation ≠ .shareParameters definition prototype := by
      rintro rfl
      exact plain
    exact iff_of_true (changes.preserves change coherent) (not_misleads_of_stays changes.stays alone)
  | share shares => exact coherent.shares_iff shares
  | declare found declares =>
    exact iff_of_true (coherent.declares found declares) (not_misleads_of_stays (declares.stays found) nofun)
  | push => exact iff_of_true coherent (not_misleads_of_stays (.of_pool .refl rfl) nofun)
  | pop => exact iff_of_true coherent (not_misleads_of_stays (.of_pool .refl rfl) nofun)
  | pass revises | compile revises => exact coherent.renames_iff revises.renames nofun

theorem coherent_new (profile : Profile) : (SymbolTable.new profile).Coherent := fun _ _ _ found => by cases found

/-- Along a run every function keeps answering its own mangled name, as it would be built then, just if no
definition takes over what a prototype of another name remembers, and no structure is renamed that is in the
parameters of a function which remembers its mangled name. -/
theorem coherent_iff (profile : Profile) (operations : List Operation) :
    ((∀ table, (SymbolTable.new profile).Meets operations table → table.Coherent) ↔
      ∀ past operation before after, past ++ [operation] <+: operations → (SymbolTable.new profile).run past = .ok before →
        operation.perform before = .ok after → ¬ operation.Misleads before after) ∧
    ∀ (table : SymbolTable) handle (symbol : Symbol) function, table.Coherent → table.pool.get? handle = some symbol →
      symbol.kind = .function function → symbol.origin ≠ .empty →
      Prod.fst <$> table.mangled (.pool handle) = function.buildMangled symbol.rawName table.pool := by
  constructor
  · exact meets_iff (coherent_new profile) fun _ _ _ _ _ _ performed coherent =>
      coherent.effect_iff (Operation.perform_effect performed)
  · exact fun _ _ _ _ coherent found kind named => coherent.mangled found kind named

/-- A definition `g` takes over what a prototype `f` remembers. -/
def takeover : List Operation :=
  [.createFunction "f" .userDefined .void false, .mangle (.pool ⟨0⟩), .createFunction "g" .userDefined .void false,
    .shareParameters ⟨1⟩ ⟨0⟩]

theorem coherent_iff_takeover : ∃ table, (SymbolTable.new {}).run takeover = .ok table ∧
    Prod.fst <$> table.mangled (.pool ⟨1⟩) = .ok "f(" ∧ ¬ ∀ table, (SymbolTable.new {}).Meets takeover table → table.Coherent := by
  refine ⟨_, rfl, rfl, fun all => ?_⟩
  have misleads := (coherent_iff {} takeover).1.mp all
    [.createFunction "f" .userDefined .void false, .mangle (.pool ⟨0⟩), .createFunction "g" .userDefined .void false]
    (.shareParameters ⟨1⟩ ⟨0⟩) _ _ (List.prefix_refl _) rfl rfl
  exact misleads (.share rfl rfl rfl rfl (by decide))

end SymbolTable
end ShaderTree
