import ShaderTree.Proofs.Encodings
import ShaderTree.Proofs.Identities

/-! Names generated for nameless variables, which are made of their identities. No two of them are the same, but
nothing keeps a program from writing one: a compilation takes the names of its temporaries as they come. -/
namespace ShaderTree

variable {table after : SymbolTable} {handle : SymbolHandle} {symbol : Symbol} {id : Identity}

/-- The name of a nameless variable. -/
def Identity.generated (id : Identity) : String := "s" ++ id.hex

theorem Identity.generated_ne_empty : id.generated ≠ "" := by
  intro same
  have chars := congrArg String.toList same
  simp [generated] at chars

theorem Identity.generated_inj {other : Identity} (same : id.generated = other.generated) : id = other := by
  have chars := congrArg String.toList same
  simp only [generated, hex, String.toList_append, String.toList_ofList, List.append_cancel_left_eq] at chars
  exact congrArg Identity.mk (toDigits_inj (by decide) (by decide) chars)

theorem Symbol.EnrolledAt.name (enrolled : symbol.EnrolledAt handle) (isVariable : symbol.isVariable = true) :
    symbol.name = .ok (if symbol.rawName = "" then symbol.id.generated else symbol.rawName) := by
  have origin := enrolled.origin
  have named := enrolled.named
  unfold Symbol.name Identity.generated
  cases from_ : symbol.origin <;> simp_all <;> split <;> rfl

namespace SymbolTable

/-- The name of a nameless variable is the name of no other variable. -/
def Hygienic (table : SymbolTable) : Prop :=
  ∀ handle other (symbol twin : Symbol), table.pool.get? handle = some symbol → table.pool.get? other = some twin →
    symbol.isVariable = true → twin.isVariable = true → symbol.rawName = "" → handle ≠ other → symbol.name ≠ twin.name

def Unwritten (table : SymbolTable) (id : Identity) : Prop :=
  ∀ handle (symbol : Symbol), table.pool.get? handle = some symbol → symbol.isVariable = true → symbol.rawName ≠ id.generated

/-- Generated names differ from each other, so that only written ones are in their way. -/
theorem Enrolled.hygienic_iff_unwritten (enrolled : table.Enrolled) : table.Hygienic ↔
    ∀ handle symbol, table.pool.get? handle = some symbol → symbol.isVariable = true → symbol.rawName = "" →
      table.Unwritten symbol.id := by
  constructor
  · intro hygienic handle symbol found isVariable nameless other twin held also written
    have named : twin.rawName ≠ "" := written ▸ Identity.generated_ne_empty
    have differs : handle ≠ other := by
      rintro rfl
      obtain rfl := Option.some.inj (found.symm.trans held)
      exact named nameless
    apply hygienic handle other symbol twin found held isVariable also nameless differs
    rw [(enrolled.each handle symbol found).name isVariable, (enrolled.each other twin held).name also, if_pos nameless,
      if_neg named, written]
  · intro unwritten handle other symbol twin found held isVariable also nameless differs same
    rw [(enrolled.each handle symbol found).name isVariable, (enrolled.each other twin held).name also, if_pos nameless] at same
    have names := Except.ok.inj same
    split at names
    case isTrue => exact differs (enrolled.handle_eq found held (Identity.generated_inj names))
    case isFalse => exact unwritten handle symbol found isVariable nameless other twin held also names.symm

theorem Continues.variable_kept (continues : table.Continues after) (found : table.pool.get? handle = some symbol)
    (isVariable : symbol.isVariable = true) : after.pool.get? handle = some symbol := by
  obtain ⟨rawName, held, same | inside⟩ := continues.kept handle symbol found
  · rw [same] at held
    exact held
  · -- structures only are renamed
    cases kind : symbol.kind <;> simp [Symbol.isVariable, StructNames.isLocal, Symbol.asStruct?, kind] at isVariable inside

/-- A variable was there before, as it is, or it is a temporary. -/
theorem Continues.variable_cases (continues : table.Continues after) (held : after.pool.get? handle = some symbol)
    (isVariable : symbol.isVariable = true) : table.pool.get? handle = some symbol ∨
      table.pool.get? handle = none ∧ symbol.rawName = "" := by
  cases found : table.pool.get? handle with
  | none =>
    obtain ⟨_, _, rfl, _⟩ := continues.added handle symbol found held
    exact .inr ⟨rfl, rfl⟩
  | some old =>
    obtain ⟨rawName, again, _⟩ := continues.kept handle old found
    obtain rfl := Option.some.inj (again.symm.trans held)
    exact .inl (again ▸ (continues.variable_kept found isVariable).symm)

theorem Continues.unwritten_iff (continues : table.Continues after) : after.Unwritten id ↔ table.Unwritten id := by
  constructor
  · intro unwritten handle symbol found isVariable
    exact unwritten handle symbol (continues.variable_kept found isVariable) isVariable
  · intro unwritten handle symbol held isVariable
    rcases continues.variable_cases held isVariable with found | ⟨_, nameless⟩
    · exact unwritten handle symbol found isVariable
    · exact nameless ▸ Identity.generated_ne_empty.symm

/-- A compilation keeps hygiene if no variable is written with the name of an identity that it hands out. -/
theorem Enrolled.hygienic_continues_iff (enrolled : table.Enrolled) (later : after.Enrolled) (continues : table.Continues after) :
    after.Hygienic ↔ table.Hygienic ∧
      ∀ number, table.supply.next ≤ number → number < after.supply.next → table.Unwritten ⟨number⟩ := by
  rw [enrolled.hygienic_iff_unwritten, later.hygienic_iff_unwritten, enrolled.next, later.next]
  constructor
  · intro unwritten
    constructor
    · intro handle symbol found isVariable nameless
      exact continues.unwritten_iff.mp (unwritten handle symbol (continues.variable_kept found isVariable) isVariable nameless)
    · intro number lower upper
      -- the identity is that of the symbol at the handle of this number, which is a temporary
      obtain ⟨index, rfl⟩ := Nat.exists_eq_add_of_le (Nat.le_of_add_right_le lower)
      obtain ⟨temporary, held⟩ : ∃ symbol, after.pool.get? ⟨index⟩ = some symbol :=
        Arena.get?_of_lt (Nat.lt_of_add_lt_add_left upper)
      have missing : table.pool.get? ⟨index⟩ = none :=
        Array.getElem?_eq_none_iff.mpr (Nat.le_of_add_le_add_left lower)
      have place := (later.each _ temporary held).id
      obtain ⟨_, _, rfl, _⟩ := continues.added _ temporary missing held
      exact continues.unwritten_iff.mp (place ▸ unwritten _ _ held rfl rfl)
  · rintro ⟨unwritten, others⟩ handle symbol held isVariable nameless
    apply continues.unwritten_iff.mpr
    rcases continues.variable_cases held isVariable with found | ⟨missing, _⟩
    · exact unwritten handle symbol found isVariable nameless
    · have outside : table.pool.size ≤ handle.index := Array.getElem?_eq_none_iff.mp missing
      have inside := Arena.get?_eq_some_lt held
      rw [(later.each handle symbol held).id]
      exact others _ (by omega) (by omega)

/-- In a table in reach every variable has a name, and nameless ones get the names of their identities. These are in
the way of no other variable but one that is written with such a name: there already, or with that of an identity
which a compilation hands out to a temporary. -/
theorem hygienic_iff (reachable : table.Reachable) :
    (∀ handle symbol, table.pool.get? handle = some symbol → symbol.isVariable = true →
      symbol.name = .ok (if symbol.rawName = "" then symbol.id.generated else symbol.rawName)) ∧
    (table.Hygienic ↔ ∀ handle symbol, table.pool.get? handle = some symbol → symbol.isVariable = true →
      symbol.rawName = "" → table.Unwritten symbol.id) ∧
    ∀ (compiler : Compiler) (tree : Tree) (after : SymbolTable), table.afterWork tree compiler.compile = .ok after →
      (after.Hygienic ↔ table.Hygienic ∧
        ∀ number, table.supply.next ≤ number → number < after.supply.next → table.Unwritten ⟨number⟩) := by
  have enrolled := reachable.enrolled
  constructor
  · exact fun handle symbol found isVariable => (enrolled.each handle symbol found).name isVariable
  constructor
  · exact enrolled.hygienic_iff_unwritten
  · intro compiler tree after done
    have performed : (Operation.compile compiler tree).perform table = .ok after := done
    have later := enrolled.effect (Operation.perform_effect performed)
    obtain ⟨_, _, ends, rfl⟩ := Operation.afterWork_eq_ok.mp done
    exact enrolled.hygienic_continues_iff later (compiler.compile_revises _ _ _ ends).continues

/-- A matrix and a vector. The next symbol will have identity 98. -/
def matrixAndVector : SymbolTable :=
  { SymbolTable.new {} with
    pool := ⟨#[{ rawName := "m", id := ⟨96⟩, origin := .userDefined, kind := .var { ty := .matrix .two .two } },
      { rawName := "s62", id := ⟨97⟩, origin := .userDefined, kind := .var { ty := .vector .float .four } }]⟩
    supply := ⟨98⟩ }

def building : Tree :=
  { nodes := ⟨#[.block [⟨2⟩, ⟨6⟩], .symbol (.pool ⟨0⟩) (.matrix .two .two), .declaration ⟨1⟩ none,
      .symbol (.pool ⟨0⟩) (.matrix .two .two), .aggregate .construct [⟨3⟩] (.vector .float .four),
      .symbol (.pool ⟨1⟩) (.vector .float .four), .declaration ⟨5⟩ (some ⟨4⟩)]⟩
    root := ⟨0⟩ }

/-- The temporary for the matrix gets the name of the vector. -/
theorem hygienic_iff_matrixAndVector : matrixAndVector.Reachable ∧ matrixAndVector.Hygienic ∧
    ∃ after, matrixAndVector.afterWork building Compiler.allPasses.compile = .ok after ∧ ¬ after.Hygienic := by
  have run : (SymbolTable.new {}).run [.createVariable "m" (.matrix .two .two) .userDefined,
      .createVariable "s62" (.vector .float .four) .userDefined] = .ok matrixAndVector := by
    simp only [SymbolTable.run, List.foldlM_cons, List.foldlM_nil, Operation.perform, createVariable, create, new]
    rfl
  have reachable : matrixAndVector.Reachable := ⟨_, _, run⟩
  obtain ⟨_, hygienic, compiled⟩ := hygienic_iff reachable
  have clean : matrixAndVector.Hygienic := by
    apply hygienic.mpr
    intro handle symbol found _ nameless
    have member : symbol ∈ matrixAndVector.pool.items := Array.mem_of_getElem? found
    have named : ∀ symbol ∈ matrixAndVector.pool.items, symbol.rawName ≠ "" := by decide
    exact absurd nameless (named symbol member)
  have supply : SymbolTable.supply <$> matrixAndVector.afterWork building Compiler.allPasses.compile = .ok ⟨99⟩ := by
    decide +kernel
  cases done : matrixAndVector.afterWork building Compiler.allPasses.compile with
  | error fault => simp [done] at supply
  | ok after =>
    have next : after.supply = ⟨99⟩ := by simpa [done] using supply
    refine ⟨reachable, clean, after, rfl, fun hygienic => ?_⟩
    have unwritten := ((compiled _ _ _ done).mp hygienic).2 98 (by decide) (by rw [next]; decide)
    exact unwritten ⟨1⟩ _ rfl rfl rfl

end SymbolTable
end ShaderTree
