import ShaderTree.Proofs.Homonyms
import ShaderTree.Proofs.NameIndependence

/-! Built-ins and profiles. The scope of the built-ins binds those that the profile makes available: none is in the
way of another, as overloads that share a key belong to different versions. Validation does not ask that scope. A
built-in needs no declaration, so that valid programs use all of the catalogue, whichever profile they are for. -/
namespace ShaderTree

namespace BuiltIn

variable {first second symbol : BuiltIn} {profile : Profile}

/-- Where the first is bound, the second can be. -/
def clears (first second : BuiltIn) : Bool :=
  first.key != second.key &&
    if second.symbol.isFunction then first.key != second.symbol.rawName
    else !(first.symbol.isFunction && first.symbol.rawName = second.symbol.rawName)

/-- The first is gone in the versions that have the second. -/
def precedes (first second : BuiltIn) : Bool :=
  first.entry.availability.any fun earlier => second.entry.availability.any fun later =>
    earlier.last.any (·.rank < later.since.rank)

theorem mem_available_iff : symbol ∈ available profile ↔ symbol.isAvailable profile = true := by
  have member : symbol ∈ all := List.mem_map.mpr ⟨symbol.index, List.mem_finRange _, rfl⟩
  simp only [available, nameable, List.mem_filter, member, true_and, and_iff_right_iff_imp]
  intro covered
  rw [isAvailable, Bool.and_eq_true] at covered
  cases given : symbol.entry.availability with
  | none => simp [given] at covered
  | some _ => rfl

theorem not_available_of_precedes (earlier : first.precedes second = true) (covered : first.isAvailable profile = true) :
    second.isAvailable profile = false := by
  by_contra also
  simp only [precedes, Option.any_eq_true, decide_eq_true_eq] at earlier
  obtain ⟨old, oldGiven, new, newGiven, last, lastGiven, before⟩ := earlier
  simp only [isAvailable, oldGiven, newGiven, Option.any_some, Availability.covers, lastGiven, Option.all_some,
    Bool.and_eq_true, decide_eq_true_eq, Bool.not_eq_false] at covered also
  omega

private theorem clears_or_precedes : ∀ first second : Fin 95, first < second →
    (BuiltIn.mk first).entry.availability.isSome = true → (BuiltIn.mk second).entry.availability.isSome = true →
      clears ⟨first⟩ ⟨second⟩ = true ∨ precedes ⟨first⟩ ⟨second⟩ = true := by
  decide +kernel

/-- Built-ins that are available together can be bound together. -/
theorem available_clears (profile : Profile) :
    (available profile).Pairwise fun first second => first.clears second = true := by
  rw [available, nameable, List.filter_filter, List.pairwise_filter, all, List.pairwise_map]
  refine (List.pairwise_lt_finRange 95).imp fun {first second} before one other => ?_
  rw [Bool.and_eq_true] at one other
  refine (clears_or_precedes first second before one.2 other.2).resolve_right fun gone => ?_
  cases (not_available_of_precedes gone one.1).symm.trans other.1

end BuiltIn

namespace Scope

variable {scope : Scope} {symbols : List BuiltIn} {symbol : BuiltIn}

structure Lists (scope : Scope) (symbols : List BuiltIn) : Prop where
  find? : ∀ key ref, scope.find? key = some ref ↔ ∃ symbol ∈ symbols, symbol.key = key ∧ ref = .builtIn symbol
  hasFunction : ∀ name, scope.hasFunction name = true ↔
    ∃ symbol ∈ symbols, symbol.symbol.isFunction = true ∧ symbol.symbol.rawName = name

namespace Lists

theorem empty : Lists {} [] := ⟨by simp [Scope.find?], by simp [Scope.hasFunction]⟩

theorem admits (lists : scope.Lists symbols) (clear : ∀ other ∈ symbols, other.clears symbol = true) :
    scope.admits symbol.key symbol.symbol = true := by
  have free (name : String) (apart : ∀ other ∈ symbols, other.key ≠ name) : scope.binds name = false := by
    cases found : scope.find? name with
    | none => simp [binds, found]
    | some ref =>
      obtain ⟨other, among, same, _⟩ := (lists.find? name ref).mp found
      exact absurd same (apart other among)
  simp only [BuiltIn.clears, Bool.and_eq_true, bne_iff_ne] at clear
  rw [Scope.admits, free _ fun other among => (clear other among).1]
  cases function : symbol.symbol.isFunction with
  | true =>
    simp only [function, if_true, bne_iff_ne] at clear ⊢
    rw [free _ fun other among => (clear other among).2]
    rfl
  | false =>
    have unnamed : scope.hasFunction symbol.symbol.rawName = false := by
      by_contra named
      obtain ⟨other, among, is, same⟩ := (lists.hasFunction _).mp (by simpa using named)
      simpa [function, is, same] using (clear other among).2
    simp [unnamed]

theorem bind (lists : scope.Lists symbols) (admits : scope.admits symbol.key symbol.symbol = true) :
    (scope.bind symbol.key symbol.symbol (.builtIn symbol)).Lists (symbols ++ [symbol]) where
  find? key ref := by
    rw [find?_bind_iff (find?_of_admits admits), lists.find?]
    simp only [List.mem_append, List.mem_singleton, or_and_right, exists_or, exists_eq_left]
    rw [or_comm, eq_comm (a := key)]
  hasFunction name := by
    rw [hasFunction_bind_iff, lists.hasFunction]
    simp only [List.mem_append, List.mem_singleton, or_and_right, exists_or, exists_eq_left]
    rw [or_comm]

/-- Built-ins that clear one another are all bound. -/
theorem foldl (symbols rest : List BuiltIn) (lists : scope.Lists symbols)
    (clear : (symbols ++ rest).Pairwise fun first second => first.clears second = true) :
    (rest.foldl (fun scope symbol => (scope.insert? symbol.key symbol.symbol (.builtIn symbol)).getD scope) scope).Lists
      (symbols ++ rest) := by
  induction rest generalizing symbols scope with
  | nil => rwa [List.append_nil]
  | cons symbol rest ih =>
    have each : ∀ other ∈ symbols, other.clears symbol = true := fun other among =>
      (List.pairwise_append.mp clear).2.2 other among symbol List.mem_cons_self
    have admits := lists.admits each
    rw [List.foldl_cons, insert?, admits, if_pos rfl, Option.getD_some]
    rw [List.append_cons] at clear ⊢
    exact ih (symbols ++ [symbol]) (lists.bind admits) clear

end Lists

/-- The scope of the built-ins binds just those that are available. -/
theorem builtIn_lists (profile : Profile) : (builtIn profile).Lists (BuiltIn.available profile) :=
  Lists.foldl [] (BuiltIn.available profile) .empty (BuiltIn.available_clears profile)

end Scope

namespace SymbolTable

variable {table : SymbolTable} {operations : List Operation} {profile : Profile} {symbol : BuiltIn}

def BindsBuiltIn (table : SymbolTable) (symbol : BuiltIn) : Prop :=
  ∃ key, symbol.symbol.mangled table.pool = .ok key ∧ table.findBuiltIn key = some (.builtIn symbol)

/-- A table binds what is available to those for whom it was made. -/
theorem bindsBuiltIn_iff (made : (new profile).run operations = .ok table) :
    table.BindsBuiltIn symbol ↔ symbol ∈ BuiltIn.available profile := by
  have lists : table.builtIns.Lists (BuiltIn.available profile) := run_builtIns made ▸ Scope.builtIn_lists profile
  simp only [BindsBuiltIn, findBuiltIn, lists.find?]
  constructor
  · rintro ⟨_, _, other, among, _, same⟩
    rwa [SymbolRef.builtIn.inj same]
  · exact fun among => ⟨symbol.key, symbol.mangled_symbol _, symbol, among, rfl, rfl⟩

def forProfile (table : SymbolTable) (profile : Profile) : SymbolTable :=
  { table with builtIns := .builtIn profile, profile }

end SymbolTable

/-! ### Other tables -/

section
variable {checks : Checks} {first second : SymbolTable} {tree : Tree} {term : Term}

theorem Valid.mono (valid : Valid checks first term) (stands : term.Of tree)
    (extension : first.pool.Extends second.pool) : Valid checks second term where
  wellFormed := valid.wellFormed.mono extension
  sees references := by
    have defines : term.All fun part => part.node.Defines first := by
      refine valid.wellFormed.all stands fun returns role part _ right => ?_
      cases right with
      | mk _ fits _ _ => exact fits.defines
    exact (Scoped.mono_iff extension defines).mpr (valid.sees references)
  nodup := valid.nodup

/-- A program stays valid when the pool grows. -/
theorem Tree.validate_mono (accepted : tree.validate first checks = .ok ())
    (extension : first.pool.Extends second.pool) :
    tree.validate second checks = .ok () := by
  obtain ⟨term, root, stands, valid⟩ := validate_iff.mp accepted
  exact validate_iff.mpr ⟨term, root, stands, valid.mono stands extension⟩

/-- Of the table, validation asks the pool only. -/
theorem Tree.validate_congr (same : second.pool = first.pool) :
    tree.validate second checks = tree.validate first checks := by
  have renamed : first.pool.Renamed second.pool := same ▸ Arena.Matches.refl Symbol.Renamed.refl first.pool
  have outcome := tree.validate_renamed renamed checks
  generalize tree.validate first checks = one at outcome ⊢
  generalize tree.validate second checks = other at outcome ⊢
  rw [same] at outcome
  cases outcome with
  | ok => rfl
  | error like =>
    cases like with
    | same => rfl
    | undeclared _ before after =>
      cases before.symm.trans after
      rfl

end

/-! ### Programs that use a built-in -/

theorem Symbol.isVariable_iff {symbol : Symbol} : symbol.isVariable = true ↔ symbol.asVariable?.isSome = true := by
  unfold isVariable asVariable?
  cases symbol.kind <;> simp

namespace BuiltIn

variable {symbol : BuiltIn}

def parameters (symbol : BuiltIn) : List BuiltIn :=
  match symbol.entry.kind with
  | .function { signature := .fixed parameters _, .. } => parameters
  | _ => []

def ty (symbol : BuiltIn) : Ty :=
  match symbol.entry.kind with
  | .var var => var.ty
  | .function function => function.returnType
  | _ => .void

def arguments (symbol : BuiltIn) : List NodeId := (List.range symbol.parameters.length).map fun place => ⟨place + 2⟩

def use (symbol : BuiltIn) : Node :=
  if symbol.symbol.isFunction then .aggregate (.call (.builtIn symbol)) symbol.arguments symbol.ty
  else .symbol (.builtIn symbol) symbol.ty

theorem use_variable (isVariable : symbol.symbol.isVariable = true) :
    symbol.use = .symbol (.builtIn symbol) symbol.ty := by
  have other : symbol.symbol.isFunction = false := by
    cases kind : symbol.symbol.kind <;> simp [Symbol.isVariable, Symbol.isFunction, kind] at isVariable ⊢
  rw [use, other, if_neg (by decide)]

theorem use_function (isFunction : symbol.symbol.isFunction = true) :
    symbol.use = .aggregate (.call (.builtIn symbol)) symbol.arguments symbol.ty := by
  rw [use, if_pos isFunction]

/-- A program of one statement, a use of the built-in. A function is called with its own parameters. -/
def sample (symbol : BuiltIn) : Tree where
  nodes := ⟨(.block [⟨1⟩] :: symbol.use :: symbol.parameters.map fun parameter =>
    .symbol (.builtIn parameter) parameter.ty).toArray⟩
  root := ⟨0⟩

theorem sample_accepted_empty : ∀ index : Fin 95,
    (BuiltIn.mk index).symbol.isVariable = true ∨ (BuiltIn.mk index).symbol.isFunction = true →
      (BuiltIn.mk index).sample.validate { builtIns := {}, profile := {} } .all = .ok () := by
  decide +kernel

/-- Whatever table there is, the program is valid. -/
theorem sample_accepted (table : SymbolTable)
    (usable : symbol.symbol.isVariable = true ∨ symbol.symbol.isFunction = true) :
    symbol.sample.validate table .all = .ok () :=
  Tree.validate_mono (sample_accepted_empty symbol.index usable) fun _ _ found => by cases found

theorem sample_reachable : symbol.sample.Reachable ⟨1⟩ := .single ⟨.block [⟨1⟩], rfl, List.mem_singleton_self _⟩

/-- `gl_VertexID`, for vertex shaders since version 3.00. -/
def vertexId : BuiltIn := ⟨⟨12, Nat.le_of_ble_eq_true rfl⟩⟩

/-- `transpose` of a 2-by-2 matrix, since version 3.00. -/
def transpose : BuiltIn := ⟨⟨80, Nat.le_of_ble_eq_true rfl⟩⟩

end BuiltIn

namespace Tree

variable {profile : Profile} {operations : List Operation} {table : SymbolTable}

/-- The built-in variables that valid programs read are those of the catalogue, and the functions that they call as
well. They are found in the table if the profile has them, but that is not asked: for every other profile the
outcome is the same. -/
theorem validate_builtIns_iff (made : (SymbolTable.new profile).run operations = .ok table) (symbol : BuiltIn) :
    ((∃ tree id ty, Tree.validate tree table .all = .ok () ∧ tree.Reachable id ∧
      tree.nodes.get? id = some (.symbol (.builtIn symbol) ty)) ↔ symbol.symbol.isVariable = true) ∧
    ((∃ tree id arguments ty, Tree.validate tree table .all = .ok () ∧ tree.Reachable id ∧
      tree.nodes.get? id = some (.aggregate (.call (.builtIn symbol)) arguments ty)) ↔
        symbol.symbol.isFunction = true) ∧
    (table.BindsBuiltIn symbol ↔ symbol ∈ BuiltIn.available profile) ∧
    ∀ tree other checks, Tree.validate tree (table.forProfile other) checks = tree.validate table checks := by
  refine ⟨⟨?_, fun isVariable => ?_⟩, ⟨?_, fun isFunction => ?_⟩, SymbolTable.bindsBuiltIn_iff made, ?_⟩
  · rintro ⟨tree, id, ty, accepted, reached, found⟩
    obtain ⟨_, declared, known, _⟩ := fits_of_accepted accepted reached found
    obtain ⟨_, var, resolved, isVar, _⟩ := SymbolTable.variableType?_eq_some.mp known
    obtain rfl := Except.ok.inj resolved
    exact Symbol.isVariable_iff.mpr (isVar ▸ rfl)
  · refine ⟨symbol.sample, ⟨1⟩, symbol.ty, BuiltIn.sample_accepted table (.inl isVariable),
      BuiltIn.sample_reachable, ?_⟩
    exact congrArg some (symbol.use_variable isVariable)
  · rintro ⟨tree, id, arguments, ty, accepted, reached, found⟩
    obtain ⟨_, _, _, known, _⟩ := fits_of_accepted accepted reached found
    obtain ⟨_, isSome⟩ := Option.isSome_iff_exists.mp (known rfl)
    obtain ⟨_, resolved, function⟩ := SymbolTable.function?_eq_some.mp isSome
    obtain rfl := Except.ok.inj resolved
    exact Validator.isFunction_iff.mpr (function ▸ rfl)
  · refine ⟨symbol.sample, ⟨1⟩, symbol.arguments, symbol.ty, BuiltIn.sample_accepted table (.inr isFunction),
      BuiltIn.sample_reachable, ?_⟩
    exact congrArg some (symbol.use_function isFunction)
  · exact fun tree other checks => tree.validate_congr rfl

/-- Fragment shaders of version 1.00 read `gl_VertexID`. -/
theorem vertexId_unavailable : (SymbolTable.new {}).run [] = .ok (.new {}) ∧
    BuiltIn.vertexId.symbol.rawName = "gl_VertexID" ∧
    BuiltIn.vertexId.sample.validate (.new {}) .all = .ok () ∧ BuiltIn.vertexId.sample.Reachable ⟨1⟩ ∧
    BuiltIn.vertexId.sample.nodes.get? ⟨1⟩ = some (.symbol (.builtIn .vertexId) BuiltIn.vertexId.ty) ∧
    BuiltIn.vertexId ∉ BuiltIn.available {} ∧ ¬ (SymbolTable.new {}).BindsBuiltIn .vertexId := by
  have made : (SymbolTable.new {}).run [] = .ok (.new {}) := rfl
  have unavailable : BuiltIn.vertexId ∉ BuiltIn.available {} := by
    rw [BuiltIn.mem_available_iff]
    decide
  exact ⟨made, rfl, BuiltIn.sample_accepted _ (.inl rfl), BuiltIn.sample_reachable, rfl, unavailable,
    mt (SymbolTable.bindsBuiltIn_iff made).mp unavailable⟩

/-- They call `transpose` as well, which their tables do not bind. -/
theorem validate_builtIns_iff_transpose : ∃ tree id arguments ty, Tree.validate tree (.new {}) .all = .ok () ∧
    tree.Reachable id ∧ tree.nodes.get? id = some (.aggregate (.call (.builtIn .transpose)) arguments ty) ∧
    ¬ (SymbolTable.new {}).BindsBuiltIn .transpose := by
  have made : (SymbolTable.new {}).run [] = .ok (.new {}) := rfl
  obtain ⟨_, called, bound, _⟩ := validate_builtIns_iff made .transpose
  obtain ⟨tree, id, arguments, ty, accepted, reached, found⟩ := called.mpr rfl
  refine ⟨tree, id, arguments, ty, accepted, reached, found, mt bound.mp ?_⟩
  rw [BuiltIn.mem_available_iff]
  decide

end Tree
end ShaderTree
