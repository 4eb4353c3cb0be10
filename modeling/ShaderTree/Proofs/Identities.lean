import ShaderTree.Proofs.Aging
import ShaderTree.Symbol.Parameter
import ShaderTree.Tree.Build

/-! Identities of the symbols in a pool. They are handed out one after the other, from the first that no built-in
has, so that the identity of a symbol tells its handle, and tells it from the built-ins. -/
namespace ShaderTree

variable {table after : SymbolTable} {handle : SymbolHandle} {symbol old new : Symbol}

/-- What every symbol of a pool is when it is created there, and stays. -/
structure Symbol.EnrolledAt (symbol : Symbol) (handle : SymbolHandle) : Prop where
  id : symbol.id = ⟨Identity.lastBuiltIn + 1 + handle.index⟩
  origin : symbol.origin ≠ .builtIn
  named : symbol.origin = .userDefined → symbol.rawName ≠ ""

theorem Symbol.EnrolledAt.ages (enrolled : old.EnrolledAt handle) (ages : old.Ages new) : new.EnrolledAt handle where
  id := ages.id.trans enrolled.id
  origin := ages.origin ▸ enrolled.origin
  named written := by
    intro nameless
    have suffix := ages.suffix
    rw [nameless] at suffix
    have empty : old.rawName.toList = [] := List.suffix_nil.mp suffix
    exact enrolled.named (ages.origin.symm.trans written) (String.toList_eq_nil_iff.mp empty)

theorem BuiltIn.identity_inj {one other : BuiltIn} (same : one.identity = other.identity) : one = other := by
  have places : one.index.val + 1 = other.index.val + 1 := congrArg Identity.number same
  exact congrArg BuiltIn.mk (Fin.ext (Nat.succ.inj places))

namespace SymbolTable

structure Enrolled (table : SymbolTable) : Prop where
  next : table.supply.next = Identity.lastBuiltIn + 1 + table.pool.size
  each : ∀ handle symbol, table.pool.get? handle = some symbol → symbol.EnrolledAt handle

theorem create_origin {name : String} {origin : Origin} {kind : SymbolKind}
    (created : table.create name origin kind = .ok (handle, after)) :
    (origin = .userDefined → name ≠ "") ∧ origin ≠ .builtIn := by
  unfold create at created
  split at created
  case isTrue => cases created
  case isFalse named =>
    split at created
    case isTrue => cases created
    case isFalse foreign => exact ⟨fun written nameless => named ⟨nameless, written⟩, foreign⟩

namespace Enrolled

theorem start (profile : Profile) : (SymbolTable.new profile).Enrolled := ⟨rfl, fun _ _ found => by cases found⟩

/-- The pool has one identity after the other. -/
theorem ids (enrolled : table.Enrolled) : table.pool.items.toList.map Symbol.id =
    (List.range table.pool.size).map fun place => ⟨Identity.lastBuiltIn + 1 + place⟩ := by
  apply List.ext_getElem
  · simp [Arena.size]
  · intro place listed _
    obtain ⟨symbol, found⟩ : ∃ symbol, table.pool.get? ⟨place⟩ = some symbol :=
      Arena.get?_of_lt (by simpa [Arena.size] using listed)
    obtain ⟨_, rfl⟩ := Array.getElem?_eq_some_iff.mp found
    simpa using (enrolled.each ⟨place⟩ _ found).id

theorem identified (enrolled : table.Enrolled) : table.Identified := by
  rw [Identified, enrolled.ids]
  exact List.nodup_range.map fun one other same => Nat.add_left_cancel (congrArg Identity.number same)

/-- Identities tell handles. -/
theorem handle_eq {other : SymbolHandle} {twin : Symbol} (enrolled : table.Enrolled)
    (found : table.pool.get? handle = some symbol) (held : table.pool.get? other = some twin) (same : symbol.id = twin.id) :
    handle = other :=
  enrolled.identified.handle_eq found held same

theorem create {name : String} {origin : Origin} {kind : SymbolKind} (enrolled : table.Enrolled)
    (created : table.create name origin kind = .ok (handle, after)) : after.Enrolled := by
  obtain ⟨named, foreign⟩ := create_origin created
  rw [create_append created]
  constructor
  case next =>
    rw [Arena.size_append, ← Nat.add_assoc, ← enrolled.next]
    rfl
  case each =>
    intro place symbol held
    rcases Arena.get?_append_eq_some held with earlier | ⟨rfl, rfl⟩
    · exact enrolled.each place symbol earlier
    · exact ⟨congrArg Identity.mk enrolled.next, foreign, named⟩

/-- Where there are no symbols but those that were there, they are enrolled as they were. -/
theorem ages (enrolled : table.Enrolled) (ages : table.Symbolwise Symbol.Ages after)
    (size : after.pool.size = table.pool.size) (supply : after.supply = table.supply) : after.Enrolled := by
  constructor
  case next => rw [supply, size, enrolled.next]
  case each =>
    intro handle new held
    obtain ⟨old, found⟩ := Arena.get?_of_lt (size ▸ Arena.get?_eq_some_lt held)
    obtain ⟨_, again, aged⟩ := ages handle old found
    obtain rfl := Option.some.inj (again.symm.trans held)
    exact (enrolled.each handle old found).ages aged

theorem puts (enrolled : table.Enrolled) (found : table.pool.get? handle = some symbol) (puts : table.Puts handle new after)
    (ages : symbol.Ages new) : after.Enrolled :=
  enrolled.ages (.of_puts .refl found puts ages) puts.size (by rw [puts.rest])

theorem change (enrolled : table.Enrolled) (change : table.Change after) : after.Enrolled := by
  cases change with
  | create _ created => exact enrolled.create created
  | edit found edits puts => exact enrolled.puts found puts (Symbol.Stays.of_kind edits.alike).toAges
  | constant values => exact ⟨enrolled.next, enrolled.each⟩

theorem declares {outcome : Declaration} (enrolled : table.Enrolled) (found : table.pool.get? handle = some symbol)
    (declares : table.Declares handle symbol outcome after) : after.Enrolled := by
  have ages := (declares.stays found).imp Symbol.Stays.toAges
  cases declares with
  | nameless _ puts | taken _ _ puts _ => exact enrolled.ages ages puts.size (by rw [puts.rest])
  | @bound key between scope _ _ puts _ =>
    exact enrolled.ages ages (by rw [withCurrent_pool, puts.size]) (by rw [withCurrent_supply, puts.rest])

theorem revision (enrolled : table.Enrolled) (revision : table.Revision after) : after.Enrolled := by
  cases revision with
  | rename found _ puts => exact enrolled.puts found puts ⟨rfl, rfl, .refl _, StructNames.suffix_fresh _⟩
  | @create ty handle _ created _ =>
    have nameless : table.create "" .toolInternal (.var { ty := ty.withQualifier .temporary }) = .ok (handle, after) := created
    exact enrolled.create nameless

theorem effect {operation : Operation} (enrolled : table.Enrolled) (effect : operation.Effect table after) : after.Enrolled := by
  cases effect with
  | plain _ changes => exact changes.preserves change enrolled
  | share shares =>
    have ages := shares.stays.imp Symbol.Stays.toAges
    obtain ⟨_, _, _, _, _, puts⟩ := shares
    exact enrolled.ages ages puts.size (by rw [puts.rest])
  | declare found declares => exact enrolled.declares found declares
  | push | pop => exact ⟨enrolled.next, enrolled.each⟩
  | pass revises | compile revises =>
    induction revises with
    | refl => exact enrolled
    | tail _ step ih => exact ih.revision step

/-- Built-ins have identities of their own range, whatever a program can refer to. -/
theorem isBuiltIn_id {ref : SymbolRef} (enrolled : table.Enrolled) (resolved : table.resolve ref = .ok symbol) :
    symbol.id.isBuiltIn = ref.isBuiltIn := by
  cases ref with
  | builtIn builtIn =>
    obtain rfl := Except.ok.inj resolved
    exact decide_eq_true (show builtIn.index.val + 1 ≤ Identity.lastBuiltIn from builtIn.index.isLt)
  | pool handle =>
    rw [(enrolled.each handle symbol (Arena.read_eq_ok.mp resolved)).id]
    exact decide_eq_false (by dsimp only; omega)

/-- Identities tell references. -/
theorem ref_eq {one other : SymbolRef} {twin : Symbol} (enrolled : table.Enrolled) (left : table.resolve one = .ok symbol)
    (right : table.resolve other = .ok twin) (same : symbol.id = twin.id) : one = other := by
  have range : one.isBuiltIn = other.isBuiltIn := by
    rw [← enrolled.isBuiltIn_id left, ← enrolled.isBuiltIn_id right, same]
  cases one with
  | builtIn first =>
    cases other with
    | builtIn second =>
      obtain rfl := Except.ok.inj left
      obtain rfl := Except.ok.inj right
      exact congrArg SymbolRef.builtIn (BuiltIn.identity_inj same)
    | pool handle => cases range
  | pool handle =>
    cases other with
    | builtIn second => cases range
    | pool twin =>
      have handles := enrolled.handle_eq (Arena.read_eq_ok.mp left) (Arena.read_eq_ok.mp right) same
      exact congrArg SymbolRef.pool handles

end Enrolled

theorem Reachable.enrolled (reachable : table.Reachable) : table.Enrolled :=
  reachable.induct .start fun enrolled performed => enrolled.effect (Operation.perform_effect performed)

theorem Reachable.perform {operation : Operation} (reachable : table.Reachable)
    (performed : operation.perform table = .ok after) : after.Reachable := by
  obtain ⟨profile, operations, done⟩ := reachable
  exact ⟨profile, operations ++ [operation], run_snoc.mpr ⟨table, done, performed⟩⟩

theorem Reachable.createVariable {name : String} {ty : Ty} {origin : Origin} (reachable : table.Reachable)
    (created : table.createVariable name ty origin = .ok (handle, after)) : after.Reachable :=
  reachable.perform (show (Operation.createVariable name ty origin).perform table = .ok after by
    rw [Operation.perform, created]
    rfl)

/-- The variable of a parameter is one of the variables that are created. -/
theorem Reachable.toVariable (reachable : table.Reachable) (parameter : Parameter)
    (created : parameter.toVariable table = .ok (handle, after)) : after.Reachable := by
  cases parameter with
  | pending name ty => exact reachable.createVariable created
  | consumed => cases created

theorem Reachable.createTemporary (reachable : table.Reachable) (ty : Ty)
    (created : table.createTemporary ty = .ok (handle, after)) : after.Reachable :=
  reachable.createVariable created

/-- Whatever was done to a table, no two symbols of the pool have one identity, none of them has that of a built-in, and
references are equal just if the symbols that they refer to have one identity. -/
theorem identities_tell_refs (reachable : table.Reachable) : table.Identified ∧
    (∀ ref symbol, table.resolve ref = .ok symbol → symbol.id.isBuiltIn = ref.isBuiltIn) ∧
    ∀ one other symbol twin, table.resolve one = .ok symbol → table.resolve other = .ok twin →
      (one = other ↔ symbol.id = twin.id) := by
  have enrolled := reachable.enrolled
  refine ⟨enrolled.identified, fun ref symbol resolved => enrolled.isBuiltIn_id resolved, ?_⟩
  intro one other symbol twin left right
  constructor
  · rintro rfl
    obtain rfl := Except.ok.inj (left.symm.trans right)
    rfl
  · exact enrolled.ref_eq left right

def lit : SymbolTable :=
  { SymbolTable.new {} with
    pool := ⟨#[
      { rawName := "Light", id := ⟨96⟩, origin := .userDefined,
        kind := .struct { fields := [{ name := "map", ty := .sampler .sampler2D }] } },
      { rawName := "s_map", id := ⟨97⟩, origin := .toolInternal, kind := .var { ty := .sampler .sampler2D } }]⟩
    supply := ⟨98⟩ }

/-- Next to the variable of a sampler there is one of a parameter, then a temporary, and there always are built-ins. -/
theorem identities_tell_refs_lit : ∃ between table, (Parameter.pending "" .float).toVariable lit = .ok (⟨2⟩, between) ∧
    between.createTemporary .float = .ok (⟨3⟩, table) ∧ table.Reachable ∧ table.Identified ∧
    ∃ sampler one other twin, table.resolve (.pool ⟨1⟩) = .ok sampler ∧ table.resolve (.pool ⟨2⟩) = .ok one ∧
      table.resolve (.pool ⟨3⟩) = .ok other ∧ table.resolve (.builtIn ⟨2⟩) = .ok twin ∧
      sampler.id ≠ one.id ∧ one.id ≠ other.id ∧ other.id ≠ twin.id := by
  have run : (SymbolTable.new {}).run [.createStruct "Light" [{ name := "map", ty := .sampler .sampler2D }] .userDefined,
      .createSamplers (.pool ⟨0⟩) "s" "u"] = .ok lit := by
    simp only [SymbolTable.run, List.foldlM_cons, List.foldlM_nil, Operation.perform, createStruct, create, SymbolTable.new]
    rfl
  have start : lit.Reachable := ⟨_, _, run⟩
  refine ⟨_, _, rfl, rfl, ?_⟩
  have reachable := (start.toVariable (.pending "" .float) rfl).createTemporary .float rfl
  obtain ⟨identified, _, tell⟩ := identities_tell_refs reachable
  refine ⟨reachable, identified, _, _, _, _, rfl, rfl, rfl, rfl, ?_, ?_, ?_⟩
  · exact mt (tell (.pool ⟨1⟩) (.pool ⟨2⟩) _ _ rfl rfl).mpr (by decide)
  · exact mt (tell (.pool ⟨2⟩) (.pool ⟨3⟩) _ _ rfl rfl).mpr (by decide)
  · exact mt (tell (.pool ⟨3⟩) (.builtIn ⟨2⟩) _ _ rfl rfl).mpr (by decide)

end SymbolTable
end ShaderTree
