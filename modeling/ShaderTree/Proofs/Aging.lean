import ShaderTree.Proofs.Operations

/-! What stays of symbols, whatever is done to their table: they keep their handle, their identity and
what they are. Only compilations rename one, by putting something in front of its name. -/
namespace ShaderTree

variable {first second third table after : SymbolTable} {handle : SymbolHandle} {symbol old new : Symbol}

/-- The kind data of one symbol at different times. -/
inductive SymbolKind.Alike : SymbolKind → SymbolKind → Prop where
  | var {one other : Variable} (ty : other.ty = one.ty) : Alike (.var one) (.var other)
  | struct {one other : Struct} (fields : other.fields = one.fields) : Alike (.struct one) (.struct other)
  | block (block : InterfaceBlock) : Alike (.block block) (.block block)
  | function {one other : Function} (returnType : other.returnType = one.returnType) (isPure : other.isPure = one.isPure) :
      Alike (.function one) (.function other)

namespace SymbolKind.Alike

theorem refl (kind : SymbolKind) : Alike kind kind := by
  cases kind with
  | var => exact .var rfl
  | struct => exact .struct rfl
  | block block => exact .block block
  | function => exact .function rfl rfl

theorem trans {one other last : SymbolKind} (earlier : Alike one other) (later : Alike other last) : Alike one last := by
  cases earlier with
  | var ty => cases later with | var again => exact .var (again.trans ty)
  | struct fields => cases later with | struct again => exact .struct (again.trans fields)
  | block block => exact later
  | function returnType isPure =>
    cases later with | function type pure => exact .function (type.trans returnType) (pure.trans isPure)

end SymbolKind.Alike

structure Symbol.Ages (old new : Symbol) : Prop where
  id : new.id = old.id
  origin : new.origin = old.origin
  kind : old.kind.Alike new.kind
  suffix : old.rawName.toList <:+ new.rawName.toList

namespace Symbol.Ages

theorem refl (symbol : Symbol) : Ages symbol symbol := ⟨rfl, rfl, .refl _, List.suffix_refl _⟩

theorem trans {last : Symbol} (earlier : Ages old new) (later : Ages new last) : Ages old last where
  id := later.id.trans earlier.id
  origin := later.origin.trans earlier.origin
  kind := earlier.kind.trans later.kind
  suffix := earlier.suffix.trans later.suffix

theorem isFunction (ages : Ages old new) : new.isFunction = old.isFunction := by
  have kind := ages.kind
  unfold Symbol.isFunction
  generalize old.kind = one at kind ⊢
  generalize new.kind = other at kind ⊢
  cases kind <;> rfl

theorem isVariable (ages : Ages old new) : new.isVariable = old.isVariable := by
  have kind := ages.kind
  unfold Symbol.isVariable
  generalize old.kind = one at kind ⊢
  generalize new.kind = other at kind ⊢
  cases kind <;> rfl

theorem asVariable? (ages : Ages old new) :
    new.asVariable?.map (·.ty) = old.asVariable?.map (·.ty) := by
  have kind := ages.kind
  unfold Symbol.asVariable?
  generalize old.kind = one at kind ⊢
  generalize new.kind = other at kind ⊢
  cases kind with
  | var ty => exact congrArg some ty
  | _ => rfl

end Symbol.Ages

structure Symbol.Stays (old new : Symbol) : Prop extends old.Ages new where
  rawName : new.rawName = old.rawName

namespace Symbol.Stays

theorem refl (symbol : Symbol) : Stays symbol symbol := ⟨.refl symbol, rfl⟩

theorem trans {last : Symbol} (earlier : Stays old new) (later : Stays new last) : Stays old last :=
  ⟨earlier.toAges.trans later.toAges, later.rawName.trans earlier.rawName⟩

theorem name (stays : Stays old new) : new.name = old.name := by
  simp only [Symbol.name, stays.rawName, stays.origin, stays.id, stays.isVariable]

theorem of_kind {kind : SymbolKind} (alike : symbol.kind.Alike kind) : symbol.Stays { symbol with kind } :=
  ⟨⟨rfl, rfl, alike, List.suffix_refl _⟩, rfl⟩

theorem placed (symbol : Symbol) (isGlobal : Bool) : symbol.Stays (symbol.placed isGlobal) := by
  unfold Symbol.placed
  split
  case h_1 struct kind => exact .of_kind (by rw [kind]; exact .struct rfl)
  case h_2 => exact .refl symbol

theorem remembering (symbol : Symbol) (mangled : String) : symbol.Stays (symbol.remembering mangled) := by
  unfold Symbol.remembering
  split
  case h_1 function kind =>
    refine .of_kind ?_
    rw [kind]
    unfold Function.remember
    split <;> exact .function rfl rfl
  case h_2 => exact .refl symbol

end Symbol.Stays

namespace SymbolTable

def Symbolwise (relation : Symbol → Symbol → Prop) (first second : SymbolTable) : Prop :=
  ∀ handle old, first.pool.get? handle = some old → ∃ new, second.pool.get? handle = some new ∧ relation old new

namespace Symbolwise

variable {relation : Symbol → Symbol → Prop}

theorem of_pool (refl : ∀ symbol, relation symbol symbol) (same : second.pool = first.pool) :
    first.Symbolwise relation second := by
  intro handle old found
  exact ⟨old, same ▸ found, refl old⟩

theorem trans (compose : ∀ {old new last}, relation old new → relation new last → relation old last)
    (earlier : first.Symbolwise relation second) (later : second.Symbolwise relation third) :
    first.Symbolwise relation third := by
  intro handle old found
  obtain ⟨new, held, related⟩ := earlier handle old found
  obtain ⟨last, holds, again⟩ := later handle new held
  exact ⟨last, holds, compose related again⟩

theorem imp {weaker : Symbol → Symbol → Prop} (weaken : ∀ {old new}, relation old new → weaker old new)
    (each : first.Symbolwise relation second) : first.Symbolwise weaker second := by
  intro handle old found
  obtain ⟨new, held, related⟩ := each handle old found
  exact ⟨new, held, weaken related⟩

theorem of_puts (refl : ∀ symbol, relation symbol symbol) (found : table.pool.get? handle = some symbol)
    (puts : table.Puts handle new after) (related : relation symbol new) : table.Symbolwise relation after := by
  intro place old held
  by_cases here : place = handle
  · subst here
    obtain rfl := Option.some.inj (found.symm.trans held)
    exact ⟨new, puts.found, related⟩
  · exact ⟨old, (puts.others place here).trans held, refl old⟩

end Symbolwise

theorem create_append {name : String} {origin : Origin} {kind : SymbolKind}
    (created : table.create name origin kind = .ok (handle, after)) :
    after = { table with
      pool := (table.pool.append { rawName := name, id := table.supply.take.1, origin, kind }).2
      supply := table.supply.take.2 } := by
  unfold create at created
  split at created
  · cases created
  split at created
  · cases created
  · exact (congrArg Prod.snd (Except.ok.inj created)).symm

@[simp] theorem withCurrent_pool (scope : Scope) : (table.withCurrent scope).pool = table.pool := by
  unfold withCurrent
  split <;> rfl

@[simp] theorem withCurrent_supply (scope : Scope) : (table.withCurrent scope).supply = table.supply := by
  unfold withCurrent
  split <;> rfl

theorem Edits.alike {kind : SymbolKind} (edits : table.Edits symbol kind) : symbol.kind.Alike kind := by
  cases edits with
  | constant is => rw [is]; exact .var rfl
  | mark is => rw [is]; exact .function rfl rfl
  | extend is => rw [is]; exact .function rfl rfl
  | @remember function name is _ =>
    rw [is]
    unfold Function.remember
    split <;> exact .function rfl rfl

theorem Change.stays (change : table.Change after) : table.Symbolwise Symbol.Stays after := by
  cases change with
  | create _ created =>
    intro place old held
    rw [create_append created]
    exact ⟨old, (Arena.get?_append_of_lt _ (Arena.get?_eq_some_lt held)).trans held, .refl old⟩
  | edit found edits puts => exact .of_puts .refl found puts (.of_kind edits.alike)
  | constant values => exact .of_pool .refl rfl

theorem Declares.stays {outcome : Declaration} (declares : table.Declares handle symbol outcome after)
    (found : table.pool.get? handle = some symbol) : table.Symbolwise Symbol.Stays after := by
  cases declares with
  | nameless _ puts => exact .of_puts .refl found puts (.placed _ _)
  | @bound key between scope _ _ puts _ =>
    have related := Symbolwise.of_puts .refl found puts ((Symbol.Stays.placed _ _).trans (.remembering _ _))
    intro place old held
    rw [withCurrent_pool]
    exact related place old held
  | taken _ _ puts _ => exact .of_puts .refl found puts ((Symbol.Stays.placed _ _).trans (.remembering _ _))

theorem Changes.stays (changes : table.Changes after) : table.Symbolwise Symbol.Stays after :=
  changes.preserves (fun earlier change => earlier.trans .trans change.stays) (.of_pool .refl rfl)

theorem Shares.stays {definition prototype : SymbolHandle} (shares : table.Shares definition prototype after) :
    table.Symbolwise Symbol.Stays after := by
  obtain ⟨found, kind, _, _, _, puts⟩ := shares
  exact .of_puts .refl found puts (.of_kind (by rw [kind]; exact .function rfl rfl))

theorem Renames.ages (renames : table.Renames after) : table.Symbolwise Symbol.Ages after := by
  intro place old held
  obtain ⟨rawName, holds, _⟩ := renames.continues.kept place old held
  exact ⟨_, holds, rfl, rfl, .refl _, renames.suffix place old _ held holds⟩

end SymbolTable

theorem Operation.Effect.ages {operation : Operation} (effect : operation.Effect table after) :
    table.Symbolwise Symbol.Ages after := by
  cases effect with
  | plain _ changes => exact changes.stays.imp Symbol.Stays.toAges
  | share shares => exact shares.stays.imp Symbol.Stays.toAges
  | declare found declares => exact (declares.stays found).imp Symbol.Stays.toAges
  | push => exact .of_pool .refl rfl
  | pop => exact .of_pool .refl rfl
  | pass revises | compile revises => exact revises.renames.ages

/-- Whatever is done, symbols keep their identity, and functions their return type. -/
theorem SymbolTable.run_ages {operations : List Operation} (done : table.run operations = .ok after) :
    table.Symbolwise Symbol.Ages after := by
  have each {before next : SymbolTable} {operation : Operation} (earlier : table.Symbolwise Symbol.Ages before)
      (performed : operation.perform before = .ok next) : table.Symbolwise Symbol.Ages next :=
    earlier.trans Symbol.Ages.trans (Operation.perform_effect performed).ages
  exact run_preserves (fun _ => each) done (.of_pool .refl rfl)

end ShaderTree
