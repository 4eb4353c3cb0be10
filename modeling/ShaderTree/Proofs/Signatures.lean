import ShaderTree.Proofs.Encodings

/-! Mangled names tell signatures apart: those of two functions are equal just if the functions have one name,
and parameters of the same sizes and shapes one by one. Structures and blocks are compared as their tags do,
nameless ones by identity and others by name. -/
namespace ShaderTree

variable {table : SymbolTable} {pool : Pool} {symbol namesake : Symbol} {ty other : Ty} {types others : List Ty}
  {codes texts : List String} {name callee : String} {function former : Function}

/-! ### Tags -/

/-- The same as far as tags tell. -/
inductive Symbol.Namesakes (one other : Symbol) : Prop
  | nameless (here : one.origin = .empty) (there : other.origin = .empty) (id : one.id = other.id)
  | named (here : one.origin ≠ .empty) (there : other.origin ≠ .empty) (name : one.rawName = other.rawName)

theorem Symbol.Namesakes.tag (same : symbol.Namesakes namesake) : symbol.tag = namesake.tag := by
  cases same with
  | nameless here there id => simp only [Symbol.tag, if_pos here, if_pos there, id]
  | named here there name => simp only [Symbol.tag, if_neg here, if_neg there, name]

/-- The hash before an identity tells it from a name that looks like it. -/
theorem Symbol.namesakes_of_tag (clean : '#' ∉ symbol.rawName.toList) (plain : '#' ∉ namesake.rawName.toList)
    (same : symbol.tag = namesake.tag) : symbol.Namesakes namesake := by
  have chars := congrArg String.toList same
  rw [tag_toList, tag_toList] at chars
  have inner := (List.cons.inj (List.append_cancel_right chars)).2
  by_cases here : symbol.origin = .empty <;> by_cases there : namesake.origin = .empty
  · rw [if_pos here, if_pos there] at inner
    have numbers := toDigits_inj (by decide) (by decide) (List.cons.inj inner).2
    exact .nameless here there (congrArg Identity.mk numbers)
  · rw [if_pos here, if_neg there] at inner
    exact absurd (inner ▸ List.mem_cons_self) plain
  · rw [if_neg here, if_pos there] at inner
    exact absurd (inner ▸ List.mem_cons_self) clean
  · rw [if_neg here, if_neg there] at inner
    exact .named here there (String.toList_inj.mp inner)

/-! ### Types -/

namespace Ty

/-- The same but for precision and qualifier, and for what the tags of structures and blocks leave open. -/
structure Agrees (pool : Pool) (one other : Ty) : Prop where
  array : one.array = other.array
  shape : one.reference? = none ∧ one.shape = other.shape ∨ ∃ ref twin symbol namesake, one.reference? = some ref ∧
    other.reference? = some twin ∧ ref.resolve pool = .ok symbol ∧ twin.resolve pool = .ok namesake ∧ symbol.Namesakes namesake

def Legible (pool : Pool) (ty : Ty) : Prop := ∀ ref, ty.reference? = some ref →
  ∃ symbol, ref.resolve pool = .ok symbol ∧ ';' ∉ symbol.rawName.toList ∧ '#' ∉ symbol.rawName.toList

theorem Legible.notMem {ref : SymbolRef} (legible : ty.Legible pool) (refers : ty.reference? = some ref)
    (resolved : ref.resolve pool = .ok symbol) : ';' ∉ symbol.rawName.toList ∧ '#' ∉ symbol.rawName.toList := by
  obtain ⟨found, is, marks⟩ := legible ref refers
  obtain rfl := Except.ok.inj (is.symm.trans resolved)
  exact marks

theorem Legible.lacks (legible : ty.Legible pool) : ty.Lacks pool ';' :=
  fun _ _ refers resolved => (legible.notMem refers resolved).1

theorem shape_mangled_of_reference? {ref : SymbolRef} (refers : ty.reference? = some ref)
    (resolved : ref.resolve pool = .ok symbol) : ty.shape.mangled pool = .ok symbol.tag := by
  obtain ⟨shape, _, _, _⟩ := ty
  cases shape with
  | struct | block =>
    cases refers
    exact bind_eq_ok.mpr ⟨symbol, resolved, rfl⟩
  | _ => cases refers

theorem Legible.exists_mangled (legible : ty.Legible pool) : ∃ code, ty.mangled pool = .ok code := by
  have shaped : ∃ text, ty.shape.mangled pool = .ok text := by
    cases refers : ty.reference? with
    | some ref =>
      obtain ⟨symbol, resolved, _⟩ := legible ref refers
      exact ⟨_, shape_mangled_of_reference? refers resolved⟩
    | none =>
      obtain ⟨shape, _, _, _⟩ := ty
      cases shape with
      | struct | block => cases refers
      | _ => exact ⟨_, rfl⟩
  obtain ⟨text, mangled⟩ := shaped
  exact ⟨_, mangled_eq_ok.mpr ⟨text, mangled, rfl⟩⟩

theorem Agrees.mangled (agrees : ty.Agrees pool other) : ty.mangled pool = other.mangled pool := by
  have shapes : ty.shape.mangled pool = other.shape.mangled pool := by
    obtain ⟨_, same⟩ | ⟨ref, twin, symbol, namesake, refers, names, resolved, found, same⟩ := agrees.shape
    · rw [same]
    · rw [shape_mangled_of_reference? refers resolved, shape_mangled_of_reference? names found, same.tag]
  rw [Ty.mangled, Ty.mangled, shapes, agrees.array]

theorem Alike.agrees (alike : ty.Alike pool other) (legible : ty.Legible pool) (clear : other.Legible pool) :
    ty.Agrees pool other := by
  refine ⟨alike.array, ?_⟩
  obtain same | ⟨ref, twin, symbol, namesake, refers, names, resolved, found, tags⟩ := alike.shape
  · cases refers : ty.reference? with
    | none => exact .inl ⟨rfl, same⟩
    | some ref =>
      obtain ⟨symbol, resolved, _, clean⟩ := legible ref refers
      have names : other.reference? = some ref := by
        rw [← refers, reference?, reference?, same]
      exact .inr ⟨ref, ref, symbol, symbol, rfl, names, resolved, resolved, Symbol.namesakes_of_tag clean clean rfl⟩
  · have same := Symbol.namesakes_of_tag (legible.notMem refers resolved).2 (clear.notMem names found).2 tags
    exact .inr ⟨ref, twin, symbol, namesake, refers, names, resolved, found, same⟩

end Ty

/-! ### Signatures -/

theorem exists_mapM_mangled (legible : ∀ ty ∈ types, ty.Legible pool) : ∃ codes, types.mapM (Ty.mangled pool) = .ok codes := by
  induction types with
  | nil => exact ⟨[], rfl⟩
  | cons ty types ih =>
    obtain ⟨code, mangled⟩ := (legible ty List.mem_cons_self).exists_mangled
    obtain ⟨codes, encoded⟩ := ih fun ty listed => legible ty (List.mem_cons_of_mem _ listed)
    exact ⟨code :: codes, mapM_eq_ok.mpr (.cons mangled (mapM_eq_ok.mp encoded))⟩

theorem mapM_mangled_of_agrees (agree : List.Forall₂ (Ty.Agrees pool) types others) :
    types.mapM (Ty.mangled pool) = others.mapM (Ty.mangled pool) := by
  induction agree with
  | nil => rfl
  | cons first _ ih => rw [List.mapM_cons, List.mapM_cons, first.mangled, ih]

/-- Codes are joined to one text just for types that agree one by one. -/
theorem join_eq_iff_agrees (legible : ∀ ty ∈ types, ty.Legible pool) (clear : ∀ ty ∈ others, ty.Legible pool)
    (one : types.mapM (Ty.mangled pool) = .ok codes) (other : others.mapM (Ty.mangled pool) = .ok texts) :
    String.join codes = String.join texts ↔ List.Forall₂ (Ty.Agrees pool) types others := by
  constructor
  · intro same
    have alike := alike_of_join (fun ty listed => (legible ty listed).lacks) (fun ty listed => (clear ty listed).lacks) one
      other same
    refine List.forall₂_iff_get.mpr ⟨alike.length_eq, fun index inside within => ?_⟩
    exact (alike.get inside within).agrees (legible _ (List.get_mem _ _)) (clear _ (List.get_mem _ _))
  · intro agree
    rw [Except.ok.inj (one.symm.trans ((mapM_mangled_of_agrees agree).trans other))]

/-- Two functions whose names have no separator in them get one mangled name just if they have one name, and as
many parameters, which agree one by one. -/
theorem Function.buildMangled_inj_iff (here : '(' ∉ name.toList) (there : '(' ∉ callee.toList)
    (takes : function.ParameterTypes table types) (expects : former.ParameterTypes table others)
    (legible : ∀ ty ∈ types, ty.Legible table.pool) (clear : ∀ ty ∈ others, ty.Legible table.pool) :
    ∃ key text, function.buildMangled name table.pool = .ok key ∧ former.buildMangled callee table.pool = .ok text ∧
      (key = text ↔ name = callee ∧ List.Forall₂ (Ty.Agrees table.pool) types others) := by
  obtain ⟨codes, one⟩ := exists_mapM_mangled legible
  obtain ⟨texts, other⟩ := exists_mapM_mangled clear
  refine ⟨_, _, buildMangled_eq_ok.mpr ⟨types, codes, takes, one, rfl⟩,
    buildMangled_eq_ok.mpr ⟨others, texts, expects, other, rfl⟩, ?_⟩
  rw [← join_eq_iff_agrees legible clear one other]
  constructor
  · intro same
    have chars := congrArg String.toList same
    simp only [String.toList_append, mangledSeparator, List.append_assoc] at chars
    obtain ⟨names, rest⟩ := cut_at_first here there chars
    exact ⟨String.toList_inj.mp names, String.toList_inj.mp rest⟩
  · rintro ⟨rfl, same⟩
    rw [same]

namespace Twins

def outer : Ty := { shape := .struct (.pool ⟨0⟩), precision := .high, qualifier := .paramIn, array := some { count := 12 } }
def inner : Ty := { shape := .struct (.pool ⟨1⟩), qualifier := .paramOut, array := some { count := 12 } }
def shared : Ty := { shape := .block (.pool ⟨2⟩) }

def symbols : SymbolTable :=
  { SymbolTable.new {} with
    pool := ⟨#[
      { rawName := "S", id := ⟨96⟩, origin := .userDefined, kind := .struct { fields := [], atGlobalScope := true } },
      { rawName := "S", id := ⟨97⟩, origin := .userDefined, kind := .struct { fields := [] } },
      { rawName := "", id := ⟨98⟩, origin := .empty, kind := .block (.ofLayout [] {}) },
      { rawName := "x", id := ⟨99⟩, origin := .userDefined, kind := .var { ty := outer } },
      { rawName := "y", id := ⟨100⟩, origin := .userDefined, kind := .var { ty := inner } },
      { rawName := "z", id := ⟨101⟩, origin := .userDefined, kind := .var { ty := shared } }]⟩ }

def ofOuter : Function := { signature := .growing [⟨3⟩, ⟨5⟩] none, returnType := .void }
def ofInner : Function := { signature := .growing [⟨4⟩, ⟨5⟩] none, returnType := .void }

end Twins

open Twins in
/-- Neither precision nor qualifier nor which of the structures it is shows in the mangled name. -/
theorem Function.buildMangled_inj_iff_twins : ofOuter.buildMangled "f" symbols.pool = .ok "f(\x7bS\x7d[12];\x7b#62\x7d;" ∧
    ofInner.buildMangled "f" symbols.pool = .ok "f(\x7bS\x7d[12];\x7b#62\x7d;" ∧
    List.Forall₂ (Ty.Agrees symbols.pool) [outer, shared] [inner, shared] := by
  have legible : outer.Legible symbols.pool ∧ inner.Legible symbols.pool ∧ shared.Legible symbols.pool := by
    refine ⟨?_, ?_, ?_⟩ <;> rintro _ refers <;> cases refers <;> exact ⟨_, rfl, by decide⟩
  have clear : '(' ∉ "f".toList := by decide
  have takes : ofOuter.ParameterTypes symbols [outer, shared] := .cons rfl (.cons rfl .nil)
  have expects : ofInner.ParameterTypes symbols [inner, shared] := .cons rfl (.cons rfl .nil)
  obtain ⟨key, text, one, other, same⟩ :=
    buildMangled_inj_iff clear clear takes expects (by simp [legible]) (by simp [legible])
  have built : ofOuter.buildMangled "f" symbols.pool = .ok "f(\x7bS\x7d[12];\x7b#62\x7d;" := rfl
  have again : ofInner.buildMangled "f" symbols.pool = .ok "f(\x7bS\x7d[12];\x7b#62\x7d;" := rfl
  exact ⟨built, again, (same.mp (Except.ok.inj (one.symm.trans (built.trans (again.symm.trans other))))).2⟩

end ShaderTree
