import Mathlib.Data.List.Forall2
import ShaderTree.Proofs.Resolution

/-! What encodings of types tell. A code can be read back but for precision and qualifier, and but for what
a tag leaves open: two structures of one name have one code. Codes that are joined can be told apart, as
each ends with its only semicolon. -/
namespace ShaderTree

variable {α : Type u} {pool : Pool} {ty other : Ty} {code : String} {mark : Char}

/-! ### Marks -/

/-- What stands before the first mark, and what stands after it. -/
theorem cut_at_first {mark : α} {before front after rest : List α} (left : mark ∉ before) (right : mark ∉ front)
    (same : before ++ mark :: after = front ++ mark :: rest) : before = front ∧ after = rest := by
  induction before generalizing front with
  | nil =>
    cases front with
    | nil => exact ⟨rfl, (List.cons.inj same).2⟩
    | cons first front =>
      obtain ⟨rfl, _⟩ := List.cons.inj same
      exact absurd List.mem_cons_self right
  | cons first before ih =>
    cases front with
    | nil =>
      obtain ⟨rfl, _⟩ := List.cons.inj same
      exact absurd List.mem_cons_self left
    | cons head front =>
      obtain ⟨rfl, tails⟩ := List.cons.inj same
      obtain ⟨rfl, rfl⟩ := ih (List.not_mem_of_not_mem_cons left) (List.not_mem_of_not_mem_cons right) tails
      exact ⟨rfl, rfl⟩

theorem cut_at_last {mark : α} {before front after rest : List α} (left : mark ∉ after) (right : mark ∉ rest)
    (same : before ++ mark :: after = front ++ mark :: rest) : before = front ∧ after = rest := by
  have reversed := congrArg List.reverse same
  simp only [List.reverse_append, List.reverse_cons, List.append_assoc, List.singleton_append] at reversed
  obtain ⟨after, before⟩ := cut_at_first (by simpa using left) (by simpa using right) reversed
  exact ⟨List.reverse_injective before, List.reverse_injective after⟩

def Separates (mark : Char) : Prop := mark.isAlphanum = false ∧ mark ∉ ['\x7b', '#', '\x7d', '[', ']']

instance : Decidable (Separates mark) := inferInstanceAs (Decidable (_ ∧ _))

def EndsAtSemicolon (code : String) : Prop := ∃ text, code.toList = text ++ [';'] ∧ ';' ∉ text

theorem join_inj {codes others : List String} (each : ∀ code ∈ codes, EndsAtSemicolon code)
    (all : ∀ code ∈ others, EndsAtSemicolon code) (same : String.join codes = String.join others) : codes = others := by
  induction codes generalizing others with
  | nil =>
    cases others with
    | nil => rfl
    | cons code others =>
      obtain ⟨text, ends, _⟩ := all code List.mem_cons_self
      have chars := congrArg String.toList same
      simp [String.join_cons, ends] at chars
  | cons code codes ih =>
    obtain ⟨text, ends, plain⟩ := each code List.mem_cons_self
    cases others with
    | nil =>
      have chars := congrArg String.toList same
      simp [String.join_cons, ends] at chars
    | cons first others =>
      obtain ⟨front, stops, clean⟩ := all first List.mem_cons_self
      have chars := congrArg String.toList same
      simp only [String.join_cons, String.toList_append, ends, stops, List.append_assoc, List.singleton_append] at chars
      obtain ⟨rfl, rest⟩ := cut_at_first plain clean chars
      rw [String.toList_inj.mp (ends.trans stops.symm),
        ih (fun code member => each code (List.mem_cons_of_mem _ member))
          (fun code member => all code (List.mem_cons_of_mem _ member)) (String.toList_inj.mp rest)]

/-! ### Digits -/

/-- Numerals in a base tell their numbers apart. -/
theorem toDigits_inj {base first second : Nat} (large : 1 < base) (small : base ≤ 16)
    (same : Nat.toDigits base first = Nat.toDigits base second) : first = second := by
  have digit : ∀ one < 16, ∀ other < 16, Nat.digitChar one = Nat.digitChar other → one = other := by decide
  have bound (number : Nat) : number % base < 16 := Nat.lt_of_lt_of_le (Nat.mod_lt _ (by omega)) small
  induction first using Nat.strongRecOn generalizing second with
  | ind first ih =>
    rw [Nat.toDigits_eq_if large (n := first), Nat.toDigits_eq_if large (n := second)] at same
    by_cases below : first < base <;> by_cases under : second < base
    · rw [if_pos below, if_pos under] at same
      exact digit _ (by omega) _ (by omega) (List.singleton_inj.mp same)
    -- a single digit is no numeral of two
    · rw [if_pos below, if_neg under] at same
      have length := congrArg List.length same
      simp at length
    · rw [if_neg below, if_pos under] at same
      have length := congrArg List.length same
      simp at length
    · rw [if_neg below, if_neg under] at same
      obtain ⟨fronts, digits⟩ := List.append_inj' same rfl
      have quotients := ih (first / base) (Nat.div_lt_self (by omega) large) fronts
      have remainders := digit _ (bound first) _ (bound second) (List.singleton_inj.mp digits)
      rw [← Nat.div_add_mod first base, ← Nat.div_add_mod second base, quotients, remainders]

theorem isAlphanum_of_mem_toDigits {char : Char} {number : Nat} (member : char ∈ Nat.toDigits 16 number) :
    char.isAlphanum = true := by
  have each : ∀ digit < 16, (Nat.digitChar digit).isAlphanum = true := by decide
  induction number using Nat.strongRecOn with
  | ind number ih =>
    rw [Nat.toDigits_eq_if (by decide)] at member
    split at member
    case isTrue small =>
      obtain rfl := List.mem_singleton.mp member
      exact each number small
    case isFalse large =>
      obtain earlier | last := List.mem_append.mp member
      · exact ih (number / 16) (by omega) earlier
      · obtain rfl := List.mem_singleton.mp last
        exact each (number % 16) (by omega)

/-! ### Shapes -/

def ScalarKind.read? : Char → Option ScalarKind
  | 'f' => some .float
  | 'i' => some .sint
  | 'u' => some .uint
  | 'b' => some .bool
  | _ => none

def VectorSize.read? : Char → Option VectorSize
  | '2' => some .two
  | '3' => some .three
  | '4' => some .four
  | _ => none

def SamplerKind.read? : Char → Option SamplerKind
  | '2' => some .sampler2D
  | '3' => some .sampler3D
  | 'C' => some .samplerCube
  | _ => none

/-- The shape that a code stands for, unless that is a structure or block. -/
def Shape.read? : List Char → Option Shape
  | ['v'] => some .void
  | [kind] => .scalar <$> ScalarKind.read? kind
  | ['s', kind] => .sampler <$> SamplerKind.read? kind
  | ['m', columns, rows] => do return .matrix (← VectorSize.read? columns) (← VectorSize.read? rows)
  | [kind, size] => do return .vector (← ScalarKind.read? kind) (← VectorSize.read? size)
  | _ => none

/-- The code of a shape is that of a basic one, or a tag. -/
theorem Ty.shape_mangled (mangled : ty.shape.mangled pool = .ok code) :
    (Shape.read? code.toList = some ty.shape ∧ ∀ char ∈ code.toList, char.isAlphanum = true) ∨
      ∃ ref symbol, ty.reference? = some ref ∧ ref.resolve pool = .ok symbol ∧ code = symbol.tag := by
  obtain ⟨shape, _, _, _⟩ := ty
  cases shape with
  | void =>
    obtain rfl := Except.ok.inj mangled
    exact .inl ⟨rfl, List.all_eq_true.mp rfl⟩
  | scalar kind =>
    obtain rfl := Except.ok.inj mangled
    cases kind <;> exact .inl ⟨rfl, List.all_eq_true.mp rfl⟩
  | vector kind size =>
    obtain rfl := Except.ok.inj mangled
    cases kind <;> cases size <;> exact .inl ⟨rfl, List.all_eq_true.mp rfl⟩
  | matrix columns rows =>
    obtain rfl := Except.ok.inj mangled
    cases columns <;> cases rows <;> exact .inl ⟨rfl, List.all_eq_true.mp rfl⟩
  | sampler kind =>
    obtain rfl := Except.ok.inj mangled
    cases kind <;> exact .inl ⟨rfl, List.all_eq_true.mp rfl⟩
  | struct ref | block ref =>
    obtain ⟨symbol, resolved, same⟩ := bind_eq_ok.mp mangled
    exact .inr ⟨ref, symbol, rfl, resolved, (pure_eq_ok.mp same).symm⟩

theorem Symbol.tag_toList (symbol : Symbol) : symbol.tag.toList =
    '\x7b' :: (if symbol.origin = .empty then '#' :: Nat.toDigits 16 symbol.id.number else symbol.rawName.toList) ++ ['\x7d'] := by
  unfold tag
  split <;> simp [Identity.hex]

/-- A tag is told from basic codes by its braces. -/
theorem Symbol.not_isAlphanum_tag (symbol : Symbol) : ¬ ∀ char ∈ symbol.tag.toList, char.isAlphanum = true := by
  intro all
  rw [tag_toList] at all
  exact absurd (all '\x7b' List.mem_cons_self) (by decide)

/-- No code of a shape ends as the size of an array does. -/
theorem Ty.shape_mangled_ne_bracket (mangled : ty.shape.mangled pool = .ok code) {front : List Char} :
    code.toList ≠ front ++ [']'] := by
  intro ends
  obtain ⟨_, basic⟩ | ⟨_, symbol, _, _, rfl⟩ := shape_mangled mangled
  · exact absurd (basic ']' (by simp [ends])) (by decide)
  · rw [symbol.tag_toList] at ends
    exact absurd (List.append_inj_right' ends rfl) (by decide)

/-! ### Types -/

/-- What the code of a type tells of it: the size of an array, and the shape or the tag of a structure or
block. -/
structure Ty.Alike (pool : Pool) (one other : Ty) : Prop where
  array : one.array = other.array
  shape : one.shape = other.shape ∨ ∃ ref twin symbol namesake, one.reference? = some ref ∧ other.reference? = some twin ∧
    ref.resolve pool = .ok symbol ∧ twin.resolve pool = .ok namesake ∧ symbol.tag = namesake.tag

def ArraySize.suffix : Option ArraySize → String
  | none => ""
  | some size => "[" ++ toString size.count ++ "]"

theorem ArraySize.suffix_none : (suffix none).toList = [] := rfl

theorem ArraySize.suffix_some (size : ArraySize) :
    (suffix (some size)).toList = '[' :: (Nat.toDigits 10 size.count ++ [']']) := by
  simp [suffix]

theorem ArraySize.bracket_notMem (number : Nat) : '[' ∉ Nat.toDigits 10 number ++ [']'] := by
  intro member
  obtain digit | last := List.mem_append.mp member
  · exact absurd (Nat.isDigit_of_mem_toDigits (by decide) (by decide) digit) (by decide)
  · simp at last

/-- The size is read off the end of a text, if what stands before has no such end. -/
theorem ArraySize.cut_suffix {one other : Option ArraySize} {before front : List Char}
    (left : ∀ text, before ≠ text ++ [']']) (right : ∀ text, front ≠ text ++ [']'])
    (same : before ++ (suffix one).toList = front ++ (suffix other).toList) : before = front ∧ one = other := by
  cases one with
  | none =>
    cases other with
    | none => exact ⟨by simpa only [suffix_none, List.append_nil] using same, rfl⟩
    | some size =>
      rw [suffix_none, List.append_nil, suffix_some] at same
      exact absurd same (by simpa using left (front ++ '[' :: Nat.toDigits 10 size.count))
  | some size =>
    cases other with
    | none =>
      rw [suffix_none, List.append_nil, suffix_some] at same
      exact absurd same.symm (by simpa using right (before ++ '[' :: Nat.toDigits 10 size.count))
    | some count =>
      rw [suffix_some, suffix_some] at same
      obtain ⟨rfl, digits⟩ := cut_at_last (bracket_notMem _) (bracket_notMem _) same
      have counts := toDigits_inj (by decide) (by decide) (List.append_cancel_right digits)
      obtain ⟨_, _, _⟩ := size
      obtain ⟨_, _, _⟩ := count
      obtain rfl : _ = _ := counts
      exact ⟨rfl, rfl⟩

namespace Ty

theorem mangled_eq_ok : ty.mangled pool = .ok code ↔
    ∃ text, ty.shape.mangled pool = .ok text ∧ text ++ ArraySize.suffix ty.array ++ ";" = code := by
  unfold mangled
  rw [bind_eq_ok]
  refine exists_congr fun text => and_congr_right fun _ => ?_
  cases ty.array <;> simp [ArraySize.suffix, pure_eq_ok, String.append_assoc]

theorem shape_of_mangled (one : ty.shape.mangled pool = .ok code) (same : other.shape.mangled pool = .ok code) :
    ty.shape = other.shape ∨ ∃ ref twin symbol namesake, ty.reference? = some ref ∧ other.reference? = some twin ∧
      ref.resolve pool = .ok symbol ∧ twin.resolve pool = .ok namesake ∧ symbol.tag = namesake.tag := by
  obtain ⟨reads, basic⟩ | ⟨ref, symbol, refers, resolved, tagged⟩ := shape_mangled one
  · obtain ⟨again, _⟩ | ⟨_, symbol, _, _, rfl⟩ := shape_mangled same
    · exact .inl (Option.some.inj (reads.symm.trans again))
    · exact absurd basic symbol.not_isAlphanum_tag
  · obtain ⟨_, basic⟩ | ⟨twin, namesake, names, found, tag⟩ := shape_mangled same
    · exact absurd (tagged ▸ basic) symbol.not_isAlphanum_tag
    · exact .inr ⟨ref, twin, symbol, namesake, refers, names, resolved, found, tagged.symm.trans tag⟩

/-- Types with one code are told apart by precision and qualifier, or they refer to namesakes. -/
theorem alike_of_mangled (one : ty.mangled pool = .ok code) (same : other.mangled pool = .ok code) :
    ty.Alike pool other := by
  obtain ⟨text, shape, rfl⟩ := mangled_eq_ok.mp one
  obtain ⟨front, form, whole⟩ := mangled_eq_ok.mp same
  have chars := congrArg String.toList whole
  simp only [String.toList_append, List.append_cancel_right_eq] at chars
  -- the size is read off the end, and what is left is the code of the shape
  obtain ⟨texts, array⟩ := ArraySize.cut_suffix (fun _ => shape_mangled_ne_bracket form)
    (fun _ => shape_mangled_ne_bracket shape) chars
  obtain rfl := String.toList_inj.mp texts
  exact ⟨array.symm, shape_of_mangled shape form⟩

def Lacks (pool : Pool) (mark : Char) (ty : Ty) : Prop := ∀ ref symbol, ty.reference? = some ref →
  ref.resolve pool = .ok symbol → mark ∉ symbol.rawName.toList

def IsPlain (pool : Pool) (ty : Ty) : Prop := ∀ ref symbol, ty.reference? = some ref → ref.resolve pool = .ok symbol →
  ';' ∉ symbol.rawName.toList ∧ '(' ∉ symbol.rawName.toList

theorem IsPlain.lacks (plain : ty.IsPlain pool) : ty.Lacks pool ';' ∧ ty.Lacks pool '(' :=
  ⟨fun ref symbol refers resolved => (plain ref symbol refers resolved).1,
    fun ref symbol refers resolved => (plain ref symbol refers resolved).2⟩

theorem shape_notMem (separates : Separates mark) (lacks : ty.Lacks pool mark) (mangled : ty.shape.mangled pool = .ok code) :
    mark ∉ code.toList := by
  obtain ⟨_, basic⟩ | ⟨ref, symbol, refers, resolved, rfl⟩ := shape_mangled mangled
  · intro member
    exact Bool.false_ne_true (separates.1.symm.trans (basic mark member))
  · have digit : mark ∉ Nat.toDigits 16 symbol.id.number := fun member =>
      Bool.false_ne_true (separates.1.symm.trans (isAlphanum_of_mem_toDigits member))
    have name := lacks ref symbol refers resolved
    have marks := separates.2
    rw [symbol.tag_toList]
    split <;> simp_all

theorem size_notMem (separates : Separates mark) : mark ∉ (ArraySize.suffix ty.array).toList := by
  cases ty.array with
  | none => exact List.not_mem_nil
  | some size =>
    have digit : mark ∉ Nat.toDigits 10 size.count := fun member => by
      have plain := separates.1
      simp [Char.isAlphanum, Nat.isDigit_of_mem_toDigits (by decide) (by decide) member] at plain
    have marks := separates.2
    simp_all [ArraySize.suffix_some]

/-- A mark that separates stands in the code of a type at its end, if at all. -/
theorem mangled_notMem (separates : Separates mark) (lacks : ty.Lacks pool mark) (mangled : ty.mangled pool = .ok code) :
    ∃ text, code.toList = text ++ [';'] ∧ mark ∉ text := by
  obtain ⟨text, shape, rfl⟩ := mangled_eq_ok.mp mangled
  have text_notMem := shape_notMem separates lacks shape
  have size : mark ∉ (ArraySize.suffix ty.array).toList := size_notMem separates
  exact ⟨text.toList ++ (ArraySize.suffix ty.array).toList, by simp [String.toList_append], by simp [text_notMem, size]⟩

end Ty

/-! ### Parameter lists -/

theorem mapM_eq_ok {step : α → Except ε β} {items : List α} {results : List β} :
    items.mapM step = .ok results ↔ List.Forall₂ (fun item result => step item = .ok result) items results := by
  induction items generalizing results with
  | nil =>
    rw [List.mapM_nil, pure_eq_ok, List.forall₂_nil_left_iff]
    exact eq_comm
  | cons item items ih =>
    simp only [List.mapM_cons, bind_eq_ok, pure_eq_ok, ih, List.forall₂_cons_left_iff]
    grind

theorem forall₂_exists {holds : α → β → Prop} {follows : β → γ → Prop} {items : List α} {results : List γ} :
    List.Forall₂ (fun item result => ∃ between, holds item between ∧ follows between result) items results ↔
      ∃ middle, List.Forall₂ holds items middle ∧ List.Forall₂ follows middle results := by
  constructor
  · intro each
    induction each with
    | nil => exact ⟨[], .nil, .nil⟩
    | cons first _ ih =>
      obtain ⟨between, here, there⟩ := first
      obtain ⟨middle, before, after⟩ := ih
      exact ⟨between :: middle, .cons here before, .cons there after⟩
  · rintro ⟨middle, before, after⟩
    induction before generalizing results with
    | nil =>
      cases after
      exact .nil
    | cons here _ ih =>
      cases after with
      | cons there after => exact .cons ⟨_, here, there⟩ (ih after)

theorem exists_of_mem_right {holds : α → β → Prop} {items : List α} {results : List β} {result : β}
    (each : List.Forall₂ holds items results) (member : result ∈ results) : ∃ item ∈ items, holds item result := by
  induction each with
  | nil => cases member
  | cons first _ ih =>
    obtain rfl | later := List.mem_cons.mp member
    · exact ⟨_, List.mem_cons_self, first⟩
    · obtain ⟨item, inside, here⟩ := ih later
      exact ⟨item, List.mem_cons_of_mem _ inside, here⟩

variable {types others : List Ty} {codes texts : List String} {name callee : String}

theorem alike_of_mapM_mangled (one : types.mapM (Ty.mangled pool) = .ok codes) (same : others.mapM (Ty.mangled pool) = .ok codes) :
    List.Forall₂ (Ty.Alike pool) types others := by
  rw [mapM_eq_ok] at one same
  induction one generalizing others with
  | nil =>
    cases same
    exact .nil
  | cons first _ ih =>
    cases same with
    | cons head rest => exact .cons (Ty.alike_of_mangled first head) (ih rest)

/-- Codes that are joined tell the types, where names of structures and blocks have no semicolon. -/
theorem alike_of_join (lacks : ∀ ty ∈ types, ty.Lacks pool ';') (clean : ∀ ty ∈ others, ty.Lacks pool ';')
    (one : types.mapM (Ty.mangled pool) = .ok codes) (other : others.mapM (Ty.mangled pool) = .ok texts)
    (same : String.join codes = String.join texts) : List.Forall₂ (Ty.Alike pool) types others := by
  have ends {types : List Ty} {codes : List String} (lacks : ∀ ty ∈ types, ty.Lacks pool ';')
      (encoded : types.mapM (Ty.mangled pool) = .ok codes) : ∀ code ∈ codes, EndsAtSemicolon code := by
    intro code member
    obtain ⟨ty, listed, mangled⟩ := exists_of_mem_right (mapM_eq_ok.mp encoded) member
    exact Ty.mangled_notMem (by decide) (lacks ty listed) mangled
  obtain rfl := join_inj (ends lacks one) (ends clean other) same
  exact alike_of_mapM_mangled one other

theorem parenthesis_notMem_join (lacks : ∀ ty ∈ types, ty.Lacks pool '(') (encoded : types.mapM (Ty.mangled pool) = .ok codes) :
    '(' ∉ (String.join codes).toList := by
  intro member
  rw [String.toList_join] at member
  obtain ⟨code, listed, inside⟩ := List.mem_flatMap.mp member
  obtain ⟨ty, typed, mangled⟩ := exists_of_mem_right (mapM_eq_ok.mp encoded) listed
  obtain ⟨text, ends, front⟩ := Ty.mangled_notMem (by decide) (lacks ty typed) mangled
  simp [ends, front] at inside

/-- The codes of plain types follow the last separator of a mangled name. -/
theorem cut_mangled (plain : ∀ ty ∈ types, ty.IsPlain pool) (clean : ∀ ty ∈ others, ty.IsPlain pool)
    (one : types.mapM (Ty.mangled pool) = .ok codes) (other : others.mapM (Ty.mangled pool) = .ok texts)
    (same : name ++ mangledSeparator ++ String.join codes = callee ++ mangledSeparator ++ String.join texts) :
    name = callee ∧ List.Forall₂ (Ty.Alike pool) types others := by
  have chars := congrArg String.toList same
  simp only [String.toList_append, mangledSeparator, List.append_assoc] at chars
  obtain ⟨names, rest⟩ := cut_at_last (parenthesis_notMem_join (fun ty listed => (plain ty listed).lacks.2) one)
    (parenthesis_notMem_join (fun ty listed => (clean ty listed).lacks.2) other) chars
  exact ⟨String.toList_inj.mp names, alike_of_join (fun ty listed => (plain ty listed).lacks.1)
    (fun ty listed => (clean ty listed).lacks.1) one other (String.toList_inj.mp rest)⟩

variable {table : SymbolTable} {parameter : SymbolRef} {function former : Function} {key : String}

def Function.ParameterTypes (function : Function) (table : SymbolTable) (types : List Ty) : Prop :=
  List.Forall₂ (fun parameter ty => table.variableType? parameter = some ty) function.parameters types

theorem SymbolTable.parameterCode_eq_ok :
    (do match (← parameter.resolve table.pool).asVariable? with
      | some var => var.ty.mangled table.pool
      | none => throw .signatureNotVariable : Except Fault String) = .ok code ↔
    ∃ ty, table.variableType? parameter = some ty ∧ ty.mangled table.pool = .ok code := by
  simp only [bind_eq_ok, variableType?_eq_some]
  constructor
  · rintro ⟨symbol, resolved, encoded⟩
    cases used : symbol.asVariable? with
    | none => simp [used, throw_eq_ok] at encoded
    | some var =>
      rw [used] at encoded
      exact ⟨var.ty, ⟨symbol, var, resolved, used, rfl⟩, encoded⟩
  · rintro ⟨_, ⟨symbol, var, resolved, used, rfl⟩, encoded⟩
    exact ⟨symbol, resolved, by rw [used]; exact encoded⟩

/-- A mangled name is made of the name and of the codes of the parameters. -/
theorem Function.buildMangled_eq_ok : function.buildMangled name table.pool = .ok key ↔
    ∃ types codes, function.ParameterTypes table types ∧ types.mapM (Ty.mangled table.pool) = .ok codes ∧
      key = name ++ mangledSeparator ++ String.join codes := by
  unfold buildMangled
  rw [bind_eq_ok]
  constructor
  · rintro ⟨codes, encoded, same⟩
    obtain rfl := pure_eq_ok.mp same
    obtain ⟨types, known, mangled⟩ :=
      forall₂_exists.mp ((mapM_eq_ok.mp encoded).imp fun _ _ => SymbolTable.parameterCode_eq_ok.mp)
    exact ⟨types, codes, known, mapM_eq_ok.mpr mangled, rfl⟩
  · rintro ⟨types, codes, known, mangled, rfl⟩
    have each := forall₂_exists.mpr ⟨types, known, mapM_eq_ok.mp mangled⟩
    exact ⟨codes, mapM_eq_ok.mpr (each.imp fun _ _ => SymbolTable.parameterCode_eq_ok.mpr), rfl⟩

theorem Function.buildMangled_congr (same : former.parameters = function.parameters) :
    former.buildMangled name pool = function.buildMangled name pool := by
  simp only [buildMangled, same]

theorem Function.ParameterTypes.unique (one : function.ParameterTypes table types)
    (other : function.ParameterTypes table others) : types = others :=
  List.right_unique_forall₂' (fun _ _ _ known again => Option.some.inj (known.symm.trans again)) one other

/-- A mangled name tells the name that it starts with, where the parameters are known. -/
theorem Function.name_of_buildMangled (one : function.buildMangled name pool = .ok key)
    (other : function.buildMangled callee pool = .ok key) : name = callee := by
  obtain ⟨codes, encoded, same⟩ := bind_eq_ok.mp one
  obtain ⟨texts, again, equal⟩ := bind_eq_ok.mp other
  obtain rfl := Except.ok.inj (encoded.symm.trans again)
  have chars := (pure_eq_ok.mp same).trans (pure_eq_ok.mp equal).symm
  simpa only [String.append_left_inj] using chars

end ShaderTree
