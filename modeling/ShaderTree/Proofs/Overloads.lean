import ShaderTree.Proofs.CheckRules
import ShaderTree.Proofs.Encodings

/-! Overloads. A call is resolved by the encodings of its arguments and validated by their shapes. The two
agree but for structures and blocks of one name, which have one encoding and are different shapes. -/
namespace ShaderTree

variable {table : SymbolTable} {ref : SymbolRef} {function : Function} {types expected : List Ty} {codes : List String}
  {name key : String} {ty : Ty}

namespace SymbolTable

theorem takes_iff (known : table.function? ref = some function) (parameters : function.ParameterTypes table expected) :
    table.Takes ref types ty ↔
      List.Forall₂ (fun parameter argument => parameter.sameShape argument = true) expected types ∧
        function.returnType.sameShape ty = true := by
  have shapes : function.parameters.length = types.length ∧ (∀ parameter type, (parameter, type) ∈ function.parameters.zip types →
        ∃ expected, table.variableType? parameter = some expected ∧ expected.sameShape type = true) ↔
      List.Forall₂ (fun parameter argument => parameter.sameShape argument = true) expected types := by
    rw [← List.forall₂_iff_zip]
    unfold Function.ParameterTypes at parameters
    generalize function.parameters = listed at parameters ⊢
    induction parameters generalizing types with
    | nil => simp
    | cons first _ ih => cases types <;> simp [first, ih]
  constructor
  · rintro ⟨_, again, length, each, returned⟩
    obtain rfl := Option.some.inj (known.symm.trans again)
    exact ⟨shapes.mp ⟨length, each⟩, returned⟩
  · rintro ⟨each, returned⟩
    obtain ⟨length, each⟩ := shapes.mpr each
    exact ⟨function, known, length, each, returned⟩

theorem function_of_lookupFunction (found : table.lookupFunction key = .ok (some ref)) :
    ∃ symbol function, table.resolve ref = .ok symbol ∧ symbol.asFunction? = some function := by
  unfold lookupFunction at found
  split at found
  · cases found
  · obtain ⟨symbol, resolved, is⟩ := bind_eq_ok.mp found
    have same := pure_eq_ok.mp is
    cases isFunction : symbol.isFunction with
    | false => simp [isFunction] at same
    | true =>
      obtain rfl : _ = ref := by simpa [isFunction] using same
      cases kind : symbol.kind with
      | function function => exact ⟨symbol, function, resolved, by simp [Symbol.asFunction?, kind]⟩
      | _ => simp [Symbol.isFunction, kind] at isFunction

/-- A function that is looked up by the codes of arguments, and is bound under the mangled name that it has
now, has the name asked for and a parameter for each argument. It takes the arguments but for those that
are structures or blocks and meet a namesake, with the same tag and another symbol. -/
theorem lookupFunction_agrees (plain : ∀ ty ∈ types, ty.IsPlain table.pool)
    (clean : ∀ function parameter ty, table.function? ref = some function → parameter ∈ function.parameters →
      table.variableType? parameter = some ty → ty.IsPlain table.pool)
    (encoded : types.mapM (Ty.mangled table.pool) = .ok codes)
    (found : table.lookupFunction (name ++ mangledSeparator ++ String.join codes) = .ok (some ref))
    (current : ∀ symbol function, table.resolve ref = .ok symbol → symbol.asFunction? = some function →
      function.buildMangled symbol.rawName table.pool = .ok (name ++ mangledSeparator ++ String.join codes)) :
    ∃ symbol function expected, table.resolve ref = .ok symbol ∧ symbol.asFunction? = some function ∧
      symbol.rawName = name ∧ function.ParameterTypes table expected ∧
      List.Forall₂ (Ty.Alike table.pool) expected types ∧
      ∀ (validator : Validator) id arguments ty before after, validator.table = table → arguments.map Prod.snd = types →
        (Validator.Passes (validator.checkCall id ref arguments ty) before () after ↔
          (List.Forall₂ (fun parameter argument => parameter.sameShape argument = true) expected types ∧
            function.returnType.sameShape ty = true) ∧ before = after) := by
  obtain ⟨symbol, function, resolved, called⟩ := function_of_lookupFunction found
  have known := function?_eq_some.mpr ⟨symbol, resolved, called⟩
  obtain ⟨expected, texts, parameters, mangled, key⟩ := Function.buildMangled_eq_ok.mp (current symbol function resolved called)
  have listed : ∀ ty ∈ expected, ty.IsPlain table.pool := by
    intro ty member
    obtain ⟨parameter, inside, is⟩ := exists_of_mem_right parameters member
    exact clean function parameter ty known inside is
  obtain ⟨same, alike⟩ := cut_mangled listed plain mangled encoded key.symm
  refine ⟨symbol, function, expected, resolved, called, same, parameters, alike, ?_⟩
  rintro validator id arguments ty before after rfl rfl
  rw [Validator.checkCall_iff, takes_iff known parameters]

/-- A function `f` of a global structure `S`, inside of a scope with a structure `S` of its own. -/
def shadowed : SymbolTable :=
  { pool := ⟨#[
      { rawName := "S", id := ⟨96⟩, origin := .userDefined, kind := .struct { fields := [], atGlobalScope := true } },
      { rawName := "s", id := ⟨97⟩, origin := .userDefined, kind := .var { ty := .struct (.pool ⟨0⟩) } },
      { rawName := "f", id := ⟨98⟩, origin := .userDefined,
        kind := .function { signature := .growing [⟨1⟩] (some "f(\x7bS\x7d;"), returnType := .void } },
      { rawName := "S", id := ⟨99⟩, origin := .userDefined, kind := .struct { fields := [] } }]⟩
    supply := ⟨100⟩
    builtIns := {}
    globals := { bindings := [("f(\x7bS\x7d;", .pool ⟨2⟩), ("S", .pool ⟨0⟩)], functionNames := ["f"] }
    locals := [{ bindings := [("S", .pool ⟨3⟩)] }]
    profile := {} }

/-- The function is found for the inner structure, and takes the outer one only. -/
theorem lookupFunction_agrees_shadowed :
    [Ty.struct (.pool ⟨3⟩)].mapM (Ty.mangled shadowed.pool) = .ok ["\x7bS\x7d;"] ∧
    shadowed.lookupFunction "f(\x7bS\x7d;" = .ok (some (.pool ⟨2⟩)) ∧
    ∀ (validator : Validator) id argument ty before after, validator.table = shadowed →
      ¬ Validator.Passes (validator.checkCall id (.pool ⟨2⟩) [(argument, .struct (.pool ⟨3⟩))] ty) before () after := by
  have encoded : [Ty.struct (.pool ⟨3⟩)].mapM (Ty.mangled shadowed.pool) = .ok ["\x7bS\x7d;"] := rfl
  have found : shadowed.lookupFunction ("f" ++ mangledSeparator ++ String.join ["\x7bS\x7d;"]) = .ok (some (.pool ⟨2⟩)) := rfl
  refine ⟨encoded, found, fun validator id argument ty before after same passes => ?_⟩
  have named {index : Nat} {symbol : Symbol} (struct : index = 0 ∨ index = 3)
      (resolved : (SymbolRef.pool ⟨index⟩).resolve shadowed.pool = .ok symbol) :
      ';' ∉ symbol.rawName.toList ∧ '(' ∉ symbol.rawName.toList := by
    obtain rfl | rfl := struct <;> cases resolved <;> decide
  have plain : ∀ ty ∈ [Ty.struct (.pool ⟨3⟩)], ty.IsPlain shadowed.pool := by
    intro ty member ref symbol refers resolved
    obtain rfl := List.mem_singleton.mp member
    cases refers
    exact named (.inr rfl) resolved
  have clean : ∀ function parameter ty, shadowed.function? (.pool ⟨2⟩) = some function → parameter ∈ function.parameters →
      shadowed.variableType? parameter = some ty → ty.IsPlain shadowed.pool := by
    intro function parameter ty known listed is ref symbol refers resolved
    cases known
    obtain rfl := List.mem_singleton.mp listed
    cases is
    cases refers
    exact named (.inl rfl) resolved
  have current : ∀ symbol function, shadowed.resolve (.pool ⟨2⟩) = .ok symbol → symbol.asFunction? = some function →
      function.buildMangled symbol.rawName shadowed.pool = .ok ("f" ++ mangledSeparator ++ String.join ["\x7bS\x7d;"]) := by
    intro symbol function resolved called
    cases resolved
    cases called
    rfl
  obtain ⟨_, function, expected, resolved, called, _, parameters, _, accepts⟩ :=
    lookupFunction_agrees plain clean encoded found current
  cases resolved
  cases called
  obtain ⟨⟨shapes, _⟩, _⟩ := (accepts validator id _ ty before after same rfl).mp passes
  cases parameters with
  | cons first _ =>
    cases first
    cases shapes with
    | cons shape _ => exact absurd shape (by decide)

end SymbolTable
end ShaderTree
