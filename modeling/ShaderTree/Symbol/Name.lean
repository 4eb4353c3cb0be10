import ShaderTree.Ty.Mangle

/-!
Names of symbols: the one that a symbol prints under, and the mangled name that binds it in a scope.
Functions are bound under their name with the encodings of their parameters, so that overloads
differ; everything else is bound under its name.
-/
namespace ShaderTree

/-- Separates the name of a function from the encodings of its parameters. -/
def mangledSeparator : String := "("

namespace Function

/-- The mangled name of a function called `name` with the parameters that it has now. -/
def buildMangled (function : Function) (name : String) (pool : Pool) : Except Fault String := do
  let codes ← function.parameters.mapM fun parameter => do
    match (← parameter.resolve pool).asVariable? with
    | some var => var.ty.mangled pool
    | none => throw .signatureNotVariable
  return name ++ mangledSeparator ++ String.join codes

/-- The mangled name remembered, if there is one. -/
def mangled (function : Function) (name : String) (pool : Pool) : Except Fault String :=
  match function.signature.mangled? with
  | some mangled => .ok mangled
  | none => function.buildMangled name pool

end Function

namespace Symbol

/-- Nameless temporaries and parameters are named after their identity. -/
def name (symbol : Symbol) : Except Fault String :=
  if symbol.rawName ≠ "" then .ok symbol.rawName
  else if symbol.origin = .toolInternal || (symbol.origin = .empty && symbol.isVariable) then
    .ok ("s" ++ symbol.id.hex)
  else .error .namelessSymbol

/-- The key of the symbol in its scope. -/
def mangled (symbol : Symbol) (pool : Pool) : Except Fault String :=
  if symbol.origin = .empty then .error .namelessMangled
  else match symbol.kind with
    | .function function => function.mangled symbol.rawName pool
    | _ => symbol.name

end Symbol

end ShaderTree
