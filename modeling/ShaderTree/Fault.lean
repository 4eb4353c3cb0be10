/-!
Faults: the broken preconditions that end a run. A fault is not an answer about a program, which is
what a `ValidationError` or a `Redefinition` is; nothing runs after it.
-/
namespace ShaderTree

/-- Why a run was abandoned. -/
inductive Fault where
  /-- A handle or an index lies outside of what it indexes. -/
  | outOfBounds
  /-- A count does not fit 32 bits. -/
  | overflow
  | globalScopePopped
  | namelessMangled
  | parameterConsumed
  | userSymbolUnnamed
  | builtInInPool
  | namelessSymbol
  /-- A symbol that is no variable was given as the parameter of a function. -/
  | parameterNotVariable
  /-- The signature of a function holds a symbol that is no variable. -/
  | signatureNotVariable
  | notFunction
  | builtInImmutable
  | builtInUndefined
  | notVariable
  | notBlock
  | notIndexable
  | leafRevisited
  | noEnclosingBlock
  | excessArgument
  | notExpression
  | notComponents
  /-- A recursion went deeper than any input without cycles takes it. -/
  | endless
  deriving DecidableEq, Repr

namespace Fault

def message : Fault → String
  | outOfBounds => "index out of bounds"
  | overflow => "arithmetic overflow"
  | globalScopePopped => "the global scope cannot be popped"
  | namelessMangled => "mangled name requested for a nameless symbol"
  | parameterConsumed => "parameter already converted to a variable"
  | userSymbolUnnamed => "user-defined symbols must be named"
  | builtInInPool => "assertion `left == right` failed"
  | namelessSymbol => "only internal symbols and nameless variables have generated names"
  | parameterNotVariable => "assertion failed: self.symbols[parameter].is_variable()"
  | signatureNotVariable => "function parameters are variables"
  | notFunction => "is not a function"
  | builtInImmutable => "built-in functions are immutable"
  | builtInUndefined => "built-in functions have no definition"
  | notVariable => "is not a variable"
  | notBlock => "is not a block"
  | notIndexable => "can not be indexed"
  | leafRevisited => "leaf nodes have a single visit"
  | noEnclosingBlock => "no enclosing block to insert"
  | excessArgument => "has more arguments than components"
  | notExpression => "is not an expression"
  | notComponents => "is not a scalar, vector or matrix"
  | endless => "endless recursion"

end Fault

end ShaderTree
