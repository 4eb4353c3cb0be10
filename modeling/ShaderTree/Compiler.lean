import ShaderTree.Pass.Scalarize
import ShaderTree.Pass.StructNames
import ShaderTree.Validity.Statement

/-!
Compilations: the passes that are switched on, one after the other, each followed by a validation.
The first tree that is not valid ends the compilation.
-/
namespace ShaderTree

inductive Pass where
  | structNames
  | scalarize
  deriving DecidableEq, Repr

def Pass.text : Pass → String
  | structNames => "regenerate_struct_names"
  | scalarize => "scalarize_vec_and_mat_constructor_args"

structure CompileOptions where
  scalarize : Bool := false
  structNames : Bool := false
  /-- Validates the tree before the first pass. -/
  validate : Bool := false
  deriving DecidableEq, Repr

namespace CompileOptions

/-- One bit for each option. -/
def bits (options : CompileOptions) : Nat :=
  options.scalarize.toNat + 2 * options.structNames.toNat + 4 * options.validate.toNat

/-- The passes switched on, in the order in which they run. -/
def passes (options : CompileOptions) : List Pass :=
  (if options.structNames then [.structNames] else [])
    ++ if options.scalarize then [.scalarize] else []

end CompileOptions

/-- A tree found invalid: as it was parsed, or after a pass. -/
structure CompileError where
  pass : Option Pass
  error : ValidationError
  deriving DecidableEq

namespace CompileError

def passText (error : CompileError) : String :=
  match error.pass with
  | some pass => pass.text
  | none => "parse"

def message (error : CompileError) : String := "Tree is invalid after `" ++ error.passText ++ "`"

end CompileError

structure Compiler where
  options : CompileOptions := { validate := true }
  checks : Checks := .all
  deriving DecidableEq, Repr

namespace Compiler

/-- Validates the tree and logs the error if there is one. -/
def validateTree (compiler : Compiler) : WorkM (Except ValidationError Unit) := do
  let space ← get
  match space.tree.validate space.table compiler.checks with
  | .ok () => return .ok ()
  | .error (.fault fault) => throw fault
  | .error (.invalid error) =>
    Workspace.record (.invalidTree error)
    return .error error

/-- Applies `pass` to the tree, then validates it. -/
def runPass (compiler : Compiler) (pass : Pass) : WorkM (Except ValidationError Unit) := do
  match pass with
  | .structNames => Workspace.renameStructs
  | .scalarize => Workspace.scalarizeConstructors
  compiler.validateTree

/-- Runs `passes` up to the first one that leaves an invalid tree. -/
def runPasses (compiler : Compiler) : List Pass → WorkM (Except CompileError Unit)
  | [] => return .ok ()
  | pass :: rest => do
    Workspace.record (.passStarted pass.text)
    match ← compiler.runPass pass with
    | .error error => return .error { pass := some pass, error }
    | .ok () =>
      Workspace.record (.passFinished pass.text)
      runPasses compiler rest

/-- Compiles the program of the workspace. -/
def compile (compiler : Compiler) : WorkM (Except CompileError Unit) := do
  if compiler.options.validate then
    if let .error error ← compiler.validateTree then
      return .error { pass := none, error }
  compiler.runPasses compiler.options.passes

end Compiler

end ShaderTree
