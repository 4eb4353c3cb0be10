import ShaderTree.Validity.Expression

/-!
Validation of statements and of whole trees. Blocks, loops and functions open scopes; a function
sees its parameters, and what its returns yield is compared with its return type.
-/
namespace ShaderTree

namespace Validator

/-- Checks the statements of a block in a scope of their own. -/
def block (statement : NodeId → ValidateM Unit) (statements : List NodeId) : ValidateM Unit :=
  inScope [] (statements.forM statement)

/-- Checks the block at `id`, where only a block may stand. -/
def body (validator : Validator) (statement : NodeId → ValidateM Unit) (id : NodeId) :
    ValidateM Unit := do
  match ← validator.fetch id with
  | .block statements => block statement statements
  | _ => reject (.expectedStatement id)

/-- Checks the initial value of the variable that the node at `declarator` uses. -/
def initializer (validator : Validator) (expression : NodeId → ValidateM Ty)
    (declarator value : NodeId) : ValidateM Unit := do
  let found ← expression value
  let some expected ← validator.tree.ty? declarator | reject (.expectedExpression declarator)
  require validator.checks.types (found.sameShape expected) (.typeMismatch value found)

/-- Declares the variable that the node at `id` uses. -/
def declarator (validator : Validator) (id : NodeId) : ValidateM Unit := do
  match ← validator.fetch id with
  | .symbol symbol ty =>
    validator.checkHandle symbol
    let some var := (← validator.table.resolve symbol).asVariable?
      | reject (.expectedExpression id)
    require validator.checks.types (var.ty.sameShape ty) (.typeMismatch id ty)
    declare symbol
  | _ => reject (.expectedExpression id)

/-- Checks the value of a branch at `id`, in a function returning `returns` if in one. -/
def branchValue (validator : Validator) (expression : NodeId → ValidateM Ty)
    (returns : Option Ty) (kind : BranchKind) (id : NodeId) : ValidateM Unit := do
  let found ← expression id
  if let some expected := returns then
    if kind = .returnFrom then
      require validator.checks.types (expected.sameShape found) (.typeMismatch id found)

/-- Checks `node`, met at `id`, with `statement` and `expression` for its parts. `returns` is the
type that the function around it returns, `none` outside of functions. -/
def statementNode (validator : Validator) (statement : Option Ty → NodeId → ValidateM Unit)
    (expression : NodeId → ValidateM Ty) (returns : Option Ty) (id : NodeId) (node : Node) :
    ValidateM Unit := do
  match node with
  | .block statements => block (statement returns) statements
  | .declaration declarator initializer =>
    if let some value := initializer then
      validator.initializer expression declarator value
    validator.declarator declarator
  | .ifElse condition accept reject =>
    validator.condition expression condition
    validator.body (statement returns) accept
    if let some reject := reject then validator.body (statement returns) reject
  | .loop _ init condition step body =>
    inScope [] do
      if let some init := init then statement returns init
      if let some condition := condition then validator.condition expression condition
      if let some step := step then discard (expression step)
      validator.body (statement returns) body
  | .branch kind value =>
    if let some value := value then validator.branchValue expression returns kind value
  | .prototype function => validator.checkFunction id function
  | .definition function body =>
    if returns.isSome then reject (.expectedStatement id)
    validator.checkFunction id function
    let some function := (← validator.table.resolve function).asFunction?
      | reject (.unknownFunction id)
    inScope function.parameters (validator.body (statement (some function.returnType)) body)
  | _ => discard (validator.expressionNode expression id node)

/-- Checks the statement at `id`, looking at most `depth` levels deep. -/
def statement (validator : Validator) :
    (depth : Nat) → (returns : Option Ty) → (id : NodeId) → ValidateM Unit
  | 0, _, _ => throw (.fault .endless)
  | depth + 1, returns, id => do
    validator.statementNode (statement validator depth) (validator.expression depth) returns id
      (← validator.fetch id)

/-- A tree without cycles is no deeper than its arena. A cycle can only be left by way of a nested
function definition, which is an error, so no path that ends meets a node more than twice. -/
def depth (validator : Validator) : Nat := 2 * validator.tree.nodes.size + 2

/-- Checks the whole tree. -/
def run (validator : Validator) : Except Rejection Unit :=
  (validator.body (validator.statement validator.depth none) validator.tree.root).run' {}

end Validator

/-- Checks that `tree` is a valid program over `table`. -/
def Tree.validate (tree : Tree) (table : SymbolTable) (checks : Checks) : Except Rejection Unit :=
  Validator.run { checks, tree, table }

end ShaderTree
