import ShaderTree.Ty.Size
import ShaderTree.Validity.Error

/-!
Constructors. Arrays and structures take one argument for each element or field. Scalars, vectors
and matrices are built component by component: the arguments provide enough components, and every
one of them contributes. A single scalar fills a vector or the diagonal of a matrix, and a single
matrix may build any other.
-/
namespace ShaderTree

/-- The arguments of a constructor or call with their types. -/
abbrev Arguments := List (NodeId × Ty)

namespace Arguments

/-- Refuses another number of arguments than `expected`. -/
def checkLength (arguments : Arguments) (node : NodeId) (expected : Nat) : Except Rejection Unit :=
  if arguments.length = expected then .ok ()
  else .error (.invalid (.constructorSize node expected arguments.length))

/-- Refuses the first argument that has not the shape given for its place. -/
def checkShapes (arguments : Arguments) (expected : List Ty) : Except Rejection Unit :=
  match (arguments.zip expected).find? fun (argument, ty) => !argument.2.sameShape ty with
  | some ((node, found), _) => .error (.invalid (.typeMismatch node found))
  | none => .ok ()

/-- The number of components of all arguments. -/
def componentCount (pool : Pool) (arguments : Arguments) : Except Rejection Nat :=
  arguments.foldlM
    (fun given (node, ty) => do
      unless ty.hasComponents do throw (.invalid (.typeMismatch node ty))
      Count.add given (← ty.objectSize pool))
    0

/-- Whether `given` components, with none to spare before the last argument, build a value of type
`ty` that has `expected`. -/
def build (pool : Pool) (ty : Ty) (expected given : Nat) (arguments : Arguments) :
    Except Fault Bool :=
  match arguments with
  | [] => .ok false
  | [(_, single)] =>
    .ok (single.isScalar || (single.isMatrix && ty.isMatrix) || expected ≤ given)
  | _ :: second :: rest => do
    if given < expected then return false
    let last := (second :: rest).getLast (List.cons_ne_nil second rest)
    return (← Count.sub given (← last.2.objectSize pool)) < expected

end Arguments

/-- The rule for scalars, vectors and matrices. -/
def checkComponents (pool : Pool) (node : NodeId) (ty : Ty) (arguments : Arguments) :
    Except Rejection Unit := do
  let given ← arguments.componentCount pool
  let expected ← ty.objectSize pool
  unless ← arguments.build pool ty expected given do
    throw (.invalid (.constructorSize node expected given))

/-- Checks the arguments of the constructor at `node`, which builds a `ty`. -/
def checkConstruct (pool : Pool) (node : NodeId) (ty : Ty) (arguments : Arguments) :
    Except Rejection Unit := do
  match ty.array with
  | some size =>
    arguments.checkLength node size.count
    arguments.checkShapes (List.replicate arguments.length ty.element)
  | none =>
    match ty.shape with
    | .scalar _ | .vector _ _ | .matrix _ _ => checkComponents pool node ty arguments
    | .struct symbol =>
      let fields := (← symbol.resolve pool).fields
      arguments.checkLength node fields.length
      arguments.checkShapes (fields.map Field.ty)
    | _ => throw (.invalid (.typeMismatch node ty))

end ShaderTree
