import ShaderTree.Pattern
import ShaderTree.Ty.Size
import ShaderTree.Walk.Basic

/-!
Scalarization of constructors. Vectors built from a matrix, and matrices built from a vector, trip
some graphics drivers. Their arguments are copied to temporaries, and the ones that trip are taken
apart, so that each contributes its components one by one:

    vec4 v = vec4(1, m);

becomes

    float s1 = 1;
    mat4 s2 = m;
    vec4 v = vec4(s1, s2[0][0], s2[0][1], s2[0][2]);
-/
namespace ShaderTree

namespace Scalarize

/-- What is taken apart: the matrices in constructors of vectors, or the vectors in those of
matrices. -/
inductive Target where
  | matrices
  | vectors
  deriving DecidableEq, Repr

/-- How a temporary is used in the place of the argument copied to it. -/
inductive Part where
  | whole
  | component (index : Nat)
  | element (column row : Nat)
  deriving DecidableEq, Repr

/-- The parts of an argument of type `ty` for a constructor that needs `needed` more components,
with the number needed after them. No more parts are taken than needed, and an argument used as a
whole may bring more than that. Matrices are taken apart column by column. -/
def parts (target : Target) (needed : Nat) (ty : Ty) : Except Fault (List Part × Nat) :=
  if ty.isScalar then .ok ([.whole], needed - 1)
  else if ty.isVector then
    match target with
    | .vectors =>
      let taken := min needed ty.nominalSize
      .ok ((List.range taken).map .component, needed - taken)
    | .matrices => .ok ([.whole], needed - ty.nominalSize)
  else if ty.isMatrix then
    let elements := ty.columns * ty.rows
    match target with
    | .matrices =>
      let taken := min needed elements
      .ok ((List.range taken).map fun index => .element (index / ty.rows) (index % ty.rows),
        needed - taken)
    | .vectors => .ok ([.whole], needed - elements)
  else .error .notComponents

/-- Appends the use of a part of `temporary`. -/
def appendPart (tree : Tree) (table : SymbolTable) (temporary : SymbolHandle) (part : Part) :
    Except Fault (NodeId × Tree) := do
  let (whole, tree) ← tree.appendUse table temporary
  match part with
  | .whole => return (whole, tree)
  | .component index => tree.appendIndexed whole index
  | .element column row => tree.appendElement whole column row

/-- A walk that counts the constructors scalarized so far. -/
abbrev ScalarizeM := WalkM Nat

/-- Copies `argument` to a temporary declared before the statement walked, and yields the nodes that
take its place, with the number of components needed after them. -/
def splitArgument (site : Site) (target : Target) (needed : Nat) (argument : NodeId) :
    ScalarizeM (List NodeId × Nat) := do
  if needed = 0 then throw .excessArgument
  let some ty ← Walk.work (Workspace.inspect fun tree _ => tree.ty? argument)
    | throw .notExpression
  let temporary ← Walk.work (Workspace.createTemporary ty)
  let declaration ← Walk.work (Workspace.onTree (·.appendDeclaration · temporary argument))
  Walk.insertBefore site declaration
  let (parts, needed) ← Walk.work (Workspace.inspect fun _ _ => parts target needed ty)
  let nodes ← parts.mapM fun part =>
    Walk.work (Workspace.onTree fun tree table => appendPart tree table temporary part)
  return (nodes, needed)

/-- The nodes that take the place of the given arguments. -/
def splitArguments (site : Site) (target : Target) : (needed : Nat) → List NodeId →
    ScalarizeM (List NodeId)
  | _, [] => return []
  | needed, argument :: rest => do
    let (nodes, needed) ← splitArgument site target needed argument
    return nodes ++ (← splitArguments site target needed rest)

/-- Scalarizes the constructor at `id`, which has the given arguments and type. -/
def constructor (site : Site) (id : NodeId) (op : AggregateOp) (arguments : List NodeId) (ty : Ty) :
    ScalarizeM Unit := do
  let target := if ty.isVector then .matrices else .vectors
  Walk.work (Workspace.setNode id (.aggregate op [] ty))
  let needed ← Walk.work (Workspace.inspect fun _ table => ty.objectSize table.pool)
  let nodes ← splitArguments site target needed arguments
  Walk.work (Workspace.setNode id (.aggregate op nodes ty))

def visit (moment : Moment) (site : Site) (id : NodeId) : ScalarizeM Bool := do
  let .aggregate op arguments ty ← Walk.work (Workspace.node id) | return true
  if moment = .before then
    let pattern : Pattern := { mixedConstructor := true }
    let selected ← Walk.work (Workspace.inspect fun tree table =>
      pattern.selects tree table.pool id site.parent?)
    if selected then
      constructor site id op arguments ty
      Walk.work (Workspace.record (.scalarized id))
      Walk.modifyOwn (· + 1)
  return true

/-- Below a constructor there may be two index operators and the use of a temporary. -/
def visitor : Visitor Nat := { visit, growth := 3 }

end Scalarize

/-- Scalarizes the constructors in reach of the root. -/
def Workspace.scalarizeConstructors : WorkM Unit := do
  let count ← Workspace.walk Scalarize.visitor 0
  Workspace.record (.scalarizedCount count)

end ShaderTree
