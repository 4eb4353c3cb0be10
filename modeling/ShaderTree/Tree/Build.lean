import ShaderTree.Tree.Basic
import ShaderTree.SymbolTable

/-!
Nodes that passes build: constant indices, indexed vectors and matrices, and temporaries with their
declarations.
-/
namespace ShaderTree

/-- The 32 bits of a count read as a signed number. -/
def Scalar.ofIndex (index : Nat) : Scalar := .sint (Int32.ofNat index)

/-- A variable for an intermediate value of type `ty`. It has no name and is bound in no scope. -/
def SymbolTable.createTemporary (table : SymbolTable) (ty : Ty) :
    Except Fault (SymbolHandle × SymbolTable) :=
  table.createVariable "" (ty.withQualifier .temporary) .toolInternal

namespace Tree

/-- The constant `index`, of type `int`. -/
def appendIndex (tree : Tree) (index : Nat) : NodeId × Tree :=
  tree.append (.constant [.ofIndex index] ((Ty.int.withPrecision .high).withQualifier .const))

/-- `base[index]`, for a base that can be indexed. -/
def appendIndexed (tree : Tree) (base : NodeId) (index : Nat) : Except Fault (NodeId × Tree) := do
  match (← tree.ty? base).bind Ty.indexed? with
  | some ty =>
    let (right, tree) := tree.appendIndex index
    return tree.append (.binary .indexDirect base right ty)
  | none => throw .notIndexable

/-- `base[column][row]`, for a matrix. -/
def appendElement (tree : Tree) (base : NodeId) (column row : Nat) :
    Except Fault (NodeId × Tree) := do
  let (selected, tree) ← tree.appendIndexed base column
  tree.appendIndexed selected row

/-- A use of `variable`, typed like it. -/
def appendUse (tree : Tree) (table : SymbolTable) (handle : SymbolHandle) :
    Except Fault (NodeId × Tree) := do
  match (← table.pool.read handle).asVariable? with
  | some var => return tree.append (.symbol (.pool handle) var.ty)
  | none => throw .notVariable

/-- The declaration of the variable at `handle` with an initial value. -/
def appendDeclaration (tree : Tree) (table : SymbolTable) (handle : SymbolHandle)
    (initializer : NodeId) : Except Fault (NodeId × Tree) := do
  let (declarator, tree) ← tree.appendUse table handle
  return tree.append (.declaration declarator (some initializer))

/-- The constant that the node at `id` is, if it is a single integer that is not negative. -/
def directIndex? (tree : Tree) (id : NodeId) : Except Fault (Option Nat) := do
  match ← tree.read id with
  | .constant [.sint value] _ => return if 0 ≤ value then some value.toInt.toNat else none
  | .constant [.uint value] _ => return some value.toNat
  | _ => return none

end Tree

end ShaderTree
