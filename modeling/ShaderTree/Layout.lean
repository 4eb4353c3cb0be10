import ShaderTree.Named

/-!
Layout qualifiers of fields and interface blocks.
-/
namespace ShaderTree

inductive BlockStorage where
  | shared
  | packed
  | std140
  | std430
  deriving DecidableEq, Repr

instance : Named BlockStorage where
  all := [.shared, .packed, .std140, .std430]
  text
    | .shared => "Shared"
    | .packed => "Packed"
    | .std140 => "Std140"
    | .std430 => "Std430"

inductive MatrixPacking where
  | columnMajor
  | rowMajor
  deriving DecidableEq, Repr

instance : Named MatrixPacking where
  all := [.columnMajor, .rowMajor]
  text
    | .columnMajor => "ColumnMajor"
    | .rowMajor => "RowMajor"

structure Layout where
  location : Option UInt32 := none
  binding : Option UInt32 := none
  storage : Option BlockStorage := none
  packing : Option MatrixPacking := none
  deriving DecidableEq, Repr

end ShaderTree
