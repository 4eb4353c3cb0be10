import ShaderTree.BuiltIn
import ShaderTree.Count

/-!
The number of scalars in a value. Structures and interface blocks are counted through the fields of
their symbols, so counting needs the pool and ends only where no structure contains itself.
-/
namespace ShaderTree

/-- How deep structures of `pool` can nest: every one of the pool on one path, then a built-in one.
-/
def Arena.nesting (pool : Pool) : Nat := pool.size + 2

namespace Ty

/-- Counts through at most `depth` levels of structures. -/
def countWithin (pool : Pool) : (depth : Nat) → Ty → Except Fault Nat
  | 0, _ => .error .endless
  | depth + 1, ty => do
    let element ← match ty.shape with
      | .void => pure 0
      | .scalar _ | .sampler _ => pure 1
      | .vector _ size => pure size.count
      | .matrix columns rows => pure (columns.count * rows.count)
      | .struct symbol | .block symbol => do
        (← symbol.resolve pool).fields.foldlM
          (fun total field => do Count.add total (← countWithin pool depth field.ty)) 0
    Count.mul element ty.arrayFactor

/-- The number of scalars in a value of type `ty`. -/
def objectSize (pool : Pool) (ty : Ty) : Except Fault Nat :=
  ty.countWithin pool pool.nesting

end Ty

end ShaderTree
