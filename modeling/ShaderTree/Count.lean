import ShaderTree.Fault

/-!
Counts of scalars and components. They are 32 bits wide, and a sum, difference or product that
leaves that range is a fault rather than a wrapped number.
-/
namespace ShaderTree.Count

/-- One more than the largest count. -/
def limit : Nat := UInt32.size

def add (a b : Nat) : Except Fault Nat :=
  if a + b < limit then .ok (a + b) else .error .overflow

def mul (a b : Nat) : Except Fault Nat :=
  if a * b < limit then .ok (a * b) else .error .overflow

def sub (a b : Nat) : Except Fault Nat :=
  if b ≤ a then .ok (a - b) else .error .overflow

end ShaderTree.Count
