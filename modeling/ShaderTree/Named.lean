/-!
Enumerations whose values go by fixed names, in messages and for callers.
-/
namespace ShaderTree

class Named (α : Type) where
  /-- Every value once. -/
  all : List α
  text : α → String

/-- The value of a given name. -/
def Named.ofText? [Named α] (text : String) : Option α :=
  Named.all.find? fun value => Named.text value = text

end ShaderTree
