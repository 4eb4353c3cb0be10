import ShaderTree.Fault

/-!
Arenas: append-only stores whose items refer to each other by `Handle`. Items are never removed, so
a handle stays valid in the arena that gave it out; a handle from elsewhere is refused.
-/
namespace ShaderTree

/-- What an arena stores. Handles of different items do not mix. -/
inductive Item where
  | node
  | symbol
  | constant
  | integer
  deriving DecidableEq, Repr

/-- How errors call an item. -/
def Item.text : Item → String
  | node => "weft::tree::Node"
  | symbol => "weft::symbol::Symbol"
  | constant => "constant"
  | integer => "i64"

/-- A position in an arena, counted from zero. -/
structure Handle (item : Item) where
  index : Nat
  deriving DecidableEq, Hashable, Ord, Repr

instance : LawfulBEq (Handle item) := inferInstance

/-- Handles print counted from one. -/
def Handle.text (handle : Handle item) : String :=
  s!"[{handle.index + 1}]"

/-- A handle that its arena does not hold. -/
structure BadHandle where
  item : Item
  index : Nat
  deriving DecidableEq, Repr

def BadHandle.message (bad : BadHandle) : String :=
  let item := bad.item.text
  s!"Handle {bad.index} of {item} is either not present, or inaccessible yet"

structure Arena (item : Item) (α : Type u) where
  items : Array α
  deriving DecidableEq, Repr

namespace Arena

def empty : Arena item α := ⟨#[]⟩

def size (arena : Arena item α) : Nat := arena.items.size

def isEmpty (arena : Arena item α) : Bool := arena.items.isEmpty

/-- The item and its new handle; the handles given out before keep their items. An arena takes any number of
items: one with more items than 32 bits can number is out of scope. -/
def append (arena : Arena item α) (value : α) : Handle item × Arena item α :=
  (⟨arena.items.size⟩, ⟨arena.items.push value⟩)

def get? (arena : Arena item α) (handle : Handle item) : Option α :=
  arena.items[handle.index]?

def contains (arena : Arena item α) (handle : Handle item) : Bool :=
  handle.index < arena.items.size

/-- The item at `handle`, for callers that answer a wrong handle. -/
def lookup (arena : Arena item α) (handle : Handle item) : Except BadHandle α :=
  match arena.get? handle with
  | some value => .ok value
  | none => .error ⟨item, handle.index⟩

def check (arena : Arena item α) (handle : Handle item) : Except BadHandle Unit :=
  if arena.contains handle then .ok () else .error ⟨item, handle.index⟩

/-- The item at `handle`, for callers that rely on it. -/
def read (arena : Arena item α) (handle : Handle item) : Except Fault α :=
  match arena.get? handle with
  | some value => .ok value
  | none => .error .outOfBounds

/-- Replaces the item at `handle`. -/
def write (arena : Arena item α) (handle : Handle item) (value : α) :
    Except Fault (Arena item α) :=
  if arena.contains handle then .ok ⟨arena.items.setIfInBounds handle.index value⟩
  else .error .outOfBounds

/-- The items in the order of their handles. -/
def entries (arena : Arena item α) : List (Handle item × α) :=
  arena.items.toList.zipIdx.map fun (value, index) => (⟨index⟩, value)

end Arena

end ShaderTree
