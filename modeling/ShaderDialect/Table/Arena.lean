/-!
# Arenas

An arena owns its items and hands out their numbers, counting from zero. An
item keeps its number for good.
-/

namespace ShaderDialect

structure Arena (α : Type) where
  items : Array α

namespace Arena

variable {α : Type}

def empty : Arena α :=
  ⟨#[]⟩

def ofList (items : List α) : Arena α :=
  ⟨items.toArray⟩

def size (arena : Arena α) : Nat :=
  arena.items.size

def isEmpty (arena : Arena α) : Bool :=
  arena.items.isEmpty

/-- Add an item. Its number is the size of the arena before. -/
def push (arena : Arena α) (item : α) : Nat × Arena α :=
  (arena.size, ⟨arena.items.push item⟩)

def get? (arena : Arena α) (id : Nat) : Option α :=
  arena.items[id]?

theorem get?_push (arena : Arena α) (item : α) (id : Nat) :
    (arena.push item).2.get? id = if id = arena.size then some item else arena.get? id :=
  Array.getElem?_push

/-- Put an item in the place of another, which is returned. There must be
one. -/
def replace? (arena : Arena α) (id : Nat) (item : α) : Option (α × Arena α) :=
  (arena.get? id).map fun old => (old, ⟨arena.items.setIfInBounds id item⟩)

def toList (arena : Arena α) : List α :=
  arena.items.toList

/-- The items with their numbers, in order. -/
def entries (arena : Arena α) : List (Nat × α) :=
  arena.toList.zipIdx.map fun (item, id) => (id, item)

end Arena

end ShaderDialect
