/-!
# Side tables

A side table attaches values to some of the numbers that an arena has handed
out. It grows up to the largest number that has a value; numbers in between
have none.
-/

namespace ShaderDialect

structure SideTable (α : Type) where
  slots : Array (Option α)

namespace SideTable

variable {α : Type}

/-- A table without values, with room for `capacity` keys. -/
def emptyWithCapacity (capacity : Nat) : SideTable α :=
  ⟨Array.emptyWithCapacity capacity⟩

def get? (table : SideTable α) (key : Nat) : Option α :=
  (table.slots[key]?).join

def contains (table : SideTable α) (key : Nat) : Bool :=
  (table.get? key).isSome

/-- The slots with room for `key`. -/
def grow (slots : Array (Option α)) (key : Nat) : Array (Option α) :=
  slots ++ Array.replicate (key + 1 - slots.size) none

/-- Give `key` a value, in place of the one it had, which is returned. -/
def insert (table : SideTable α) (key : Nat) (value : α) : Option α × SideTable α :=
  let slots := grow table.slots key
  ((slots[key]?).join, ⟨slots.setIfInBounds key (some value)⟩)

theorem size_grow (slots : Array (Option α)) (key : Nat) :
    key < (grow slots key).size := by
  simp [grow]
  omega

theorem join_grow (slots : Array (Option α)) (key other : Nat) :
    ((grow slots key)[other]?).join = (slots[other]?).join := by
  by_cases inside : other < slots.size
  · simp [grow, Array.getElem?_append, inside]
  · rw [grow, Array.getElem?_append_right (by omega), Array.getElem?_replicate]
    split <;> simp [Nat.le_of_not_lt inside]

theorem insert_fst (table : SideTable α) (key : Nat) (value : α) :
    (table.insert key value).1 = table.get? key :=
  join_grow table.slots key key

theorem get?_insert (table : SideTable α) (key other : Nat) (value : α) :
    (table.insert key value).2.get? other =
      if other = key then some value else table.get? other := by
  by_cases same : other = key
  · subst same
    simp [insert, get?, size_grow]
  · have apart : ¬ key = other := fun h => same h.symm
    simp [insert, get?, apart, same, join_grow]

/-- The keys that have a value with their values, in ascending order. -/
def toList (table : SideTable α) : List (Nat × α) :=
  table.slots.toList.zipIdx.filterMap fun (slot, key) =>
    slot.map fun value => (key, value)

/-- The number of keys that have a value. -/
def size (table : SideTable α) : Nat :=
  table.slots.toList.countP Option.isSome

def isEmpty (table : SideTable α) : Bool :=
  table.size = 0

end SideTable

end ShaderDialect
