import MovingHeap.Memory.Arena
import MovingHeap.Value

/-! The table of global constants, roots found by index.
Slots come in groups; a group that was written since the last collection is dirty, and only dirty
groups are roots of a minor collection.
-/

namespace MovingHeap

/-- A table of as many slots as `slots` has words, with a dirty flag for each group of them. -/
structure ConstantTable where
  slots : Arena
  dirty : Array Bool

namespace ConstantTable

/-- Slots in a group. -/
def groupSize : Nat := 8

/-- A table of `capacity` slots at least, a power of two. -/
def withCapacity (capacity : Nat) : ConstantTable :=
  let size := nextPowerOfTwo (max capacity groupSize)
  ⟨.zeroed size, Array.replicate (size / groupSize) false⟩

/-- The number of slots. -/
def capacity (table : ConstantTable) : Nat := table.slots.size

/-- The constant at an index, null if it was never set. -/
def get (table : ConstantTable) (index : Nat) : Value :=
  ⟨(table.slots.get? index).getD 0⟩

/-- Widens the table to the next power of two if `index` lies past its end. -/
def grownFor (table : ConstantTable) (index : Nat) : ConstantTable :=
  if index < table.capacity then table
  else
    let size := nextPowerOfTwo (index + 1)
    ⟨table.slots.grow (size - table.capacity),
      table.dirty ++ Array.replicate (size / groupSize - table.dirty.size) false⟩

/-- Replaces the constant at an index without marking its group. -/
def replace (table : ConstantTable) (index : Nat) (value : Value) : ConstantTable :=
  { table with slots := table.slots.set index value.raw }

/-- Sets the constant at an index and marks its group. -/
def set (table : ConstantTable) (index : Nat) (value : Value) : ConstantTable :=
  let table := (table.grownFor index).replace index value
  { table with dirty := table.dirty.setIfInBounds (index / groupSize) true }

/-- Whether the group of an index was written since the last collection. -/
def isDirty (table : ConstantTable) (index : Nat) : Bool :=
  table.dirty[index / groupSize]?.getD false

/-- The dirty groups, ascending. -/
def dirtyGroups (table : ConstantTable) : List Nat :=
  (List.range table.dirty.size).filter fun group => table.dirty[group]?.getD false

/-- The indices of a group. -/
def groupIndices (group : Nat) : List Nat := List.range' (group * groupSize) groupSize

/-- Every index. -/
def roots (table : ConstantTable) : List Nat := List.range table.capacity

/-- The indices in dirty groups. -/
def dirtyRoots (table : ConstantTable) : List Nat := table.dirtyGroups.flatMap groupIndices

/-- Takes the mark off every group. -/
def clearDirty (table : ConstantTable) : ConstantTable :=
  { table with dirty := Array.replicate table.dirty.size false }

/-- Clearing leaves nothing dirty. -/
@[simp] theorem isDirty_clearDirty (table : ConstantTable) (index : Nat)
    : table.clearDirty.isDirty index = false := by
  simp only [isDirty, clearDirty, Array.getElem?_replicate]
  split <;> rfl

/-- A replaced constant is seen at its index and at no other. -/
theorem get_replace (table : ConstantTable) (index other : Nat) (value : Value)
    (h : index < table.capacity)
    : (table.replace index value).get other = if index = other then value else table.get other := by
  by_cases same : index = other
  · subst same
    simp [get, replace, Arena.get?, Arena.get_set, show index < table.slots.size from h]
  · simp [get, replace, Arena.get?, Arena.get_set, same]

end ConstantTable

end MovingHeap
