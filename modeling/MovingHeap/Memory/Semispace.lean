import MovingHeap.Memory.Arena
import MovingHeap.Memory.RegionBounds

/-! A region that is filled front to back and never freed in part.
Old objects lie in one; a full collection fills another and drops the first.
-/

namespace MovingHeap

/-- Objects lie back to back in the words below `cursor`. -/
structure Semispace where
  space : Space
  words : Arena
  cursor : Nat := 0

namespace Semispace

/-- Words of the region. -/
def capacity (region : Semispace) : Nat := region.words.size

/-- Words not allocated yet. -/
def free (region : Semispace) : Nat := region.capacity - region.cursor

/-- Whether `addr` points at an allocated word of this region. -/
def contains (region : Semispace) (addr : Address) : Bool :=
  addr.space == region.space && addr.offset < region.cursor

/-- The address at the cursor. -/
def next (region : Semispace) : Address := .pack region.space region.cursor

/-- Allocates the next `words`, if they are free. -/
def bump? (region : Semispace) (words : Nat) : Option Semispace :=
  if region.cursor + words ≤ region.capacity then
    some { region with cursor := region.cursor + words }
  else none

/-- The free words, where the next object will be copied. -/
def tail (region : Semispace) : Window := region.words.window region.cursor region.free

/-- Overwrites the first free words; what does not fit is dropped. -/
def fillTail (region : Semispace) (words : List Word) : Semispace :=
  { region with words := region.words.setMany region.cursor (words.take region.free) }

/-- The word at an allocated offset. -/
def word? (region : Semispace) (offset : Nat) : Option Word :=
  if offset < region.cursor then region.words.get? offset else none

/-- The allocated words from `start` on. -/
def slice? (region : Semispace) (start count : Nat) : Option (List Word) :=
  if start + count ≤ region.cursor then region.words.slice? start count else none

/-- Writes one word. -/
def setWord (region : Semispace) (offset : Nat) (word : Word) : Semispace :=
  { region with words := region.words.set offset word }

/-- The extent of the region. -/
def bounds (region : Semispace) : RegionBounds :=
  .ofRegion region.space region.cursor region.capacity

end Semispace

end MovingHeap
