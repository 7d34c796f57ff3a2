import MovingHeap.Config
import MovingHeap.Memory.Arena
import MovingHeap.Memory.RegionBounds

/-! The region objects are born in.
Allocation moves a cursor up from the bottom; the slots that the write barrier recorded are pushed
down from the top of the same memory. A collection is forced before the two ends meet.
-/

namespace MovingHeap

/-- How many of the last recorded slots are searched for duplicates. -/
def dedupWindow : Nat := 3

/-- Words below `cursor` are allocated, words from `bufferStart` on hold recorded slots. -/
structure BirthRegion where
  words : Arena
  cursor : Nat
  bufferStart : Nat
  /-- Words kept free between the two ends by allocation. -/
  margin : Nat

namespace BirthRegion

/-- An empty region over `words`. -/
def ofArena (words : Arena) (margin : Nat) : BirthRegion where
  words
  cursor := 0
  bufferStart := words.size
  margin

/-- Words of the region, recorded slots included. -/
def capacity (region : BirthRegion) : Nat := region.words.size

/-- The largest object the region can ever hold. -/
def maxObjectWords (region : BirthRegion) : Nat := region.capacity - region.margin

/-- Whether `words` more can be allocated without touching the margin. -/
def fits (region : BirthRegion) (words : Nat) : Bool :=
  region.cursor + words + region.margin ≤ region.bufferStart

/-- The words to skip so that the next object starts at a multiple of `align`; none exists for
an alignment of zero.
-/
def padding? (region : BirthRegion) (align : Nat) : Option Nat :=
  if align = 0 then none else some ((align - region.cursor % align) % align)

/-- The address at the cursor. -/
def next (region : BirthRegion) : Address := .pack .birth region.cursor

/-- Allocates the next `words`; callers have checked that they fit. -/
def bump (region : BirthRegion) (words : Nat) : BirthRegion :=
  { region with cursor := region.cursor + words }

/-- Whether `addr` points at a word allocated since the last collection. -/
def contains (region : BirthRegion) (addr : Address) : Bool :=
  addr.space == .birth && addr.offset < region.cursor

/-- How many slots are recorded. -/
def rememberedCount (region : BirthRegion) : Nat := region.capacity - region.bufferStart

/-- The recorded words, newest first. -/
def remembered (region : BirthRegion) : List Word :=
  region.words.words region.bufferStart region.rememberedCount

/-- Whether `slot` is among the most recently recorded ones. -/
def recentlyRemembered (region : BirthRegion) (slot : Address) : Bool :=
  (region.words.words region.bufferStart (min dedupWindow region.rememberedCount)).contains slot.raw

/-- Records `slot` as the newest one. -/
def remember (region : BirthRegion) (slot : Address) : BirthRegion :=
  { region with
    bufferStart := region.bufferStart - 1
    words := region.words.set (region.bufferStart - 1) slot.raw }

/-- Whether the two ends have come so close that a collection is due. -/
def nearlyFull (region : BirthRegion) : Bool :=
  region.bufferStart - region.cursor ≤ storeBufferSlack

/-- Empties the region; the words stay readable until they are overwritten. -/
def reset (region : BirthRegion) : BirthRegion :=
  { region with cursor := 0, bufferStart := region.capacity }

/-- Words the mutator may write: those below the recorded slots. -/
def writable (region : BirthRegion) : Nat := region.bufferStart

/-- The extent of the region. -/
def bounds (region : BirthRegion) : RegionBounds :=
  .ofRegion .birth region.cursor region.capacity

end BirthRegion

end MovingHeap
