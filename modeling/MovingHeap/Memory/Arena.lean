import MovingHeap.Word
import Std.Data.TreeMap

/-! Contiguous zero-filled memory, an array of words of fixed length.
Only words that were written are stored, so that a large region costs what is used of it.
-/

namespace MovingHeap

/-- An array of `size` words; a word that was never written is zero. -/
structure Arena where
  size : Nat
  cells : Std.TreeMap Nat Word := ∅

/-- A read-only view of consecutive words. -/
structure Window where
  length : Nat
  word : Fin length → Word

namespace Window

/-- The word at `index`, if the view reaches that far. -/
def get? (window : Window) (index : Nat) : Option Word :=
  if h : index < window.length then some (window.word ⟨index, h⟩) else none

/-- The words of the view. -/
def toList (window : Window) : List Word := List.ofFn window.word

/-- The first `count` words, fewer if the view is shorter. -/
def take (window : Window) (count : Nat) : List Word :=
  (List.range (min count window.length)).filterMap window.get?

end Window

namespace Arena

/-- Fresh memory of `size` words. -/
def zeroed (size : Nat) : Arena := { size }

/-- The word at `index`. -/
def get (arena : Arena) (index : Nat) : Word := arena.cells.getD index 0

/-- The word at `index`, if the arena reaches that far. -/
def get? (arena : Arena) (index : Nat) : Option Word :=
  if index < arena.size then some (arena.get index) else none

/-- Writes one word; an index past the end changes nothing that can be read. -/
def set (arena : Arena) (index : Nat) (word : Word) : Arena :=
  { arena with cells := arena.cells.insert index word }

/-- Writes consecutive words from `start` on. -/
def setMany (arena : Arena) (start : Nat) : List Word → Arena
  | [] => arena
  | word :: words => (arena.set start word).setMany (start + 1) words

/-- Zeroes the `count` words from `start` on. -/
def clear (arena : Arena) (start count : Nat) : Arena :=
  { arena with cells := arena.cells.filter fun i _ => i < start || start + count ≤ i }

/-- Appends `count` zero words. -/
def grow (arena : Arena) (count : Nat) : Arena :=
  (⟨arena.size + count, arena.cells⟩ : Arena).clear arena.size count

/-- The `count` words from `start` on. -/
def words (arena : Arena) (start count : Nat) : List Word :=
  (List.range' start count).map arena.get

/-- The `count` words from `start` on, if the arena reaches that far. -/
def slice? (arena : Arena) (start count : Nat) : Option (List Word) :=
  if start + count ≤ arena.size then some (arena.words start count) else none

/-- The words of the arena. -/
def toList (arena : Arena) : List Word := arena.words 0 arena.size

/-- The view of the `length` words from `start` on. -/
def window (arena : Arena) (start length : Nat) : Window :=
  ⟨length, fun i => arena.get (start + i)⟩

/-- Fresh memory reads as zero. -/
@[simp] theorem get_zeroed (size index : Nat) : (zeroed size).get index = 0 := by
  simp [zeroed, get]

/-- A write is read back where it was made and nowhere else. -/
theorem get_set (arena : Arena) (index other : Nat) (word : Word)
    : (arena.set index word).get other = if index = other then word else arena.get other := by
  simp [get, set, Std.TreeMap.getD_insert]

/-- Writing keeps the length. -/
@[simp] theorem size_set (arena : Arena) (index : Nat) (word : Word)
    : (arena.set index word).size = arena.size := rfl

/-- Writing several words keeps the length, by one write after another. -/
@[simp] theorem size_setMany (arena : Arena) (start : Nat) (words : List Word)
    : (arena.setMany start words).size = arena.size := by
  induction words generalizing arena start with
  | nil => rfl
  | cons word words ih => simp [setMany, ih]

/-- Zeroing keeps the length. -/
@[simp] theorem size_clear (arena : Arena) (start count : Nat)
    : (arena.clear start count).size = arena.size := rfl

end Arena

/-- Memory that is mapped spans fewer bytes than this, which is all that addresses can tell apart. -/
def addressLimit : Nat := 0x800000000000

/-- What grants memory to a heap, or refuses it. No more is known of it than its laws. -/
structure Mapper where
  /-- Memory of as many words, unless it is refused. -/
  map? : Nat → Option Arena
  /-- What is granted has the length that was asked for and reads as zero. -/
  fresh : ∀ {size words}, map? size = some words → words = .zeroed size
  /-- No more is granted than addresses can tell apart. -/
  bounded : ∀ {size words}, map? size = some words → size * wordBytes < addressLimit
  /-- Where much is granted, less would be granted, too. -/
  fewer : ∀ {less size}, less ≤ size → (map? size).isSome → (map? less).isSome

namespace Mapper

/-- Grants whatever addresses can tell apart. -/
def standard : Mapper where
  map? size := if size * wordBytes < addressLimit then some (.zeroed size) else none
  fresh granted := by
    split at granted
    · exact (Option.some.inj granted).symm
    · cases granted
  bounded granted := by
    split at granted
    next inside => exact inside
    next => cases granted
  fewer below granted := by
    simp only [Option.isSome_ite] at granted ⊢
    exact Nat.lt_of_le_of_lt (Nat.mul_le_mul_right _ below) granted

end Mapper

end MovingHeap
