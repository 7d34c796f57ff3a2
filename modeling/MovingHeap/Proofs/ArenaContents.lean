import Mathlib.Data.List.Basic
import Mathlib.Tactic.Common
import MovingHeap.Memory.Semispace

/-! What memory holds after each way of writing it, word by word.
Memory is compared through the words read from it, never as a table of cells.
-/

namespace MovingHeap

namespace Arena

-----------------------------------------------------------------------------------------
-- Reading back what was written
-----------------------------------------------------------------------------------------

/-- Writing several words leaves the words before and behind them alone, by one write after
another.
-/
theorem get_setMany_outside (arena : Arena) {start index : Nat} {words : List Word}
    (outside : index < start ∨ start + words.length ≤ index)
    : (arena.setMany start words).get index = arena.get index := by
  induction words generalizing arena start with
  | nil => rfl
  | cons word words ih =>
      simp only [List.length_cons] at outside
      rw [setMany, ih _ (by omega), get_set, if_neg (by omega)]

/-- Several words are read back in their order, by one write after another. -/
theorem get_setMany_inside (arena : Arena) (start : Nat) {words : List Word} {index : Nat}
    (inside : index < words.length)
    : (arena.setMany start words).get (start + index) = words[index] := by
  induction words generalizing arena start index with
  | nil => simp at inside
  | cons word words ih =>
      cases index with
      | zero => rw [setMany, get_setMany_outside _ (by omega), get_set, if_pos (by omega)]; rfl
      | succ index =>
          have shifted := ih (arena.set start word) (start + 1)
            (Nat.lt_of_succ_lt_succ inside)
          rw [setMany, ← Nat.add_assoc, Nat.add_right_comm, shifted, List.getElem_cons_succ]

/-- Zeroed words read as zero and the others as before. -/
theorem get_clear (arena : Arena) (start count index : Nat)
    : (arena.clear start count).get index
      = if start ≤ index ∧ index < start + count then 0 else arena.get index := by
  have filtered : (arena.clear start count).get index
      = (arena.cells[index]?.filter fun _ => index < start || start + count ≤ index).getD 0 := by
    simp only [clear, get, Std.TreeMap.getD_filter']
  rw [filtered, get, Std.TreeMap.getD_eq_getD_getElem?]
  split_ifs with inside
  · have dropped : (decide (index < start) || decide (start + count ≤ index)) = false := by
      simp only [Bool.or_eq_false_iff, decide_eq_false_iff_not]
      omega
    simp only [dropped]
    cases arena.cells[index]? <;> rfl
  · have kept : (decide (index < start) || decide (start + count ≤ index)) = true := by
      simp only [Bool.or_eq_true, decide_eq_true_eq]
      omega
    simp only [kept]
    cases arena.cells[index]? <;> rfl

/-- Appended words read as zero and the others as before. -/
theorem get_grow (arena : Arena) (count index : Nat)
    : (arena.grow count).get index
      = if arena.size ≤ index ∧ index < arena.size + count then 0 else arena.get index :=
  get_clear ⟨arena.size + count, arena.cells⟩ arena.size count index

/-- Appending makes memory longer by what is appended. -/
@[simp] theorem size_grow (arena : Arena) (count : Nat)
    : (arena.grow count).size = arena.size + count := rfl

-----------------------------------------------------------------------------------------
-- Consecutive words
-----------------------------------------------------------------------------------------

/-- As many words are read as asked for. -/
@[simp] theorem length_words (arena : Arena) (start count : Nat)
    : (arena.words start count).length = count := by
  simp [words]

/-- Consecutive words one by one. -/
@[simp] theorem getElem_words (arena : Arena) (start count : Nat) {index : Nat}
    (inside : index < (arena.words start count).length)
    : (arena.words start count)[index] = arena.get (start + index) := by
  simp [words]

/-- A word is among consecutive ones if it is at one of their places. -/
theorem mem_words {arena : Arena} {start count : Nat} {word : Word}
    : word ∈ arena.words start count
      ↔ ∃ index, start ≤ index ∧ index < start + count ∧ arena.get index = word := by
  simp only [words, List.mem_map, List.mem_range'_1]
  constructor
  · rintro ⟨index, ⟨above, below⟩, found⟩
    exact ⟨index, above, below, found⟩
  · rintro ⟨index, above, below, found⟩
    exact ⟨index, ⟨above, below⟩, found⟩

/-- Memories that read the same over a stretch have the same words there. -/
theorem words_congr {first second : Arena} {start count : Nat}
    (same : ∀ index, start ≤ index → index < start + count → first.get index = second.get index)
    : first.words start count = second.words start count := by
  simp only [words]
  apply List.map_congr_left
  intro index member
  obtain ⟨above, below⟩ := List.mem_range'_1.mp member
  exact same index above below

/-- The view of consecutive words one by one. -/
theorem get?_window (arena : Arena) (start length : Nat) {index : Nat} (inside : index < length)
    : (arena.window start length).get? index = some (arena.get (start + index)) := by
  simp [window, Window.get?, inside]

/-- The first words of a view are the words it begins with. -/
theorem take_window (arena : Arena) (start : Nat) {length count : Nat} (short : count ≤ length)
    : (arena.window start length).take count = arena.words start count := by
  have bound : min count length = count := Nat.min_eq_left short
  simp only [Window.take, window, bound, words, List.range'_eq_map_range, List.map_map]
  rw [List.filterMap_eq_map_iff_forall_eq_some]
  intro index member
  have inside := List.mem_range.mp member
  exact get?_window arena start length (by omega)

end Arena

-----------------------------------------------------------------------------------------
-- Filling the free part of a semispace
-----------------------------------------------------------------------------------------

namespace Semispace

/-- Filling free words leaves the allocated ones alone. -/
theorem get_fillTail_allocated (region : Semispace) (words : List Word) {offset : Nat}
    (allocated : offset < region.cursor)
    : (region.fillTail words).words.get offset = region.words.get offset :=
  Arena.get_setMany_outside region.words (Or.inl allocated)

/-- Words that fit are found at the cursor after they were filled in. -/
theorem get_fillTail_filled (region : Semispace) {words : List Word} {index : Nat}
    (fits : words.length ≤ region.free) (inside : index < words.length)
    : (region.fillTail words).words.get (region.cursor + index) = words[index] := by
  have whole : words.take region.free = words := List.take_of_length_le fits
  simp only [fillTail, whole]
  exact Arena.get_setMany_inside region.words region.cursor inside

/-- Filling free words moves no bound. -/
@[simp] theorem capacity_fillTail (region : Semispace) (words : List Word)
    : (region.fillTail words).capacity = region.capacity := by
  simp [fillTail, capacity]

/-- Filling free words leaves as many free. -/
theorem free_fillTail (region : Semispace) (words : List Word)
    : (region.fillTail words).free = region.free := by
  rw [free, capacity_fillTail]
  rfl

end Semispace

end MovingHeap
