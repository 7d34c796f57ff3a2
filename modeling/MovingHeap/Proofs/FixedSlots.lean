import Mathlib.Data.List.Basic
import Mathlib.Tactic.Common
import MovingHeap.Memory.FixedSpace
import MovingHeap.Proofs.ArenaContents

/-! The slots of the fixed space and what finds them.
Slots lie on top of each other from the end of the arena down to its bottom, so every offset lies in
at most one of them, and the free lists hold exactly the vacant ones.
-/

namespace MovingHeap

variable {δ : Type}

/-- The object without its mark. -/
def Occupant.unmarked (occupant : Occupant δ) : Occupant δ := { occupant with marked := false }

@[simp] theorem Occupant.words_unmarked (occupant : Occupant δ)
    : occupant.unmarked.words = occupant.words := rfl

@[simp] theorem Occupant.forgotten_unmarked (occupant : Occupant δ)
    : occupant.unmarked.forgotten = occupant.forgotten := rfl

namespace FixedSlot

/-- The slot without its mark, which is all that marking changes. -/
def unmarked (slot : FixedSlot δ) : FixedSlot δ :=
  { slot with occupant := slot.occupant.map Occupant.unmarked }

@[simp] theorem start_unmarked (slot : FixedSlot δ) : slot.unmarked.start = slot.start := rfl

@[simp] theorem stop_unmarked (slot : FixedSlot δ) : slot.unmarked.stop = slot.stop := rfl

@[simp] theorem capacity_unmarked (slot : FixedSlot δ)
    : slot.unmarked.capacity = slot.capacity := rfl

@[simp] theorem sizeClass_unmarked (slot : FixedSlot δ)
    : slot.unmarked.sizeClass = slot.sizeClass := rfl

@[simp] theorem executable_unmarked (slot : FixedSlot δ)
    : slot.unmarked.executable = slot.executable := rfl

@[simp] theorem occupant_unmarked (slot : FixedSlot δ)
    : slot.unmarked.occupant = slot.occupant.map Occupant.unmarked := rfl

@[simp] theorem isLive_unmarked (slot : FixedSlot δ) : slot.unmarked.isLive = slot.isLive := by
  simp [isLive, unmarked]

@[simp] theorem unmarked_unmarked (slot : FixedSlot δ)
    : slot.unmarked.unmarked = slot.unmarked := by
  cases slot with
  | mk start capacity sizeClass executable occupant => cases occupant <;> rfl

end FixedSlot

namespace FixedSpace

/-- The slots reach from `top` down to zero without gaps, and none of them is empty. -/
def Stacked : List (FixedSlot δ) → (top : Nat) → Prop
  | [], top => top = 0
  | slot :: below, top => slot.stop = top ∧ 0 < slot.capacity ∧ Stacked below slot.start

/-- What every fixed space in use satisfies. -/
structure Consistent (space : FixedSpace δ) : Prop where
  stacked : Stacked space.slots space.arena.size
  fits
    : ∀ slot ∈ space.slots,
        ∀ occupant,
          slot.occupant = some occupant → 0 < occupant.words ∧ occupant.words ≤ slot.capacity
  vacantNodup : ∀ sizeClass executable, (space.vacant.get sizeClass executable).Nodup
  mem_vacant
    : ∀ sizeClass executable start,
        start ∈ space.vacant.get sizeClass executable
        ↔ ∃ slot ∈ space.slots,
            slot.start = start
            ∧ slot.sizeClass = sizeClass
            ∧ slot.executable = executable
            ∧ slot.occupant = none

-----------------------------------------------------------------------------------------
-- Slots do not overlap
-----------------------------------------------------------------------------------------

/-- No slot reaches above the top, by going down the stack. -/
theorem Stacked.stop_le {slots : List (FixedSlot δ)} {top : Nat} (stacked : Stacked slots top)
    {slot : FixedSlot δ} (member : slot ∈ slots)
    : slot.stop ≤ top := by
  induction slots generalizing top with
  | nil => cases member
  | cons head below ih =>
      obtain ⟨reaches, -, rest⟩ := stacked
      rcases List.mem_cons.mp member with rfl | lower
      · exact Nat.le_of_eq reaches
      · have under := ih rest lower
        simp only [FixedSlot.stop] at reaches under ⊢
        omega

/-- Every slot spans a word. -/
theorem Stacked.capacity_pos {slots : List (FixedSlot δ)} {top : Nat}
    (stacked : Stacked slots top) {slot : FixedSlot δ} (member : slot ∈ slots)
    : 0 < slot.capacity := by
  induction slots generalizing top with
  | nil => cases member
  | cons head below ih =>
      obtain ⟨-, positive, rest⟩ := stacked
      rcases List.mem_cons.mp member with rfl | lower
      · exact positive
      · exact ih rest lower

/-- Older slots end where newer ones begin or before. -/
theorem Stacked.pairwise {slots : List (FixedSlot δ)} {top : Nat} (stacked : Stacked slots top)
    : slots.Pairwise fun newer older => older.stop ≤ newer.start := by
  induction slots generalizing top with
  | nil => exact List.Pairwise.nil
  | cons head below ih =>
      obtain ⟨-, -, rest⟩ := stacked
      exact List.Pairwise.cons (fun _ lower => rest.stop_le lower) (ih rest)

/-- Two slots are one or lie apart, by going down the stack to the newer one. -/
theorem Stacked.eq_or_apart {slots : List (FixedSlot δ)} {top : Nat}
    (stacked : Stacked slots top) {first second : FixedSlot δ} (left : first ∈ slots)
    (right : second ∈ slots)
    : first = second ∨ first.stop ≤ second.start ∨ second.stop ≤ first.start := by
  induction slots generalizing top with
  | nil => cases left
  | cons head below ih =>
      obtain ⟨-, -, rest⟩ := stacked
      rcases List.mem_cons.mp left with rfl | lower
      · rcases List.mem_cons.mp right with rfl | under
        · exact Or.inl rfl
        · exact Or.inr (Or.inr (rest.stop_le under))
      · rcases List.mem_cons.mp right with rfl | under
        · exact Or.inr (Or.inl (rest.stop_le lower))
        · exact ih rest lower under

/-- Slots that begin at one place are one. -/
theorem Stacked.eq_of_start {slots : List (FixedSlot δ)} {top : Nat}
    (stacked : Stacked slots top) {first second : FixedSlot δ} (left : first ∈ slots)
    (right : second ∈ slots) (same : first.start = second.start)
    : first = second := by
  have leftPositive := stacked.capacity_pos left
  have rightPositive := stacked.capacity_pos right
  rcases stacked.eq_or_apart left right with equal | apart
  · exact equal
  · simp only [FixedSlot.stop] at apart
    omega

/-- The first slot from the top that begins at or below an offset covers it if any slot does, by
going down the stack.
-/
theorem Stacked.find?_covering {slots : List (FixedSlot δ)} {top : Nat}
    (stacked : Stacked slots top) {slot : FixedSlot δ} (member : slot ∈ slots) {offset : Nat}
    (above : slot.start ≤ offset) (below : offset < slot.stop)
    : slots.find? (·.start ≤ offset) = some slot := by
  induction slots generalizing top with
  | nil => cases member
  | cons head rest ih =>
      obtain ⟨-, -, lower⟩ := stacked
      rcases List.mem_cons.mp member with rfl | deeper
      · simp [above]
      · have under := lower.stop_le deeper
        rw [List.find?_cons_of_neg (by simp; omega)]
        exact ih lower deeper

-----------------------------------------------------------------------------------------
-- Finding slots
-----------------------------------------------------------------------------------------

/-- A slot that is found is one of the slots and begins where it was looked for. -/
theorem mem_of_slot? {space : FixedSpace δ} {start : Nat} {slot : FixedSlot δ}
    (found : space.slot? start = some slot)
    : slot ∈ space.slots ∧ slot.start = start :=
  ⟨List.mem_of_find?_eq_some found, by simpa using List.find?_some found⟩

/-- Every slot is found by its start. -/
theorem Consistent.slot?_start {space : FixedSpace δ} (consistent : space.Consistent)
    {slot : FixedSlot δ} (member : slot ∈ space.slots)
    : space.slot? slot.start = some slot := by
  cases found : space.slot? slot.start with
  | none => exact absurd (List.find?_eq_none.mp found slot member) (by simp)
  | some other =>
      obtain ⟨inside, same⟩ := mem_of_slot? found
      rw [consistent.stacked.eq_of_start inside member same]

/-- An object is found at a start if a slot there holds it. -/
theorem Consistent.occupant?_eq_some_iff {space : FixedSpace δ} (consistent : space.Consistent)
    {start : Nat} {occupant : Occupant δ}
    : space.occupant? start = some occupant
      ↔ ∃ slot ∈ space.slots, slot.start = start ∧ slot.occupant = some occupant := by
  constructor
  · intro found
    obtain ⟨slot, here, holds⟩ := Option.bind_eq_some_iff.mp found
    obtain ⟨member, begins⟩ := mem_of_slot? here
    exact ⟨slot, member, begins, holds⟩
  · rintro ⟨slot, member, rfl, holds⟩
    exact Option.bind_eq_some_iff.mpr ⟨slot, consistent.slot?_start member, holds⟩

/-- The object that covers an offset is in the slot around it. -/
theorem Consistent.containing?_eq_some_iff {space : FixedSpace δ} (consistent : space.Consistent)
    {offset start : Nat}
    : space.containing? offset = some start
      ↔ ∃ slot ∈ space.slots,
          slot.start = start ∧ slot.isLive ∧ start ≤ offset ∧ offset < slot.stop := by
  constructor
  · intro found
    obtain ⟨slot, here, covers⟩ := Option.bind_eq_some_iff.mp found
    split_ifs at covers with live
    cases covers
    simp only [Bool.and_eq_true, decide_eq_true_eq] at live
    exact ⟨slot, List.mem_of_find?_eq_some here, rfl, live.1,
      by simpa using List.find?_some here, live.2⟩
  · rintro ⟨slot, member, rfl, live, above, below⟩
    refine Option.bind_eq_some_iff.mpr
      ⟨slot, consistent.stacked.find?_covering member above below, ?_⟩
    simp [live, below]

/-- What covers an offset is an object that is found at its start. -/
theorem Consistent.exists_occupant {space : FixedSpace δ} (consistent : space.Consistent)
    {offset start : Nat} (covers : space.containing? offset = some start)
    : ∃ occupant, space.occupant? start = some occupant := by
  obtain ⟨slot, member, begins, live, -, -⟩ := consistent.containing?_eq_some_iff.mp covers
  obtain ⟨occupant, holds⟩ := Option.isSome_iff_exists.mp live
  exact ⟨occupant, consistent.occupant?_eq_some_iff.mpr ⟨slot, member, begins, holds⟩⟩

/-- The payload of an object is not empty. -/
theorem Consistent.words_pos {space : FixedSpace δ} (consistent : space.Consistent) {start : Nat}
    {occupant : Occupant δ} (found : space.occupant? start = some occupant)
    : 0 < occupant.words := by
  obtain ⟨slot, member, -, holds⟩ := consistent.occupant?_eq_some_iff.mp found
  exact (consistent.fits slot member occupant holds).1

/-- The payload of an object lies in the arena, and its start covers each of its words. -/
theorem Consistent.payload {space : FixedSpace δ} (consistent : space.Consistent) {start : Nat}
    {occupant : Occupant δ} (found : space.occupant? start = some occupant)
    : start + occupant.words ≤ space.arena.size
      ∧ ∀ index < occupant.words, space.containing? (start + index) = some start := by
  obtain ⟨slot, member, rfl, holds⟩ := consistent.occupant?_eq_some_iff.mp found
  have fits := (consistent.fits slot member occupant holds).2
  have under := consistent.stacked.stop_le member
  simp only [FixedSlot.stop] at under
  refine ⟨by omega, fun index inside => ?_⟩
  have live : slot.isLive := by simp [FixedSlot.isLive, holds]
  exact consistent.containing?_eq_some_iff.mpr
    ⟨slot, member, rfl, live, by omega, by simp only [FixedSlot.stop]; omega⟩

end FixedSpace

end MovingHeap
