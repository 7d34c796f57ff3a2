import MovingHeap.Proofs.FixedSlots

/-! What marking, forgetting, allocating and sweeping do to the slots of the fixed space.
Marks are told apart from everything else: spaces that differ in marks only cover the same offsets
with the same objects.
-/

namespace MovingHeap

variable {σ δ : Type}

namespace FixedSpace

/-- The slots without their marks. -/
def unmarkedSlots (space : FixedSpace δ) : List (FixedSlot δ) := space.slots.map FixedSlot.unmarked

/-- The objects that a sweep would free at the moment. -/
def unmarkedCount (space : FixedSpace δ) : Nat := space.slots.countP FixedSlot.isGarbage

/-- No object is marked, as is the case while no collection runs. -/
def NoneMarked (space : FixedSpace δ) : Prop :=
  ∀ slot ∈ space.slots, ∀ occupant, slot.occupant = some occupant → occupant.marked = false

-----------------------------------------------------------------------------------------
-- Spaces that differ in marks only
-----------------------------------------------------------------------------------------

/-- Marks do not matter for how slots are stacked, by going down the stack. -/
theorem stacked_unmarked {slots : List (FixedSlot δ)} {top : Nat}
    : Stacked (slots.map FixedSlot.unmarked) top ↔ Stacked slots top := by
  induction slots generalizing top with
  | nil => rfl
  | cons head below ih => simp only [List.map_cons, Stacked, ih, FixedSlot.stop_unmarked,
      FixedSlot.capacity_unmarked, FixedSlot.start_unmarked]

/-- The slot that begins at a place, without its mark. -/
theorem slot?_unmarked (space : FixedSpace δ) (start : Nat)
    : (space.slot? start).map FixedSlot.unmarked
      = space.unmarkedSlots.find? (·.start == start) := by
  rw [unmarkedSlots, List.find?_map]
  rfl

/-- The object that begins at a place, without its mark. -/
theorem occupant?_unmarked (space : FixedSpace δ) (start : Nat)
    : (space.occupant? start).map Occupant.unmarked
      = (space.unmarkedSlots.find? (·.start == start)).bind (·.occupant) := by
  rw [← slot?_unmarked, occupant?]
  cases space.slot? start <;> rfl

/-- The object that covers an offset, found without looking at marks. -/
theorem containing?_unmarked (space : FixedSpace δ) (offset : Nat)
    : space.containing? offset
      = (space.unmarkedSlots.find? (·.start ≤ offset)).bind fun slot =>
          if slot.isLive && offset < slot.stop then some slot.start else none := by
  rw [unmarkedSlots, List.find?_map, containing?, Option.bind_map]
  congr 1
  funext slot
  simp

section Alike

variable {first second : FixedSpace δ} (agree : second.unmarkedSlots = first.unmarkedSlots)

include agree

/-- Marks do not change which object covers an offset. -/
theorem containing?_alike (offset : Nat)
    : second.containing? offset = first.containing? offset := by
  rw [containing?_unmarked, containing?_unmarked, agree]

/-- Marks do not change what else is known of an object. -/
theorem occupant?_alike (start : Nat)
    : (second.occupant? start).map Occupant.unmarked
      = (first.occupant? start).map Occupant.unmarked := by
  rw [occupant?_unmarked, occupant?_unmarked, agree]

/-- A slot of one space is a slot of the other but for its mark. -/
theorem mem_alike {slot : FixedSlot δ} (member : slot ∈ second.slots)
    : ∃ other ∈ first.slots, other.unmarked = slot.unmarked := by
  have inside : slot.unmarked ∈ first.unmarkedSlots :=
    agree ▸ List.mem_map_of_mem member
  exact List.mem_map.mp inside

/-- A slot that is vacant in one space is vacant in the other. -/
theorem vacant_alike {slot : FixedSlot δ} (member : slot ∈ second.slots)
    (empty : slot.occupant = none)
    : ∃ other ∈ first.slots,
        other.start = slot.start
        ∧ other.sizeClass = slot.sizeClass
        ∧ other.executable = slot.executable
        ∧ other.occupant = none := by
  obtain ⟨other, inside, same⟩ := mem_alike agree member
  refine ⟨other, inside, ?_, ?_, ?_, ?_⟩
  · simpa using congrArg FixedSlot.start same
  · simpa using congrArg FixedSlot.sizeClass same
  · simpa using congrArg FixedSlot.executable same
  · simpa [empty] using congrArg FixedSlot.occupant same

/-- A space that differs from a consistent one in marks only is consistent. -/
theorem Consistent.alike (consistent : first.Consistent)
    (size : second.arena.size = first.arena.size) (vacant : second.vacant = first.vacant)
    : second.Consistent where
  stacked := by
    have stacked := consistent.stacked
    rw [← stacked_unmarked] at stacked ⊢
    rw [size, show second.slots.map FixedSlot.unmarked = first.slots.map FixedSlot.unmarked
      from agree]
    exact stacked
  fits := by
    intro slot member occupant holds
    obtain ⟨other, inside, same⟩ := mem_alike agree member
    have capacities : other.capacity = slot.capacity := by
      simpa using congrArg FixedSlot.capacity same
    have occupants := congrArg FixedSlot.occupant same
    simp only [FixedSlot.occupant_unmarked, holds, Option.map_some, Option.map_eq_some_iff]
      at occupants
    obtain ⟨twin, held, equal⟩ := occupants
    have words : twin.words = occupant.words := by simpa using congrArg Occupant.words equal
    have fits := consistent.fits other inside twin held
    rwa [capacities, words] at fits
  vacantNodup := vacant ▸ consistent.vacantNodup
  mem_vacant := by
    intro sizeClass executable start
    rw [vacant, consistent.mem_vacant]
    constructor
    · rintro ⟨slot, member, rfl, rfl, rfl, empty⟩
      exact vacant_alike agree.symm member empty
    · rintro ⟨slot, member, rfl, rfl, rfl, empty⟩
      exact vacant_alike agree member empty

end Alike

-----------------------------------------------------------------------------------------
-- Changing one object
-----------------------------------------------------------------------------------------

/-- A changed slot is found where it was, as is every other one. -/
theorem slot?_updateSlot (space : FixedSpace δ) (start : Nat)
    {change : FixedSlot δ → FixedSlot δ} (keeps : ∀ slot, (change slot).start = slot.start)
    (other : Nat)
    : (space.updateSlot start change).slot? other
      = (space.slot? other).map fun slot => if slot.start = start then change slot else slot := by
  simp only [slot?, updateSlot, List.find?_map]
  have places : ((fun slot : FixedSlot δ => slot.start == other) ∘ fun slot : FixedSlot δ =>
      if slot.start = start then change slot else slot) = fun slot => slot.start == other := by
    funext slot
    simp only [Function.comp_apply]
    split_ifs
    · rw [keeps]
    · rfl
  rw [places]

/-- A changed object is found where it was, as is every other one. -/
theorem occupant?_updateOccupant (space : FixedSpace δ) (start : Nat)
    (change : Occupant δ → Occupant δ) (other : Nat)
    : (space.updateOccupant start change).occupant? other
      = if other = start then (space.occupant? other).map change
        else space.occupant? other := by
  have places : ∀ slot : FixedSlot δ,
      FixedSlot.start { slot with occupant := slot.occupant.map change } = slot.start :=
    fun _ => rfl
  rw [occupant?, updateOccupant, slot?_updateSlot space start places]
  cases found : space.slot? other with
  | none => simp [occupant?, found]
  | some slot =>
      obtain ⟨-, rfl⟩ := mem_of_slot? found
      simp only [occupant?, found, Option.map_some, Option.bind_some]
      split_ifs <;> rfl

/-- Marking changes nothing but marks. -/
@[simp] theorem unmarkedSlots_mark (space : FixedSpace δ) (start : Nat)
    : (space.updateOccupant start ({ · with marked := true })).unmarkedSlots
      = space.unmarkedSlots := by
  simp only [unmarkedSlots, updateOccupant, updateSlot, List.map_map]
  apply List.map_congr_left
  intro slot _
  simp only [Function.comp_apply]
  split_ifs
  · cases slot with
    | mk start capacity sizeClass executable occupant => cases occupant <;> rfl
  · rfl

/-- A change that takes a property from one entry and gives it to none leaves fewer entries with it,
by splitting the list at that entry.
-/
private theorem countP_map_lt {α : Type} {holds : α → Bool} {change : α → α} {list : List α}
    (fewer : ∀ entry, holds (change entry) → holds entry) {entry : α} (member : entry ∈ list)
    (before : holds entry) (after : ¬ holds (change entry))
    : (list.map change).countP holds < list.countP holds := by
  obtain ⟨front, back, rfl⟩ := List.append_of_mem member
  have infront := List.countP_mono_left (l := front) fun entry _ => fewer entry
  have behind := List.countP_mono_left (l := back) fun entry _ => fewer entry
  rw [List.countP_map, List.countP_append, List.countP_append, List.countP_cons,
    List.countP_cons]
  simp only [Function.comp_def, if_pos before, if_neg after]
  omega

/-- Marking an object leaves one object fewer to mark. -/
theorem unmarkedCount_mark {space : FixedSpace δ} {start : Nat} {occupant : Occupant δ}
    (found : space.occupant? start = some occupant) (unmarked : occupant.marked = false)
    : (space.updateOccupant start ({ · with marked := true })).unmarkedCount
      < space.unmarkedCount := by
  obtain ⟨slot, here, holds⟩ := Option.bind_eq_some_iff.mp found
  obtain ⟨member, begins⟩ := mem_of_slot? here
  refine countP_map_lt ?_ member ?_ ?_
  · intro slot garbage
    split_ifs at garbage
    · cases held : slot.occupant <;> simp [FixedSlot.isGarbage, held] at garbage
    · exact garbage
  · simp [FixedSlot.isGarbage, holds, unmarked]
  · simp [FixedSlot.isGarbage, holds, begins]

/-- What marking makes of a reference to an object that is there. -/
theorem mark?_eq {space : FixedSpace δ} {offset start : Nat} {occupant : Occupant δ}
    (covers : space.containing? offset = some start)
    (found : space.occupant? start = some occupant)
    : space.mark? offset
      = some (if occupant.forgotten then (.forgotten, space)
        else if occupant.marked then (.already, space)
        else (.fresh start, space.updateOccupant start ({ · with marked := true }))) := by
  simp [mark?, covers, found]

end FixedSpace

end MovingHeap
