import MovingHeap.Proofs.FixedOperations

/-! The life of a fixed object: a slot is reserved for it, it may be given up, and a sweep frees it.
Each step keeps the slots consistent and leaves the other objects where and as they are.
-/

namespace MovingHeap

variable {σ δ : Type}

namespace SizeClasses

/-- The class that sizes are looked up in holds them, by skipping the classes that do not. -/
theorem le_of_indexFor {sizes : List Nat} {words size : Nat}
    (found : sizes[(sizes.takeWhile (· < words)).length]? = some size)
    : words ≤ size := by
  induction sizes with
  | nil => simp at found
  | cons head rest ih =>
      by_cases small : head < words
      · simp only [List.takeWhile_cons, small, decide_true, if_true, List.length_cons,
          List.getElem?_cons_succ] at found
        exact ih found
      · simp only [List.takeWhile_cons, small, decide_false, Bool.false_eq_true, if_false,
          List.length_nil, List.getElem?_cons_zero, Option.some.injEq] at found
        omega

/-- A slot of the class for some words holds them. -/
theorem le_capacity (classes : SizeClasses) (words : Nat)
    : words ≤ classes.capacity (classes.indexFor words) words := by
  rw [capacity]
  cases found : classes.sizes[classes.indexFor words]? with
  | some size => exact le_of_indexFor found
  | none =>
      simp only [Option.getD_none, roundUp, step]
      omega

end SizeClasses

namespace FixedSpace

-----------------------------------------------------------------------------------------
-- Changing slots in place
-----------------------------------------------------------------------------------------

/-- Changes that keep slots in place keep them stacked, by going down the stack. -/
theorem stacked_map {change : FixedSlot δ → FixedSlot δ}
    (starts : ∀ slot, (change slot).start = slot.start)
    (capacities : ∀ slot, (change slot).capacity = slot.capacity)
    {slots : List (FixedSlot δ)} {top : Nat}
    : Stacked (slots.map change) top ↔ Stacked slots top := by
  induction slots generalizing top with
  | nil => rfl
  | cons head below ih =>
      simp only [List.map_cons, Stacked, ih, FixedSlot.stop, starts, capacities]

/-- Objects changed in place keep the slots consistent as long as they keep their sizes. -/
theorem Consistent.updateOccupant {space : FixedSpace δ} (consistent : space.Consistent)
    (start : Nat) {change : Occupant δ → Occupant δ}
    (keeps : ∀ occupant, (change occupant).words = occupant.words)
    : (space.updateOccupant start change).Consistent where
  stacked := by
    refine (stacked_map ?_ ?_).mpr consistent.stacked <;> intro slot <;> dsimp only <;>
      split_ifs <;> rfl
  fits := by
    intro slot member occupant holds
    obtain ⟨before, inside, rfl⟩ := List.mem_map.mp member
    split_ifs at holds ⊢ with here
    · obtain ⟨former, held, rfl⟩ := Option.map_eq_some_iff.mp holds
      rw [keeps]
      exact consistent.fits before inside former held
    · exact consistent.fits before inside occupant holds
  vacantNodup := consistent.vacantNodup
  mem_vacant := by
    intro sizeClass executable start
    refine (consistent.mem_vacant sizeClass executable start).trans ?_
    simp only [FixedSpace.updateOccupant, FixedSpace.updateSlot, List.mem_map,
      exists_exists_and_eq_and]
    refine exists_congr fun slot => and_congr_right fun _ => ?_
    split_ifs <;> simp

/-- Giving up an object keeps the slots consistent. -/
theorem Consistent.forget? {space next : FixedSpace δ} (consistent : space.Consistent)
    {start : Nat} (done : space.forget? start = some next)
    : next.Consistent := by
  obtain ⟨_, -, rfl⟩ := Option.map_eq_some_iff.mp done
  exact consistent.updateOccupant start fun _ => rfl

/-- Giving up an object marks none. -/
theorem NoneMarked.forget? {space next : FixedSpace δ} (unmarked : space.NoneMarked)
    {start : Nat} (done : space.forget? start = some next)
    : next.NoneMarked := by
  obtain ⟨_, -, rfl⟩ := Option.map_eq_some_iff.mp done
  intro slot member occupant holds
  obtain ⟨before, inside, rfl⟩ := List.mem_map.mp member
  split_ifs at holds
  · obtain ⟨former, held, rfl⟩ := Option.map_eq_some_iff.mp holds
    exact unmarked before inside former held
  · exact unmarked before inside occupant holds

-----------------------------------------------------------------------------------------
-- Reserving a slot
-----------------------------------------------------------------------------------------

/-- A slot that was vacant or is new now holds an object over zeroed words; all else is as it was. -/
structure Reserves (space : FixedSpace δ) (slot : FixedSlot δ) (next : FixedSpace δ) : Prop where
  consistent : next.Consistent
  mem_slots
    : ∀ other, other ∈ next.slots ↔ other = slot ∨ other ∈ space.slots ∧ other.start ≠ slot.start
  vacant : space.occupant? slot.start = none
  size_le : space.arena.size ≤ next.arena.size
  zeroed : ∀ offset, slot.start ≤ offset → offset < slot.stop → next.arena.get offset = 0
  kept
    : ∀ offset, offset < space.arena.size → offset < slot.start ∨ slot.stop ≤ offset →
        next.arena.get offset = space.arena.get offset
  recent : next.recent = slot.start :: space.recent

/-- Where a slot is occupied, the slots are the one with its object and the others. -/
theorem mem_occupy {space : FixedSpace δ} {slot : FixedSlot δ} {occupant : Occupant δ}
    (member : slot ∈ space.slots)
    (unique : ∀ other ∈ space.slots, other.start = slot.start → other = slot)
    (other : FixedSlot δ)
    : other ∈ (space.occupy slot occupant).slots
      ↔ other = { slot with occupant := some occupant }
        ∨ other ∈ space.slots ∧ other.start ≠ slot.start := by
  simp only [occupy, updateSlot, List.mem_map]
  constructor
  · rintro ⟨before, inside, rfl⟩
    split_ifs with here
    · rw [unique before inside here]
      exact Or.inl rfl
    · exact Or.inr ⟨inside, here⟩
  · rintro (rfl | ⟨inside, apart⟩)
    · exact ⟨slot, member, if_pos rfl⟩
    · exact ⟨other, inside, if_neg apart⟩

/-- Occupying a slot keeps the slots stacked. -/
theorem stacked_occupy {space : FixedSpace δ} {slot : FixedSlot δ} {occupant : Occupant δ}
    {top : Nat}
    : Stacked (space.occupy slot occupant).slots top ↔ Stacked space.slots top := by
  refine stacked_map ?_ ?_ <;> intro slot <;> split_ifs <;> rfl

/-- A vacant slot that is found is one of the slots and large enough. -/
theorem Consistent.mem_of_vacantFor? {space : FixedSpace δ} (consistent : space.Consistent)
    {sizeClass words : Nat} {executable : Bool} {slot : FixedSlot δ}
    (found : space.vacantFor? sizeClass words executable = some slot)
    : slot ∈ space.slots ∧ slot.sizeClass = sizeClass ∧ slot.executable = executable
      ∧ slot.occupant = none ∧ words ≤ slot.capacity := by
  obtain ⟨start, listed, here⟩ := List.exists_of_findSome?_eq_some found
  obtain ⟨here, large⟩ := Option.filter_eq_some_iff.mp here
  obtain ⟨member, begins⟩ := mem_of_slot? here
  obtain ⟨other, inside, same, ofClass, ofUse, empty⟩ :=
    (consistent.mem_vacant sizeClass executable start).mp listed
  have equal := consistent.stacked.eq_of_start inside member (same.trans begins.symm)
  subst equal
  exact ⟨member, ofClass, ofUse, empty, by simpa using large⟩

/-- A vacant slot that is reused is reserved. -/
theorem Consistent.reserves_reuse {space : FixedSpace δ} (consistent : space.Consistent)
    {slot : FixedSlot δ} (member : slot ∈ space.slots) (empty : slot.occupant = none)
    {occupant : Occupant δ} (fits : 0 < occupant.words ∧ occupant.words ≤ slot.capacity)
    : space.Reserves { slot with occupant := some occupant }
        ((space.reuse slot).occupy slot occupant) := by
  have slots : ∀ other, other ∈ ((space.reuse slot).occupy slot occupant).slots
      ↔ other = { slot with occupant := some occupant }
        ∨ other ∈ space.slots ∧ other.start ≠ slot.start :=
    mem_occupy member fun other inside same => consistent.stacked.eq_of_start inside member same
  refine ⟨⟨?_, ?_, ?_, ?_⟩, slots, ?_, Nat.le_refl _, ?_, ?_, rfl⟩
  · exact stacked_occupy.mpr consistent.stacked
  · intro other inside resident holds
    rcases (slots other).mp inside with rfl | ⟨before, -⟩
    · cases holds
      exact fits
    · exact consistent.fits other before resident holds
  · intro sizeClass executable
    simp only [occupy, updateSlot, reuse, FreeLists.get_set]
    split_ifs with here
    · exact (consistent.vacantNodup _ _).erase _
    · exact consistent.vacantNodup _ _
  · intro sizeClass executable start
    have listed := consistent.mem_vacant sizeClass executable start
    have nodup := consistent.vacantNodup slot.sizeClass slot.executable
    have lists : start ∈ ((space.reuse slot).occupy slot occupant).vacant.get sizeClass executable
        ↔ start ∈ space.vacant.get sizeClass executable ∧ start ≠ slot.start := by
      simp only [occupy, updateSlot, reuse, FreeLists.get_set]
      split_ifs with here
      · rw [nodup.mem_erase_iff, here.1, here.2, and_comm]
      · refine ⟨fun entry => ⟨entry, ?_⟩, And.left⟩
        rintro rfl
        obtain ⟨other, inside, same, rfl, rfl, -⟩ := listed.mp entry
        rw [consistent.stacked.eq_of_start inside member same] at here
        exact here ⟨rfl, rfl⟩
    rw [lists, listed]
    constructor
    · rintro ⟨⟨other, inside, rfl, rest⟩, apart⟩
      exact ⟨other, (slots other).mpr (Or.inr ⟨inside, apart⟩), rfl, rest⟩
    · rintro ⟨other, inside, rfl, rest⟩
      rcases (slots other).mp inside with rfl | ⟨before, apart⟩
      · exact absurd rest.2.2 (by simp)
      · exact ⟨⟨other, before, rfl, rest⟩, apart⟩
  · simp [occupant?, consistent.slot?_start member, empty]
  · intro offset above below
    exact (Arena.get_clear _ _ _ _).trans (if_pos ⟨above, below⟩)
  · intro offset _ outside
    refine (Arena.get_clear _ _ _ _).trans (if_neg ?_)
    simp only [FixedSlot.stop] at outside
    omega

/-- A slot that is appended is reserved. -/
theorem Consistent.reserves_append {space : FixedSpace δ} (consistent : space.Consistent)
    {slot : FixedSlot δ} (last : slot.start = space.arena.size) (positive : 0 < slot.capacity)
    {occupant : Occupant δ} (fits : 0 < occupant.words ∧ occupant.words ≤ slot.capacity)
    : space.Reserves { slot with occupant := some occupant }
        ((space.append slot).occupy slot occupant) := by
  have apart : ∀ other ∈ space.slots, other.start ≠ slot.start := by
    intro other inside same
    have under := consistent.stacked.stop_le inside
    have spans := consistent.stacked.capacity_pos inside
    simp only [FixedSlot.stop] at under
    omega
  have slots : ∀ other, other ∈ ((space.append slot).occupy slot occupant).slots
      ↔ other = { slot with occupant := some occupant }
        ∨ other ∈ space.slots ∧ other.start ≠ slot.start := by
    intro other
    refine Iff.trans (mem_occupy (by exact List.mem_cons_self) ?_ other) ?_
    · intro other inside same
      rcases List.mem_cons.mp inside with equal | before
      · exact equal
      · exact absurd same (apart other before)
    · refine or_congr_right (and_congr_left fun differs => ?_)
      refine ⟨fun inside => ?_, List.mem_cons_of_mem slot⟩
      rcases List.mem_cons.mp inside with rfl | before
      · exact absurd rfl differs
      · exact before
  refine ⟨⟨?_, ?_, consistent.vacantNodup, ?_⟩, slots, ?_, Nat.le_add_right _ _, ?_, ?_, rfl⟩
  · refine stacked_occupy.mpr ⟨?_, positive, ?_⟩
    · rw [FixedSlot.stop, last]
      rfl
    · rw [last]
      exact consistent.stacked
  · intro other inside resident holds
    rcases (slots other).mp inside with rfl | ⟨before, -⟩
    · cases holds
      exact fits
    · exact consistent.fits other before resident holds
  · intro sizeClass executable start
    refine (consistent.mem_vacant sizeClass executable start).trans ⟨?_, ?_⟩
    · rintro ⟨other, inside, rest⟩
      exact ⟨other, (slots other).mpr (Or.inr ⟨inside, apart other inside⟩), rest⟩
    · rintro ⟨other, inside, rest⟩
      rcases (slots other).mp inside with rfl | ⟨before, -⟩
      · exact absurd rest.2.2.2 (by simp)
      · exact ⟨other, before, rest⟩
  · rw [occupant?, show space.slot? slot.start = none from
      List.find?_eq_none.mpr fun other inside => by simpa using apart other inside]
    rfl
  · intro offset above below
    refine (Arena.get_grow _ _ _).trans (if_pos ?_)
    simp only [FixedSlot.stop, last] at above below
    exact ⟨above, below⟩
  · intro offset inside _
    exact (Arena.get_grow _ _ _).trans (if_neg (by omega))

/-- The slot that is put at the end of the arena where no vacant one serves. -/
def extraSlot (space : FixedSpace δ) (words : Nat) (executable : Bool) : FixedSlot δ where
  start := space.arena.size
  capacity := space.classes.capacity (space.classes.indexFor words) words
  sizeClass := space.classes.indexFor words
  executable

/-- Allocation reserves a slot and answers its start. -/
theorem Consistent.reserves_allocate {space : FixedSpace δ} (consistent : space.Consistent)
    {words : Nat} (positive : 0 < words) (destructor : Option δ) (executable : Bool)
    : ∃ slot : FixedSlot δ,
        slot.start = (space.allocate words destructor executable).1
        ∧ slot.occupant = some { words, destructor }
        ∧ space.Reserves slot (space.allocate words destructor executable).2 := by
  rw [allocate]
  cases found : space.vacantFor? (space.classes.indexFor words) words executable with
  | some slot =>
      obtain ⟨member, -, -, empty, large⟩ := consistent.mem_of_vacantFor? found
      refine ⟨{ slot with occupant := some { words, destructor } }, rfl, rfl, ?_⟩
      exact consistent.reserves_reuse member empty ⟨positive, large⟩
  | none =>
      have large := space.classes.le_capacity words
      let slot := space.extraSlot words executable
      refine ⟨{ slot with occupant := some { words, destructor } }, rfl, rfl, ?_⟩
      have last : slot.start = space.arena.size := rfl
      exact consistent.reserves_append last (Nat.lt_of_lt_of_le positive large)
        ⟨positive, large⟩

section Reserves

variable {space next : FixedSpace δ} {slot : FixedSlot δ} (reserves : space.Reserves slot next)

include reserves

/-- The object is found in the slot that was reserved for it. -/
theorem Reserves.occupant?_start : next.occupant? slot.start = slot.occupant := by
  have member := (reserves.mem_slots slot).mpr (Or.inl rfl)
  simp [occupant?, reserves.consistent.slot?_start member]

/-- The other objects are found as before. -/
theorem Reserves.occupant?_ne (consistent : space.Consistent) {other : Nat}
    (differs : other ≠ slot.start)
    : next.occupant? other = space.occupant? other := by
  apply Option.ext
  intro occupant
  rw [reserves.consistent.occupant?_eq_some_iff, consistent.occupant?_eq_some_iff]
  refine exists_congr fun resident => ?_
  rw [reserves.mem_slots]
  constructor
  · rintro ⟨rfl | ⟨inside, -⟩, rfl, holds⟩
    · exact absurd rfl differs
    · exact ⟨inside, rfl, holds⟩
  · rintro ⟨inside, rfl, holds⟩
    exact ⟨Or.inr ⟨inside, differs⟩, rfl, holds⟩

/-- A slot that held an object is not the one that was reserved. -/
theorem Reserves.start_ne (consistent : space.Consistent) {resident : FixedSlot δ}
    (member : resident ∈ space.slots) (live : resident.isLive)
    : resident.start ≠ slot.start := by
  intro same
  have vacant := reserves.vacant
  rw [← same, occupant?, consistent.slot?_start member, Option.bind_some] at vacant
  simp [FixedSlot.isLive, vacant] at live

/-- What covered an offset still does. -/
theorem Reserves.containing?_kept (consistent : space.Consistent) {offset start : Nat}
    (covers : space.containing? offset = some start)
    : next.containing? offset = some start := by
  obtain ⟨resident, inside, rfl, live, above, below⟩ :=
    consistent.containing?_eq_some_iff.mp covers
  have differs := reserves.start_ne consistent inside live
  exact reserves.consistent.containing?_eq_some_iff.mpr
    ⟨resident, (reserves.mem_slots resident).mpr (Or.inr ⟨inside, differs⟩), rfl, live, above,
      below⟩

/-- The words of the other objects are as before. -/
theorem Reserves.get_kept (consistent : space.Consistent) {offset start : Nat}
    (covers : space.containing? offset = some start)
    : next.arena.get offset = space.arena.get offset := by
  obtain ⟨resident, inside, rfl, live, above, below⟩ :=
    consistent.containing?_eq_some_iff.mp covers
  have differs := reserves.start_ne consistent inside live
  have under := consistent.stacked.stop_le inside
  have here := (reserves.mem_slots slot).mpr (Or.inl rfl)
  have there := (reserves.mem_slots resident).mpr (Or.inr ⟨inside, differs⟩)
  refine reserves.kept offset (by omega) ?_
  rcases reserves.consistent.stacked.eq_or_apart here there with rfl | before | behind
  · exact absurd rfl differs
  · exact Or.inr (by omega)
  · exact Or.inl (by omega)

end Reserves

-----------------------------------------------------------------------------------------
-- Sweeping
-----------------------------------------------------------------------------------------

/-- Destructors keep the size of the arena, by one call after another. -/
theorem size_runDestructors (destroy : δ → Address → List Word → σ → Reply σ (List Word))
    (slots : List (FixedSlot δ)) (arena : Arena) (host : σ)
    : (runDestructors destroy slots arena host).1.size = arena.size := by
  fun_induction runDestructors destroy slots arena host with
  | case1 => rfl
  | case2 slot slots arena host none? ih => exact ih
  | case3 slot slots arena host words destructor found reply written final host' notes run ih =>
      rw [run] at ih
      exact ih.trans (Arena.size_setMany _ _ _)

/-- Destructors write to the slots they are called for only, by one call after another. -/
theorem get_runDestructors {destroy : δ → Address → List Word → σ → Reply σ (List Word)}
    {slots : List (FixedSlot δ)} {arena : Arena} {host : σ} {offset : Nat}
    (fits
      : ∀ slot ∈ slots,
          ∀ occupant, slot.occupant = some occupant → occupant.words ≤ slot.capacity)
    (outside : ∀ slot ∈ slots, offset < slot.start ∨ slot.stop ≤ offset)
    : (runDestructors destroy slots arena host).1.get offset = arena.get offset := by
  fun_induction runDestructors destroy slots arena host with
  | case1 => rfl
  | case2 slot slots arena host none? ih =>
      exact ih (fun other inside => fits other (List.mem_cons_of_mem _ inside))
        fun other inside => outside other (List.mem_cons_of_mem _ inside)
  | case3 slot slots arena host words destructor found reply written final host' notes run ih =>
      have rest := ih (fun other inside => fits other (List.mem_cons_of_mem _ inside))
        fun other inside => outside other (List.mem_cons_of_mem _ inside)
      rw [run] at rest
      refine rest.trans (Arena.get_setMany_outside _ ?_)
      obtain ⟨occupant, holds, equal⟩ := Option.bind_eq_some_iff.mp found
      obtain ⟨_, -, pair⟩ := Option.map_eq_some_iff.mp equal
      have size : occupant.words = words := congrArg Prod.fst pair
      have small := fits slot List.mem_cons_self occupant holds
      have apart := outside slot List.mem_cons_self
      simp only [FixedSlot.stop] at apart
      rw [List.length_take]
      omega

/-- What every destructor keeps of the host, all of them do, by one call after another. -/
theorem host_runDestructors {destroy : δ → Address → List Word → σ → Reply σ (List Word)}
    {kept : σ → Prop}
    (keeps : ∀ destructor payload words host, kept host →
      kept (destroy destructor payload words host).host)
    (slots : List (FixedSlot δ)) (arena : Arena) {host : σ} (holds : kept host)
    : kept (runDestructors destroy slots arena host).2.1 := by
  fun_induction runDestructors destroy slots arena host with
  | case1 => exact holds
  | case2 slot slots arena host none? ih => exact ih holds
  | case3 slot slots arena host words destructor found reply written final host' notes run ih =>
      have rest := ih (keeps _ _ _ _ holds)
      rw [run] at rest
      exact rest

/-- The lists of freed slots, by pushing one slot after another. -/
theorem mem_foldl_push {freed : List (FixedSlot δ)} {vacant : FreeLists} {sizeClass : Nat}
    {executable : Bool} {start : Nat}
    : start ∈ (freed.foldl FreeLists.push vacant).get sizeClass executable
      ↔ start ∈ vacant.get sizeClass executable
        ∨ ∃ slot ∈ freed,
            slot.start = start ∧ slot.sizeClass = sizeClass ∧ slot.executable = executable := by
  induction freed generalizing vacant with
  | nil => simp
  | cons head rest ih =>
      rw [List.foldl_cons, ih, FreeLists.push, FreeLists.get_set]
      split_ifs with here
      · obtain ⟨rfl, rfl⟩ := here
        simp only [List.mem_cons, exists_eq_or_imp]
        grind
      · simp only [List.mem_cons, exists_eq_or_imp]
        grind

/-- Pushing slots that begin at new places lists no place twice, by one push after another. -/
theorem nodup_foldl_push {freed : List (FixedSlot δ)} {vacant : FreeLists}
    (nodup : ∀ sizeClass executable, (vacant.get sizeClass executable).Nodup)
    (apart : freed.Pairwise fun newer older => newer.start ≠ older.start)
    (unlisted
      : ∀ slot ∈ freed,
          ∀ sizeClass executable, slot.start ∉ vacant.get sizeClass executable)
    (sizeClass : Nat) (executable : Bool)
    : ((freed.foldl FreeLists.push vacant).get sizeClass executable).Nodup := by
  induction freed generalizing vacant with
  | nil => exact nodup sizeClass executable
  | cons head rest ih =>
      obtain ⟨first, others⟩ := List.pairwise_cons.mp apart
      refine ih ?_ others ?_
      · intro sizeClass executable
        rw [FreeLists.push, FreeLists.get_set]
        split_ifs with here
        · exact List.nodup_cons.mpr ⟨unlisted head List.mem_cons_self _ _, nodup _ _⟩
        · exact nodup _ _
      · intro slot inside sizeClass executable
        rw [FreeLists.push, FreeLists.get_set]
        have before := unlisted slot (List.mem_cons_of_mem _ inside)
        split_ifs with here
        · rw [List.mem_cons, not_or]
          exact ⟨Ne.symm (first slot inside), before _ _⟩
        · exact before _ _

/-- Sweeping keeps slots where they are. -/
@[simp] theorem start_swept (slot : FixedSlot δ) : slot.swept.start = slot.start := by
  unfold FixedSlot.swept
  split_ifs <;> rfl

/-- Sweeping keeps slots as large as they are. -/
@[simp] theorem capacity_swept (slot : FixedSlot δ) : slot.swept.capacity = slot.capacity := by
  unfold FixedSlot.swept
  split_ifs <;> rfl

/-- Sweeping keeps the class of a slot. -/
@[simp] theorem sizeClass_swept (slot : FixedSlot δ)
    : slot.swept.sizeClass = slot.sizeClass := by
  unfold FixedSlot.swept
  split_ifs <;> rfl

/-- Sweeping keeps the use of a slot. -/
@[simp] theorem executable_swept (slot : FixedSlot δ)
    : slot.swept.executable = slot.executable := by
  unfold FixedSlot.swept
  split_ifs <;> rfl

/-- A swept slot holds the object it held, unmarked, if that was marked. -/
theorem occupant_swept (slot : FixedSlot δ)
    : slot.swept.occupant = (slot.occupant.filter (·.marked)).map Occupant.unmarked := by
  unfold FixedSlot.swept FixedSlot.isGarbage
  cases held : slot.occupant with
  | none => simp
  | some occupant => cases marked : occupant.marked <;> simp [marked, Option.filter, Occupant.unmarked]

/-- A swept slot is vacant if it was or held garbage. -/
theorem occupant_swept_eq_none_iff (slot : FixedSlot δ)
    : slot.swept.occupant = none ↔ slot.occupant = none ∨ slot.isGarbage := by
  rw [occupant_swept, FixedSlot.isGarbage]
  cases held : slot.occupant with
  | none => simp
  | some occupant => cases marked : occupant.marked <;> simp [marked, Option.filter]

/-- What a sweep leaves: the marked objects, unmarked, with their words. -/
structure Sweeps (space : FixedSpace δ) (swept : FixedSpace δ) : Prop where
  consistent : swept.Consistent
  slots : swept.slots = space.slots.map FixedSlot.swept
  size : swept.arena.size = space.arena.size
  recent : swept.recent = space.recent
  kept
    : ∀ offset start,
        swept.containing? offset = some start →
        swept.arena.get offset = space.arena.get offset

section Sweep

variable {space : FixedSpace δ} (consistent : space.Consistent)
include consistent

/-- No slot of a consistent space stops a sweep. -/
theorem Consistent.find?_invalid
    : space.slots.find? (fun slot => !slot.isValid space.arena.size) = none := by
  rw [List.find?_eq_none]
  intro slot member
  have under := consistent.stacked.stop_le member
  have fits := consistent.fits slot member
  cases held : slot.occupant with
  | none => simp [FixedSlot.isValid, held, under]
  | some occupant => simp [FixedSlot.isValid, held, under, (fits occupant held).2]

/-- The lists name no slot twice once the freed ones were pushed. -/
theorem Consistent.nodup_freed (sizeClass : Nat) (executable : Bool)
    : (((space.slots.filter FixedSlot.isGarbage).foldl FreeLists.push space.vacant).get sizeClass
        executable).Nodup := by
  refine nodup_foldl_push consistent.vacantNodup ?_ ?_ sizeClass executable
  · refine (consistent.stacked.pairwise.imp_of_mem ?_).filter _
    intro newer older left right apart same
    have spans := consistent.stacked.capacity_pos right
    simp only [FixedSlot.stop] at apart
    omega
  · intro slot member sizeClass executable listed
    obtain ⟨inside, garbage⟩ := List.mem_filter.mp member
    obtain ⟨other, there, same, -, -, empty⟩ := (consistent.mem_vacant _ _ _).mp listed
    rw [consistent.stacked.eq_of_start there inside same] at empty
    simp [FixedSlot.isGarbage, empty] at garbage

/-- The lists name the slots that are vacant after a sweep once the freed ones were pushed. -/
theorem Consistent.mem_freed (sizeClass : Nat) (executable : Bool) (start : Nat)
    : start ∈ ((space.slots.filter FixedSlot.isGarbage).foldl FreeLists.push space.vacant).get
        sizeClass executable
      ↔ ∃ slot ∈ space.slots.map FixedSlot.swept,
          slot.start = start
          ∧ slot.sizeClass = sizeClass
          ∧ slot.executable = executable
          ∧ slot.occupant = none := by
  rw [mem_foldl_push, consistent.mem_vacant]
  constructor
  · rintro (⟨slot, inside, rfl, rfl, rfl, empty⟩ | ⟨slot, member, rfl, rfl, rfl⟩)
    · exact ⟨slot.swept, List.mem_map_of_mem inside, start_swept slot, sizeClass_swept slot,
        executable_swept slot, (occupant_swept_eq_none_iff slot).mpr (Or.inl empty)⟩
    · obtain ⟨inside, garbage⟩ := List.mem_filter.mp member
      exact ⟨slot.swept, List.mem_map_of_mem inside, start_swept slot, sizeClass_swept slot,
        executable_swept slot, (occupant_swept_eq_none_iff slot).mpr (Or.inr garbage)⟩
  · rintro ⟨_, member, rfl, rfl, rfl, empty⟩
    obtain ⟨slot, inside, rfl⟩ := List.mem_map.mp member
    simp only [start_swept, sizeClass_swept, executable_swept]
    rcases (occupant_swept_eq_none_iff slot).mp empty with vacant | garbage
    · exact Or.inl ⟨slot, inside, rfl, rfl, rfl, vacant⟩
    · exact Or.inr ⟨slot, List.mem_filter.mpr ⟨inside, garbage⟩, rfl, rfl, rfl⟩

/-- The destructors of what is freed leave alone the words of what is live after a sweep. -/
theorem Consistent.get_of_live {destroy : δ → Address → List Word → σ → Reply σ (List Word)}
    {host : σ} {slot : FixedSlot δ} (inside : slot ∈ space.slots) (live : slot.swept.isLive)
    {offset : Nat} (above : slot.start ≤ offset) (below : offset < slot.stop)
    : (runDestructors destroy (space.slots.filter FixedSlot.isGarbage) space.arena host).1.get offset
      = space.arena.get offset := by
  refine get_runDestructors (fun other member occupant holds => ?_) fun other member => ?_
  · exact (consistent.fits other (List.mem_filter.mp member).1 occupant holds).2
  · obtain ⟨there, garbage⟩ := List.mem_filter.mp member
    rcases consistent.stacked.eq_or_apart inside there with rfl | before | behind
    · have vacant := (occupant_swept_eq_none_iff slot).mpr (Or.inr garbage)
      simp [FixedSlot.isLive, vacant] at live
    · exact Or.inl (by omega)
    · exact Or.inr (by omega)

/-- A consistent space is swept to the end. -/
theorem Consistent.sweep (destroy : δ → Address → List Word → σ → Reply σ (List Word)) (host : σ)
    : ∃ swept, space.sweep destroy host = .ok swept ∧ space.Sweeps swept.space
        ∧ ∀ kept : σ → Prop,
            (∀ destructor payload words host, kept host →
              kept (destroy destructor payload words host).host) →
            kept host → kept swept.host := by
  simp only [FixedSpace.sweep, consistent.find?_invalid]
  refine ⟨_, rfl, ⟨⟨?_, ?_, consistent.nodup_freed, consistent.mem_freed⟩, rfl, ?_, rfl, ?_⟩, ?_⟩
  · rw [size_runDestructors]
    exact (stacked_map start_swept capacity_swept).mpr consistent.stacked
  · intro slot member occupant holds
    obtain ⟨before, inside, rfl⟩ := List.mem_map.mp member
    rw [occupant_swept] at holds
    obtain ⟨former, marked, rfl⟩ := Option.map_eq_some_iff.mp holds
    rw [capacity_swept]
    exact consistent.fits before inside former (Option.filter_eq_some_iff.mp marked).1
  · exact size_runDestructors _ _ _ _
  · intro offset start covers
    obtain ⟨there, found, reaches⟩ := Option.bind_eq_some_iff.mp covers
    split_ifs at reaches with live
    simp only [Bool.and_eq_true, decide_eq_true_eq] at live
    obtain ⟨slot, inside, rfl⟩ := List.mem_map.mp (List.mem_of_find?_eq_some found)
    have above : slot.start ≤ offset := by simpa using List.find?_some found
    have below : offset < slot.stop := by simpa [FixedSlot.stop] using live.2
    exact consistent.get_of_live inside live.1 above below
  · intro kept keeps holds
    exact host_runDestructors keeps _ _ holds

end Sweep

section Sweeps

variable {space swept : FixedSpace δ} (sweeps : space.Sweeps swept)

include sweeps

/-- The objects after a sweep are those that were marked. -/
theorem Sweeps.occupant? (start : Nat)
    : swept.occupant? start
      = ((space.occupant? start).filter (·.marked)).map Occupant.unmarked := by
  rw [FixedSpace.occupant?, slot?, sweeps.slots, List.find?_map]
  have places : (fun slot : FixedSlot δ => slot.start == start) ∘ FixedSlot.swept
      = fun slot => slot.start == start := by
    funext slot
    simp
  rw [places, FixedSpace.occupant?, slot?]
  cases space.slots.find? fun slot => slot.start == start with
  | none => rfl
  | some slot => exact occupant_swept slot

/-- No object is marked after a sweep. -/
theorem Sweeps.noneMarked : swept.NoneMarked := by
  intro slot member occupant holds
  rw [sweeps.slots] at member
  obtain ⟨before, -, rfl⟩ := List.mem_map.mp member
  rw [occupant_swept] at holds
  obtain ⟨former, -, rfl⟩ := Option.map_eq_some_iff.mp holds
  rfl

/-- After a sweep an offset is covered if the object that covered it was marked. -/
theorem Sweeps.containing?_eq_some_iff (consistent : space.Consistent) {offset start : Nat}
    : swept.containing? offset = some start
      ↔ space.containing? offset = some start
        ∧ ∃ occupant, space.occupant? start = some occupant ∧ occupant.marked := by
  rw [sweeps.consistent.containing?_eq_some_iff, consistent.containing?_eq_some_iff, sweeps.slots]
  constructor
  · rintro ⟨_, member, rfl, live, above, below⟩
    obtain ⟨slot, inside, rfl⟩ := List.mem_map.mp member
    obtain ⟨occupant, holds⟩ := Option.isSome_iff_exists.mp live
    rw [occupant_swept] at holds
    obtain ⟨former, marked, -⟩ := Option.map_eq_some_iff.mp holds
    obtain ⟨held, marked⟩ := Option.filter_eq_some_iff.mp marked
    simp only [start_swept, FixedSlot.stop, capacity_swept] at above below ⊢
    exact ⟨⟨slot, inside, rfl, by simp [FixedSlot.isLive, held], above, below⟩, former,
      consistent.occupant?_eq_some_iff.mpr ⟨slot, inside, rfl, held⟩, marked⟩
  · rintro ⟨⟨slot, inside, rfl, -, above, below⟩, occupant, found, marked⟩
    obtain ⟨other, there, same, held⟩ := consistent.occupant?_eq_some_iff.mp found
    rw [consistent.stacked.eq_of_start there inside same] at held
    refine ⟨slot.swept, List.mem_map_of_mem inside, start_swept slot, ?_, above, ?_⟩
    · simp [FixedSlot.isLive, occupant_swept, held, Option.filter, marked]
    · simpa [FixedSlot.stop] using below

end Sweeps

end FixedSpace

end MovingHeap
