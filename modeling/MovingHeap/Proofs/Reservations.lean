import MovingHeap.Proofs.LinkedSweeps
import MovingHeap.Record.Host

/-! What allocation in the fixed space hands out.
It is the first slot on the list of a class and use that is large enough, or a new one at the end of the
arena. The slot is zero and apart from all objects, whose words and headers stay as they are, and it never
serves another use than it was made for.
-/

namespace MovingHeap

variable {σ δ : Type}

/-- The slot without its object: what it keeps for good. -/
def FixedSlot.bare (slot : FixedSlot δ) : FixedSlot δ := { slot with occupant := none }

namespace FixedSpace

-----------------------------------------------------------------------------------------
-- What slots keep for good
-----------------------------------------------------------------------------------------

/-- The slots are still there later, below newer ones, with the same sizes, classes and uses. -/
def Lasts (before after : FixedSpace δ) : Prop :=
  before.slots.map FixedSlot.bare <:+ after.slots.map FixedSlot.bare

/-- A slot that is there later is what it was. -/
theorem Lasts.exists_slot {before after : FixedSpace δ} (lasts : before.Lasts after)
    {former : FixedSlot δ} (member : former ∈ before.slots)
    : ∃ slot ∈ after.slots, slot.bare = former.bare :=
  List.mem_map.mp (lasts.subset (List.mem_map_of_mem member))

/-- Changing what slots hold keeps the slots. -/
theorem lasts_map {before after : FixedSpace δ} {change : FixedSlot δ → FixedSlot δ}
    (slots : after.slots = before.slots.map change) (bare : ∀ slot, (change slot).bare = slot.bare)
    : before.Lasts after := by
  have same : FixedSlot.bare ∘ change = FixedSlot.bare := funext bare
  have kept : after.slots.map FixedSlot.bare = before.slots.map FixedSlot.bare := by
    rw [slots, List.map_map, same]
  exact ⟨[], kept.symm⟩

/-- Putting an object into a slot keeps the slots. -/
theorem lasts_occupy {before after : FixedSpace δ} (lasts : before.Lasts after)
    (slot : FixedSlot δ) (occupant : Occupant δ)
    : before.Lasts (after.occupy slot occupant) := by
  refine lasts.trans (lasts_map rfl fun other => ?_)
  split_ifs <;> rfl

/-- Changing objects keeps the slots. -/
theorem lasts_updateOccupant (space : FixedSpace δ) (start : Nat)
    (change : Occupant δ → Occupant δ)
    : space.Lasts (space.updateOccupant start change) := by
  refine lasts_map rfl fun slot => ?_
  split_ifs <;> rfl

/-- Every change keeps the slots. -/
theorem Change.lasts {space next : FixedSpace δ} (change : Change σ δ)
    (applied : change.apply space = .ok next)
    : space.Lasts next := by
  have still : space.Lasts space := List.suffix_rfl
  cases change with
  | allocate words positive destructor executable =>
      cases applied
      rw [FixedSpace.allocate]
      cases space.vacantFor? (space.classes.indexFor words) words executable with
      | some slot =>
          have reused : space.Lasts (space.reuse slot) := still
          exact lasts_occupy reused slot _
      | none =>
          have appended : ∀ slot, space.Lasts (space.append slot) := fun slot => List.suffix_cons _ _
          exact lasts_occupy (appended _) _ _
  | overwrite offset word =>
      cases applied
      unfold FixedSpace.overwrite
      split_ifs <;> exact still
  | forget start =>
      cases applied
      unfold FixedSpace.forget?
      cases space.occupant? start with
      | none => exact still
      | some occupant => exact lasts_updateOccupant space start _
  | mark offset =>
      cases applied
      rcases space.mark?_cases offset with same | ⟨start, same⟩
      · rw [same]
        exact still
      · rw [same]
        exact lasts_updateOccupant space start _
  | sweep destroy host =>
      cases sweeps : space.sweep destroy host with
      | error start => simp [Change.apply, sweeps, Except.map] at applied
      | ok swept =>
          rw [Change.apply, sweeps] at applied
          cases applied
          refine lasts_map (slots_sweep sweeps) fun slot => ?_
          unfold FixedSlot.swept
          split_ifs <;> rfl
  | clearFresh =>
      cases applied
      exact still

/-- Any changes keep the slots. -/
theorem lasts_changed {space final : FixedSpace δ} {changes : List (Change σ δ)}
    (done : space.changed changes = .ok final)
    : space.Lasts final :=
  keeps_changed (fun change _ _ lasts applied => lasts.trans (change.lasts applied))
    List.suffix_rfl done

-----------------------------------------------------------------------------------------
-- The slot that is chosen
-----------------------------------------------------------------------------------------

/-- The slot that begins at a place holds so many words. -/
def Fits (space : FixedSpace δ) (words start : Nat) : Prop :=
  ∃ slot ∈ space.slots, slot.start = start ∧ words ≤ slot.capacity

/-- Which slot is handed out for some words: the first on the list of its class and use that is large
enough, and that list goes on without it; or, if none on it is, a new slot of the size of the class, by
which the arena grows. No other list changes.
-/
structure FirstFit (space : FixedSpace δ) (words : Nat) (slot : FixedSlot δ)
    (next : FixedSpace δ)
    : Prop where
  sizeClass : slot.sizeClass = space.classes.indexFor words
  reused
    : (∃ start ∈ space.vacant.get slot.sizeClass slot.executable, space.Fits words start) →
        ∃ front back,
          space.vacant.get slot.sizeClass slot.executable = front ++ slot.start :: back
          ∧ (∀ start ∈ front, ¬ space.Fits words start)
          ∧ space.Fits words slot.start
          ∧ next.vacant.get slot.sizeClass slot.executable = front ++ back
          ∧ next.arena.size = space.arena.size
  appended
    : (∀ start ∈ space.vacant.get slot.sizeClass slot.executable, ¬ space.Fits words start) →
        slot.start = space.arena.size
        ∧ slot.capacity = space.classes.capacity (space.classes.indexFor words) words
        ∧ next.vacant.get slot.sizeClass slot.executable
          = space.vacant.get slot.sizeClass slot.executable
        ∧ next.arena.size = space.arena.size + slot.capacity
  elsewhere
    : ∀ sizeClass executable,
        sizeClass ≠ slot.sizeClass ∨ executable ≠ slot.executable →
        next.vacant.get sizeClass executable = space.vacant.get sizeClass executable

/-- What is handed out: a slot of its own with zeroed words and an object that is neither marked nor
forgotten. The other objects and their words are as they were.
-/
structure Lends (space : FixedSpace δ) (words : Nat) (destructor : Option δ) (slot : FixedSlot δ)
    (next : FixedSpace δ)
    : Prop where
  member : slot ∈ next.slots
  occupant : slot.occupant = some { words, destructor, marked := false, forgotten := false }
  large : words ≤ slot.capacity
  inside : slot.stop ≤ next.arena.size
  zeroed : ∀ offset, slot.start ≤ offset → offset < slot.stop → next.arena.get offset = 0
  residents
    : ∀ other ∈ space.slots,
        other.isLive →
        other ∈ next.slots
        ∧ (other.stop ≤ slot.start ∨ slot.stop ≤ other.start)
        ∧ next.arena.words other.start other.capacity
          = space.arena.words other.start other.capacity
  only : ∀ other ∈ next.slots, other = slot ∨ other ∈ space.slots
  fresh : next.freshObjects = space.freshObjects ++ [slot.start]
  objects : next.liveObjects = space.liveObjects + 1
  words : next.liveWords = space.liveWords + slot.capacity

section Allocate

variable {space : FixedSpace δ} (consistent : space.Consistent)

include consistent

/-- A listed slot is found large enough if it is. -/
theorem Consistent.filter_slot?_eq_none_iff {words start : Nat}
    : ((space.slot? start).filter fun slot => words ≤ slot.capacity) = none
      ↔ ¬ space.Fits words start := by
  rw [Option.filter_eq_none_iff]
  constructor
  · rintro small ⟨slot, member, rfl, large⟩
    exact small slot (consistent.slot?_start member) (by simpa using large)
  · intro small slot found large
    obtain ⟨member, begins⟩ := mem_of_slot? found
    exact small ⟨slot, member, begins, by simpa using large⟩

/-- A vacant slot is found at the first place of its list that is large enough. -/
theorem Consistent.vacantFor?_eq_some {sizeClass words : Nat} {executable : Bool}
    {slot : FixedSlot δ} (found : space.vacantFor? sizeClass words executable = some slot)
    : ∃ front back,
        space.vacant.get sizeClass executable = front ++ slot.start :: back
        ∧ (∀ start ∈ front, ¬ space.Fits words start)
        ∧ space.Fits words slot.start := by
  obtain ⟨front, start, back, listed, here, earlier⟩ := List.findSome?_eq_some_iff.mp found
  obtain ⟨there, large⟩ := Option.filter_eq_some_iff.mp here
  obtain ⟨member, rfl⟩ := mem_of_slot? there
  exact ⟨front, back, listed,
    fun other inside => consistent.filter_slot?_eq_none_iff.mp (earlier other inside),
    slot, member, rfl, by simpa using large⟩

/-- No vacant slot is found if none on the list is large enough. -/
theorem Consistent.vacantFor?_eq_none_iff {sizeClass words : Nat} {executable : Bool}
    : space.vacantFor? sizeClass words executable = none
      ↔ ∀ start ∈ space.vacant.get sizeClass executable, ¬ space.Fits words start := by
  rw [vacantFor?, List.findSome?_eq_none_iff]
  exact forall₂_congr fun _ _ => consistent.filter_slot?_eq_none_iff

/-- What is reserved for an object is lent to it. -/
theorem Consistent.lends {next : FixedSpace δ} {slot : FixedSlot δ} {words : Nat}
    {destructor : Option δ} (reserves : space.Reserves slot next)
    (occupant : slot.occupant = some { words, destructor })
    (objects : next.liveObjects = space.liveObjects + 1)
    (liveWords : next.liveWords = space.liveWords + slot.capacity)
    : space.Lends words destructor slot next := by
  have member := (reserves.mem_slots slot).mpr (.inl rfl)
  refine
    { member, occupant, objects
      large := (reserves.consistent.fits slot member _ occupant).2
      inside := reserves.consistent.stacked.stop_le member
      zeroed := reserves.zeroed
      residents := fun other inside live => ?_
      only := fun other inside => ((reserves.mem_slots other).mp inside).imp_right And.left
      fresh := ?_
      words := liveWords }
  · have differs := reserves.start_ne consistent inside live
    have still := (reserves.mem_slots other).mpr (.inr ⟨inside, differs⟩)
    refine ⟨still, ?_, Arena.words_congr fun offset above below => ?_⟩
    · rcases reserves.consistent.stacked.eq_or_apart still member with rfl | apart
      · exact absurd rfl differs
      · exact apart
    · exact reserves.get_kept consistent
        (consistent.containing?_eq_some_iff.mpr ⟨other, inside, rfl, live, above, below⟩)
  · rw [freshObjects, reserves.recent, List.reverse_cons]
    rfl

/-- Allocation lends the first slot that fits. -/
theorem Consistent.lends_allocate {words : Nat} (positive : 0 < words) (destructor : Option δ)
    (executable : Bool)
    : ∃ slot : FixedSlot δ,
        (space.allocate words destructor executable).1 = slot.start
        ∧ slot.executable = executable
        ∧ space.Lends words destructor slot (space.allocate words destructor executable).2
        ∧ space.FirstFit words slot (space.allocate words destructor executable).2 := by
  rw [allocate]
  cases found : space.vacantFor? (space.classes.indexFor words) words executable with
  | some slot =>
      obtain ⟨member, ofClass, ofUse, empty, large⟩ := consistent.mem_of_vacantFor? found
      obtain ⟨front, back, listed, small, fits⟩ := consistent.vacantFor?_eq_some found
      have nodup := consistent.vacantNodup (space.classes.indexFor words) executable
      refine ⟨{ slot with occupant := some { words, destructor } }, rfl, ofUse,
        consistent.lends (consistent.reserves_reuse member empty ⟨positive, large⟩) rfl rfl rfl, ?_⟩
      refine ⟨ofClass, fun _ => ?_, fun none => ?_, fun other use differs => ?_⟩
      · simp only [ofClass, ofUse]
        refine ⟨front, back, listed, small, fits, ?_, rfl⟩
        simp only [occupy, updateSlot, reuse, FreeLists.get_set, ofClass, ofUse, and_self, if_true]
        rw [listed] at nodup ⊢
        rw [List.erase_append_right, List.erase_cons_head]
        intro early
        exact (List.nodup_append.mp nodup).2.2 _ early _ List.mem_cons_self rfl
      · simp only [ofClass, ofUse] at none
        refine absurd fits (none slot.start ?_)
        rw [listed]
        simp
      · simp only [occupy, updateSlot, reuse, FreeLists.get_set]
        refine if_neg fun same => ?_
        rcases differs with differs | differs
        · exact differs same.1.symm
        · exact differs same.2.symm
  | none =>
      have small := consistent.vacantFor?_eq_none_iff.mp found
      have large := space.classes.le_capacity words
      let slot := space.extraSlot words executable
      let occupant : Occupant δ := { words, destructor }
      have last : slot.start = space.arena.size := rfl
      have fits : 0 < occupant.words ∧ occupant.words ≤ slot.capacity := ⟨positive, large⟩
      have reserves := consistent.reserves_append last (Nat.lt_of_lt_of_le positive large) fits
      refine ⟨{ slot with occupant := some occupant }, rfl, rfl,
        consistent.lends reserves rfl rfl rfl, rfl, ?_, fun _ => ⟨rfl, rfl, rfl, rfl⟩,
        fun _ _ _ => rfl⟩
      rintro ⟨start, listed, fits⟩
      exact absurd fits (small start listed)

end Allocate

end FixedSpace

-----------------------------------------------------------------------------------------
-- Headers and links
-----------------------------------------------------------------------------------------

namespace LinkedSpace

/-- What allocation makes of the headers: that of the slot describes the new object and leads to no vacant
slot any more, and those of the other objects are as they were, with their links.
-/
structure Lends (linked : LinkedSpace δ) (slot : FixedSlot δ) (next : LinkedSpace δ) : Prop where
  header
    : ∃ header,
        next.headers slot.start = some header
        ∧ header.slot slot.start = slot
        ∧ header.next = none
  others : ∀ start, (linked.occupant? start).isSome → next.headers start = linked.headers start

/-- Taking a vacant slot changes its header and that of the slot before it on the list, which is vacant. -/
theorem Spells.headers_takeVacant? {linked taken : LinkedSpace δ} {space : FixedSpace δ}
    (spells : linked.Spells space) (consistent : space.Consistent) {sizeClass words start : Nat}
    {executable : Bool}
    (took : linked.takeVacant? sizeClass words executable = some (start, taken))
    : taken.next start = none
      ∧ ∀ other ≠ start,
          (linked.occupant? other).isSome → taken.headers other = linked.headers other := by
  obtain ⟨⟨before, place⟩, walked, took⟩ := Option.bind_eq_some_iff.mp took
  obtain ⟨header, here, took⟩ := Option.bind_eq_some_iff.mp took
  obtain ⟨rfl, rfl⟩ := Prod.mk.inj (Option.some.inj took)
  refine ⟨?_, fun other differs live => ?_⟩
  · have cut : ((linked.unlink sizeClass executable before place).update place
        ({ · with next := none })).next place = _ :=
      next_update_apply _ place (fun _ => none) (fun _ => rfl) place
    rw [if_pos rfl] at cut
    exact cut.trans (Option.bind_fun_none _)
  · have kept : (linked.unlink sizeClass executable before place).headers other
        = linked.headers other := by
      cases before with
      | none => rfl
      | some before =>
          refine (headers_update linked before other).trans (if_neg ?_)
          rintro rfl
          -- the slot before it is on the list, too, and so holds no object
          have walk := spells.walk_vacant consistent sizeClass words executable
          rw [walked] at walk
          split at walk
          next none => cases walk
          next slot found =>
            obtain ⟨front, back, places, same⟩ := walk
            have last : front.getLast? = some other := (congrArg Prod.fst (Option.some.inj same)).symm
            have listed : other ∈ space.vacant.get sizeClass executable := by
              rw [places]
              exact List.mem_append_left _ (List.mem_of_getLast? last)
            obtain ⟨vacant, member, begins, -, -, empty⟩ := (consistent.mem_vacant _ _ _).mp listed
            obtain ⟨occupant, holds⟩ := Option.isSome_iff_exists.mp live
            rw [spells.occupant?] at holds
            obtain ⟨resident, inside, begins', held⟩ := consistent.occupant?_eq_some_iff.mp holds
            rw [consistent.stacked.eq_of_start member inside (begins.trans begins'.symm), held] at empty
            cases empty
    exact (headers_update _ place other).trans ((if_neg differs).trans kept)

/-- Occupying a slot changes no link to a vacant one. -/
theorem next_occupy (linked : LinkedSpace δ) (start : Nat) (executable : Bool)
    (occupant : Occupant δ)
    : (linked.occupy start executable occupant).next = linked.next :=
  next_update linked start fun _ => rfl

/-- Occupying a slot changes no other header. -/
theorem headers_occupy (linked : LinkedSpace δ) {start other : Nat} (differs : other ≠ start)
    (executable : Bool) (occupant : Occupant δ)
    : (linked.occupy start executable occupant).headers other = linked.headers other :=
  (headers_update linked start other).trans (if_neg differs)

/-- Allocation along the links answers the slot that is lent and leaves the headers of all other objects.
-/
theorem Spells.lends_allocate {linked : LinkedSpace δ} {space : FixedSpace δ}
    (spells : linked.Spells space) (consistent : space.Consistent) {words : Nat}
    (positive : 0 < words) {destructor : Option δ} {executable : Bool} {slot : FixedSlot δ}
    (answer : (space.allocate words destructor executable).1 = slot.start)
    (lends : space.Lends words destructor slot (space.allocate words destructor executable).2)
    : linked.Lends slot (linked.allocate words destructor executable).2 := by
  obtain ⟨same, describes⟩ := spells.allocate consistent words destructor executable
  obtain ⟨_, -, -, reserves⟩ := consistent.reserves_allocate positive destructor executable
  obtain ⟨header, here, holds⟩ :=
    describes.exists_header (reserves.consistent.slot?_start lends.member)
  have elsewhere : ∀ start, (linked.occupant? start).isSome → start ≠ slot.start := by
    rintro start live rfl
    obtain ⟨occupant, found⟩ := Option.isSome_iff_exists.mp live
    rw [spells.occupant?] at found
    obtain ⟨other, inside, begins, held⟩ := consistent.occupant?_eq_some_iff.mp found
    obtain ⟨-, apart, -⟩ := lends.residents other inside (by simp [FixedSlot.isLive, held])
    have spans := consistent.stacked.capacity_pos inside
    have large := lends.large
    simp only [FixedSlot.stop] at apart
    omega
  suffices kept : (linked.allocate words destructor executable).2.next slot.start = none
      ∧ ∀ start, (linked.occupant? start).isSome →
          (linked.allocate words destructor executable).2.headers start = linked.headers start by
    rw [next, here, Option.bind_some] at kept
    exact ⟨⟨header, here, holds, kept.1⟩, kept.2⟩
  rw [answer] at same
  unfold LinkedSpace.allocate at same ⊢
  cases took : linked.takeVacant? (linked.classes.indexFor words) words executable with
  | some taken =>
      obtain ⟨start, taken⟩ := taken
      simp only [took, Option.getD_some] at same ⊢
      subst same
      obtain ⟨ends, others⟩ := spells.headers_takeVacant? consistent took
      refine ⟨by rw [next_occupy, ends], fun start live => ?_⟩
      have differs := elsewhere start live
      rw [headers_occupy taken differs, others start differs live]
  | none =>
      simp only [took, Option.getD_none] at same ⊢
      rw [same]
      refine ⟨?_, fun start live => ?_⟩
      · rw [next_occupy, next, LinkedSpace.append, same]
        simp only [Function.update_self, Option.bind_some]
      · have differs := elsewhere start live
        rw [headers_occupy _ differs]
        exact Function.update_of_ne (same ▸ differs) _ _

end LinkedSpace

-----------------------------------------------------------------------------------------
-- Allocation in every run
-----------------------------------------------------------------------------------------

namespace Record

/-- Three large objects of different sizes and a small one; all are swept but the small one, which leaves a
list of three slots, and a word of the second of them is written.
-/
def largeChanges : List (FixedSpace.Change HostState Destructor) :=
  [.allocate 2050 (by decide) none false, .allocate 2300 (by decide) none false,
    .allocate 2100 (by decide) none false, .allocate 2 (by decide) none true, .mark 6450,
    .sweep host.destroy {}, .overwrite 2055 9]

end Record

end MovingHeap
