import MovingHeap.Proofs.MutatorSteps
import MovingHeap.Proofs.WellFormedness

/-! How memory may change between collections.
Words are handed out and slots recorded at the two ends of the birth region, fixed objects take slots
that were vacant. None of it touches what was met, and no reference into the birth region is lost
sight of.
-/

namespace MovingHeap

variable {σ δ : Type}

namespace World

/-- All is the same but memory, the counters and what the log and the phases tell. -/
structure SameOutside (before after : World σ δ) : Prop where
  host : after.host = before.host
  frames : after.heap.frames = before.heap.frames
  handlers : after.heap.handlers = before.heap.handlers
  modules : after.heap.modules = before.heap.modules
  constants : after.heap.constants = before.heap.constants

theorem SameOutside.refl (world : World σ δ) : world.SameOutside world := ⟨rfl, rfl, rfl, rfl, rfl⟩

/-- What is the same twice is the same. -/
theorem SameOutside.trans {before middle after : World σ δ} (first : before.SameOutside middle)
    (second : middle.SameOutside after)
    : before.SameOutside after where
  host := second.host.trans first.host
  frames := second.frames.trans first.frames
  handlers := second.handlers.trans first.handlers
  modules := second.modules.trans first.modules
  constants := second.constants.trans first.constants

variable {contract : Contract σ} {before after : World σ δ} {extra held : List Value}

theorem SameOutside.rootValue (same : before.SameOutside after) (root : Root)
    : after.heap.rootValue root = before.heap.rootValue root := by
  cases root with
  | slot frame position => simp only [Heap.rootValue, same.frames]
  | pending handler => simp only [Heap.rootValue, same.handlers]
  | module rank => simp only [Heap.rootValue, same.modules]
  | constant index => simp only [Heap.rootValue, same.constants]

/-- The roots hold the same values. -/
theorem SameOutside.rooted (same : before.SameOutside after) {value : Value}
    (rooted : after.Rooted contract value)
    : before.Rooted contract value := by
  cases rooted with
  | root root =>
      rw [same.rootValue]
      exact .root root
  | kept member =>
      rw [same.host] at member
      exact .kept member

/-- No reference is lost sight of if every slot afterwards was one and still holds the same, or is noted
or holds no birth reference.
-/
theorem SameOutside.generational (same : before.SameOutside after)
    {layout : Layout} (generational : before.heap.Generational layout)
    (noted
      : ∀ space offset,
          before.heap.regions.Noted space offset → after.heap.regions.Noted space offset)
    (slots
      : ∀ space offset,
          after.heap.regions.Slot layout space offset →
          (Value.mk (after.heap.regions.cell space offset)).isBirth →
          after.heap.regions.Noted space offset
          ∨ before.heap.regions.Slot layout space offset
            ∧ after.heap.regions.cell space offset = before.heap.regions.cell space offset)
    : after.heap.Generational layout where
  slots space offset slot young := by
    rcases slots space offset slot young with now | ⟨was, kept⟩
    · exact now
    · rw [kept] at young
      exact noted space offset (generational.slots space offset was young)
  modules rank young := by
    rw [same.modules] at young ⊢
    exact generational.modules rank young
  constants index young := by
    rw [same.constants] at young ⊢
    exact generational.constants index young

-----------------------------------------------------------------------------------------
-- The birth region
-----------------------------------------------------------------------------------------

/-- Slots lie outside of the birth region. -/
theorem ne_birth_of_slot {layout : Layout} {regions : Regions δ} (apart : regions.Apart)
    {space : Space} {offset : Nat} (slot : regions.Slot layout space offset)
    : space ≠ .birth := by
  rintro rfl
  generalize here : Space.birth = space at slot
  cases slot with
  | old =>
      have old := apart.old
      rw [← here] at old
      cases old
  | fixed => cases here

/-- A word that is found among the last records is a record: the window ends with the records. -/
theorem mem_of_recentlyRemembered {birth : BirthRegion} {slot : Address}
    (known : birth.recentlyRemembered slot)
    : slot.raw ∈ birth.remembered := by
  simp only [BirthRegion.recentlyRemembered, List.contains_iff_mem] at known
  obtain ⟨index, above, below, found⟩ := Arena.mem_words.mp known
  exact Arena.mem_words.mpr ⟨index, above, by omega, found⟩

/-- Recording a slot puts it before those recorded already. -/
theorem remembered_remember {birth : BirthRegion} (room : 0 < birth.bufferStart)
    (inside : birth.bufferStart ≤ birth.capacity) (slot : Address)
    : (birth.remember slot).remembered = slot.raw :: birth.remembered := by
  have count : (birth.remember slot).rememberedCount = birth.rememberedCount + 1 := by
    simp only [BirthRegion.rememberedCount, BirthRegion.remember, BirthRegion.capacity,
      Arena.size_set] at inside ⊢
    omega
  have next : birth.bufferStart - 1 + 1 = birth.bufferStart := by omega
  rw [BirthRegion.remembered, count, BirthRegion.remembered, Arena.words, List.range'_succ,
    List.map_cons]
  simp only [BirthRegion.remember, next]
  congr 1
  · rw [Arena.get_set, if_pos rfl]
  · refine Arena.words_congr fun index above _ => ?_
    rw [Arena.get_set, if_neg (by omega)]

section Birth

variable {birth : BirthRegion}

section Kept

variable
  (wellFormed : before.WellFormed contract extra) (apart : before.heap.regions.Apart)
  (same : before.SameOutside after)
  (regions : after.heap.regions = { before.heap.regions with birth })
  (cursor : before.heap.regions.birth.cursor ≤ birth.cursor)
  (words
    : ∀ object : Address,
        object.Decodes →
        before.Met contract extra object.toValue →
        object.space = .birth →
        ∀ index < contract.layout.size (before.heap.regions.field object),
          birth.words.get (object.offset + index)
          = before.heap.regions.birth.words.get (object.offset + index))
  (remembered
    : ∀ raw ∈ birth.remembered,
        raw ∈ before.heap.regions.birth.remembered
        ∨ ∃ slot : Address,
            slot.raw = raw
            ∧ slot.Decodes
            ∧ before.heap.regions.Slot contract.layout slot.space slot.offset
            ∧ before.Met contract extra ⟨before.heap.regions.cell slot.space slot.offset⟩)
  (fewer : ∀ value ∈ held, value ∈ extra)

include apart cursor words in
/-- The birth region may change where no object that was met has words. -/
theorem preserves_birth : Preserves contract extra before { before.heap.regions with birth } := by
  refine ⟨rfl, rfl, fun space => ?_, fun offset _ =>
    Regions.cell_birth before.heap.regions birth apart.old_ne_birth offset, ?_, fun offset begin covers =>
    ⟨covers, rfl, fun _ _ _ _ => rfl⟩⟩
  · simp only [Regions.limit]
    split_ifs
    · exact cursor
    · exact Nat.le_refl _
  · intro object valid met here index inside
    have kept := words object valid met here index inside
    simpa only [Regions.field, here, Regions.cell] using kept

include wellFormed remembered in
/-- Slots that are recorded hold what was met. -/
theorem recorded_birth {raw : Word} (member : raw ∈ birth.remembered)
    : ∃ slot : Address, slot.raw = raw ∧ slot.Decodes
        ∧ before.heap.regions.Slot contract.layout slot.space slot.offset
        ∧ before.Met contract extra ⟨before.heap.regions.cell slot.space slot.offset⟩ := by
  rcases remembered raw member with former | fresh
  · obtain ⟨slot, rfl, valid, isSlot⟩ := wellFormed.recorded raw former
    exact ⟨slot, rfl, valid, isSlot, .start (.noted (.recorded valid former))⟩
  · exact fresh

include wellFormed apart same regions remembered fewer in
/-- Tracing starts from what was met. -/
theorem starts_birth {value : Value} (start : after.Starts contract held value)
    : value.address? = none ∨ before.Met contract extra value := by
  cases start with
  | rooted rooted => exact Or.inr (.start (.rooted (same.rooted rooted)))
  | extra member => exact Or.inr (.start (.extra (fewer _ member)))
  | @noted space offset noted =>
      rw [regions] at noted ⊢
      cases noted with
      | @recorded slot valid member =>
          obtain ⟨other, raw, -, isSlot, met⟩ := recorded_birth wellFormed remembered member
          obtain rfl : other = slot := congrArg Address.mk raw
          rw [Regions.cell_birth before.heap.regions birth (ne_birth_of_slot apart isSlot)]
          exact Or.inr met
      | fresh recent found inside =>
          exact Or.inr (.start (.noted (.fresh recent found inside)))

include wellFormed apart same regions cursor words remembered fewer

/-- What is met then was met before, or is no reference. -/
theorem met_birth {value : Value} (met : after.Met contract held value)
    : value.address? = none ∨ before.Met contract extra value := by
  have starts : ∀ value, after.Starts contract held value →
      value.address? = none ∨ before.Met contract extra value := fun _ =>
    starts_birth wellFormed apart same regions remembered fewer
  have closed := (preserves_birth apart cursor words).closed wellFormed apart
  rw [← regions] at closed
  exact Regions.Traced.within closed starts met

/-- References stay well-formed where the birth region keeps the words of what was met and records
slots only.
-/
theorem WellFormed.of_birth : after.WellFormed contract held := by
  refine wellFormed.of_preserves apart ?_ ?_
    (fun _ => starts_birth wellFormed apart same regions remembered fewer) ?_
  · rw [regions]
    exact preserves_birth apart cursor words
  · rw [same.host]
    exact wellFormed.upholds
  · intro raw member
    rw [regions] at member ⊢
    obtain ⟨slot, same', valid, isSlot, -⟩ := recorded_birth wellFormed remembered member
    exact ⟨slot, same', valid, (Regions.slot_birth apart birth).mpr isSlot⟩

end Kept

/-- No reference is lost sight of where the recorded slots stay recorded. -/
theorem generational_birth {layout : Layout} (generational : before.heap.Generational layout)
    (apart : before.heap.regions.Apart) (same : before.SameOutside after)
    (regions : after.heap.regions = { before.heap.regions with birth })
    (remembered
      : ∀ raw ∈ before.heap.regions.birth.remembered, raw ∈ birth.remembered)
    : after.heap.Generational layout := by
  refine same.generational generational (fun space offset noted => ?_) fun space offset slot _ => ?_
  · rw [regions]
    cases noted with
    | recorded valid member => exact .recorded valid (remembered _ member)
    | fresh recent found inside => exact .fresh recent found inside
  · rw [regions] at slot ⊢
    have former := (Regions.slot_birth apart birth).mp slot
    exact Or.inr ⟨former, Regions.cell_birth _ birth (ne_birth_of_slot apart former) offset⟩

end Birth

-----------------------------------------------------------------------------------------
-- The fixed space
-----------------------------------------------------------------------------------------

/-- The fixed space has no cells but its own. -/
theorem cell_fixed (regions : Regions δ) (fixed : FixedSpace δ) {space : Space}
    (other : space ≠ .fixed) (offset : Nat)
    : { regions with fixed }.cell space offset = regions.cell space offset := by
  cases space with
  | fixed => exact absurd rfl other
  | birth | oldA | oldB => rfl

section Reserves

variable {slot : FixedSlot δ} {next : FixedSpace δ}
  (reserves : before.heap.regions.fixed.Reserves slot next)
  (consistent : before.heap.regions.fixed.Consistent)

include reserves consistent

/-- An object that was there still is, with its words. -/
theorem kept_of_reserves {begin : Nat} {occupant : Occupant δ}
    (found : before.heap.regions.fixed.occupant? begin = some occupant)
    : next.occupant? begin = some occupant
      ∧ ∀ index < occupant.words,
          next.arena.get (begin + index) = before.heap.regions.fixed.arena.get (begin + index) := by
  have differs : begin ≠ slot.start := by
    intro here
    rw [here, reserves.vacant] at found
    cases found
  refine ⟨(reserves.occupant?_ne consistent differs).trans found, fun index inside => ?_⟩
  exact reserves.get_kept consistent ((consistent.payload found).2 index inside)

/-- An object there now was there before, or it is the new one and holds zeros. -/
theorem kept_or_new {begin : Nat} {occupant : Occupant δ}
    (found : next.occupant? begin = some occupant)
    : before.heap.regions.fixed.occupant? begin = some occupant
      ∨ begin = slot.start
        ∧ ∀ index < occupant.words, next.arena.get (begin + index) = 0 := by
  by_cases here : begin = slot.start
  · refine Or.inr ⟨here, fun index inside => ?_⟩
    obtain ⟨resident, member, begins, holds⟩ :=
      reserves.consistent.occupant?_eq_some_iff.mp found
    have fits := (reserves.consistent.fits resident member occupant holds).2
    have mine := (reserves.mem_slots slot).mpr (Or.inl rfl)
    obtain rfl := reserves.consistent.stacked.eq_of_start member mine (begins.trans here)
    exact reserves.zeroed _ (by omega) (by simp only [FixedSlot.stop]; omega)
  · rw [reserves.occupant?_ne consistent here] at found
    exact Or.inl found

variable (apart : before.heap.regions.Apart)
  (regions : after.heap.regions = { before.heap.regions with fixed := next })

include apart regions

/-- A slot still is one and holds the same. -/
theorem slot_of_reserves {layout : Layout} {space : Space} {offset : Nat}
    (was : before.heap.regions.Slot layout space offset)
    : after.heap.regions.Slot layout space offset
      ∧ after.heap.regions.cell space offset = before.heap.regions.cell space offset := by
  have notFixed := apart.old_ne_fixed
  rw [regions]
  constructor
  · exact was.alike_of_words { before.heap.regions with fixed := next } rfl rfl
      (cell_fixed before.heap.regions next notFixed)
      fun begin occupant found => ⟨occupant, (kept_of_reserves reserves consistent found).1, rfl⟩
  · cases was with
    | old => exact cell_fixed _ next notFixed _
    | fixed found inside => exact (kept_of_reserves reserves consistent found).2 _ inside

/-- A slot was one and holds the same, or it is a word of the new object and holds zero. -/
theorem of_slot_reserves {layout : Layout} {space : Space} {offset : Nat}
    (slot' : after.heap.regions.Slot layout space offset)
    : before.heap.regions.Slot layout space offset
        ∧ after.heap.regions.cell space offset = before.heap.regions.cell space offset
      ∨ after.heap.regions.cell space offset = 0 := by
  have notFixed := apart.old_ne_fixed
  have words := cell_fixed before.heap.regions next notFixed
  rw [regions] at slot' ⊢
  cases slot' with
  | @old starts start index tiles member isSlot =>
      have former := tiles.alike_of_words before.heap.regions rfl fun offset => (words offset).symm
      have same : { before.heap.regions with fixed := next }.wordsAt before.heap.regions.old.space
          start = before.heap.regions.wordsAt before.heap.regions.old.space start :=
        funext fun index => words (start + index)
      rw [same] at isSlot
      exact Or.inl ⟨.old former member isSlot, words _⟩
  | fixed found inside =>
      rcases kept_or_new reserves consistent found with former | ⟨rfl, zeros⟩
      · exact Or.inl ⟨.fixed former inside, (kept_of_reserves reserves consistent former).2 _ inside⟩
      · exact Or.inr (zeros _ inside)

/-- Allocating a fixed object leaves the other objects alone. -/
theorem preserves_reserves : Preserves contract extra before after.heap.regions := by
  have notFixed := apart.old_ne_fixed
  rw [regions]
  refine ⟨rfl, rfl, fun space => Nat.le_refl _, fun offset _ => cell_fixed _ next notFixed offset,
    ?_, fun offset begin covers => ?_⟩
  · intro object _ _ birth index _
    exact cell_fixed _ next (by simp [birth]) _
  · obtain ⟨occupant, found⟩ := consistent.exists_occupant covers
    obtain ⟨still, words⟩ := kept_of_reserves reserves consistent found
    refine ⟨reserves.containing?_kept consistent covers, still.trans found.symm, ?_⟩
    intro other found' index inside
    rw [found, Option.some.injEq] at found'
    exact words index (found' ▸ inside)

variable (same : before.SameOutside after)

include same

/-- Tracing starts from what was met, as the new object holds no reference. -/
theorem starts_reserves (wellFormed : before.WellFormed contract extra) {value : Value}
    (start : after.Starts contract extra value)
    : value.address? = none ∨ before.Met contract extra value := by
  cases start with
  | rooted rooted => exact Or.inr (.start (.rooted (same.rooted rooted)))
  | extra member => exact Or.inr (.start (.extra member))
  | @noted space offset noted =>
      rw [regions] at noted ⊢
      cases noted with
      | @recorded slot' valid member =>
          obtain ⟨other, raw, -, isSlot⟩ := wellFormed.recorded slot'.raw member
          obtain rfl : other = slot' := congrArg Address.mk raw
          have kept := (slot_of_reserves reserves consistent apart regions isSlot).2
          rw [regions] at kept
          rw [kept]
          exact Or.inr (.start (.noted (.recorded valid member)))
      | @fresh begin index occupant recent found inside =>
          rcases kept_or_new reserves consistent found with former | ⟨-, zeros⟩
          · have kept := (kept_of_reserves reserves consistent former).2 index inside
            have listed : begin ∈ next.recent := recent
            rw [reserves.recent] at listed
            have fresh : begin ∈ before.heap.regions.fixed.recent := by
              rcases List.mem_cons.mp listed with here | there
              · rw [here, reserves.vacant] at former
                cases former
              · exact there
            have met : before.Met contract extra
                ⟨before.heap.regions.fixed.arena.get (begin + index)⟩ :=
              .start (.noted (.fresh fresh former inside))
            rw [← kept] at met
            exact Or.inr met
          · have zero : { before.heap.regions with fixed := next }.cell .fixed (begin + index) = 0 :=
              zeros index inside
            rw [zero]
            exact Or.inl rfl

/-- What is met then was met before, or is no reference. -/
theorem met_reserves (wellFormed : before.WellFormed contract extra) {value : Value}
    (met : after.Met contract extra value)
    : value.address? = none ∨ before.Met contract extra value := by
  have preserves : Preserves contract extra before after.heap.regions :=
    preserves_reserves reserves consistent apart regions
  exact Regions.Traced.within (preserves.closed wellFormed apart)
    (fun _ => starts_reserves reserves consistent apart regions same wellFormed) met

/-- References stay well-formed where a fixed object is allocated, as it holds none. -/
theorem WellFormed.of_reserves (wellFormed : before.WellFormed contract extra)
    : after.WellFormed contract extra := by
  refine wellFormed.of_preserves apart (preserves_reserves reserves consistent apart regions) ?_
    (fun _ => starts_reserves reserves consistent apart regions same wellFormed) ?_
  · rw [same.host]
    exact wellFormed.upholds
  · intro raw member
    rw [regions] at member
    obtain ⟨other, raw', valid, isSlot⟩ := wellFormed.recorded raw member
    exact ⟨other, raw', valid, (slot_of_reserves reserves consistent apart regions isSlot).1⟩

/-- No reference is lost sight of where a fixed object is allocated, as it is fresh. -/
theorem generational_reserves {layout : Layout} (generational : before.heap.Generational layout)
    : after.heap.Generational layout := by
  refine same.generational generational (fun space offset noted => ?_)
    fun space offset slot' young => ?_
  · rw [regions]
    cases noted with
    | recorded valid member => exact .recorded valid member
    | fresh recent found inside =>
        refine .fresh ?_ (kept_of_reserves reserves consistent found).1 inside
        have listed := List.mem_cons_of_mem slot.start recent
        rwa [← reserves.recent] at listed
  · rcases of_slot_reserves reserves consistent apart regions slot' with former | zero
    · exact Or.inr former
    · rw [zero] at young
      cases young

end Reserves

end World

end MovingHeap
