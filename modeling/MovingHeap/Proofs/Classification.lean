import MovingHeap.Mutator.Access
import MovingHeap.Mutator.Queries
import MovingHeap.Proofs.Forwards
import MovingHeap.Proofs.Guarantees
import MovingHeap.Proofs.Steadiness

/-! What a word is classified as, and what can be done with the address it stands for.
Classification, the bounds of a region and the guards of reading and writing test an address each in
their own way: by its space and offset, by its number as a word, and by the nearest slot below it. While
no collection runs they agree on every word.
-/

namespace MovingHeap

variable {σ δ : Type}

-----------------------------------------------------------------------------------------
-- Bounds
-----------------------------------------------------------------------------------------

/-- Addresses compared as words: those from the bottom of a region to before its cursor are the places of
its own space below the cursor.
-/
theorem RegionBounds.contains_ofRegion {space : Space} {cursor : Nat} (capacity : Nat)
    (small : cursor ≤ maxOffsetWords) {addr : Address} (valid : addr.Decodes)
    : (ofRegion space cursor capacity).contains addr
      = (addr.space == space && addr.offset < cursor) := by
  have number : addr.raw.toNat = addr.space.tag.toNat * 2 ^ 60 + addr.offset * 8 := by
    rw [← Address.toNat_pack _ addr.offset_le, Address.pack_space_offset valid]
  have low := Address.toNat_pack space (Nat.zero_le maxOffsetWords)
  have cur := Address.toNat_pack space small
  have inside := addr.offset_le
  simp only [maxOffsetWords] at small inside
  rw [Bool.eq_iff_iff]
  simp only [contains, ofRegion, Bool.and_eq_true, decide_eq_true_eq, beq_iff_eq,
    UInt64.le_iff_toNat_le, UInt64.lt_iff_toNat_lt, number, low, cur]
  generalize addr.space = other
  cases other <;> cases space <;> simp [Space.tag] <;> omega

/-- The bounds of the birth region tell what lies in it. -/
theorem BirthRegion.contains_bounds {region : BirthRegion} (small : region.cursor ≤ maxOffsetWords)
    {addr : Address} (valid : addr.Decodes)
    : region.bounds.contains addr = region.contains addr :=
  RegionBounds.contains_ofRegion region.capacity small valid

/-- The bounds of a semispace tell what lies in it. -/
theorem Semispace.contains_bounds {region : Semispace} (small : region.cursor ≤ maxOffsetWords)
    {addr : Address} (valid : addr.Decodes)
    : region.bounds.contains addr = region.contains addr :=
  RegionBounds.contains_ofRegion region.capacity small valid

namespace Regions

-----------------------------------------------------------------------------------------
-- What an address lies in
-----------------------------------------------------------------------------------------

/-- The address lies in a live slot of the fixed space, and in no other. -/
def Houses (regions : Regions δ) (addr : Address) : Prop :=
  addr.space = .fixed
  ∧ ∃! slot,
      slot ∈ regions.fixed.slots
      ∧ slot.isLive
      ∧ slot.start ≤ addr.offset
      ∧ addr.offset < slot.stop

/-- The nearest slot below an offset covers it if any live slot does, and then only that one does. -/
theorem isSome_containing?_iff {space : FixedSpace δ} (consistent : space.Consistent) {offset : Nat}
    : (space.containing? offset).isSome
      ↔ ∃! slot,
          slot ∈ space.slots ∧ slot.isLive ∧ slot.start ≤ offset ∧ offset < slot.stop := by
  constructor
  · intro covered
    obtain ⟨start, found⟩ := Option.isSome_iff_exists.mp covered
    obtain ⟨slot, member, rfl, live, above, below⟩ := consistent.containing?_eq_some_iff.mp found
    refine ⟨slot, ⟨member, live, above, below⟩, ?_⟩
    rintro other ⟨member', -, above', below'⟩
    rcases consistent.stacked.eq_or_apart member' member with same | apart
    · exact same
    · omega
  · rintro ⟨slot, ⟨member, live, above, below⟩, -⟩
    exact Option.isSome_iff_exists.mpr
      ⟨slot.start, consistent.containing?_eq_some_iff.mpr ⟨slot, member, rfl, live, above, below⟩⟩

/-- The address lies in an allocated part of memory. -/
def Allocated (regions : Regions δ) (addr : Address) : Prop :=
  regions.birth.contains addr
  ∨ regions.old.contains addr
  ∨ addr.space = .fixed ∧ (regions.fixed.containing? addr.offset).isSome

section Resting

variable {regions : Regions δ} (resting : regions.Resting) {addr : Address}

include resting

/-- While no collection runs, only the current semispace is there. -/
theorem Resting.oldSpace?_eq_some_iff {space : Space} {region : Semispace}
    : regions.oldSpace? space = some region ↔ space = regions.old.space ∧ region = regions.old := by
  unfold oldSpace?
  split_ifs with here
  · simp [here, eq_comm]
  · simp [resting.target, Ne.symm here]

/-- Allocated words can be read. -/
theorem Resting.readable (allocated : regions.Allocated addr)
    : regions.Readable addr.space addr.offset := by
  have slack := resting.slack
  have birthInside := resting.birthInside
  have oldInside := resting.oldInside
  simp only [BirthRegion.capacity, Semispace.capacity] at birthInside oldInside
  rcases allocated with young | old | ⟨space, covered⟩
  · simp only [BirthRegion.contains, Bool.and_eq_true, beq_iff_eq, decide_eq_true_eq] at young
    rw [young.1]
    exact show addr.offset < regions.birth.words.size by omega
  · simp only [Semispace.contains, Bool.and_eq_true, beq_iff_eq, decide_eq_true_eq] at old
    have found : ∃ region, regions.oldSpace? addr.space = some region
        ∧ addr.offset < region.cursor ∧ addr.offset < region.capacity :=
      ⟨regions.old, resting.oldSpace?_eq_some_iff.mpr ⟨old.1, rfl⟩, old.2,
        Nat.lt_of_lt_of_le old.2 oldInside⟩
    have isOld := resting.apart.old
    rw [← old.1] at isOld
    unfold Readable
    cases here : addr.space with
    | birth | fixed =>
        rw [here] at isOld
        cases isOld
    | oldA | oldB => simpa only [here] using found
  · obtain ⟨slot, ⟨member, -, -, below⟩, -⟩ := (isSome_containing?_iff resting.consistent).mp covered
    rw [space]
    exact Nat.lt_of_lt_of_le below (resting.consistent.stacked.stop_le member)

/-- Allocated words can be written. -/
theorem Resting.writable (allocated : regions.Allocated addr)
    : regions.Writable addr.space addr.offset := by
  have readable := resting.readable allocated
  have slack := resting.slack
  unfold Writable
  cases space : addr.space with
  | birth =>
      rcases allocated with young | old | ⟨other, -⟩
      · simp only [BirthRegion.contains, Bool.and_eq_true, beq_iff_eq, decide_eq_true_eq] at young
        exact show addr.offset < regions.birth.bufferStart by omega
      · simp only [Semispace.contains, Bool.and_eq_true, beq_iff_eq] at old
        have isOld := resting.apart.old
        rw [← old.1, space] at isOld
        cases isOld
      · rw [space] at other
        cases other
  | oldA | oldB | fixed => simpa only [space] using readable

/-- Of the address of an old semispace, what can be read is what is allocated in the current one. -/
theorem Resting.isSome_word? (old : addr.space.isOld)
    : (regions.word? addr).isSome ↔ regions.old.contains addr := by
  have unfolded : regions.word? addr
      = (regions.oldSpace? addr.space).bind (·.word? addr.offset) := by
    unfold word?
    cases space : addr.space <;> first | rfl | (rw [space] at old; cases old)
  constructor
  · intro found
    obtain ⟨word, read⟩ := Option.isSome_iff_exists.mp found
    obtain ⟨region, there, within⟩ := Option.bind_eq_some_iff.mp (unfolded ▸ read)
    obtain ⟨space, rfl⟩ := resting.oldSpace?_eq_some_iff.mp there
    unfold Semispace.word? at within
    split_ifs at within with below
    simp [Semispace.contains, space, below]
  · intro allocated
    rw [word?_eq (resting.readable (.inr (.inl allocated))), Option.isSome_some]

/-- Of the address of an old semispace, what can be written is what is allocated in the current one. -/
theorem Resting.isSome_setWord? (old : addr.space.isOld) (word : Word)
    : (regions.setWord? addr word).isSome ↔ regions.old.contains addr := by
  have unfolded : regions.setWord? addr word
      = (regions.oldSpace? addr.space).bind fun region =>
          if addr.offset < region.cursor ∧ addr.offset < region.capacity then
            some (regions.setOldSpace (region.setWord addr.offset word))
          else none := by
    unfold setWord?
    cases space : addr.space <;> first | rfl | (rw [space] at old; cases old)
  constructor
  · intro found
    obtain ⟨next, written⟩ := Option.isSome_iff_exists.mp found
    obtain ⟨region, there, within⟩ := Option.bind_eq_some_iff.mp (unfolded ▸ written)
    obtain ⟨space, rfl⟩ := resting.oldSpace?_eq_some_iff.mp there
    split_ifs at within with below
    simp [Semispace.contains, space, below.1]
  · intro allocated
    obtain ⟨next, written⟩ := exists_setWord? word (resting.writable (.inr (.inl allocated)))
    rw [written, Option.isSome_some]

-----------------------------------------------------------------------------------------
-- Classification
-----------------------------------------------------------------------------------------

/-- An address is classified by the one region it is allocated in, and is foreign if there is none. -/
theorem Resting.classifyAddress_cases (addr : Address)
    : (regions.classifyAddress addr = .birth addr
        ∧ regions.birth.contains addr ∧ ¬ regions.old.contains addr ∧ ¬ regions.Houses addr)
      ∨ (regions.classifyAddress addr = .old addr
        ∧ ¬ regions.birth.contains addr ∧ regions.old.contains addr ∧ ¬ regions.Houses addr)
      ∨ (regions.classifyAddress addr = .fixed addr
        ∧ ¬ regions.birth.contains addr ∧ ¬ regions.old.contains addr ∧ regions.Houses addr)
      ∨ (regions.classifyAddress addr = .foreign addr.raw
        ∧ ¬ regions.birth.contains addr ∧ ¬ regions.old.contains addr ∧ ¬ regions.Houses addr) := by
  have isOld := resting.apart.old
  have covers : (regions.fixed.containing? addr.offset).isSome ↔ _ :=
    isSome_containing?_iff resting.consistent
  have elsewhere : ∀ {space : Space}, addr.space = space → space.isOld = false →
      ¬ regions.old.contains addr := by
    rintro space rfl young old
    simp only [Semispace.contains, Bool.and_eq_true, beq_iff_eq] at old
    rw [← old.1, young] at isOld
    cases isOld
  unfold classifyAddress Houses
  rw [← covers]
  cases space : addr.space with
  | birth =>
      have later := elsewhere space rfl
      cases young : regions.birth.contains addr <;> simp [later]
  | fixed =>
      have later := elsewhere space rfl
      have older : ¬ regions.birth.contains addr := by simp [BirthRegion.contains, space]
      cases covered : (regions.fixed.containing? addr.offset).isSome <;> simp [later, older]
  | oldA | oldB =>
      have older : ¬ regions.birth.contains addr := by simp [BirthRegion.contains, space]
      cases old : regions.old.contains addr <;> simp [older]

end Resting

/-- What was written is read. -/
theorem word?_of_setWord? {regions next : Regions δ} {addr : Address} {word : Word}
    (readable : regions.Readable addr.space addr.offset)
    (done : regions.setWord? addr word = some next)
    : next.word? addr = some word := by
  have still : next.Readable addr.space addr.offset := by
    unfold setWord? at done
    unfold Readable at readable ⊢
    cases space : addr.space with
    | birth | fixed =>
        simp only [space] at done readable ⊢
        split_ifs at done
        cases done
        exact readable
    | oldA | oldB =>
        simp only [space] at done readable ⊢
        obtain ⟨region, found, write⟩ := Option.bind_eq_some_iff.mp done
        split_ifs at write with inside
        cases write
        have named := space_of_oldSpace? found
        refine ⟨region.setWord addr.offset word, ?_, inside.1, inside.2⟩
        rw [oldSpace?_setOldSpace (by rwa [Semispace.setWord, named]),
          if_pos (by rw [Semispace.setWord, named])]
  rw [word?_eq still, cell_setWord? done, if_pos ⟨rfl, rfl⟩]

end Regions

namespace World

-----------------------------------------------------------------------------------------
-- Access
-----------------------------------------------------------------------------------------

/-- Loading ends where the word can be read, and nowhere else. -/
theorem ends_load {world : World σ δ} {addr : Address} {ended : Word → World σ δ → Prop}
    : Ends (World.load addr) world ended
      ↔ ∃ word, world.heap.regions.word? addr = some word ∧ ended word world := by
  simp only [Ends, World.load, runs_bind, runs_heapNow, runs_require]
  cases world.heap.regions.word? addr <;> simp

/-- Storing ends where the word can be written, and nowhere else. -/
theorem ends_store {world : World σ δ} {addr : Address} {word : Word}
    {ended : Unit → World σ δ → Prop}
    : Ends (World.store addr word) world ended
      ↔ ∃ regions, world.heap.regions.setWord? addr word = some regions
          ∧ ended () { world with heap := { world.heap with regions } } := by
  simp only [Ends, World.store, runs_bind, runs_heapNow, runs_require, runs_modifyRegions]
  cases world.heap.regions.setWord? addr word <;> simp

-----------------------------------------------------------------------------------------
-- Agreement
-----------------------------------------------------------------------------------------

/-- What is known of a word that stands for an address. The regions, their bounds and the live slots of
the fixed space tell its class, no two of them at once, and what is in a class can be loaded and stored.
-/
structure Classified (world : World σ δ) (word : Word) (addr : Address) : Prop where
  birth
    : world.heap.classify ⟨word⟩ = .birth addr ↔ world.heap.birthBounds.contains addr
  old
    : world.heap.classify ⟨word⟩ = .old addr ↔ world.heap.oldBounds.contains addr
  fixed
    : world.heap.classify ⟨word⟩ = .fixed addr ↔ world.heap.regions.Houses addr
  kinds
    : world.heap.classify ⟨word⟩ ∈ [.birth addr, .old addr, .fixed addr, .foreign word]
  regions
    : world.heap.regions.birth.contains addr = world.heap.birthBounds.contains addr
      ∧ world.heap.regions.old.contains addr = world.heap.oldBounds.contains addr
  apart
    : ¬ (world.heap.birthBounds.contains addr ∧ world.heap.oldBounds.contains addr)
      ∧ ¬ (world.heap.birthBounds.contains addr ∧ world.heap.regions.Houses addr)
      ∧ ¬ (world.heap.oldBounds.contains addr ∧ world.heap.regions.Houses addr)
  accessible
    : world.heap.classify ⟨word⟩ ≠ .foreign word →
        Ends (World.load addr) world (fun _ final => final = world)
        ∧ ∀ stored,
            Ends (do World.store addr stored; World.load addr) world fun loaded _ => loaded = stored
  semispaces
    : addr.space.isOld →
        (Ends (World.load addr) world (fun _ _ => True) ↔ world.heap.classify ⟨word⟩ = .old addr)
        ∧ ∀ stored,
            Ends (World.store addr stored) world (fun _ _ => True)
            ↔ world.heap.classify ⟨word⟩ = .old addr

end World

namespace Record

/-- The record was promoted, and moved by the full collection that followed; then words for another one
and a fixed object of two words were handed out.
-/
def mixedWorld : World HostState Destructor :=
  ((youngWorld.after ((Operation.collectMinor).run host)).after
    ((Operation.allocate 16).run host)).after
    ((Operation.allocateFixed 16 (some .log) false).run host)

theorem reachable_mixed : mixedWorld.Reachable :=
  .operate host _ (.operate host _ (.operate host _ conforming_young.reachable))

end Record

end MovingHeap
