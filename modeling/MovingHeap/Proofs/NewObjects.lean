import MovingHeap.Proofs.Unnoticed

/-! New objects, from the moment their memory is handed out until a root refers to them.
Until then nothing leads to them, so that their words can be written without the mutator's noticing
anything.
-/

namespace MovingHeap

variable {σ δ : Type}

namespace World

variable {contract : Contract σ} {world : World σ δ} {object : Address} {words : Nat}

/-- A heap on which no collection runs is idle. -/
theorem runs_ensureIdle (idle : world.heap.phase = .idle) {ended : Unit → World σ δ → Prop}
    {stopped : Violation → World σ δ → Prop}
    : Runs ensureIdle world ended stopped ↔ ended () world := by
  simp only [ensureIdle, runs_bind, runs_heapNow, runs_ite, idle, ne_eq, not_true_eq_false,
    if_false, runs_pure]

-----------------------------------------------------------------------------------------
-- Moving objects
-----------------------------------------------------------------------------------------

/-- The words from an address on were handed out last and belong to no object. -/
structure Blank (contract : Contract σ) (world : World σ δ) (object : Address) (words : Nat)
    : Prop where
  valid : object.Decodes
  birth : object.space = .birth
  unclaimed : world.Unclaimed contract object.offset
  fits : object.offset + words ≤ world.heap.regions.birth.cursor

/-- Handing out words that fit goes unnoticed, and they are blank. -/
theorem Serving.reserved (serving : world.Serving contract) {words stride : Nat}
    (fits : world.heap.regions.birth.fits (words + (stride - 1)))
    : (world.reserved words stride).Serving contract
      ∧ world.Unnoticed contract.layout (world.reserved words stride)
      ∧ (world.reserved words stride).Blank contract
          (world.heap.regions.birth.bump
            ((world.heap.regions.birth.padding? stride).getD 0)).next words := by
  have steady : (world.reserved words stride).heap.Steady :=
    (lasts_reserved fits).steady serving.idle serving.steady
  have room := BirthRegion.margin_of_fits fits
  have inside := serving.regular.birthInside
  have small := serving.regular.birthSmall
  have bound : (world.heap.regions.birth.bump
      ((world.heap.regions.birth.padding? stride).getD 0)).cursor ≤ maxOffsetWords := by
    simp only [BirthRegion.bump]
    omega
  have preserves : Preserves contract [] world (world.reserved words stride).heap.regions := by
    refine preserves_birth serving.regular.apart ?_ fun _ _ _ _ _ _ => rfl
    simp only [BirthRegion.bump]
    omega
  refine ⟨⟨serving.toSound.reserved words stride steady, steady, serving.idle, serving.known⟩,
    .of_preserves serving.wellFormed serving.known preserves ⟨rfl, rfl, rfl, rfl, rfl⟩,
    Address.decodes_pack _ bound, Address.space_pack _ bound, ?_, ?_⟩
  · have unclaimed := serving.toSound.unclaimed_reserved words stride
    rwa [BirthRegion.next, Address.offset_pack _ bound]
  · rw [BirthRegion.next, Address.offset_pack _ bound]
    exact Nat.le_refl _

/-- Memory is handed out unnoticed, after a collection perhaps, and is blank. -/
theorem Serving.reserve (serving : world.Serving contract) (addressable : world.Addressable)
    {host : Host σ δ} (faithful : host.Faithful contract) (size stride : Nat)
    : Runs (World.reserve host size stride) world
        (fun object final =>
          final.Serving contract
          ∧ world.Unnoticed contract.layout final
          ∧ final.Blank contract object (max (wordsFor size) minObjectWords))
        fun _ _ => True := by
  refine runs_reserve (fun _ => trivial) serving.reserved fun wantsFull reason small => ?_
  refine (serving.serves_collectFor serving.known addressable faithful _ wantsFull reason).mono
    (fun _ middle reached => ?_) fun _ _ _ => trivial
  obtain ⟨serving', unnoticed, collects⟩ := reached
  obtain ⟨later, further, blank⟩ :=
    serving'.reserved (fits_of_collects collects serving.regular small)
  exact ⟨later, unnoticed.trans further, blank⟩

section Blank

variable (blank : world.Blank contract object words) (serving : world.Serving contract)
include blank serving

/-- The words lie in the birth region, where addresses can tell them. -/
theorem Blank.place {index : Nat} (inside : index < words)
    : (object.add index).space = .birth
      ∧ (object.add index).offset = object.offset + index := by
  have fits := blank.fits
  have slack := serving.regular.slack
  have within := serving.regular.birthInside
  have small := serving.regular.birthSmall
  have bound : object.offset + index ≤ maxOffsetWords := by omega
  rw [Address.add_eq_pack blank.valid bound, Address.space_pack _ bound,
    Address.offset_pack _ bound]
  exact ⟨blank.birth, rfl⟩

/-- Nothing that is met refers to the words. -/
theorem Blank.not_met (met : world.Met contract [] object.toValue) : False := by
  have below := blank.unclaimed.below object blank.valid met blank.birth
  have isObject :=
    (serving.wellFormed.coherent.object object blank.valid met (by simp [blank.birth])).2.1
  have large := contract.layout.two_le_size isObject
  omega

/-- A word that is written there is seen there, and nothing else is noticed. -/
theorem Blank.store {index : Nat} (inside : index < words) (word : Word)
    : Runs (World.store (object.add index) word) world
        (fun _ final =>
          final.Serving contract
          ∧ world.Unnoticed contract.layout final
          ∧ final.Blank contract object words
          ∧ world.SameOutside final
          ∧ ∀ other,
              final.heap.regions.field object other
              = if other = index then word else world.heap.regions.field object other)
        fun _ _ => True := by
  obtain ⟨space, offset⟩ := blank.place serving inside
  have above : object.offset ≤ (object.add index).offset := by omega
  refine runs_store (fun _ => trivial) fun regions done => ?_
  have stores := blank.unclaimed.storable above space done serving.toSound
  have but := serving.toSound.stored done stores
  have sound : (world.withRegions regions).Sound contract := but.sound fun isSlot =>
    absurd space (ne_birth_of_slot but.regular.apart isSlot)
  have same : world.SameOutside (world.withRegions regions) := ⟨rfl, rfl, rfl, rfl, rfl⟩
  have changed := setWord?_birth done space
  have preserves : Preserves contract [] world regions := by
    rw [changed]
    exact preserves_birth serving.regular.apart (Nat.le_refl _) (blank.unclaimed.words above)
  have known : ∀ begin occupant, regions.fixed.occupant? begin = some occupant →
      occupant.forgotten = false := by
    rw [changed]
    exact serving.known
  refine ⟨⟨sound, steady_stored serving.steady done, serving.idle, known⟩,
    .of_preserves serving.wellFormed serving.known preserves same,
    ⟨blank.valid, blank.birth, blank.unclaimed.stored above space done serving.toSound, ?_⟩, same,
    fun other => ?_⟩
  · have cursor : regions.birth.cursor = world.heap.regions.birth.cursor :=
      (Regions.Evolves.setWord? done).birthCursor
    exact blank.fits.trans (Nat.le_of_eq cursor.symm)
  · rw [Regions.field, Regions.cell_setWord? done, space, offset, blank.birth]
    simp [Regions.field, blank.birth]

/-- A reference to the words is well-formed once they are an object whose slots hold what is met. -/
theorem Blank.wellFormed
    (isObject : contract.layout.IsObject (world.heap.regions.field object))
    (size : contract.layout.size (world.heap.regions.field object) ≤ words)
    (slots
      : ∀ index,
          contract.layout.IsSlot (world.heap.regions.field object) index →
          (Value.mk (world.heap.regions.field object index)).address? = none
          ∨ world.Met contract [] ⟨world.heap.regions.field object index⟩)
    : world.WellFormed contract [object.toValue] :=
  serving.wellFormed.fresh serving.regular.apart blank.valid blank.birth isObject
    ((Nat.add_le_add_left size _).trans blank.fits) blank.unclaimed.below slots
    fun _ => clears_eq_false serving.known _

end Blank

-----------------------------------------------------------------------------------------
-- Fixed objects
-----------------------------------------------------------------------------------------

/-- A reference to a live fixed object is well-formed if what its words hold is. -/
theorem WellFormed.lodged {extra : List Value} (wellFormed : world.WellFormed contract extra)
    (apart : world.heap.regions.Apart) (valid : object.Decodes) (fixed : object.space = .fixed)
    (live : (world.heap.regions.fixed.containing? object.offset).isSome)
    (payload
      : ∀ begin occupant,
          world.heap.regions.fixed.containing? object.offset = some begin →
          world.heap.regions.fixed.occupant? begin = some occupant →
          ∀ index < occupant.words,
            (Value.mk (world.heap.regions.cell .fixed (begin + index))).address? = none)
    : world.WellFormed contract (object.toValue :: extra) := by
  obtain ⟨list, tiles, listed⟩ := wellFormed.tiled
  have closed
      : world.heap.regions.Closed contract.layout (world.Joins contract extra object) := by
    refine ⟨fun addr decodes among moves index slot => ?_,
      fun addr decodes among _ begin occupant covers found known index inside => ?_⟩
    · rcases among.met_or_eq valid decodes with met | rfl
      · exact Or.inr (Or.inl (.field decodes met moves slot))
      · exact absurd fixed (apart.ne_fixed moves)
    · rcases among.met_or_eq valid decodes with met | rfl
      · exact Or.inr (Or.inl (.payload decodes met rfl ‹_› covers found known inside))
      · exact Or.inl (payload begin occupant covers found index inside)
  have moving : ∀ addr : Address, addr.Decodes → addr.space ≠ .fixed →
      world.Joins contract extra object addr.toValue →
      world.Met contract extra addr.toValue := by
    intro addr decodes notFixed among
    rcases among.met_or_eq valid decodes with met | rfl
    · exact met
    · exact absurd fixed notFixed
  have coherent
      : world.heap.regions.Coherent contract.layout (world.Joins contract extra object) := by
    refine ⟨fun addr decodes among notFixed => ?_,
      fun first second left right among among' space notFixed differs => ?_,
      fun addr decodes among _ => ?_⟩
    · exact wellFormed.coherent.object addr decodes (moving addr decodes notFixed among) notFixed
    · exact wellFormed.coherent.apart first second left right (moving first left notFixed among)
        (moving second right (space ▸ notFixed) among') space notFixed differs
    · rcases among.met_or_eq valid decodes with met | rfl
      · exact wellFormed.coherent.live addr decodes met ‹_›
      · exact live
  refine .of_closed wellFormed.upholds closed (fun _ => Starts.joins) coherent
    (fun addr decodes among notFixed =>
      wellFormed.heads addr decodes (moving addr decodes notFixed among) notFixed)
    ⟨list, tiles, fun addr decodes among old => ?_⟩ wellFormed.recorded
  have notFixed : addr.space ≠ .fixed := by
    rw [old]
    exact apart.old_ne_fixed
  exact listed addr decodes (moving addr decodes notFixed among) old

/-- A fixed object that nothing refers to yet: it has so many words, and all of them are zero. -/
structure Lodging (contract : Contract σ) (world : World σ δ) (object : Address) (words : Nat)
    : Prop where
  valid : object.Decodes
  fixed : object.space = .fixed
  unmet : ¬ world.Met contract [] object.toValue
  fields
    : ∀ index, world.heap.regions.IsField contract.layout object index ↔ index < words
  zero : ∀ index < words, world.heap.regions.field object index = 0
  wellFormed : world.WellFormed contract [object.toValue]

section Reserves

variable {slot : FixedSlot δ} {next : FixedSpace δ} {final : World σ δ}
  (reserves : world.heap.regions.fixed.Reserves slot next)
  (regions : final.heap.regions = { world.heap.regions with fixed := next })
include reserves regions

/-- The slot that was reserved holds the new object. -/
theorem occupant?_reserved (holds : slot.occupant = some { words, destructor := none })
    : final.heap.regions.fixed.occupant? slot.start = some { words, destructor := none } := by
  rw [regions]
  exact reserves.occupant?_start.trans holds

variable (serving : world.Serving contract)
include serving

/-- Nothing that is met refers to the new object, as nothing that was met referred to a vacant slot. -/
theorem not_met_reserved (same : world.SameOutside final) (bound : slot.start ≤ maxOffsetWords)
    (covers : final.heap.regions.fixed.containing? slot.start = some slot.start)
    : ¬ final.Met contract [] (Address.pack .fixed slot.start).toValue := by
  intro met
  have consistent := serving.regular.consistent
  have valid := Address.decodes_pack .fixed bound
  rcases met_reserves reserves consistent serving.regular.apart regions same serving.wellFormed
    met with plain | former
  · rw [Value.address?_toValue valid] at plain
    cases plain
  · obtain ⟨begin, covered⟩ := Option.isSome_iff_exists.mp
      (serving.wellFormed.coherent.live _ valid former (Address.space_pack _ bound))
    rw [Address.offset_pack _ bound] at covered
    have still := reserves.containing?_kept consistent covered
    rw [regions] at covers
    obtain rfl : begin = slot.start := Option.some.inj (still.symm.trans covers)
    obtain ⟨occupant, gone⟩ := consistent.exists_occupant covered
    rw [reserves.vacant] at gone
    cases gone

variable (holds : slot.occupant = some { words, destructor := none })
include holds

/-- No object counts as forgotten, and neither does the new one. -/
theorem known_reserved {begin : Nat} {occupant : Occupant δ}
    (found : final.heap.regions.fixed.occupant? begin = some occupant)
    : occupant.forgotten = false := by
  by_cases fresh : begin = slot.start
  · rw [fresh, occupant?_reserved reserves regions holds, Option.some.injEq] at found
    rw [← found]
  · refine serving.known begin occupant ?_
    rw [regions] at found
    rwa [← reserves.occupant?_ne serving.regular.consistent fresh]

/-- The words of the new object are zero. -/
theorem zero_reserved {index : Nat} (inside : index < words)
    : final.heap.regions.cell .fixed (slot.start + index) = 0 := by
  rcases kept_or_new reserves serving.regular.consistent
    (reserves.occupant?_start.trans holds) with former | ⟨-, zeros⟩
  · rw [reserves.vacant] at former
    cases former
  · rw [regions]
    exact zeros index inside

/-- What a slot was reserved for is a fixed object that nothing refers to yet. -/
theorem lodging_reserved (positive : 0 < words) (same : world.SameOutside final)
    (sound : final.Sound contract) (addressable : final.Addressable)
    : final.Lodging contract (.pack .fixed slot.start) words := by
  have found := occupant?_reserved reserves regions holds
  obtain ⟨within, covers⟩ := sound.regular.consistent.payload found
  have here := covers 0 positive
  rw [Nat.add_zero] at here
  have bound : slot.start ≤ maxOffsetWords := by
    rw [Addressable] at addressable
    omega
  have zero : ∀ index < words, final.heap.regions.cell .fixed (slot.start + index) = 0 :=
    fun _ => zero_reserved reserves regions serving holds
  refine ⟨Address.decodes_pack _ bound, Address.space_pack _ bound,
    not_met_reserved reserves regions serving same bound here, fun index => ?_,
    fun index inside => ?_, ?_⟩
  · simp only [Regions.IsField, Address.space_pack _ bound, Address.offset_pack _ bound, here,
      found, if_true, true_and, Option.some.injEq, exists_eq_left']
  · rw [Regions.field, Address.space_pack _ bound, Address.offset_pack _ bound]
    exact zero index inside
  · refine sound.wellFormed.lodged sound.regular.apart (Address.decodes_pack _ bound)
      (Address.space_pack _ bound) ?_ fun begin occupant covered there index inside => ?_
    · rw [Address.offset_pack _ bound, here]
      rfl
    · rw [Address.offset_pack _ bound, here, Option.some.injEq] at covered
      subst covered
      rw [found, Option.some.injEq] at there
      subst there
      rw [zero index inside]
      rfl

end Reserves

/-- A fixed object is allocated unnoticed, and nothing refers to it. -/
theorem Serving.allocateFixed (serving : world.Serving contract) (size : Nat) (executable : Bool)
    : Runs (World.allocateFixed size none executable) world
        (fun object final =>
          final.Addressable →
          final.Serving contract
          ∧ world.Unnoticed contract.layout final
          ∧ final.Lodging contract object (max (wordsFor size) 1))
        fun _ _ => True := by
  have positive : 0 < max (wordsFor size) 1 := by omega
  have apart := serving.regular.apart
  have consistent := serving.regular.consistent
  obtain ⟨slot, start, holds, reserves⟩ :=
    consistent.reserves_allocate positive none executable
  have reaches : ∀ final : World σ δ, world.SameOutside final → final.heap.phase = .idle →
      final.heap.Steady → final.Sound contract → final.Addressable →
      final.heap.regions
        = { world.heap.regions with
            fixed := (world.heap.regions.fixed.allocate (max (wordsFor size) 1) none
              executable).2 } →
      final.Serving contract
      ∧ world.Unnoticed contract.layout final
      ∧ final.Lodging contract
          (.pack .fixed (world.heap.regions.fixed.allocate (max (wordsFor size) 1) none
            executable).1)
          (max (wordsFor size) 1) := by
    intro final same idle steady sound addressable regions
    rw [← start]
    exact ⟨⟨sound, steady, idle, fun _ _ => known_reserved reserves regions serving holds⟩,
      .of_preserves serving.wellFormed serving.known
        (preserves_reserves reserves consistent apart regions) same,
      lodging_reserved reserves regions serving holds positive same sound addressable⟩
  have keeps := Runs.and (serving.toSound.allocateFixed size none executable)
    (lasting_allocateFixed size none executable world)
  unfold World.allocateFixed at keeps ⊢
  rw [runs_bind, runs_ensureIdle serving.idle] at keeps ⊢
  simp only [runs_bind, runs_heapNow, runs_modifyRegions, runs_count, runs_ite, requestFull,
    runs_modifyHeap, runs_pure] at keeps ⊢
  split_ifs at keeps ⊢ <;>
  · obtain ⟨sound, lasts⟩ := keeps
    have steady := lasts.steady serving.idle serving.steady
    exact fun addressable => reaches _ ⟨rfl, rfl, rfl, rfl, rfl⟩ serving.idle steady
      (sound serving.idle steady) addressable rfl

end World

end MovingHeap
