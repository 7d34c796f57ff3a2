import MovingHeap.Proofs.Unnoticed

/-! Values that are stored in the fields of objects.
A field may hold whatever was met or is no reference, with one exception: the first word of a moving
object is never zero. Two heaps that look alike still do if paired values are stored in paired fields.
-/

namespace MovingHeap

variable {σ τ δ ε : Type}

/-- Which fixed object covers an offset is told by the slots. -/
theorem FixedSpace.containing?_congr {first second : FixedSpace δ}
    (slots : second.slots = first.slots) (offset : Nat)
    : second.containing? offset = first.containing? offset := by
  rw [containing?, containing?, slots]

/-- Which fixed object begins at an offset is told by the slots. -/
theorem FixedSpace.occupant?_congr {first second : FixedSpace δ}
    (slots : second.slots = first.slots) (start : Nat)
    : second.occupant? start = first.occupant? start := by
  rw [occupant?, occupant?, slot?, slot?, slots]

namespace World

/-- A value may be stored in a field of an object that was met: it was met itself or is no reference,
and it does not make the first word of a moving object zero.
-/
structure Fits (contract : Contract σ) (world : World σ δ) (object : Address) (index : Nat)
    (value : Value)
    : Prop where
  valid : object.Decodes
  met : world.Met contract [] object.toValue
  isField : world.heap.regions.IsField contract.layout object index
  given : value.address? = none ∨ world.Met contract [] value
  head : object.space ≠ .fixed → index = 0 → value ≠ .null

/-- A word of an object is where the object is, so many words behind its beginning. -/
theorem Serving.place {contract : Contract σ} {world : World σ δ}
    (serving : world.Serving contract) (addressable : world.Addressable) {object : Address}
    (valid : object.Decodes) (met : world.Met contract [] object.toValue) {index : Nat}
    (inside
      : world.heap.regions.IsField contract.layout object index
        ∨ world.heap.regions.IsDatum contract.layout object index)
    : (object.add index).Decodes
      ∧ (object.add index).space = object.space
      ∧ (object.add index).offset = object.offset + index := by
  have bound : object.offset + index ≤ maxOffsetWords := by
    by_cases fixed : object.space = .fixed
    · rcases inside with isField | datum
      · rw [Regions.IsField, if_pos fixed] at isField
        obtain ⟨-, occupant, found, inside⟩ := isField
        have within := (serving.regular.consistent.payload found).1
        rw [Addressable] at addressable
        omega
      · exact absurd fixed datum.1
    · obtain ⟨-, isObject, below⟩ := serving.wellFormed.coherent.object object valid met fixed
      have within : index < contract.layout.size (world.heap.regions.field object) := by
        rcases inside with isField | datum
        · rw [Regions.IsField, if_neg fixed] at isField
          exact contract.layout.slot_lt isObject isField
        · exact datum.2.1
      have slack := serving.regular.slack
      have birthInside := serving.regular.birthInside
      have birthSmall := serving.regular.birthSmall
      have oldInside := serving.regular.oldInside
      have oldSmall := serving.regular.oldSmall
      rw [Regions.limit] at below
      split_ifs at below <;> omega
  rw [Address.add_eq_pack valid bound]
  exact ⟨Address.decodes_pack _ bound, Address.space_pack _ bound, Address.offset_pack _ bound⟩

section Fits

variable {contract : Contract σ} {world : World σ δ} {object : Address} {index : Nat}
  {value : Value} (fits : world.Fits contract object index value)
  (serving : world.Serving contract) (addressable : world.Addressable)

include fits serving addressable

/-- The field is where the object is, so many words behind its beginning. -/
theorem Fits.place
    : (object.add index).Decodes
      ∧ (object.add index).space = object.space
      ∧ (object.add index).offset = object.offset + index :=
  serving.place addressable fits.valid fits.met (Or.inl fits.isField)

variable {regions : Regions δ}
  (done : world.heap.regions.setWord? (object.add index) value.raw = some regions)

include done

/-- The cell of the field holds the value, and the others hold what they held. -/
theorem Fits.cell (space : Space) (offset : Nat)
    : regions.cell space offset
      = if space = object.space ∧ offset = object.offset + index then value.raw
        else world.heap.regions.cell space offset := by
  obtain ⟨-, here, there⟩ := fits.place serving addressable
  rw [Regions.cell_setWord? done, here, there]

omit fits serving addressable in
/-- The fixed space has the same slots. -/
theorem slots_stored : regions.fixed.slots = world.heap.regions.fixed.slots :=
  (Collector.frame_setWord? done).2.1

/-- The words of a fixed object are as before but for the field. -/
theorem Fits.payload {begin : Nat} {occupant : Occupant δ}
    (found : world.heap.regions.fixed.occupant? begin = some occupant) {position : Nat}
    (inside : position < occupant.words)
    : regions.cell .fixed (begin + position)
      = if object.space = .fixed ∧ begin = object.offset ∧ position = index then value.raw
        else world.heap.regions.cell .fixed (begin + position) := by
  rw [fits.cell serving addressable done]
  have covers := (serving.regular.consistent.payload found).2 position inside
  have isField := fits.isField
  by_cases fixed : object.space = .fixed
  · rw [Regions.IsField, if_pos fixed] at isField
    obtain ⟨-, resident, held, within⟩ := isField
    have covers' := (serving.regular.consistent.payload held).2 index within
    have same : begin + position = object.offset + index
        ↔ begin = object.offset ∧ position = index := by
      constructor
      · intro here
        rw [here, covers', Option.some.injEq] at covers
        omega
      · rintro ⟨rfl, rfl⟩
        rfl
    simp only [fixed, true_and, same]
  · rw [if_neg fun here => fixed here.1.symm, if_neg fun here => fixed here.1]

/-- Words of a moving object that are the field's object or have no word in common with it make an
object of the same layout.
-/
theorem Fits.laidOut {space : Space} {start : Nat}
    (isObject : contract.layout.IsObject (world.heap.regions.wordsAt space start))
    (apart
      : object.space = space →
        object.space ≠ .fixed →
        start = object.offset
        ∨ start + contract.layout.size (world.heap.regions.wordsAt space start) ≤ object.offset
        ∨ object.offset + contract.layout.size (world.heap.regions.field object) ≤ start)
    (moves : space ≠ .fixed)
    : contract.layout.IsObject (regions.wordsAt space start)
      ∧ contract.layout.size (regions.wordsAt space start)
        = contract.layout.size (world.heap.regions.wordsAt space start)
      ∧ ∀ position,
          contract.layout.IsSlot (regions.wordsAt space start) position
          ↔ contract.layout.IsSlot (world.heap.regions.wordsAt space start) position := by
  have large := contract.layout.two_le_size isObject
  have first := contract.layout.first_ne_zero isObject
  have cell := fits.cell serving addressable done
  -- a word is changed only if it is the field
  by_cases here : object.space = space ∧ start = object.offset
  · obtain ⟨rfl, rfl⟩ := here
    have isField := fits.isField
    rw [Regions.IsField, if_neg moves] at isField
    refine contract.layout.agree isObject (fun position inside plain => ?_) ?_
    · rw [Regions.wordsAt, cell, if_neg]
      · rfl
      · rintro ⟨-, same⟩
        obtain rfl : position = index := by omega
        exact plain isField
    · rw [Regions.wordsAt, cell]
      split_ifs with same
      · exact fun zero => fits.head moves (by omega) (congrArg Value.mk zero)
      · exact first
  · have kept : ∀ position < contract.layout.size (world.heap.regions.wordsAt space start),
        regions.wordsAt space start position
          = world.heap.regions.wordsAt space start position := by
      intro position inside
      rw [Regions.wordsAt, cell, if_neg]
      · rfl
      · rintro ⟨rfl, same⟩
        have isField := fits.isField
        rw [Regions.IsField, if_neg moves] at isField
        have within := contract.layout.slot_lt
          (serving.wellFormed.coherent.object object fits.valid fits.met moves).2.1 isField
        rcases apart rfl moves with rfl | below | above
        · exact here ⟨rfl, rfl⟩
        · omega
        · omega
    refine contract.layout.agree isObject (fun position inside _ => kept position inside) ?_
    rw [kept 0 (by omega)]
    exact first

/-- What was met is laid out as before. -/
theorem Fits.laidOut_met {other : Address} (valid : other.Decodes)
    (met : world.Met contract [] other.toValue) (moves : other.space ≠ .fixed)
    : contract.layout.IsObject (regions.field other)
      ∧ contract.layout.size (regions.field other)
        = contract.layout.size (world.heap.regions.field other)
      ∧ ∀ position,
          contract.layout.IsSlot (regions.field other) position
          ↔ contract.layout.IsSlot (world.heap.regions.field other) position := by
  have coherent := serving.wellFormed.coherent
  refine fits.laidOut serving addressable done (coherent.object other valid met moves).2.1
    (fun space notFixed => ?_) moves
  by_cases same : other = object
  · exact Or.inl (congrArg Address.offset same)
  · exact Or.inr (coherent.apart other object valid fits.valid met fits.met space.symm moves same)

/-- Old objects lie back to back as before. -/
theorem Fits.tiles {starts : List Nat}
    (tiles : world.heap.regions.Tiles contract.layout starts 0 world.heap.regions.old.cursor)
    : regions.old.space = world.heap.regions.old.space
      ∧ regions.old.cursor = world.heap.regions.old.cursor
      ∧ ∀ first ∈ starts,
          contract.layout.IsObject (regions.wordsAt world.heap.regions.old.space first)
          ∧ contract.layout.size (regions.wordsAt world.heap.regions.old.space first)
            = contract.layout.size
                (world.heap.regions.wordsAt world.heap.regions.old.space first)
          ∧ ∀ position,
              contract.layout.IsSlot (regions.wordsAt world.heap.regions.old.space first) position
              ↔ contract.layout.IsSlot
                  (world.heap.regions.wordsAt world.heap.regions.old.space first) position := by
  have evolves := Regions.Evolves.setWord? done
  have minor : world.heap.regions.isFull = false := by
    simp [Regions.isFull, serving.regular.target]
  have target : regions.target = none := by
    have isFull := evolves.isFull.trans minor
    simpa [Regions.isFull] using isFull
  have cursor := (Collector.frame_setWord? done).2.2.2
  simp only [Regions.destination, target, serving.regular.target, Option.getD_none] at cursor
  refine ⟨evolves.oldSpace, cursor, fun first member => ?_⟩
  obtain ⟨list, tiled, listed⟩ := serving.wellFormed.tiled
  obtain rfl := tiles.unique tiled
  refine fits.laidOut serving addressable done (tiles.of_mem member).1 (fun old _ => ?_)
    serving.regular.apart.old_ne_fixed
  have there := listed object fits.valid fits.met old
  by_cases same : first = object.offset
  · exact Or.inl same
  · have apart := tiles.apart member there same
    rw [← old] at apart ⊢
    exact Or.inr apart

/-- What was met is still there as it was, but for the field. -/
theorem Fits.mirrors {other : Address} (valid : other.Decodes)
    (met : world.Met contract [] other.toValue)
    : Regions.Mirrors contract.layout world.heap.regions other regions other
      ∧ ∀ position,
          world.heap.regions.IsField contract.layout other position →
          regions.field other position
          = if other = object ∧ position = index then value.raw
            else world.heap.regions.field other position := by
  have slots := slots_stored done
  by_cases fixed : other.space = .fixed
  · refine ⟨.of_fixed fixed fixed fun position => ?_, fun position isField => ?_⟩
    · simp only [Regions.IsField, if_pos fixed, FixedSpace.containing?_congr slots,
        FixedSpace.occupant?_congr slots]
    · rw [Regions.IsField, if_pos fixed] at isField
      obtain ⟨-, occupant, found, inside⟩ := isField
      have word := fits.payload serving addressable done found inside
      have same : object.space = .fixed ∧ other.offset = object.offset ∧ position = index
          ↔ other = object ∧ position = index := by
        constructor
        · rintro ⟨here, offset, rfl⟩
          exact ⟨valid.ext fits.valid (fixed.trans here.symm) offset, rfl⟩
        · rintro ⟨rfl, rfl⟩
          exact ⟨fixed, rfl, rfl⟩
      simp only [same] at word
      rw [Regions.field, Regions.field, fixed]
      exact word
  · obtain ⟨isObject, size, isSlot⟩ := fits.laidOut_met serving addressable done valid met fixed
    have object' := (serving.wellFormed.coherent.object other valid met fixed).2.1
    -- the words of the object are those it had, but for the field
    have word : ∀ position < contract.layout.size (world.heap.regions.field other),
        regions.field other position
          = if other = object ∧ position = index then value.raw
            else world.heap.regions.field other position := by
      intro position inside
      rw [Regions.field, fits.cell serving addressable done]
      by_cases here : other = object
      · subst here
        simp only [true_and, Nat.add_left_cancel_iff, Regions.field]
      · have elsewhere : ¬ (other.space = object.space
            ∧ other.offset + position = object.offset + index) := by
          rintro ⟨space, same⟩
          have notFixed : object.space ≠ .fixed := by rwa [← space]
          have isField := fits.isField
          rw [Regions.IsField, if_neg notFixed] at isField
          have within := contract.layout.slot_lt
            (serving.wellFormed.coherent.object object fits.valid fits.met notFixed).2.1 isField
          have apart := serving.wellFormed.coherent.apart other object valid fits.valid met fits.met
            space fixed here
          omega
        rw [if_neg elsewhere, if_neg fun same => here same.1]
        rfl
    refine ⟨.of_moving fixed fixed size isSlot fun position inside plain => ?_,
      fun position isField => ?_⟩
    · rw [word position inside, if_neg]
      rintro ⟨rfl, rfl⟩
      have isField := fits.isField
      rw [Regions.IsField, if_neg fixed] at isField
      exact plain isField
    · rw [Regions.IsField, if_neg fixed] at isField
      exact word position (contract.layout.slot_lt object' isField)

/-- As much memory is allocated as before, and objects move out of the same spaces. -/
theorem Fits.limit (space : Space)
    : regions.limit space = world.heap.regions.limit space
      ∧ regions.moves true space = world.heap.regions.moves true space := by
  obtain ⟨starts, tiles, -⟩ := serving.wellFormed.tiled
  obtain ⟨old, cursor, -⟩ := fits.tiles serving addressable done tiles
  have birth : regions.birth.cursor = world.heap.regions.birth.cursor :=
    (Regions.Evolves.setWord? done).birthCursor
  rw [Regions.limit, Regions.limit, Regions.moves, Regions.moves, birth, old, cursor]
  exact ⟨rfl, rfl⟩

/-- What was met, with what is no reference, is closed and well-formed. -/
theorem Fits.coherent
    : regions.Closed contract.layout
        (fun value => value.address? = none ∨ world.Met contract [] value)
      ∧ regions.Coherent contract.layout
          fun value => value.address? = none ∨ world.Met contract [] value := by
  have coherent := serving.wellFormed.coherent
  have slots := slots_stored done
  refine ⟨⟨fun addr valid among moves position slot => ?_,
    fun addr valid among fixed begin occupant covers found known position inside => ?_⟩,
    ⟨fun addr valid among notFixed => ?_,
    fun first second left right among among' space notFixed differs => ?_,
    fun addr valid among fixed => ?_⟩⟩
  · have met := met_of_plain valid among
    rw [(fits.limit serving addressable done addr.space).2] at moves
    have notFixed := serving.regular.apart.ne_fixed moves
    have slot' := ((fits.laidOut_met serving addressable done valid met notFixed).2.2 position).mp slot
    have isField : world.heap.regions.IsField contract.layout addr position := by
      rwa [Regions.IsField, if_neg notFixed]
    rw [(fits.mirrors serving addressable done valid met).2 position isField]
    split_ifs
    · exact fits.given
    · exact Or.inr (coherent.met_slot valid met notFixed slot')
  · have met := met_of_plain valid among
    rw [FixedSpace.containing?_congr slots] at covers
    rw [FixedSpace.occupant?_congr slots] at found
    rw [fits.payload serving addressable done found inside]
    split_ifs
    · exact fits.given
    · exact Or.inr (.payload valid met rfl fixed covers found known inside)
  · have met := met_of_plain valid among
    obtain ⟨moves, -, below⟩ := coherent.object addr valid met notFixed
    obtain ⟨limit, same⟩ := fits.limit serving addressable done addr.space
    obtain ⟨isObject, size, -⟩ := fits.laidOut_met serving addressable done valid met notFixed
    rw [same, size, limit]
    exact ⟨moves, isObject, below⟩
  · have met := met_of_plain left among
    have met' := met_of_plain right among'
    rw [(fits.laidOut_met serving addressable done left met notFixed).2.1,
      (fits.laidOut_met serving addressable done right met' (space ▸ notFixed)).2.1]
    exact coherent.apart first second left right met met' space notFixed differs
  · rw [FixedSpace.containing?_congr slots]
    exact coherent.live addr valid (met_of_plain valid among) fixed

/-- Tracing starts from what was met, the value that was stored included. -/
theorem Fits.starts {held : List Value}
    (given : ∀ other ∈ held, other.address? = none ∨ world.Met contract [] other) {other : Value}
    (start : (world.withRegions regions).Starts contract held other)
    : other.address? = none ∨ world.Met contract [] other := by
  cases start with
  | rooted rooted =>
      refine Or.inr (.start (.rooted ?_))
      cases rooted with
      | root root => exact .root root
      | kept member => exact .kept member
  | extra member => exact given _ member
  | @noted space offset noted =>
      have former : world.heap.regions.Noted space offset := by
        cases noted with
        | recorded valid member =>
            rw [withRegions, remembered_setWord? done] at member
            exact .recorded valid member
        | fresh recent found inside =>
            rw [withRegions, (Collector.frame_setWord? done).1] at recent
            rw [withRegions, FixedSpace.occupant?_congr (slots_stored done)] at found
            exact .fresh recent found inside
      rw [withRegions, fits.cell serving addressable done]
      split_ifs
      · exact fits.given
      · exact Or.inr (.start (.noted former))

/-- A slot is one afterwards if it was one before. -/
theorem Fits.isSlot {space : Space} {offset : Nat}
    : regions.Slot contract.layout space offset
      ↔ world.heap.regions.Slot contract.layout space offset := by
  obtain ⟨list, tiled, -⟩ := serving.wellFormed.tiled
  obtain ⟨old, cursor, alike⟩ := fits.tiles serving addressable done tiled
  have slots := slots_stored done
  have tiled' : regions.Tiles contract.layout list 0 regions.old.cursor := by
    rw [cursor]
    exact tiled.alike old fun first member _ => ⟨(alike first member).1, (alike first member).2.1⟩
  constructor
  · refine fun slot => slot.alike world.heap.regions old.symm cursor.symm
      (fun starts tiles first member => ?_) fun begin occupant found => ?_
    · obtain rfl := tiles.unique tiled'
      obtain ⟨-, size, isSlot⟩ := alike first member
      rw [old]
      exact ⟨(tiled.of_mem member).1, size.symm, fun position => (isSlot position).symm⟩
    · rw [FixedSpace.occupant?_congr slots] at found
      exact ⟨occupant, found, rfl⟩
  · refine fun slot => slot.alike regions old cursor (fun starts tiles first member => ?_)
      fun begin occupant found => ?_
    · obtain rfl := tiles.unique tiled
      exact alike first member
    · rw [← FixedSpace.occupant?_congr slots] at found
      exact ⟨occupant, found, rfl⟩

/-- References stay well-formed. -/
theorem Fits.wellFormed {held : List Value}
    (given : ∀ other ∈ held, other.address? = none ∨ world.Met contract [] other)
    : (world.withRegions regions).WellFormed contract held := by
  obtain ⟨closed, coherent⟩ := fits.coherent serving addressable done
  obtain ⟨list, tiled, listed⟩ := serving.wellFormed.tiled
  obtain ⟨old, cursor, alike⟩ := fits.tiles serving addressable done tiled
  have known : ∀ begin occupant, regions.fixed.occupant? begin = some occupant →
      occupant.forgotten = false := by
    intro begin occupant found
    rw [FixedSpace.occupant?_congr (slots_stored done)] at found
    exact serving.known begin occupant found
  refine .of_closed serving.wellFormed.upholds closed
    (fun other => fits.starts serving addressable done given) coherent
    (fun _ _ _ _ _ => clears_eq_false known _) ⟨list, ?_, fun addr valid among there => ?_⟩
    fun raw member => ?_
  · rw [withRegions, cursor]
    exact tiled.alike old fun first member _ => ⟨(alike first member).1, (alike first member).2.1⟩
  · rw [withRegions, old] at there
    exact listed addr valid (met_of_plain valid among) there
  · rw [withRegions, remembered_setWord? done] at member
    obtain ⟨slot, same, valid, isSlot⟩ := serving.wellFormed.recorded raw member
    exact ⟨slot, same, valid, (fits.isSlot serving addressable done).mpr isSlot⟩

/-- The value may be stored. -/
theorem Fits.storable : Storable contract world regions :=
  ⟨fits.wellFormed serving addressable done nofun,
    fun _ _ => (fits.isSlot serving addressable done).mp⟩

/-- The field may be recorded then. -/
theorem Fits.recordable (later : (object.add index).space ≠ .birth)
    : Recordable contract (world.withRegions regions) (object.add index) := by
  obtain ⟨valid, space, offset⟩ := fits.place serving addressable
  have holds := cell_stored done
  refine ⟨valid, (fits.isSlot serving addressable done).mpr ?_,
    fits.wellFormed serving addressable done fun other member => ?_⟩
  · rw [space] at later
    rw [space, offset]
    have isField := fits.isField
    by_cases fixed : object.space = .fixed
    · rw [Regions.IsField, if_pos fixed] at isField
      obtain ⟨-, occupant, found, inside⟩ := isField
      rw [fixed]
      exact .fixed found inside
    · rw [Regions.IsField, if_neg fixed] at isField
      obtain ⟨starts, tiles, listed⟩ := serving.wellFormed.tiled
      have moves := (serving.wellFormed.coherent.object object fits.valid fits.met fixed).1
      have old : object.space = world.heap.regions.old.space := by
        simpa [Regions.moves, later] using moves
      rw [show world.heap.regions.field object = world.heap.regions.wordsAt object.space object.offset from rfl,
        old] at isField
      rw [old]
      exact .old tiles (listed object fits.valid fits.met old) isField
  · rw [List.mem_singleton.mp member, withRegions, holds]
    exact fits.given

end Fits

end World

end MovingHeap
