import MovingHeap.Proofs.Pass

/-! Forwarding one reference while a collection traces.
What was done so far determines every word that matters: objects that have moved left tombstones,
others are intact, and each slot of a copy holds what it held or what that became. Forwarding keeps
this and settles its reference.
-/

namespace MovingHeap

variable {σ δ : Type}

namespace Regions

/-- Semispaces keep their names while a collection traces. -/
theorem Evolves.apart {before now : Regions δ} (evolves : before.Evolves now)
    (apart : before.Apart)
    : now.Apart where
  old := by
    rw [evolves.oldSpace]
    exact apart.old
  target := by
    intro target there
    have outlines := evolves.target
    rw [there, Option.map_some, eq_comm, Option.map_eq_some_iff] at outlines
    obtain ⟨former, found, same⟩ := outlines
    have spaces : former.space = target.space := (congrArg Semispace.space same :)
    rw [evolves.oldSpace, ← spaces]
    exact apart.target former found

/-- Putting back the region that is copied to keeps the names. -/
theorem Apart.setDestination {regions : Regions δ} (apart : regions.Apart) {region : Semispace}
    (space : region.space = regions.destination.space)
    : (regions.setDestination region).Apart := by
  have old := apart.isOld_destination
  unfold Regions.setDestination isFull
  cases target : regions.target with
  | none =>
      refine ⟨?_, ?_⟩
      · simpa [space] using old
      · simp
  | some former =>
      refine ⟨apart.old, ?_⟩
      rintro _ ⟨⟩
      rw [space, destination, target]
      exact apart.target former target

/-- Objects are copied out of the same space after the region that is copied to was put back. -/
theorem source_setDestination {regions : Regions δ} {region : Semispace}
    (space : region.space = regions.destination.space) (young : Bool)
    : (regions.setDestination region).source young = regions.source young := by
  unfold source Regions.setDestination isFull
  cases young with
  | true => rfl
  | false =>
      cases target : regions.target with
      | none => simpa [destination, target] using space
      | some former => rfl

/-- Copying and burying an object changes the region that is copied to and the first two words of the
object.
-/
theorem Apart.cell_relocated {regions : Regions δ} (apart : regions.Apart)
    (filled extended : Semispace) (space : filled.space = regions.destination.space)
    (same : extended.space = filled.space) (words : extended.words = filled.words)
    (object : Address) (young : Bool) (count : Nat) (place : Space) (offset : Nat)
    : (Collector.relocated regions filled extended object young count).cell place offset
      = if place = regions.source young ∧ offset = object.offset then 0
        else if place = regions.source young ∧ offset = object.offset + 1 then
          regions.destination.next.raw
        else if place = regions.destination.space then filled.words.get offset
        else regions.cell place offset := by
  have first := apart.setDestination space
  have again : extended.space = (regions.setDestination filled).destination.space := by
    rw [destination_setDestination, same]
  have second := first.setDestination again
  let moved := (regions.setDestination filled).setDestination extended
  have counted : (Collector.relocated regions filled extended object young count).cell place offset
      = (moved.bury young object.offset regions.destination.next).cell place offset := by
    cases place <;> rfl
  rw [counted, second.cell_bury, source_setDestination again, source_setDestination space,
    first.cell_setDestination again, apart.cell_setDestination space, words, same, space]
  split_ifs <;> rfl

end Regions

namespace Pass

/-- What holds at each moment of tracing. -/
structure Progress (pass : Pass σ δ) (trail : Trail) (now : Regions δ) : Prop where
  evolves : pass.before.Evolves now
  cursor : now.destination.cursor = pass.base + extent pass.size trail.moved
  nodup : trail.moved.Nodup
  met
    : ∀ object ∈ trail.moved,
        object.Decodes ∧ pass.Traced object.toValue ∧ pass.moves object.space
  buried
    : ∀ object ∈ trail.moved,
        now.field object 0 = 0 ∧ now.field object 1 = (pass.copyOf trail object).raw
  intact
    : ∀ object : Address,
        object.Decodes →
        pass.Traced object.toValue →
        pass.moves object.space →
        object ∉ trail.moved →
        ∀ index < pass.size object, now.field object index = pass.before.field object index
  slots
    : ∀ space offset value,
        pass.Holds trail space offset value →
        pass.Carried trail value (now.cell space offset)
  copies
    : ∀ object ∈ trail.moved,
        ∀ index < pass.size object,
          ¬ pass.layout.IsSlot (pass.before.field object) index →
          now.cell pass.space (pass.copyOffset trail object + index)
            = pass.before.field object index
  stays
    : ∀ space offset,
        pass.Stays space offset →
        ¬ pass.handles space offset →
        now.cell space offset = pass.before.cell space offset
  unused
    : ∀ offset,
        pass.before.birth.cursor ≤ offset →
        now.cell .birth offset = pass.before.cell .birth offset
  marks
    : ∀ begin occupant,
        now.fixed.occupant? begin = some occupant →
        (occupant.marked ↔ begin ∈ trail.marked)
  reached
    : ∀ begin ∈ trail.marked,
        pass.full
        ∧ ∃ addr : Address,
            addr.Decodes
            ∧ pass.Traced addr.toValue
            ∧ addr.space = .fixed
            ∧ pass.before.fixed.containing? addr.offset = some begin
            ∧ pass.before.forgets addr = false
  waiting : ∀ begin ∈ now.unscanned, begin ∈ trail.marked

section Progress

variable {pass : Pass σ δ} {trail : Trail} {now : Regions δ}

/-- Tracing begins with nothing done. -/
theorem Ready.progress (ready : pass.Ready) : pass.Progress {} pass.before where
  evolves := Regions.Evolves.refl pass.before
  cursor := rfl
  nodup := List.nodup_nil
  met := nofun
  buried := nofun
  intact _ _ _ _ _ _ _ := rfl
  slots space offset value holds := by
    cases holds with
    | copied moved slot => cases moved
    | stayed handled => exact Or.inl rfl
  copies := nofun
  stays _ _ _ _ := rfl
  unused _ _ := rfl
  marks begin occupant found := by
    obtain ⟨slot, member, -, holds⟩ := ready.consistent.occupant?_eq_some_iff.mp found
    simp [ready.noneMarked slot member occupant holds]
  reached := nofun
  waiting begin member := by
    rw [ready.unscanned] at member
    cases member

/-- A slot of a moving object that was met lies within it. -/
theorem Ready.slot_lt (ready : pass.Ready) {object : Address} (valid : object.Decodes)
    (met : pass.Traced object.toValue) (moves : pass.moves object.space) {index : Nat}
    (slot : pass.layout.IsSlot (pass.before.field object) index)
    : index < pass.size object :=
  pass.layout.slot_lt (ready.object object valid met moves).1 slot

/-- Where all that tracing looks at is the same, tracing has come as far. -/
theorem Progress.alike (progress : pass.Progress trail now) {next : Regions δ}
    (evolves : now.Evolves next)
    (cells : ∀ space offset, next.cell space offset = now.cell space offset)
    (cursor : next.destination.cursor = now.destination.cursor)
    (slots : next.fixed.slots = now.fixed.slots)
    (unscanned : ∀ begin ∈ next.unscanned, begin ∈ now.unscanned)
    : pass.Progress trail next where
  evolves := progress.evolves.trans evolves
  cursor := cursor.trans progress.cursor
  nodup := progress.nodup
  met := progress.met
  buried object moved := by
    simp only [Regions.field, cells]
    exact progress.buried object moved
  intact object valid traced moves unmoved index inside := by
    rw [Regions.field, cells]
    exact progress.intact object valid traced moves unmoved index inside
  slots space offset value holds := by
    rw [cells]
    exact progress.slots space offset value holds
  copies object moved index inside plain := by
    rw [cells]
    exact progress.copies object moved index inside plain
  stays space offset stays plain := by
    rw [cells]
    exact progress.stays space offset stays plain
  unused offset behind := by
    rw [cells]
    exact progress.unused offset behind
  marks begin occupant found := by
    refine progress.marks begin occupant ?_
    simpa only [FixedSpace.occupant?, FixedSpace.slot?, slots] using found
  reached := progress.reached
  waiting begin member := progress.waiting begin (unscanned begin member)

section Places

variable (ready : pass.Ready) (progress : pass.Progress trail now)

include progress

/-- The region that is copied to goes by the name it had. -/
theorem Progress.destinationSpace : now.destination.space = pass.space :=
  progress.evolves.destinationSpace

include ready

/-- The copies fit into the region that is copied to. -/
theorem Progress.fits
    : pass.base + extent pass.size trail.moved ≤ now.destination.words.size := by
  have bound := ready.extent_le progress.nodup progress.met
  have room := ready.room
  have size := progress.evolves.destinationSize
  omega

/-- The cursor of the region that is copied to can be told by an address. -/
theorem Progress.cursor_le : now.destination.cursor ≤ maxOffsetWords := by
  have fits := progress.fits ready
  have cursor := progress.cursor
  have size := progress.evolves.destinationSize
  have small := ready.destinationSmall
  omega

omit ready in
/-- A copy ends at the cursor or before. -/
theorem Progress.copy_le {object : Address} (moved : object ∈ trail.moved)
    : pass.copyOffset trail object + pass.size object ≤ now.destination.cursor := by
  have inside : offsetIn pass.size trail.moved object + pass.size object
      ≤ extent pass.size trail.moved := offsetIn_add_size_le moved
  have cursor := progress.cursor
  simp only [copyOffset]
  omega

/-- A copy is told by an address that decodes. -/
theorem Progress.copyOf_eq {object : Address} (moved : object ∈ trail.moved)
    : (pass.copyOf trail object).Decodes
      ∧ (pass.copyOf trail object).space = pass.space
      ∧ (pass.copyOf trail object).offset = pass.copyOffset trail object := by
  have inside := progress.copy_le moved
  have small := progress.cursor_le ready
  have place : pass.copyOffset trail object ≤ maxOffsetWords := by omega
  exact ⟨Address.decodes_pack _ place, Address.space_pack _ place, Address.offset_pack _ place⟩

/-- What a slot held was met. -/
theorem Progress.traced_of_holds {space : Space} {offset : Nat} {value : Value}
    (holds : pass.Holds trail space offset value)
    : pass.Traced value := by
  cases holds with
  | copied moved slot =>
      obtain ⟨valid, met, moves⟩ := progress.met _ moved
      exact .field valid met moves slot
  | stayed handled => exact (ready.handled _ _ handled).1

/-- A slot lies in a copy or in an object that stays. -/
theorem Progress.place_of_holds {space : Space} {offset : Nat} {value : Value}
    (holds : pass.Holds trail space offset value)
    : space = pass.space ∧ pass.base ≤ offset ∧ offset < now.destination.cursor
      ∨ pass.Stays space offset := by
  cases holds with
  | @copied object index moved slot =>
      obtain ⟨valid, met, moves⟩ := progress.met _ moved
      have inside := ready.slot_lt valid met moves slot
      have bound := progress.copy_le moved
      refine Or.inl ⟨rfl, ?_, by omega⟩
      simp only [copyOffset]
      omega
  | stayed handled => exact Or.inr (ready.handled _ _ handled).2

/-- What was copied so far can be read. -/
theorem Progress.readable_of_lt {offset : Nat} (below : offset < now.destination.cursor)
    : now.Readable pass.space offset := by
  have apart := progress.evolves.apart ready.apart
  have fits := progress.fits ready
  have cursor := progress.cursor
  have readable : ∃ region, now.oldSpace? pass.space = some region
      ∧ offset < region.cursor ∧ offset < region.capacity := by
    refine ⟨now.destination, ?_, below, ?_⟩
    · rw [← progress.destinationSpace]
      exact apart.oldSpace?_destination
    · simp only [Semispace.capacity]
      omega
  have old := ready.isOld_space
  cases here : pass.space with
  | birth | fixed => simp [here, Space.isOld] at old
  | oldA | oldB =>
      rw [here] at readable
      exact readable

/-- Every slot can be read. -/
theorem Progress.readable_of_holds {space : Space} {offset : Nat} {value : Value}
    (holds : pass.Holds trail space offset value)
    : now.Readable space offset := by
  have cursor := progress.cursor
  rcases progress.place_of_holds ready holds with ⟨rfl, -, below⟩ | stays
  · exact progress.readable_of_lt ready below
  · rcases stays with ⟨rfl, below⟩ | ⟨minor, rfl, below⟩
    · have size := progress.evolves.fixedSize
      simp only [Regions.Readable]
      omega
    · rw [← space_of_minor minor]
      exact progress.readable_of_lt ready (by omega)

/-- A slot lies in no space that objects move out of. -/
theorem Progress.not_moves_of_holds {space : Space} {offset : Nat} {value : Value}
    (holds : pass.Holds trail space offset value)
    : pass.moves space = false := by
  rcases progress.place_of_holds ready holds with ⟨rfl, -, -⟩ | stays
  · exact ready.not_moves_space
  · exact ready.not_moves_of_stays stays

/-- Every slot can be written. -/
theorem Progress.writable_of_holds {space : Space} {offset : Nat} {value : Value}
    (holds : pass.Holds trail space offset value)
    : now.Writable space offset := by
  have readable := progress.readable_of_holds ready holds
  have rests := progress.not_moves_of_holds ready holds
  cases space with
  | birth => simp [moves, Regions.moves] at rests
  | fixed | oldA | oldB => exact readable

/-- A slot held one value only. -/
theorem Progress.holds_unique {space : Space} {offset : Nat} {first second : Value}
    (left : pass.Holds trail space offset first) (right : pass.Holds trail space offset second)
    : first = second := by
  generalize there : offset = other at right
  generalize where' : space = place at right
  cases left with
  | @copied object index moved slot =>
      obtain ⟨valid, met, moves⟩ := progress.met _ moved
      have inside := ready.slot_lt valid met moves slot
      cases right with
      | @copied object' index' moved' slot' =>
          obtain ⟨valid', met', moves'⟩ := progress.met _ moved'
          have inside' := ready.slot_lt valid' met' moves' slot'
          simp only [copyOffset] at there
          obtain ⟨rfl, rfl⟩ := offsetIn_inj moved moved' inside inside' (by omega)
          rfl
      | stayed handled =>
          subst where'
          have below := ready.lt_base_of_stays (ready.handled _ _ handled).2
          simp only [copyOffset] at there
          omega
  | stayed handled =>
      cases right with
      | copied moved slot =>
          subst where'
          have below := ready.lt_base_of_stays (ready.handled _ _ handled).2
          simp only [copyOffset] at there
          omega
      | stayed handled' =>
          subst there where'
          rfl

end Places

-----------------------------------------------------------------------------------------
-- Values that need no forwarding
-----------------------------------------------------------------------------------------

/-- Forwarding leaves the value alone: it leads to nothing that moves, and a fixed object it leads to
was marked.
-/
def Still (pass : Pass σ δ) (trail : Trail) (value : Value) : Prop :=
  ∀ addr, value.address? = some addr →
    pass.moves addr.space = false
    ∧ (pass.full → addr.space = .fixed →
        pass.before.forgets addr = false
        ∧ ∃ begin ∈ trail.marked, pass.before.fixed.containing? addr.offset = some begin)

/-- A value that needs no forwarding is settled and stays what it is. -/
theorem Still.settled {value : Value} (still : pass.Still trail value)
    : pass.Settled trail value ∧ pass.relocated trail value = value := by
  constructor
  · intro addr found
    obtain ⟨rests, fixed⟩ := still addr found
    refine ⟨fun moves => by simp [rests] at moves, fun full here known begin covers => ?_⟩
    obtain ⟨-, start, marked, same⟩ := fixed full here
    rw [covers, Option.some.injEq] at same
    exact same ▸ marked
  · unfold relocated
    cases found : value.address? with
    | none => rfl
    | some addr =>
        obtain ⟨rests, fixed⟩ := still addr found
        simp only [rests, Bool.false_eq_true, if_false]
        split_ifs with forgotten
        · simp only [Bool.and_eq_true, beq_iff_eq] at forgotten
          obtain ⟨⟨full, here⟩, gave⟩ := forgotten
          rw [(fixed full here).1] at gave
          cases gave
        · rfl

/-- What a settled value becomes needs no forwarding. -/
theorem Progress.still_relocated (ready : pass.Ready) (progress : pass.Progress trail now)
    {value : Value} (traced : pass.Traced value) (settled : pass.Settled trail value)
    : pass.Still trail (pass.relocated trail value) := by
  intro addr found
  unfold relocated at found
  cases target : value.address? with
  | none =>
      simp only [target] at found
      cases found
  | some object =>
      simp only [target] at found
      obtain ⟨moved, marked⟩ := settled object target
      split_ifs at found with moves forgotten
      · obtain ⟨valid, space, -⟩ := progress.copyOf_eq ready (moved moves)
        have same : addr = pass.copyOf trail object := by
          rw [Value.address?_toValue valid, Option.some.injEq] at found
          exact found.symm
        subst same
        rw [space]
        refine ⟨ready.not_moves_space, fun full fixed => ?_⟩
        have old := ready.isOld_space
        rw [fixed] at old
        cases old
      · simp at found
      · rw [target, Option.some.injEq] at found
        subst found
        refine ⟨by simpa using moves, fun full fixed => ?_⟩
        have known : pass.before.forgets object = false := by
          simpa [full, fixed] using forgotten
        have valid := Value.decodes_of_address? target
        have same := Value.toValue_of_address? target
        have live := ready.known full object valid (by rwa [same])
        rw [if_pos fixed] at live
        obtain ⟨begin, covers⟩ := Option.isSome_iff_exists.mp live
        exact ⟨known, begin, marked full fixed known begin covers, covers⟩

/-- A word that was carried over either is the value that was met or needs no forwarding. -/
theorem Progress.still_of_carried (ready : pass.Ready) (progress : pass.Progress trail now)
    {value : Value} (traced : pass.Traced value) {word : Word}
    (carried : pass.Carried trail value word)
    : word = value.raw
      ∨ pass.Settled trail value ∧ ⟨word⟩ = pass.relocated trail value
        ∧ pass.Still trail ⟨word⟩ := by
  refine carried.imp id fun ⟨settled, became⟩ => ?_
  subst became
  exact ⟨settled, rfl, progress.still_relocated ready traced settled⟩

/-- A fixed object is still what it was but for its mark. -/
theorem Progress.occupant (progress : pass.Progress trail now) {begin : Nat}
    {occupant : Occupant δ} (found : pass.before.fixed.occupant? begin = some occupant)
    : ∃ marked, now.fixed.occupant? begin = some { occupant with marked } := by
  have alike := FixedSpace.occupant?_alike progress.evolves.slots begin
  rw [found, Option.map_some, Option.map_eq_some_iff] at alike
  obtain ⟨present, here, same⟩ := alike
  refine ⟨present.marked, ?_⟩
  rw [here]
  cases present
  cases occupant
  simp only [Occupant.unmarked, Occupant.mk.injEq] at same
  obtain ⟨rfl, rfl, -, rfl⟩ := same
  rfl

end Progress

end Pass

end MovingHeap
