import Mathlib.Data.List.Find
import MovingHeap.Proofs.LinkedSlots

/-! Headers and links do what slots and lists do.
Whatever is done to both, links go on to spell out the slots of a fixed space and its lists, and the
answers are the same.
-/

namespace MovingHeap

variable {σ δ : Type}

/-- A place is on one list. -/
theorem FixedSpace.Consistent.same_list {space : FixedSpace δ}
    (consistent : space.Consistent) {sizeClass sizeClass' : Nat} {executable executable' : Bool}
    {place : Nat} (here : place ∈ space.vacant.get sizeClass executable)
    (there : place ∈ space.vacant.get sizeClass' executable')
    : sizeClass' = sizeClass ∧ executable' = executable := by
  obtain ⟨slot, member, begins, rfl, rfl, -⟩ := (consistent.mem_vacant _ _ _).mp here
  obtain ⟨other, inside, begins', rfl, rfl, -⟩ := (consistent.mem_vacant _ _ _).mp there
  obtain rfl := consistent.stacked.eq_of_start member inside (begins.trans begins'.symm)
  exact ⟨rfl, rfl⟩

/-- There are no more slots than words, by going down the stack. -/
theorem FixedSpace.Stacked.length_le {slots : List (FixedSlot δ)} {top : Nat}
    (stacked : FixedSpace.Stacked slots top)
    : slots.length ≤ top := by
  induction slots generalizing top with
  | nil => exact Nat.zero_le top
  | cons head below ih =>
      obtain ⟨reaches, positive, rest⟩ := stacked
      have under := ih rest
      simp only [FixedSlot.stop] at reaches
      rw [List.length_cons]
      omega

/-- No list has more slots than the arena has words. -/
theorem FixedSpace.Consistent.length_vacant_le {space : FixedSpace δ}
    (consistent : space.Consistent) (sizeClass : Nat) (executable : Bool)
    : (space.vacant.get sizeClass executable).length ≤ space.arena.size := by
  have listed : space.vacant.get sizeClass executable ⊆ space.slots.map FixedSlot.start := by
    intro place member
    obtain ⟨slot, inside, rfl, -⟩ := (consistent.mem_vacant _ _ _).mp member
    exact List.mem_map_of_mem inside
  have fewer := (consistent.vacantNodup sizeClass executable).length_le_of_subset listed
  rw [List.length_map] at fewer
  exact fewer.trans consistent.stacked.length_le

namespace LinkedSpace

/-- The links to older slots spell out the slots of a fixed space, and all else but its lists is the same.
-/
structure Outlines (linked : LinkedSpace δ) (space : FixedSpace δ) : Prop where
  arena : linked.arena = space.arena
  classes : linked.classes = space.classes
  recent : linked.recent = space.recent
  liveObjects : linked.liveObjects = space.liveObjects
  liveWords : linked.liveWords = space.liveWords
  headers : ∀ start, (linked.headers start).map (SlotHeader.slot start) = space.slot? start
  chain : Chained linked.previous linked.last (space.slots.map FixedSlot.start)

/-- The links spell out the slots of a fixed space and its lists, and all else is the same. -/
structure Spells (linked : LinkedSpace δ) (space : FixedSpace δ) : Prop
    extends linked.Outlines space where
  lists
    : ∀ sizeClass executable,
        Chained linked.next (linked.firstVacant sizeClass executable)
          (space.vacant.get sizeClass executable)

-----------------------------------------------------------------------------------------
-- Changing headers
-----------------------------------------------------------------------------------------

section Update

variable (linked : LinkedSpace δ) (start : Nat) {change : SlotHeader δ → SlotHeader δ}

theorem headers_update (other : Nat)
    : (linked.update start change).headers other
      = if other = start then (linked.headers other).map change else linked.headers other := by
  simp only [update, Function.update_apply]
  split_ifs with here
  · rw [here]
  · rfl

/-- Changes that keep the links to older slots keep the chain. -/
theorem previous_update (keeps : ∀ header, (change header).previous = header.previous)
    : (linked.update start change).previous = linked.previous := by
  funext other
  rw [previous, headers_update]
  split_ifs
  · cases found : linked.headers other <;> simp [previous, found, keeps]
  · rfl

/-- Changes that keep the links to vacant slots keep the lists. -/
theorem next_update (keeps : ∀ header, (change header).next = header.next)
    : (linked.update start change).next = linked.next := by
  funext other
  rw [next, headers_update]
  split_ifs
  · cases found : linked.headers other <;> simp [next, found, keeps]
  · rfl

/-- A link that is changed leads on as the change says, the others where they led. -/
theorem next_update_apply (leads : SlotHeader δ → Option Nat)
    (keeps : ∀ header, (change header).next = leads header) (other : Nat)
    : (linked.update start change).next other
      = if other = start then (linked.headers other).bind leads else linked.next other := by
  rw [next, headers_update]
  split_ifs
  · cases found : linked.headers other <;> simp [keeps]
  · rfl

end Update

section Outlines

variable {linked : LinkedSpace δ} {space : FixedSpace δ} (outlines : linked.Outlines space)

include outlines

/-- A slot has a header. -/
theorem Outlines.exists_header {start : Nat} {slot : FixedSlot δ}
    (found : space.slot? start = some slot)
    : ∃ header, linked.headers start = some header ∧ header.slot start = slot := by
  rw [← outlines.headers, Option.map_eq_some_iff] at found
  exact found

/-- Objects are found where they are. -/
theorem Outlines.occupant? (start : Nat) : linked.occupant? start = space.occupant? start := by
  rw [FixedSpace.occupant?, ← outlines.headers, LinkedSpace.occupant?, Option.bind_map]
  rfl

/-- The nearest place with a header is where the first slot from the top begins, by going down from the
offset.
-/
theorem Outlines.nearest? (consistent : space.Consistent) (offset : Nat)
    : nearest? linked.headers offset
      = (space.slots.find? (·.start ≤ offset)).map FixedSlot.start := by
  have covers : ∀ {offset slot}, space.slot? offset = some slot →
      (space.slots.find? (·.start ≤ offset)).map FixedSlot.start = some offset := by
    intro offset slot found
    obtain ⟨member, rfl⟩ := FixedSpace.mem_of_slot? found
    have spans := consistent.stacked.capacity_pos member
    rw [consistent.stacked.find?_covering member (Nat.le_refl _)
      (Nat.lt_add_of_pos_right spans)]
    rfl
  have vacant : ∀ {offset}, space.slot? offset = none →
      ∀ slot ∈ space.slots, slot.start ≠ offset := by
    rintro offset none slot member rfl
    rw [consistent.slot?_start member] at none
    cases none
  induction offset with
  | zero =>
      rw [LinkedSpace.nearest?]
      cases found : space.slot? 0 with
      | some slot =>
          obtain ⟨header, here, -⟩ := outlines.exists_header found
          rw [here, covers found]
          rfl
      | none =>
          have none : linked.headers 0 = none := by
            rw [← outlines.headers] at found
            exact Option.map_eq_none_iff.mp found
          have nothing : space.slots.find? (·.start ≤ 0) = Option.none := by
            rw [List.find?_eq_none]
            intro slot member
            have elsewhere := vacant found slot member
            simpa using elsewhere
          rw [none, nothing]
          rfl
  | succ offset ih =>
      rw [LinkedSpace.nearest?]
      cases found : space.slot? (offset + 1) with
      | some slot =>
          obtain ⟨header, here, -⟩ := outlines.exists_header found
          rw [here, covers found]
          rfl
      | none =>
          have none : linked.headers (offset + 1) = none := by
            rw [← outlines.headers] at found
            exact Option.map_eq_none_iff.mp found
          have same : space.slots.find? (·.start ≤ offset + 1)
              = space.slots.find? (·.start ≤ offset) := by
            refine List.find?_congr fun slot member => ?_
            have elsewhere := vacant found slot member
            have iff : slot.start ≤ offset + 1 ↔ slot.start ≤ offset := by omega
            simp [iff]
          rw [none, same, ← ih]
          rfl

/-- The same object is around an offset. -/
theorem Outlines.containing? (consistent : space.Consistent) (offset : Nat)
    : linked.containing? offset = space.containing? offset := by
  rw [LinkedSpace.containing?, outlines.nearest? consistent, FixedSpace.containing?]
  cases found : space.slots.find? (·.start ≤ offset) with
  | none => rfl
  | some slot =>
      have member := List.mem_of_find?_eq_some found
      obtain ⟨header, here, same⟩ := outlines.exists_header (consistent.slot?_start member)
      simp only [Option.map_some, Option.bind_some, here]
      rw [FixedSlot.isLive, FixedSlot.stop, ← same]
      rfl

/-- A header that changes as its slot does, and keeps the link to the older one, still describes it. -/
theorem Outlines.update (start : Nat) (change : SlotHeader δ → SlotHeader δ)
    (change' : FixedSlot δ → FixedSlot δ) (keeps : ∀ slot, (change' slot).start = slot.start)
    (same
      : ∀ header,
          linked.headers start = some header →
          (change header).slot start = change' (header.slot start))
    (previous : ∀ header, (change header).previous = header.previous)
    : (linked.update start change).Outlines (space.updateSlot start change') where
  arena := outlines.arena
  classes := outlines.classes
  recent := outlines.recent
  liveObjects := outlines.liveObjects
  liveWords := outlines.liveWords
  headers other := by
    rw [FixedSpace.slot?_updateSlot space start keeps, ← outlines.headers, headers_update]
    split_ifs with here
    · subst here
      cases found : linked.headers other with
      | none => rfl
      | some header => exact congrArg some ((same header found).trans (if_pos rfl).symm)
    · cases found : linked.headers other with
      | none => rfl
      | some header => exact congrArg some (if_neg here).symm
  chain := by
    have starts : (space.updateSlot start change').slots.map FixedSlot.start
        = space.slots.map FixedSlot.start := by
      rw [FixedSpace.updateSlot, List.map_map]
      refine List.map_congr_left fun slot _ => ?_
      simp only [Function.comp_apply]
      split_ifs
      · exact keeps slot
      · rfl
    rw [starts, previous_update linked start previous]
    exact outlines.chain

/-- Links to vacant slots do not show in the outline. -/
theorem Outlines.relink (start : Nat) (next : SlotHeader δ → Option Nat)
    : (linked.update start fun header => { header with next := next header }).Outlines space := by
  have updated := outlines.update start (fun header => { header with next := next header }) id
    (fun _ => rfl) (fun _ _ => rfl) fun _ => rfl
  rwa [FixedSpace.updateSlot, show (fun slot : FixedSlot δ => if slot.start = start then id slot else slot)
    = id from funext fun slot => ite_self _, List.map_id] at updated

/-- The first slots of lists do not show in the outline. -/
theorem Outlines.unlink (sizeClass : Nat) (executable : Bool) (before : Option Nat) (start : Nat)
    : (linked.unlink sizeClass executable before start).Outlines space := by
  cases before with
  | none => exact { outlines with }
  | some before => exact outlines.relink before _

end Outlines

section Spells

variable {linked : LinkedSpace δ} {space : FixedSpace δ} (spells : linked.Spells space)

include spells

/-- A header that changes as its slot does, and keeps its links, still describes it. -/
theorem Spells.update (start : Nat) (change : SlotHeader δ → SlotHeader δ)
    (change' : FixedSlot δ → FixedSlot δ) (keeps : ∀ slot, (change' slot).start = slot.start)
    (same
      : ∀ header,
          linked.headers start = some header →
          (change header).slot start = change' (header.slot start))
    (previous : ∀ header, (change header).previous = header.previous)
    (next : ∀ header, (change header).next = header.next)
    : (linked.update start change).Spells (space.updateSlot start change') where
  toOutlines := spells.toOutlines.update start change change' keeps same previous
  lists sizeClass executable := by
    rw [next_update linked start next]
    exact spells.lists sizeClass executable

/-- An object that changes is described. -/
theorem Spells.updateOccupant (start : Nat) (change : Occupant δ → Occupant δ)
    : (linked.updateOccupant start change).Spells (space.updateOccupant start change) :=
  spells.update start _ _ (fun _ => rfl) (fun _ _ => rfl) (fun _ => rfl) fun _ => rfl

/-- Giving up an object does the same. -/
theorem Spells.forget? (start : Nat)
    : ((linked.forget? start).getD linked).Spells ((space.forget? start).getD space) := by
  rw [LinkedSpace.forget?, FixedSpace.forget?, spells.occupant?]
  cases space.occupant? start with
  | none => exact spells
  | some occupant => exact spells.updateOccupant start _

/-- Marking an object does the same and answers the same. -/
theorem Spells.mark? (consistent : space.Consistent) (offset : Nat)
    : (linked.mark? offset).map Prod.fst = (space.mark? offset).map Prod.fst
      ∧ (((linked.mark? offset).map Prod.snd).getD linked).Spells
          (((space.mark? offset).map Prod.snd).getD space) := by
  rw [LinkedSpace.mark?, FixedSpace.mark?, spells.containing? consistent]
  cases covers : space.containing? offset with
  | none => exact ⟨rfl, spells⟩
  | some start =>
      obtain ⟨occupant, found⟩ := consistent.exists_occupant covers
      simp only [Option.bind_some, spells.occupant?, found, Option.map_some]
      split_ifs
      · exact ⟨rfl, spells⟩
      · exact ⟨rfl, spells⟩
      · exact ⟨rfl, spells.updateOccupant start _⟩

/-- Writing to the arena does the same. -/
theorem Spells.overwrite (offset : Nat) (word : Word)
    : (linked.overwrite offset word).Spells (space.overwrite offset word) := by
  rw [LinkedSpace.overwrite, FixedSpace.overwrite, spells.arena]
  split_ifs
  · exact { spells with arena := rfl }
  · exact spells

end Spells

-----------------------------------------------------------------------------------------
-- Taking a vacant slot
-----------------------------------------------------------------------------------------

section Vacant

variable {linked : LinkedSpace δ} {space : FixedSpace δ} (spells : linked.Spells space)

include spells

/-- Walking along a list comes to the slot that is first found on it, with what is before it, by induction
along the list.
-/
theorem Spells.walk (words : Nat) (before : Option Nat) {steps : Nat} {current : Option Nat}
    {places : List Nat} (chained : Chained linked.next current places) (enough : places.length ≤ steps)
    (known : ∀ place ∈ places, (space.slot? place).isSome)
    : match places.findSome? fun start =>
          (space.slot? start).filter fun slot => words ≤ slot.capacity with
      | none => linked.walk words steps before current = none
      | some slot =>
          ∃ front back,
            places = front ++ slot.start :: back
            ∧ linked.walk words steps before current = some (front.getLast?.or before, slot.start) := by
  induction places generalizing steps before current with
  | nil =>
      obtain rfl : current = none := chained
      cases steps <;> rfl
  | cons place rest ih =>
      obtain ⟨rfl, onward⟩ := chained
      obtain ⟨slot, found⟩ := Option.isSome_iff_exists.mp (known place List.mem_cons_self)
      obtain ⟨header, here, same⟩ := spells.exists_header found
      obtain ⟨-, begins⟩ := FixedSpace.mem_of_slot? found
      have capacity : header.capacity = slot.capacity := congrArg FixedSlot.capacity same
      have next : linked.next place = header.next := by rw [LinkedSpace.next, here, Option.bind_some]
      obtain ⟨steps, rfl⟩ : ∃ fewer, steps = fewer + 1 :=
        Nat.exists_eq_succ_of_ne_zero (by simp at enough; omega)
      rw [List.findSome?_cons, found, LinkedSpace.walk, here, Option.bind_some, capacity]
      by_cases large : words ≤ slot.capacity
      · simp only [Option.filter_some, large, decide_true, if_true]
        exact ⟨[], rest, by rw [begins]; rfl, by simp [begins]⟩
      · simp only [Option.filter_some, large, decide_false, Bool.false_eq_true, if_false]
        rw [next] at onward
        have later := ih (some place) onward (Nat.le_of_succ_le_succ enough)
          fun other member => known other (List.mem_cons_of_mem _ member)
        split
        next none =>
          rw [none] at later
          exact later
        next slot first =>
          rw [first] at later
          obtain ⟨front, back, split, walked⟩ := later
          refine ⟨place :: front, back, by rw [split]; rfl, walked.trans ?_⟩
          rw [List.getLast?_cons]
          cases front.getLast? <;> rfl

omit spells in
/-- Where the links lead once a slot was taken off its list. -/
theorem next_unlink {sizeClass : Nat} {executable : Bool} {before : Option Nat} {start : Nat}
    {other : Nat} (differs : other ≠ start)
    (known : ∀ place, before = some place → (linked.headers place).isSome)
    : ((linked.unlink sizeClass executable before start).update start
          ({ · with next := none })).next other
      = if before = some other then linked.next start else linked.next other := by
  rw [next_update_apply _ _ (fun _ => none) fun _ => rfl, if_neg differs]
  cases before with
  | none => rfl
  | some place =>
      obtain ⟨header, here⟩ := Option.isSome_iff_exists.mp (known place rfl)
      rw [unlink, next_update_apply _ _ (fun _ => linked.next start) fun _ => rfl]
      by_cases same : other = place
      · rw [if_pos same, if_pos (by rw [same]), same, here, Option.bind_some]
      · rw [if_neg same, if_neg fun equal => same (Option.some.inj equal).symm]

/-- Once a slot was taken off its list, the links spell out the lists without it. -/
theorem Spells.unlink (consistent : space.Consistent) {sizeClass : Nat} {executable : Bool}
    {front back : List Nat} {start : Nat}
    (places : space.vacant.get sizeClass executable = front ++ start :: back)
    (other : Nat) (use : Bool)
    : Chained
        ((linked.unlink sizeClass executable front.getLast? start).update start
          ({ · with next := none })).next
        (((linked.unlink sizeClass executable front.getLast? start).update start
          ({ · with next := none })).firstVacant other use)
        ((space.vacant.set sizeClass executable (front ++ back)).get other use) := by
  have chained := spells.lists sizeClass executable
  rw [places] at chained
  have nodup := chained.nodup
  have known : ∀ place, front.getLast? = some place → (linked.headers place).isSome := by
    intro place last
    have listed : place ∈ space.vacant.get sizeClass executable := by
      rw [places]
      exact List.mem_append_left _ (List.mem_of_getLast? last)
    obtain ⟨slot, member, rfl, -⟩ := (consistent.mem_vacant _ _ _).mp listed
    obtain ⟨header, here, -⟩ := spells.exists_header (consistent.slot?_start member)
    rw [here]
    rfl
  have next : ∀ {place}, place ≠ start →
      ((linked.unlink sizeClass executable front.getLast? start).update start
        ({ · with next := none })).next place
      = if front.getLast? = some place then linked.next start else linked.next place :=
    fun differs => next_unlink differs known
  rw [FreeLists.get_set]
  split_ifs with here
  · obtain ⟨rfl, rfl⟩ := here
    rcases front.eq_nil_or_concat with rfl | ⟨init, before, rfl⟩
    · -- the first slot was taken
      have first : ((linked.unlink sizeClass executable ([] : List Nat).getLast? start).update start
          ({ · with next := none })).firstVacant sizeClass executable = linked.next start :=
        if_pos ⟨rfl, rfl⟩
      rw [first]
      refine chained.2.congr fun place member => ?_
      rw [next, if_neg (by simp)]
      rintro rfl
      exact (List.nodup_cons.mp nodup).1 member
    · -- the slot before it leads past it
      rw [List.concat_eq_append] at chained nodup next ⊢
      rw [List.getLast?_concat] at next ⊢
      rw [List.append_assoc] at chained nodup ⊢
      have apart := List.nodup_append.mp nodup
      simp only [List.singleton_append, List.nodup_cons, List.mem_cons, not_or] at apart
      refine chained.erase_behind ?_ fun place member => ?_
      · rw [next apart.2.1.1.1, if_pos rfl]
      · rcases List.mem_append.mp member with early | late
        · have differs := apart.2.2 place early
          rw [next (differs start (by simp)),
            if_neg fun same => differs before (by simp) (Option.some.inj same).symm]
        · rw [next, if_neg]
          · rintro ⟨rfl⟩
            exact apart.2.1.1.2 late
          · rintro rfl
            exact apart.2.1.2.1 late
  · -- no other list has the slot or the one before it
    have elsewhere : ∀ {place}, place ∈ front ++ start :: back →
        place ∉ space.vacant.get other use := by
      intro place listed again
      rw [← places] at listed
      obtain ⟨rfl, rfl⟩ := consistent.same_list listed again
      exact here ⟨rfl, rfl⟩
    have first : ((linked.unlink sizeClass executable front.getLast? start).update start
        ({ · with next := none })).firstVacant other use = linked.firstVacant other use := by
      cases front.getLast? with
      | none => exact if_neg fun same => here ⟨same.1.symm, same.2.symm⟩
      | some => rfl
    rw [first]
    refine (spells.lists other use).congr fun place member => ?_
    rw [next, if_neg]
    · intro last
      exact elsewhere (List.mem_append_left _ (List.mem_of_getLast? last)) member
    · rintro rfl
      exact elsewhere (by simp) member

/-- Walking along a whole list comes to the vacant slot that is found, with what is before it. -/
theorem Spells.walk_vacant (consistent : space.Consistent) (sizeClass words : Nat)
    (executable : Bool)
    : match space.vacantFor? sizeClass words executable with
      | none =>
          linked.walk words linked.arena.size none (linked.firstVacant sizeClass executable) = none
      | some slot =>
          ∃ front back,
            space.vacant.get sizeClass executable = front ++ slot.start :: back
            ∧ linked.walk words linked.arena.size none (linked.firstVacant sizeClass executable)
              = some (front.getLast?, slot.start) := by
  have chained := spells.lists sizeClass executable
  have known : ∀ place ∈ space.vacant.get sizeClass executable, (space.slot? place).isSome := by
    intro place listed
    obtain ⟨slot, member, rfl, -⟩ := (consistent.mem_vacant _ _ _).mp listed
    rw [consistent.slot?_start member]
    rfl
  have enough : (space.vacant.get sizeClass executable).length ≤ linked.arena.size := by
    rw [spells.arena]
    exact consistent.length_vacant_le sizeClass executable
  have walked := spells.walk words none chained enough known
  split
  next none =>
    rw [show (List.findSome? _ _) = _ from none] at walked
    exact walked
  next slot found =>
    rw [show (List.findSome? _ _) = _ from found] at walked
    obtain ⟨front, back, places, walked⟩ := walked
    exact ⟨front, back, places, by rw [walked, Option.or_none]⟩

/-- The slot that is first found on a list is taken off, and none is where none is found. -/
theorem Spells.takeVacant (consistent : space.Consistent) (sizeClass words : Nat)
    (executable : Bool)
    : match space.vacantFor? sizeClass words executable with
      | none => linked.takeVacant? sizeClass words executable = none
      | some slot =>
          ∃ taken,
            linked.takeVacant? sizeClass words executable = some (slot.start, taken)
            ∧ taken.Spells (space.reuse slot) := by
  have walked := spells.walk_vacant consistent sizeClass words executable
  split
  next none =>
    simp only [none] at walked
    rw [takeVacant?, walked]
    rfl
  next slot found =>
    simp only [found] at walked
    obtain ⟨front, back, places, walked⟩ := walked
    obtain ⟨member, rfl, rfl, -, -⟩ := consistent.mem_of_vacantFor? found
    obtain ⟨header, here, same⟩ := spells.exists_header (consistent.slot?_start member)
    have capacity : header.capacity = slot.capacity := congrArg FixedSlot.capacity same
    refine ⟨_, by rw [takeVacant?, walked]; simp only [Option.bind_eq_bind, Option.bind_some, here]; rfl, ?_⟩
    have outlines := (spells.toOutlines.unlink slot.sizeClass slot.executable front.getLast?
      slot.start).relink slot.start fun _ => none
    have erased : (front ++ slot.start :: back).erase slot.start = front ++ back := by
      have nodup := consistent.vacantNodup slot.sizeClass slot.executable
      rw [places] at nodup
      rw [List.erase_append_right, List.erase_cons_head]
      intro early
      exact (List.nodup_append.mp nodup).2.2 _ early _ List.mem_cons_self rfl
    refine ⟨{ outlines with arena := ?_ }, fun other use => ?_⟩
    · rw [capacity, outlines.arena]
      rfl
    · have lists := spells.unlink consistent places other use
      rw [← erased, ← places] at lists
      exact lists

end Vacant

-----------------------------------------------------------------------------------------
-- Allocating
-----------------------------------------------------------------------------------------

section Allocate

variable {linked : LinkedSpace δ} {space : FixedSpace δ} (spells : linked.Spells space)

include spells

/-- A slot that is appended is the last of the chain. -/
theorem Spells.append (consistent : space.Consistent) (capacity sizeClass : Nat)
    (executable : Bool)
    : (linked.append capacity sizeClass executable).Spells
        (space.append { start := space.arena.size, capacity, sizeClass, executable }) := by
  have below : ∀ slot ∈ space.slots, slot.start ≠ linked.arena.size := by
    intro slot member
    have under := consistent.stacked.stop_le member
    have spans := consistent.stacked.capacity_pos member
    rw [spells.arena]
    simp only [FixedSlot.stop] at under
    omega
  have links : ∀ place ≠ linked.arena.size,
      (linked.append capacity sizeClass executable).headers place = linked.headers place :=
    fun place differs => Function.update_of_ne differs _ _
  have added : (linked.append capacity sizeClass executable).headers linked.arena.size
      = some { capacity, sizeClass, executable, previous := linked.last } :=
    Function.update_self ..
  refine ⟨⟨?_, spells.classes, spells.recent, spells.liveObjects, spells.liveWords,
    fun start => ?_, ?_⟩, fun other use => ?_⟩
  · rw [LinkedSpace.append, spells.arena]
    rfl
  · rw [FixedSpace.slot?, FixedSpace.append, List.find?_cons]
    by_cases here : start = linked.arena.size
    · subst here
      rw [added, spells.arena, beq_self_eq_true]
      rfl
    · have differs : (space.arena.size == start) = false := by
        rw [← spells.arena]
        simpa using Ne.symm here
      rw [links start here, spells.headers]
      simp only [differs]
      rfl
  · refine ⟨?_, ?_⟩
    · rw [LinkedSpace.append, spells.arena]
    · have before : (linked.append capacity sizeClass executable).previous space.arena.size
          = linked.last := by
        rw [previous, ← spells.arena, added]
        rfl
      rw [before]
      refine spells.chain.congr fun place member => ?_
      obtain ⟨slot, inside, rfl⟩ := List.mem_map.mp member
      rw [previous, links _ (below slot inside)]
      rfl
  · refine (spells.lists other use).congr fun place member => ?_
    obtain ⟨slot, inside, rfl, -⟩ := (consistent.mem_vacant _ _ _).mp member
    rw [next, links _ (below slot inside)]
    rfl

/-- An object that is put into a slot is described. -/
theorem Spells.occupy {slot : FixedSlot δ} (found : space.slot? slot.start = some slot)
    (occupant : Occupant δ)
    : (linked.occupy slot.start slot.executable occupant).Spells (space.occupy slot occupant) := by
  obtain ⟨header, here, same⟩ := spells.exists_header found
  have use : header.executable = slot.executable := congrArg FixedSlot.executable same
  have updated := spells.update slot.start
    ({ · with executable := slot.executable, occupant := some occupant })
    ({ · with occupant := some occupant }) (fun _ => rfl) (fun other there => ?_) (fun _ => rfl)
    fun _ => rfl
  · have capacity : header.capacity = slot.capacity := congrArg FixedSlot.capacity same
    exact { updated with
      recent := congrArg (slot.start :: ·) spells.recent
      liveObjects := congrArg (· + 1) spells.liveObjects
      liveWords := by
        simp only [LinkedSpace.occupy, here, Option.map_some, Option.getD_some, capacity,
          spells.liveWords]
        rfl }
  · rw [here] at there
    cases there
    rw [← use]
    rfl

/-- Allocation answers the same and does the same. -/
theorem Spells.allocate (consistent : space.Consistent) (words : Nat) (destructor : Option δ)
    (executable : Bool)
    : (linked.allocate words destructor executable).1
        = (space.allocate words destructor executable).1
      ∧ (linked.allocate words destructor executable).2.Spells
          (space.allocate words destructor executable).2 := by
  have taken := spells.takeVacant consistent (space.classes.indexFor words) words executable
  rw [LinkedSpace.allocate, FixedSpace.allocate, spells.classes, spells.arena]
  cases found : space.vacantFor? (space.classes.indexFor words) words executable with
  | some slot =>
      simp only [found] at taken
      obtain ⟨reused, took, describes⟩ := taken
      obtain ⟨member, -, rfl, -, -⟩ := consistent.mem_of_vacantFor? found
      rw [took]
      exact ⟨rfl, describes.occupy (consistent.slot?_start member) _⟩
  | none =>
      simp only [found] at taken
      rw [taken]
      refine ⟨rfl, ?_⟩
      let slot := space.extraSlot words executable
      have last : (space.append slot).slot? slot.start = some slot := by
        simp [FixedSpace.slot?, FixedSpace.append]
      exact (spells.append consistent slot.capacity slot.sizeClass executable).occupy last _

end Allocate

end LinkedSpace

end MovingHeap
