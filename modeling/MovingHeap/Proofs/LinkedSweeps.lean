import MovingHeap.Proofs.LinkedChanges

/-! A sweep along links.
It goes from slot to older slot and changes each at once. In between, the slots behind it are swept and
those ahead are as they were; at its end it did what sweeping all slots does.
-/

namespace MovingHeap

variable {σ δ : Type}

namespace FixedSpace

-----------------------------------------------------------------------------------------
-- In the middle of a sweep
-----------------------------------------------------------------------------------------

/-- The slot is vacant and at the front of its list. -/
def vacate (space : FixedSpace δ) (slot : FixedSlot δ) : FixedSpace δ :=
  { space.updateSlot slot.start ({ · with occupant := none }) with
    vacant := space.vacant.push slot
    liveObjects := space.liveObjects - 1
    liveWords := space.liveWords - slot.capacity }

/-- What a sweep did when some slots are behind it and others ahead. -/
def sweptUpTo (space : FixedSpace δ)
    (destroy : δ → Address → List Word → σ → Reply σ (List Word)) (host : σ)
    (behind ahead : List (FixedSlot δ))
    : Swept σ δ :=
  let freed := behind.filter FixedSlot.isGarbage
  let freedWords := freed.foldl (fun words slot => words + slot.capacity) 0
  let run := runDestructors destroy freed space.arena host
  { space :=
      { space with
        arena := run.1
        slots := behind.map FixedSlot.swept ++ ahead
        vacant := freed.foldl FreeLists.push space.vacant
        liveObjects := space.liveObjects - freed.length
        liveWords := space.liveWords - freedWords }
    outcome :=
      { reclaimed := freed.length
        reclaimedWords := freedWords
        destroyed := freed.countP fun slot => (slot.occupant.bind (·.destructor)).isSome }
    host := run.2.1
    notes := run.2.2 }

/-- A sweep that succeeds has every slot behind it. -/
theorem sweptUpTo_slots {space : FixedSpace δ}
    {destroy : δ → Address → List Word → σ → Reply σ (List Word)} {host : σ} {swept : Swept σ δ}
    (sweeps : space.sweep destroy host = .ok swept)
    : space.sweptUpTo destroy host space.slots [] = swept := by
  simp only [FixedSpace.sweep] at sweeps
  split at sweeps
  · cases sweeps
  · cases sweeps
    simp only [sweptUpTo, List.append_nil]

/-- The destructor of the last slot is called behind all others, by one call after another. -/
theorem runDestructors_concat (destroy : δ → Address → List Word → σ → Reply σ (List Word))
    (slots : List (FixedSlot δ)) (last : FixedSlot δ) (arena : Arena) (host : σ)
    : runDestructors destroy (slots ++ [last]) arena host
      = let before := runDestructors destroy slots arena host
        let after := runDestructors destroy [last] before.1 before.2.1
        (after.1, after.2.1, before.2.2 ++ after.2.2) := by
  fun_induction runDestructors destroy slots arena host with
  | case1 => rfl
  | case2 slot slots arena host none? ih =>
      rw [List.cons_append, runDestructors, none?]
      exact ih
  | case3 slot slots arena host words destructor found reply written final host' notes run ih =>
      rw [List.cons_append, runDestructors, found]
      simp only [run] at ih
      simp only [reply, written] at ih ⊢
      rw [ih]
      simp

/-- A slot that begins where no other does is the only one that changes. -/
theorem updateSlot_split {space : FixedSpace δ} {front back : List (FixedSlot δ)}
    {slot : FixedSlot δ} (split : space.slots = front ++ slot :: back)
    (apart : ∀ other ∈ front ++ back, other.start ≠ slot.start)
    (change : FixedSlot δ → FixedSlot δ)
    : space.updateSlot slot.start change
      = { space with slots := front ++ change slot :: back } := by
  have others : ∀ slots ⊆ front ++ back,
      slots.map (fun other => if other.start = slot.start then change other else other) = slots := by
    intro slots inside
    refine (List.map_congr_left fun other member => ?_).trans (List.map_id slots)
    exact if_neg (apart other (inside member))
  rw [updateSlot, split, List.map_append, List.map_cons, if_pos rfl,
    others front (List.subset_append_left _ _), others back (List.subset_append_right _ _)]

section Step

variable {space : FixedSpace δ} {destroy : δ → Address → List Word → σ → Reply σ (List Word)}
  {host : σ} {behind ahead : List (FixedSlot δ)} {slot : FixedSlot δ}

/-- No other slot begins where one does. -/
theorem Consistent.apart (consistent : space.Consistent)
    (split : space.slots = behind ++ slot :: ahead)
    : ∀ other ∈ behind ++ ahead, other.start ≠ slot.start := by
  have starts : (space.slots.map FixedSlot.start).Nodup :=
    consistent.stacked.descending.imp Nat.ne_of_gt
  rw [split, (List.perm_middle.map _).nodup_iff, List.map_cons, List.nodup_cons] at starts
  intro other member same
  exact starts.1 (same ▸ List.mem_map_of_mem member)

/-- Going past a vacant slot changes nothing. -/
theorem sweptUpTo_vacant (empty : slot.occupant = none)
    : space.sweptUpTo destroy host (behind ++ [slot]) ahead
      = space.sweptUpTo destroy host behind (slot :: ahead) := by
  have kept : slot.isGarbage = false := by simp [FixedSlot.isGarbage, empty]
  have same : slot.swept = slot := by
    rw [FixedSlot.swept, kept, empty]
    cases slot
    cases empty
    rfl
  simp [sweptUpTo, kept, same]

section Apart

variable (apart : ∀ other ∈ behind ++ ahead, other.start ≠ slot.start)

include apart

/-- No slot behind or ahead begins where the one between them does. -/
theorem apart_swept
    : ∀ other ∈ behind.map FixedSlot.swept ++ ahead, other.start ≠ slot.start := by
  intro other member
  rcases List.mem_append.mp member with early | late
  · obtain ⟨former, inside, rfl⟩ := List.mem_map.mp early
    rw [start_swept]
    exact apart former (List.mem_append_left _ inside)
  · exact apart other (List.mem_append_right _ late)

/-- Going past a marked object clears its mark. -/
theorem sweptUpTo_marked {occupant : Occupant δ} (holds : slot.occupant = some occupant)
    (marked : occupant.marked)
    : space.sweptUpTo destroy host (behind ++ [slot]) ahead
      = { space.sweptUpTo destroy host behind (slot :: ahead) with
          space :=
            (space.sweptUpTo destroy host behind (slot :: ahead)).space.updateOccupant slot.start
              ({ · with marked := false }) } := by
  have kept : slot.isGarbage = false := by simp [FixedSlot.isGarbage, holds, marked]
  rw [updateOccupant, updateSlot_split rfl (apart_swept apart)]
  simp [sweptUpTo, kept, FixedSlot.swept]

/-- Going past garbage calls its destructor and frees its slot. -/
theorem sweptUpTo_garbage {occupant : Occupant δ} (holds : slot.occupant = some occupant)
    (unmarked : occupant.marked = false)
    : space.sweptUpTo destroy host (behind ++ [slot]) ahead
      = let before := space.sweptUpTo destroy host behind (slot :: ahead)
        let run := runDestructors destroy [slot] before.space.arena before.host
        { space := { before.space with arena := run.1 }.vacate slot
          outcome :=
            { reclaimed := before.outcome.reclaimed + 1
              reclaimedWords := before.outcome.reclaimedWords + slot.capacity
              destroyed :=
                before.outcome.destroyed + if occupant.destructor.isSome then 1 else 0 }
          host := run.2.1
          notes := before.notes ++ run.2.2 } := by
  have freed : slot.isGarbage := by simp [FixedSlot.isGarbage, holds, unmarked]
  simp only [vacate]
  rw [updateSlot_split rfl (apart_swept apart)]
  simp [sweptUpTo, freed, FixedSlot.swept, runDestructors_concat, Nat.sub_sub, holds, List.countP_append, List.countP_cons]

end Apart

end Step

end FixedSpace

-----------------------------------------------------------------------------------------
-- One slot
-----------------------------------------------------------------------------------------

namespace LinkedSpace

/-- Freeing a slot keeps the links to older ones. -/
theorem previous_vacate (linked : LinkedSpace δ) (start : Nat) (header : SlotHeader δ)
    : (linked.vacate start header).previous = linked.previous :=
  previous_update linked start fun _ => rfl

/-- A slot that is freed is first on its list, and what was first is behind it. -/
theorem Spells.vacate {linked : LinkedSpace δ} {space : FixedSpace δ} (spells : linked.Spells space)
    {header : SlotHeader δ} {start : Nat} (here : linked.headers start = some header)
    (unlisted : ∀ sizeClass executable, start ∉ space.vacant.get sizeClass executable)
    : (linked.vacate start header).Spells (space.vacate (header.slot start)) := by
  let first := linked.firstVacant header.sizeClass header.executable
  have outlines := spells.toOutlines.update start ({ · with occupant := none, next := first })
    ({ · with occupant := none }) (fun _ => rfl) (fun _ _ => rfl) fun _ => rfl
  have next : ∀ place, (linked.vacate start header).next place
      = if place = start then first else linked.next place := by
    intro place
    refine (next_update_apply linked start (fun _ => first) (fun _ => rfl) place).trans ?_
    split_ifs with same
    · rw [same, here, Option.bind_some]
    · rfl
  have elsewhere : ∀ sizeClass executable, ∀ place ∈ space.vacant.get sizeClass executable,
      (linked.vacate start header).next place = linked.next place := by
    intro sizeClass executable place listed
    rw [next, if_neg]
    rintro rfl
    exact unlisted sizeClass executable listed
  refine ⟨{ outlines with
    liveObjects := congrArg (· - 1) spells.liveObjects
    liveWords := congrArg (· - header.capacity) spells.liveWords }, fun sizeClass executable => ?_⟩
  rw [FixedSpace.vacate, FreeLists.push, FreeLists.get_set]
  split_ifs with ours
  · obtain ⟨rfl, rfl⟩ := ours
    have leads : (linked.vacate start header).next start = first := (next start).trans (if_pos rfl)
    refine ⟨if_pos ⟨rfl, rfl⟩, ?_⟩
    change Chained _ ((linked.vacate start header).next start) _
    rw [leads]
    exact (spells.lists _ _).congr (elsewhere _ _)
  · have others : (linked.vacate start header).firstVacant sizeClass executable
        = linked.firstVacant sizeClass executable :=
      if_neg fun same => ours ⟨same.1.symm, same.2.symm⟩
    rw [others]
    exact (spells.lists _ _).congr (elsewhere _ _)

end LinkedSpace

namespace LinkedSweep

/-- Following links did what sweeping slots did. -/
structure Spells (sweeping : LinkedSweep σ δ) (swept : Swept σ δ) : Prop where
  space : sweeping.space.Spells swept.space
  outcome : sweeping.outcome = swept.outcome
  host : sweeping.host = swept.host
  notes : sweeping.notes = swept.notes

/-- Sweeping a slot keeps the links to older ones. -/
theorem previous_visit (sweeping : LinkedSweep σ δ)
    (destroy : δ → Address → List Word → σ → Reply σ (List Word)) (start : Nat)
    (header : SlotHeader δ)
    : (sweeping.visit destroy start header).space.previous = sweeping.space.previous := by
  rw [visit]
  cases header.occupant with
  | none => rfl
  | some occupant =>
      dsimp only
      split_ifs
      · exact LinkedSpace.previous_update _ _ fun _ => rfl
      · refine (LinkedSpace.previous_vacate _ start header).trans ?_
        rw [destroyed]
        cases occupant.destructor <;> rfl

/-- Calling a destructor keeps every header. -/
theorem headers_destroyed (sweeping : LinkedSweep σ δ)
    (destroy : δ → Address → List Word → σ → Reply σ (List Word)) (start : Nat)
    (occupant : Occupant δ)
    : (sweeping.destroyed destroy start occupant).space.headers = sweeping.space.headers := by
  rw [destroyed]
  cases occupant.destructor <;> rfl

/-- Calling a destructor does the same. -/
theorem Spells.destroyed {sweeping : LinkedSweep σ δ} {swept : Swept σ δ}
    (spells : sweeping.Spells swept)
    (destroy : δ → Address → List Word → σ → Reply σ (List Word)) {slot : FixedSlot δ}
    {occupant : Occupant δ} (holds : slot.occupant = some occupant)
    : let run := FixedSpace.runDestructors destroy [slot] swept.space.arena swept.host
      (sweeping.destroyed destroy slot.start occupant).Spells
        { space := { swept.space with arena := run.1 }
          outcome :=
            { swept.outcome with
              destroyed := swept.outcome.destroyed + if occupant.destructor.isSome then 1 else 0 }
          host := run.2.1
          notes := swept.notes ++ run.2.2 } := by
  obtain ⟨space, outcome, host, notes⟩ := spells
  rw [LinkedSweep.destroyed]
  cases found : occupant.destructor with
  | none =>
      simp only [FixedSpace.runDestructors, holds, found, Option.bind_some, Option.map_none,
        List.append_nil, Option.isSome_none, Bool.false_eq_true, if_false, Nat.add_zero]
      exact ⟨space, outcome, host, notes⟩
  | some destructor =>
      simp only [FixedSpace.runDestructors, holds, found, Option.bind_some, Option.map_some,
        List.append_nil, Option.isSome_some, if_true, space.arena, host, outcome, notes]
      exact ⟨{ space with arena := rfl }, rfl, rfl, rfl⟩

section Step

variable {space : FixedSpace δ} (consistent : space.Consistent)
  {destroy : δ → Address → List Word → σ → Reply σ (List Word)} {host : σ}
  {behind ahead : List (FixedSlot δ)}

include consistent

/-- Sweeping one slot along the links leaves it behind. -/
theorem Spells.visit {slot : FixedSlot δ} (split : space.slots = behind ++ slot :: ahead)
    {sweeping : LinkedSweep σ δ}
    (spells : sweeping.Spells (space.sweptUpTo destroy host behind (slot :: ahead)))
    {header : SlotHeader δ} (here : sweeping.space.headers slot.start = some header)
    (describes : header.slot slot.start = slot)
    : (sweeping.visit destroy slot.start header).Spells
        (space.sweptUpTo destroy host (behind ++ [slot]) ahead) := by
  have apart := consistent.apart split
  have held : header.occupant = slot.occupant := congrArg FixedSlot.occupant describes
  rw [LinkedSweep.visit, held]
  cases holds : slot.occupant with
  | none =>
      rw [FixedSpace.sweptUpTo_vacant holds]
      exact spells
  | some occupant =>
      dsimp only
      split_ifs with marked
      · rw [FixedSpace.sweptUpTo_marked apart holds marked]
        exact { spells with space := spells.space.updateOccupant slot.start _ }
      · rw [FixedSpace.sweptUpTo_garbage apart holds (by simpa using marked)]
        -- neither was the slot vacant before the sweep nor has the sweep freed it yet
        have unlisted : ∀ sizeClass executable,
            slot.start
              ∉ (space.sweptUpTo destroy host behind (slot :: ahead)).space.vacant.get sizeClass
                  executable := by
          intro sizeClass executable listed
          rcases FixedSpace.mem_foldl_push.mp listed with before | ⟨other, freed, same, -⟩
          · obtain ⟨other, inside, same, -, -, empty⟩ := (consistent.mem_vacant _ _ _).mp before
            have member : slot ∈ space.slots := by simp [split]
            rw [consistent.stacked.eq_of_start inside member same, holds] at empty
            cases empty
          · exact apart other (List.mem_append_left _ (List.mem_filter.mp freed).1) same
        have destroyed := spells.destroyed destroy holds
        have vacated := destroyed.space.vacate
          ((congrFun (headers_destroyed sweeping destroy slot.start occupant) _).trans here) unlisted
        rw [describes] at vacated
        have capacity : header.capacity = slot.capacity := congrArg FixedSlot.capacity describes
        refine ⟨vacated, ?_, destroyed.host, destroyed.notes⟩
        simp only [LinkedSweep.vacated, destroyed.outcome, capacity]

/-- Sweeping along the links sweeps the slots ahead, by induction over them. -/
theorem Spells.onward {steps : Nat} {first : Option Nat} {sweeping : LinkedSweep σ δ}
    (split : space.slots = behind ++ ahead) (enough : ahead.length ≤ steps)
    (chained : Chained sweeping.space.previous first (ahead.map FixedSlot.start))
    (spells : sweeping.Spells (space.sweptUpTo destroy host behind ahead))
    : ∃ done,
        onward destroy steps first sweeping = .ok done
        ∧ done.Spells (space.sweptUpTo destroy host space.slots []) := by
  induction ahead generalizing behind steps first sweeping with
  | nil =>
      obtain rfl : first = none := chained
      rw [List.append_nil] at split
      rw [split]
      cases steps <;> exact ⟨sweeping, rfl, spells⟩
  | cons slot ahead ih =>
      obtain ⟨rfl, chained⟩ := chained
      obtain ⟨steps, rfl⟩ : ∃ fewer, steps = fewer + 1 :=
        Nat.exists_eq_succ_of_ne_zero (by simp at enough; omega)
      have found : (space.sweptUpTo destroy host behind (slot :: ahead)).space.slot? slot.start
          = some slot := by
        have before := FixedSpace.apart_swept (consistent.apart split)
        have unlike : (behind.map FixedSlot.swept).find? (·.start == slot.start) = none := by
          rw [List.find?_eq_none]
          intro other member
          simpa using before other (List.mem_append_left _ member)
        rw [FixedSpace.slot?, FixedSpace.sweptUpTo, List.find?_append, unlike]
        simp
      obtain ⟨header, here, describes⟩ := spells.space.exists_header found
      have visited := spells.visit consistent split here describes
      have previous : sweeping.space.previous slot.start = header.previous := by
        rw [LinkedSpace.previous, here, Option.bind_some]
      rw [previous, ← previous_visit sweeping destroy slot.start header] at chained
      obtain ⟨done, sweeps, ends⟩ :=
        ih (split.trans (by simp)) (Nat.le_of_succ_le_succ enough) chained visited
      refine ⟨done, ?_, ends⟩
      rw [LinkedSweep.onward, here]
      exact sweeps

end Step

end LinkedSweep

-----------------------------------------------------------------------------------------
-- All changes
-----------------------------------------------------------------------------------------

namespace LinkedSpace

/-- A sweep along the links does what sweeping all slots does. -/
theorem Spells.sweep {linked : LinkedSpace δ} {space : FixedSpace δ} (spells : linked.Spells space)
    (consistent : space.Consistent)
    {destroy : δ → Address → List Word → σ → Reply σ (List Word)} {host : σ} {swept : Swept σ δ}
    (sweeps : space.sweep destroy host = .ok swept)
    : ∃ done, linked.sweep destroy host = .ok done ∧ done.Spells swept := by
  rw [← FixedSpace.sweptUpTo_slots sweeps]
  have enough : space.slots.length ≤ linked.arena.size := by
    rw [spells.arena]
    exact consistent.stacked.length_le
  exact LinkedSweep.Spells.onward consistent (List.nil_append _).symm enough spells.chain
    ⟨spells, rfl, rfl, rfl⟩

/-- Links spell out an empty space. -/
theorem spells_empty : ({} : LinkedSpace δ).Spells {} where
  arena := rfl
  classes := rfl
  recent := rfl
  liveObjects := rfl
  liveWords := rfl
  headers _ := rfl
  chain := rfl
  lists sizeClass executable := by simp [FreeLists.get, Chained]

/-- Links go on to spell out a space through every change. -/
theorem Spells.apply {linked : LinkedSpace δ} {space next : FixedSpace δ}
    (spells : linked.Spells space) (consistent : space.Consistent)
    (change : FixedSpace.Change σ δ) (applied : change.apply space = .ok next)
    : ∃ done, change.applyLinked linked = .ok done ∧ done.Spells next := by
  cases change with
  | allocate words positive destructor executable =>
      cases applied
      exact ⟨_, rfl, (spells.allocate consistent words destructor executable).2⟩
  | overwrite offset word =>
      cases applied
      exact ⟨_, rfl, spells.overwrite offset word⟩
  | forget start =>
      cases applied
      exact ⟨_, rfl, spells.forget? start⟩
  | mark offset =>
      cases applied
      exact ⟨_, rfl, (spells.mark? consistent offset).2⟩
  | sweep destroy host =>
      cases sweeps : space.sweep destroy host with
      | error start => simp [FixedSpace.Change.apply, sweeps, Except.map] at applied
      | ok swept =>
          obtain ⟨done, follows, same⟩ := spells.sweep consistent sweeps
          rw [FixedSpace.Change.apply, sweeps] at applied
          cases applied
          exact ⟨done.space, by rw [FixedSpace.Change.applyLinked, follows]; rfl, same.space⟩
  | clearFresh =>
      cases applied
      exact ⟨_, rfl, { spells with recent := rfl }⟩

/-- Links go on to spell out a space through any changes, by one change after another. -/
theorem Spells.changed {linked : LinkedSpace δ} {space : FixedSpace δ} (spells : linked.Spells space)
    (kept : space.Kept) (changes : List (FixedSpace.Change σ δ))
    : ∃ done final,
        linked.changed changes = .ok done
        ∧ space.changed changes = .ok final
        ∧ done.Spells final
        ∧ final.Kept := by
  induction changes generalizing linked space with
  | nil => exact ⟨linked, space, rfl, rfl, spells, kept⟩
  | cons change changes ih =>
      obtain ⟨next, applied, still⟩ := kept.apply change
      obtain ⟨followed, follows, same⟩ := spells.apply kept.toConsistent change applied
      obtain ⟨done, final, rest, rest', ends⟩ := ih same still
      refine ⟨done, final, ?_, ?_, ends⟩
      · rw [LinkedSpace.changed, follows]
        exact rest
      · rw [FixedSpace.changed, applied]
        exact rest'

end LinkedSpace

end MovingHeap
