import MovingHeap.Proofs.FixedRuns
import MovingHeap.Proofs.RecordedSlots

/-! What forwarding a value may do to memory, whatever the value is and whatever the host answers.
It copies one object at most and writes two words of it, which lie below the cursor of the region that the
object is in; besides that it writes free words of the destination only. Where it is stopped it has buried
nothing.
-/

namespace MovingHeap

variable {σ δ : Type}

namespace Regions

variable {regions before now after : Regions δ}

-----------------------------------------------------------------------------------------
-- Memory that keeps within its bounds
-----------------------------------------------------------------------------------------

/-- Every region keeps within its size, and the recorded slots lie behind the young objects. -/
structure Bounded (regions : Regions δ) : Prop where
  recorded : regions.birth.cursor ≤ regions.birth.bufferStart
  birth : regions.birth.bufferStart ≤ regions.birth.capacity
  old : regions.old.cursor ≤ regions.old.capacity
  destination : regions.destination.cursor ≤ regions.destination.capacity

/-- The allocated words of each age lie in its region. -/
theorem Bounded.origin (bounded : regions.Bounded) (young : Bool)
    : (regions.origin young).2 ≤ (regions.origin young).1.size := by
  cases young with
  | true => exact bounded.recorded.trans bounded.birth
  | false => exact bounded.old

/-- Memory at rest keeps within its bounds. -/
theorem Resting.bounded (resting : regions.Resting) : regions.Bounded where
  recorded := (Nat.le_add_right _ _).trans resting.slack
  birth := resting.birthInside
  old := resting.oldInside
  destination := by
    rw [Regions.destination, resting.target]
    exact resting.oldInside

/-- Evolution keeps memory within its bounds. -/
theorem Evolves.bounded (evolves : before.Evolves now) (bounded : before.Bounded)
    : now.Bounded where
  recorded := by
    rw [evolves.birthCursor, evolves.bufferStart]
    exact bounded.recorded
  birth := by
    rw [evolves.bufferStart, BirthRegion.capacity, evolves.birthSize]
    exact bounded.birth
  old := by
    cases full : before.isFull with
    | true =>
        rw [evolves.oldCursor full, Semispace.capacity, evolves.oldSize]
        exact bounded.old
    | false =>
        have target : now.target = none := by
          simpa [Regions.isFull] using evolves.isFull.trans full
        have destination : now.destination = now.old := by rw [Regions.destination, target]; rfl
        rw [← destination]
        exact evolves.inside bounded.destination
  destination := evolves.inside bounded.destination

/-- Every step of tracing keeps memory within its bounds. -/
theorem invariant_bounded : Invariant fun regions : Regions δ => regions.Bounded where
  fill regions words := (Collector.evolves_fillTail regions words).bounded
  relocate _ _ _ _ object young _ admitted :=
    (Collector.evolves_relocated admitted object young).bounded
  mark _ _ _ _ full done := (Evolves.mark full done).bounded
  pop _ _ _ _ bounded := ⟨bounded.recorded, bounded.birth, bounded.old, bounded.destination⟩
  store _ _ _ _ done := (Evolves.setWord? done).bounded

-----------------------------------------------------------------------------------------
-- What forwarding may do
-----------------------------------------------------------------------------------------

/-- Objects of the age are copied elsewhere: young ones always, old ones where there is a target. -/
def Evacuates (regions : Regions δ) (young : Bool) : Prop := young ∨ regions.isFull

/-- What no forwarding changes: where the allocated words end, the recorded slots, what lies above the
cursors of regions that objects are copied out of, the words of fixed objects and those of copies.
-/
structure Spares (before after : Regions δ) : Prop where
  ends : ∀ young, before.Evacuates young → (after.origin young).2 = (before.origin young).2
  recorded : after.birth.remembered = before.birth.remembered
  above
    : ∀ young index,
        before.Evacuates young →
        (before.origin young).2 ≤ index →
        (after.origin young).1.get index = (before.origin young).1.get index
  fixed : after.fixed.arena = before.fixed.arena
  copies
    : ∀ index < before.destination.cursor,
        after.destination.words.get index = before.destination.words.get index
  capacity : after.destination.capacity = before.destination.capacity

/-- No word was written of any region that objects are copied out of, but for the places. -/
def WritesOnly (before after : Regions δ) (places : Bool → Nat → Prop) : Prop :=
  ∀ young index,
    before.Evacuates young →
    ¬ places young index →
    (after.origin young).1.get index = (before.origin young).1.get index

/-- Forwarding came to its end: it buried nothing, or an object whose first two words were allocated, and
the destination lost as many free words as were counted as copied.
-/
structure Forwards (before after : Regions δ) : Prop extends before.Spares after where
  written
    : before.WritesOnly after (fun _ _ => False)
      ∨ ∃ young offset,
          before.Evacuates young
          ∧ offset + 1 < (before.origin young).2
          ∧ before.WritesOnly after fun age index =>
              age = young ∧ (index = offset ∨ index = offset + 1)
  advances
    : ∃ words,
        after.destination.cursor = before.destination.cursor + words
        ∧ after.copied = before.copied + words
  inside : after.destination.cursor ≤ after.destination.capacity

/-- Forwarding was stopped before it buried or counted anything. -/
structure Halts (before after : Regions δ) : Prop extends before.Spares after where
  unwritten : before.WritesOnly after fun _ _ => False
  cursor : after.destination.cursor = before.destination.cursor
  copied : after.copied = before.copied

/-- Why forwarding a value is stopped, and what memory is like then: the value leads nowhere, and memory
is as it was, or the host made a copy that is refused.
-/
inductive Stops (before : Regions δ) (value : Value) : Violation → Regions δ → Prop where
  | dangling : Stops before value (.danglingReference value.raw) before
  | refused {words : Nat} {after : Regions δ} (halts : before.Halts after)
      : Stops before value (.badCopy ⟨value.raw⟩ words before.destination.free) after

/-- Where only marks are set, forwarding came to its end. -/
theorem Forwards.of_fixed (bounded : before.Bounded) (arena : after.fixed.arena = before.fixed.arena)
    (same
      : after = { before with fixed := after.fixed, unscanned := after.unscanned })
    : before.Forwards after := by
  rw [same]
  refine ⟨⟨fun young _ => ?_, rfl, fun young _ _ _ => ?_, arena, fun _ _ => rfl, rfl⟩,
    Or.inl fun young _ _ _ => ?_, ⟨0, rfl, rfl⟩, bounded.destination⟩ <;> cases young <;> rfl

theorem Forwards.refl (bounded : regions.Bounded) : regions.Forwards regions :=
  .of_fixed bounded rfl rfl

-----------------------------------------------------------------------------------------
-- Where copies go
-----------------------------------------------------------------------------------------

section Destination

variable {young : Bool} (region : Semispace)

theorem evacuates_setDestination
    : (regions.setDestination region).Evacuates young ↔ regions.Evacuates young := by
  rw [Evacuates, isFull_setDestination, Evacuates]

/-- What objects are copied out of is never what they are copied to. -/
theorem origin_setDestination (evacuates : regions.Evacuates young)
    : (regions.setDestination region).origin young = regions.origin young := by
  cases young with
  | true => simp only [origin, birth_setDestination, if_true]
  | false =>
      have full : regions.isFull := evacuates.resolve_left Bool.false_ne_true
      simp [origin, setDestination, full]

/-- Nor is it once the destination was filled in and extended. -/
theorem origin_refilled (evacuates : regions.Evacuates young) (filled extended : Semispace)
    : ((regions.setDestination filled).setDestination extended).origin young
      = regions.origin young := by
  rw [origin_setDestination extended ((evacuates_setDestination filled).mpr evacuates),
    origin_setDestination filled evacuates]

end Destination

section Bury

variable {young : Bool} (offset : Nat) (forwarded : Address)

/-- A tombstone takes two words of the region that it is left in. -/
theorem origin_bury (regions : Regions δ) (young other : Bool)
    : (regions.bury young offset forwarded).origin other
      = if other = young then
          ((regions.origin young).1.setMany offset [0, forwarded.raw], (regions.origin young).2)
        else regions.origin other := by
  cases young <;> cases other <;> rfl

theorem destination_bury (evacuates : regions.Evacuates young)
    : (regions.bury young offset forwarded).destination = regions.destination := by
  cases young with
  | true => rfl
  | false =>
      have full : regions.isFull := evacuates.resolve_left Bool.false_ne_true
      obtain ⟨target, found⟩ := Option.isSome_iff_exists.mp full
      simp [bury, destination, found]

/-- A tombstone below the recorded slots is none of them. -/
theorem remembered_bury (below : young → offset + 2 ≤ regions.birth.bufferStart)
    : (regions.bury young offset forwarded).birth.remembered = regions.birth.remembered := by
  cases young with
  | true => exact BirthRegion.remembered_setMany (below rfl)
  | false => rfl

end Bury

/-- Filling free words of the destination buries nothing. -/
theorem halts_fillTail (regions : Regions δ) (words : List Word)
    : regions.Halts (regions.setDestination (regions.destination.fillTail words)) := by
  let filled := regions.destination.fillTail words
  refine ⟨⟨?_, ?_, ?_, ?_, ?_, ?_⟩, ?_, ?_, copied_setDestination regions filled⟩
  · exact fun young evacuates => congrArg Prod.snd (origin_setDestination filled evacuates)
  · rw [birth_setDestination]
  · exact fun young index evacuates _ =>
      congrArg (·.1.get index) (origin_setDestination filled evacuates)
  · rw [fixed_setDestination]
  · intro index allocated
    rw [destination_setDestination]
    exact Semispace.get_fillTail_allocated _ _ allocated
  · rw [destination_setDestination, Semispace.capacity_fillTail]
  · exact fun young index evacuates _ =>
      congrArg (·.1.get index) (origin_setDestination filled evacuates)
  · rw [destination_setDestination]
    rfl

/-- A copy is refused whose number of words cannot be right. -/
theorem admit?_eq_none {region : Semispace} {words : Nat} (inside : region.cursor ≤ region.capacity)
    (wrong : words < minObjectWords ∨ region.free < words)
    : admit? region words = none := by
  unfold admit? Semispace.bump?
  unfold Semispace.free at wrong
  split_ifs
  · omega
  · rfl
  · rfl

/-- Any other copy is refused only if it begins like a tombstone. -/
theorem admit?_eq_bump? {region : Semispace} {words : Nat}
    (right : ¬ (words < minObjectWords ∨ region.free < words))
    : admit? region words
      = if region.words.get region.cursor = 0 then none else region.bump? words := by
  have least : minObjectWords ≤ words := Nat.le_of_not_lt fun short => right (.inl short)
  simp only [admit?, least, true_and, ne_eq, ite_not]

section Relocated

variable {young : Bool} (evacuates : regions.Evacuates young) (filled extended : Semispace)
  (object : Address) (count : Nat)

include evacuates

/-- What objects are copied out of, once one of them was copied and buried. -/
theorem origin_relocated {other : Bool} (evacuated : regions.Evacuates other)
    : (Collector.relocated regions filled extended object young count).origin other
      = if other = young then
          ((regions.origin young).1.setMany object.offset [0, regions.destination.next.raw],
            (regions.origin young).2)
        else regions.origin other := by
  have buried := origin_bury object.offset regions.destination.next
    ((regions.setDestination filled).setDestination extended) young other
  rw [origin_refilled evacuates, origin_refilled evacuated] at buried
  exact buried

theorem destination_relocated
    : (Collector.relocated regions filled extended object young count).destination = extended := by
  have evacuates' : ((regions.setDestination filled).setDestination extended).Evacuates young := by
    rwa [evacuates_setDestination, evacuates_setDestination]
  exact (destination_bury object.offset regions.destination.next evacuates').trans
    (destination_setDestination _ _)

theorem writesOnly_relocated
    : regions.WritesOnly (Collector.relocated regions filled extended object young count)
        fun age index => age = young ∧ (index = object.offset ∨ index = object.offset + 1) := by
  intro age index evacuated elsewhere
  rw [origin_relocated evacuates filled extended object count evacuated]
  split_ifs with same
  · subst same
    refine Arena.get_setMany_outside _ ?_
    simp only [true_and, not_or] at elsewhere
    simp only [List.length_cons, List.length_nil]
    omega
  · rfl

/-- An object that is copied and buried spares all the rest, as its first two words were allocated. -/
theorem spares_relocated (bounded : regions.Bounded)
    (below : object.offset + 1 < (regions.origin young).2)
    (capacity : extended.capacity = regions.destination.capacity)
    (copies
      : ∀ index < regions.destination.cursor,
          extended.words.get index = regions.destination.words.get index)
    : regions.Spares (Collector.relocated regions filled extended object young count) where
  ends other evacuated := by
    rw [origin_relocated evacuates filled extended object count evacuated]
    split_ifs with same
    · rw [same]
    · rfl
  recorded := by
    have recorded := bounded.recorded
    refine (remembered_bury object.offset regions.destination.next fun birth => ?_).trans ?_
    · subst birth
      simp only [birth_setDestination]
      exact (show object.offset + 2 ≤ regions.birth.cursor from below).trans recorded
    · simp only [birth_setDestination]
  above other index evacuated above := by
    refine writesOnly_relocated evacuates filled extended object count other index evacuated ?_
    rintro ⟨rfl, first | second⟩ <;> omega
  fixed := by simp only [Collector.relocated, fixed_bury, fixed_setDestination]
  copies index allocated := by
    rw [destination_relocated evacuates]
    exact copies index allocated
  capacity := by rw [destination_relocated evacuates, capacity]

end Relocated

/-- An object whose first two words are allocated was copied and buried. -/
theorem forwards_relocated {young : Bool} {written : List Word} {extended : Semispace} {count : Nat}
    {object : Address} (bounded : regions.Bounded) (evacuates : regions.Evacuates young)
    (below : object.offset + 1 < (regions.origin young).2)
    (admitted : admit? (regions.destination.fillTail written) count = some extended)
    : regions.Forwards
        (Collector.relocated regions (regions.destination.fillTail written) extended object young
          count) := by
  obtain ⟨rfl, room⟩ := admit?_eq_some admitted
  have destination := destination_relocated evacuates (regions.destination.fillTail written)
    { regions.destination.fillTail written with
      cursor := regions.destination.cursor + count } object count
  refine ⟨spares_relocated evacuates _ _ _ _ bounded below (Semispace.capacity_fillTail _ _) ?_,
    Or.inr ⟨young, object.offset, evacuates, below, writesOnly_relocated evacuates _ _ _ _⟩,
    ⟨count, congrArg Semispace.cursor destination, Collector.copied_relocated _ _ _ _ _ _⟩, ?_⟩
  · exact fun index allocated => Semispace.get_fillTail_allocated _ _ allocated
  · exact (congrArg Semispace.cursor destination).trans_le
      (room.trans_eq (congrArg Semispace.capacity destination).symm)

end Regions

-----------------------------------------------------------------------------------------
-- Forwarding
-----------------------------------------------------------------------------------------

/-- Marking writes no word of fixed objects. -/
theorem FixedSpace.arena_of_mark? {space next : FixedSpace δ} {offset : Nat} {mark : Mark}
    (done : space.mark? offset = some (mark, next))
    : next.arena = space.arena := by
  have cases := space.mark?_cases offset
  rw [done] at cases
  rcases cases with same | ⟨start, same⟩
  · rw [show next = space from same]
  · rw [show next = space.updateOccupant start _ from same]
    rfl

namespace Collector

variable {site : Site σ δ} (bounded : site.regions.Bounded)

include bounded

/-- An object is copied where its first two words are allocated. -/
theorem forwards_evacuate (host : Host σ δ) (object : Address) {young : Bool}
    (evacuates : site.regions.Evacuates young)
    : Runs (evacuate host object young) site (fun _ final => site.regions.Forwards final.regions)
        fun violation final => site.regions.Stops object.toValue violation final.regions := by
  simp only [evacuate, relocate, runs_bind, runs_get, runs_ite, Site.runs_stop, Site.runs_accept,
    Site.runs_modifyRegions, Site.runs_require]
  split_ifs with outside
  · exact .dangling
  · split
    · exact .refl bounded
    · exact .dangling
  · split
    next extended admitted =>
      exact Regions.forwards_relocated bounded evacuates (by omega) admitted
    next refused => exact .refused (Regions.halts_fillTail _ _)

theorem forwards_markFixed (addr : Address)
    : Runs (markFixed addr) site (fun _ final => site.regions.Forwards final.regions)
        fun violation final => site.regions.Stops addr.toValue violation final.regions := by
  simp only [markFixed, runs_bind, runs_get, Site.runs_require]
  split
  next found done =>
    obtain ⟨mark, fixed⟩ := found
    have arena := FixedSpace.arena_of_mark? done
    cases mark <;>
      simp only [runs_bind, Site.runs_modifyRegions, runs_pure] <;>
      exact .of_fixed bounded arena rfl
  next missing => exact .dangling

/-- Whatever the value is and the host answers, forwarding the value comes to an end that it may come to,
or it is stopped as it may be.
-/
theorem forwards_forward (host : Host σ δ) (value : Value)
    : Runs (forward host value) site (fun _ final => site.regions.Forwards final.regions)
        fun violation final => site.regions.Stops value violation final.regions := by
  unfold forward
  split
  next => exact .refl bounded
  next addr decoded =>
    obtain rfl := Value.toValue_of_address? decoded
    simp only [runs_bind, runs_get]
    split
    · rw [runs_map]
      exact forwards_evacuate bounded host addr (.inl rfl)
    · split_ifs
      · exact forwards_markFixed bounded addr
      · exact .refl bounded
    · split_ifs with old
      · rw [runs_map]
        exact forwards_evacuate bounded host addr (.inr old.1)
      · exact .refl bounded

end Collector

end MovingHeap
