import Mathlib.Algebra.GroupWithZero.Nat
import MovingHeap.Proofs.FixedLifetime

/-! Everything that can be done to a fixed space, in any order.
Whatever was done, the slots tile the arena, the free lists hold the vacant slots and no others, and the
live objects and their words are counted, so that a sweep always comes to its end.
-/

namespace MovingHeap

variable {σ δ : Type}

namespace FixedSpace

-----------------------------------------------------------------------------------------
-- Changes
-----------------------------------------------------------------------------------------

/-- What can be done to a fixed space. Sweeping calls destructors of a host in some state. -/
inductive Change (σ δ : Type) where
  | allocate (words : Nat) (positive : 0 < words) (destructor : Option δ) (executable : Bool)
  | overwrite (offset : Nat) (word : Word)
  | forget (start : Nat)
  | mark (offset : Nat)
  | sweep (destroy : δ → Address → List Word → σ → Reply σ (List Word)) (host : σ)
  | clearFresh

/-- The space with a word written, if there is such a word. -/
def overwrite (space : FixedSpace δ) (offset : Nat) (word : Word) : FixedSpace δ :=
  if offset < space.arena.size then { space with arena := space.arena.set offset word } else space

/-- Makes a change. What is not there is not given up or marked; a sweep may find a slot that is not
valid.
-/
def Change.apply (space : FixedSpace δ) : Change σ δ → Except Nat (FixedSpace δ)
  | allocate words _ destructor executable => .ok (space.allocate words destructor executable).2
  | overwrite offset word => .ok (space.overwrite offset word)
  | forget start => .ok ((space.forget? start).getD space)
  | mark offset => .ok (((space.mark? offset).map Prod.snd).getD space)
  | sweep destroy host => (space.sweep destroy host).map Swept.space
  | clearFresh => .ok space.clearFresh

/-- Makes changes one after another, up to the first slot that is not valid. -/
def changed (space : FixedSpace δ) : List (Change σ δ) → Except Nat (FixedSpace δ)
  | [] => .ok space
  | change :: changes => do (← change.apply space).changed changes

/-- What every change keeps all changes keep, by one change after another. -/
theorem keeps_changed {holds : FixedSpace δ → Prop}
    (keeps
      : ∀ (change : Change σ δ) (before after : FixedSpace δ),
          holds before → change.apply before = .ok after → holds after)
    {space final : FixedSpace δ} {changes : List (Change σ δ)} (first : holds space)
    (done : space.changed changes = .ok final)
    : holds final := by
  induction changes generalizing space with
  | nil =>
      cases done
      exact first
  | cons change changes ih =>
      rw [FixedSpace.changed] at done
      cases applied : change.apply space with
      | error start =>
          rw [applied] at done
          cases done
      | ok next =>
          rw [applied] at done
          exact ih (keeps change space next first applied) done

/-- Changes are made in two parts. -/
theorem changed_append (space : FixedSpace δ) (earlier later : List (Change σ δ))
    : space.changed (earlier ++ later) = (do (← space.changed earlier).changed later) := by
  induction earlier generalizing space with
  | nil => rfl
  | cons change earlier ih =>
      rw [List.cons_append, FixedSpace.changed, FixedSpace.changed]
      cases change.apply space with
      | error start => rfl
      | ok next => exact ih next

/-- Marking what covers an offset sets the mark of one object or changes nothing. -/
theorem mark?_cases (space : FixedSpace δ) (offset : Nat)
    : ((space.mark? offset).map Prod.snd).getD space = space
      ∨ ∃ start,
          ((space.mark? offset).map Prod.snd).getD space
          = space.updateOccupant start ({ · with marked := true }) := by
  unfold mark?
  cases space.containing? offset with
  | none => exact .inl rfl
  | some start =>
      cases found : space.occupant? start with
      | none => simp [found]
      | some occupant =>
          simp only [Option.bind_some, found, Option.map_some, Option.getD_some]
          split_ifs
          · exact .inl rfl
          · exact .inl rfl
          · exact .inr ⟨start, rfl⟩

/-- A sweep treats each slot by itself. -/
theorem slots_sweep {space : FixedSpace δ}
    {destroy : δ → Address → List Word → σ → Reply σ (List Word)} {host : σ} {swept : Swept σ δ}
    (sweeps : space.sweep destroy host = .ok swept)
    : swept.space.slots = space.slots.map FixedSlot.swept := by
  simp only [FixedSpace.sweep] at sweeps
  split at sweeps <;> cases sweeps
  rfl

-----------------------------------------------------------------------------------------
-- Counting live objects
-----------------------------------------------------------------------------------------

/-- Words of the slots that hold objects. -/
def occupiedWords (slots : List (FixedSlot δ)) : Nat :=
  ((slots.filter FixedSlot.isLive).map FixedSlot.capacity).sum

/-- The live objects and the words of their slots are counted. -/
structure Counted (space : FixedSpace δ) : Prop where
  objects : space.liveObjects = space.slots.countP FixedSlot.isLive
  words : space.liveWords = occupiedWords space.slots

/-- One more slot. -/
theorem occupiedWords_cons (slot : FixedSlot δ) (slots : List (FixedSlot δ))
    : occupiedWords (slot :: slots)
      = (if slot.isLive then slot.capacity else 0) + occupiedWords slots := by
  cases live : slot.isLive <;> simp [occupiedWords, live]

theorem occupiedWords_append (front back : List (FixedSlot δ))
    : occupiedWords (front ++ back) = occupiedWords front + occupiedWords back := by
  simp [occupiedWords]

/-- Changes in place that let live slots live and vacant ones be keep the counts. -/
theorem Counted.map {space next : FixedSpace δ} (counted : space.Counted)
    {change : FixedSlot δ → FixedSlot δ} (slots : next.slots = space.slots.map change)
    (live : ∀ slot, (change slot).isLive = slot.isLive)
    (capacity : ∀ slot, (change slot).capacity = slot.capacity)
    (objects : next.liveObjects = space.liveObjects) (words : next.liveWords = space.liveWords)
    : next.Counted where
  objects := by
    have same : FixedSlot.isLive ∘ change = FixedSlot.isLive := funext live
    rw [objects, slots, List.countP_map, same]
    exact counted.objects
  words := by
    have same : FixedSlot.isLive ∘ change = FixedSlot.isLive := funext live
    have sizes : FixedSlot.capacity ∘ change = FixedSlot.capacity := funext capacity
    rw [words, slots, occupiedWords, List.filter_map, List.map_map, same, sizes]
    exact counted.words

/-- Objects that are changed in place are counted as before. -/
theorem Counted.updateOccupant {space : FixedSpace δ} (counted : space.Counted) (start : Nat)
    (change : Occupant δ → Occupant δ)
    : (space.updateOccupant start change).Counted := by
  refine counted.map rfl (fun slot => ?_) (fun slot => ?_) rfl rfl
  · split_ifs
    · simp [FixedSlot.isLive]
    · rfl
  · split_ifs <;> rfl

/-- No slot below another one begins where that one does. -/
theorem Stacked.start_ne {head : FixedSlot δ} {below : List (FixedSlot δ)} {top : Nat}
    (stacked : Stacked (head :: below) top) {slot : FixedSlot δ} (member : slot ∈ below)
    : slot.start ≠ head.start := by
  obtain ⟨-, -, rest⟩ := stacked
  have under := rest.stop_le member
  have spans := rest.capacity_pos member
  simp only [FixedSlot.stop] at under
  omega

/-- A slot is the only one that changes at its place, by going down the stack to it. -/
theorem Stacked.map_at {slots : List (FixedSlot δ)} {top : Nat} (stacked : Stacked slots top)
    {slot : FixedSlot δ} (member : slot ∈ slots) (change : FixedSlot δ → FixedSlot δ)
    : ∃ front back,
        slots = front ++ slot :: back
        ∧ slots.map (fun other => if other.start = slot.start then change other else other)
          = front ++ change slot :: back := by
  induction slots generalizing top with
  | nil => cases member
  | cons head below ih =>
      rcases List.mem_cons.mp member with rfl | lower
      · refine ⟨[], below, rfl, ?_⟩
        have others : below.map (fun other => if other.start = slot.start then change other else other)
            = below.map id :=
          List.map_congr_left fun other lower => if_neg (stacked.start_ne lower)
        simp [others]
      · obtain ⟨front, back, split, mapped⟩ := ih stacked.2.2 lower
        have apart : head.start ≠ slot.start := (stacked.start_ne lower).symm
        exact ⟨head :: front, back, by simp [split], by simp [apart, mapped]⟩

/-- A vacant slot that is occupied is counted. -/
theorem Counted.occupy {space : FixedSpace δ} (counted : space.Counted) {top : Nat}
    (stacked : Stacked space.slots top) {slot : FixedSlot δ} (member : slot ∈ space.slots)
    (empty : slot.occupant = none) (occupant : Occupant δ)
    : (space.occupy slot occupant).Counted := by
  obtain ⟨front, back, split, mapped⟩ :=
    stacked.map_at member fun other => { other with occupant := some occupant }
  have vacant : slot.isLive = false := by simp [FixedSlot.isLive, empty]
  have live : FixedSlot.isLive { slot with occupant := some occupant } := rfl
  have slots : (space.occupy slot occupant).slots
      = front ++ { slot with occupant := some occupant } :: back := mapped
  refine ⟨?_, ?_⟩
  · have before := counted.objects
    rw [split, List.countP_append, List.countP_cons_of_neg (by simp [vacant])] at before
    rw [slots, List.countP_append, List.countP_cons_of_pos live]
    exact (congrArg (· + 1) before).trans (by omega)
  · have before := counted.words
    rw [split, occupiedWords_append, occupiedWords_cons, vacant] at before
    rw [slots, occupiedWords_append, occupiedWords_cons, if_pos live]
    have same : FixedSlot.capacity { slot with occupant := some occupant } = slot.capacity := rfl
    simp only [Bool.false_eq_true, if_false] at before
    exact (congrArg (· + slot.capacity) before).trans (by omega)

/-- Allocation counts the object. -/
theorem Counted.allocate {space : FixedSpace δ} (counted : space.Counted)
    (consistent : space.Consistent) {words : Nat} (positive : 0 < words) (destructor : Option δ)
    (executable : Bool)
    : (space.allocate words destructor executable).2.Counted := by
  rw [FixedSpace.allocate]
  cases found : space.vacantFor? (space.classes.indexFor words) words executable with
  | some slot =>
      obtain ⟨member, -, -, empty, -⟩ := consistent.mem_of_vacantFor? found
      have reused : (space.reuse slot).Counted := ⟨counted.objects, counted.words⟩
      exact reused.occupy consistent.stacked member empty _
  | none =>
      let slot := space.extraSlot words executable
      have large := space.classes.le_capacity words
      have appended : (space.append slot).Counted := by
        refine ⟨?_, ?_⟩
        · exact counted.objects.trans (List.countP_cons_of_neg (by simp [slot, extraSlot, FixedSlot.isLive])).symm
        · exact counted.words.trans ((occupiedWords_cons slot space.slots).trans (Nat.zero_add _)).symm
      have stacked : Stacked (space.append slot).slots slot.stop :=
        ⟨rfl, Nat.lt_of_lt_of_le positive large, consistent.stacked⟩
      exact appended.occupy stacked List.mem_cons_self rfl _

/-- The words of freed slots, added one after another. -/
theorem foldl_capacity (slots : List (FixedSlot δ)) (words : Nat)
    : slots.foldl (fun words slot => words + slot.capacity) words
      = words + (slots.map FixedSlot.capacity).sum := by
  induction slots generalizing words with
  | nil => rfl
  | cons slot slots ih =>
      rw [List.foldl_cons, ih, List.map_cons, List.sum_cons]
      omega

/-- A slot is live after a sweep, or it was and held garbage. -/
theorem isLive_swept (slot : FixedSlot δ)
    : slot.swept.isLive = (slot.isLive && !slot.isGarbage) := by
  rw [FixedSlot.isLive, occupant_swept, FixedSlot.isLive, FixedSlot.isGarbage]
  cases held : slot.occupant with
  | none => rfl
  | some occupant => cases marked : occupant.marked <;> simp [marked, Option.filter]

/-- Garbage is in a live slot. -/
theorem isLive_of_isGarbage {slot : FixedSlot δ} (garbage : slot.isGarbage) : slot.isLive := by
  cases held : slot.occupant with
  | none => simp [FixedSlot.isGarbage, held] at garbage
  | some occupant => simp [FixedSlot.isLive, held]

/-- The live slots are those that stay live and those that hold garbage, by going down the stack. -/
theorem live_swept (slots : List (FixedSlot δ))
    : slots.countP FixedSlot.isLive
        = (slots.map FixedSlot.swept).countP FixedSlot.isLive
          + (slots.filter FixedSlot.isGarbage).length
      ∧ occupiedWords slots
        = occupiedWords (slots.map FixedSlot.swept)
          + ((slots.filter FixedSlot.isGarbage).map FixedSlot.capacity).sum := by
  induction slots with
  | nil => exact ⟨rfl, rfl⟩
  | cons slot slots ih =>
      obtain ⟨objects, words⟩ := ih
      rw [List.map_cons, List.countP_cons, List.countP_cons, occupiedWords_cons,
        occupiedWords_cons, isLive_swept, capacity_swept]
      cases garbage : slot.isGarbage with
      | true =>
          rw [List.filter_cons_of_pos garbage, isLive_of_isGarbage garbage, List.length_cons,
            List.map_cons, List.sum_cons]
          simp only [Bool.not_true, Bool.and_false, Bool.false_eq_true, if_true, if_false]
          omega
      | false =>
          rw [List.filter_cons_of_neg (by simp [garbage]), Bool.not_false, Bool.and_true]
          omega

/-- A sweep counts the objects that it frees. -/
theorem Counted.sweep {space : FixedSpace δ} (counted : space.Counted)
    {destroy : δ → Address → List Word → σ → Reply σ (List Word)} {host : σ} {swept : Swept σ δ}
    (sweeps : space.sweep destroy host = .ok swept)
    : swept.space.Counted := by
  obtain ⟨objects, words⟩ := live_swept space.slots
  simp only [FixedSpace.sweep] at sweeps
  split at sweeps
  · cases sweeps
  · cases sweeps
    refine ⟨?_, ?_⟩
    · simp only [counted.objects]
      omega
    · simp only [counted.words, foldl_capacity]
      omega

-----------------------------------------------------------------------------------------
-- All changes
-----------------------------------------------------------------------------------------

/-- What holds of a fixed space whatever was done to it. -/
structure Kept (space : FixedSpace δ) : Prop extends space.Consistent, space.Counted

/-- Nothing is wrong with an empty fixed space. -/
theorem kept_empty : ({} : FixedSpace δ).Kept where
  stacked := rfl
  fits := nofun
  vacantNodup _ _ := by simp [FreeLists.get]
  mem_vacant _ _ _ := by simp [FreeLists.get]
  objects := rfl
  words := rfl

/-- Every change keeps a fixed space in order, and none finds a slot that is not valid. -/
theorem Kept.apply {space : FixedSpace δ} (kept : space.Kept) (change : Change σ δ)
    : ∃ next, change.apply space = .ok next ∧ next.Kept := by
  cases change with
  | allocate words positive destructor executable =>
      obtain ⟨slot, -, -, reserves⟩ :=
        kept.reserves_allocate positive destructor executable
      exact ⟨_, rfl, reserves.consistent,
        kept.toCounted.allocate kept.toConsistent positive destructor executable⟩
  | overwrite offset word =>
      refine ⟨_, rfl, ?_⟩
      unfold overwrite
      split_ifs
      · exact ⟨⟨kept.stacked, kept.fits, kept.vacantNodup, kept.mem_vacant⟩, kept.objects,
          kept.words⟩
      · exact kept
  | forget start =>
      refine ⟨_, rfl, ?_⟩
      unfold forget?
      cases space.occupant? start with
      | none => exact kept
      | some occupant =>
          exact ⟨kept.toConsistent.updateOccupant start fun _ => rfl,
            kept.toCounted.updateOccupant start _⟩
  | mark offset =>
      refine ⟨_, rfl, ?_⟩
      rcases space.mark?_cases offset with same | ⟨start, same⟩ <;> rw [same]
      · exact kept
      · exact ⟨kept.toConsistent.updateOccupant start fun _ => rfl,
          kept.toCounted.updateOccupant start _⟩
  | sweep destroy host =>
      obtain ⟨swept, done, sweeps, -⟩ := kept.toConsistent.sweep destroy host
      exact ⟨swept.space, by simp [Change.apply, done, Except.map], sweeps.consistent,
        kept.toCounted.sweep done⟩
  | clearFresh =>
      exact ⟨_, rfl, ⟨kept.stacked, kept.fits, kept.vacantNodup, kept.mem_vacant⟩, kept.objects,
        kept.words⟩

/-- Any changes keep a fixed space in order, by one change after another. -/
theorem Kept.changed {space : FixedSpace δ} (kept : space.Kept) (changes : List (Change σ δ))
    : ∃ final, space.changed changes = .ok final ∧ final.Kept := by
  induction changes generalizing space with
  | nil => exact ⟨space, rfl, kept⟩
  | cons change changes ih =>
      obtain ⟨next, applied, still⟩ := kept.apply change
      obtain ⟨final, rest, ends⟩ := ih still
      refine ⟨final, ?_, ends⟩
      rw [FixedSpace.changed, applied]
      exact rest

-----------------------------------------------------------------------------------------
-- What can be seen
-----------------------------------------------------------------------------------------

/-- The slots tile the arena and lie below one another, each vacant one is on the list of its class and
use once and on no other list, live ones are on none, they are counted, and offsets are found in them.
-/
structure InOrder (space : FixedSpace δ) : Prop where
  tiled : Stacked space.slots space.arena.size
  descending : (space.slots.map FixedSlot.start).Pairwise fun newer older => older < newer
  vacant
    : ∀ slot ∈ space.slots,
        slot.isLive = false →
        ∀ sizeClass executable,
          (space.vacant.get sizeClass executable).count slot.start
          = if sizeClass = slot.sizeClass ∧ executable = slot.executable then 1 else 0
  live
    : ∀ slot ∈ space.slots,
        slot.isLive →
        ∀ sizeClass executable, slot.start ∉ space.vacant.get sizeClass executable
  lists
    : ∀ sizeClass executable,
        (space.vacant.get sizeClass executable).Nodup
        ∧ ∀ start ∈ space.vacant.get sizeClass executable,
            ∃ slot ∈ space.slots, slot.start = start
  counted : space.Counted
  found
    : ∀ offset start,
        space.containing? offset = some start
        ↔ ∃ slot ∈ space.slots,
            slot.start = start ∧ slot.isLive ∧ start ≤ offset ∧ offset < start + slot.capacity

/-- Older slots begin below newer ones. -/
theorem Stacked.descending {slots : List (FixedSlot δ)} {top : Nat} (stacked : Stacked slots top)
    : (slots.map FixedSlot.start).Pairwise fun newer older => older < newer := by
  apply List.pairwise_map.mpr
  refine stacked.pairwise.imp_of_mem fun {newer older} _ right apart => ?_
  have spans := stacked.capacity_pos right
  simp only [FixedSlot.stop] at apart
  omega

/-- A fixed space that is kept shows itself in order. -/
theorem Kept.inOrder {space : FixedSpace δ} (kept : space.Kept) : space.InOrder where
  tiled := kept.stacked
  descending := kept.stacked.descending
  vacant slot member empty sizeClass executable := by
    have none : slot.occupant = none := by simpa [FixedSlot.isLive] using empty
    rw [(kept.vacantNodup sizeClass executable).count]
    have listed := kept.mem_vacant sizeClass executable slot.start
    split_ifs with here there there
    · rfl
    · obtain ⟨other, inside, same, rfl, rfl, -⟩ := listed.mp here
      rw [kept.stacked.eq_of_start inside member same] at there
      exact absurd ⟨rfl, rfl⟩ there
    · exact absurd (listed.mpr ⟨slot, member, rfl, there.1.symm, there.2.symm, none⟩) here
    · rfl
  live slot member live sizeClass executable listed := by
    obtain ⟨other, inside, same, -, -, none⟩ := (kept.mem_vacant _ _ _).mp listed
    rw [kept.stacked.eq_of_start inside member same] at none
    simp [FixedSlot.isLive, none] at live
  lists sizeClass executable := by
    refine ⟨kept.vacantNodup sizeClass executable, fun start listed => ?_⟩
    obtain ⟨slot, member, same, -⟩ := (kept.mem_vacant _ _ _).mp listed
    exact ⟨slot, member, same⟩
  counted := kept.toCounted
  found offset start := by
    rw [kept.containing?_eq_some_iff]
    constructor
    · rintro ⟨slot, member, begins, live, above, below⟩
      exact ⟨slot, member, begins, live, above, begins ▸ below⟩
    · rintro ⟨slot, member, begins, live, above, below⟩
      exact ⟨slot, member, begins, live, above, by rw [FixedSlot.stop, begins]; exact below⟩

end FixedSpace

end MovingHeap
