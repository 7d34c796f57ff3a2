import Mathlib.Logic.Function.Basic
import MovingHeap.Proofs.FixedRuns

/-! The fixed space by headers and links.
A table has a header for each slot. Each leads to the slot that was appended before, and a vacant one to
the next on its list. The slots of a fixed space, in order, and its lists are what the links spell out,
as long as everything is done to both.
-/

namespace MovingHeap

variable {σ δ : Type}

/-- Links lead from the first of some places to the next and end behind the last. -/
def Chained (link : Nat → Option Nat) : Option Nat → List Nat → Prop
  | first, [] => first = none
  | first, place :: rest => first = some place ∧ Chained link (link place) rest

/-- What is kept of a slot, with its links. -/
structure SlotHeader (δ : Type) where
  capacity : Nat
  sizeClass : Nat
  executable : Bool
  occupant : Option (Occupant δ) := none
  /-- The slot that was appended before. -/
  previous : Option Nat
  /-- The next slot on the same list of vacant ones. -/
  next : Option Nat := none

/-- The slot that a header describes. -/
def SlotHeader.slot (start : Nat) (header : SlotHeader δ) : FixedSlot δ where
  start
  capacity := header.capacity
  sizeClass := header.sizeClass
  executable := header.executable
  occupant := header.occupant

/-- A fixed space with a table of headers in place of slots, and the first of each list of vacant ones. -/
structure LinkedSpace (δ : Type) where
  arena : Arena := Arena.zeroed 0
  classes : SizeClasses := SizeClasses.standard
  headers : Nat → Option (SlotHeader δ) := fun _ => none
  firstVacant : Nat → Bool → Option Nat := fun _ _ => none
  /-- The slot that was appended last. -/
  last : Option Nat := none
  recent : List Nat := []
  liveObjects : Nat := 0
  liveWords : Nat := 0

/-- A space that is being swept and what sweeping did so far. -/
structure LinkedSweep (σ δ : Type) where
  space : LinkedSpace δ
  outcome : SweepOutcome
  host : σ
  notes : List String

namespace LinkedSpace

-----------------------------------------------------------------------------------------
-- Headers
-----------------------------------------------------------------------------------------

/-- The slot appended before the one at a place. -/
def previous (space : LinkedSpace δ) (start : Nat) : Option Nat :=
  (space.headers start).bind SlotHeader.previous

/-- The slot behind the one at a place on its list. -/
def next (space : LinkedSpace δ) (start : Nat) : Option Nat :=
  (space.headers start).bind SlotHeader.next

/-- The object at a place. -/
def occupant? (space : LinkedSpace δ) (start : Nat) : Option (Occupant δ) :=
  (space.headers start).bind SlotHeader.occupant

/-- Changes the header at a place. -/
def update (space : LinkedSpace δ) (start : Nat) (change : SlotHeader δ → SlotHeader δ)
    : LinkedSpace δ :=
  { space with
    headers := Function.update space.headers start ((space.headers start).map change) }

/-- Changes the object at a place. -/
def updateOccupant (space : LinkedSpace δ) (start : Nat) (change : Occupant δ → Occupant δ)
    : LinkedSpace δ :=
  space.update start fun header => { header with occupant := header.occupant.map change }

/-- Replaces the first slot of a list. -/
def setFirst (space : LinkedSpace δ) (sizeClass : Nat) (executable : Bool) (first : Option Nat)
    : LinkedSpace δ :=
  { space with
    firstVacant :=
      fun other use =>
        if other = sizeClass ∧ use = executable then first else space.firstVacant other use }

/-- The last place with a header, at an offset or below. -/
def nearest? (headers : Nat → Option (SlotHeader δ)) : Nat → Option Nat
  | 0 => (headers 0).map fun _ => 0
  | offset + 1 =>
      if (headers (offset + 1)).isSome then some (offset + 1) else nearest? headers offset

/-- The start of the object around an offset. -/
def containing? (space : LinkedSpace δ) (offset : Nat) : Option Nat :=
  (nearest? space.headers offset).bind fun start =>
    (space.headers start).bind fun header =>
      if header.occupant.isSome && offset < start + header.capacity then some start else none

-----------------------------------------------------------------------------------------
-- Changes
-----------------------------------------------------------------------------------------

/-- Walks along a list to the first slot that is large enough, and answers it with the one before it. No
list has more slots than steps are given.
-/
def walk (space : LinkedSpace δ) (words : Nat)
    : (steps : Nat) → (before current : Option Nat) → Option (Option Nat × Nat)
  | _, _, none => none
  | 0, _, some _ => none
  | steps + 1, before, some start =>
      (space.headers start).bind fun header =>
        if words ≤ header.capacity then some (before, start)
        else space.walk words steps (some start) header.next

/-- Takes a slot off its list: what led to it leads to the one behind it. -/
def unlink (space : LinkedSpace δ) (sizeClass : Nat) (executable : Bool) (before : Option Nat)
    (start : Nat)
    : LinkedSpace δ :=
  match before with
  | some before => space.update before ({ · with next := space.next start })
  | none => space.setFirst sizeClass executable (space.next start)

/-- Takes the first slot that is large enough off a list and zeroes it. -/
def takeVacant? (space : LinkedSpace δ) (sizeClass words : Nat) (executable : Bool)
    : Option (Nat × LinkedSpace δ) := do
  let (before, start) ←
    space.walk words space.arena.size none (space.firstVacant sizeClass executable)
  let header ← space.headers start
  let taken := (space.unlink sizeClass executable before start).update start ({ · with next := none })
  return (start, { taken with arena := taken.arena.clear start header.capacity })

/-- Appends a vacant slot to the arena. -/
def append (space : LinkedSpace δ) (capacity sizeClass : Nat) (executable : Bool)
    : LinkedSpace δ :=
  { space with
    arena := space.arena.grow capacity
    headers := Function.update space.headers space.arena.size
      (some { capacity, sizeClass, executable, previous := space.last })
    last := some space.arena.size }

/-- Puts an object into the slot at a place. -/
def occupy (space : LinkedSpace δ) (start : Nat) (executable : Bool) (occupant : Occupant δ)
    : LinkedSpace δ :=
  let words := ((space.headers start).map SlotHeader.capacity).getD 0
  { space.update start ({ · with executable, occupant := some occupant }) with
    recent := start :: space.recent
    liveObjects := space.liveObjects + 1
    liveWords := space.liveWords + words }

/-- Reserves a zeroed slot of at least `words`; answers its start. -/
def allocate (space : LinkedSpace δ) (words : Nat) (destructor : Option δ) (executable : Bool)
    : Nat × LinkedSpace δ :=
  let sizeClass := space.classes.indexFor words
  let (start, reserved) :=
    (space.takeVacant? sizeClass words executable).getD
      (space.arena.size,
        space.append (space.classes.capacity sizeClass words) sizeClass executable)
  (start, reserved.occupy start executable { words, destructor })

/-- Gives up on the object at a place, if there is one. -/
def forget? (space : LinkedSpace δ) (start : Nat) : Option (LinkedSpace δ) :=
  (space.occupant? start).map fun _ =>
    space.updateOccupant start ({ · with destructor := none, forgotten := true })

/-- Marks the object around an offset, if there is one. -/
def mark? (space : LinkedSpace δ) (offset : Nat) : Option (Mark × LinkedSpace δ) :=
  (space.containing? offset).bind fun start =>
    (space.occupant? start).map fun occupant =>
      if occupant.forgotten then (.forgotten, space)
      else if occupant.marked then (.already, space)
      else (.fresh start, space.updateOccupant start ({ · with marked := true }))

/-- Writes a word of the arena, if there is such a word. -/
def overwrite (space : LinkedSpace δ) (offset : Nat) (word : Word) : LinkedSpace δ :=
  if offset < space.arena.size then { space with arena := space.arena.set offset word } else space

/-- Forgets which objects are fresh. -/
def clearFresh (space : LinkedSpace δ) : LinkedSpace δ := { space with recent := [] }

/-- Frees the slot at a place: it goes to the front of its list. -/
def vacate (space : LinkedSpace δ) (start : Nat) (header : SlotHeader δ) : LinkedSpace δ :=
  let first := space.firstVacant header.sizeClass header.executable
  { (space.update start ({ · with occupant := none, next := first })).setFirst header.sizeClass
      header.executable (some start) with
    liveObjects := space.liveObjects - 1
    liveWords := space.liveWords - header.capacity }

end LinkedSpace

-----------------------------------------------------------------------------------------
-- Sweeping
-----------------------------------------------------------------------------------------

namespace LinkedSweep

/-- Calls the destructor of an object, if it has one. -/
def destroyed (sweeping : LinkedSweep σ δ)
    (destroy : δ → Address → List Word → σ → Reply σ (List Word)) (start : Nat)
    (occupant : Occupant δ)
    : LinkedSweep σ δ :=
  match occupant.destructor with
  | none => sweeping
  | some destructor =>
      let arena := sweeping.space.arena
      let reply :=
        destroy destructor (.pack .fixed start) (arena.words start occupant.words) sweeping.host
      { space :=
          { sweeping.space with
            arena := arena.setMany start (reply.answer.take occupant.words) }
        outcome := { sweeping.outcome with destroyed := sweeping.outcome.destroyed + 1 }
        host := reply.host
        notes := sweeping.notes ++ reply.notes }

/-- Frees the slot at a place. -/
def vacated (sweeping : LinkedSweep σ δ) (start : Nat) (header : SlotHeader δ) : LinkedSweep σ δ :=
  { sweeping with
    space := sweeping.space.vacate start header
    outcome := { sweeping.outcome with
      reclaimed := sweeping.outcome.reclaimed + 1
      reclaimedWords := sweeping.outcome.reclaimedWords + header.capacity } }

/-- Sweeps one slot: a mark is cleared, and an object without one destroyed. -/
def visit (sweeping : LinkedSweep σ δ)
    (destroy : δ → Address → List Word → σ → Reply σ (List Word)) (start : Nat)
    (header : SlotHeader δ)
    : LinkedSweep σ δ :=
  match header.occupant with
  | none => sweeping
  | some occupant =>
      if occupant.marked then
        { sweeping with
          space := sweeping.space.updateOccupant start ({ · with marked := false }) }
      else (sweeping.destroyed destroy start occupant).vacated start header

/-- Sweeps slots from one on back to the first. A place without a header stops the sweep. -/
def onward (destroy : δ → Address → List Word → σ → Reply σ (List Word))
    : (steps : Nat) → Option Nat → LinkedSweep σ δ → Except Nat (LinkedSweep σ δ)
  | _, none, sweeping => .ok sweeping
  | 0, some start, _ => .error start
  | steps + 1, some start, sweeping =>
      match sweeping.space.headers start with
      | none => .error start
      | some header => onward destroy steps header.previous (sweeping.visit destroy start header)

end LinkedSweep

/-- Frees every object that is not marked, from the slot that was appended last back to the first. -/
def LinkedSpace.sweep (space : LinkedSpace δ)
    (destroy : δ → Address → List Word → σ → Reply σ (List Word)) (host : σ)
    : Except Nat (LinkedSweep σ δ) :=
  LinkedSweep.onward destroy space.arena.size space.last
    { space
      outcome := { reclaimed := 0, reclaimedWords := 0, destroyed := 0 }
      host
      notes := [] }

/-- Makes a change to headers and links. -/
def FixedSpace.Change.applyLinked (space : LinkedSpace δ)
    : FixedSpace.Change σ δ → Except Nat (LinkedSpace δ)
  | .allocate words _ destructor executable => .ok (space.allocate words destructor executable).2
  | .overwrite offset word => .ok (space.overwrite offset word)
  | .forget start => .ok ((space.forget? start).getD space)
  | .mark offset => .ok (((space.mark? offset).map Prod.snd).getD space)
  | .sweep destroy host => (space.sweep destroy host).map LinkedSweep.space
  | .clearFresh => .ok space.clearFresh

/-- Makes changes one after another, up to the first place without a header. -/
def LinkedSpace.changed (space : LinkedSpace δ)
    : List (FixedSpace.Change σ δ) → Except Nat (LinkedSpace δ)
  | [] => .ok space
  | change :: changes => do (← change.applyLinked space).changed changes

-----------------------------------------------------------------------------------------
-- Chains
-----------------------------------------------------------------------------------------

namespace Chained

variable {link other : Nat → Option Nat} {first : Option Nat} {places : List Nat}

/-- Other links chain the same places if they lead on alike, by induction along the places. -/
theorem congr (chained : Chained link first places)
    (same : ∀ place ∈ places, other place = link place)
    : Chained other first places := by
  induction places generalizing first with
  | nil => exact chained
  | cons place rest ih =>
      obtain ⟨here, onward⟩ := chained
      refine ⟨here, ?_⟩
      rw [same place List.mem_cons_self]
      exact ih onward fun later member => same later (List.mem_cons_of_mem _ member)

/-- Links chain one list of places at most, by induction along one of two. -/
theorem unique {others : List Nat} (chained : Chained link first places)
    (again : Chained link first others)
    : places = others := by
  induction places generalizing first others with
  | nil =>
      cases others with
      | nil => rfl
      | cons => exact absurd (Eq.trans (Eq.symm chained) again.1) (by simp)
  | cons place rest ih =>
      cases others with
      | nil => exact absurd (Eq.trans (Eq.symm again) chained.1) (by simp)
      | cons place' rest' =>
          obtain rfl := Option.some.inj (chained.1.symm.trans again.1)
          rw [ih chained.2 again.2]

/-- What is chained behind some places is chained by itself. -/
theorem behind {front : List Nat} {place : Nat} {rest : List Nat}
    (chained : Chained link first (front ++ place :: rest))
    : Chained link (some place) (place :: rest) := by
  induction front generalizing first with
  | nil => exact ⟨rfl, chained.2⟩
  | cons _ _ ih => exact ih chained.2

/-- Links that come to an end go in no circle. -/
theorem nodup (chained : Chained link first places) : places.Nodup := by
  induction places generalizing first with
  | nil => exact List.nodup_nil
  | cons place rest ih =>
      refine List.nodup_cons.mpr ⟨fun again => ?_, ih chained.2⟩
      obtain ⟨front, back, rfl⟩ := List.append_of_mem again
      -- a place that comes again is followed by itself and all that came before
      have first : Chained link (some place) (place :: (front ++ place :: back)) := ⟨rfl, chained.2⟩
      have second : Chained link (some place) (place :: back) := chained.2.behind
      have same := first.unique second
      have longer := congrArg List.length same
      simp at longer
      omega

/-- A place is taken out of the middle by leading from the one before it to the one behind it. -/
theorem erase_behind {front back : List Nat} {before place : Nat}
    (chained : Chained link first (front ++ before :: place :: back))
    (leads : other before = link place)
    (same : ∀ place ∈ front ++ back, other place = link place)
    : Chained other first (front ++ before :: back) := by
  induction front generalizing first with
  | nil =>
      refine ⟨chained.1, ?_⟩
      rw [leads]
      exact chained.2.2.congr fun place member => same place (by simpa using member)
  | cons head front ih =>
      refine ⟨chained.1, ?_⟩
      rw [same head (by simp)]
      exact ih chained.2 fun place member => same place (List.mem_cons_of_mem _ member)

end Chained

end MovingHeap
