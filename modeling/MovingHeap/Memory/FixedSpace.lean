import MovingHeap.Memory.Arena
import MovingHeap.Memory.SizeClasses
import MovingHeap.Reply
import MovingHeap.Value

/-! Memory whose objects never move.
Slots lie back to back in one growing arena; what describes them is kept beside it, so every payload
word is the host's. A slot keeps its size class for good and is reused through the free list of its
class; objects that hold code use free lists of their own.
-/

namespace MovingHeap

/-- The object in a slot. The destructor is whatever the host uses to tell its destructors apart. -/
structure Occupant (δ : Type) where
  /-- Words that were asked for. -/
  words : Nat
  destructor : Option δ
  marked : Bool := false
  /-- Given up by the host: references to it are cleared, its destructor never runs. -/
  forgotten : Bool := false
  deriving DecidableEq, Repr

/-- A stretch of the arena that holds at most one object. -/
structure FixedSlot (δ : Type) where
  start : Nat
  capacity : Nat
  sizeClass : Nat
  /-- Whether the slot belongs to the free lists for code. -/
  executable : Bool
  occupant : Option (Occupant δ) := none
  deriving DecidableEq, Repr

namespace FixedSlot

variable {δ : Type}

/-- Whether the slot holds an object. -/
def isLive (slot : FixedSlot δ) : Bool := slot.occupant.isSome

/-- The first offset behind the slot. -/
def stop (slot : FixedSlot δ) : Nat := slot.start + slot.capacity

/-- Whether the slot lies in an arena of `size` words and its object in the slot. -/
def isValid (slot : FixedSlot δ) (size : Nat) : Bool :=
  slot.stop ≤ size && slot.occupant.all fun occupant => occupant.words ≤ slot.capacity

/-- Whether sweeping frees the slot: it holds an object that was not marked. -/
def isGarbage (slot : FixedSlot δ) : Bool :=
  slot.occupant.any fun occupant => !occupant.marked

/-- The slot after a sweep: garbage is gone, marks are cleared. -/
def swept (slot : FixedSlot δ) : FixedSlot δ :=
  if slot.isGarbage then { slot with occupant := none }
  else { slot with
    occupant := slot.occupant.map fun occupant => { occupant with marked := false } }

end FixedSlot

/-- Vacant slots by size class and use, each list in the order of reuse. -/
structure FreeLists where
  lists : Std.TreeMap Nat (List Nat) := ∅

namespace FreeLists

/-- Classes and uses, numbered. -/
def key (sizeClass : Nat) (executable : Bool) : Nat := 2 * sizeClass + executable.toNat

/-- The starts of the vacant slots of a class and use. -/
def get (free : FreeLists) (sizeClass : Nat) (executable : Bool) : List Nat :=
  free.lists.getD (key sizeClass executable) []

/-- Replaces one list. -/
def set (free : FreeLists) (sizeClass : Nat) (executable : Bool) (starts : List Nat)
    : FreeLists :=
  ⟨free.lists.insert (key sizeClass executable) starts⟩

/-- Puts a slot at the front of its list. -/
def push {δ : Type} (free : FreeLists) (slot : FixedSlot δ) : FreeLists :=
  free.set slot.sizeClass slot.executable
    (slot.start :: free.get slot.sizeClass slot.executable)

/-- Different classes and uses have different lists. -/
theorem key_eq_iff (sizeClass sizeClass' : Nat) (executable executable' : Bool)
    : key sizeClass executable = key sizeClass' executable'
      ↔ sizeClass = sizeClass' ∧ executable = executable' := by
  cases executable <;> cases executable' <;> simp [key] <;> omega

/-- Replacing a list is seen by its class and use and by no other. -/
theorem get_set (free : FreeLists) (sizeClass sizeClass' : Nat) (executable executable' : Bool)
    (starts : List Nat)
    : (free.set sizeClass executable starts).get sizeClass' executable'
      = if sizeClass = sizeClass' ∧ executable = executable' then starts
        else free.get sizeClass' executable' := by
  simp [get, set, Std.TreeMap.getD_insert, key_eq_iff]

end FreeLists

/-- What became of a reference into the fixed space when it was marked. -/
inductive Mark where
  /-- The object at this start was reached for the first time. -/
  | fresh (start : Nat)
  | already
  /-- Forgotten objects are never followed. -/
  | forgotten
  deriving DecidableEq, Repr

/-- What a sweep did. -/
structure SweepOutcome where
  /-- Objects freed. -/
  reclaimed : Nat
  /-- Words of the slots they were in. -/
  reclaimedWords : Nat
  /-- Destructors called. -/
  destroyed : Nat
  deriving DecidableEq, Repr

/-- The slots, newest first and so by descending start, and what finds them again. -/
structure FixedSpace (δ : Type) where
  arena : Arena := Arena.zeroed 0
  classes : SizeClasses := SizeClasses.standard
  slots : List (FixedSlot δ) := []
  vacant : FreeLists := {}
  /-- Starts of the objects allocated since they were last asked for, newest first. -/
  recent : List Nat := []
  liveObjects : Nat := 0
  liveWords : Nat := 0

/-- A swept space together with what sweeping did to the host. -/
structure Swept (σ δ : Type) where
  space : FixedSpace δ
  outcome : SweepOutcome
  host : σ
  notes : List String

namespace FixedSpace

variable {σ δ : Type}

/-- The slot that begins at `start`. -/
def slot? (space : FixedSpace δ) (start : Nat) : Option (FixedSlot δ) :=
  space.slots.find? (·.start == start)

/-- The slot that begins at `start`, if it holds an object. -/
def liveSlot? (space : FixedSpace δ) (start : Nat) : Option (FixedSlot δ) :=
  (space.slot? start).filter (·.isLive)

/-- The object that begins at `start`. -/
def occupant? (space : FixedSpace δ) (start : Nat) : Option (Occupant δ) :=
  (space.slot? start).bind (·.occupant)

/-- The start of the live slot that covers `offset`. -/
def containing? (space : FixedSpace δ) (offset : Nat) : Option Nat :=
  (space.slots.find? (·.start ≤ offset)).bind fun slot =>
    if slot.isLive && offset < slot.stop then some slot.start else none

/-- Changes the slot that begins at `start`. -/
def updateSlot (space : FixedSpace δ) (start : Nat) (change : FixedSlot δ → FixedSlot δ)
    : FixedSpace δ :=
  { space with slots := space.slots.map fun slot =>
      if slot.start = start then change slot else slot }

/-- Changes the object that begins at `start`. -/
def updateOccupant (space : FixedSpace δ) (start : Nat) (change : Occupant δ → Occupant δ)
    : FixedSpace δ :=
  space.updateSlot start fun slot => { slot with occupant := slot.occupant.map change }

/-- The first vacant slot of a class and use that holds `words`. -/
def vacantFor? (space : FixedSpace δ) (sizeClass words : Nat) (executable : Bool)
    : Option (FixedSlot δ) :=
  (space.vacant.get sizeClass executable).findSome? fun start =>
    (space.slot? start).filter (words ≤ ·.capacity)

/-- Takes a vacant slot off its list and zeroes it. -/
def reuse (space : FixedSpace δ) (slot : FixedSlot δ) : FixedSpace δ :=
  { space with
    arena := space.arena.clear slot.start slot.capacity
    vacant := space.vacant.set slot.sizeClass slot.executable
      ((space.vacant.get slot.sizeClass slot.executable).erase slot.start) }

/-- Appends a slot to the arena. -/
def append (space : FixedSpace δ) (slot : FixedSlot δ) : FixedSpace δ :=
  { space with
    arena := space.arena.grow slot.capacity
    slots := slot :: space.slots }

/-- Puts an object into the slot at `start`. -/
def occupy (space : FixedSpace δ) (slot : FixedSlot δ) (occupant : Occupant δ) : FixedSpace δ :=
  { space.updateSlot slot.start ({ · with occupant := some occupant }) with
    recent := slot.start :: space.recent
    liveObjects := space.liveObjects + 1
    liveWords := space.liveWords + slot.capacity }

/-- Reserves a zeroed slot of at least `words`; answers its start. -/
def allocate (space : FixedSpace δ) (words : Nat) (destructor : Option δ) (executable : Bool)
    : Nat × FixedSpace δ :=
  let sizeClass := space.classes.indexFor words
  let occupant := { words, destructor }
  match space.vacantFor? sizeClass words executable with
  | some slot => (slot.start, (space.reuse slot).occupy slot occupant)
  | none =>
      let slot :=
        { start := space.arena.size, capacity := space.classes.capacity sizeClass words,
          sizeClass, executable }
      (slot.start, (space.append slot).occupy slot occupant)

/-- Gives up on the object that begins at `start`, if there is one. -/
def forget? (space : FixedSpace δ) (start : Nat) : Option (FixedSpace δ) :=
  (space.occupant? start).map fun _ =>
    space.updateOccupant start ({ · with destructor := none, forgotten := true })

/-- Marks the object that covers `offset`, if there is one. -/
def mark? (space : FixedSpace δ) (offset : Nat) : Option (Mark × FixedSpace δ) :=
  (space.containing? offset).bind fun start =>
    (space.occupant? start).map fun occupant =>
      if occupant.forgotten then (.forgotten, space)
      else if occupant.marked then (.already, space)
      else (.fresh start, space.updateOccupant start ({ · with marked := true }))

/-- Calls the destructors of freed slots in turn; each may overwrite its own payload. -/
def runDestructors (destroy : δ → Address → List Word → σ → Reply σ (List Word))
    : List (FixedSlot δ) → Arena → σ → Arena × σ × List String
  | [], arena, host => (arena, host, [])
  | slot :: slots, arena, host =>
      match slot.occupant.bind fun occupant => occupant.destructor.map (occupant.words, ·) with
      | none => runDestructors destroy slots arena host
      | some (words, destructor) =>
          let reply := destroy destructor (.pack .fixed slot.start)
            (arena.words slot.start words) host
          let arena := arena.setMany slot.start (reply.answer.take words)
          let (arena, host, notes) := runDestructors destroy slots arena reply.host
          (arena, host, reply.notes ++ notes)

/-- Frees every object that is not marked, destroying it first, and clears the marks of the rest.
A slot that is not valid stops the sweep before it begins; the error is its start.
-/
def sweep (space : FixedSpace δ)
    (destroy : δ → Address → List Word → σ → Reply σ (List Word)) (host : σ)
    : Except Nat (Swept σ δ) :=
  match space.slots.find? fun slot => !slot.isValid space.arena.size with
  | some slot => .error slot.start
  | none =>
      let freed := space.slots.filter FixedSlot.isGarbage
      let freedWords := freed.foldl (fun words slot => words + slot.capacity) 0
      let (arena, host, notes) := runDestructors destroy freed space.arena host
      .ok {
        space :=
          { space with
            arena
            slots := space.slots.map FixedSlot.swept
            vacant := freed.foldl FreeLists.push space.vacant
            liveObjects := space.liveObjects - freed.length
            liveWords := space.liveWords - freedWords }
        outcome :=
          { reclaimed := freed.length
            reclaimedWords := freedWords
            destroyed := freed.countP fun slot => (slot.occupant.bind (·.destructor)).isSome }
        host
        notes }

/-- The starts of the objects allocated since the last call, oldest first. -/
def freshObjects (space : FixedSpace δ) : List Nat := space.recent.reverse

/-- Forgets which objects are fresh. -/
def clearFresh (space : FixedSpace δ) : FixedSpace δ := { space with recent := [] }

end FixedSpace

end MovingHeap
