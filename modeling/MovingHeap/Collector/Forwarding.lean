import MovingHeap.World

/-! Where the target of a reference lives after a collection.
An object that moves is copied by the host on the first visit and leaves a tombstone behind; later
visits find the copy through it. Fixed objects are marked instead, and only by full collections.
-/

namespace MovingHeap

/-- The words of the smallest moving object, enough for a tombstone. -/
def minObjectWords : Nat := 2

namespace Regions

variable {δ : Type}

/-- The memory a moving object is copied out of and the end of its allocated part. -/
def origin (regions : Regions δ) (young : Bool) : Arena × Nat :=
  if young then (regions.birth.words, regions.birth.cursor)
  else (regions.old.words, regions.old.cursor)

/-- The region that objects are copied to. -/
def destination (regions : Regions δ) : Semispace := regions.target.getD regions.old

/-- Puts back the region that objects are copied to. -/
def setDestination (regions : Regions δ) (region : Semispace) : Regions δ :=
  if regions.isFull then { regions with target := some region } else { regions with old := region }

/-- Leaves a tombstone where an object was. -/
def bury (regions : Regions δ) (young : Bool) (offset : Nat) (forwarded : Address) : Regions δ :=
  let tombstone := [0, forwarded.raw]
  if young then
    { regions with
      birth := { regions.birth with words := regions.birth.words.setMany offset tombstone } }
  else
    { regions with
      old := { regions.old with words := regions.old.words.setMany offset tombstone } }

/-- Allocates the first words of the destination to a copy that the host has put there: at least
the smallest object, within the free words and not beginning like a tombstone.
-/
def admit? (destination : Semispace) (words : Nat) : Option Semispace :=
  if minObjectWords ≤ words ∧ destination.words.get destination.cursor ≠ 0 then
    destination.bump? words
  else none

end Regions

namespace Collector

variable {σ δ : Type}

/-- Copies the object at `object` and buries it. -/
def relocate (host : Host σ δ) (object : Address) (young : Bool)
    : Action (Site σ δ) Address := do
  let site ← get
  let (words, limit) := site.regions.origin young
  let available := site.regions.destination
  let copied ← Site.accept
    (host.copy available.tail (words.window object.offset (limit - object.offset)) site.host)
  let filled := available.fillTail copied.written
  Site.modifyRegions (·.setDestination filled)
  let extended ← Site.require (Regions.admit? filled copied.words)
    (.badCopy object copied.words available.free)
  Site.modifyRegions fun regions =>
    let regions := (regions.setDestination extended).bury young object.offset available.next
    { regions with copied := regions.copied + copied.words }
  return available.next

/-- The new address of a moving object, which is copied unless a tombstone says that it was. -/
def evacuate (host : Host σ δ) (object : Address) (young : Bool)
    : Action (Site σ δ) Address := do
  let (words, limit) := (← get).regions.origin young
  let offset := object.offset
  if limit ≤ offset + 1 then Site.stop (.danglingReference object.raw)
  else if words.get offset = 0 then
    Site.require (Address.ofRaw? (words.get (offset + 1))) (.danglingReference object.raw)
  else relocate host object young

/-- Marks the fixed object at `addr`. References to forgotten objects become null. -/
def markFixed (addr : Address) : Action (Site σ δ) Value := do
  let found := (← get).regions.fixed.mark? addr.offset
  let (mark, fixed) ← Site.require found (.danglingReference addr.raw)
  Site.modifyRegions ({ · with fixed })
  match mark with
  | .fresh start =>
      Site.modifyRegions fun regions => { regions with unscanned := start :: regions.unscanned }
      return addr.toValue
  | .already => return addr.toValue
  | .forgotten => return .null

/-- What a reference becomes. Birth objects always move; old objects move and fixed ones are marked
only in a full collection, and a copy stays where it is.
-/
def forward (host : Host σ δ) (value : Value) : Action (Site σ δ) Value := do
  match value.address? with
  | none => return value
  | some addr =>
      let regions := (← get).regions
      match addr.space with
      | .birth => Address.toValue <$> evacuate host addr true
      | .fixed => if regions.isFull then markFixed addr else return value
      | space =>
          if regions.isFull ∧ space = regions.old.space then
            Address.toValue <$> evacuate host addr false
          else return value

end Collector

end MovingHeap
