import MovingHeap.Foreign.Callbacks
import MovingHeap.Mutator.Allocation
import MovingHeap.Mutator.Globals
import MovingHeap.Mutator.Access
import MovingHeap.Mutator.Queries

/-! The operations of a heap for callers that hold raw words.
A word that should be an address and is none is a violation.
-/

namespace MovingHeap.Foreign

variable {σ δ : Type}

/-- A heap for a host of callbacks; callers learn only that there is none. -/
def create? (mapper : Mapper) (config : Config) (host : σ) : Option (World σ δ) :=
  (World.create mapper config host).toOption

/-- The address a caller has handed over; any other word dangles. -/
def checkAddress (raw : Word) : Action (World σ δ) Address :=
  World.require (Address.ofRaw? raw) (.danglingReference raw)

/-- Allocates `size` bytes in the birth region. -/
def allocate (host : Host σ δ) (size : Nat) : Action (World σ δ) Word :=
  Address.raw <$> World.allocate host size

/-- Allocates `size` bytes in the birth region at a multiple of `align` bytes. -/
def allocateAligned (host : Host σ δ) (size align : Nat) : Action (World σ δ) Word :=
  Address.raw <$> World.allocateAligned host size align

/-- Allocates `size` zeroed bytes that never move. -/
def allocateFixed (size : Nat) (destructor : Option δ) (executable : Bool)
    : Action (World σ δ) Word :=
  Address.raw <$> World.allocateFixed size destructor executable

/-- Gives up on a fixed object. -/
def forgetFixed (object : Word) : Action (World σ δ) Unit := do
  World.forgetFixed (← checkAddress object)

/-- Records that a slot may hold a reference to a young object. -/
def notifyStore (host : Host σ δ) (slot : Word) : Action (World σ δ) Unit := do
  World.notifyStore host (← checkAddress slot)

/-- Stores a value and records the slot if it needs to be. -/
def write (host : Host σ δ) (slot value : Word) : Action (World σ δ) Unit := do
  World.write host (← checkAddress slot) ⟨value⟩

/-- The word at an address. -/
def load (addr : Word) : Action (World σ δ) Word := do
  World.load (← checkAddress addr)

/-- Writes a word. -/
def store (addr word : Word) : Action (World σ δ) Unit := do
  World.store (← checkAddress addr) word

/-- Sets a global constant. -/
def setConstant (index : Nat) (value : Word) : Action (World σ δ) Unit :=
  World.setConstant index ⟨value⟩

/-- A global constant. -/
def constant (heap : Heap δ) (index : Nat) : Word := (heap.constant index).raw

/-- Where a stale reference to a promoted object leads. -/
def followForwards (heap : Heap δ) (value : Word) : Word := (heap.followOn ⟨value⟩).raw

/-- Whether a word refers to an object allocated since the last collection. -/
def isYoung (heap : Heap δ) (value : Word) : Bool := heap.isYoung ⟨value⟩

end MovingHeap.Foreign
