import MovingHeap.Memory.Arena
import MovingHeap.Reply
import MovingHeap.Visit

/-! What a host supplies so that a heap can collect objects it knows nothing about.
The host copies objects, finds the references in them and destroys what is no longer needed; the
heap trusts none of its answers.
-/

namespace MovingHeap

/-- The outcome of copying an object. -/
structure Copied where
  /-- What was written to the start of the destination. -/
  written : List Word
  /-- How many words the host says the object has. -/
  words : Nat
  deriving DecidableEq, Repr

/-- The callbacks of a host with state `σ`, whose destructors go by the names `δ`, and what grants
memory for the objects that they copy.
-/
structure Host (σ δ : Type) where
  mapper : Mapper
  /-- Copies the object at the start of the second window to the first, all free memory. -/
  copy : Window → Window → σ → Reply σ Copied
  /-- Visits the references of a moving object; answers the address behind it. -/
  scanMinor : Address → Visit σ Address
  scanFull : Address → Visit σ Address := scanMinor
  /-- Visits the references of a fixed object of as many words. -/
  scanFixedMinor : Address → Nat → Visit σ Unit
  scanFixedFull : Address → Nat → Visit σ Unit := scanFixedMinor
  /-- Visits roots that the heap does not know. -/
  extraMinorRoots : Visit σ Unit := .done ()
  extraFullRoots : Visit σ Unit := .done ()
  beforeFull : σ → Reply σ Unit := fun host => { answer := (), host }
  afterFull : σ → Reply σ Unit := fun host => { answer := (), host }
  /-- Destroys a fixed object; answers the words its payload begins with afterwards. -/
  destroy : δ → Address → List Word → σ → Reply σ (List Word) :=
    fun _ _ words host => { answer := words, host }

end MovingHeap
