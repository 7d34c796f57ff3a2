import MovingHeap.Host

/-! Hosts across a boundary that only words can cross.
Addresses arrive as raw words and are checked before use; callbacks other than copying and scanning
may be left out.
-/

namespace MovingHeap.Foreign

/-- A host that speaks raw words. -/
structure Callbacks (σ δ : Type) where
  copy : Window → Window → σ → Reply σ Copied
  scanMinor : Word → Visit σ Word
  scanFull : Option (Word → Visit σ Word) := none
  scanFixedMinor : Word → Nat → Visit σ Unit
  scanFixedFull : Option (Word → Nat → Visit σ Unit) := none
  extraMinorRoots : Option (Visit σ Unit) := none
  extraFullRoots : Option (Visit σ Unit) := none
  beforeFull : Option (σ → Reply σ Unit) := none
  afterFull : Option (σ → Reply σ Unit) := none
  destroy : δ → Word → List Word → σ → Reply σ (List Word)

variable {σ δ : Type}

/-- The address a host has handed over; any other word dangles. -/
def address (raw : Word) : Visit σ Address :=
  match Address.ofRaw? raw with
  | some addr => .done addr
  | none => .fail (.danglingReference raw)

/-- Forwards the reference in the slot at a raw address. -/
def visitSlot (raw : Word) : Visit σ Unit := address raw >>= Visit.slot

/-- Reads the word at a raw address. -/
def read (raw : Word) : Visit σ Word := address raw >>= Visit.read

/-- Scans an object that begins at an address. -/
def scan (callback : Word → Visit σ Word) (object : Address) : Visit σ Address := do
  address (← callback object.raw)

/-- Does what a hook does, if there is one. -/
def hook (callback : Option (σ → Reply σ Unit)) (host : σ) : Reply σ Unit :=
  match callback with
  | some call => call host
  | none => { answer := (), host }

/-- The callbacks as a host; what a full collection lacks it borrows from minor ones. -/
def Callbacks.toHost (callbacks : Callbacks σ δ) (mapper : Mapper) : Host σ δ where
  mapper := mapper
  copy := callbacks.copy
  scanMinor := scan callbacks.scanMinor
  scanFull := scan (callbacks.scanFull.getD callbacks.scanMinor)
  scanFixedMinor := fun payload words => callbacks.scanFixedMinor payload.raw words
  scanFixedFull := fun payload words =>
    (callbacks.scanFixedFull.getD callbacks.scanFixedMinor) payload.raw words
  extraMinorRoots := callbacks.extraMinorRoots.getD (.done ())
  extraFullRoots := callbacks.extraFullRoots.getD (.done ())
  beforeFull := hook callbacks.beforeFull
  afterFull := hook callbacks.afterFull
  destroy := fun destructor payload words host =>
    callbacks.destroy destructor payload.raw words host

end MovingHeap.Foreign
