import MovingHeap.World

/-! Frames as the mutator enters and leaves them; a misused handle stops it. -/

namespace MovingHeap.World

variable {σ δ α : Type}

/-- Enters a frame with the given parameters. -/
def enterFrame (descriptor : FrameDescriptor) (params : List Value)
    : Action (World σ δ) FrameId := do
  let (id, frames) ← check ((← heapNow).frames.push descriptor params)
  modifyHeap ({ · with frames })
  return id

/-- Leaves the current frame, which has to be `id`. -/
def exitFrame (id : FrameId) : Action (World σ δ) Unit := do
  let frames ← check ((← heapNow).frames.pop id)
  modifyHeap ({ · with frames })

/-- Runs `body` in a frame of its own. -/
def withFrame (descriptor : FrameDescriptor) (params : List Value)
    (body : FrameId → Action (World σ δ) α)
    : Action (World σ δ) α := do
  let id ← enterFrame descriptor params
  let result ← body id
  exitFrame id
  return result

/-- The descriptor a live frame was entered with. -/
def frameDescriptor (id : FrameId) : Action (World σ δ) FrameDescriptor := do
  check ((← heapNow).frames.descriptor id)

/-- What a slot of a live frame holds. -/
def frameSlot (id : FrameId) (kind : SlotKind) (index : Nat) : Action (World σ δ) Value := do
  check ((← heapNow).frames.get id kind index)

/-- Replaces what a slot of a live frame holds. -/
def setFrameSlot (id : FrameId) (kind : SlotKind) (index : Nat) (value : Value)
    : Action (World σ δ) Unit := do
  let frames ← check ((← heapNow).frames.set id kind index value)
  modifyHeap ({ · with frames })

end MovingHeap.World
