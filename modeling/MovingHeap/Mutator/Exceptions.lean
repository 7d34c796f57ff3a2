import MovingHeap.World

/-! Blocks that catch non-local exits.
A block remembers the frames it began with. A body that ends well has left what it entered; one that
fails is unwound, and the payload it threw comes back from where collections have kept it.
-/

namespace MovingHeap.World

variable {σ δ α : Type}

/-- The handler a block installs and how many handlers are below it. -/
structure Block where
  depth : Nat
  handler : Handler
  deriving DecidableEq, Repr

/-- Begins a block. -/
def openBlock : Action (World σ δ) Block := do
  let heap ← heapNow
  let handler := { frame := heap.frames.current, depth := heap.frames.depth }
  modifyHeap ({ · with handlers := heap.handlers.push handler })
  return { depth := heap.handlers.depth, handler }

/-- Ends a block whose body had the given result. -/
def closeBlock (block : Block) (result : Except Thrown α)
    : Action (World σ δ) (Except Thrown α) := do
  let (found, handlers) := (← heapNow).handlers.popTo block.depth
  let handler := found.getD block.handler
  modifyHeap ({ · with handlers })
  match result with
  | .ok value =>
      let current := (← heapNow).frames.current
      if current ≠ handler.frame then stop (.exceptFrameLeak handler.frame current)
      else return .ok value
  | .error thrown =>
      modifyHeap fun heap => { heap with frames := heap.frames.unwindTo handler.frame }
      let frames := (← heapNow).frames
      if frames.current ≠ handler.frame ∨ frames.depth ≠ handler.depth then
        stop (.exceptUnwind handler.frame frames.current)
      else
        return .error ((handler.pending.filter (·.code == thrown.code)).getD thrown)

/-- Runs `body` with a handler installed. -/
def exceptBlock (body : Action (World σ δ) (Except Thrown α))
    : Action (World σ δ) (Except Thrown α) := do
  let block ← openBlock
  let result ← body
  closeBlock block result

/-- Leaves an exception with the innermost handler; the body of its block has to fail with it. -/
def throwException (code : Int) (payload : Value) : Action (World σ δ) Thrown := do
  let thrown := { code, payload }
  let handlers ← require ((← heapNow).handlers.raise? thrown) (.uncaughtThrow code)
  modifyHeap ({ · with handlers })
  return thrown

end MovingHeap.World
