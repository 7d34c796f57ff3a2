import MovingHeap.Frame
import MovingHeap.Value

/-! The handlers that are installed and the exceptions on their way to them.
A thrown payload is a root until its handler is taken off, so it survives the collections between.
-/

namespace MovingHeap

/-- A non-local exit with a code and a payload. -/
structure Thrown where
  code : Int
  payload : Value
  deriving DecidableEq, Repr, Inhabited

/-- The text of a non-local exit. -/
def Thrown.text (thrown : Thrown) : String :=
  s!"exception {thrown.code} thrown with payload {thrown.payload.text}"

/-- An installed handler: the frames to return to and what was thrown to it. -/
structure Handler where
  frame : Option FrameId
  depth : Nat
  pending : Option Thrown := none
  deriving DecidableEq, Repr

/-- The installed handlers, the outermost first. -/
structure ExceptStack where
  handlers : List Handler := []
  deriving DecidableEq, Repr

namespace ExceptStack

/-- The number of installed handlers. -/
def depth (stack : ExceptStack) : Nat := stack.handlers.length

/-- Installs a handler. -/
def push (stack : ExceptStack) (handler : Handler) : ExceptStack :=
  ⟨stack.handlers ++ [handler]⟩

/-- Takes off the handlers above `depth` and the one at it, which is answered. -/
def popTo (stack : ExceptStack) (depth : Nat) : Option Handler × ExceptStack :=
  let kept := stack.handlers.take (depth + 1)
  (kept.getLast?, ⟨kept.dropLast⟩)

/-- Leaves a throw with the innermost handler, replacing an earlier one; `none` without handlers. -/
def raise? (stack : ExceptStack) (thrown : Thrown) : Option ExceptStack :=
  if stack.handlers.isEmpty then none
  else some ⟨stack.handlers.modify (stack.depth - 1) ({ · with pending := some thrown })⟩

/-- The positions of the handlers that something was thrown to, the outermost first. -/
def roots (stack : ExceptStack) : List Nat :=
  (List.range stack.depth).filter fun index =>
    (stack.handlers[index]?.bind (·.pending)).isSome

/-- The payload thrown to the handler at a position, null without one. -/
def payloadAt (stack : ExceptStack) (index : Nat) : Value :=
  ((stack.handlers[index]?.bind (·.pending)).map Thrown.payload).getD .null

/-- Replaces the payload thrown to the handler at a position. -/
def setPayloadAt (stack : ExceptStack) (index : Nat) (payload : Value) : ExceptStack :=
  ⟨stack.handlers.modify index fun handler =>
    { handler with pending := handler.pending.map ({ · with payload }) }⟩

/-- A handler just installed is the one taken off at the depth before. -/
theorem popTo_push (stack : ExceptStack) (handler : Handler)
    : (stack.push handler).popTo stack.depth = (some handler, stack) := by
  have whole : (stack.handlers ++ [handler]).take (stack.handlers.length + 1)
      = stack.handlers ++ [handler] := List.take_of_length_le (by simp)
  simp only [push, popTo, depth, whole]
  simp

end ExceptStack

end MovingHeap
