import MovingHeap.Frame
import MovingHeap.Phase
import MovingHeap.Value

/-! Misuse of the heap's protocol and exhaustion that cannot be recovered from.
A violation names its cause; its wording is in one place.
-/

namespace MovingHeap

/-- What stopped an operation. -/
inductive Violation where
  /-- A frame is left that is not the current one. -/
  | frameMismatch (current : Option FrameId) (found : FrameId)
  /-- A frame is entered with a wrong number of parameters. -/
  | frameArity (name : String) (declared given : Nat)
  /-- A slot is named that the frame's descriptor does not declare. -/
  | slotOutOfRange (name : String) (kind : SlotKind) (index count : Nat)
  /-- A handle is used whose frame is not on the stack. -/
  | unknownFrame (id : FrameId)
  /-- Memory is asked for while a collection runs. -/
  | allocationInCollection (phase : Phase)
  /-- A collection is asked for while one runs. -/
  | nestedCollection (phase : Phase)
  /-- An exception is thrown with no handler installed. -/
  | uncaughtThrow (code : Int)
  /-- A block that installed a handler ends with another frame than it began with. -/
  | exceptFrameLeak (expected left : Option FrameId)
  /-- A failed block has left the frame to unwind to. -/
  | exceptUnwind (expected left : Option FrameId)
  /-- An object, in bytes, that the birth region could not hold even when empty. -/
  | objectTooLarge (requested capacity : Nat)
  /-- An alignment, in bytes, out of the supported ones. -/
  | badAlignment (align : Nat)
  /-- A copy callback reports a count that cannot be right or leaves the first word zero. -/
  | badCopy (object : Address) (copied available : Nat)
  /-- A scan callback answers an address that is not behind its object in the scanned words. -/
  | badScan (object next : Address) (limit : Nat)
  /-- A word that should lead to managed memory does not. -/
  | danglingReference (raw : Word)
  /-- The description of a fixed slot does not fit the fixed space. -/
  | corruptFixedHeader (offset : Nat)
  /-- An address that is not the start of a live fixed object. -/
  | notFixed (addr : Address)
  /-- Memory for the next old semispace, in bytes, cannot be had. -/
  | regionMap (size : Nat)
  deriving DecidableEq, Repr

/-- The wording of a violation. -/
def Violation.message : Violation → String
  | frameMismatch current found =>
      s!"exiting frame {found.text} while the current frame is {FrameId.optionText current}"
  | frameArity name declared given =>
      s!"frame `{name}` declares {declared} parameters but {given} were supplied"
  | slotOutOfRange name kind index count =>
      s!"{kind.text} {index} out of range for frame `{name}` ({count} declared)"
  | unknownFrame id => s!"{id.text} is not a live frame"
  | allocationInCollection phase =>
      s!"allocation requested while the collector is {phase.text}"
  | nestedCollection phase => s!"collection requested while the collector is {phase.text}"
  | uncaughtThrow code => s!"exception {code} thrown outside of any except block"
  | exceptFrameLeak expected left =>
      s!"except block returned normally with frame {FrameId.optionText left} still entered "
        ++ s!"(expected {FrameId.optionText expected})"
  | exceptUnwind expected left =>
      s!"except block cannot unwind to frame {FrameId.optionText expected}, "
        ++ s!"the current frame is {FrameId.optionText left}"
  | objectTooLarge requested capacity =>
      s!"allocation of {requested} bytes exceeds the birth region ({capacity} bytes usable)"
  | badAlignment align => s!"alignment {align} is not a power of two between one and 32 words"
  | badCopy object copied available =>
      s!"copy callback returned {copied} words for {object.text} ({available} words available)"
  | badScan object next limit =>
      s!"scan callback returned {next.text} for {object.text} (scan limit {limit})"
  | danglingReference raw => s!"dangling reference {hexText raw}"
  | corruptFixedHeader offset => s!"corrupt fixed object header at offset {offset}"
  | notFixed addr => s!"{addr.text} is not the start of a live fixed object"
  | regionMap size => s!"failed to map the old region ({size} bytes)"

end MovingHeap
