/-! What a call site declares about its frames and the handles of frames that were entered.
Handles are numbered in the order of entry and never used again.
-/

namespace MovingHeap

/-- The shape of the frames of one call site. -/
structure FrameDescriptor where
  name : String
  params : Nat
  locals : Nat
  /-- The module the call site belongs to, 0 for none. -/
  rank : Nat := 0
  /-- Data of the host, not looked at. -/
  staticData : Nat := 0
  deriving DecidableEq, Repr, Inhabited

/-- The declared slots of a frame. -/
def FrameDescriptor.slots (descriptor : FrameDescriptor) : Nat :=
  descriptor.params + descriptor.locals

/-- The two kinds of slots a frame has. -/
inductive SlotKind where
  | param
  | local
  deriving DecidableEq, Repr

/-- The name of a slot kind in texts. -/
def SlotKind.text : SlotKind → String
  | param => "param"
  | .local => "local"

/-- The slots a descriptor declares of a kind. -/
def FrameDescriptor.count (descriptor : FrameDescriptor) : SlotKind → Nat
  | .param => descriptor.params
  | .local => descriptor.locals

/-- The handle of an entered frame. -/
structure FrameId where
  number : Nat
  deriving DecidableEq, Repr, Inhabited

/-- The text of a handle. -/
def FrameId.text (id : FrameId) : String := s!"FrameId({id.number})"

/-- The text of a handle that may be missing. -/
def FrameId.optionText : Option FrameId → String
  | some id => s!"Some({id.text})"
  | none => "None"

end MovingHeap
