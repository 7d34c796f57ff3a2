import MovingHeap.Violation

/-! The frames that keep a mutator's references alive.
Every frame holds its parameters and locals as roots; frames are entered and left in stack order,
and a handle never comes to mean another frame.
-/

namespace MovingHeap

/-- An entered frame; its parameters come before its locals. -/
structure Frame where
  id : FrameId
  descriptor : FrameDescriptor
  slots : Array Value
  deriving DecidableEq, Repr

/-- Where the slots of a kind begin. -/
def FrameDescriptor.base (descriptor : FrameDescriptor) : SlotKind → Nat
  | .param => 0
  | .local => descriptor.params

/-- The live frames, the current one first, and the number of the next handle. -/
structure FrameStack where
  frames : List Frame := []
  nextNumber : Nat := 1
  deriving DecidableEq, Repr

namespace FrameStack

/-- The frame entered last. -/
def current (stack : FrameStack) : Option FrameId := stack.frames.head?.map Frame.id

/-- The number of live frames. -/
def depth (stack : FrameStack) : Nat := stack.frames.length

/-- The live frame of a handle. -/
def find? (stack : FrameStack) (id : FrameId) : Option Frame :=
  stack.frames.find? (·.id == id)

/-- The live frame of a handle; a frame that was left is unknown for ever. -/
def frame (stack : FrameStack) (id : FrameId) : Except Violation Frame :=
  match stack.find? id with
  | some frame => .ok frame
  | none => .error (.unknownFrame id)

/-- Enters a frame with the given parameters; its locals are null. -/
def push (stack : FrameStack) (descriptor : FrameDescriptor) (params : List Value)
    : Except Violation (FrameId × FrameStack) :=
  if params.length = descriptor.params then
    let id := ⟨stack.nextNumber⟩
    let slots := params.toArray ++ Array.replicate descriptor.locals .null
    .ok (id, ⟨⟨id, descriptor, slots⟩ :: stack.frames, stack.nextNumber + 1⟩)
  else .error (.frameArity descriptor.name descriptor.params params.length)

/-- Leaves the current frame, which has to be `id`. -/
def pop (stack : FrameStack) (id : FrameId) : Except Violation FrameStack :=
  match stack.frames with
  | top :: rest =>
      if top.id = id then .ok { stack with frames := rest }
      else .error (.frameMismatch (some top.id) id)
  | [] => .error (.frameMismatch none id)

/-- Whether a frame was entered no later than the frame `saved`. -/
def isWithin (saved : Option FrameId) (id : FrameId) : Bool :=
  saved.any fun mark => id.number ≤ mark.number

/-- Leaves every frame entered after `saved`, and all frames if there is none. -/
def unwindTo (stack : FrameStack) (saved : Option FrameId) : FrameStack :=
  { stack with frames := stack.frames.dropWhile fun frame => !isWithin saved frame.id }

/-- The descriptor a live frame was entered with. -/
def descriptor (stack : FrameStack) (id : FrameId) : Except Violation FrameDescriptor :=
  Frame.descriptor <$> stack.frame id

/-- The frame that becomes current when a live frame is left. -/
def previous (stack : FrameStack) (id : FrameId) : Except Violation (Option FrameId) :=
  (fun _ => ((stack.frames.dropWhile (·.id != id)).drop 1).head?.map Frame.id) <$> stack.frame id

/-- The position of a declared slot among all slots of a live frame. -/
def position (stack : FrameStack) (id : FrameId) (kind : SlotKind) (index : Nat)
    : Except Violation Nat := do
  let frame ← stack.frame id
  let descriptor := frame.descriptor
  if index < descriptor.count kind then return descriptor.base kind + index
  else throw (.slotOutOfRange descriptor.name kind index (descriptor.count kind))

/-- What the slot at a position of a frame holds; null where no slot is. -/
def slotAt (stack : FrameStack) (id : FrameId) (position : Nat) : Value :=
  ((stack.find? id).bind (·.slots[position]?)).getD .null

/-- Replaces what the slot at a position of a frame holds. -/
def setSlotAt (stack : FrameStack) (id : FrameId) (position : Nat) (value : Value) : FrameStack :=
  { stack with
    frames := stack.frames.map fun frame =>
      if frame.id = id then { frame with slots := frame.slots.setIfInBounds position value }
      else frame }

/-- What a declared slot holds. -/
def get (stack : FrameStack) (id : FrameId) (kind : SlotKind) (index : Nat)
    : Except Violation Value :=
  stack.slotAt id <$> stack.position id kind index

/-- Replaces what a declared slot holds. -/
def set (stack : FrameStack) (id : FrameId) (kind : SlotKind) (index : Nat) (value : Value)
    : Except Violation FrameStack :=
  (stack.setSlotAt id · value) <$> stack.position id kind index

/-- The frame and position of every slot, the current frame first and parameters before locals. -/
def roots (stack : FrameStack) : List (FrameId × Nat) :=
  stack.frames.flatMap fun frame =>
    (List.range frame.slots.size).map (frame.id, ·)

/-- What the slots hold, in the order of `roots`. -/
def values (stack : FrameStack) : List Value := stack.frames.flatMap (·.slots.toList)

/-- Changes what every slot holds. -/
def mapValues (stack : FrameStack) (change : Value → Value) : FrameStack :=
  { stack with
    frames := stack.frames.map fun frame => { frame with slots := frame.slots.map change } }

/-- A frame just entered is left again without a trace but its number. -/
theorem pop_push {stack pushed : FrameStack} {descriptor : FrameDescriptor} {params : List Value}
    {id : FrameId} (h : stack.push descriptor params = .ok (id, pushed))
    : pushed.pop id = .ok { stack with nextNumber := stack.nextNumber + 1 } := by
  unfold push at h
  split at h
  · cases h
    simp [pop]
  · cases h

/-- Writing a slot changes no handle, as it keeps every frame in its place. -/
@[simp] theorem current_setSlotAt (stack : FrameStack) (id : FrameId) (position : Nat)
    (value : Value)
    : (stack.setSlotAt id position value).current = stack.current := by
  cases frames : stack.frames with
  | nil => simp [current, setSlotAt, frames]
  | cons top rest =>
      simp only [current, setSlotAt, frames, List.map_cons, List.head?_cons, Option.map_some]
      split <;> rfl

end FrameStack

end MovingHeap
