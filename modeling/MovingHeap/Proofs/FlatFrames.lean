import MovingHeap.Proofs.RootTables

/-! Frames whose slots lie one behind the other.
All frames share one list of slots, each frame knows where its slots begin, and handles are looked up by
halving. Such a stack does, step by step, what a stack of frames with slots of their own does.
-/

namespace MovingHeap

variable {τ : Type}

/-- A live frame without its slots. -/
structure FrameEntry where
  id : FrameId
  descriptor : FrameDescriptor
  /-- The frame that was current when this one was entered. -/
  below : Option FrameId
  /-- Where the frame's slots begin. -/
  base : Nat

/-- Frames that share one list of slots, the frame entered first in front. -/
structure FlatStack where
  entries : List FrameEntry := []
  slots : List Value := []
  nextNumber : Nat := 1

namespace FlatStack

/-- The frame entered last. -/
def current (stack : FlatStack) : Option FrameId := stack.entries.getLast?.map FrameEntry.id

/-- A list of slots that is cut off or filled up with nulls. -/
def resized (slots : List Value) (count : Nat) : List Value :=
  slots.take count ++ List.replicate (count - slots.length) .null

/-- Enters a frame with the given parameters behind all slots; its locals are null. -/
def push (stack : FlatStack) (descriptor : FrameDescriptor) (params : List Value)
    : Except Violation (FrameId × FlatStack) :=
  if params.length = descriptor.params then
    let id := ⟨stack.nextNumber⟩
    let base := stack.slots.length
    .ok (id,
      { entries := stack.entries ++ [⟨id, descriptor, stack.current, base⟩]
        slots := resized (stack.slots ++ params) (base + descriptor.slots)
        nextNumber := stack.nextNumber + 1 })
  else .error (.frameArity descriptor.name descriptor.params params.length)

/-- Takes the last entry away, and the slots from where its frame's begin. -/
def dropTop (stack : FlatStack) (top : FrameEntry) : FlatStack :=
  { stack with entries := stack.entries.dropLast, slots := stack.slots.take top.base }

/-- Leaves the current frame, which has to be `id`. -/
def pop (stack : FlatStack) (id : FrameId) : Except Violation FlatStack :=
  match stack.entries.getLast? with
  | some top =>
      if top.id = id then .ok (stack.dropTop top) else .error (.frameMismatch stack.current id)
  | none => .error (.frameMismatch stack.current id)

/-- Leaves frame after frame until one was entered no later than `saved`. -/
def unwindTo (stack : FlatStack) (saved : Option FrameId) : FlatStack :=
  match _last : stack.entries.getLast? with
  | some top =>
      if FrameStack.isWithin saved top.id then stack else (stack.dropTop top).unwindTo saved
  | none => stack
termination_by stack.entries.length
decreasing_by
  have entered : stack.entries ≠ [] := by
    intro none
    simp [none] at _last
  have := List.length_pos_of_ne_nil entered
  simp only [dropTop, List.length_dropLast]
  omega

/-- Looks a handle up between two places of a list in the order of handles, by halving. -/
def search (entries : List FrameEntry) (id : FrameId) (low high : Nat) : Option FrameEntry :=
  if low < high then
    match entries[(low + high) / 2]? with
    | some entry =>
        if entry.id = id then some entry
        else if entry.id.number < id.number then search entries id ((low + high) / 2 + 1) high
        else search entries id low ((low + high) / 2)
    | none => none
  else none
termination_by high - low

/-- The entry of a live frame. -/
def entry (stack : FlatStack) (id : FrameId) : Except Violation FrameEntry :=
  match search stack.entries id 0 stack.entries.length with
  | some entry => .ok entry
  | none => .error (.unknownFrame id)

/-- The descriptor a live frame was entered with. -/
def descriptor (stack : FlatStack) (id : FrameId) : Except Violation FrameDescriptor :=
  FrameEntry.descriptor <$> stack.entry id

/-- The frame that becomes current when a live frame is left. -/
def previous (stack : FlatStack) (id : FrameId) : Except Violation (Option FrameId) :=
  FrameEntry.below <$> stack.entry id

/-- The place of a declared slot of a live frame among all slots. -/
def place (stack : FlatStack) (id : FrameId) (kind : SlotKind) (index : Nat)
    : Except Violation Nat := do
  let entry ← stack.entry id
  let descriptor := entry.descriptor
  if index < descriptor.count kind then return entry.base + descriptor.base kind + index
  else throw (.slotOutOfRange descriptor.name kind index (descriptor.count kind))

/-- What a declared slot holds. -/
def get (stack : FlatStack) (id : FrameId) (kind : SlotKind) (index : Nat)
    : Except Violation Value :=
  (fun place => stack.slots.getD place .null) <$> stack.place id kind index

/-- Replaces what a declared slot holds. -/
def set (stack : FlatStack) (id : FrameId) (kind : SlotKind) (index : Nat) (value : Value)
    : Except Violation FlatStack :=
  (fun place => { stack with slots := stack.slots.set place value }) <$> stack.place id kind index

/-- Lets a visitor replace what some slots hold, from a place on. -/
def visitRange (visit : Value → τ → Value × τ)
    : (count : Nat) → (start : Nat) → List Value → τ → List Value × τ
  | 0, _, slots, host => (slots, host)
  | count + 1, start, slots, host =>
      let answer := visit (slots.getD start .null) host
      visitRange visit count (start + 1) (slots.set start answer.1) answer.2

/-- Lets a visitor replace what the slots of some frames hold. Those of the first frame end at a place,
those of every other frame where the slots before it begin.
-/
def walkDown (visit : Value → τ → Value × τ)
    : List FrameEntry → (stop : Nat) → List Value → τ → List Value × τ
  | [], _, slots, host => (slots, host)
  | entry :: entries, stop, slots, host =>
      let visited := visitRange visit (stop - entry.base) entry.base slots host
      walkDown visit entries entry.base visited.1 visited.2

/-- Lets a visitor replace what every slot holds, the current frame first. -/
def walk (stack : FlatStack) (visit : Value → τ → Value × τ) (host : τ) : FlatStack × τ :=
  let walked := walkDown visit stack.entries.reverse stack.slots.length stack.slots host
  ({ stack with slots := walked.1 }, walked.2)

end FlatStack

namespace FrameStack

/-- Lets a visitor replace what some slots hold, in order. -/
def visitSlots (visit : Value → τ → Value × τ)
    : List (FrameId × Nat) → FrameStack → τ → FrameStack × τ
  | [], stack, host => (stack, host)
  | (id, position) :: slots, stack, host =>
      let answer := visit (stack.slotAt id position) host
      visitSlots visit slots (stack.setSlotAt id position answer.1) answer.2

/-- Lets a visitor replace what every slot holds, one after the other. -/
def walk (stack : FrameStack) (visit : Value → τ → Value × τ) (host : τ) : FrameStack × τ :=
  stack.visitSlots visit stack.roots host

/-- Frames are in the order of their handles, and each has the slots that it declares. -/
structure Proper (stack : FrameStack) : Prop where
  entered : stack.frames.Pairwise fun newer older => older.id.number < newer.id.number
  numbered : ∀ frame ∈ stack.frames, frame.id.number < stack.nextNumber
  sized : ∀ frame ∈ stack.frames, frame.slots.size = frame.descriptor.slots

-----------------------------------------------------------------------------------------
-- The flat form of a stack
-----------------------------------------------------------------------------------------

/-- The slots of frames, one behind the other, those of the frame entered first in front. -/
def flatSlots : List Frame → List Value
  | [] => []
  | frame :: frames => flatSlots frames ++ frame.slots.toList

/-- The entry of a frame that was entered above others. -/
def entryAbove (frames : List Frame) (frame : Frame) : FrameEntry where
  id := frame.id
  descriptor := frame.descriptor
  below := frames.head?.map Frame.id
  base := (flatSlots frames).length

/-- The entries of frames, that of the frame entered first in front. -/
def flatEntries : List Frame → List FrameEntry
  | [] => []
  | frame :: frames => flatEntries frames ++ [entryAbove frames frame]

/-- The same frames with all their slots in one list. -/
def flat (stack : FrameStack) : FlatStack where
  entries := flatEntries stack.frames
  slots := flatSlots stack.frames
  nextNumber := stack.nextNumber

variable {stack : FrameStack}

theorem flatSlots_append (above below : List Frame)
    : flatSlots (above ++ below) = flatSlots below ++ flatSlots above := by
  induction above with
  | nil => simp [flatSlots]
  | cons frame above ih => simp [flatSlots, ih, List.append_assoc]

theorem current_flat (stack : FrameStack) : stack.flat.current = stack.current := by
  cases frames : stack.frames with
  | nil => simp [FlatStack.current, flat, current, frames, flatEntries]
  | cons top rest => simp [FlatStack.current, flat, current, frames, flatEntries, entryAbove]

/-- Entering a frame is the same in the flat form. -/
theorem push_flat (stack : FrameStack) (descriptor : FrameDescriptor) (params : List Value)
    : stack.flat.push descriptor params
      = (stack.push descriptor params).map fun (id, pushed) => (id, pushed.flat) := by
  by_cases arity : params.length = descriptor.params
  · have filled : FlatStack.resized (flatSlots stack.frames ++ params)
          ((flatSlots stack.frames).length + descriptor.slots)
        = flatSlots stack.frames
          ++ (params.toArray ++ Array.replicate descriptor.locals Value.null).toList := by
      have whole : (flatSlots stack.frames ++ params).length
          ≤ (flatSlots stack.frames).length + descriptor.slots := by
        simp [FrameDescriptor.slots, arity]
      have rest : (flatSlots stack.frames).length + descriptor.slots
          - (flatSlots stack.frames ++ params).length = descriptor.locals := by
        simp only [FrameDescriptor.slots, List.length_append]
        omega
      rw [FlatStack.resized, List.take_of_length_le whole, rest]
      simp
    have top : stack.flat.current = stack.frames.head?.map Frame.id := current_flat stack
    simp only [FlatStack.push, push, if_pos arity, Except.map, top]
    simp only [flat, flatEntries, flatSlots, entryAbove, filled]
  · simp only [FlatStack.push, push, if_neg arity, Except.map]

/-- Dropping the last entry takes the current frame away. -/
theorem dropTop_flat (frames : List Frame) (frame : Frame) (nextNumber : Nat)
    : (flat ⟨frame :: frames, nextNumber⟩).dropTop (entryAbove frames frame)
      = flat ⟨frames, nextNumber⟩ := by
  simp [FlatStack.dropTop, flat, flatEntries, flatSlots, entryAbove]

/-- Leaving a frame is the same in the flat form. -/
theorem pop_flat (stack : FrameStack) (id : FrameId)
    : stack.flat.pop id = (stack.pop id).map flat := by
  obtain ⟨frames, nextNumber⟩ := stack
  cases frames with
  | nil => rfl
  | cons top rest =>
      have last : (flat ⟨top :: rest, nextNumber⟩).entries.getLast? = some (entryAbove rest top) := by
        simp [flat, flatEntries]
      have named : (flat ⟨top :: rest, nextNumber⟩).current = some top.id := current_flat _
      simp only [FlatStack.pop, last, named, pop, dropTop_flat]
      by_cases same : top.id = id
      · simp [entryAbove, same, Except.map]
      · simp [entryAbove, same, Except.map]

/-- Unwinding is the same in the flat form. -/
theorem unwindTo_flat (stack : FrameStack) (saved : Option FrameId)
    : stack.flat.unwindTo saved = (stack.unwindTo saved).flat := by
  obtain ⟨frames, nextNumber⟩ := stack
  induction frames with
  | nil =>
      rw [FlatStack.unwindTo]
      rfl
  | cons top rest ih =>
      have last : (flat ⟨top :: rest, nextNumber⟩).entries.getLast? = some (entryAbove rest top) := by
        simp [flat, flatEntries]
      rw [FlatStack.unwindTo]
      split
      · next other found =>
          obtain rfl : entryAbove rest top = other := by simpa [last] using found
          rw [dropTop_flat, ih]
          by_cases within : isWithin saved top.id
          · simp [entryAbove, within, unwindTo]
          · simp [entryAbove, within, unwindTo]
      · next none =>
          rw [last] at none
          cases none

-----------------------------------------------------------------------------------------
-- Looking handles up
-----------------------------------------------------------------------------------------

/-- Halving finds a handle between two places if the list is in order and the handle is at no other. -/
theorem search_eq_some_iff {entries : List FrameEntry} {id : FrameId}
    (sorted : entries.Pairwise fun earlier later => earlier.id.number < later.id.number)
    {low high : Nat} (inside : high ≤ entries.length) (entry : FrameEntry)
    : FlatStack.search entries id low high = some entry
      ↔ entry.id = id ∧ ∃ place, low ≤ place ∧ place < high ∧ entries[place]? = some entry := by
  have before : ∀ {left right : Nat} {earlier later : FrameEntry}, entries[left]? = some earlier →
      entries[right]? = some later → left < right → earlier.id.number < later.id.number := by
    intro left right earlier later first second less
    obtain ⟨inside, rfl⟩ := List.getElem?_eq_some_iff.mp first
    obtain ⟨inside', rfl⟩ := List.getElem?_eq_some_iff.mp second
    exact List.pairwise_iff_getElem.mp sorted left right inside inside' less
  fun_induction FlatStack.search entries id low high with
  | case1 low high room middle found same =>
      constructor
      · intro answer
        cases answer
        exact ⟨same, _, by omega, by omega, found⟩
      · intro ⟨named, place, _, _, here⟩
        rcases Nat.lt_trichotomy place ((low + high) / 2) with less | equal | greater
        · have := before here found less
          rw [named, same] at this
          omega
        · rw [← found, ← here, equal]
        · have := before found here greater
          rw [named, same] at this
          omega
  | case2 low high room middle found differs less ih =>
      refine (ih (by omega)).trans (and_congr_right fun named => exists_congr fun place => ?_)
      constructor
      · intro ⟨_, below, here⟩
        exact ⟨by omega, below, here⟩
      · intro ⟨_, below, here⟩
        refine ⟨?_, below, here⟩
        by_contra first
        rcases Nat.lt_or_eq_of_le (Nat.le_of_lt_succ (Nat.lt_of_not_le first)) with earlier | equal
        · have := before here found earlier
          rw [named] at this
          omega
        · rw [equal, found] at here
          cases here
          exact differs named
  | case3 low high room middle found differs notLess ih =>
      refine (ih (by omega)).trans (and_congr_right fun named => exists_congr fun place => ?_)
      constructor
      · intro ⟨above, below, here⟩
        exact ⟨above, by omega, here⟩
      · intro ⟨above, _, here⟩
        refine ⟨above, ?_, here⟩
        by_contra last
        rcases Nat.lt_or_eq_of_le (Nat.le_of_not_lt last) with later | equal
        · have := before found here later
          rw [named] at this
          omega
        · rw [← equal, found] at here
          cases here
          exact differs named
  | case4 low high room missing =>
      rw [List.getElem?_eq_none_iff] at missing
      omega
  | case5 low high empty =>
      constructor
      · intro answer
        cases answer
      · intro ⟨_, place, _, _, _⟩
        omega

/-- The entry of a frame tells what lies below it. -/
theorem mem_flatEntries {frames : List Frame} {entry : FrameEntry}
    : entry ∈ flatEntries frames
      ↔ ∃ above frame below, frames = above ++ frame :: below ∧ entry = entryAbove below frame := by
  constructor
  · intro member
    induction frames with
    | nil => simp [flatEntries] at member
    | cons top rest ih =>
        simp only [flatEntries, List.mem_append, List.mem_singleton] at member
        rcases member with lower | here
        · obtain ⟨above, frame, below, rfl, told⟩ := ih lower
          exact ⟨top :: above, frame, below, rfl, told⟩
        · exact ⟨[], top, rest, rfl, here⟩
  · intro ⟨above, frame, below, whole, told⟩
    subst whole told
    induction above with
    | nil => simp [flatEntries]
    | cons top above ih => simp [flatEntries, ih]

/-- Entries are in the order of handles if the frames are. -/
theorem sorted_flatEntries {frames : List Frame}
    (entered : frames.Pairwise fun newer older => older.id.number < newer.id.number)
    : (flatEntries frames).Pairwise fun earlier later => earlier.id.number < later.id.number := by
  induction entered with
  | nil => exact .nil
  | @cons top rest newest _ ih =>
      refine List.pairwise_append.mpr ⟨ih, List.pairwise_singleton _ _, ?_⟩
      intro entry member last here
      obtain ⟨above, frame, below, rfl, rfl⟩ := mem_flatEntries.mp member
      obtain rfl := List.mem_singleton.mp here
      exact newest frame (by simp)

/-- No other frame has the handle of a frame between others. -/
theorem ne_of_split {frames above below : List Frame} {frame : Frame}
    (entered : frames.Pairwise fun newer older => older.id.number < newer.id.number)
    (split : frames = above ++ frame :: below)
    : (∀ other ∈ above, other.id ≠ frame.id) ∧ ∀ other ∈ below, other.id ≠ frame.id := by
  subst split
  obtain ⟨-, lower, across⟩ := List.pairwise_append.mp entered
  constructor
  · intro newer member same
    have less := across newer member frame (by simp)
    rw [same] at less
    exact Nat.lt_irrefl _ less
  · intro older member same
    have less := (List.pairwise_cons.mp lower).1 older member
    rw [same] at less
    exact Nat.lt_irrefl _ less

/-- A frame between others that are in order is the one with its handle. -/
theorem find?_of_split {frames above below : List Frame} {frame : Frame}
    (entered : frames.Pairwise fun newer older => older.id.number < newer.id.number)
    (split : frames = above ++ frame :: below)
    : frames.find? (·.id == frame.id) = some frame := by
  have newer := (ne_of_split entered split).1
  rw [split, List.find?_append, List.find?_eq_none.mpr fun other member => by
    simpa using newer other member]
  simp

/-- A handle is that of a frame between others, which both forms find, or unknown to both. -/
theorem Proper.looksUp (proper : stack.Proper) (id : FrameId)
    : (∃ above frame below,
        stack.frames = above ++ frame :: below
        ∧ frame.id = id
        ∧ stack.frame id = .ok frame
        ∧ stack.flat.entry id = .ok (entryAbove below frame))
      ∨ ((∀ frame ∈ stack.frames, frame.id ≠ id)
        ∧ stack.frame id = .error (.unknownFrame id)
        ∧ stack.flat.entry id = .error (.unknownFrame id)) := by
  have search : ∀ entry, FlatStack.search stack.flat.entries id 0 stack.flat.entries.length = some entry
      ↔ entry.id = id ∧ entry ∈ flatEntries stack.frames := by
    intro entry
    refine (search_eq_some_iff (sorted_flatEntries proper.entered) (Nat.le_refl _) entry).trans ?_
    rw [List.mem_iff_getElem?]
    refine and_congr_right fun _ => exists_congr fun place => ?_
    constructor
    · intro ⟨_, _, here⟩
      exact here
    · intro here
      exact ⟨Nat.zero_le _, (List.getElem?_eq_some_iff.mp here).1, here⟩
  by_cases live : ∃ frame ∈ stack.frames, frame.id = id
  · obtain ⟨frame, member, named⟩ := live
    obtain ⟨above, below, split⟩ := List.append_of_mem member
    have found := find?_of_split proper.entered split
    have found' := (search (entryAbove below frame)).mpr
      ⟨named, mem_flatEntries.mpr ⟨above, frame, below, split, rfl⟩⟩
    refine .inl ⟨above, frame, below, split, named, ?_, ?_⟩
    · simp only [FrameStack.frame, find?, ← named, found]
    · simp only [FlatStack.entry, found']
  · have unknown : ∀ frame ∈ stack.frames, frame.id ≠ id := by
      intro frame member named
      exact live ⟨frame, member, named⟩
    have missing : FlatStack.search stack.flat.entries id 0 stack.flat.entries.length = none := by
      by_contra found
      obtain ⟨entry, here⟩ := Option.ne_none_iff_exists'.mp found
      obtain ⟨named, member⟩ := (search entry).mp here
      obtain ⟨above, frame, below, split, rfl⟩ := mem_flatEntries.mp member
      exact unknown frame (by simp [split]) named
    have missing' : stack.find? id = none := by
      rw [find?, List.find?_eq_none]
      intro frame member
      simpa using unknown frame member
    refine .inr ⟨unknown, ?_, ?_⟩
    · simp only [FrameStack.frame, missing']
    · simp only [FlatStack.entry, missing]

/-- The flat form knows the descriptor of every frame. -/
theorem Proper.descriptor_flat (proper : stack.Proper) (id : FrameId)
    : stack.flat.descriptor id = stack.descriptor id := by
  rcases proper.looksUp id with ⟨above, frame, below, _, _, found, found'⟩ | ⟨_, unknown, unknown'⟩
  · simp only [FlatStack.descriptor, descriptor, found, found']
    rfl
  · simp only [FlatStack.descriptor, descriptor, unknown, unknown']
    rfl

/-- The frame below one between others is the first of those entered before it. -/
theorem previous_of_split {above below : List Frame} {frame : Frame}
    (entered : stack.frames.Pairwise fun newer older => older.id.number < newer.id.number)
    (split : stack.frames = above ++ frame :: below)
    : stack.previous frame.id = .ok (below.head?.map Frame.id) := by
  have found : stack.frame frame.id = .ok frame := by
    simp only [FrameStack.frame, find?, find?_of_split entered split]
  have newer := (ne_of_split entered split).1
  have rest : stack.frames.dropWhile (·.id != frame.id) = frame :: below := by
    rw [split, List.dropWhile_append_of_pos fun other member => by simpa using newer other member]
    simp
  simp only [previous, found, rest]
  rfl

/-- The flat form knows the frame below every frame. -/
theorem Proper.previous_flat (proper : stack.Proper) (id : FrameId)
    : stack.flat.previous id = stack.previous id := by
  rcases proper.looksUp id with ⟨above, frame, below, split, rfl, _, found'⟩ | ⟨_, unknown, unknown'⟩
  · rw [previous_of_split proper.entered split, FlatStack.previous, found']
    rfl
  · simp only [FlatStack.previous, previous, unknown, unknown']
    rfl

-----------------------------------------------------------------------------------------
-- Slots
-----------------------------------------------------------------------------------------

/-- Setting a slot of a frame between others changes that frame alone. -/
theorem setSlotAt_of_split {above below : List Frame} {frame : Frame}
    (entered : stack.frames.Pairwise fun newer older => older.id.number < newer.id.number)
    (split : stack.frames = above ++ frame :: below) (position : Nat) (value : Value)
    : stack.setSlotAt frame.id position value
      = { stack with
          frames :=
            above
              ++ { frame with slots := frame.slots.setIfInBounds position value } :: below } := by
  obtain ⟨newer, older⟩ := ne_of_split entered split
  simp only [setSlotAt, split, List.map_append, List.map_cons, if_true, FrameStack.mk.injEq,
    and_true]
  congr 1
  · exact (List.map_congr_left fun other member => if_neg (newer other member)).trans (by simp)
  · congr 1
    exact (List.map_congr_left fun other member => if_neg (older other member)).trans (by simp)

/-- What a slot of a frame between others holds. -/
theorem slotAt_of_split {above below : List Frame} {frame : Frame}
    (entered : stack.frames.Pairwise fun newer older => older.id.number < newer.id.number)
    (split : stack.frames = above ++ frame :: below) (position : Nat)
    : stack.slotAt frame.id position = frame.slots[position]?.getD .null := by
  simp only [slotAt, find?, find?_of_split entered split, Option.bind_some]

/-- The slots of a frame between others lie between those of the frames below and above it. -/
theorem flatSlots_of_split (above below : List Frame) (frame : Frame)
    : flatSlots (above ++ frame :: below)
      = flatSlots below ++ (frame.slots.toList ++ flatSlots above) := by
  rw [flatSlots_append, flatSlots, List.append_assoc]

/-- The flat form reads a slot of a frame where the slots of the frames below end. -/
theorem getD_flat_of_split {above below : List Frame} {frame : Frame}
    (entered : stack.frames.Pairwise fun newer older => older.id.number < newer.id.number)
    (split : stack.frames = above ++ frame :: below) {position : Nat}
    (inside : position < frame.slots.size)
    : stack.flat.slots.getD ((flatSlots below).length + position) .null
      = stack.slotAt frame.id position := by
  rw [slotAt_of_split entered split]
  simp only [flat, split, flatSlots_of_split]
  rw [List.getD_eq_getElem?_getD, List.getElem?_append_right (Nat.le_add_right _ _),
    Nat.add_sub_cancel_left, List.getElem?_append_left (by simpa using inside)]
  simp

/-- Entries do not depend on what slots hold. -/
theorem flatEntries_outline (frames : List Frame)
    : flatEntries (frames.map Frame.outline) = flatEntries frames := by
  have length : ∀ frames : List Frame,
      (flatSlots (frames.map Frame.outline)).length = (flatSlots frames).length := by
    intro frames
    induction frames with
    | nil => rfl
    | cons frame frames ih => simp [flatSlots, ih, Frame.outline]
  induction frames with
  | nil => rfl
  | cons frame frames ih =>
      have first : (frames.map Frame.outline).head?.map Frame.id = frames.head?.map Frame.id := by
        cases frames <;> rfl
      simp only [List.map_cons, flatEntries, ih, entryAbove, first, length]
      rfl

/-- Two stacks with the same outline have the same entries. -/
theorem entries_of_outline {other : FrameStack} (same : other.outline = stack.outline)
    : flatEntries other.frames = flatEntries stack.frames := by
  rw [← flatEntries_outline other.frames, ← flatEntries_outline stack.frames]
  exact congrArg (fun stack => flatEntries stack.frames) same

/-- Setting a slot in the flat form sets it where the slots of the frames below end. -/
theorem setSlotAt_flat_of_split {above below : List Frame} {frame : Frame}
    (entered : stack.frames.Pairwise fun newer older => older.id.number < newer.id.number)
    (split : stack.frames = above ++ frame :: below) {position : Nat}
    (inside : position < frame.slots.size) (value : Value)
    : (stack.setSlotAt frame.id position value).flat
      = { stack.flat with
          slots := stack.flat.slots.set ((flatSlots below).length + position) value } := by
  have behind : ¬ (flatSlots below).length + position < (flatSlots below).length := by omega
  have within : position < frame.slots.toList.length := by simpa using inside
  have entries := entries_of_outline (Heap.outline_setSlotAt stack frame.id position value)
  simp only [flat, FlatStack.mk.injEq]
  refine ⟨entries, ?_, rfl⟩
  rw [setSlotAt_of_split entered split, split, flatSlots_of_split, flatSlots_of_split,
    List.set_append, if_neg behind, Nat.add_sub_cancel_left, List.set_append, if_pos within,
    Array.toList_setIfInBounds]

/-- A declared slot is one of the slots of its frame. -/
theorem Proper.lt_size (proper : stack.Proper) {frame : Frame} (member : frame ∈ stack.frames)
    {kind : SlotKind} {index : Nat} (declared : index < frame.descriptor.count kind)
    : frame.descriptor.base kind + index < frame.slots.size := by
  rw [proper.sized frame member]
  cases kind <;> simp only [FrameDescriptor.count, FrameDescriptor.base, FrameDescriptor.slots] at *
    <;> omega

/-- The flat form finds a declared slot, or the same fault. -/
theorem Proper.place_flat (proper : stack.Proper) (id : FrameId) (kind : SlotKind) (index : Nat)
    : (∃ above frame below,
        stack.frames = above ++ frame :: below
        ∧ frame.id = id
        ∧ frame.descriptor.base kind + index < frame.slots.size
        ∧ stack.position id kind index = .ok (frame.descriptor.base kind + index)
        ∧ stack.flat.place id kind index
          = .ok ((flatSlots below).length + (frame.descriptor.base kind + index)))
      ∨ ∃ violation,
          stack.position id kind index = .error violation
          ∧ stack.flat.place id kind index = .error violation := by
  rcases proper.looksUp id with ⟨above, frame, below, split, named, found, found'⟩
    | ⟨_, unknown, unknown'⟩
  · by_cases declared : index < frame.descriptor.count kind
    · refine .inl ⟨above, frame, below, split, named, proper.lt_size (by simp [split]) declared, ?_, ?_⟩
      · simp only [position, found, bind, Except.bind, declared, if_true]
        rfl
      · simp only [FlatStack.place, found', bind, Except.bind, entryAbove, declared, if_true,
          Nat.add_assoc]
        rfl
    · refine .inr ⟨.slotOutOfRange frame.descriptor.name kind index (frame.descriptor.count kind),
        ?_, ?_⟩
      · simp only [position, found, bind, Except.bind, declared, if_false]
        rfl
      · simp only [FlatStack.place, found', bind, Except.bind, entryAbove, declared, if_false]
        rfl
  · refine .inr ⟨.unknownFrame id, ?_, ?_⟩
    · simp only [position, unknown, bind, Except.bind]
    · simp only [FlatStack.place, unknown', bind, Except.bind]

/-- Reading a slot is the same in the flat form. -/
theorem Proper.get_flat (proper : stack.Proper) (id : FrameId) (kind : SlotKind) (index : Nat)
    : stack.flat.get id kind index = stack.get id kind index := by
  rcases proper.place_flat id kind index with ⟨above, frame, below, split, rfl, inside, here, there⟩
    | ⟨violation, here, there⟩
  · simp only [FlatStack.get, get, here, there, Functor.map, Except.map,
      getD_flat_of_split proper.entered split inside]
  · simp only [FlatStack.get, get, here, there, Functor.map, Except.map]

/-- Setting a slot is the same in the flat form. -/
theorem Proper.set_flat (proper : stack.Proper) (id : FrameId) (kind : SlotKind) (index : Nat)
    (value : Value)
    : stack.flat.set id kind index value = (stack.set id kind index value).map flat := by
  rcases proper.place_flat id kind index with ⟨above, frame, below, split, rfl, inside, here, there⟩
    | ⟨violation, here, there⟩
  · simp only [FlatStack.set, set, here, there, Functor.map, Except.map,
      setSlotAt_flat_of_split proper.entered split inside]
  · simp only [FlatStack.set, set, here, there, Functor.map, Except.map]

-----------------------------------------------------------------------------------------
-- Stacks stay in order
-----------------------------------------------------------------------------------------

/-- A stack with fewer frames is still in order. -/
theorem Proper.sublist (proper : stack.Proper) {frames : List Frame}
    (fewer : frames.Sublist stack.frames)
    : Proper { stack with frames } where
  entered := proper.entered.sublist fewer
  numbered frame member := proper.numbered frame (fewer.subset member)
  sized frame member := proper.sized frame (fewer.subset member)

/-- A frame that was just entered has the slots that it declares and the largest handle. -/
theorem Proper.push (proper : stack.Proper) {descriptor : FrameDescriptor} {params : List Value}
    {id : FrameId} {pushed : FrameStack} (entered : stack.push descriptor params = .ok (id, pushed))
    : pushed.Proper := by
  unfold FrameStack.push at entered
  split_ifs at entered with arity
  cases entered
  refine ⟨List.pairwise_cons.mpr ⟨fun older member => proper.numbered older member,
    proper.entered⟩, ?_, ?_⟩
  · intro frame member
    rcases List.mem_cons.mp member with rfl | member
    · exact Nat.lt_succ_self _
    · exact Nat.lt_succ_of_lt (proper.numbered frame member)
  · intro frame member
    rcases List.mem_cons.mp member with rfl | member
    · simp [FrameDescriptor.slots, arity]
    · exact proper.sized frame member

/-- A stack is in order if one with the same outline is. -/
theorem Proper.of_outline (proper : stack.Proper) {other : FrameStack}
    (same : other.outline = stack.outline)
    : other.Proper := by
  have outlined : ∀ stack : FrameStack, stack.Proper ↔ stack.outline.Proper := by
    intro stack
    constructor
    · intro proper
      refine ⟨List.pairwise_map.mpr proper.entered, ?_, ?_⟩
      · exact List.forall_mem_map.mpr proper.numbered
      · exact List.forall_mem_map.mpr fun frame member => by
          simpa [Frame.outline] using proper.sized frame member
    · intro proper
      refine ⟨List.pairwise_map.mp proper.entered, ?_, ?_⟩
      · exact List.forall_mem_map.mp proper.numbered
      · exact fun frame member => by
          simpa [Frame.outline] using proper.sized _ (List.mem_map_of_mem member)
  rw [outlined, same, ← outlined]
  exact proper

-----------------------------------------------------------------------------------------
-- Walks
-----------------------------------------------------------------------------------------

theorem visitSlots_append (visit : Value → τ → Value × τ) (first second : List (FrameId × Nat))
    (stack : FrameStack) (host : τ)
    : stack.visitSlots visit (first ++ second) host
      = (stack.visitSlots visit first host).1.visitSlots visit second
          (stack.visitSlots visit first host).2 := by
  induction first generalizing stack host with
  | nil => rfl
  | cons slot first ih => simp only [List.cons_append, visitSlots, ih]

/-- Visiting slots moves no frame. -/
theorem outline_visitSlots (visit : Value → τ → Value × τ) (slots : List (FrameId × Nat))
    (stack : FrameStack) (host : τ)
    : (stack.visitSlots visit slots host).1.outline = stack.outline := by
  induction slots generalizing stack host with
  | nil => rfl
  | cons slot slots ih => exact (ih _ _).trans (Heap.outline_setSlotAt _ _ _ _)

/-- Visiting the slots of a frame from a position on is the same in the flat form, and changes nothing
but that frame's slots.
-/
theorem visitRange_flat (visit : Value → τ → Value × τ) {above below : List Frame}
    (count start : Nat) {stack : FrameStack} (proper : stack.Proper) {frame : Frame}
    (split : stack.frames = above ++ frame :: below) (whole : start + count = frame.slots.size)
    (host : τ)
    : let visited := stack.visitSlots visit ((List.range' start count).map (frame.id, ·)) host
      (∃ slots, visited.1.frames = above ++ { frame with slots } :: below
        ∧ slots.size = frame.slots.size)
      ∧ FlatStack.visitRange visit count ((flatSlots below).length + start) stack.flat.slots host
        = (visited.1.flat.slots, visited.2) := by
  induction count generalizing start stack frame host with
  | zero => exact ⟨⟨frame.slots, split, rfl⟩, rfl⟩
  | succ count ih =>
      have inside : start < frame.slots.size := by omega
      have set : ∀ value, (stack.setSlotAt frame.id start value).frames
          = above ++ { frame with slots := frame.slots.setIfInBounds start value } :: below :=
        fun value => congrArg FrameStack.frames (setSlotAt_of_split proper.entered split start value)
      have slots : ∀ value, (stack.setSlotAt frame.id start value).flat.slots
          = stack.flat.slots.set ((flatSlots below).length + start) value :=
        fun value =>
          congrArg FlatStack.slots (setSlotAt_flat_of_split proper.entered split inside value)
      obtain ⟨⟨final, frames, size⟩, visited⟩ :=
        ih (start + 1) (proper.of_outline (Heap.outline_setSlotAt _ _ _ _)) (set _)
          (by simp; omega) (visit (stack.slotAt frame.id start) host).2
      rw [slots] at visited
      refine ⟨⟨final, frames, by simpa using size⟩, ?_⟩
      simp only [FlatStack.visitRange, getD_flat_of_split proper.entered split inside]
      exact visited

/-- Visiting the slots of the frames below some is the same in the flat form. -/
theorem walkDown_flat (visit : Value → τ → Value × τ) (below above : List Frame)
    {stack : FrameStack} (proper : stack.Proper) (split : stack.frames = above ++ below) (host : τ)
    : let visited := stack.visitSlots visit (roots ⟨below, 0⟩) host
      FlatStack.walkDown visit (flatEntries below).reverse (flatSlots below).length
          stack.flat.slots host
        = (visited.1.flat.slots, visited.2) := by
  induction below generalizing above stack host with
  | nil => rfl
  | cons frame below ih =>
      have own : (flatSlots (frame :: below)).length - (flatSlots below).length
          = frame.slots.size := by
        simp [flatSlots]
      obtain ⟨⟨slots, frames, -⟩, range⟩ :=
        visitRange_flat visit frame.slots.size 0 proper split (Nat.zero_add _) host
      rw [← List.range_eq_range'] at frames range
      have rest := ih (above ++ [{ frame with slots }])
        (proper.of_outline (outline_visitSlots visit _ stack host))
        (by rw [frames, List.append_assoc]; rfl)
        (stack.visitSlots visit ((List.range frame.slots.size).map (frame.id, ·)) host).2
      have order : roots ⟨frame :: below, 0⟩
          = (List.range frame.slots.size).map (frame.id, ·) ++ roots ⟨below, 0⟩ := rfl
      simp only [order, visitSlots_append]
      simp only [flatEntries, List.reverse_append, List.reverse_cons, List.reverse_nil,
        List.nil_append, List.cons_append, FlatStack.walkDown]
      simp only [entryAbove, own, Nat.add_zero] at range ⊢
      rw [range]
      exact rest

/-- A walk is the same in the flat form. -/
theorem Proper.walk_flat (proper : stack.Proper) (visit : Value → τ → Value × τ) (host : τ)
    : stack.flat.walk visit host
      = ((stack.walk visit host).1.flat, (stack.walk visit host).2) := by
  have visited := walkDown_flat visit stack.frames [] proper rfl host
  have outline : (stack.walk visit host).1.outline = stack.outline := outline_visitSlots _ _ _ _
  have next : (stack.walk visit host).1.nextNumber = stack.nextNumber :=
    (congrArg FrameStack.nextNumber outline :)
  rw [FlatStack.walk, show stack.flat.entries = flatEntries stack.frames from rfl,
    show stack.flat.slots.length = (flatSlots stack.frames).length from rfl, visited]
  simp only [flat, entries_of_outline outline, next]
  rfl

/-- Visiting the slots of a frame from a position on sees what they hold and changes it. -/
theorem visitRange_values (change : Value → Value) {above below : List Frame} (count start : Nat)
    {stack : FrameStack} (proper : stack.Proper) {frame : Frame}
    (split : stack.frames = above ++ frame :: below) (whole : start + count = frame.slots.size)
    (seen : List Value)
    : stack.visitSlots (fun value seen => (change value, seen ++ [value]))
        ((List.range' start count).map (frame.id, ·)) seen
      = ({ stack with
            frames :=
              above
                ++ { frame with
                      slots :=
                        (frame.slots.toList.take start
                          ++ (frame.slots.toList.drop start).map change).toArray }
                  :: below },
          seen ++ frame.slots.toList.drop start) := by
  induction count generalizing start stack frame seen with
  | zero =>
      have all : frame.slots.toList.length ≤ start := by simp; omega
      simp [visitSlots, List.drop_eq_nil_of_le all, List.take_of_length_le all, ← split]
  | succ count ih =>
      have inside : start < frame.slots.toList.length := by simp; omega
      have within : start < frame.slots.size := by omega
      have held : stack.slotAt frame.id start = frame.slots.toList[start] := by
        rw [slotAt_of_split proper.entered split, Array.getElem?_eq_getElem within]
        simp
      have next := ih (start + 1) (proper.of_outline (Heap.outline_setSlotAt stack frame.id start
        (change frame.slots.toList[start])))
        (congrArg FrameStack.frames (setSlotAt_of_split proper.entered split start _))
        (by simp; omega) (seen ++ [frame.slots.toList[start]])
      simp only [List.range'_succ, List.map_cons, visitSlots, held]
      rw [next, List.drop_eq_getElem_cons inside]
      simp [List.take_add_one, within, setSlotAt, List.take_set_of_le, List.drop_set_of_lt]

/-- A walk that changes every value sees what all slots hold. -/
theorem Proper.walk_values {stack : FrameStack} (proper : stack.Proper) (change : Value → Value)
    (seen : List Value)
    : stack.walk (fun value seen => (change value, seen ++ [value])) seen
      = (stack.mapValues change, seen ++ stack.values) := by
  have visits : ∀ (below above : List Frame) {stack : FrameStack}, stack.Proper →
      stack.frames = above ++ below → ∀ seen,
      stack.visitSlots (fun value seen => (change value, seen ++ [value])) (roots ⟨below, 0⟩) seen
        = ({ stack with
              frames :=
                above
                  ++ below.map fun frame => { frame with slots := frame.slots.map change } },
            seen ++ below.flatMap (·.slots.toList)) := by
    intro below
    induction below with
    | nil =>
        intro above stack _ split seen
        simp [roots, visitSlots, ← split]
    | cons frame below ih =>
        intro above stack proper split seen
        have order : roots ⟨frame :: below, 0⟩
            = (List.range frame.slots.size).map (frame.id, ·) ++ roots ⟨below, 0⟩ := rfl
        have own := visitRange_values change frame.slots.size 0 proper split (Nat.zero_add _) seen
        have outline := outline_visitSlots (fun value seen => (change value, seen ++ [value]))
          ((List.range frame.slots.size).map (frame.id, ·)) stack seen
        have whole : (frame.slots.toList.take 0 ++ (frame.slots.toList.drop 0).map change).toArray
            = frame.slots.map change := by
          rw [List.take_zero, List.drop_zero, List.nil_append, ← Array.toList_map]
        rw [← List.range_eq_range', whole] at own
        rw [own] at outline
        rw [order, visitSlots_append, own,
          ih (above ++ [{ frame with slots := frame.slots.map change }]) (proper.of_outline outline)
            (by simp)]
        simp
  exact (visits stack.frames [] proper rfl seen).trans rfl

end FrameStack

end MovingHeap
