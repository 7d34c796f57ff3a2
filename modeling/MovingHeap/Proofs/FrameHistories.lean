import MovingHeap.Proofs.FlatFrames
import MovingHeap.Proofs.RootChanges

/-! What frames tell of what was done to them.
Of everything that happened to some frames a record is kept, without any stack. Which frames are live and
what their slots hold can be read from that record, and the stack agrees with it after any commands, in
either form.
-/

namespace MovingHeap

variable {τ ω : Type}

/-- A slot that a frame declares. -/
structure FrameSlot where
  id : FrameId
  kind : SlotKind
  index : Nat
  deriving DecidableEq

/-- What can be done to frames; visitors of walks share what they know. -/
inductive FrameCommand (τ : Type) where
  | push (descriptor : FrameDescriptor) (params : List Value)
  | pop (id : FrameId)
  | unwindTo (saved : Option FrameId)
  | set (slot : FrameSlot) (value : Value)
  | walk (visit : Value → τ → Value × τ)

/-- What a command is answered with: the frame that was entered, if one was. -/
abbrev FrameAnswer := Except Violation (Option FrameId)

/-- The operations of a form of stacks. -/
structure FrameOperations (ω τ : Type) where
  push : ω → FrameDescriptor → List Value → Except Violation (FrameId × ω)
  pop : ω → FrameId → Except Violation ω
  unwindTo : ω → Option FrameId → ω
  set : ω → FrameId → SlotKind → Nat → Value → Except Violation ω
  walk : ω → (Value → τ → Value × τ) → τ → ω × τ

namespace FrameOperations

/-- Does what a command says; a command that fails changes nothing. -/
def obey (operations : FrameOperations ω τ) (stack : ω) (host : τ)
    : FrameCommand τ → FrameAnswer × ω × τ
  | .push descriptor params =>
      match operations.push stack descriptor params with
      | .ok (id, pushed) => (.ok (some id), pushed, host)
      | .error violation => (.error violation, stack, host)
  | .pop id => settle (operations.pop stack id)
  | .unwindTo saved => (.ok none, operations.unwindTo stack saved, host)
  | .set slot value => settle (operations.set stack slot.id slot.kind slot.index value)
  | .walk visit =>
      let walked := operations.walk stack visit host
      (.ok none, walked.1, walked.2)
where
  /-- Keeps what a change that may fail led to. -/
  settle : Except Violation ω → FrameAnswer × ω × τ
    | .ok changed => (.ok none, changed, host)
    | .error violation => (.error violation, stack, host)

/-- Does what some commands say and collects the answers. -/
def obeyAll (operations : FrameOperations ω τ) (stack : ω) (host : τ)
    : List (FrameCommand τ) → List FrameAnswer × ω × τ
  | [] => ([], stack, host)
  | command :: commands =>
      let first := operations.obey stack host command
      let rest := operations.obeyAll first.2.1 first.2.2 commands
      (first.1 :: rest.1, rest.2)

end FrameOperations

/-- The operations of frames with slots of their own. -/
def FrameStack.operations (τ : Type) : FrameOperations FrameStack τ where
  push := FrameStack.push
  pop := FrameStack.pop
  unwindTo := FrameStack.unwindTo
  set := FrameStack.set
  walk := FrameStack.walk

/-- The operations of frames that share one list of slots. -/
def FlatStack.operations (τ : Type) : FrameOperations FlatStack τ where
  push := FlatStack.push
  pop := FlatStack.pop
  unwindTo := FlatStack.unwindTo
  set := FlatStack.set
  walk := FlatStack.walk

-----------------------------------------------------------------------------------------
-- Records
-----------------------------------------------------------------------------------------

/-- Something that happened to frames. -/
inductive FrameEvent where
  | entered (id : FrameId) (descriptor : FrameDescriptor) (params : List Value)
  | left (id : FrameId)
  | unwound (saved : Option FrameId)
  | wrote (slot : FrameSlot) (value : Value)

/-- The slots that a descriptor declares, parameters before locals, with their positions. -/
def FrameDescriptor.places (descriptor : FrameDescriptor) (id : FrameId) : List (FrameSlot × Nat) :=
  (List.range descriptor.params).map (fun index => (⟨id, .param, index⟩, index))
    ++ (List.range descriptor.locals).map fun index =>
      (⟨id, .local, index⟩, descriptor.params + index)

namespace FrameEvent

/-- The frames that were entered and not left since, the one entered last in front. The last event of a
record is in front, too.
-/
def live : List FrameEvent → List (FrameId × FrameDescriptor)
  | [] => []
  | .entered id descriptor _ :: earlier => (id, descriptor) :: live earlier
  | .left id :: earlier => (live earlier).filter fun frame => frame.1 ≠ id
  | .unwound saved :: earlier =>
      (live earlier).filter fun frame => saved.any fun mark => frame.1.number ≤ mark.number
  | .wrote .. :: earlier => live earlier

/-- The handles that were ever given. -/
def issued : List FrameEvent → List FrameId
  | [] => []
  | .entered id .. :: earlier => id :: issued earlier
  | _ :: earlier => issued earlier

/-- What was last written to a slot, else its parameter, else null. -/
def recalled : List FrameEvent → FrameSlot → Value
  | [], _ => .null
  | .wrote written value :: earlier, slot => if slot = written then value else recalled earlier slot
  | .entered id _ params :: earlier, slot =>
      if slot.id = id then
        match slot.kind with
        | .param => params[slot.index]?.getD .null
        | .local => .null
      else recalled earlier slot
  | _ :: earlier, slot => recalled earlier slot

/-- The declared slots of the live frames, innermost frame first, with their positions. -/
def places (events : List FrameEvent) : List (FrameSlot × Nat) :=
  (live events).flatMap fun frame => frame.2.places frame.1

/-- What is known of a slot: what it holds, unless its frame is not live or declares no such slot. -/
def told (events : List FrameEvent) (slot : FrameSlot) : Except Violation Value :=
  match (live events).lookup slot.id with
  | none => .error (.unknownFrame slot.id)
  | some descriptor =>
      if slot.index < descriptor.count slot.kind then .ok (recalled events slot)
      else .error (.slotOutOfRange descriptor.name slot.kind slot.index (descriptor.count slot.kind))

/-- Records what a visitor makes of what some slots hold, one after the other. -/
def visited (visit : Value → τ → Value × τ)
    : List FrameSlot → List FrameEvent → τ → List FrameEvent × τ
  | [], events, host => (events, host)
  | slot :: slots, events, host =>
      let answer := visit (recalled events slot) host
      visited visit slots (.wrote slot answer.1 :: events) answer.2

/-- Records a command that was answered. -/
def noted (events : List FrameEvent) (host : τ) : FrameCommand τ → FrameAnswer → List FrameEvent
  | .push descriptor params, .ok (some id) => .entered id descriptor params :: events
  | .pop id, .ok _ => .left id :: events
  | .unwindTo saved, .ok _ => .unwound saved :: events
  | .set slot value, .ok _ => .wrote slot value :: events
  | .walk visit, .ok _ => (visited visit ((places events).map Prod.fst) events host).1
  | _, _ => events

end FrameEvent

/-- A stack of frames, what visitors know and the record of what happened. -/
structure FrameHistory (τ : Type) where
  stack : FrameStack := {}
  host : τ
  events : List FrameEvent := []

namespace FrameHistory

/-- Does what a command says and records it. -/
def perform (history : FrameHistory τ) (command : FrameCommand τ) : FrameHistory τ :=
  let obeyed := (FrameStack.operations τ).obey history.stack history.host command
  { stack := obeyed.2.1
    host := obeyed.2.2
    events := FrameEvent.noted history.events history.host command obeyed.1 }

/-- What some commands lead to, from no frames on. -/
def play (host : τ) (commands : List (FrameCommand τ)) : FrameHistory τ :=
  commands.foldl perform { host }

end FrameHistory

-----------------------------------------------------------------------------------------
-- Stacks follow records
-----------------------------------------------------------------------------------------

namespace FrameStack

open FrameEvent

/-- A stack is what a record says: its frames are the live ones, and their slots hold what is recalled. -/
structure Follows (stack : FrameStack) (events : List FrameEvent) : Prop extends stack.Proper where
  live : stack.frames.map (fun frame => (frame.id, frame.descriptor)) = FrameEvent.live events
  holds
    : ∀ frame ∈ stack.frames, ∀ kind index,
        index < frame.descriptor.count kind →
        frame.slots[frame.descriptor.base kind + index]?
        = some (recalled events ⟨frame.id, kind, index⟩)
  issued : ∀ id ∈ FrameEvent.issued events, id.number < stack.nextNumber

variable {stack : FrameStack} {events : List FrameEvent}

/-- A frame that is live is the one with its handle. -/
theorem Proper.slotAt_of_mem (proper : stack.Proper) {frame : Frame} (member : frame ∈ stack.frames)
    (position : Nat)
    : stack.slotAt frame.id position = frame.slots[position]?.getD .null := by
  obtain ⟨above, below, split⟩ := List.append_of_mem member
  exact slotAt_of_split proper.entered split position

/-- Unwinding leaves exactly the frames entered no later than a handle. -/
theorem frames_unwindTo (saved : Option FrameId)
    (entered : stack.frames.Pairwise fun newer older => older.id.number < newer.id.number)
    : (stack.unwindTo saved).frames = stack.frames.filter fun frame => isWithin saved frame.id := by
  simp only [unwindTo]
  generalize stack.frames = frames at entered ⊢
  induction entered with
  | nil => rfl
  | @cons top rest newest _ ih =>
      by_cases within : isWithin saved top.id
      · -- every older frame has a smaller handle, so none of them goes
        have all : ∀ frame ∈ top :: rest, isWithin saved frame.id = true := by
          intro frame member
          rcases List.mem_cons.mp member with rfl | older
          · exact within
          · have less := newest frame older
            simp only [isWithin, Option.any_eq_true, decide_eq_true_eq] at within ⊢
            obtain ⟨mark, here, bound⟩ := within
            exact ⟨mark, here, by omega⟩
        rw [List.filter_eq_self.mpr all]
        simp [within]
      · simp only [List.dropWhile_cons, List.filter_cons, within]
        simpa using ih

/-- No frames follow an empty record. -/
theorem follows_empty : Follows {} [] where
  entered := .nil
  numbered _ member := by cases member
  sized _ member := by cases member
  live := rfl
  holds _ member := by cases member
  issued _ member := by cases member

/-- Entering a frame follows. -/
theorem Follows.push (follows : stack.Follows events) {descriptor : FrameDescriptor}
    {params : List Value} {id : FrameId} {pushed : FrameStack}
    (entered : stack.push descriptor params = .ok (id, pushed))
    : pushed.Follows (.entered id descriptor params :: events) := by
  have proper := follows.toProper.push entered
  unfold FrameStack.push at entered
  split_ifs at entered with arity
  cases entered
  refine ⟨proper, ?_, ?_, ?_⟩
  · simp [FrameEvent.live, follows.live]
  · intro frame member kind index declared
    rcases List.mem_cons.mp member with rfl | member
    · cases kind with
      | param =>
          simp only [FrameDescriptor.count, ← arity] at declared
          have given : index < params.toArray.size := by simpa using declared
          simp [FrameDescriptor.base, recalled, declared, Array.getElem?_append_left given]
      | «local» =>
          simp only [FrameDescriptor.count] at declared
          simp [FrameDescriptor.base, recalled, ← arity, declared]
    · have older := follows.numbered frame member
      have differs : frame.id ≠ ⟨stack.nextNumber⟩ := by
        intro same
        rw [same] at older
        exact Nat.lt_irrefl _ older
      simp only [recalled, if_neg differs]
      exact follows.holds frame member kind index declared
  · intro other member
    rcases List.mem_cons.mp member with rfl | member
    · exact Nat.lt_succ_self _
    · exact Nat.lt_succ_of_lt (follows.issued other member)

/-- Where frames were taken away, the others follow a record that says just that. -/
theorem Follows.filter (follows : stack.Follows events) (keep : FrameId → Bool)
    {later : List FrameEvent}
    (live : FrameEvent.live later = (FrameEvent.live events).filter fun frame => keep frame.1)
    (recalled : FrameEvent.recalled later = FrameEvent.recalled events)
    (issued : FrameEvent.issued later = FrameEvent.issued events)
    : Follows { stack with frames := stack.frames.filter fun frame => keep frame.id } later where
  toProper := follows.toProper.sublist List.filter_sublist
  live := by
    rw [live, ← follows.live, List.filter_map]
    rfl
  holds frame member kind index declared := by
    rw [recalled]
    exact follows.holds frame (List.mem_of_mem_filter member) kind index declared
  issued := by
    rw [issued]
    exact follows.issued

/-- Leaving the current frame follows. -/
theorem Follows.pop (follows : stack.Follows events) {id : FrameId} {left : FrameStack}
    (leaves : stack.pop id = .ok left)
    : left.Follows (.left id :: events) := by
  unfold FrameStack.pop at leaves
  split at leaves
  · next top rest frames =>
      split_ifs at leaves with same
      cases leaves
      have split : stack.frames = [] ++ top :: rest := frames
      have others := (ne_of_split follows.entered split).2
      have kept : rest = stack.frames.filter fun frame => decide (frame.id ≠ id) := by
        rw [frames, List.filter_cons, if_neg (by simpa using same),
          List.filter_eq_self.mpr fun frame member => by
            simpa [same] using others frame member]
      rw [kept]
      exact follows.filter (fun frame => decide (frame ≠ id)) rfl rfl rfl
  · cases leaves

/-- Unwinding follows. -/
theorem Follows.unwindTo (follows : stack.Follows events) (saved : Option FrameId)
    : (stack.unwindTo saved).Follows (.unwound saved :: events) := by
  have kept := frames_unwindTo saved follows.entered
  have whole : stack.unwindTo saved
      = { stack with frames := stack.frames.filter fun frame => isWithin saved frame.id } := by
    rw [← kept]
    rfl
  rw [whole]
  exact follows.filter _ rfl rfl rfl

/-- Writing a declared slot follows. -/
theorem Follows.setSlotAt (follows : stack.Follows events) {frame : Frame}
    (member : frame ∈ stack.frames) {kind : SlotKind} {index : Nat}
    (declared : index < frame.descriptor.count kind) (value : Value)
    : (stack.setSlotAt frame.id (frame.descriptor.base kind + index) value).Follows
        (.wrote ⟨frame.id, kind, index⟩ value :: events) := by
  obtain ⟨above, below, split⟩ := List.append_of_mem member
  obtain ⟨newer, older⟩ := ne_of_split follows.entered split
  have inside := follows.toProper.lt_size member declared
  have outline := Heap.outline_setSlotAt stack frame.id (frame.descriptor.base kind + index) value
  have same : ∀ stack : FrameStack, stack.outline.frames.map (fun frame => (frame.id, frame.descriptor))
      = stack.frames.map fun frame => (frame.id, frame.descriptor) := by
    intro stack
    simp [FrameStack.outline, Frame.outline, Function.comp_def]
  refine ⟨follows.toProper.of_outline outline, ?_, ?_, follows.issued⟩
  · rw [← same, outline, same]
    exact follows.live
  · rw [setSlotAt_of_split follows.entered split]
    intro other among otherKind otherIndex otherDeclared
    -- the slots of another frame are as they were, and their record is as well
    have untouched : other ∈ stack.frames → other.id ≠ frame.id →
        other.slots[other.descriptor.base otherKind + otherIndex]?
          = some (recalled (.wrote ⟨frame.id, kind, index⟩ value :: events)
              ⟨other.id, otherKind, otherIndex⟩) := by
      intro member' differs
      rw [recalled, if_neg fun same => differs (congrArg FrameSlot.id same)]
      exact follows.holds other member' otherKind otherIndex otherDeclared
    rcases List.mem_append.mp among with first | rest
    · exact untouched (by simp [split, first]) (newer other first)
    · rcases List.mem_cons.mp rest with rfl | last
      · by_cases here : otherKind = kind ∧ otherIndex = index
        · obtain ⟨rfl, rfl⟩ := here
          simp [recalled, inside]
        · have apart : frame.descriptor.base kind + index
              ≠ frame.descriptor.base otherKind + otherIndex := by
            cases kind <;> cases otherKind <;>
              simp only [FrameDescriptor.base, FrameDescriptor.count, true_and, reduceCtorEq,
                false_and, not_false_eq_true] at * <;> omega
          have differs : (⟨frame.id, otherKind, otherIndex⟩ : FrameSlot) ≠ ⟨frame.id, kind, index⟩ := by
            simpa using here
          simp only [recalled, if_neg differs, Array.getElem?_setIfInBounds, if_neg apart]
          exact follows.holds frame member otherKind otherIndex otherDeclared
      · exact untouched (by simp [split, last]) (older other last)

/-- The places of the declared slots are those of the slots, in the same order. -/
theorem Follows.roots_eq (follows : stack.Follows events)
    : stack.roots = (places events).map fun (slot, position) => (slot.id, position) := by
  have own : ∀ (descriptor : FrameDescriptor) (id : FrameId),
      (descriptor.places id).map (fun (slot, position) => (slot.id, position))
        = (List.range descriptor.slots).map (id, ·) := by
    intro descriptor id
    simp [FrameDescriptor.places, FrameDescriptor.slots, List.range_add, Function.comp_def]
  have sized := follows.sized
  rw [roots, places, ← follows.live, List.flatMap_map, List.map_flatMap]
  refine List.flatMap_congr fun frame member => ?_
  rw [own, sized frame member]

/-- A place among the declared slots is that of a slot of a live frame. -/
theorem Follows.of_mem_places (follows : stack.Follows events) {slot : FrameSlot} {position : Nat}
    (member : (slot, position) ∈ places events)
    : ∃ frame ∈ stack.frames,
        frame.id = slot.id
        ∧ slot.index < frame.descriptor.count slot.kind
        ∧ position = frame.descriptor.base slot.kind + slot.index := by
  rw [places, ← follows.live, List.flatMap_map] at member
  obtain ⟨frame, inside, here⟩ := List.mem_flatMap.mp member
  refine ⟨frame, inside, ?_⟩
  simp only [FrameDescriptor.places, List.mem_append, List.mem_map, List.mem_range,
    Prod.mk.injEq] at here
  rcases here with ⟨index, declared, rfl, rfl⟩ | ⟨index, declared, rfl, rfl⟩
  · exact ⟨rfl, declared, by simp [FrameDescriptor.base]⟩
  · exact ⟨rfl, declared, rfl⟩

/-- Visiting declared slots follows, and the visitor sees what is recalled of each. -/
theorem Follows.visitSlots (visit : Value → τ → Value × τ) (some : List (FrameSlot × Nat))
    {stack : FrameStack} {events : List FrameEvent} (follows : stack.Follows events)
    (declared : ∀ place ∈ some, place ∈ places events) (host : τ)
    : let visited := visited visit (some.map Prod.fst) events host
      let stack := stack.visitSlots visit (some.map fun (slot, position) => (slot.id, position)) host
      stack.1.Follows visited.1 ∧ stack.2 = visited.2 := by
  induction some generalizing stack events host with
  | nil => exact ⟨follows, rfl⟩
  | cons place rest ih =>
      obtain ⟨slot, position⟩ := place
      obtain ⟨frame, member, named, inside, rfl⟩ :=
        follows.of_mem_places (declared _ List.mem_cons_self)
      obtain ⟨id, kind, index⟩ := slot
      subst named
      have seen : stack.slotAt frame.id (frame.descriptor.base kind + index)
          = recalled events ⟨frame.id, kind, index⟩ := by
        rw [follows.toProper.slotAt_of_mem member, follows.holds frame member kind index inside]
        rfl
      simp only [List.map_cons, visited, FrameStack.visitSlots, seen]
      exact ih (follows.setSlotAt member inside _)
        (fun place among => declared place (List.mem_cons_of_mem _ among)) _

/-- A walk follows, and the visitor sees what is recalled of each declared slot, in order. -/
theorem Follows.walk (follows : stack.Follows events) (visit : Value → τ → Value × τ) (host : τ)
    : let visited := visited visit ((places events).map Prod.fst) events host
      (stack.walk visit host).1.Follows visited.1 ∧ (stack.walk visit host).2 = visited.2 := by
  rw [FrameStack.walk, follows.roots_eq]
  exact follows.visitSlots visit (places events) (fun _ => id) host

-----------------------------------------------------------------------------------------
-- What frames tell
-----------------------------------------------------------------------------------------

/-- The live frames are recorded with their descriptors. -/
theorem Follows.lookup_live (follows : stack.Follows events) (id : FrameId)
    : (FrameEvent.live events).lookup id = (stack.find? id).map Frame.descriptor := by
  rw [← follows.live, find?]
  generalize stack.frames = frames
  induction frames with
  | nil => rfl
  | cons frame frames ih =>
      by_cases same : frame.id = id
      · simp [same]
      · have differs : (id == frame.id) = false := by simpa using Ne.symm same
        simp [List.lookup_cons, same, differs, ih]

/-- The position of a slot is known exactly where the record tells what the slot holds. -/
theorem Follows.position_eq (follows : stack.Follows events) (slot : FrameSlot)
    : (∃ frame ∈ stack.frames,
        frame.id = slot.id
        ∧ slot.index < frame.descriptor.count slot.kind
        ∧ stack.position slot.id slot.kind slot.index
          = .ok (frame.descriptor.base slot.kind + slot.index)
        ∧ told events slot = .ok (recalled events slot))
      ∨ ∃ violation,
          stack.position slot.id slot.kind slot.index = .error violation
          ∧ told events slot = .error violation := by
  have known := follows.lookup_live slot.id
  cases found : stack.find? slot.id with
  | none =>
      simp only [found, Option.map_none] at known
      refine .inr ⟨.unknownFrame slot.id, ?_, ?_⟩
      · simp only [position, FrameStack.frame, found, bind, Except.bind]
      · simp only [told, known]
  | some frame =>
      simp only [found, Option.map_some] at known
      by_cases declared : slot.index < frame.descriptor.count slot.kind
      · refine .inl ⟨frame, List.mem_of_find?_eq_some found, by simpa using List.find?_some found,
          declared, ?_, ?_⟩
        · simp only [position, FrameStack.frame, found, bind, Except.bind, if_pos declared]
          rfl
        · simp only [told, known, if_pos declared]
      · refine .inr ⟨.slotOutOfRange frame.descriptor.name slot.kind slot.index
          (frame.descriptor.count slot.kind), ?_, ?_⟩
        · simp only [position, FrameStack.frame, found, bind, Except.bind, if_neg declared]
          rfl
        · simp only [told, known, if_neg declared]

/-- Reading a slot gives what the record tells. -/
theorem Follows.get_eq (follows : stack.Follows events) (slot : FrameSlot)
    : stack.get slot.id slot.kind slot.index = told events slot := by
  rcases follows.position_eq slot with ⟨frame, member, named, declared, here, told⟩
    | ⟨violation, here, told⟩
  · obtain ⟨id, kind, index⟩ := slot
    subst named
    simp only [get, here, told, Functor.map, Except.map]
    rw [follows.toProper.slotAt_of_mem member, follows.holds frame member kind index declared]
    rfl
  · simp only [get, here, told, Functor.map, Except.map]

/-- Setting a slot fails exactly as reading it does, and else follows. -/
theorem Follows.set_eq (follows : stack.Follows events) (slot : FrameSlot) (value : Value)
    : (∃ changed,
        stack.set slot.id slot.kind slot.index value = .ok changed
        ∧ changed.Follows (.wrote slot value :: events)
        ∧ told events slot = .ok (recalled events slot))
      ∨ ∃ violation,
          stack.set slot.id slot.kind slot.index value = .error violation
          ∧ told events slot = .error violation := by
  rcases follows.position_eq slot with ⟨frame, member, named, declared, here, told⟩
    | ⟨violation, here, told⟩
  · obtain ⟨id, kind, index⟩ := slot
    subst named
    refine .inl ⟨_, ?_, follows.setSlotAt member declared value, told⟩
    simp only [set, here, Functor.map, Except.map]
  · exact .inr ⟨violation, by simp only [set, here, Functor.map, Except.map], told⟩

/-- The frame below the current one is what leaving it uncovers. -/
theorem pop_current (entered
      : stack.frames.Pairwise fun newer older => older.id.number < newer.id.number)
    {id : FrameId} (current : stack.current = some id)
    : ∃ left,
        stack.pop id = .ok left
        ∧ left.frames = stack.frames.tail
        ∧ stack.previous id = .ok left.current := by
  cases frames : stack.frames with
  | nil => simp [FrameStack.current, frames] at current
  | cons top rest =>
      simp only [FrameStack.current, frames, List.head?_cons, Option.map_some,
        Option.some.injEq] at current
      subst current
      have split : stack.frames = [] ++ top :: rest := frames
      refine ⟨{ stack with frames := rest }, ?_, rfl, previous_of_split entered split⟩
      simp [pop, frames]

/-- No frame but the current one can be left. -/
theorem pop_mismatch {id : FrameId} (other : stack.current ≠ some id)
    : stack.pop id = .error (.frameMismatch stack.current id) := by
  cases frames : stack.frames with
  | nil => simp [pop, FrameStack.current, frames]
  | cons top rest =>
      have differs : top.id ≠ id := by
        simpa [FrameStack.current, frames] using other
      simp [pop, FrameStack.current, frames, differs]

/-- A new frame has a handle of its own, holds its parameters and else nulls. -/
theorem Follows.enters (follows : stack.Follows events) {descriptor : FrameDescriptor}
    {params : List Value} (arity : params.length = descriptor.params)
    : ∃ id pushed,
        stack.push descriptor params = .ok (id, pushed)
        ∧ id ∉ FrameEvent.issued events
        ∧ pushed.current = some id
        ∧ (∀ index (inside : index < params.length),
          pushed.get id .param index = .ok params[index])
        ∧ ∀ index < descriptor.locals, pushed.get id .local index = .ok .null := by
  let top : Frame := ⟨⟨stack.nextNumber⟩, descriptor,
    params.toArray ++ Array.replicate descriptor.locals .null⟩
  have entered : stack.push descriptor params
      = .ok (top.id, ⟨top :: stack.frames, stack.nextNumber + 1⟩) := by
    simp only [FrameStack.push, if_pos arity, top]
  have next := follows.push entered
  refine ⟨_, _, entered, ?_, rfl, ?_, ?_⟩
  · intro former
    exact Nat.lt_irrefl _ (follows.issued _ former)
  · intro index inside
    rw [next.get_eq ⟨top.id, .param, index⟩]
    simp [told, FrameEvent.live, recalled, FrameDescriptor.count, ← arity, inside]
  · intro index inside
    rw [next.get_eq ⟨top.id, .local, index⟩]
    simp [told, FrameEvent.live, recalled, FrameDescriptor.count, inside]

/-- The slots that a frame declares. -/
theorem mem_slots_iff {descriptor : FrameDescriptor} {id : FrameId} {slot : FrameSlot}
    : slot ∈ (descriptor.places id).map Prod.fst
      ↔ slot.id = id ∧ slot.index < descriptor.count slot.kind := by
  obtain ⟨other, kind, index⟩ := slot
  cases kind <;>
    simp [FrameDescriptor.places, FrameDescriptor.count, and_comm, eq_comm]

/-- No declared slot is visited twice. -/
theorem Follows.nodup_slots (follows : stack.Follows events)
    : ((places events).map Prod.fst).Nodup := by
  have own : ∀ (descriptor : FrameDescriptor) (id : FrameId),
      ((descriptor.places id).map Prod.fst).Nodup := by
    intro descriptor id
    simp only [FrameDescriptor.places, List.map_append, List.map_map, Function.comp_def]
    refine List.Nodup.append ?_ ?_ ?_
    · exact List.nodup_range.map fun left right same => by simpa using same
    · exact List.nodup_range.map fun left right same => by simpa using same
    · intro slot first second
      obtain ⟨index, -, rfl⟩ := List.mem_map.mp first
      obtain ⟨other, -, same⟩ := List.mem_map.mp second
      simp at same
  rw [places, ← follows.live, List.flatMap_map, List.map_flatMap, List.nodup_flatMap]
  refine ⟨fun frame _ => own frame.descriptor frame.id, follows.entered.imp ?_⟩
  intro newer older less slot first second
  have same : newer.id = older.id :=
    (mem_slots_iff.mp first).1.symm.trans (mem_slots_iff.mp second).1
  rw [same] at less
  exact Nat.lt_irrefl _ less

/-- The slots that are visited are those that can be read. -/
theorem Follows.mem_slots_iff (follows : stack.Follows events) (slot : FrameSlot)
    : slot ∈ (places events).map Prod.fst ↔ ∃ value, told events slot = .ok value := by
  rw [places, ← follows.live, List.flatMap_map, List.map_flatMap, List.mem_flatMap]
  constructor
  · intro ⟨frame, member, here⟩
    obtain ⟨named, declared⟩ := FrameStack.mem_slots_iff.mp here
    obtain ⟨above, below, split⟩ := List.append_of_mem member
    have found : stack.find? slot.id = some frame := by
      rw [named]
      exact find?_of_split follows.entered split
    have known := follows.lookup_live slot.id
    refine ⟨recalled events slot, ?_⟩
    simp only [found, Option.map_some] at known
    simp only [told, known, if_pos declared]
  · intro ⟨value, known⟩
    rcases follows.position_eq slot with ⟨frame, member, named, declared, -, -⟩ | ⟨violation, -, fails⟩
    · exact ⟨frame, member, FrameStack.mem_slots_iff.mpr ⟨named.symm, declared⟩⟩
    · rw [known] at fails
      cases fails

-----------------------------------------------------------------------------------------
-- Frames that are gone
-----------------------------------------------------------------------------------------

/-- A handle was given to a frame that is no longer live. -/
def Gone (events : List FrameEvent) (id : FrameId) : Prop :=
  id ∈ FrameEvent.issued events ∧ ∀ frame ∈ FrameEvent.live events, frame.1 ≠ id

instance (events : List FrameEvent) (id : FrameId) : Decidable (Gone events id) :=
  inferInstanceAs (Decidable (_ ∧ _))

/-- Visiting slots enters and leaves no frame. -/
theorem live_visited (visit : Value → τ → Value × τ) (slots : List FrameSlot)
    (events : List FrameEvent) (host : τ)
    : FrameEvent.live (visited visit slots events host).1 = FrameEvent.live events
      ∧ FrameEvent.issued (visited visit slots events host).1 = FrameEvent.issued events := by
  induction slots generalizing events host with
  | nil => exact ⟨rfl, rfl⟩
  | cons slot slots ih => exact ih _ _

/-- Whatever is asked of a frame that is not live fails. -/
theorem Follows.unknown (follows : stack.Follows events) {id : FrameId} (gone : Gone events id)
    : stack.descriptor id = .error (.unknownFrame id)
      ∧ stack.previous id = .error (.unknownFrame id)
      ∧ (∀ kind index, stack.get id kind index = .error (.unknownFrame id))
      ∧ (∀ kind index value, stack.set id kind index value = .error (.unknownFrame id))
      ∧ stack.pop id = .error (.frameMismatch stack.current id) := by
  have missing : ∀ frame ∈ stack.frames, frame.id ≠ id := by
    intro frame member
    refine gone.2 (frame.id, frame.descriptor) ?_
    rw [← follows.live]
    exact List.mem_map_of_mem member
  have unknown : stack.frame id = .error (.unknownFrame id) := by
    rcases follows.looksUp id with ⟨above, frame, below, split, named, -⟩ | ⟨-, unknown, -⟩
    · exact absurd named (missing frame (by simp [split]))
    · exact unknown
  refine ⟨?_, ?_, fun kind index => ?_, fun kind index value => ?_, pop_mismatch fun current => ?_⟩
  · simp only [descriptor, unknown, Functor.map, Except.map]
  · simp only [previous, unknown, Functor.map, Except.map]
  · simp only [get, position, unknown, bind, Except.bind, Functor.map, Except.map]
  · simp only [set, position, unknown, bind, Except.bind, Functor.map, Except.map]
  · obtain ⟨top, here, named⟩ := Option.map_eq_some_iff.mp current
    exact missing top (List.mem_of_mem_head? here) named

end FrameStack

-----------------------------------------------------------------------------------------
-- Histories
-----------------------------------------------------------------------------------------

namespace FrameHistory

open FrameStack

variable {history : FrameHistory τ}

/-- Every command leads to a stack that follows the record of it. -/
theorem follows_perform (follows : history.stack.Follows history.events) (command : FrameCommand τ)
    : (history.perform command).stack.Follows (history.perform command).events := by
  cases command with
  | push descriptor params =>
      cases entered : history.stack.push descriptor params with
      | ok pushed =>
          simpa [perform, FrameOperations.obey, FrameStack.operations, entered, FrameEvent.noted]
            using follows.push entered
      | error violation =>
          simpa [perform, FrameOperations.obey, FrameStack.operations, entered, FrameEvent.noted]
            using follows
  | pop id =>
      cases leaves : history.stack.pop id with
      | ok left =>
          simpa [perform, FrameOperations.obey, FrameOperations.obey.settle, FrameStack.operations,
            leaves, FrameEvent.noted] using follows.pop leaves
      | error violation =>
          simpa [perform, FrameOperations.obey, FrameOperations.obey.settle, FrameStack.operations,
            leaves, FrameEvent.noted] using follows
  | unwindTo saved => exact follows.unwindTo saved
  | set slot value =>
      rcases follows.set_eq slot value with ⟨changed, sets, next, -⟩ | ⟨violation, fails, -⟩
      · simpa [perform, FrameOperations.obey, FrameOperations.obey.settle, FrameStack.operations,
          sets, FrameEvent.noted] using next
      · simpa [perform, FrameOperations.obey, FrameOperations.obey.settle, FrameStack.operations,
          fails, FrameEvent.noted] using follows
  | walk visit => exact (follows.walk visit history.host).1

/-- A record that is carried on forgets no handle, and frames that come are new. -/
theorem live_noted {events : List FrameEvent} (host : τ) {command : FrameCommand τ}
    {answer : FrameAnswer}
    (fresh
      : ∀ descriptor params id,
          command = .push descriptor params →
          answer = .ok (some id) →
          id ∉ FrameEvent.issued events)
    : let later := FrameEvent.noted events host command answer
      (∀ id ∈ FrameEvent.issued events, id ∈ FrameEvent.issued later)
      ∧ ∀ frame ∈ FrameEvent.live later,
          frame ∈ FrameEvent.live events ∨ frame.1 ∉ FrameEvent.issued events := by
  intro later
  simp only [later, FrameEvent.noted]
  split
  · next descriptor params id =>
      refine ⟨fun other former => List.mem_cons_of_mem _ former, fun frame member => ?_⟩
      rcases List.mem_cons.mp member with rfl | member
      · exact .inr (fresh descriptor params id rfl rfl)
      · exact .inl member
  · exact ⟨fun _ former => former, fun _ member => .inl (List.mem_of_mem_filter member)⟩
  · exact ⟨fun _ former => former, fun _ member => .inl (List.mem_of_mem_filter member)⟩
  · exact ⟨fun _ former => former, fun _ member => .inl member⟩
  · next visit _ =>
      obtain ⟨live, issued⟩ := live_visited visit ((FrameEvent.places events).map Prod.fst) events host
      rw [live, issued]
      exact ⟨fun _ former => former, fun _ member => .inl member⟩
  · exact ⟨fun _ former => former, fun _ member => .inl member⟩

/-- A frame that is gone stays gone, whatever is done. -/
theorem gone_perform (follows : history.stack.Follows history.events) {id : FrameId}
    (gone : Gone history.events id) (command : FrameCommand τ)
    : Gone (history.perform command).events id := by
  have fresh : ∀ descriptor params other, command = .push descriptor params →
      ((FrameStack.operations τ).obey history.stack history.host command).1 = .ok (some other) →
      other ∉ FrameEvent.issued history.events := by
    intro descriptor params other pushes answer
    subst pushes
    by_cases arity : params.length = descriptor.params
    · obtain ⟨id, pushed, entered, new, -⟩ := follows.enters arity
      simp only [FrameOperations.obey, FrameStack.operations, entered, Except.ok.injEq,
        Option.some.injEq] at answer
      exact answer ▸ new
    · simp [FrameOperations.obey, FrameStack.operations, FrameStack.push, arity] at answer
  obtain ⟨issued, live⟩ := live_noted history.host fresh
  refine ⟨issued id gone.1, fun frame member same => ?_⟩
  rcases live frame member with former | new
  · exact gone.2 frame former same
  · exact new (same ▸ gone.1)

/-- After any commands the stack follows the record. -/
theorem follows_play (host : τ) (commands : List (FrameCommand τ))
    : (play host commands).stack.Follows (play host commands).events := by
  have kept : ∀ history : FrameHistory τ, history.stack.Follows history.events →
      (commands.foldl perform history).stack.Follows (commands.foldl perform history).events := by
    induction commands with
    | nil => exact fun _ follows => follows
    | cons command commands ih => exact fun _ follows => ih _ (follows_perform follows command)
  exact kept _ follows_empty

/-- What is gone after some commands is gone after more of them. -/
theorem gone_play {host : τ} {commands : List (FrameCommand τ)} {id : FrameId}
    (gone : Gone (play host commands).events id) (later : List (FrameCommand τ))
    : Gone (play host (commands ++ later)).events id := by
  have kept : ∀ history : FrameHistory τ, history.stack.Follows history.events →
      Gone history.events id → Gone (later.foldl perform history).events id := by
    induction later with
    | nil => exact fun _ _ gone => gone
    | cons command later ih =>
        intro history follows gone
        exact ih _ (follows_perform follows command) (gone_perform follows gone command)
  rw [play, List.foldl_append]
  exact kept _ (follows_play host commands) gone

/-- The flat form obeys as the stack does. -/
theorem obey_flat {stack : FrameStack} (proper : stack.Proper) (host : τ) (command : FrameCommand τ)
    : let obeyed := (FrameStack.operations τ).obey stack host command
      (FlatStack.operations τ).obey stack.flat host command
        = (obeyed.1, obeyed.2.1.flat, obeyed.2.2) := by
  cases command with
  | push descriptor params =>
      simp only [FrameOperations.obey, FlatStack.operations, FrameStack.operations, push_flat]
      cases stack.push descriptor params <;> rfl
  | pop id =>
      simp only [FrameOperations.obey, FlatStack.operations, FrameStack.operations, pop_flat]
      cases stack.pop id <;> rfl
  | unwindTo saved =>
      simp only [FrameOperations.obey, FlatStack.operations, FrameStack.operations, unwindTo_flat]
  | set slot value =>
      simp only [FrameOperations.obey, FlatStack.operations, FrameStack.operations,
        proper.set_flat]
      cases stack.set slot.id slot.kind slot.index value <;> rfl
  | walk visit =>
      simp only [FrameOperations.obey, FlatStack.operations, FrameStack.operations,
        proper.walk_flat]

/-- After any commands the flat form gave the answers that the stack gave, and holds the same. -/
theorem obeyAll_flat {history : FrameHistory τ} (follows : history.stack.Follows history.events)
    (commands : List (FrameCommand τ))
    : let final := commands.foldl perform history
      ∃ answers,
        (FrameStack.operations τ).obeyAll history.stack history.host commands
          = (answers, final.stack, final.host)
        ∧ (FlatStack.operations τ).obeyAll history.stack.flat history.host commands
          = (answers, final.stack.flat, final.host) := by
  induction commands generalizing history with
  | nil => exact ⟨[], rfl, rfl⟩
  | cons command commands ih =>
      obtain ⟨answers, stack, flat⟩ := ih (follows_perform follows command)
      have first := obey_flat follows.toProper history.host command
      refine ⟨((FrameStack.operations τ).obey history.stack history.host command).1 :: answers, ?_, ?_⟩
      · simp only [FrameOperations.obeyAll, List.foldl_cons]
        rw [show ((FrameStack.operations τ).obey history.stack history.host command).2.1
          = (history.perform command).stack from rfl,
          show ((FrameStack.operations τ).obey history.stack history.host command).2.2
          = (history.perform command).host from rfl, stack]
      · simp only [FrameOperations.obeyAll, first, List.foldl_cons]
        rw [show ((FrameStack.operations τ).obey history.stack history.host command).2.1
          = (history.perform command).stack from rfl,
          show ((FrameStack.operations τ).obey history.stack history.host command).2.2
          = (history.perform command).host from rfl, flat]

end FrameHistory

-----------------------------------------------------------------------------------------
-- Frames are independent
-----------------------------------------------------------------------------------------

/-- A stack answers for each frame by itself, and what it answers is what a record tells. -/
structure FrameStack.Independent (stack : FrameStack) (events : List FrameEvent) : Prop where
  live : stack.frames.map (fun frame => (frame.id, frame.descriptor)) = FrameEvent.live events
  /-- A frame that is entered has a handle that no frame had, its parameters and nulls. -/
  enters
    : ∀ descriptor params,
        params.length = descriptor.params →
        ∃ id pushed,
          stack.push descriptor params = .ok (id, pushed)
          ∧ id ∉ FrameEvent.issued events
          ∧ pushed.current = some id
          ∧ (∀ index (inside : index < params.length),
            pushed.get id .param index = .ok params[index])
          ∧ ∀ index < descriptor.locals, pushed.get id .local index = .ok .null
  arity
    : ∀ descriptor params,
        params.length ≠ descriptor.params →
        stack.push descriptor params
        = .error (.frameArity descriptor.name descriptor.params params.length)
  /-- A slot holds what was last written to it. -/
  reads : ∀ slot : FrameSlot, stack.get slot.id slot.kind slot.index = FrameEvent.told events slot
  /-- Setting a slot changes no other, and fails where reading it does. -/
  writes
    : ∀ (slot : FrameSlot) value,
        (∃ changed,
          stack.set slot.id slot.kind slot.index value = .ok changed
          ∧ ∀ other : FrameSlot,
              changed.get other.id other.kind other.index
              = if other = slot then .ok value else stack.get other.id other.kind other.index)
        ∨ ∃ violation,
            stack.set slot.id slot.kind slot.index value = .error violation
            ∧ stack.get slot.id slot.kind slot.index = .error violation
  /-- The current frame can be left, which uncovers the one below it. -/
  leaves
    : ∀ id,
        stack.current = some id →
        ∃ left,
          stack.pop id = .ok left
          ∧ left.frames = stack.frames.tail
          ∧ stack.previous id = .ok left.current
  mismatches
    : ∀ id, stack.current ≠ some id → stack.pop id = .error (.frameMismatch stack.current id)
  /-- Unwinding takes exactly the frames away whose handles are greater than a given one. -/
  unwinds
    : ∀ saved,
        (stack.unwindTo saved).frames
        = stack.frames.filter fun frame => saved.any fun mark => frame.id.number ≤ mark.number
  /-- A walk shows what each of the slots holds, in order, and keeps what the visitor answers. -/
  walks
    : ∀ (τ : Type) (visit : Value → τ → Value × τ) (host : τ),
        let walked := stack.walk visit host
        let visited := FrameEvent.visited visit ((FrameEvent.places events).map Prod.fst) events host
        walked.2 = visited.2
        ∧ ∀ slot, walked.1.get slot.id slot.kind slot.index = FrameEvent.told visited.1 slot
  /-- A walk visits what can be read, and nothing twice. -/
  visits
    : ((FrameEvent.places events).map Prod.fst).Nodup
      ∧ ∀ slot,
          slot ∈ (FrameEvent.places events).map Prod.fst
          ↔ ∃ value, stack.get slot.id slot.kind slot.index = .ok value

/-- What follows a record answers as it tells. -/
theorem FrameStack.Follows.independent {stack : FrameStack} {events : List FrameEvent}
    (follows : stack.Follows events)
    : stack.Independent events where
  live := follows.live
  enters _ _ := follows.enters
  arity descriptor params differs := by simp only [FrameStack.push, if_neg differs]
  reads := follows.get_eq
  writes slot value := by
    rw [follows.get_eq]
    rcases follows.set_eq slot value with ⟨changed, sets, next, held⟩ | ⟨violation, fails, told⟩
    · refine .inl ⟨changed, sets, fun other => ?_⟩
      rw [next.get_eq, follows.get_eq]
      split_ifs with same
      · subst same
        simp only [FrameEvent.told, FrameEvent.live] at held ⊢
        split at held
        · cases held
        · split_ifs at held with declared
          simp [declared, FrameEvent.recalled]
      · simp only [FrameEvent.told, FrameEvent.live, FrameEvent.recalled, if_neg same]
    · exact .inr ⟨violation, fails, told⟩
  leaves _ current := pop_current follows.entered current
  mismatches _ := pop_mismatch
  unwinds saved := frames_unwindTo saved follows.entered
  walks _ visit host :=
    ⟨(follows.walk visit host).2, (follows.walk visit host).1.get_eq⟩
  visits := by
    refine ⟨follows.nodup_slots, fun slot => ?_⟩
    rw [follows.get_eq]
    exact follows.mem_slots_iff slot

end MovingHeap
