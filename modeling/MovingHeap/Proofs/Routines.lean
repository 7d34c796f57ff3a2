import MovingHeap.Proofs.FrameHistories
import MovingHeap.Proofs.Handlers
import MovingHeap.Proofs.StoppedCollections

/-! Whatever a host does with frames, handlers and blocks.
A routine enters and leaves frames in any order, throws, collects, nests blocks and goes on after
violations. The record of it tells which frames are still live and what became of their slots.
-/

namespace MovingHeap

variable {σ δ α β : Type}

-----------------------------------------------------------------------------------------
-- Routines
-----------------------------------------------------------------------------------------

/-- Whether an operation begins or ends a block, which only the block itself does. -/
def Operation.isBlocking : Operation δ → Bool
  | .openBlock | .closeBlock .. => true
  | _ => false

/-- Whether an operation enters or leaves a frame or writes a slot of one. -/
def Operation.isFraming : Operation δ → Bool
  | .enterFrame .. | .exitFrame _ | .setFrameSlot .. => true
  | _ => false

/-- What a host does. It looks at all of the world and so learns every answer that an operation gives. -/
inductive Routine (σ δ : Type) : Type → Type 1 where
  | done {α : Type} (result : α) : Routine σ δ α
  /-- Goes on depending on what there is. -/
  | look {α : Type} (next : World σ δ → Routine σ δ α) : Routine σ δ α
  /-- Changes the state of the host. -/
  | change {α : Type} (state : σ) (next : Routine σ δ α) : Routine σ δ α
  | operate {α : Type} (host : Host σ δ) (operation : Operation δ)
      (plain : operation.isBlocking = false) (next : Routine σ δ α)
      : Routine σ δ α
  /-- Runs a block and goes on with what it hands back. -/
  | block {α β : Type} (body : Routine σ δ (Except Thrown β))
      (next : Except Thrown β → Routine σ δ α)
      : Routine σ δ α
  /-- Goes on after what is done first, also where a violation stopped it. -/
  | caught {α β : Type} (body : Routine σ δ β) (next : Except Violation β → Routine σ δ α)
      : Routine σ δ α

/-- Turns a violation into an answer; what was done before it stays done. -/
def World.catching (action : Action (World σ δ) α) : Action (World σ δ) (Except Violation α) :=
  fun world =>
    match action world with
    | .ok result final => .ok (.ok result) final
    | .error violation final => .ok (.error violation) final

/-- What a record tells of a routine: slots of frames that were written, frames that were left, and
callbacks with which collections ran that were demanded in a world.
-/
inductive RoutineEvent (σ δ : Type) where
  | wrote (id : FrameId) (position : Nat) (value : Value)
  | left (id : FrameId)
  | collected (host : Host σ δ) (begun : World σ δ)

/-- What is told of an operation. -/
def Operation.events (host : Host σ δ) (world : World σ δ) (operation : Operation δ)
    : List (RoutineEvent σ δ) :=
  match operation with
  | .exitFrame id =>
      match world.heap.frames.pop id with
      | .ok _ => [.left id]
      | .error _ => []
  | .setFrameSlot id kind index value =>
      match world.heap.frames.position id kind index with
      | .ok position => [.wrote id position value]
      | .error _ => []
  | operation =>
      if world.heap.collections < (world.after (operation.run host)).heap.collections then
        [.collected host (operation.start world)]
      else []

/-- What is told of the world that an action leads to if it ends. -/
def World.onward (world : World σ δ) (action : Action (World σ δ) α)
    (later : α → World σ δ → List (RoutineEvent σ δ))
    : List (RoutineEvent σ δ) :=
  match action world with
  | .ok result middle => later result middle
  | .error _ _ => []

namespace Routine

/-- Does what the routine says. -/
def run {α : Type} : Routine σ δ α → Action (World σ δ) α
  | done result => pure result
  | look next => fun world => (next world).run world
  | change state next => fun world => next.run { world with host := state }
  | operate host operation _ next => do
      operation.run host
      next.run
  | block body next => do
      let result ← World.exceptBlock body.run
      (next result).run
  | caught body next => do
      let result ← World.catching body.run
      (next result).run

/-- The record of a routine that begins in a world, as far as it comes. -/
def events {α : Type} : Routine σ δ α → World σ δ → List (RoutineEvent σ δ)
  | done _, _ => []
  | look next, world => (next world).events world
  | change state next, world => next.events { world with host := state }
  | operate host operation _ next, world =>
      operation.events host world
        ++ world.onward (operation.run host) fun _ middle => next.events middle
  | block body next, world =>
      body.events world.opened
        ++ world.onward (World.exceptBlock body.run) fun result middle =>
            (next result).events middle
  | caught body next, world =>
      body.events world
        ++ world.onward (World.catching body.run) fun result middle =>
            (next result).events middle

end Routine

-----------------------------------------------------------------------------------------
-- What a record tells
-----------------------------------------------------------------------------------------

/-- The live frames with their descriptors, the current one first. -/
def FrameStack.chain (stack : FrameStack) : List (FrameId × FrameDescriptor) :=
  stack.frames.map fun frame => (frame.id, frame.descriptor)

/-- The frames that the handlers return to, the outermost first. -/
def ExceptStack.returns (stack : ExceptStack) : List (Option FrameId × Nat) :=
  stack.handlers.map fun handler => (handler.frame, handler.depth)

/-- A slot of a frame is written, or what it holds is forwarded on the way of a collection that ran. -/
def SlotChanges (events : List (RoutineEvent σ δ)) (id : FrameId) (position : Nat)
    (value changed : Value)
    : Prop :=
  .wrote id position changed ∈ events
  ∨ ∃ host begun, .collected host begun ∈ events ∧ begun.ForwardsTo host value changed

/-- The record tells how one world came about from another one. Frames entered since lie above what is
left of the former ones, handlers installed since lie above the former ones, and slots of frames that are
still live changed only as told.
-/
structure World.Tells (events : List (RoutineEvent σ δ)) (before after : World σ δ) : Prop where
  proper : after.heap.frames.Proper
  numbered : before.heap.frames.nextNumber ≤ after.heap.frames.nextNumber
  chain
    : ∃ entered left,
        after.heap.frames.chain = entered ++ before.heap.frames.chain.drop left
        ∧ ∀ frame ∈ entered, before.heap.frames.nextNumber ≤ frame.1.number
  returns : before.heap.handlers.returns <+: after.heap.handlers.returns
  left
    : ∀ frame ∈ before.heap.frames.chain,
        .left frame.1 ∈ events → frame ∉ after.heap.frames.chain
  slots
    : ∀ frame ∈ before.heap.frames.chain,
        frame ∈ after.heap.frames.chain →
        ∀ position,
          Relation.ReflTransGen (SlotChanges events frame.1 position)
            (before.heap.frames.slotAt frame.1 position) (after.heap.frames.slotAt frame.1 position)

section Chains

variable {stack other : FrameStack}

namespace FrameStack

theorem mem_chain {entry : FrameId × FrameDescriptor}
    : entry ∈ stack.chain ↔ ∃ frame ∈ stack.frames, (frame.id, frame.descriptor) = entry :=
  List.mem_map

theorem length_chain (stack : FrameStack) : stack.chain.length = stack.depth := List.length_map _

theorem chain_outline (stack : FrameStack) : stack.outline.chain = stack.chain := by
  simp [chain, outline, Frame.outline, Function.comp_def]

/-- Frames of one outline are the same frames. -/
theorem chain_of_outline (same : other.outline = stack.outline) : other.chain = stack.chain := by
  rw [← chain_outline, same, chain_outline]

/-- Live frames have smaller handles than the next one. -/
theorem Proper.number_lt (proper : stack.Proper) {entry : FrameId × FrameDescriptor}
    (member : entry ∈ stack.chain)
    : entry.1.number < stack.nextNumber := by
  obtain ⟨frame, among, rfl⟩ := mem_chain.mp member
  exact proper.numbered frame among

/-- Frames above the live ones with handles that are not smaller than the next one are not live. -/
theorem Proper.mem_of_mem_append (proper : stack.Proper) {entry : FrameId × FrameDescriptor}
    (member : entry ∈ stack.chain) {bound left : Nat} (older : stack.nextNumber ≤ bound)
    {entered rest : List (FrameId × FrameDescriptor)}
    (newer : ∀ frame ∈ entered, bound ≤ frame.1.number)
    (among : entry ∈ entered ++ rest.drop left)
    : entry ∈ rest := by
  rcases List.mem_append.mp among with new | old
  · have less := proper.number_lt member
    have more := newer entry new
    omega
  · exact List.mem_of_mem_drop old

/-- What slots of a frame hold does not depend on the frames above it. -/
theorem Proper.slotAt_drop (proper : stack.Proper) {left : Nat} {entry : FrameId × FrameDescriptor}
    (member : entry ∈ chain { stack with frames := stack.frames.drop left }) (position : Nat)
    : slotAt { stack with frames := stack.frames.drop left } entry.1 position
      = stack.slotAt entry.1 position := by
  have lower : Proper { stack with frames := stack.frames.drop left } :=
    proper.sublist (List.drop_sublist _ _)
  obtain ⟨frame, among, rfl⟩ := mem_chain.mp member
  rw [lower.slotAt_of_mem among, proper.slotAt_of_mem (List.mem_of_mem_drop among)]

/-- Unwinding takes frames from above. -/
theorem unwindTo_eq_drop (stack : FrameStack) (saved : Option FrameId)
    : ∃ left, stack.unwindTo saved = { stack with frames := stack.frames.drop left } := by
  have lower : stack.frames.dropWhile (fun frame => !isWithin saved frame.id) <:+ stack.frames :=
    List.dropWhile_suffix _
  exact ⟨_, congrArg (fun frames => { stack with frames }) (List.suffix_iff_eq_drop.mp lower)⟩

end FrameStack

theorem ExceptStack.returns_outline (stack : ExceptStack)
    : stack.outline.returns = stack.returns := by
  simp [returns, outline, Handler.outline, Function.comp_def]

/-- Throwing changes no place that a handler returns to. -/
theorem ExceptStack.returns_raise? {stack next : ExceptStack} {thrown : Thrown}
    (raised : stack.raise? thrown = some next)
    : next.returns = stack.returns := by
  unfold raise? at raised
  split_ifs at raised
  cases raised
  refine List.ext_getElem? fun index => ?_
  simp only [returns, List.getElem?_map, List.getElem?_modify]
  cases stack.handlers[index]? with
  | none => rfl
  | some handler =>
      simp only [Option.map_eq_map, Option.map_some]
      split_ifs <;> rfl

end Chains

namespace World.Tells

variable {before middle after : World σ δ} {events later : List (RoutineEvent σ δ)}

/-- Of a live frame that is live in the end it is told that it was live all the time. -/
theorem survives (proper : before.heap.frames.Proper) (first : before.Tells events middle)
    (second : middle.Tells later after) {frame : FrameId × FrameDescriptor}
    (former : frame ∈ before.heap.frames.chain) (live : frame ∈ after.heap.frames.chain)
    : frame ∈ middle.heap.frames.chain := by
  obtain ⟨entered, left, chain, newer⟩ := second.chain
  rw [chain] at live
  exact proper.mem_of_mem_append former first.numbered newer live

/-- Records are told one after the other. -/
theorem trans (proper : before.heap.frames.Proper) (first : before.Tells events middle)
    (second : middle.Tells later after)
    : before.Tells (events ++ later) after where
  proper := second.proper
  numbered := first.numbered.trans second.numbered
  chain := by
    obtain ⟨entered, left, chain, newer⟩ := first.chain
    obtain ⟨entered', left', chain', newer'⟩ := second.chain
    refine ⟨entered' ++ entered.drop left', left + (left' - entered.length), ?_, ?_⟩
    · rw [chain', chain, List.drop_append, List.drop_drop, List.append_assoc]
    · intro frame member
      rcases List.mem_append.mp member with new | old
      · exact first.numbered.trans (newer' frame new)
      · exact newer frame (List.mem_of_mem_drop old)
  returns := first.returns.trans second.returns
  left frame former left live := by
    have between := survives proper first second former live
    rcases List.mem_append.mp left with early | late
    · exact first.left frame former early between
    · exact second.left frame between late live
  slots frame former live position := by
    have between := survives proper first second former live
    refine Relation.ReflTransGen.trans
      (Relation.ReflTransGen.mono (fun _ _ changes => ?_) _ _
        (first.slots frame former between position))
      (Relation.ReflTransGen.mono (fun _ _ changes => ?_) _ _
        (second.slots frame between live position))
    · exact changes.imp (List.mem_append_left _) fun ⟨host, begun, collected, forwards⟩ =>
        ⟨host, begun, List.mem_append_left _ collected, forwards⟩
    · exact changes.imp (List.mem_append_right _) fun ⟨host, begun, collected, forwards⟩ =>
        ⟨host, begun, List.mem_append_right _ collected, forwards⟩

/-- Leaving frames from above and telling of them keeps the frames below as they were. -/
theorem of_drop (proper : before.heap.frames.Proper) {left : Nat}
    (frames
      : after.heap.frames
        = { before.heap.frames with frames := before.heap.frames.frames.drop left })
    (returns : before.heap.handlers.returns <+: after.heap.handlers.returns)
    (gone
      : ∀ frame ∈ before.heap.frames.chain,
          .left frame.1 ∈ events → frame ∉ after.heap.frames.chain)
    : before.Tells events after where
  proper := by
    rw [frames]
    exact proper.sublist (List.drop_sublist _ _)
  numbered := by rw [frames]
  chain := by
    refine ⟨[], left, ?_, fun _ member => by cases member⟩
    rw [frames, FrameStack.chain, List.map_drop]
    rfl
  returns := returns
  left := gone
  slots frame _ live position := by
    rw [frames] at live ⊢
    rw [proper.slotAt_drop live]

/-- Records do not tell of the handlers above the former ones. -/
theorem of_frames (tells : before.Tells events middle)
    (frames : after.heap.frames = middle.heap.frames)
    (returns : after.heap.handlers.returns = before.heap.handlers.returns)
    : before.Tells events after := by
  obtain ⟨proper, numbered, chain, -, left, slots⟩ := tells
  rw [← frames] at proper numbered chain left slots
  refine ⟨proper, numbered, chain, ?_, left, slots⟩
  rw [returns]

/-- Unwinding takes frames away and changes no others. -/
theorem unwound (tells : before.Tells events middle) (proper : before.heap.frames.Proper)
    (saved : Option FrameId)
    : before.Tells events
        { middle with
          heap := { middle.heap with frames := middle.heap.frames.unwindTo saved } } := by
  obtain ⟨left, frames⟩ := middle.heap.frames.unwindTo_eq_drop saved
  have unwinds : middle.Tells []
      { middle with
        heap := { middle.heap with frames := middle.heap.frames.unwindTo saved } } :=
    of_drop tells.proper frames (List.prefix_refl _) fun _ _ left => by cases left
  have told := tells.trans proper unwinds
  rwa [List.append_nil] at told

/-- Where frames and handlers are the same, nothing has to be told. -/
theorem of_same (proper : before.heap.frames.Proper)
    (frames : after.heap.frames = before.heap.frames)
    (returns : after.heap.handlers.returns = before.heap.handlers.returns)
    : before.Tells [] after := by
  have whole : after.heap.frames
      = { before.heap.frames with frames := before.heap.frames.frames.drop 0 } := frames
  refine of_drop proper whole ?_ fun _ _ left => by cases left
  · rw [returns]

/-- What collections forwarded is told by the callbacks with which they ran and the world in which they
were demanded.
-/
theorem of_forwards (proper : before.heap.frames.Proper) {host : Host σ δ} {begun : World σ δ}
    (forwards : begun.Forwards host before after)
    : before.Tells
        (if before.heap.collections < after.heap.collections then [.collected host begun] else [])
        after := by
  have chain := FrameStack.chain_of_outline forwards.frames
  have next : after.heap.frames.nextNumber = before.heap.frames.nextNumber :=
    (congrArg FrameStack.nextNumber forwards.frames :)
  refine ⟨proper.of_outline forwards.frames, next.ge, ?_, ?_, ?_, ?_⟩
  · exact ⟨[], 0, chain, fun _ member => by cases member⟩
  · rw [← ExceptStack.returns_outline after.heap.handlers, forwards.handlers,
      ExceptStack.returns_outline]
  · intro frame _ left
    split_ifs at left <;> simp at left
  · intro frame _ _ position
    refine Relation.ReflTransGen.mono (fun _ _ forwarded => ?_) _ _
      (forwards.slots frame.1 position)
    exact .inr ⟨host, begun, by simp [forwarded.1], forwarded.2⟩

/-- A frame that is entered lies above the former ones. -/
theorem of_push (proper : before.heap.frames.Proper) {descriptor : FrameDescriptor}
    {params : List Value} {id : FrameId}
    (entered : before.heap.frames.push descriptor params = .ok (id, after.heap.frames))
    (returns : after.heap.handlers = before.heap.handlers)
    : before.Tells [] after := by
  have proper' := proper.push entered
  unfold FrameStack.push at entered
  split_ifs at entered
  simp only [Except.ok.injEq, Prod.mk.injEq] at entered
  obtain ⟨rfl, frames⟩ := entered
  have slots : ∀ frame ∈ before.heap.frames.chain, ∀ position,
      after.heap.frames.slotAt frame.1 position = before.heap.frames.slotAt frame.1 position := by
    intro frame former position
    have less := proper.number_lt former
    have differs : (⟨before.heap.frames.nextNumber⟩ : FrameId) ≠ frame.1 := by
      intro same
      rw [← same] at less
      exact Nat.lt_irrefl _ less
    simp only [← frames, FrameStack.slotAt, FrameStack.find?, List.find?_cons,
      beq_eq_false_iff_ne.mpr differs]
  refine ⟨proper', ?_, ?_, ?_, fun _ _ left => by simp at left, ?_⟩
  · rw [← frames]
    exact Nat.le_succ _
  · refine ⟨[(⟨before.heap.frames.nextNumber⟩, descriptor)], 0, ?_, ?_⟩
    · rw [← frames]
      rfl
    · intro frame member
      obtain rfl := List.mem_singleton.mp member
      exact Nat.le_refl _
  · rw [returns]
  · intro frame former _ position
    rw [slots frame former]

/-- The current frame is left and told of. -/
theorem of_pop (proper : before.heap.frames.Proper) {id : FrameId} {left : FrameStack}
    (popped : before.heap.frames.pop id = .ok left) (frames : after.heap.frames = left)
    (returns : after.heap.handlers = before.heap.handlers)
    : before.Tells [.left id] after := by
  unfold FrameStack.pop at popped
  split at popped
  next top rest listed =>
    split_ifs at popped with current
    cases popped
    have lower : after.heap.frames
        = { before.heap.frames with frames := before.heap.frames.frames.drop 1 } := by
      rw [frames, listed]
      rfl
    refine of_drop proper lower ?_ fun frame former told live => ?_
    · rw [returns]
    · -- the frames below have smaller handles than the one that was left
      have named : frame.1 = id := by simpa using told
      rw [frames] at live
      obtain ⟨older, among, rfl⟩ := FrameStack.mem_chain.mp live
      have entered := proper.entered
      rw [listed, List.pairwise_cons] at entered
      have less := entered.1 older among
      rw [current, ← named] at less
      exact Nat.lt_irrefl _ less
  next => cases popped

/-- A slot that is written is told of. -/
theorem of_set (proper : before.heap.frames.Proper) {id : FrameId} {position : Nat} {value : Value}
    (frames : after.heap.frames = before.heap.frames.setSlotAt id position value)
    (returns : after.heap.handlers = before.heap.handlers)
    : before.Tells [.wrote id position value] after := by
  have outline : after.heap.frames.outline = before.heap.frames.outline := by
    rw [frames, Heap.outline_setSlotAt]
  have next : after.heap.frames.nextNumber = before.heap.frames.nextNumber := by rw [frames]; rfl
  refine ⟨proper.of_outline outline, next.ge, ?_, ?_, fun _ _ left => by simp at left, ?_⟩
  · exact ⟨[], 0, FrameStack.chain_of_outline outline, fun _ member => by cases member⟩
  · rw [returns]
  · intro frame _ _ index
    rw [frames, FrameStack.slotAt_eq, FrameStack.slotAt_eq, FrameStack.slot?_setSlotAt]
    split_ifs with here
    · obtain ⟨same, rfl⟩ := here
      cases held : before.heap.frames.slot? id index with
      | none =>
          rw [same, held]
          exact .refl
      | some former => exact .single (.inl (by simp [same]))
    · exact .refl

end World.Tells

-----------------------------------------------------------------------------------------
-- Operations
-----------------------------------------------------------------------------------------

namespace World

variable {host : Host σ δ} {begun world : World σ δ}

namespace Forwarding

theorem stop (violation : Violation)
    : Forwarding host begun (World.stop violation : Action _ α) world :=
  .onSite _

theorem ite {condition : Prop} [Decidable condition] {first second : Action (World σ δ) α}
    (yes : Forwarding host begun first world) (no : Forwarding host begun second world)
    : Forwarding host begun (if condition then first else second) world := by
  split_ifs
  · exact yes
  · exact no

/-- What is done on an idle heap is done right there. -/
theorem ensureIdle_bind {next : Unit → Action (World σ δ) α}
    (forwarding : Forwarding host begun (next ()) world)
    : Forwarding host begun (World.ensureIdle >>= next) world := by
  unfold Forwarding
  simp only [World.ensureIdle, runs_bind, World.runs_heapNow, runs_ite, World.runs_stop, runs_pure]
  split_ifs
  · exact .of_same rfl rfl rfl
  · exact forwarding

theorem store (addr : Address) (word : Word) : Forwarding host begun (store addr word) world :=
  .heapNow_bind (.bind (.onSite _) fun _ _ _ => .onSite _)

/-- What follows a store begins where the store has led. -/
theorem store_bind {addr : Address} {word : Word} {next : Unit → Action (World σ δ) α}
    (forwarding
      : Forwarding host begun (next ()) (world.after (World.store addr word)))
    : Forwarding host begun (World.store addr word >>= next) world := by
  refine .bind (.store addr word) fun _ middle ran => ?_
  rw [after, ran] at forwarding
  exact forwarding

theorem updateModules (result : Except ModuleError ModuleTable)
    : Forwarding host begun (updateModules result) world := by
  cases result with
  | error error => exact .pure _
  | ok modules =>
      refine .bind (.modifyHeap ?_ ?_ ?_) fun _ _ _ => .pure _
      all_goals exact fun _ => rfl

end Forwarding

/-- Operations about neither frames nor handlers leave both to collections. -/
theorem forwarding_operation (host : Host σ δ) {operation : Operation δ}
    (framing : operation.isFraming = false) (handling : operation.isHandling = false)
    (world : World σ δ)
    : Forwarding host (operation.start world) (operation.run host) world := by
  have counts : ∀ begun world : World σ δ, Forwarding host begun
      (count fun counters => { counters with fixedAllocated := counters.fixedAllocated + 1 })
      world := by
    intro begun world
    refine .modifyHeap ?_ ?_ ?_ <;> exact fun _ => rfl
  have requests : ∀ reason (begun world : World σ δ),
      Forwarding host begun (requestFull reason) world := by
    intro reason begun world
    refine .modifyHeap ?_ ?_ ?_ <;> exact fun _ => rfl
  have keeps : ∀ modules (begun world : World σ δ),
      Forwarding host begun (modifyHeap ({ · with modules })) world := by
    intro modules begun world
    refine .modifyHeap ?_ ?_ ?_ <;> exact fun _ => rfl
  cases operation with
  | allocate size => exact .map (.ensureIdle_bind (forwarding_reserve host _ _ world)) _
  | allocateAligned size align =>
      exact .map (.ensureIdle_bind (.ite (forwarding_reserve host _ _ world) (.stop _))) _
  | allocateFixed size destructor executable =>
      refine .map (.ensureIdle_bind (.heapNow_bind (.bind (.onSite _) fun _ _ _ => ?_))) _
      refine .bind (counts _ _) fun _ _ _ => .heapNow_bind ?_
      exact .ite (.bind (requests _ _ _) fun _ _ _ => .pure _) (.pure _)
  | forgetFixed object => exact .heapNow_bind (.bind (.onSite _) fun _ _ _ => .onSite _)
  | requestFull reason => exact requests reason _ _
  | load addr => exact .map (.heapNow_bind (.onSite _)) _
  | store addr word => exact .store addr word
  | notifyStore slot => exact forwarding_notifyStore host slot world
  | storeNotified slot value => exact .store_bind (forwarding_notifyStore host slot _)
  | write slot value => exact .store_bind (.ite (forwarding_notifyStore host slot _) (.pure _))
  | frameDescriptor id => exact .map (.heapNow_bind (.check _)) _
  | frameSlot id kind index => exact .map (.heapNow_bind (.check _)) _
  | loadModule loader name searchPath wanted =>
      refine .map (.heapNow_bind ?_) _
      dsimp only
      split
      · exact .pure _
      · split
        · exact .bind (.onSite _) fun _ _ _ => .pure _
        · exact .bind (.onSite _) fun _ _ _ => .bind (keeps _ _ _) fun _ _ _ => .pure _
  | unloadModule rank =>
      refine .map (.heapNow_bind ?_) _
      cases world.heap.modules.unload rank with
      | error error => exact .pure _
      | ok left => exact .bind (.onSite _) fun _ _ _ => .bind (keeps _ _ _) fun _ _ _ => .pure _
  | setModuleConstant rank value => exact .map (.heapNow_bind (.updateModules _)) _
  | setModuleExtra rank extra => exact .map (.heapNow_bind (.updateModules _)) _
  | setConstant index value =>
      unfold Operation.run setConstant
      refine .modifyHeap ?_ ?_ ?_ <;> exact fun _ => rfl
  | collect size wantsFull => exact forwarding_collectFor host _ _ _ world
  | collectMinor => exact forwarding_collectFor host _ _ _ world
  | collectFull => exact forwarding_collectFor host _ _ _ world
  | enterFrame => cases framing
  | exitFrame => cases framing
  | setFrameSlot => cases framing
  | openBlock => cases handling
  | closeBlock => cases handling
  | throwException => cases handling

/-- The record of an operation tells how it led from one world to the next. -/
theorem tells_operation (host : Host σ δ) {operation : Operation δ}
    (plain : operation.isBlocking = false) (proper : world.heap.frames.Proper)
    : world.Tells (operation.events host world) (world.after (operation.run host)) := by
  have quiet : ∀ {operation : Operation δ},
      (∀ world : World σ δ, operation.events host world
        = if world.heap.collections < (world.after (operation.run host)).heap.collections then
            [.collected host (operation.start world)]
          else []) →
      Runs (operation.run host) world
        (fun _ final => final.heap.collections = world.heap.collections ∧ world.Tells [] final)
        (fun _ final => final.heap.collections = world.heap.collections ∧ world.Tells [] final) →
      world.Tells (operation.events host world) (world.after (operation.run host)) := by
    intro operation told runs
    obtain ⟨same, tells⟩ := after_of_runs runs
    rw [told, same, if_neg (Nat.lt_irrefl _)]
    exact tells
  have silent : ∀ {operation : Operation δ}, operation.isFraming = false →
      operation.isHandling = false →
      world.Tells
        (if world.heap.collections < (world.after (operation.run host)).heap.collections then
          [.collected host (operation.start world)]
        else [])
        (world.after (operation.run host)) := fun framing handling =>
    .of_forwards proper (after_of_runs (forwarding_operation host framing handling world))
  cases operation with
  | enterFrame descriptor params =>
      refine quiet (fun _ => rfl) ?_
      simp only [Operation.run, runs_map, enterFrame, runs_bind, runs_heapNow, runs_check,
        runs_modifyHeap, runs_pure]
      split
      next entered pushed => exact ⟨trivial, .of_push proper pushed rfl⟩
      next => exact ⟨trivial, .of_same proper rfl rfl⟩
  | exitFrame id =>
      refine after_of_runs ?_
      simp only [Operation.run, Operation.events, exitFrame, runs_bind, runs_heapNow, runs_check,
        runs_modifyHeap]
      cases popped : world.heap.frames.pop id with
      | error violation => exact .of_same proper rfl rfl
      | ok left => exact .of_pop proper popped rfl rfl
  | setFrameSlot id kind index value =>
      refine after_of_runs ?_
      simp only [Operation.run, Operation.events, setFrameSlot, runs_bind, runs_heapNow, runs_check,
        runs_modifyHeap, FrameStack.set]
      cases world.heap.frames.position id kind index with
      | error violation => exact .of_same proper rfl rfl
      | ok position => exact .of_set proper rfl rfl
  | throwException code payload =>
      refine quiet (fun _ => rfl) ?_
      simp only [Operation.run, runs_map, throwException, runs_bind, runs_heapNow, runs_require,
        runs_modifyHeap, runs_pure]
      split
      next raised => exact ⟨trivial, .of_same proper rfl (ExceptStack.returns_raise? raised)⟩
      next => exact ⟨trivial, .of_same proper rfl rfl⟩
  | openBlock => cases plain
  | closeBlock => cases plain
  | _ => exact silent rfl rfl

end World

-----------------------------------------------------------------------------------------
-- Blocks
-----------------------------------------------------------------------------------------

/-- Taking off the handler that lies right above former ones leaves these. -/
theorem ExceptStack.popTo_of_lies {former stack : ExceptStack} {place : Option FrameId × Nat}
    (lies : former.returns ++ [place] <+: stack.returns)
    : (∃ handler,
        (stack.popTo former.depth).1 = some handler ∧ (handler.frame, handler.depth) = place)
      ∧ (stack.popTo former.depth).2.returns = former.returns := by
  obtain ⟨above, whole⟩ := lies
  have length : former.returns.length = former.depth := List.length_map _
  have installed : former.depth < stack.depth := by
    have lengths := congrArg List.length whole
    rw [List.length_append, List.length_append, length, List.length_singleton, returns,
      List.length_map, ← depth] at lengths
    omega
  constructor
  · refine ⟨stack.handlers[former.depth], ?_, ?_⟩
    · rw [popTo_fst installed]
      exact List.getElem?_eq_getElem installed
    · have there : stack.returns[former.depth]? = some place := by
        rw [← whole, ← length, List.append_assoc, List.getElem?_append_right (Nat.le_refl _)]
        simp
      rw [returns, List.getElem?_map, List.getElem?_eq_getElem installed] at there
      exact Option.some.inj there
  · have lower : (stack.returns.take (former.depth + 1)).dropLast = former.returns := by
      rw [← whole, List.take_append_of_le_length (by simp [length]),
        List.take_of_length_le (by simp [length]), List.dropLast_concat]
    rw [← lower]
    simp [returns, popTo, List.map_dropLast, List.map_take]

namespace World

variable {world middle : World σ δ} {events : List (RoutineEvent σ δ)} {host : Host σ δ}

/-- The block that begins in a world. -/
def block (world : World σ δ) : Block where
  depth := world.heap.handlers.depth
  handler := { frame := world.heap.frames.current, depth := world.heap.frames.depth }

/-- A block runs its body and then ends, unless the body is stopped. -/
theorem exceptBlock_apply (body : Action (World σ δ) (Except Thrown α)) (world : World σ δ)
    : exceptBlock body world
      = match body world.opened with
        | .ok result middle => closeBlock world.block result middle
        | .error violation final => .error violation final := by
  change (body >>= closeBlock world.block) world.opened = _
  change EStateM.bind body (closeBlock world.block) world.opened = _
  unfold EStateM.bind
  cases body world.opened <;> rfl

/-- Behind its body, above the former handlers there is still the one of the block. -/
def Encloses (world middle : World σ δ) : Prop :=
  world.heap.handlers.returns ++ [(world.heap.frames.current, world.heap.frames.depth)]
    <+: middle.heap.handlers.returns

theorem Tells.encloses (tells : world.opened.Tells events middle) : world.Encloses middle := by
  have pushed : world.opened.heap.handlers = world.heap.handlers.push world.block.handler := rfl
  have lies := tells.returns
  rw [pushed, ExceptStack.push, ExceptStack.returns, List.map_append] at lies
  exact lies

/-- A block begins without touching frames, so the record of its body tells of the former ones. -/
theorem Tells.of_opened (tells : world.opened.Tells events middle) : world.Tells events middle :=
  have returns := (List.prefix_append _ _).trans tells.encloses
  ⟨tells.proper, tells.numbered, tells.chain, returns, tells.left, tells.slots⟩

/-- A block whose body ended well ends well if the current frame is the former one. -/
theorem runs_closeBlock_ok (encloses : world.Encloses middle) (value : α)
    : Runs (closeBlock world.block (.ok value)) middle
        (fun result final =>
          result = .ok value
          ∧ middle.heap.frames.current = world.heap.frames.current
          ∧ final.heap.frames = middle.heap.frames
          ∧ final.heap.handlers.returns = world.heap.handlers.returns)
        fun violation final =>
          violation
            = .exceptFrameLeak world.heap.frames.current middle.heap.frames.current
          ∧ middle.heap.frames.current ≠ world.heap.frames.current
          ∧ final.heap.frames = middle.heap.frames
          ∧ final.heap.handlers.returns = world.heap.handlers.returns := by
  obtain ⟨⟨handler, found, place⟩, returns⟩ := ExceptStack.popTo_of_lies encloses
  obtain ⟨frame, -⟩ := Prod.mk.inj place
  simp only [closeBlock, block, runs_bind, runs_heapNow, runs_modifyHeap, runs_ite, runs_stop,
    runs_pure, found, Option.getD_some, frame]
  split_ifs with leaked
  · exact ⟨trivial, leaked, trivial, returns⟩
  · exact ⟨trivial, by simpa using leaked, trivial, returns⟩

/-- A block whose body failed ends if unwinding comes back to the former frames. -/
theorem runs_closeBlock_thrown (encloses : world.Encloses middle) (thrown : Thrown)
    : let unwound := middle.heap.frames.unwindTo world.heap.frames.current
      Runs (closeBlock world.block (.error thrown : Except Thrown α)) middle
        (fun _ final =>
          unwound.depth = world.heap.frames.depth
          ∧ final.heap.frames = unwound
          ∧ final.heap.handlers.returns = world.heap.handlers.returns)
        fun violation final =>
          violation = .exceptUnwind world.heap.frames.current unwound.current
          ∧ (unwound.current ≠ world.heap.frames.current
            ∨ unwound.depth ≠ world.heap.frames.depth)
          ∧ final.heap.frames = unwound
          ∧ final.heap.handlers.returns = world.heap.handlers.returns := by
  obtain ⟨⟨handler, found, place⟩, returns⟩ := ExceptStack.popTo_of_lies encloses
  obtain ⟨frame, depth⟩ := Prod.mk.inj place
  simp only [closeBlock, block, runs_bind, runs_heapNow, runs_modifyHeap, runs_ite, runs_stop,
    runs_pure, found, Option.getD_some, frame, depth]
  split_ifs with missing
  · exact ⟨trivial, missing, trivial, returns⟩
  · rw [not_or, not_not, not_not] at missing
    exact ⟨missing.2, trivial, returns⟩

/-- Whether or not a block ends, its record is that of its body. -/
theorem tells_exceptBlock (proper : world.heap.frames.Proper)
    {body : Action (World σ δ) (Except Thrown α)}
    (tells : world.opened.Tells events (world.opened.after body))
    : world.Tells events (world.after (exceptBlock body)) := by
  rw [after, exceptBlock_apply]
  rw [after] at tells
  cases ran : body world.opened with
  | error violation final =>
      rw [ran] at tells
      exact tells.of_opened
  | ok result middle =>
      have tells : world.opened.Tells events middle := by rwa [ran] at tells
      have inner := tells.of_opened
      have closes : Runs (closeBlock world.block result) middle
          (fun _ final => world.Tells events final) fun _ final => world.Tells events final := by
        cases result with
        | ok value =>
            refine (runs_closeBlock_ok tells.encloses value).mono (fun _ final closed => ?_)
              fun _ final closed => ?_
            · exact inner.of_frames closed.2.2.1 closed.2.2.2
            · exact inner.of_frames closed.2.2.1 closed.2.2.2
        | error thrown =>
            have unwound := inner.unwound proper world.heap.frames.current
            refine (runs_closeBlock_thrown tells.encloses thrown).mono
              (fun _ final closed => ?_) fun _ final closed => ?_
            · exact unwound.of_frames closed.2.1 closed.2.2
            · exact unwound.of_frames closed.2.2.1 closed.2.2.2
      exact after_of_runs closes

/-- An action that goes on after another one leaves what it leaves from there. -/
theorem after_bind (action : Action (World σ δ) α) (next : α → Action (World σ δ) β)
    (world : World σ δ)
    : world.after (action >>= next)
      = match action world with
        | .ok result middle => middle.after (next result)
        | .error _ final => final := by
  change (match EStateM.bind action next world with | .ok _ final => final | .error _ final => final) = _
  unfold EStateM.bind
  cases action world <;> rfl

/-- Where a record tells of what is done first, it goes on to tell of what is done then. -/
theorem Tells.bind (proper : world.heap.frames.Proper) {action : Action (World σ δ) α}
    {next : α → Action (World σ δ) β} {later : α → World σ δ → List (RoutineEvent σ δ)}
    (first : world.Tells events (world.after action))
    (second
      : ∀ result (middle : World σ δ),
          middle.heap.frames.Proper →
          middle.Tells (later result middle) (middle.after (next result)))
    : world.Tells
        (events ++ world.onward action later) (world.after (action >>= next)) := by
  rw [after_bind, onward]
  rw [after] at first
  cases ran : action world with
  | ok result middle =>
      rw [ran] at first
      exact first.trans proper (second result middle first.proper)
  | error violation final =>
      rw [ran] at first
      rw [List.append_nil]
      exact first

/-- The record of a routine tells how it led from one world to the next, wherever it was stopped. -/
theorem tells_run (routine : Routine σ δ α) (proper : world.heap.frames.Proper)
    : world.Tells (routine.events world) (world.after routine.run) := by
  induction routine generalizing world with
  | done result => exact .of_same proper rfl rfl
  | look next ih => exact ih world proper
  | change state next ih =>
      have changed : world.Tells [] { world with host := state } := .of_same proper rfl rfl
      exact changed.trans proper (ih proper)
  | operate host operation plain next ih =>
      exact .bind proper (tells_operation host plain proper) fun _ _ proper => ih proper
  | block body next first second =>
      have begins : world.opened.heap.frames.Proper := proper
      exact .bind proper (tells_exceptBlock proper (first begins)) fun result _ proper =>
        second result proper
  | caught body next first second =>
      have caught : world.after (catching body.run) = world.after body.run := by
        unfold after catching
        cases body.run world <;> rfl
      have tells := first proper
      rw [← caught] at tells
      exact .bind proper tells fun result _ proper => second result proper

/-- Ending any block keeps frames in order. -/
theorem proper_closeBlock (block : Block) (result : Except Thrown Unit)
    (proper : world.heap.frames.Proper)
    : Runs ((Operation.closeBlock block result).run host) world
        (fun _ final => final.heap.frames.Proper) fun _ final => final.heap.frames.Proper := by
  have lower : ∀ saved, (world.heap.frames.unwindTo saved).Proper := fun saved =>
    proper.sublist (List.dropWhile_sublist _)
  simp only [Operation.run, runs_map, closeBlock, runs_bind, runs_heapNow, runs_modifyHeap]
  cases result with
  | ok value =>
      simp only [runs_bind, runs_heapNow, runs_ite, runs_stop, runs_pure]
      split_ifs <;> exact proper
  | error thrown =>
      simp only [runs_bind, runs_heapNow, runs_modifyHeap, runs_ite, runs_stop, runs_pure]
      split_ifs <;> exact lower _

/-- Frames are in order in every world that operations lead to. -/
theorem Reachable.proper (reachable : world.Reachable) : world.heap.frames.Proper := by
  induction reachable with
  | @create mapper config state world created =>
      rw [(created_of_create created).1.frames]
      exact FrameStack.follows_empty.toProper
  | @operate world host operation _ proper =>
      cases operation with
      | openBlock => exact proper
      | closeBlock block result => exact after_of_runs (proper_closeBlock block result proper)
      | _ => exact (tells_operation host rfl proper).proper
  | change state _ proper => exact proper

end World

end MovingHeap
