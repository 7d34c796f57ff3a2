import MovingHeap.Proofs.Guarantees
import MovingHeap.Proofs.Routines

/-! Blocks are neutral on the frame stack.
A block that ends has the frames and handlers that it began with, whatever its body did with them. One
whose body cannot give the frames back never ends.
-/

namespace MovingHeap

variable {σ δ α : Type}

namespace FrameStack

variable {stack : FrameStack}

/-- The current frame is the first of the chain. -/
theorem current_eq (stack : FrameStack) : stack.current = stack.chain.head?.map Prod.fst := by
  simp [current, chain, Function.comp_def]

/-- The chain is in the order of handles, as frames are. -/
theorem Proper.chain_entered (proper : stack.Proper)
    : stack.chain.Pairwise fun newer older => older.1.number < newer.1.number :=
  List.pairwise_map.mpr proper.entered

/-- Unwinding leaves the part of the chain that was entered no later than a handle. -/
theorem Proper.chain_unwindTo (proper : stack.Proper) (saved : Option FrameId)
    : (stack.unwindTo saved).chain = stack.chain.filter fun entry => isWithin saved entry.1 := by
  rw [chain, frames_unwindTo saved proper.entered, chain, List.filter_map]
  rfl

end FrameStack

namespace World

variable {before after : World σ δ} {events : List (RoutineEvent σ δ)}

/-- Frames and handlers are the ones at entry, and slots of frames changed only as the record tells. -/
structure Neutral (events : List (RoutineEvent σ δ)) (before after : World σ δ) : Prop where
  chain : after.heap.frames.chain = before.heap.frames.chain
  depth : after.heap.handlers.depth = before.heap.handlers.depth
  slots
    : ∀ frame ∈ before.heap.frames.chain,
        ∀ position,
          Relation.ReflTransGen (SlotChanges events frame.1 position)
            (before.heap.frames.slotAt frame.1 position) (after.heap.frames.slotAt frame.1 position)

/-- The slots of the frames at entry are as the body of a block left them. -/
def Leaves (before middle after : World σ δ) : Prop :=
  ∀ frame ∈ before.heap.frames.chain,
    ∀ position,
      after.heap.frames.slotAt frame.1 position = middle.heap.frames.slotAt frame.1 position

/-- Where the frames are the former ones, the slots changed as told. -/
theorem Tells.neutral (tells : before.Tells events after)
    (chain : after.heap.frames.chain = before.heap.frames.chain)
    (returns : after.heap.handlers.returns = before.heap.handlers.returns)
    : before.Neutral events after where
  chain := chain
  depth := by
    have lengths := congrArg List.length returns
    rwa [ExceptStack.returns, ExceptStack.returns, List.length_map, List.length_map] at lengths
  slots frame former := tells.slots frame former (chain ▸ former)

/-- If the current frame is the former one, no frame was left and none is still entered. -/
theorem Tells.chain_of_current (tells : before.Tells events after)
    (proper : before.heap.frames.Proper)
    (current : after.heap.frames.current = before.heap.frames.current)
    : after.heap.frames.chain = before.heap.frames.chain := by
  obtain ⟨entered, left, chain, newer⟩ := tells.chain
  rw [FrameStack.current_eq, FrameStack.current_eq, chain] at current
  rw [chain]
  cases entered with
  | cons first rest =>
      -- a new frame would have a handle that no former one has
      obtain ⟨former, here, named⟩ := Option.map_eq_some_iff.mp current.symm
      have less := proper.number_lt (List.mem_of_mem_head? here)
      have more := newer first List.mem_cons_self
      rw [named] at less
      omega
  | nil =>
      cases left with
      | zero => rfl
      | succ left =>
          cases listed : before.heap.frames.chain with
          | nil => rfl
          | cons top rest =>
              -- nor has a frame below the current one its handle
              rw [listed] at current
              obtain ⟨lower, here, named⟩ := Option.map_eq_some_iff.mp current
              have older := proper.chain_entered
              rw [listed, List.pairwise_cons] at older
              have less := older.1 lower (List.mem_of_mem_drop (List.mem_of_mem_head? here))
              rw [named] at less
              exact absurd less (Nat.lt_irrefl _)

/-- Unwinding to the former current frame leaves the former frames that are still live. -/
theorem Tells.chain_unwound (tells : before.Tells events after)
    (proper : before.heap.frames.Proper)
    : ∃ left,
        (after.heap.frames.unwindTo before.heap.frames.current).chain
          = before.heap.frames.chain.drop left
        ∧ ∀ frame ∈ before.heap.frames.chain.drop left, frame ∈ after.heap.frames.chain := by
  obtain ⟨entered, left, chain, newer⟩ := tells.chain
  refine ⟨left, ?_, fun frame member => ?_⟩
  · rw [tells.proper.chain_unwindTo, chain, List.filter_append, FrameStack.current_eq]
    have none : entered.filter (fun entry =>
        FrameStack.isWithin (before.heap.frames.chain.head?.map Prod.fst) entry.1) = [] := by
      rw [List.filter_eq_nil_iff]
      intro entry member within
      rw [FrameStack.isWithin, Option.any_eq_true] at within
      obtain ⟨mark, here, bound⟩ := within
      obtain ⟨former, top, rfl⟩ := Option.map_eq_some_iff.mp here
      have less := proper.number_lt (List.mem_of_mem_head? top)
      have more := newer entry member
      simp only [decide_eq_true_eq] at bound
      omega
    rw [none, List.nil_append, List.filter_eq_self]
    intro entry member
    have former := List.mem_of_mem_drop member
    cases listed : before.heap.frames.chain with
    | nil =>
        rw [listed] at former
        cases former
    | cons top rest =>
        have older := proper.chain_entered
        rw [listed] at former older
        rcases List.mem_cons.mp former with rfl | below
        · simp [FrameStack.isWithin]
        · have less := (List.pairwise_cons.mp older).1 entry below
          simp only [FrameStack.isWithin, List.head?_cons, Option.map_some, Option.any_some,
            decide_eq_true_eq]
          exact Nat.le_of_lt less
  · rw [chain]
    exact List.mem_append_right _ member

section Endings

variable {world middle : World σ δ} (proper : world.heap.frames.Proper)
  (tells : world.opened.Tells events middle)
include proper tells

/-- A block whose body ended well is neutral, or stopped where the current frame is another one. -/
theorem runs_closeBlock_neutral (value : α)
    : Runs (closeBlock world.block (.ok value)) middle
        (fun _ final =>
          middle.heap.frames.current = world.heap.frames.current
          ∧ world.Neutral events final
          ∧ world.Leaves middle final)
        fun violation _ =>
          violation
          = .exceptFrameLeak world.heap.frames.current middle.heap.frames.current := by
  refine (runs_closeBlock_ok tells.encloses value).mono (fun _ final closed => ?_) fun _ _ => And.left
  obtain ⟨-, current, frames, returns⟩ := closed
  have told := tells.of_opened.of_frames frames returns
  rw [← frames] at current
  refine ⟨frames ▸ current, told.neutral (told.chain_of_current proper current) returns, ?_⟩
  intro frame _ position
  rw [frames]

/-- A block whose body failed is neutral, or stopped where a former frame is not live any more. -/
theorem runs_closeBlock_unwound (thrown : Thrown)
    : Runs (closeBlock world.block (.error thrown : Except Thrown α)) middle
        (fun _ final =>
          (∀ frame ∈ world.heap.frames.chain, frame ∈ middle.heap.frames.chain)
          ∧ world.Neutral events final
          ∧ world.Leaves middle final)
        fun violation _ =>
          violation
          = .exceptUnwind world.heap.frames.current
              (middle.heap.frames.unwindTo world.heap.frames.current).current := by
  refine (runs_closeBlock_thrown tells.encloses thrown).mono (fun _ final closed => ?_)
    fun _ _ => And.left
  obtain ⟨depth, frames, returns⟩ := closed
  obtain ⟨left, unwound, live⟩ := tells.of_opened.chain_unwound proper
  -- as many frames as before are the ones before
  have whole : world.heap.frames.chain.drop left = world.heap.frames.chain := by
    refine (List.drop_suffix _ _).eq_of_length ?_
    rw [← unwound, FrameStack.length_chain, FrameStack.length_chain, depth]
  rw [whole] at unwound live
  have told := (tells.of_opened.unwound proper world.heap.frames.current).of_frames frames returns
  refine ⟨live, told.neutral (frames ▸ unwound) returns, fun frame former position => ?_⟩
  obtain ⟨left, dropped⟩ := middle.heap.frames.unwindTo_eq_drop world.heap.frames.current
  rw [← unwound, dropped] at former
  rw [frames, dropped, tells.proper.slotAt_drop former]

end Endings

/-- Blocks are neutral on the frame stack. Whatever its body does, a block that ends leaves the chain of
live frames and the number of handlers as they were when it began, and the slots of these frames changed
only where they were written or forwarded by a collection that ran: they are as the body left them. If
the body ends well in another frame, or fails after a frame of that chain was left, the block is stopped.
-/
theorem except_blocks_neutral {world : World σ δ} (reachable : world.Reachable)
    (body : Routine σ δ (Except Thrown α))
    : (∀ result final,
        exceptBlock body.run world = .ok result final →
        world.Neutral (body.events world.opened) final
        ∧ ∃ outcome middle,
            body.run world.opened = .ok outcome middle ∧ world.Leaves middle final)
      ∧ (∀ value middle,
          body.run world.opened = .ok (.ok value) middle →
          middle.heap.frames.current ≠ world.heap.frames.current →
          ∃ final,
            exceptBlock body.run world
            = .error
                (.exceptFrameLeak world.heap.frames.current middle.heap.frames.current) final)
      ∧ ∀ thrown middle,
          body.run world.opened = .ok (.error thrown) middle →
          ∀ frame ∈ world.heap.frames.chain,
            .left frame.1 ∈ body.events world.opened ∨ frame ∉ middle.heap.frames.chain →
            ∃ final,
              exceptBlock body.run world
              = .error
                  (.exceptUnwind world.heap.frames.current
                    (middle.heap.frames.unwindTo world.heap.frames.current).current)
                  final := by
  have proper := reachable.proper
  have tells : ∀ {result middle}, body.run world.opened = .ok result middle →
      world.opened.Tells (body.events world.opened) middle := by
    intro result middle ran
    have told : world.opened.Tells _ _ := tells_run body proper
    rwa [after, ran] at told
  rw [exceptBlock_apply]
  refine ⟨fun result final ended => ?_, fun value middle ran other => ?_, ?_⟩
  · cases ran : body.run world.opened with
    | error violation middle =>
        rw [ran] at ended
        cases ended
    | ok outcome middle =>
        rw [ran] at ended
        cases outcome with
        | ok value =>
            have closed := (runs_closeBlock_neutral proper (tells ran) value).of_ok ended
            exact ⟨closed.2.1, _, middle, rfl, closed.2.2⟩
        | error thrown =>
            have closed := (runs_closeBlock_unwound proper (tells ran) thrown).of_ok ended
            exact ⟨closed.2.1, _, middle, rfl, closed.2.2⟩
  · rw [ran]
    have closes := runs_closeBlock_neutral proper (tells ran) value
    cases closed : closeBlock world.block (.ok value) middle with
    | ok result final => exact absurd (closes.of_ok closed).1 other
    | error violation final =>
        rw [closes.of_error closed] at closed
        exact ⟨final, closed⟩
  · intro thrown middle ran frame former gone
    rw [ran]
    have closes : Runs (closeBlock world.block (.error thrown : Except Thrown α)) middle _ _ :=
      runs_closeBlock_unwound proper (tells ran) thrown
    have missing : frame ∉ middle.heap.frames.chain :=
      gone.elim ((tells ran).left frame former) id
    cases closed : closeBlock world.block (.error thrown : Except Thrown α) middle with
    | ok result final => exact absurd ((closes.of_ok closed).1 frame former) missing
    | error violation final =>
        rw [closes.of_error closed] at closed
        exact ⟨final, closed⟩

end World

namespace Record

/-- A frame was entered beside a young record. -/
def framedWorld : World HostState Destructor :=
  youngWorld.after ((Operation.enterFrame { name := "outer", params := 0, locals := 1 } []).run host)

/-- A body that leaves the frame in which its block began and throws. -/
def leaving : Routine HostState Destructor (Except Thrown Unit) :=
  .operate host (.exitFrame ⟨1⟩) rfl <|
    .operate host (.throwException 7 .null) rfl <| .done (.error { code := 7, payload := .null })

theorem reachable_framed : framedWorld.Reachable := conforming_young.reachable.operate host _

/-- The body fails after it left the frame. -/
theorem leaving_fails
    : Runs (leaving.run) framedWorld.opened
        (fun result middle => result = .error ⟨7, .null⟩ ∧ middle.heap.frames.frames = [])
        fun _ _ => False := by
  decide +kernel

end Record

/-- A block that cannot go back to the frame in which it began is stopped. -/
theorem World.except_blocks_neutral_left
    : Record.framedWorld.Reachable
      ∧ Record.framedWorld.heap.frames.current = some ⟨1⟩
      ∧ ∃ final,
          exceptBlock Record.leaving.run Record.framedWorld
          = .error (.exceptUnwind (some ⟨1⟩) none) final := by
  have current : Record.framedWorld.heap.frames.current = some ⟨1⟩ := by decide +kernel
  have live : (⟨1⟩, { name := "outer", params := 0, locals := 1 })
      ∈ Record.framedWorld.heap.frames.chain := by decide +kernel
  obtain ⟨-, -, unwinds⟩ := except_blocks_neutral Record.reachable_framed Record.leaving
  cases ran : Record.leaving.run Record.framedWorld.opened with
  | error violation middle => exact (Record.leaving_fails.of_error ran).elim
  | ok result middle =>
      obtain ⟨failed, frames⟩ := Record.leaving_fails.of_ok ran
      rw [failed] at ran
      have gone : middle.heap.frames.chain = [] := by rw [FrameStack.chain, frames, List.map_nil]
      obtain ⟨final, stopped⟩ := unwinds _ middle ran _ live (.inr (by simp [gone]))
      refine ⟨Record.reachable_framed, current, final, ?_⟩
      rw [stopped, current]
      simp [FrameStack.unwindTo, FrameStack.current, frames]

end MovingHeap
