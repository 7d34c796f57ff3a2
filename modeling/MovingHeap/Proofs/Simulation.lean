import MovingHeap.Proofs.Pairs

/-! One program in two heaps, instruction by instruction.
Heaps that a program cannot tell apart answer the same to whatever it does next and can be told apart no
better afterwards.
-/

namespace MovingHeap

variable {σ τ δ ε : Type}

-----------------------------------------------------------------------------------------
-- Frames
-----------------------------------------------------------------------------------------

namespace FrameStack

variable {stack other : FrameStack}

/-- A frame that is left holds nothing any more, and the others hold what they did. -/
theorem slotAt_pop (entered : stack.frames.Pairwise fun newer older => older.id.number < newer.id.number)
    {id : FrameId} {popped : FrameStack} (left : stack.pop id = .ok popped) (frame : FrameId)
    (position : Nat)
    : popped.slotAt frame position
      = if frame = id then .null else stack.slotAt frame position := by
  unfold pop at left
  split at left
  next top rest listed =>
    split_ifs at left with current
    cases left
    subst current
    rw [listed, List.pairwise_cons] at entered
    simp only [slotAt, find?, listed, List.find?_cons]
    by_cases here : frame = top.id
    · have gone : (rest.find? fun older => older.id == frame) = none := by
        rw [List.find?_eq_none]
        intro older member same
        have below := entered.1 older member
        rw [beq_iff_eq.mp same, here] at below
        exact absurd below (Nat.lt_irrefl _)
      rw [gone, if_pos here]
      rfl
    · rw [if_neg here, beq_eq_false_iff_ne.mpr (Ne.symm here)]
  next => cases left

/-- Frames with one outline leave the same frames. -/
theorem outline_pop (same : other.outline = stack.outline) {id : FrameId} {popped popped' : FrameStack}
    (left : stack.pop id = .ok popped) (left' : other.pop id = .ok popped')
    : popped'.outline = popped.outline := by
  have frames : other.frames.map Frame.outline = stack.frames.map Frame.outline :=
    congrArg FrameStack.frames same
  have next : other.nextNumber = stack.nextNumber :=
    (congrArg FrameStack.nextNumber same :)
  unfold pop at left left'
  split at left
  next top rest listed =>
    split at left'
    next top' rest' listed' =>
      split_ifs at left left'
      cases left
      cases left'
      rw [listed, listed', List.map_cons, List.map_cons, List.cons.injEq] at frames
      simp only [outline, frames.2, next]
    next => cases left'
  next => cases left

/-- Frames with one outline take the same frame on. -/
theorem outline_push (same : other.outline = stack.outline) {descriptor : FrameDescriptor}
    {params params' : List Value} {id id' : FrameId} {pushed pushed' : FrameStack}
    (entered : stack.push descriptor params = .ok (id, pushed))
    (entered' : other.push descriptor params' = .ok (id', pushed'))
    : id' = id ∧ pushed'.outline = pushed.outline := by
  have frames : other.frames.map Frame.outline = stack.frames.map Frame.outline :=
    congrArg FrameStack.frames same
  have next : other.nextNumber = stack.nextNumber :=
    (congrArg FrameStack.nextNumber same :)
  unfold push at entered entered'
  split_ifs at entered entered' with arity arity'
  cases entered
  cases entered'
  simp [outline, Frame.outline, frames, next, arity, arity']

end FrameStack

namespace World

variable {contract : Contract σ} {contract' : Contract τ} {loaded : Nat → Prop}
  {first : World σ δ} {second : World τ ε} {pairs : Value → Value → Prop}

section Frames

variable {world : World σ δ}

/-- A frame may be entered with values that may be used. -/
theorem Serving.enterFrame (serving : world.Serving contract) {descriptor : FrameDescriptor}
    {params : List Value} (usable : ∀ value ∈ params, world.Usable contract value)
    : Runs (World.enterFrame descriptor params) world
        (fun id final =>
          final.Serving contract
          ∧ ∃ frames,
              world.heap.frames.push descriptor params = .ok (id, frames)
              ∧ final.heap = { world.heap with frames })
        fun _ _ => True := by
  have pushes : Runs (World.enterFrame descriptor params) world
      (fun id final =>
        ∃ frames,
          world.heap.frames.push descriptor params = .ok (id, frames)
          ∧ final.heap = { world.heap with frames })
      fun _ _ => True := by
    simp only [World.enterFrame, runs_bind, runs_heapNow, runs_check, runs_modifyHeap, runs_pure]
    split
    next entered done => exact ⟨entered.2, done, rfl⟩
    next => trivial
  refine (((serving.toSound.enterFrame (serving.wellFormed_usable usable)).and
    (lasting_enterFrame descriptor params world)).and pushes).mono ?_ fun _ _ _ => trivial
  rintro id final ⟨⟨sound, lasts⟩, frames, done, heap⟩
  have idle : final.heap.phase = .idle := by
    rw [heap]
    exact serving.idle
  have steady := lasts.steady idle serving.steady
  refine ⟨⟨sound idle steady, steady, idle, ?_⟩, frames, done, heap⟩
  rw [heap]
  exact serving.known

/-- The current frame may be left. -/
theorem Serving.exitFrame (serving : world.Serving contract) (id : FrameId)
    : Runs (World.exitFrame id) world
        (fun _ final =>
          final.Serving contract
          ∧ ∃ frames,
              world.heap.frames.pop id = .ok frames
              ∧ final.heap = { world.heap with frames })
        fun _ _ => True := by
  have pops : Runs (World.exitFrame id) world
      (fun _ final =>
        ∃ frames, world.heap.frames.pop id = .ok frames ∧ final.heap = { world.heap with frames })
      fun _ _ => True := by
    simp only [World.exitFrame, runs_bind, runs_heapNow, runs_check, runs_modifyHeap]
    split
    next frames done => exact ⟨frames, done, rfl⟩
    next => trivial
  refine ((serving.toSound.exitFrame.and (lasting_exitFrame id world)).and pops).mono ?_
    fun _ _ _ => trivial
  rintro _ final ⟨⟨sound, lasts⟩, frames, done, heap⟩
  have idle : final.heap.phase = .idle := by
    rw [heap]
    exact serving.idle
  have steady := lasts.steady idle serving.steady
  refine ⟨⟨sound idle steady, steady, idle, ?_⟩, frames, done, heap⟩
  rw [heap]
  exact serving.known

end Frames

/-- Heaps stay abreast where their frames change, if slots hold paired values then. -/
theorem Level.frames_changed (level : Level contract contract' loaded first second)
    (agrees : first.Matches contract.layout second pairs) {first' : World σ δ}
    {second' : World τ ε} {frames frames' : FrameStack} (serves : first'.Serving contract)
    (serves' : second'.Serving contract') (heap : first'.heap = { first.heap with frames })
    (heap' : second'.heap = { second.heap with frames := frames' })
    (outline : frames'.outline = frames.outline)
    (slots : ∀ id position, pairs (frames.slotAt id position) (frames'.slotAt id position))
    : Abreast contract contract' loaded first' second' where
  serves := serves
  serves' := serves'
  frames := by rw [heap, heap']; exact outline
  modules := by rw [heap, heap']; exact level.modules
  looks := by
    refine ⟨pairs, ?_, fun root => ?_⟩
    · rw [heap, heap']
      exact agrees.alike
    · rw [heap, heap']
      cases root with
      | slot id position => exact slots id position
      | pending handler => exact agrees.roots (.pending handler)
      | module rank => exact agrees.roots (.module rank)
      | constant index => exact agrees.roots (.constant index)

/-- Lists of paired values hold paired values, and null behind their ends. -/
theorem Pairing.getD (pairing : Pairing contract contract' first second pairs)
    {values values' : List Value} (paired : List.Forall₂ pairs values values') (index : Nat)
    : pairs (values[index]?.getD .null) (values'[index]?.getD .null) := by
  induction paired generalizing index with
  | nil => exact pairing.plain .null rfl
  | cons head _ ih =>
      cases index with
      | zero => exact head
      | succ index => exact ih index

/-- A frame is entered with paired values in both heaps. -/
theorem Level.enter (level : Level contract contract' loaded first second)
    (pairing : Pairing contract contract' first second pairs) {values values' : List Value}
    (paired : List.Forall₂ pairs values values') (descriptor : FrameDescriptor)
    : Both (enterFrame descriptor values) first (enterFrame descriptor values') second
        fun id final id' final' => id = id' ∧ Abreast contract contract' loaded final final' := by
  have usable : (∀ value ∈ values, first.Usable contract value)
      ∧ ∀ value ∈ values', second.Usable contract' value := by
    induction paired with
    | nil => simp
    | cons head _ ih =>
        obtain ⟨left, right⟩ := pairing.usable _ _ head
        exact ⟨List.forall_mem_cons.mpr ⟨left, ih.1⟩, List.forall_mem_cons.mpr ⟨right, ih.2⟩⟩
  refine .of_runs (level.serves.enterFrame usable.1) (level.serves'.enterFrame usable.2) ?_
  rintro id final id' final' ⟨serves, frames, done, heap⟩ ⟨serves', frames', done', heap'⟩
  obtain ⟨rfl, outline⟩ := FrameStack.outline_push level.frames done done'
  refine ⟨rfl, level.frames_changed pairing.toMatches serves serves' heap heap' outline
    fun other position => ?_⟩
  rw [FrameStack.slotAt_push done, FrameStack.slotAt_push done']
  split_ifs
  · exact pairing.getD paired position
  · exact pairing.roots (.slot other position)

/-- The current frame is left in both heaps. -/
theorem Level.exit (level : Level contract contract' loaded first second)
    (pairing : Pairing contract contract' first second pairs) (id : FrameId)
    : Both (exitFrame id) first (exitFrame id) second
        fun _ final _ final' => Abreast contract contract' loaded final final' := by
  refine .of_runs (level.serves.exitFrame id) (level.serves'.exitFrame id) ?_
  rintro _ final _ final' ⟨serves, frames, done, heap⟩ ⟨serves', frames', done', heap'⟩
  refine level.frames_changed pairing.toMatches serves serves' heap heap'
    (FrameStack.outline_pop level.frames done done') fun other position => ?_
  rw [FrameStack.slotAt_pop level.serves.regular.entered done,
    FrameStack.slotAt_pop level.serves'.regular.entered done']
  split_ifs
  · exact pairing.plain .null rfl
  · exact pairing.roots (.slot other position)

end World

end MovingHeap
