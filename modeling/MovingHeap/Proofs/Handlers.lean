import MovingHeap.Proofs.Histories

/-! What becomes of an exception on its way to a block.
The handler of the block keeps the last exception that was thrown to it until the block ends, and
whatever collections run until then, they keep its payload.
-/

namespace MovingHeap

variable {σ δ α : Type}

-----------------------------------------------------------------------------------------
-- What handlers keep
-----------------------------------------------------------------------------------------

namespace ExceptStack

/-- What was thrown to the handler at a position. -/
def pendingAt? (stack : ExceptStack) (index : Nat) : Option Thrown :=
  stack.handlers[index]?.bind (·.pending)

/-- What a block whose handler is at a position hands back if its body fails: what was thrown to it with
the same code, or else what the body failed with.
-/
def handsBack (stack : ExceptStack) (index : Nat) (thrown : Thrown) : Thrown :=
  ((stack.pendingAt? index).filter (·.code == thrown.code)).getD thrown

variable {stack next : ExceptStack} {index : Nat} {thrown : Thrown}

/-- Something was thrown only to handlers that are installed. -/
theorem lt_depth_of_pendingAt? (pending : stack.pendingAt? index = some thrown)
    : index < stack.depth := by
  obtain ⟨handler, found, -⟩ := Option.bind_eq_some_iff.mp pending
  exact (List.getElem?_eq_some_iff.mp found).1

/-- An exception that the handler kept is handed back. -/
theorem handsBack_of_pendingAt? (pending : stack.pendingAt? index = some thrown) {other : Thrown}
    (same : thrown.code = other.code)
    : stack.handsBack index other = thrown := by
  rw [handsBack, pending, Option.filter_some, if_pos (by simpa using same)]
  rfl

/-- An exception is handed back if the handler could take no other for it. -/
theorem handsBack_of_ne
    (differs : ∀ other, stack.pendingAt? index = some other → other.code ≠ thrown.code)
    : stack.handsBack index thrown = thrown := by
  have none : (stack.pendingAt? index).filter (·.code == thrown.code) = none := by
    rw [Option.filter_eq_none_iff]
    intro other pending
    simpa using differs other pending
  rw [handsBack, none]
  rfl

/-- The payload that a root holds is that of the exception. -/
theorem payloadAt_of_pendingAt? (pending : stack.pendingAt? index = some thrown)
    : stack.payloadAt index = thrown.payload := by
  unfold pendingAt? at pending
  rw [payloadAt, pending]
  rfl

/-- A handler that is installed leaves the others alone. -/
theorem pendingAt?_push (handler : Handler) (inside : index < stack.depth)
    : (stack.push handler).pendingAt? index = stack.pendingAt? index := by
  rw [pendingAt?, push, List.getElem?_append_left inside]
  rfl

/-- Handlers below those that are taken off keep what was thrown to them. -/
theorem pendingAt?_popTo {depth : Nat} (below : index < depth) (installed : depth < stack.depth)
    : (stack.popTo depth).2.pendingAt? index = stack.pendingAt? index := by
  have length : (stack.handlers.take (depth + 1)).length = depth + 1 :=
    List.length_take_of_le installed
  simp only [pendingAt?, popTo, List.getElem?_dropLast, length, List.getElem?_take]
  rw [if_pos (by omega), if_pos (by omega)]

/-- The handler at a position is the one that is taken off there. -/
theorem popTo_fst {depth : Nat} (installed : depth < stack.depth)
    : (stack.popTo depth).1 = stack.handlers[depth]? := by
  have length : (stack.handlers.take (depth + 1)).length = depth + 1 :=
    List.length_take_of_le installed
  simp only [popTo, List.getLast?_eq_getElem?, length, List.getElem?_take]
  rw [if_pos (by omega)]
  rfl

/-- A throw goes to the innermost handler and to no other. -/
theorem pendingAt?_raise? (raised : stack.raise? thrown = some next) (index : Nat)
    : next.pendingAt? index
      = if index + 1 = stack.depth then some thrown else stack.pendingAt? index := by
  unfold raise? at raised
  split_ifs at raised with none
  cases raised
  have some : 0 < stack.depth := by
    rw [depth, List.length_pos_iff]
    simpa using none
  simp only [pendingAt?, List.getElem?_modify]
  by_cases here : index + 1 = stack.depth
  · have position : stack.depth - 1 = index := by omega
    have found : index < stack.handlers.length := by
      rw [← depth]
      omega
    simp [here, position, List.getElem?_eq_getElem found]
  · have other : stack.depth - 1 ≠ index := by omega
    simp [here, other]

/-- Handlers that differ in payloads alone keep the same exceptions but for these. -/
theorem pendingAt?_of_outline (same : next.outline = stack.outline) (index : Nat)
    : next.pendingAt? index
      = (stack.pendingAt? index).map ({ · with payload := next.payloadAt index }) := by
  have outlines : next.handlers[index]?.map Handler.outline
      = stack.handlers[index]?.map Handler.outline := by
    rw [← List.getElem?_map, ← List.getElem?_map]
    exact congrArg (fun stack : ExceptStack => stack.handlers[index]?) same
  unfold payloadAt pendingAt?
  cases now : next.handlers[index]? with
  | none =>
      rw [now, Option.map_none, eq_comm, Option.map_eq_none_iff] at outlines
      rw [outlines]
      rfl
  | some handler =>
      rw [now, Option.map_some, eq_comm, Option.map_eq_some_iff] at outlines
      obtain ⟨former, found, outline⟩ := outlines
      have pendings := congrArg Handler.pending outline
      rw [found]
      cases pending : handler.pending <;> cases earlier : former.pending <;>
        simp_all [Handler.outline]

end ExceptStack

-----------------------------------------------------------------------------------------
-- Steps
-----------------------------------------------------------------------------------------

/-- The operation does not touch what was thrown to the handler at a position: it throws to another
one, or takes off handlers above it.
-/
def Operation.Passes (index : Nat) (world : World σ δ) : Operation δ → Prop
  | .throwException .. => index + 1 < world.heap.handlers.depth
  | .closeBlock block _ => index < block.depth ∧ block.depth < world.heap.handlers.depth
  | _ => True

/-- The step does not touch what was thrown to the handler at a position. -/
def Step.Passes (index : Nat) (world : World σ δ) : Step σ δ → Prop
  | operate _ operation => operation.Passes index world
  | change _ => True

/-- No step touches what was thrown to the handler at a position. -/
def World.Passes (index : Nat) (world : World σ δ) : List (Step σ δ) → Prop
  | [] => True
  | step :: rest => step.Passes index world ∧ (world.after step.run).Passes index rest

variable {contract : Contract σ} {world : World σ δ} {host : Host σ δ} {operation : Operation δ}
  {index : Nat} {thrown : Thrown}

/-- Operations about handlers keep what they do not touch. -/
theorem Operation.pending_handling (handling : operation.isHandling)
    (passes : operation.Passes index world) (inside : index < world.heap.handlers.depth)
    : Runs (operation.run host) world
        (fun _ final =>
          final.heap.handlers.pendingAt? index = world.heap.handlers.pendingAt? index)
        fun _ _ => True := by
  cases operation with
  | openBlock => exact ExceptStack.pendingAt?_push _ inside
  | closeBlock block result =>
      have kept := ExceptStack.pendingAt?_popTo passes.1 passes.2
      simp only [run, runs_map, World.closeBlock, runs_bind, World.runs_heapNow,
        World.runs_modifyHeap]
      cases result with
      | ok value =>
          simp only [runs_bind, World.runs_heapNow, runs_ite, World.runs_stop, runs_pure]
          split_ifs
          exact kept
      | error thrown =>
          simp only [runs_bind, World.runs_heapNow, World.runs_modifyHeap, runs_ite,
            World.runs_stop, runs_pure]
          split_ifs
          exact kept
  | throwException code payload =>
      have outer : index + 1 < world.heap.handlers.depth := passes
      simp only [run, runs_map, World.throwException, runs_bind, World.runs_heapNow,
        World.runs_require, World.runs_modifyHeap, runs_pure]
      split
      next raised =>
        rw [ExceptStack.pendingAt?_raise? raised, if_neg (Nat.ne_of_lt outer)]
      next => trivial
  | _ => cases handling

/-- A step that ends leaves the heap idle, and what was thrown to a handler that it does not touch
becomes what the step makes of it.
-/
theorem Step.runs_pending {step : Step σ δ} (conforming : world.Conforming contract)
    (idle : world.heap.phase = .idle) (addressable : world.Addressable)
    (conforms : step.Conforms contract world)
    : Runs step.run world
        (fun _ final =>
          final.heap.phase = .idle
          ∧ ∃ move,
              step.Moves contract world move
              ∧ ∀ index thrown,
                  step.Passes index world →
                  world.heap.handlers.pendingAt? index = some thrown →
                  final.heap.handlers.pendingAt? index
                  = some { thrown with payload := move thrown.payload })
        fun _ _ => True := by
  cases step with
  | change state => exact ⟨idle, id, .rests rfl, fun _ _ _ pending => pending⟩
  | operate host operation =>
      have sound := conforming.sound idle addressable
      have steady := conforming.reachable.steady idle
      have takes := Operation.takes_run sound steady addressable conforms.1 conforms.2
      unfold Runs
      cases ran : (Step.operate host operation).run world with
      | error => trivial
      | ok result final =>
          have ends : world.after (operation.run host) = final := by
            rw [Step.run] at ran
            rw [World.after, ran]
          have course := takes.of_ok ran
          cases course with
          | direct spares =>
              refine ⟨spares.phase.trans idle, id, .rests ?_, fun index thrown passes pending => ?_⟩
              · rw [Step.run, ends, spares.collections]
              · change _ = some thrown
                rw [← pending]
                cases handling : operation.isHandling with
                | false => rw [spares.handlers handling]
                | true =>
                    have inside := ExceptStack.lt_depth_of_pendingAt? pending
                    exact (Operation.pending_handling handling passes inside).of_ok ran
          | @collected words wantsFull reason middle _ begins reaches collects =>
              obtain ⟨kept, -, move, collected⟩ :=
                (begins.collectFor reaches conforms.1 _ _ _).of_ok collects
              obtain ⟨regions, counters, log, -, -, start⟩ := operation.start_eq world
              obtain ⟨birth, finish⟩ := operation.finish_eq middle
              have handlers : (operation.finish middle).heap.handlers = middle.heap.handlers := by
                rw [finish]
              refine ⟨?_, move, .collects collected ends, fun index thrown _ pending => ?_⟩
              · rw [finish]
                exact kept.idle
              · have payload : middle.heap.handlers.payloadAt index = move thrown.payload := by
                  have root := collected.roots (.pending index)
                  rw [start] at root
                  rw [← ExceptStack.payloadAt_of_pendingAt? pending]
                  exact root
                have outline := kept.tables.handlers
                rw [start] at outline
                rw [handlers, ExceptStack.pendingAt?_of_outline outline, pending, payload]
                rfl

-----------------------------------------------------------------------------------------
-- Blocks
-----------------------------------------------------------------------------------------

namespace World

/-- Steps that end leave the heap idle, and what was thrown to a handler that they do not touch becomes
what they make of it.
-/
theorem runs_perform_pending {steps : List (Step σ δ)} (conforming : world.Conforming contract)
    (idle : world.heap.phase = .idle) (plays : world.Plays contract steps)
    : Runs (perform steps) world
        (fun _ final =>
          final.heap.phase = .idle
          ∧ ∃ move,
              world.Moves contract steps move
              ∧ ∀ index thrown,
                  world.Passes index steps →
                  world.heap.handlers.pendingAt? index = some thrown →
                  final.heap.handlers.pendingAt? index
                  = some { thrown with payload := move thrown.payload })
        fun _ _ => True := by
  induction steps generalizing world with
  | nil => exact ⟨idle, id, rfl, fun _ _ _ pending => pending⟩
  | cons step rest ih =>
      rw [perform, runs_bind]
      refine ((Step.runs_pending conforming idle plays.1 plays.2.1).and
        (runs_after step.run world)).mono ?_ fun _ _ _ => trivial
      rintro _ middle ⟨⟨rests, first, moves, keeps⟩, same⟩
      rw [same] at rests keeps ⊢
      refine (ih (conforming.step plays.2.1) rests plays.2.2).mono ?_ fun _ _ _ => trivial
      rintro _ final ⟨ends, later, further, last⟩
      refine ⟨ends, later ∘ first, ⟨first, later, moves, further, rfl⟩, ?_⟩
      intro index thrown passes pending
      exact last index _ passes.2 (keeps index thrown passes.1 pending)

/-- The world in which a block has begun. -/
def opened (world : World σ δ) : World σ δ := world.after openBlock

/-- Beginning a block is what every host may do. -/
theorem Conforming.opened (conforming : world.Conforming contract)
    (faithful : host.Faithful contract)
    : world.opened.Conforming contract := by
  have permitted : (Operation.openBlock : Operation δ).Permitted contract world := trivial
  exact .operate conforming faithful permitted

/-- A block that fails hands back what is pending with the same code, or else what its body failed
with. It changes no memory, and is stopped only where frames are missing.
-/
theorem runs_closeBlock_error {block : Block} (installed : block.depth < world.heap.handlers.depth)
    : Runs (closeBlock block (.error thrown : Except Thrown α)) world
        (fun result final =>
          result = .error (world.heap.handlers.handsBack block.depth thrown)
          ∧ final.heap.regions = world.heap.regions
          ∧ final.heap.phase = world.heap.phase)
        fun violation _ => ∃ expected left, violation = .exceptUnwind expected left := by
  have found : world.heap.handlers.handlers[block.depth]?
      = some world.heap.handlers.handlers[block.depth] := List.getElem?_eq_getElem installed
  simp only [closeBlock, runs_bind, runs_heapNow, runs_modifyHeap, runs_ite, runs_stop, runs_pure,
    ExceptStack.popTo_fst installed, ExceptStack.handsBack, ExceptStack.pendingAt?, found, Option.getD_some, Option.bind_some]
  split_ifs
  · exact ⟨_, _, rfl⟩
  · exact ⟨trivial, trivial, trivial⟩

/-- How an exception that a block ends with is handed back as it should be: it is what the handler at a
position keeps, and remains so; or nothing that the handler keeps in the end could be taken for it, and
no collection runs any more.
-/
inductive Delivers (index : Nat) (world : World σ δ) (steps : List (Step σ δ)) (thrown : Thrown)
    : Prop where
  | kept (pending : world.heap.handlers.pendingAt? index = some thrown)
      (passes : world.Passes index steps)
  | alone (rests : (world.play steps).heap.collections = world.heap.collections)
      (installed : index < (world.play steps).heap.handlers.depth)
      (differs
        : ∀ other,
            (world.play steps).heap.handlers.pendingAt? index = some other →
            other.code ≠ thrown.code)

/-- Steps that end leave the exception to be handed back with what they make of its payload. -/
theorem runs_perform_delivers {steps : List (Step σ δ)} (conforming : world.Conforming contract)
    (idle : world.heap.phase = .idle) (plays : world.Plays contract steps)
    (delivers : world.Delivers index steps thrown)
    : Runs (perform steps) world
        (fun _ final =>
          final.heap.phase = .idle
          ∧ index < final.heap.handlers.depth
          ∧ ∃ move,
              world.Moves contract steps move
              ∧ final.heap.handlers.handsBack index thrown
                = { thrown with payload := move thrown.payload })
        fun _ _ => True := by
  refine ((runs_perform_pending conforming idle plays).and (runs_perform steps world)).mono ?_
    fun _ _ _ => trivial
  rintro _ final ⟨⟨ends, move, moves, keeps⟩, rfl⟩
  cases delivers with
  | kept pending passes =>
      have kept := keeps index thrown passes pending
      exact ⟨ends, ExceptStack.lt_depth_of_pendingAt? kept, move, moves,
        ExceptStack.handsBack_of_pendingAt? kept rfl⟩
  | alone rests installed differs =>
      have unmoved := moves.counts.2 rests
      refine ⟨ends, installed, move, moves, ?_⟩
      rw [ExceptStack.handsBack_of_ne differs, unmoved]
      rfl

end World

end MovingHeap
