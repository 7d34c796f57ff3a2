import MovingHeap.Proofs.FieldWrites
import MovingHeap.Proofs.NewObjects
import MovingHeap.Proofs.Programs

/-! What a mutator keeps at its places, in one heap.
A value that is put into a place replaces what one root holds, and nothing else changes.
-/

namespace MovingHeap

variable {σ δ α β : Type}

-----------------------------------------------------------------------------------------
-- Frames without what they hold
-----------------------------------------------------------------------------------------

namespace FrameStack

variable {stack other : FrameStack}

/-- The frame of a handle is told by the outline but for what its slots hold. -/
theorem find?_outline (stack : FrameStack) (id : FrameId)
    : stack.outline.find? id = (stack.find? id).map Frame.outline := by
  rw [find?, find?, outline, List.find?_map]
  rfl

/-- The slots that a frame declares are told by the outline. -/
theorem position_outline (stack : FrameStack) (id : FrameId) (kind : SlotKind) (index : Nat)
    : stack.outline.position id kind index = stack.position id kind index := by
  rw [position, position, frame, frame, find?_outline]
  cases stack.find? id <;> rfl

/-- The slots that a frame has are told by the outline. -/
theorem slot?_outline (stack : FrameStack) (id : FrameId) (position : Nat)
    : (stack.outline.slot? id position).isSome = (stack.slot? id position).isSome := by
  rw [slot?, slot?, find?_outline]
  cases stack.find? id with
  | none => rfl
  | some frame =>
      rw [Option.map_some, Option.bind_some, Option.bind_some, Frame.outline,
        Array.getElem?_replicate]
      split_ifs with inside
      · simp [inside]
      · simp [Nat.not_lt.mp inside]

end FrameStack

/-- Frames with one outline have the same roots at a place. -/
theorem Place.root?_congr {stack other : FrameStack} (same : other.outline = stack.outline)
    (place : Place)
    : place.root? other = place.root? stack := by
  cases place with
  | slot id kind index =>
      rw [root?, root?, ← FrameStack.position_outline, same, FrameStack.position_outline]
  | module rank => rfl
  | constant index => rfl

/-- There is such a root. -/
def Heap.has (heap : Heap δ) : Root → Bool
  | .slot frame position => (heap.frames.slot? frame position).isSome
  | .pending handler => (heap.handlers.handlers[handler]?.bind (·.pending)).isSome
  | .module rank => (heap.modules.get? rank).isSome
  | .constant _ => true

namespace World

variable {contract : Contract σ} {world : World σ δ}

-----------------------------------------------------------------------------------------
-- Looking up
-----------------------------------------------------------------------------------------

/-- What is kept at a place is looked up. -/
theorem runs_placeRead (place : Place) (world : World σ δ)
    : Runs place.read world (fun value final => final = world ∧ value = place.value world)
        fun _ _ => True := by
  cases place with
  | slot id kind index =>
      simp only [Place.read, frameSlot, FrameStack.get, Place.value, Place.root?, runs_bind,
        runs_heapNow, runs_check]
      cases world.heap.frames.position id kind index with
      | error => trivial
      | ok position => exact ⟨trivial, rfl⟩
  | module rank =>
      simp only [Place.read, Heap.moduleConstant, Place.value, Place.root?, runs_bind, runs_heapNow,
        runs_pure]
      refine ⟨trivial, ?_⟩
      rw [ModuleTable.constant, ModuleTable.get, Option.map_some, Option.getD_some, Heap.rootValue,
        ModuleTable.constantAt]
      cases world.heap.modules.get? rank <;> rfl
  | constant index =>
      rw [Place.read, runs_bind, runs_heapNow, runs_pure]
      exact ⟨rfl, rfl⟩

/-- What is kept at a place may be used. -/
theorem usable_place (place : Place) : world.Usable contract (place.value world) := by
  rw [Place.value]
  cases place.root? world.heap.frames with
  | none => exact Or.inl (show Value.null.address? = none from rfl)
  | some root => exact usable_root root

/-- What is handed on is looked up. -/
theorem runs_operandRead (operand : Operand) (world : World σ δ)
    : Runs operand.read world (fun value final => final = world ∧ value = operand.value world)
        fun _ _ => True := by
  cases operand with
  | word raw => exact ⟨rfl, rfl⟩
  | place place => exact runs_placeRead place world

/-- All that is handed on is looked up, by one operand after another. -/
theorem runs_readAll (operands : List Operand) (world : World σ δ)
    : Runs (readAll operands) world
        (fun values final => final = world ∧ values = operands.map (Operand.value world))
        fun _ _ => True := by
  induction operands with
  | nil => exact ⟨rfl, rfl⟩
  | cons operand rest ih =>
      rw [readAll, runs_bind]
      refine (runs_operandRead operand world).mono ?_ fun _ _ => id
      rintro value _ ⟨rfl, rfl⟩
      rw [runs_bind]
      refine ih.mono ?_ fun _ _ => id
      rintro values _ ⟨rfl, rfl⟩
      exact ⟨rfl, rfl⟩

/-- The object that is referred to at a place is looked up. -/
theorem runs_referent (place : Place) (world : World σ δ)
    : Runs place.referent world
        (fun object final => final = world ∧ (place.value world).address? = some object)
        fun _ _ => True := by
  rw [Place.referent, runs_bind]
  refine (runs_placeRead place world).mono ?_ fun _ _ => id
  rintro value _ ⟨rfl, rfl⟩
  rw [runs_require]
  split
  next object found => exact ⟨rfl, found⟩
  next => trivial

-----------------------------------------------------------------------------------------
-- Keeping
-----------------------------------------------------------------------------------------

/-- A value was put into a place, and nothing else changed. -/
structure Puts (before : World σ δ) (place : Place) (value : Value) (after : World σ δ) : Prop where
  regions : after.heap.regions = before.heap.regions
  phase : after.heap.phase = before.heap.phase
  frames : after.heap.frames.outline = before.heap.frames.outline
  modules
    : ∀ rank,
        (after.heap.modules.get? rank).isSome = (before.heap.modules.get? rank).isSome
  roots
    : ∃ root,
        place.root? before.heap.frames = some root
        ∧ ∀ other,
            after.heap.rootValue other
            = if other = root ∧ before.heap.has root then value else before.heap.rootValue other

/-- A value that is put into a place is kept there. -/
theorem puts_placeWrite (place : Place) (value : Value) (world : World σ δ)
    : Runs (place.write value) world (fun _ final => world.Puts place value final)
        fun _ _ => True := by
  cases place with
  | slot id kind index =>
      simp only [Place.write, setFrameSlot, FrameStack.set, runs_bind, runs_heapNow, runs_check,
        runs_modifyHeap]
      cases found : world.heap.frames.position id kind index with
      | error => trivial
      | ok position =>
          refine ⟨rfl, rfl, Heap.outline_setSlotAt _ _ _ _, fun _ => rfl,
            .slot id position, by rw [Place.root?, found]; rfl, fun other => ?_⟩
          cases other with
          | slot id' position' =>
              simp only [Heap.rootValue, Heap.has, FrameStack.slotAt_eq,
                FrameStack.slot?_setSlotAt, Root.slot.injEq]
              by_cases here : id' = id ∧ position' = position
              · obtain ⟨rfl, rfl⟩ := here
                cases world.heap.frames.slot? id' position' <;> simp
              · simp only [here, false_and, if_false]
          | pending => simp [Heap.rootValue]
          | module => simp [Heap.rootValue]
          | constant => simp [Heap.rootValue]
  | module rank =>
      simp only [Place.write, setModuleConstant, updateModules, ModuleTable.setConstant,
        ModuleTable.get, runs_map, runs_bind, runs_heapNow]
      cases found : world.heap.modules.get? rank with
      | none =>
          exact ⟨rfl, rfl, rfl, fun _ => rfl, .module rank, rfl, fun other => by
            rw [if_neg]
            rintro ⟨-, here⟩
            rw [Heap.has, found] at here
            cases here⟩
      | some entry =>
          refine ⟨rfl, rfl, rfl, fun other => ?_, .module rank, rfl, fun other => ?_⟩
          · change (((world.heap.modules.put rank _).touch rank).get? other).isSome = _
            rw [ModuleTable.get?_touch, ModuleTable.get?_put]
            split_ifs with here
            · rw [← here, found]
              rfl
            · rfl
          · have has : world.heap.has (.module rank) := by rw [Heap.has, found]; rfl
            cases other with
            | module other =>
                change ((world.heap.modules.put rank _).touch rank).constantAt other = _
                rw [ModuleTable.constantAt_touch, ModuleTable.constantAt_put]
                simp only [Root.module.injEq, has, and_true]
                rfl
            | slot => simp [Heap.rootValue]
            | pending => simp [Heap.rootValue]
            | constant => simp [Heap.rootValue]
  | constant index =>
      refine ⟨rfl, rfl, rfl, fun _ => rfl, .constant index, rfl, fun other => ?_⟩
      cases other with
      | constant other =>
          simp only [Heap.rootValue, ConstantTable.get_set, Root.constant.injEq, Heap.has, and_true]
          exact if_congr eq_comm rfl rfl
      | slot => simp [Heap.rootValue]
      | pending => simp [Heap.rootValue]
      | module => simp [Heap.rootValue]

theorem lasting_placeWrite (place : Place) (value : Value)
    : Lasting (place.write value : Action (World σ δ) Unit) := by
  cases place with
  | slot id kind index => exact lasting_setFrameSlot id kind index value
  | module rank => exact (lasting_setModuleConstant rank value).map _
  | constant index => exact lasting_setConstant index value

/-- A well-formed value may be put into any place. -/
theorem Serving.placeWrite (serving : world.Serving contract) {value : Value}
    (wellFormed : world.WellFormed contract [value]) (place : Place)
    : Runs (place.write value) world
        (fun _ final => final.Serving contract ∧ world.Puts place value final)
        fun _ _ => True := by
  have keeps : KeepsSound contract (place.write value) world := by
    cases place with
    | slot id kind index => exact serving.toSound.setFrameSlot wellFormed
    | module rank => exact (serving.toSound.setModuleConstant wellFormed).map _
    | constant index => exact serving.toSound.setConstant wellFormed
  refine ((keeps.and (lasting_placeWrite place value world)).and
    (puts_placeWrite place value world)).mono ?_ fun _ _ _ => trivial
  rintro _ final ⟨⟨sound, lasts⟩, puts⟩
  have idle := puts.phase.trans serving.idle
  have steady := lasts.steady idle serving.steady
  refine ⟨⟨sound idle steady, steady, idle, ?_⟩, puts⟩
  rw [puts.regions]
  exact serving.known

end World

end MovingHeap
