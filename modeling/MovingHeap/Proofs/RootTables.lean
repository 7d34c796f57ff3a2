import Mathlib.Data.List.Basic
import Mathlib.Data.List.Sort
import Mathlib.Tactic.Common
import MovingHeap.Heap

/-! The roots of a heap as places that hold values.
Replacing what one root holds changes no other root, and every root that holds anything is among
those that a collection visits.
-/

namespace MovingHeap

variable {δ : Type}

-----------------------------------------------------------------------------------------
-- Reading back roots
-----------------------------------------------------------------------------------------

/-- What a slot of a frame holds, if there is one at the position. -/
def FrameStack.slot? (stack : FrameStack) (id : FrameId) (position : Nat) : Option Value :=
  (stack.find? id).bind (·.slots[position]?)

theorem FrameStack.slotAt_eq (stack : FrameStack) (id : FrameId) (position : Nat)
    : stack.slotAt id position = (stack.slot? id position).getD .null := rfl

/-- A frame slot is read back where it was set, if it is there, and nowhere else. -/
theorem FrameStack.slot?_setSlotAt (stack : FrameStack) (id : FrameId) (position : Nat)
    (value : Value) (other : FrameId) (index : Nat)
    : (stack.setSlotAt id position value).slot? other index
      = if other = id ∧ index = position then (stack.slot? id position).map fun _ => value
        else stack.slot? other index := by
  have places : (fun frame : Frame => frame.id == other) ∘ (fun frame : Frame =>
      if frame.id = id then { frame with slots := frame.slots.setIfInBounds position value }
      else frame) = fun frame => frame.id == other := by
    funext frame
    simp only [Function.comp_apply]
    split_ifs <;> rfl
  simp only [slot?, find?, setSlotAt, List.find?_map, places]
  by_cases same : other = id
  · subst same
    cases found : stack.frames.find? fun frame => frame.id == other with
    | none => simp
    | some frame =>
        have named : frame.id = other := by simpa using List.find?_some found
        simp only [Option.bind_some, Option.map_some, named, if_true, true_and,
          Array.getElem?_setIfInBounds]
        by_cases here : index = position
        · subst here
          by_cases inside : index < frame.slots.size
          · simp [inside]
          · simp [inside]
        · simp [here, Ne.symm here]
  · rw [if_neg fun both => same both.1]
    cases found : stack.frames.find? fun frame => frame.id == other with
    | none => rfl
    | some frame =>
        have named : frame.id = other := by simpa using List.find?_some found
        simp [named, same]

/-- A frame slot that holds something is read back where it was set and nowhere else. -/
theorem FrameStack.slotAt_setSlotAt {stack : FrameStack} {id : FrameId} {position : Nat}
    (present : stack.slotAt id position ≠ .null) (value : Value) (other : FrameId)
    (index : Nat)
    : (stack.setSlotAt id position value).slotAt other index
      = if other = id ∧ index = position then value else stack.slotAt other index := by
  rw [slotAt_eq, slot?_setSlotAt]
  split_ifs
  · cases found : stack.slot? id position with
    | none => simp [slotAt_eq, found] at present
    | some former => rfl
  · rfl

/-- A payload that is there is read back where it was set and nowhere else. -/
theorem ExceptStack.payloadAt_setPayloadAt {stack : ExceptStack} {index : Nat}
    (present : stack.payloadAt index ≠ .null) (payload : Value) (other : Nat)
    : (stack.setPayloadAt index payload).payloadAt other
      = if other = index then payload else stack.payloadAt other := by
  simp only [payloadAt, setPayloadAt, List.getElem?_modify] at present ⊢
  by_cases same : other = index
  · subst same
    cases found : stack.handlers[other]? with
    | none => simp [found] at present
    | some handler =>
        cases thrown : handler.pending with
        | none => simp [found, thrown] at present
        | some pending => simp [thrown]
  · rw [if_neg same]
    cases found : stack.handlers[other]? <;> simp [Ne.symm same]

/-- The constant of a loaded module is read back where it was replaced and nowhere else. -/
theorem ModuleTable.constantAt_replaceConstant {table : ModuleTable} {rank : Nat}
    (present : table.constantAt rank ≠ .null) (constant : Value) (other : Nat)
    : (table.replaceConstant rank constant).constantAt other
      = if other = rank then constant else table.constantAt other := by
  unfold replaceConstant
  cases found : table.get? rank with
  | none => simp [constantAt, found] at present
  | some entry =>
      simp only [constantAt, get?_put]
      by_cases same : other = rank
      · simp [same]
      · simp [same, Ne.symm same]

/-- A global constant that is there is in the table. -/
theorem ConstantTable.lt_capacity {table : ConstantTable} {index : Nat}
    (present : table.get index ≠ .null)
    : index < table.capacity := by
  by_contra outside
  have missing : table.slots.get? index = none := if_neg outside
  simp [get, missing, Value.null] at present

/-- Where a root is kept. -/
inductive RootKind where
  | slot
  | pending
  | module
  | constant

/-- The kind of a root. -/
def Root.kind : Root → RootKind
  | .slot .. => .slot
  | .pending .. => .pending
  | .module .. => .module
  | .constant .. => .constant

namespace Heap

/-- The roots of a kind. -/
def rootsOf (heap : Heap δ) : RootKind → List Root
  | .slot => heap.frameRoots
  | .pending => heap.pendingRoots
  | .module => heap.moduleRoots
  | .constant => heap.constantRoots

/-- The roots of a kind that a minor collection visits. -/
def youngRootsOf (heap : Heap δ) : RootKind → List Root
  | .slot => heap.frameRoots
  | .pending => heap.pendingRoots
  | .module => heap.changedModuleRoots
  | .constant => heap.dirtyConstantRoots

/-- A root that holds something is read back where it was set and nowhere else. -/
theorem rootValue_setRoot {heap : Heap δ} {root : Root} (present : heap.rootValue root ≠ .null)
    (value : Value) (other : Root)
    : (heap.setRoot root value).rootValue other
      = if other = root then value else heap.rootValue other := by
  cases root with
  | slot frame position =>
      cases other with
      | slot id index =>
          simpa [rootValue, setRoot] using FrameStack.slotAt_setSlotAt present value id index
      | _ => simp [rootValue, setRoot]
  | pending handler =>
      cases other with
      | pending index =>
          simpa [rootValue, setRoot] using ExceptStack.payloadAt_setPayloadAt present value index
      | _ => simp [rootValue, setRoot]
  | module rank =>
      cases other with
      | module other =>
          simpa [rootValue, setRoot] using
            ModuleTable.constantAt_replaceConstant present value other
      | _ => simp [rootValue, setRoot]
  | constant index =>
      cases other with
      | constant other =>
          have inside := ConstantTable.lt_capacity present
          have reads := ConstantTable.get_replace heap.constants index other value inside
          simp only [rootValue, setRoot, reads, Root.constant.injEq, eq_comm]
      | _ => simp [rootValue, setRoot]

-----------------------------------------------------------------------------------------
-- Roots that hold something are visited
-----------------------------------------------------------------------------------------

/-- A frame slot that holds something is a frame root. -/
theorem slot_mem_frameRoots {heap : Heap δ} {frame : FrameId} {position : Nat}
    (present : heap.rootValue (.slot frame position) ≠ .null)
    : .slot frame position ∈ heap.frameRoots := by
  simp only [rootValue, FrameStack.slotAt, FrameStack.find?] at present
  cases found : heap.frames.frames.find? fun entered => entered.id == frame with
  | none => simp [found] at present
  | some entered =>
      have named : entered.id = frame := by simpa using List.find?_some found
      have inside : position < entered.slots.size := by
        by_contra outside
        simp [found, Array.getElem?_eq_none (Nat.le_of_not_lt outside)] at present
      simp only [frameRoots, FrameStack.roots, List.mem_map, List.mem_flatMap]
      exact ⟨(frame, position), ⟨entered, List.mem_of_find?_eq_some found, by simp [named, inside]⟩,
        rfl⟩

/-- A payload that was thrown is a pending root. -/
theorem pending_mem_pendingRoots {heap : Heap δ} {handler : Nat}
    (present : heap.rootValue (.pending handler) ≠ .null)
    : .pending handler ∈ heap.pendingRoots := by
  simp only [rootValue, ExceptStack.payloadAt] at present
  have thrown : (heap.handlers.handlers[handler]?.bind (·.pending)).isSome := by
    by_contra missing
    simp only [Option.not_isSome_iff_eq_none] at missing
    simp [missing] at present
  have inside : handler < heap.handlers.handlers.length := by
    by_contra outside
    simp [List.getElem?_eq_none (Nat.le_of_not_lt outside)] at thrown
  refine List.mem_map_of_mem (List.mem_filter.mpr ⟨List.mem_range.mpr inside, thrown⟩)

/-- A module with a constant is loaded. -/
theorem mem_ranks {heap : Heap δ} {rank : Nat}
    (present : heap.rootValue (.module rank) ≠ .null)
    : rank ∈ heap.modules.ranks := by
  simp only [rootValue, ModuleTable.constantAt, ModuleTable.get?] at present
  rw [ModuleTable.ranks, Std.TreeMap.mem_keys, Std.TreeMap.mem_iff_isSome_getElem?]
  by_contra missing
  simp only [Option.not_isSome_iff_eq_none] at missing
  simp [missing] at present

/-- A global constant that holds something is a constant root. -/
theorem constant_mem_constantRoots {heap : Heap δ} {index : Nat}
    (present : heap.rootValue (.constant index) ≠ .null)
    : .constant index ∈ heap.constantRoots :=
  List.mem_map_of_mem (List.mem_range.mpr (ConstantTable.lt_capacity present))

/-- The constant of a module from the watermark on is a root of a minor collection. -/
theorem module_mem_changedModuleRoots {heap : Heap δ} {rank : Nat}
    (present : heap.rootValue (.module rank) ≠ .null) (marked : heap.modules.watermark ≠ 0)
    (above : heap.modules.watermark ≤ rank)
    : .module rank ∈ heap.changedModuleRoots := by
  refine List.mem_map_of_mem ?_
  rw [ModuleTable.changedRoots, if_neg marked]
  exact List.mem_filter.mpr ⟨mem_ranks present, by simpa using above⟩

/-- A global constant in a dirty group is a root of a minor collection. -/
theorem constant_mem_dirtyConstantRoots {heap : Heap δ} {index : Nat}
    (dirty : heap.constants.isDirty index)
    : .constant index ∈ heap.dirtyConstantRoots := by
  have inside : index / ConstantTable.groupSize < heap.constants.dirty.size := by
    by_contra outside
    rw [ConstantTable.isDirty, Array.getElem?_eq_none (Nat.le_of_not_lt outside)] at dirty
    simp at dirty
  refine List.mem_map_of_mem (List.mem_flatMap.mpr
    ⟨index / ConstantTable.groupSize, List.mem_filter.mpr ⟨List.mem_range.mpr inside, dirty⟩, ?_⟩)
  simp only [ConstantTable.groupIndices, ConstantTable.groupSize, List.mem_range'_1]
  omega

/-- Every root that holds something is one of its kind. -/
theorem mem_rootsOf {heap : Heap δ} {root : Root} (present : heap.rootValue root ≠ .null)
    : root ∈ heap.rootsOf root.kind := by
  cases root with
  | slot => exact slot_mem_frameRoots present
  | pending => exact pending_mem_pendingRoots present
  | module => exact List.mem_map_of_mem (mem_ranks present)
  | constant => exact constant_mem_constantRoots present

end Heap

-----------------------------------------------------------------------------------------
-- Tables without what they hold
-----------------------------------------------------------------------------------------

/-- A frame whose slots are all null. -/
def Frame.outline (frame : Frame) : Frame :=
  { frame with slots := Array.replicate frame.slots.size .null }

/-- Frames whose slots are all null. -/
def FrameStack.outline (stack : FrameStack) : FrameStack :=
  { stack with frames := stack.frames.map Frame.outline }

/-- A handler whose payload, if there is one, is null. -/
def Handler.outline (handler : Handler) : Handler :=
  { handler with pending := handler.pending.map ({ · with payload := .null }) }

/-- Handlers whose payloads are all null. -/
def ExceptStack.outline (stack : ExceptStack) : ExceptStack :=
  ⟨stack.handlers.map Handler.outline⟩

/-- A module whose constant is null. -/
def Module.outline (entry : Module) : Module := { entry with constant := .null }

/-- Which slots the frames have does not depend on what they hold. -/
theorem FrameStack.roots_outline (stack : FrameStack) : stack.outline.roots = stack.roots := by
  simp [FrameStack.roots, FrameStack.outline, List.flatMap_map, Frame.outline]

/-- To which handlers something was thrown does not depend on what it was. -/
theorem ExceptStack.roots_outline (stack : ExceptStack) : stack.outline.roots = stack.roots := by
  simp only [ExceptStack.roots, ExceptStack.outline, ExceptStack.depth, List.length_map,
    List.getElem?_map]
  refine List.filter_congr fun index _ => ?_
  cases stack.handlers[index]? <;> simp [Handler.outline]

/-- The tables of roots are the same but for what the roots hold and for what is noted of changes
to them.
-/
structure Heap.SameTables (before now : Heap δ) : Prop where
  frames : now.frames.outline = before.frames.outline
  handlers : now.handlers.outline = before.handlers.outline
  modules
    : ∀ rank,
        (now.modules.get? rank).map Module.outline
        = (before.modules.get? rank).map Module.outline
  limit : now.modules.limit = before.modules.limit
  capacity : now.constants.capacity = before.constants.capacity
  groups : now.constants.dirty.size = before.constants.dirty.size

namespace Heap.SameTables

/-- Every heap has its own tables. -/
theorem refl (heap : Heap δ) : heap.SameTables heap := ⟨rfl, rfl, fun _ => rfl, rfl, rfl, rfl⟩

/-- Tables stay the same in two steps if they do so in each. -/
theorem trans {before now later : Heap δ} (first : before.SameTables now)
    (second : now.SameTables later)
    : before.SameTables later where
  frames := second.frames.trans first.frames
  handlers := second.handlers.trans first.handlers
  modules rank := (second.modules rank).trans (first.modules rank)
  limit := second.limit.trans first.limit
  capacity := second.capacity.trans first.capacity
  groups := second.groups.trans first.groups

/-- The other heap has the same tables, too. -/
theorem symm {before now : Heap δ} (same : before.SameTables now) : now.SameTables before where
  frames := same.frames.symm
  handlers := same.handlers.symm
  modules rank := (same.modules rank).symm
  limit := same.limit.symm
  capacity := same.capacity.symm
  groups := same.groups.symm

/-- A rank is in use in both heaps or in none. -/
theorem isSome_get? {before now : Heap δ} (same : before.SameTables now) (rank : Nat)
    : (now.modules.get? rank).isSome = (before.modules.get? rank).isSome := by
  simpa using congrArg Option.isSome (same.modules rank)

/-- The same ranks are in use. -/
theorem ranks {before now : Heap δ} (same : before.SameTables now)
    : now.modules.ranks = before.modules.ranks := by
  have sorted : ∀ table : ModuleTable, table.ranks.Pairwise (· < ·) := fun table =>
    Std.TreeMap.ordered_keys.imp fun less => Nat.compare_eq_lt.mp less
  have used : ∀ (table : ModuleTable) (rank : Nat),
      rank ∈ table.ranks ↔ (table.get? rank).isSome := fun table rank => by
    rw [ModuleTable.ranks, Std.TreeMap.mem_keys, Std.TreeMap.mem_iff_isSome_getElem?,
      ModuleTable.get?]
  refine (sorted _).eq_of_mem_iff (sorted _) fun rank => ?_
  rw [used, used, same.isSome_get?]

/-- The roots of a kind are the same, in the same order. -/
theorem rootsOf {before now : Heap δ} (same : before.SameTables now) (kind : RootKind)
    : now.rootsOf kind = before.rootsOf kind := by
  cases kind with
  | slot =>
      simp only [Heap.rootsOf, frameRoots, ← FrameStack.roots_outline now.frames, same.frames,
        FrameStack.roots_outline]
  | pending =>
      simp only [Heap.rootsOf, pendingRoots, ← ExceptStack.roots_outline now.handlers,
        same.handlers, ExceptStack.roots_outline]
  | module => simp only [Heap.rootsOf, moduleRoots, ModuleTable.roots, same.ranks]
  | constant => simp only [Heap.rootsOf, constantRoots, ConstantTable.roots, same.capacity]

end Heap.SameTables

namespace Heap

/-- Setting a slot keeps the outline of the frames. -/
theorem outline_setSlotAt (stack : FrameStack) (id : FrameId) (position : Nat) (value : Value)
    : (stack.setSlotAt id position value).outline = stack.outline := by
  simp only [FrameStack.outline, FrameStack.setSlotAt, List.map_map, FrameStack.mk.injEq,
    and_true]
  apply List.map_congr_left
  intro frame _
  simp only [Function.comp_apply]
  split_ifs <;> simp [Frame.outline]

/-- Setting a payload keeps the outline of the handlers. -/
theorem outline_setPayloadAt (stack : ExceptStack) (index : Nat) (payload : Value)
    : (stack.setPayloadAt index payload).outline = stack.outline := by
  simp only [ExceptStack.outline, ExceptStack.setPayloadAt, ExceptStack.mk.injEq]
  apply List.ext_getElem?
  intro position
  simp only [List.getElem?_map, List.getElem?_modify]
  cases stack.handlers[position]? with
  | none => rfl
  | some handler =>
      by_cases here : index = position
      · cases pending : handler.pending <;> simp [here, Handler.outline, pending]
      · simp [here]

/-- Replacing the constant of a module keeps what else is known of the modules. -/
theorem outline_replaceConstant (table : ModuleTable) (rank : Nat) (constant : Value)
    (other : Nat)
    : ((table.replaceConstant rank constant).get? other).map Module.outline
      = (table.get? other).map Module.outline := by
  unfold ModuleTable.replaceConstant
  cases found : table.get? rank with
  | none => rfl
  | some entry =>
      rw [ModuleTable.get?_put]
      split_ifs with same
      · subst same
        simp [found, Module.outline]
      · rfl

/-- Updating a root keeps the tables. -/
theorem sameTables_setRoot (heap : Heap δ) (root : Root) (value : Value)
    : heap.SameTables (heap.setRoot root value) := by
  cases root with
  | slot frame position =>
      exact ⟨outline_setSlotAt _ _ _ _, rfl, fun _ => rfl, rfl, rfl, rfl⟩
  | pending handler => exact ⟨rfl, outline_setPayloadAt _ _ _, fun _ => rfl, rfl, rfl, rfl⟩
  | module rank =>
      refine ⟨rfl, rfl, outline_replaceConstant _ _ _, ?_, rfl, rfl⟩
      simp only [setRoot, ModuleTable.replaceConstant]
      split <;> rfl
  | constant index => exact ⟨rfl, rfl, fun _ => rfl, rfl, rfl, rfl⟩

/-- Updating a root notes no change to a module. -/
@[simp] theorem watermark_setRoot (heap : Heap δ) (root : Root) (value : Value)
    : (heap.setRoot root value).modules.watermark = heap.modules.watermark := by
  cases root with
  | module rank =>
      simp only [setRoot, ModuleTable.replaceConstant]
      split <;> rfl
  | _ => rfl

/-- Updating a root notes no change to a constant. -/
@[simp] theorem dirty_setRoot (heap : Heap δ) (root : Root) (value : Value)
    : (heap.setRoot root value).constants.dirty = heap.constants.dirty := by
  cases root <;> rfl

end Heap

end MovingHeap
