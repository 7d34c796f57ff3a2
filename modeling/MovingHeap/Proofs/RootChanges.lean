import MovingHeap.Proofs.MemoryChanges
import MovingHeap.Proofs.Steadiness

/-! How roots may change between collections.
Whatever a root holds afterwards was given or is what a root held before, and a module or a constant
that takes a reference into the birth region counts as changed.
-/

namespace MovingHeap

variable {σ δ : Type}

-----------------------------------------------------------------------------------------
-- Frames
-----------------------------------------------------------------------------------------

namespace FrameStack

variable {stack : FrameStack}

/-- A new frame holds the parameters and then nulls; the others hold what they did. -/
theorem slotAt_push {descriptor : FrameDescriptor} {params : List Value} {id : FrameId}
    {pushed : FrameStack} (entered : stack.push descriptor params = .ok (id, pushed))
    (other : FrameId) (position : Nat)
    : pushed.slotAt other position
      = if other = id then (params[position]?).getD .null else stack.slotAt other position := by
  unfold push at entered
  split_ifs at entered
  cases entered
  by_cases same : other = ⟨stack.nextNumber⟩
  · subst same
    simp only [slotAt, find?, List.find?_cons, beq_self_eq_true, Option.bind_some, if_true]
    rw [Array.getElem?_append]
    split_ifs with inside
    · simp
    · have behind : params[position]? = none := by
        simpa using inside
      rw [behind, Array.getElem?_replicate]
      split_ifs <;> rfl
  · have differs : ((⟨stack.nextNumber⟩ : FrameId) == other) = false := by
      simpa using Ne.symm same
    simp only [slotAt, find?, List.find?_cons, differs, if_neg same]

/-- A frame that is found among some of the frames is found among all, as no two have one handle. -/
theorem slotAt_of_sublist {frames : List Frame}
    (entered : stack.frames.Pairwise fun newer older => older.id.number < newer.id.number)
    (fewer : frames.Sublist stack.frames) (id : FrameId) (position : Nat)
    : { stack with frames }.slotAt id position = .null
      ∨ { stack with frames }.slotAt id position = stack.slotAt id position := by
  cases found : frames.find? (·.id == id) with
  | none => simp [slotAt, find?, found]
  | some frame =>
      refine Or.inr ?_
      have member := fewer.subset (List.mem_of_find?_eq_some found)
      have named : frame.id = id := by simpa using List.find?_some found
      have unique : stack.frames.find? (·.id == id) = some frame := by
        cases first : stack.frames.find? (·.id == id) with
        | none => exact absurd (List.find?_eq_none.mp first frame member) (by simp [named])
        | some other =>
            have named' : other.id = id := by simpa using List.find?_some first
            have member' := List.mem_of_find?_eq_some first
            have nodup : (stack.frames.map Frame.id).Nodup := by
              rw [List.Nodup, List.pairwise_map]
              exact entered.imp fun {newer older} below same => by
                rw [same] at below
                exact absurd below (Nat.lt_irrefl _)
            rw [List.inj_on_of_nodup_map nodup member' member (named'.trans named.symm)]
      simp [slotAt, find?, found, unique]

end FrameStack

-----------------------------------------------------------------------------------------
-- Handlers
-----------------------------------------------------------------------------------------

namespace ExceptStack

variable {stack : ExceptStack}

/-- A new handler has nothing on its way to it. -/
theorem payloadAt_push (handler : Handler) (nothing : handler.pending = none) (index : Nat)
    : (stack.push handler).payloadAt index = .null
      ∨ (stack.push handler).payloadAt index = stack.payloadAt index := by
  simp only [payloadAt, push, List.getElem?_append]
  split_ifs with inside
  · exact Or.inr rfl
  · cases rest : [handler][index - stack.handlers.length]? with
    | none => exact Or.inl rfl
    | some other =>
        have member := List.mem_of_getElem? rest
        rw [List.mem_singleton] at member
        rw [member, Option.bind_some, nothing]
        exact Or.inl rfl

/-- The handlers that stay installed keep what is on its way to them. -/
theorem payloadAt_popTo (depth index : Nat)
    : (stack.popTo depth).2.payloadAt index = .null
      ∨ (stack.popTo depth).2.payloadAt index = stack.payloadAt index := by
  have kept : (stack.handlers.take (depth + 1)).dropLast <+: stack.handlers :=
    (List.dropLast_prefix _).trans (List.take_prefix _ _)
  simp only [payloadAt, popTo]
  by_cases inside : index < (stack.handlers.take (depth + 1)).dropLast.length
  · obtain ⟨rest, whole⟩ := kept
    refine Or.inr ?_
    rw [← List.getElem?_append_left inside, whole]
  · rw [List.getElem?_eq_none (by omega)]
    exact Or.inl rfl

/-- Only the payload that was thrown is new. -/
theorem payloadAt_raise {thrown : Thrown} {raised : ExceptStack}
    (raises : stack.raise? thrown = some raised) (index : Nat)
    : raised.payloadAt index = thrown.payload
      ∨ raised.payloadAt index = stack.payloadAt index := by
  unfold raise? at raises
  split_ifs at raises
  cases raises
  simp only [payloadAt, List.getElem?_modify]
  split_ifs
  · cases stack.handlers[index]? with
    | none => exact Or.inr rfl
    | some handler => exact Or.inl rfl
  · exact Or.inr (by simp)

end ExceptStack

-----------------------------------------------------------------------------------------
-- Modules
-----------------------------------------------------------------------------------------

namespace ModuleTable

variable {table : ModuleTable}

/-- A constant that leads into the birth region counts as changed. -/
def Marked (table : ModuleTable) : Prop :=
  ∀ rank, (table.constantAt rank).isBirth → table.watermark ≠ 0 ∧ table.watermark ≤ rank

/-- Only the constant of the module that is put is new. -/
theorem constantAt_put (rank : Nat) (entry : Module) (other : Nat)
    : (table.put rank entry).constantAt other
      = if other = rank then entry.constant else table.constantAt other := by
  simp only [constantAt, get?_put, eq_comm]
  split_ifs <;> rfl

theorem constantAt_touch (rank other : Nat)
    : (table.touch rank).constantAt other = table.constantAt other := by
  rw [constantAt, get?_touch, constantAt]

/-- Touching a rank counts it as changed, and no other rank less than before. -/
theorem watermark_touch {rank : Nat} (used : rank ≠ 0)
    : (table.touch rank).watermark ≠ 0 ∧ (table.touch rank).watermark ≤ rank
      ∧ (table.watermark ≠ 0 → (table.touch rank).watermark ≤ table.watermark) := by
  unfold touch
  split_ifs with lower
  · refine ⟨used, Nat.le_refl _, fun changed => ?_⟩
    rcases lower with none | below
    · exact absurd none changed
    · exact Nat.le_of_lt below
  · exact ⟨fun zero => lower (Or.inl zero), Nat.le_of_not_lt fun below => lower (Or.inr below),
      fun _ => Nat.le_refl _⟩

/-- A module that is put at a rank may hold any constant if the rank is touched, too. -/
theorem Marked.touch_put (marked : table.Marked) {rank : Nat} (used : rank ≠ 0) (entry : Module)
    : ((table.put rank entry).touch rank).Marked := by
  intro other young
  rw [constantAt_touch, constantAt_put] at young
  have touched := (table.put rank entry).watermark_touch used
  split_ifs at young with same
  · rw [same]
    exact ⟨touched.1, touched.2.1⟩
  · obtain ⟨changed, below⟩ := marked other young
    exact ⟨touched.1, (touched.2.2 changed).trans below⟩

/-- A module that keeps its constant can be put back without a touch. -/
theorem Marked.put (marked : table.Marked) {rank : Nat} {entry : Module}
    (same : entry.constant = table.constantAt rank)
    : (table.put rank entry).Marked := by
  intro other young
  rw [constantAt_put, same] at young
  split_ifs at young with here
  · rw [here]
    exact marked rank young
  · exact marked other young

/-- Modules that are dropped hold nothing. -/
theorem constantAt_erase (rank other : Nat)
    : { table with entries := table.entries.erase rank }.constantAt other = .null
      ∨ { table with entries := table.entries.erase rank }.constantAt other
        = table.constantAt other := by
  simp only [constantAt, get?, Std.TreeMap.getElem?_erase]
  split_ifs
  · exact Or.inl rfl
  · exact Or.inr rfl

end ModuleTable

-----------------------------------------------------------------------------------------
-- Constants
-----------------------------------------------------------------------------------------

namespace ConstantTable

variable {table : ConstantTable}

/-- A constant that leads into the birth region is in a dirty group. -/
def Marked (table : ConstantTable) : Prop :=
  ∀ index, (table.get index).isBirth → table.isDirty index

/-- A wider table holds the same constants. -/
theorem get_grownFor (index other : Nat) : (table.grownFor index).get other = table.get other := by
  unfold grownFor
  split_ifs
  · rfl
  · simp only [get, Arena.get?, Arena.get_grow, Arena.size_grow]
    split_ifs <;> first | rfl | omega

/-- A wider table has room for the index. -/
theorem lt_capacity_grownFor (index : Nat) : index < (table.grownFor index).capacity := by
  unfold grownFor
  split_ifs with inside
  · exact inside
  · have above := le_nextPowerOfTwo (index + 1)
    simp only [capacity, Arena.size_grow] at inside ⊢
    omega

/-- Only the constant at the index is new. -/
theorem get_set (index : Nat) (value : Value) (other : Nat)
    : (table.set index value).get other = if index = other then value else table.get other := by
  have replaced := get_replace (table.grownFor index) index other value
    (lt_capacity_grownFor index)
  rw [get_grownFor] at replaced
  exact replaced

/-- Groups stay dirty when the table grows. -/
theorem isDirty_grownFor (index other : Nat) (dirty : table.isDirty other)
    : (table.grownFor index).isDirty other := by
  unfold grownFor
  split_ifs
  · exact dirty
  · simp only [isDirty, Array.getElem?_append] at dirty ⊢
    split_ifs with inside
    · exact dirty
    · rw [Array.getElem?_eq_none (by omega)] at dirty
      cases dirty

/-- The group of a constant that is set is dirty, and the others are as before. -/
theorem Marked.set (marked : table.Marked)
    (groups : table.capacity = table.dirty.size * groupSize) (grouped : 0 < table.dirty.size)
    (index : Nat) (value : Value)
    : (table.set index value).Marked := by
  intro other young
  obtain ⟨groups', -⟩ := groups_grownFor groups grouped index
  have inside := table.lt_capacity_grownFor index
  have listed : index / groupSize < (table.grownFor index).dirty.size := by
    rw [Nat.div_lt_iff_lt_mul (by decide), ← groups']
    exact inside
  simp only [isDirty, ConstantTable.set, replace, Array.getElem?_setIfInBounds]
  by_cases same : index / groupSize = other / groupSize
  · simp [same, same ▸ listed]
  · rw [if_neg same]
    have differs : index ≠ other := fun equal => same (congrArg (· / groupSize) equal)
    rw [get_set, if_neg differs] at young
    exact isDirty_grownFor index other (marked other young)

end ConstantTable

end MovingHeap
