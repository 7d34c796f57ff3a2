import MovingHeap.Proofs.RootChanges
import MovingHeap.Proofs.RootWalks

/-! A table of constants as a list of slots and a list of marks.
Slots are cut out of the one list and marks read from the other, which fails where either ends. A table
whose groups are whole never fails, and does, step by step, what the table does whose slots are memory.
-/

namespace MovingHeap

variable {τ : Type}

/-- What can be done to constants; visitors share what they know. A collection that a violation stops does
not end, and leaves the marks as they are.
-/
inductive ConstantCommand (τ : Type) where
  | set (index : Nat) (value : Value)
  | collect (full ends : Bool) (visit : Value → τ → Value × τ)

-----------------------------------------------------------------------------------------
-- Powers of two
-----------------------------------------------------------------------------------------

/-- The next power of two is one. -/
theorem exists_nextPowerOfTwo_eq (n : Nat) : ∃ exponent, nextPowerOfTwo n = 2 ^ exponent := by
  unfold nextPowerOfTwo
  split
  · exact ⟨0, rfl⟩
  · exact ⟨(n - 1).log2 + 1, Nat.one_shiftLeft _⟩

/-- No power of two between a number and its next power of two is missed. -/
theorem nextPowerOfTwo_le {n exponent : Nat} (enough : n ≤ 2 ^ exponent)
    : nextPowerOfTwo n ≤ 2 ^ exponent := by
  unfold nextPowerOfTwo
  split
  · exact Nat.one_le_two_pow
  · rw [Nat.one_shiftLeft]
    refine Nat.pow_le_pow_right (by decide) ?_
    exact (Nat.log2_lt (by omega)).mpr (by omega)

namespace ConstantTable

-----------------------------------------------------------------------------------------
-- The commands of a table
-----------------------------------------------------------------------------------------

/-- How constants are read and replaced. -/
def access : PlaceAccess ConstantTable Nat where
  read := get
  replace := replace

/-- The indices a collection looks at. -/
def visited (table : ConstantTable) (full : Bool) : List Nat :=
  if full then table.roots else table.dirtyRoots

/-- Lets a visitor replace the constants a collection looks at. -/
def walk (table : ConstantTable) (full : Bool) (visit : Value → τ → Value × τ) (host : τ)
    : ConstantTable × τ :=
  access.walk visit (table.visited full) table host

/-- Does what a command says. -/
def obey (table : ConstantTable) (host : τ) : ConstantCommand τ → ConstantTable × τ
  | .set index value => (table.set index value, host)
  | .collect full ends visit =>
      let walked := table.walk full visit host
      (if ends then walked.1.clearDirty else walked.1, walked.2)

end ConstantTable

/-- A table as a list of slots and a list of marks, one for each group of slots. What would reach past the
end of either has no result.
-/
structure MarkedSlots where
  slots : List Value
  marks : List Bool

namespace MarkedSlots

open ConstantTable (groupSize)

/-- A table of `capacity` slots at least, a power of two. -/
def withCapacity (capacity : Nat) : MarkedSlots :=
  let size := nextPowerOfTwo (max capacity groupSize)
  ⟨List.replicate size .null, List.replicate (size / groupSize) false⟩

/-- The constant at an index, null if it was never set. -/
def get (table : MarkedSlots) (index : Nat) : Value := table.slots[index]?.getD .null

/-- Whether the group of an index was written since the last collection. -/
def isDirty (table : MarkedSlots) (index : Nat) : Bool :=
  table.marks[index / groupSize]?.getD false

/-- Widens the table to the next power of two if `index` lies past its end. There is no result if there
were more marks already than the wider table has groups.
-/
def grownFor? (table : MarkedSlots) (index : Nat) : Option MarkedSlots :=
  if index < table.slots.length then some table
  else
    let size := nextPowerOfTwo (index + 1)
    if table.marks.length ≤ size / groupSize then
      some ⟨table.slots ++ List.replicate (size - table.slots.length) .null,
        table.marks ++ List.replicate (size / groupSize - table.marks.length) false⟩
    else none

/-- Sets the constant at an index and marks its group. -/
def set? (table : MarkedSlots) (index : Nat) (value : Value) : Option MarkedSlots := do
  let table ← table.grownFor? index
  if index < table.slots.length ∧ index / groupSize < table.marks.length then
    some ⟨table.slots.set index value, table.marks.set (index / groupSize) true⟩
  else none

/-- Lets a visitor replace what the `count` slots from `start` on hold. -/
def visitSlice? (visit : Value → τ → Value × τ) (start count : Nat) (slots : List Value) (host : τ)
    : Option (List Value × τ) :=
  if start + count ≤ slots.length then
    let visited := visitAll visit ((slots.drop start).take count) host
    some (slots.take start ++ visited.1 ++ slots.drop (start + count), visited.2)
  else none

/-- Lets a visitor replace what the slots of marked groups hold; the first mark is that of `group`. -/
def walkGroups? (visit : Value → τ → Value × τ)
    : (marks : List Bool) → (group : Nat) → List Value → τ → Option (List Value × τ)
  | [], _, slots, host => some (slots, host)
  | mark :: marks, group, slots, host =>
      if mark then do
        let (slots, host) ← visitSlice? visit (group * groupSize) groupSize slots host
        walkGroups? visit marks (group + 1) slots host
      else walkGroups? visit marks (group + 1) slots host

/-- Lets a visitor replace what every slot holds, or what those of marked groups hold. -/
def walkSlots? (table : MarkedSlots) (full : Bool) (visit : Value → τ → Value × τ) (host : τ)
    : Option (List Value × τ) :=
  if full then some (visitAll visit table.slots host)
  else walkGroups? visit table.marks 0 table.slots host

/-- Lets a visitor replace the constants a collection looks at. -/
def walk? (table : MarkedSlots) (full : Bool) (visit : Value → τ → Value × τ) (host : τ)
    : Option (MarkedSlots × τ) :=
  (fun walked => ({ table with slots := walked.1 }, walked.2)) <$> table.walkSlots? full visit host

/-- Takes the mark off every group. -/
def clearMarks (table : MarkedSlots) : MarkedSlots :=
  { table with marks := table.marks.map fun _ => false }

/-- Does what a command says. -/
def obey? (table : MarkedSlots) (host : τ) : ConstantCommand τ → Option (MarkedSlots × τ)
  | .set index value => (·, host) <$> table.set? index value
  | .collect full ends visit => do
      let (table, host) ← table.walk? full visit host
      return (if ends then table.clearMarks else table, host)

/-- Does what some commands say, one after the other. -/
def obeyAll? (table : MarkedSlots) (host : τ)
    : List (ConstantCommand τ) → Option (MarkedSlots × τ)
  | [] => some (table, host)
  | command :: commands => do
      let (table, host) ← table.obey? host command
      table.obeyAll? host commands

end MarkedSlots

-----------------------------------------------------------------------------------------
-- Tables whose groups are whole
-----------------------------------------------------------------------------------------

namespace ConstantTable

variable {table : ConstantTable}

/-- A table has a mark for each group of its slots, and its width is a power of two. -/
structure Whole (table : ConstantTable) : Prop where
  groups : table.capacity = table.dirty.size * groupSize
  grouped : 0 < table.dirty.size
  power : ∃ exponent, table.capacity = 2 ^ exponent

theorem whole_withCapacity (capacity : Nat) : (withCapacity capacity).Whole where
  groups := (capacity_withCapacity capacity).1
  grouped := (capacity_withCapacity capacity).2
  power := exists_nextPowerOfTwo_eq _

/-- A table that has to grow is as wide as the next power of two afterwards. -/
theorem capacity_grownFor {index : Nat} (outside : table.capacity ≤ index)
    : (table.grownFor index).capacity = nextPowerOfTwo (index + 1) := by
  have above := le_nextPowerOfTwo (index + 1)
  rw [grownFor, if_neg (Nat.not_lt.mpr outside)]
  simp only [capacity, Arena.size_grow] at outside ⊢
  omega

/-- Growing keeps the groups whole. -/
theorem Whole.grownFor (whole : table.Whole) (index : Nat) : (table.grownFor index).Whole := by
  obtain ⟨groups, more⟩ := groups_grownFor whole.groups whole.grouped index
  refine ⟨groups, Nat.lt_of_lt_of_le whole.grouped more, ?_⟩
  by_cases inside : index < table.capacity
  · rw [ConstantTable.grownFor, if_pos inside]
    exact whole.power
  · rw [capacity_grownFor (Nat.le_of_not_lt inside)]
    exact exists_nextPowerOfTwo_eq _

theorem capacity_set (index : Nat) (value : Value)
    : (table.set index value).capacity = (table.grownFor index).capacity := rfl

/-- Setting a constant keeps the groups whole. -/
theorem Whole.set (whole : table.Whole) (index : Nat) (value : Value) : (table.set index value).Whole := by
  obtain ⟨groups, grouped, power⟩ := whole.grownFor index
  exact ⟨by simpa [ConstantTable.set, replace, capacity] using groups,
    by simpa [ConstantTable.set, replace] using grouped, power⟩

theorem Whole.clearDirty (whole : table.Whole) : table.clearDirty.Whole :=
  ⟨by simpa [ConstantTable.clearDirty, capacity] using whole.groups,
    by simpa [ConstantTable.clearDirty] using whole.grouped, whole.power⟩

/-- The slots of a group are there if its mark is. -/
theorem Whole.group_le (whole : table.Whole) {group : Nat} (marked : group < table.dirty.size)
    : group * groupSize + groupSize ≤ table.capacity := by
  rw [whole.groups, ← Nat.succ_mul]
  exact Nat.mul_le_mul_right _ marked

/-- The mark of a slot that is there is there. -/
theorem Whole.div_lt (whole : table.Whole) {index : Nat} (inside : index < table.capacity)
    : index / groupSize < table.dirty.size := by
  rwa [Nat.div_lt_iff_lt_mul (by decide), ← whole.groups]

-----------------------------------------------------------------------------------------
-- Walks
-----------------------------------------------------------------------------------------

theorem lawful_access : access.Lawful fun table index => index < table.capacity where
  read_replace inside value other := by
    simpa only [access, eq_comm] using get_replace _ _ other value inside
  present_replace _ _ _ inside := inside

/-- Walks leave the width and the marks as they are. -/
theorem walk_outline (visit : Value → τ → Value × τ) (keys : List Nat) (table : ConstantTable) (host : τ)
    : (access.walk visit keys table host).1.capacity = table.capacity
      ∧ (access.walk visit keys table host).1.dirty = table.dirty :=
  PlaceAccess.walk_keeps access
    (fun walked => walked.capacity = table.capacity ∧ walked.dirty = table.dirty)
    (fun _ _ same => same) visit keys ⟨rfl, rfl⟩ host

theorem Whole.walk (whole : table.Whole) (visit : Value → τ → Value × τ) (keys : List Nat) (host : τ)
    : (access.walk visit keys table host).1.Whole := by
  obtain ⟨width, marks⟩ := walk_outline visit keys table host
  refine ⟨?_, ?_, ?_⟩
  · rw [width, marks]
    exact whole.groups
  · rw [marks]
    exact whole.grouped
  · rw [width]
    exact whole.power

/-- The same table as lists. -/
def marked (table : ConstantTable) : MarkedSlots where
  slots := (List.range table.capacity).map table.get
  marks := table.dirty.toList

-----------------------------------------------------------------------------------------
-- The list form does the same
-----------------------------------------------------------------------------------------

theorem getElem?_marked (index : Nat)
    : table.marked.slots[index]? = if index < table.capacity then some (table.get index) else none := by
  simp only [marked, List.getElem?_map]
  split_ifs with inside
  · simp [inside]
  · simp [inside]

/-- The list form is known by what is at each index, and by the marks. -/
theorem eq_marked {lists : MarkedSlots}
    (slots
      : ∀ index,
          lists.slots[index]? = if index < table.capacity then some (table.get index) else none)
    (marks : lists.marks = table.dirty.toList)
    : lists = table.marked := by
  obtain ⟨lists, flags⟩ := lists
  have same : lists = table.marked.slots :=
    List.ext_getElem? fun index => (slots index).trans (getElem?_marked index).symm
  subst same marks
  rfl

@[simp] theorem length_slots_marked : table.marked.slots.length = table.capacity := by
  simp [marked]

@[simp] theorem length_marks_marked : table.marked.marks.length = table.dirty.size := by
  simp [marked]

/-- What is not in the table is null. -/
theorem get_outside {index : Nat} (outside : table.capacity ≤ index) : table.get index = .null := by
  have missing : table.slots.get? index = none := if_neg (Nat.not_lt.mpr outside)
  simp [get, missing, Value.null]

theorem get_marked (index : Nat) : table.marked.get index = table.get index := by
  rw [MarkedSlots.get, getElem?_marked]
  split_ifs with inside
  · rfl
  · exact (get_outside (Nat.le_of_not_lt inside)).symm

theorem isDirty_marked (index : Nat) : table.marked.isDirty index = table.isDirty index := by
  simp [MarkedSlots.isDirty, isDirty, marked]

theorem marked_withCapacity (capacity : Nat)
    : MarkedSlots.withCapacity capacity = (withCapacity capacity).marked := by
  refine eq_marked (fun index => ?_) (by simp [MarkedSlots.withCapacity, withCapacity])
  have null : (withCapacity capacity).get index = .null := by
    simp only [get, withCapacity, Arena.get?, Arena.get_zeroed]
    split_ifs <;> rfl
  simp only [MarkedSlots.withCapacity, List.getElem?_replicate, null]
  rfl

/-- Growing has a result in the list form, the same. -/
theorem Whole.grownFor?_marked (whole : table.Whole) (index : Nat)
    : table.marked.grownFor? index = some (table.grownFor index).marked := by
  unfold MarkedSlots.grownFor?
  rw [length_slots_marked, length_marks_marked]
  by_cases inside : index < table.capacity
  · rw [if_pos inside, ConstantTable.grownFor, if_pos inside]
  · have width := capacity_grownFor (Nat.le_of_not_lt inside)
    obtain ⟨-, more⟩ := groups_grownFor whole.groups whole.grouped index
    have size : (table.grownFor index).dirty.size = nextPowerOfTwo (index + 1) / groupSize := by
      rw [← width, (whole.grownFor index).groups, Nat.mul_div_cancel _ (by decide)]
    rw [if_neg inside, if_pos (size ▸ more)]
    refine congrArg some (eq_marked (fun other => ?_) ?_)
    · have above := le_nextPowerOfTwo (index + 1)
      rw [List.getElem?_append, length_slots_marked, getElem?_marked, List.getElem?_replicate, width,
        get_grownFor]
      split_ifs with here within wide
      · rfl
      · omega
      · exact congrArg some (get_outside (Nat.le_of_not_lt here)).symm
      · omega
      · omega
      · rfl
    · simp [marked, ConstantTable.grownFor, inside]

/-- Setting a constant has a result in the list form, the same. -/
theorem Whole.set?_marked (whole : table.Whole) (index : Nat) (value : Value)
    : table.marked.set? index value = some (table.set index value).marked := by
  have inside := table.lt_capacity_grownFor index
  have listed := (whole.grownFor index).div_lt inside
  rw [MarkedSlots.set?, whole.grownFor?_marked]
  simp only [Option.bind_eq_bind, Option.bind_some, length_slots_marked, length_marks_marked]
  rw [if_pos ⟨inside, listed⟩]
  refine congrArg some (eq_marked (fun other => ?_) ?_)
  · rw [List.getElem?_set, length_slots_marked, getElem?_marked, capacity_set, get_set, get_grownFor]
    by_cases same : index = other
    · simp [← same, inside]
    · simp [same]
  · simp [marked, ConstantTable.set, replace]

/-- The answers for consecutive places are looked up by counting from the first. -/
theorem lookup_zip_range' (start count other : Nat) (values : List Value) (all : values.length = count)
    : ((List.range' start count).zip values).lookup other
      = if start ≤ other then values[other - start]? else none := by
  induction values generalizing start count with
  | nil =>
      subst all
      simp
  | cons value values ih =>
      subst all
      simp only [List.length_cons, List.range'_succ, List.zip_cons_cons, List.lookup_cons]
      by_cases here : other = start
      · simp [here]
      · rw [beq_false_of_ne here]
        simp only [ih (start + 1) values.length rfl]
        by_cases above : start ≤ other
        · rw [if_pos (show start + 1 ≤ other by omega), if_pos above,
            show other - start = other - (start + 1) + 1 by omega, List.getElem?_cons_succ]
        · rw [if_neg (by omega), if_neg above]

/-- Visiting a slice is the walk over its places. -/
theorem visitSlice?_marked (visit : Value → τ → Value × τ) {start count : Nat}
    (inside : start + count ≤ table.capacity) (host : τ)
    : MarkedSlots.visitSlice? visit start count table.marked.slots host
      = some ((access.walk visit (List.range' start count) table host).1.marked.slots,
        (access.walk visit (List.range' start count) table host).2) := by
  have slice : (table.marked.slots.drop start).take count
      = (List.range' start count).map table.get := by
    refine List.ext_getElem? fun index => ?_
    rw [List.getElem?_take, List.getElem?_drop, getElem?_marked, List.getElem?_map]
    split_ifs with near within
    · simp [near]
    · omega
    · simp [near]
  have present : ∀ index ∈ List.range' start count, index < table.capacity := by
    intro index member
    have below := (List.mem_range'_1.mp member).2
    omega
  obtain ⟨host', reads⟩ := lawful_access.walk_eq visit List.nodup_range' present host
  obtain ⟨width, -⟩ := walk_outline visit (List.range' start count) table host
  unfold MarkedSlots.visitSlice?
  rw [length_slots_marked, if_pos inside, slice]
  refine congrArg some (Prod.ext (List.ext_getElem? fun index => ?_) host'.symm)
  have read := reads index
  rw [lookup_zip_range' start count index _ (by simp)] at read
  have before : (table.marked.slots.take start).length = start := by
    rw [List.length_take, length_slots_marked]
    omega
  rw [getElem?_marked, width, show get _ index = access.read _ index from rfl, read, List.append_assoc,
    List.getElem?_append, before, List.getElem?_append, length_visitAll, List.length_map,
    List.length_range', List.getElem?_take, List.getElem?_drop, getElem?_marked, getElem?_marked]
  rcases Nat.lt_or_ge index start with early | notEarly
  · simp [early, show index < table.capacity by omega, show ¬start ≤ index by omega, access]
  · rcases Nat.lt_or_ge index (start + count) with middle | late
    · simp [show ¬index < start by omega, show index - start < count by omega, notEarly,
        show index < table.capacity by omega, access]
    · simp [show ¬index < start by omega, show ¬index - start < count by omega, notEarly, access,
        show start + count + (index - start - count) = index by omega]

/-- The marked groups from one on are that group, if it is marked, and the marked groups behind it. -/
theorem filter_marks_cons (mark : Bool) (marks : List Bool) (group : Nat)
    : ((List.range' group (mark :: marks).length).filter fun other =>
        (mark :: marks)[other - group]?.getD false)
      = (if mark then [group] else [])
        ++ (List.range' (group + 1) marks.length).filter fun other =>
          marks[other - (group + 1)]?.getD false := by
  have behind : ((List.range' (group + 1) marks.length).filter fun other =>
        (mark :: marks)[other - group]?.getD false)
      = (List.range' (group + 1) marks.length).filter fun other =>
        marks[other - (group + 1)]?.getD false := by
    refine List.filter_congr fun other member => ?_
    have above := (List.mem_range'_1.mp member).1
    rw [show other - group = other - (group + 1) + 1 by omega, List.getElem?_cons_succ]
  rw [List.length_cons, List.range'_succ, List.filter_cons, behind]
  cases mark <;> simp

/-- Visiting marked groups is the walk over their places. -/
theorem Whole.walkGroups?_marked (whole : table.Whole) (visit : Value → τ → Value × τ)
    (marks : List Bool) (group : Nat) (inside : group + marks.length ≤ table.dirty.size) (host : τ)
    : let keys := ((List.range' group marks.length).filter fun other =>
        marks[other - group]?.getD false).flatMap groupIndices
      MarkedSlots.walkGroups? visit marks group table.marked.slots host
        = some ((access.walk visit keys table host).1.marked.slots,
          (access.walk visit keys table host).2) := by
  induction marks generalizing table group host with
  | nil => rfl
  | cons mark marks ih =>
      rw [filter_marks_cons, List.flatMap_append]
      rw [List.length_cons] at inside
      cases mark with
      | false => exact ih whole (group + 1) (by omega) host
      | true =>
          have slice := visitSlice?_marked visit (whole.group_le (show group < _ by omega)) host
          have outline := walk_outline visit (groupIndices group) table host
          simp only [MarkedSlots.walkGroups?, if_true, slice, Option.bind_eq_bind, Option.bind_some]
          rw [PlaceAccess.walk_append, List.flatMap_singleton]
          exact ih (whole.walk visit (groupIndices group) host) (group + 1)
            (by rw [outline.2]; omega) _

/-- A walk has a result in the list form, the same. -/
theorem Whole.walk?_marked (whole : table.Whole) (full : Bool) (visit : Value → τ → Value × τ)
    (host : τ)
    : table.marked.walk? full visit host
      = some ((table.walk full visit host).1.marked, (table.walk full visit host).2) := by
  have marks : (table.walk full visit host).1.dirty = table.dirty :=
    (walk_outline visit (table.visited full) table host).2
  have done : table.marked.walkSlots? full visit host
      = some ((table.walk full visit host).1.marked.slots, (table.walk full visit host).2) := by
    cases full with
    | true =>
        have inside : 0 + table.capacity ≤ table.capacity := (Nat.zero_add _).le
        have slice := visitSlice?_marked visit inside host
        simpa [MarkedSlots.visitSlice?, List.take_of_length_le, List.drop_of_length_le,
          MarkedSlots.walkSlots?, ConstantTable.walk, visited, roots, List.range_eq_range'] using slice
    | false =>
        have walked := whole.walkGroups?_marked visit table.dirty.toList 0 (by simp) host
        simpa [MarkedSlots.walkSlots?, marked, ConstantTable.walk, visited, dirtyRoots, dirtyGroups,
          List.range_eq_range'] using walked
  rw [MarkedSlots.walk?, done]
  refine congrArg some (Prod.ext (eq_marked (fun index => getElem?_marked index) ?_) rfl)
  simp [marked, marks]

theorem marked_clearDirty (table : ConstantTable)
    : table.marked.clearMarks = table.clearDirty.marked :=
  eq_marked (fun index => getElem?_marked index) (by simp [MarkedSlots.clearMarks, marked, clearDirty])

/-- A command has a result in the list form, the same. -/
theorem Whole.obey?_marked (whole : table.Whole) (host : τ) (command : ConstantCommand τ)
    : table.marked.obey? host command
      = some ((table.obey host command).1.marked, (table.obey host command).2) := by
  cases command with
  | set index value =>
      rw [MarkedSlots.obey?, whole.set?_marked]
      rfl
  | collect full ends visit =>
      rw [MarkedSlots.obey?, whole.walk?_marked]
      cases ends with
      | false => rfl
      | true => simp [obey, marked_clearDirty]

end ConstantTable

end MovingHeap
