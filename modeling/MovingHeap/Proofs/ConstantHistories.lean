import MovingHeap.Proofs.MarkedSlots

/-! What a table of constants tells of what was done to it.
Of everything that happened to the table a record is kept, without any slots or marks. What each index
holds, which groups are dirty and how wide the table is can be read from that record, and the table agrees
with it after any commands.
-/

namespace MovingHeap

variable {τ σ δ : Type}

-----------------------------------------------------------------------------------------
-- Records
-----------------------------------------------------------------------------------------

/-- Something that happened to constants. -/
inductive ConstantEvent where
  | wrote (index : Nat) (value : Value)
  /-- What visitors answered for the indices they were shown. -/
  | moved (answers : List (Nat × Value))
  | collected

namespace ConstantEvent

open ConstantTable (groupSize)

/-- What was last written to an index, or answered for it, else null. The last event of a record is in
front.
-/
def last : List ConstantEvent → Nat → Value
  | [], _ => .null
  | .wrote written value :: earlier, index => if index = written then value else last earlier index
  | .moved answers :: earlier, index => (answers.lookup index).getD (last earlier index)
  | .collected :: earlier, index => last earlier index

/-- The indices that were written since the last collection. -/
def written : List ConstantEvent → List Nat
  | [] => []
  | .wrote index _ :: earlier => index :: written earlier
  | .moved _ :: earlier => written earlier
  | .collected :: _ => []

/-- Whether an index of the same group was written since the last collection. -/
def touched (events : List ConstantEvent) (index : Nat) : Bool :=
  (written events).any fun other => other / groupSize = index / groupSize

/-- The number of slots that a table has which was set up for `initial` constants. -/
def room (initial : Nat) : List ConstantEvent → Nat
  | [] => nextPowerOfTwo (max initial groupSize)
  | .wrote index _ :: earlier => max (room initial earlier) (nextPowerOfTwo (index + 1))
  | _ :: earlier => room initial earlier

/-- The indices that a collection looks at, ascending: all of them, or those of touched groups. -/
def shown (initial : Nat) (events : List ConstantEvent) (full : Bool) : List Nat :=
  (List.range (room initial events)).filter fun index => full || touched events index

/-- Records a command. -/
def noted (initial : Nat) (events : List ConstantEvent) (host : τ)
    : ConstantCommand τ → List ConstantEvent
  | .set index value => .wrote index value :: events
  | .collect full ends visit =>
      let keys := shown initial events full
      let moved := .moved (keys.zip (visitAll visit (keys.map (last events)) host).1) :: events
      if ends then .collected :: moved else moved

end ConstantEvent

/-- A table of constants, what visitors know and the record of what happened. -/
structure ConstantHistory (τ : Type) where
  table : ConstantTable
  host : τ
  events : List ConstantEvent := []

namespace ConstantHistory

/-- Does what a command says and records it. -/
def perform (initial : Nat) (history : ConstantHistory τ) (command : ConstantCommand τ)
    : ConstantHistory τ :=
  let obeyed := history.table.obey history.host command
  { table := obeyed.1
    host := obeyed.2
    events := ConstantEvent.noted initial history.events history.host command }

/-- What some commands lead to, from a new table on. -/
def play (initial : Nat) (host : τ) (commands : List (ConstantCommand τ)) : ConstantHistory τ :=
  commands.foldl (perform initial) { table := .withCapacity initial, host }

end ConstantHistory

-----------------------------------------------------------------------------------------
-- Tables follow records
-----------------------------------------------------------------------------------------

namespace ConstantTable

open ConstantEvent

variable {table : ConstantTable} {initial : Nat} {events : List ConstantEvent}

/-- A table is what a record says. -/
structure Follows (table : ConstantTable) (initial : Nat) (events : List ConstantEvent) : Prop
    extends table.Whole where
  width : table.capacity = room initial events
  reads : ∀ index, table.get index = last events index
  marks : ∀ index, table.isDirty index = touched events index

/-- The indices of some groups are those below a multiple of the group size that lie in such a group. -/
theorem flatMap_groupIndices (chosen : Nat → Bool) (groups : Nat)
    : ((List.range groups).filter chosen).flatMap groupIndices
      = (List.range (groups * groupSize)).filter fun index => chosen (index / groupSize) := by
  induction groups with
  | zero => rfl
  | succ groups ih =>
      have last : (List.range groupSize).map (groups * groupSize + ·) = groupIndices groups := by
        rw [groupIndices, List.range'_eq_map_range]
      have same : (groupIndices groups).filter (fun index => chosen (index / groupSize))
          = if chosen groups then groupIndices groups else [] := by
        have within : ∀ index ∈ groupIndices groups, index / groupSize = groups := by
          intro index member
          have bounds := List.mem_range'_1.mp member
          simp only [groupSize] at bounds ⊢
          omega
        split_ifs with here
        · exact List.filter_eq_self.mpr fun index member => by rw [within index member, here]
        · exact List.filter_eq_nil_iff.mpr fun index member => by rwa [within index member]
      rw [List.range_succ, List.filter_append, List.flatMap_append, ih, Nat.succ_mul, List.range_add, last,
        List.filter_append, same]
      cases here : chosen groups <;> simp [here]

/-- A minor collection looks at the dirty indices, ascending. -/
theorem Whole.dirtyRoots_eq (whole : table.Whole)
    : table.dirtyRoots = (List.range table.capacity).filter table.isDirty := by
  rw [dirtyRoots, dirtyGroups, flatMap_groupIndices, ← whole.groups]
  rfl

/-- Growing makes nothing dirty and cleans nothing. -/
theorem isDirty_grownFor_eq (table : ConstantTable) (index other : Nat)
    : (table.grownFor index).isDirty other = table.isDirty other := by
  unfold grownFor
  split_ifs
  · rfl
  · simp only [isDirty, Array.getElem?_append, Array.getElem?_replicate]
    split_ifs with inside
    · rfl
    · rw [Array.getElem?_eq_none (Nat.le_of_not_lt inside)]
      rfl
    · rw [Array.getElem?_eq_none (Nat.le_of_not_lt inside)]

/-- Setting a constant makes its group dirty and no other. -/
theorem Whole.isDirty_set (whole : table.Whole) (index : Nat) (value : Value) (other : Nat)
    : (table.set index value).isDirty other
      = (decide (index / groupSize = other / groupSize) || table.isDirty other) := by
  have listed := (whole.grownFor index).div_lt (table.lt_capacity_grownFor index)
  rw [← isDirty_grownFor_eq table index other]
  simp only [isDirty, ConstantTable.set, replace, Array.getElem?_setIfInBounds]
  by_cases same : index / groupSize = other / groupSize
  · simp [← same, listed]
  · simp [same]

/-- A collection looks at what the record says it does. -/
theorem Follows.visited_eq (follows : table.Follows initial events) (full : Bool)
    : table.visited full = shown initial events full := by
  rw [shown, ← follows.width]
  cases full with
  | true => simp [visited, roots]
  | false =>
      simp only [visited, Bool.false_eq_true, if_false, follows.dirtyRoots_eq, Bool.false_or]
      exact List.filter_congr fun index _ => follows.marks index

/-- No index is shown twice, and those that are shown are in the table. -/
theorem Follows.shown_valid (follows : table.Follows initial events) (full : Bool)
    : (shown initial events full).Nodup
      ∧ ∀ index,
          index ∈ shown initial events full
          ↔ index < table.capacity ∧ (full ∨ table.isDirty index) := by
  refine ⟨List.nodup_range.filter _, fun index => ?_⟩
  rw [shown, List.mem_filter, List.mem_range, ← follows.width, Bool.or_eq_true, follows.marks]

theorem follows_withCapacity (initial : Nat) : (withCapacity initial).Follows initial [] where
  toWhole := whole_withCapacity initial
  width := rfl
  reads index := by
    simp only [get, withCapacity, Arena.get?, Arena.get_zeroed]
    split_ifs <;> rfl
  marks index := by
    simp only [isDirty, withCapacity, Array.getElem?_replicate]
    split_ifs <;> rfl

/-- Setting a constant follows. -/
theorem Follows.set (follows : table.Follows initial events) (index : Nat) (value : Value)
    : (table.set index value).Follows initial (.wrote index value :: events) where
  toWhole := follows.toWhole.set index value
  width := by
    rw [capacity_set, room, ← follows.width]
    by_cases inside : index < table.capacity
    · -- a power of two above the index is not below the next one
      obtain ⟨exponent, power⟩ := follows.power
      rw [grownFor, if_pos inside, Nat.max_eq_left]
      rw [power] at inside ⊢
      exact nextPowerOfTwo_le inside
    · have outside := Nat.le_of_not_lt inside
      have above := le_nextPowerOfTwo (index + 1)
      rw [capacity_grownFor outside, Nat.max_eq_right (by omega)]
  reads other := by
    rw [get_set, last, follows.reads]
    simp only [eq_comm]
  marks other := by
    rw [follows.toWhole.isDirty_set, follows.marks]
    rfl

/-- What a walk leaves follows, and the visitor is shown what is recalled. -/
theorem Follows.walk (follows : table.Follows initial events) (full : Bool)
    (visit : Value → τ → Value × τ) (host : τ)
    : let keys := shown initial events full
      let answers := visitAll visit (keys.map (last events)) host
      (table.walk full visit host).2 = answers.2
      ∧ (table.walk full visit host).1.Follows initial (.moved (keys.zip answers.1) :: events) := by
  intro keys answers
  obtain ⟨once, listed⟩ := follows.shown_valid full
  have shown : keys.map (access.read table) = keys.map (last events) :=
    List.map_congr_left fun index _ => follows.reads index
  obtain ⟨known, held⟩ := lawful_access.walk_eq visit once
    (fun index member => ((listed index).mp member).1) host
  obtain ⟨width, marks⟩ := walk_outline visit keys table host
  have whole := follows.toWhole.walk visit keys host
  rw [shown] at known held
  rw [ConstantTable.walk, follows.visited_eq]
  refine ⟨known, ⟨whole, width.trans follows.width, fun index => (held index).trans ?_, fun index => ?_⟩⟩
  · rw [last, ← follows.reads index]
    rfl
  · rw [isDirty, marks]
    exact follows.marks index

/-- Clearing the marks follows. -/
theorem Follows.clearDirty (follows : table.Follows initial events)
    : table.clearDirty.Follows initial (.collected :: events) where
  toWhole := follows.toWhole.clearDirty
  width := follows.width
  reads := follows.reads
  marks := isDirty_clearDirty table

end ConstantTable

namespace ConstantHistory

variable {initial : Nat} {history : ConstantHistory τ}

/-- Whatever a command does follows. -/
theorem follows_perform (follows : history.table.Follows initial history.events)
    (command : ConstantCommand τ)
    : (history.perform initial command).table.Follows initial (history.perform initial command).events := by
  cases command with
  | set index value => exact follows.set index value
  | collect full ends visit =>
      have walked := (follows.walk full visit history.host).2
      cases ends with
      | false => exact walked
      | true => exact walked.clearDirty

/-- After any commands the table follows the record. -/
theorem follows_play (initial : Nat) (host : τ) (commands : List (ConstantCommand τ))
    : (play initial host commands).table.Follows initial (play initial host commands).events := by
  have kept : ∀ history : ConstantHistory τ, history.table.Follows initial history.events →
      (commands.foldl (perform initial) history).table.Follows initial
        (commands.foldl (perform initial) history).events := by
    induction commands with
    | nil => exact fun _ follows => follows
    | cons command commands ih => exact fun _ follows => ih _ (follows_perform follows command)
  exact kept _ (ConstantTable.follows_withCapacity initial)

/-- A record that is carried on tells of no less room. -/
theorem room_perform (initial : Nat) (history : ConstantHistory τ) (command : ConstantCommand τ)
    : ConstantEvent.room initial history.events
      ≤ ConstantEvent.room initial (history.perform initial command).events := by
  cases command with
  | set index value => exact Nat.le_max_left _ _
  | collect full ends visit => cases ends <;> exact Nat.le_refl _

/-- No command makes a table narrower. -/
theorem capacity_play (initial : Nat) (host : τ) (commands later : List (ConstantCommand τ))
    : (play initial host commands).table.capacity
      ≤ (play initial host (commands ++ later)).table.capacity := by
  have wider : ∀ history : ConstantHistory τ, ConstantEvent.room initial history.events
      ≤ ConstantEvent.room initial (later.foldl (perform initial) history).events := by
    induction later with
    | nil => exact fun _ => Nat.le_refl _
    | cons command later ih => exact fun history => (room_perform initial history command).trans (ih _)
  rw [(follows_play initial host commands).width, (follows_play initial host (commands ++ later)).width]
  simpa only [play, List.foldl_append] using wider (play initial host commands)

/-- Where no command writes and visitors leave null alone, null is recalled. -/
theorem last_play {host : τ} {commands : List (ConstantCommand τ)} {index : Nat}
    (unset : ∀ value, .set index value ∉ commands)
    (spared
      : ∀ full ends visit,
          .collect full ends visit ∈ commands → ∀ known, (visit .null known).1 = .null)
    : ConstantEvent.last (play initial host commands).events index = .null := by
  have kept : ∀ history : ConstantHistory τ, ConstantEvent.last history.events index = .null →
      ConstantEvent.last (commands.foldl (perform initial) history).events index = .null := by
    clear host
    induction commands with
    | nil => exact fun _ null => null
    | cons command commands ih =>
        intro history null
        refine ih (fun value member => unset value (List.mem_cons_of_mem _ member))
          (fun full ends visit member => spared full ends visit (List.mem_cons_of_mem _ member)) _ ?_
        cases command with
        | set other value =>
            have differs : index ≠ other := fun same =>
              unset value (same ▸ List.mem_cons_self)
            simpa [perform, ConstantEvent.noted, ConstantEvent.last, differs] using null
        | collect full ends visit =>
            have moved : ConstantEvent.last
                (.moved ((ConstantEvent.shown initial history.events full).zip
                  (visitAll visit ((ConstantEvent.shown initial history.events full).map
                    (ConstantEvent.last history.events)) history.host).1) :: history.events)
                index = .null := by
              simp only [ConstantEvent.last]
              cases found : List.lookup index _ with
              | none => exact null
              | some value =>
                  obtain ⟨known, rfl⟩ := exists_of_lookup_visitAll _ visit found
                  rw [null]
                  exact spared full ends visit List.mem_cons_self known
            cases ends with
            | false => exact moved
            | true => exact moved
  exact kept _ rfl

/-- The list form has a result after any commands, the same. -/
theorem obeyAll?_marked {history : ConstantHistory τ}
    (follows : history.table.Follows initial history.events) (commands : List (ConstantCommand τ))
    : let final := commands.foldl (perform initial) history
      history.table.marked.obeyAll? history.host commands = some (final.table.marked, final.host) := by
  induction commands generalizing history with
  | nil => rfl
  | cons command commands ih =>
      rw [MarkedSlots.obeyAll?, follows.toWhole.obey?_marked]
      exact ih (follows_perform follows command)

end ConstantHistory

-----------------------------------------------------------------------------------------
-- A table is a total map
-----------------------------------------------------------------------------------------

/-- A table holds what a record tells for every index, and knows which groups were written. -/
structure ConstantTable.Total (table : ConstantTable) (initial : Nat) (events : List ConstantEvent)
    : Prop where
  power : ∃ exponent, table.capacity = 2 ^ exponent
  least : 8 ≤ table.capacity
  groups : table.capacity = 8 * table.dirty.size
  /-- The table is just wide enough for what was asked of it. -/
  width : table.capacity = ConstantEvent.room initial events
  reads : ∀ index, table.get index = ConstantEvent.last events index
  /-- What is past the end is null. -/
  outside : ∀ index, table.capacity ≤ index → table.get index = .null
  marks
    : ∀ index,
        table.isDirty index = true ↔ ∃ other ∈ ConstantEvent.written events, other / 8 = index / 8
  /-- A minor collection looks at the indices of dirty groups, a full one at every index, each once. -/
  visits
    : ∀ full,
        (table.visited full).Nodup
        ∧ ∀ index, index ∈ table.visited full ↔ index < table.capacity ∧ (full ∨ table.isDirty index)
  /-- A visitor is shown what the indices hold, in order, and what it answers is kept. -/
  walks
    : ∀ (τ : Type) (full : Bool) (visit : Value → τ → Value × τ) (host : τ),
        let walked := table.walk full visit host
        let answers := visitAll visit ((table.visited full).map table.get) host
        walked.2 = answers.2
        ∧ walked.1.capacity = table.capacity
        ∧ walked.1.dirty = table.dirty
        ∧ ∀ index,
            walked.1.get index
            = (((table.visited full).zip answers.1).lookup index).getD (table.get index)

/-- What follows a record is a total map. -/
theorem ConstantTable.Follows.total {table : ConstantTable} {initial : Nat}
    {events : List ConstantEvent} (follows : table.Follows initial events)
    : table.Total initial events where
  power := follows.power
  least := by
    rw [follows.groups]
    exact Nat.le_mul_of_pos_left 8 follows.grouped
  groups := follows.groups.trans (Nat.mul_comm _ _)
  width := follows.width
  reads := follows.reads
  outside _ := get_outside
  marks index := by
    rw [follows.marks]
    simp only [ConstantEvent.touched, List.any_eq_true, decide_eq_true_eq]
    rfl
  visits full := by
    rw [follows.visited_eq]
    exact follows.shown_valid full
  walks τ full visit host := by
    obtain ⟨once, listed⟩ := follows.visited_eq full ▸ follows.shown_valid full
    obtain ⟨known, held⟩ := lawful_access.walk_eq visit once
      (fun index member => ((listed index).mp member).1) host
    obtain ⟨width, marks⟩ := walk_outline visit (table.visited full) table host
    exact ⟨known, width, marks, held⟩

end MovingHeap
