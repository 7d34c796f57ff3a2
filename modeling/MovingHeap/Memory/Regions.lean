import MovingHeap.Memory.BirthRegion
import MovingHeap.Memory.FixedSpace
import MovingHeap.Memory.Semispace

/-! All memory of a heap, read and written by address.
An object that moved leaves a tombstone, a zero word followed by its new address; birth memory stays
readable after a collection so that tombstones can be chased.
-/

namespace MovingHeap

/-- The regions of a heap and what a running collection keeps about them. -/
structure Regions (δ : Type) where
  birth : BirthRegion
  old : Semispace
  /-- Where a running full collection copies to. -/
  target : Option Semispace := none
  fixed : FixedSpace δ := {}
  /-- Fixed objects marked but not scanned yet, the last marked first. -/
  unscanned : List Nat := []
  /-- Words copied by the running or last collection. -/
  copied : Nat := 0

namespace Regions

variable {δ : Type}

/-- Whether a full collection is running. -/
def isFull (regions : Regions δ) : Bool := regions.target.isSome

/-- The old semispace that goes by `space`, the target of a full collection included. -/
def oldSpace? (regions : Regions δ) (space : Space) : Option Semispace :=
  if regions.old.space = space then some regions.old
  else regions.target.filter (·.space == space)

/-- Puts back an old semispace under the name it goes by. -/
def setOldSpace (regions : Regions δ) (region : Semispace) : Regions δ :=
  if regions.old.space = region.space then { regions with old := region }
  else { regions with target := some region }

/-- The word at `addr`: any word of the birth region and the fixed arena, allocated ones of the old
semispaces.
-/
def word? (regions : Regions δ) (addr : Address) : Option Word :=
  match addr.space with
  | .birth => regions.birth.words.get? addr.offset
  | .fixed => regions.fixed.arena.get? addr.offset
  | space => (regions.oldSpace? space).bind (·.word? addr.offset)

/-- Writes the word at `addr`, if it may be written: birth words below the recorded slots, allocated
words of the old semispaces, any word of the fixed arena.
-/
def setWord? (regions : Regions δ) (addr : Address) (word : Word) : Option (Regions δ) :=
  match addr.space with
  | .birth =>
      if addr.offset < regions.birth.writable then
        some { regions with
          birth := { regions.birth with words := regions.birth.words.set addr.offset word } }
      else none
  | .fixed =>
      if addr.offset < regions.fixed.arena.size then
        some { regions with
          fixed := { regions.fixed with arena := regions.fixed.arena.set addr.offset word } }
      else none
  | space =>
      (regions.oldSpace? space).bind fun region =>
        if addr.offset < region.cursor ∧ addr.offset < region.capacity then
          some (regions.setOldSpace (region.setWord addr.offset word))
        else none

/-- The `count` words from `addr` on, if all of them can be read. -/
def slice? (regions : Regions δ) (addr : Address) (count : Nat) : Option (List Word) :=
  match addr.space with
  | .birth => regions.birth.words.slice? addr.offset count
  | .fixed => regions.fixed.arena.slice? addr.offset count
  | space => (regions.oldSpace? space).bind (·.slice? addr.offset count)

/-- What an address refers to outside of a full collection. -/
def classifyAddress (regions : Regions δ) (addr : Address) : ValueKind :=
  match addr.space with
  | .birth => if regions.birth.contains addr then .birth addr else .foreign addr.raw
  | .fixed =>
      if (regions.fixed.containing? addr.offset).isSome then .fixed addr else .foreign addr.raw
  | _ => if regions.old.contains addr then .old addr else .foreign addr.raw

/-- What a value refers to. -/
def classify (regions : Regions δ) (value : Value) : ValueKind :=
  if value.isNull then .null
  else match value.integer? with
    | some n => .integer n
    | none => (value.address?.map regions.classifyAddress).getD (.foreign value.raw)

/-- The value that the tombstone at `value` names, if there is a tombstone in the birth region. -/
def tombstone? (regions : Regions δ) (value : Value) : Option Value :=
  value.address?.bind fun addr =>
    if addr.space = .birth then
      match regions.slice? addr 2 with
      | some [0, forward] => if forward = 0 then none else some ⟨forward⟩
      | _ => none
    else none

/-- Where a stale birth reference lives now, by chasing tombstones for as long as there are any. The
steps are not counted: around a circle of tombstones the loop never ends.
-/
def followOn (regions : Regions δ) (value : Value) : Value :=
  Id.run (repeatM (fun value =>
    match regions.tombstone? value with
    | some next => pure (.inl next)
    | none => pure (.inr value)) value)

/-- Chases tombstones for at most `hops` steps; `none` if that is not enough. -/
def chase (regions : Regions δ) : (hops : Nat) → Value → Option Value
  | 0, value => if (regions.tombstone? value).isNone then some value else none
  | hops + 1, value =>
      match regions.tombstone? value with
      | none => some value
      | some next => regions.chase hops next

/-- The chase with its steps counted, which tells a circle of tombstones and answers `none` for it; a
chase of more steps than the birth region has words has met one twice.
-/
def followForwards? (regions : Regions δ) (value : Value) : Option Value :=
  regions.chase regions.birth.capacity value

/-- Without a tombstone the loop is over. -/
theorem followOn_of_none {regions : Regions δ} {value : Value}
    (none : regions.tombstone? value = none)
    : regions.followOn value = value := by
  rw [followOn, repeatM_eq_of_monadTail]
  simp [repeatM.body, none]

/-- A tombstone sends the loop on to what it names. -/
theorem followOn_of_some {regions : Regions δ} {value next : Value}
    (found : regions.tombstone? value = some next)
    : regions.followOn value = regions.followOn next := by
  rw [followOn, repeatM_eq_of_monadTail]
  simp [repeatM.body, found, followOn]

/-- A chase that ends has ended where the loop does, step by step. -/
theorem followOn_of_chase {regions : Regions δ} {hops : Nat} {value last : Value}
    (found : regions.chase hops value = some last)
    : regions.followOn value = last := by
  fun_induction chase regions hops value with
  | case1 value ended =>
      cases found
      exact followOn_of_none (Option.isNone_iff_eq_none.mp ended)
  | case2 => cases found
  | case3 hops value ended =>
      cases found
      exact followOn_of_none ended
  | case4 hops value next read ih =>
      rw [followOn_of_some read]
      exact ih found

/-- A chase that ends has ended at a value without a tombstone, by following its steps. -/
theorem tombstone?_of_chase {regions : Regions δ} {hops : Nat} {value last : Value}
    (h : regions.chase hops value = some last)
    : regions.tombstone? last = none := by
  fun_induction chase regions hops value with
  | case1 value none? => simp_all
  | case2 value some? => simp at h
  | case3 hops value none? => simp_all
  | case4 hops value next found ih => exact ih h

end Regions

end MovingHeap
