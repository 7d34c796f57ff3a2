import MovingHeap.Proofs.Soundness
import MovingHeap.Proofs.Tiling

/-! When references stay well-formed.
What tracing meets is the least set that has the starts and is closed under following references, so
it is enough to find a set like that in which all references are well-formed.
-/

namespace MovingHeap

variable {σ δ : Type}

namespace Regions

/-- Following a reference among the values leads to one of them. -/
structure Closed (layout : Layout) (regions : Regions δ) (inside : Value → Prop) : Prop where
  field
    : ∀ addr : Address,
        addr.Decodes →
        inside addr.toValue →
        regions.moves true addr.space →
        ∀ index,
          layout.IsSlot (regions.field addr) index → inside ⟨regions.field addr index⟩
  payload
    : ∀ addr : Address,
        addr.Decodes →
        inside addr.toValue →
        addr.space = .fixed →
        ∀ begin occupant,
          regions.fixed.containing? addr.offset = some begin →
          regions.fixed.occupant? begin = some occupant →
          occupant.forgotten = false →
          ∀ index < occupant.words, inside ⟨regions.cell .fixed (begin + index)⟩

section Traced

variable {layout : Layout} {regions : Regions δ} {start : Value → Prop}

/-- Tracing stays inside of what is closed, by induction over the path. -/
theorem Traced.within {inside : Value → Prop} (closed : regions.Closed layout inside)
    (starts : ∀ value, start value → inside value) {full : Bool} {value : Value}
    (traced : regions.Traced layout full start value)
    : inside value := by
  induction traced with
  | start root => exact starts _ root
  | @field addr index valid _ moves slot ih =>
      refine closed.field addr valid ih ?_ index slot
      simp only [Regions.moves, Bool.or_eq_true, Bool.and_eq_true] at moves ⊢
      exact moves.imp id fun both => ⟨trivial, both.2⟩
  | payload valid _ _ fixed covers found known inside' ih =>
      exact closed.payload _ valid ih fixed _ _ covers found known _ inside'

/-- What is traced in full is closed. -/
theorem closed_traced : regions.Closed layout (regions.Traced layout true start) where
  field _ valid met moves _ slot := .field valid met moves slot
  payload _ valid met fixed _ _ covers found known _ inside :=
    .payload valid met rfl fixed covers found known inside

/-- Values that are no references lead nowhere. -/
theorem Closed.plain {inside : Value → Prop} (closed : regions.Closed layout inside)
    : regions.Closed layout fun value => value.address? = none ∨ inside value where
  field addr valid among moves index slot := by
    rcases among with plain | here
    · rw [Value.address?_toValue valid] at plain
      cases plain
    · exact Or.inr (closed.field addr valid here moves index slot)
  payload addr valid among fixed begin occupant covers found known index inside' := by
    rcases among with plain | here
    · rw [Value.address?_toValue valid] at plain
      cases plain
    · exact Or.inr
        (closed.payload addr valid here fixed begin occupant covers found known index inside')

/-- Values that are no references are never ill-formed. -/
theorem Coherent.plain {met : Value → Prop} (coherent : regions.Coherent layout met)
    : regions.Coherent layout fun value => value.address? = none ∨ met value := by
  have meets : ∀ addr : Address, addr.Decodes →
      (addr.toValue.address? = none ∨ met addr.toValue) → met addr.toValue := by
    intro addr valid among
    rcases among with plain | here
    · rw [Value.address?_toValue valid] at plain
      cases plain
    · exact here
  exact ⟨fun addr valid among => coherent.object addr valid (meets addr valid among),
    fun first second left right here there => coherent.apart first second left right
      (meets first left here) (meets second right there),
    fun addr valid among => coherent.live addr valid (meets addr valid among)⟩

end Traced

end Regions

namespace Regions

variable {layout : Layout} {regions : Regions δ}

theorem Apart.old_ne_birth (apart : regions.Apart) : regions.old.space ≠ .birth := fun here => by
  have old := apart.old
  rw [here] at old
  cases old

theorem Apart.old_ne_fixed (apart : regions.Apart) : regions.old.space ≠ .fixed := fun here => by
  have old := apart.old
  rw [here] at old
  cases old

/-- The birth region has no cells but its own. -/
theorem cell_birth (regions : Regions δ) (birth : BirthRegion) {space : Space}
    (other : space ≠ .birth) (offset : Nat)
    : { regions with birth }.cell space offset = regions.cell space offset := by
  cases space with
  | birth => exact absurd rfl other
  | fixed | oldA | oldB => rfl

/-- Objects back to back are the same where the words of the old region are. -/
theorem Tiles.alike_of_words {starts : List Nat} {start stop : Nat}
    (tiles : regions.Tiles layout starts start stop) (later : Regions δ)
    (space : later.old.space = regions.old.space)
    (words : ∀ offset, later.cell regions.old.space offset = regions.cell regions.old.space offset)
    : later.Tiles layout starts start stop := by
  refine tiles.alike space fun first _ isObject => ?_
  have same : later.wordsAt regions.old.space first = regions.wordsAt regions.old.space first :=
    funext fun index => words (first + index)
  rw [same]
  exact ⟨isObject, rfl⟩

/-- Slots are the same where old objects are laid out the same and fixed objects still are. -/
theorem Slot.alike {place : Space} {offset : Nat} (slot : regions.Slot layout place offset)
    (later : Regions δ) (space : later.old.space = regions.old.space)
    (cursor : later.old.cursor = regions.old.cursor)
    (same
      : ∀ starts,
          regions.Tiles layout starts 0 regions.old.cursor →
          ∀ first ∈ starts,
            layout.IsObject (later.wordsAt regions.old.space first)
            ∧ layout.size (later.wordsAt regions.old.space first)
              = layout.size (regions.wordsAt regions.old.space first)
            ∧ ∀ index,
                layout.IsSlot (later.wordsAt regions.old.space first) index
                ↔ layout.IsSlot (regions.wordsAt regions.old.space first) index)
    (fixed
      : ∀ begin occupant,
          regions.fixed.occupant? begin = some occupant →
          ∃ other, later.fixed.occupant? begin = some other ∧ other.words = occupant.words)
    : later.Slot layout place offset := by
  cases slot with
  | @old starts start index tiles member isSlot =>
      have alike := same starts tiles
      have tiled := tiles.alike space fun first inside _ =>
        ⟨(alike first inside).1, (alike first inside).2.1⟩
      have isSlot' := ((alike start member).2.2 index).mpr isSlot
      rw [← space] at isSlot' ⊢
      rw [← cursor] at tiled
      exact .old tiled member isSlot'
  | fixed found inside =>
      obtain ⟨other, found', words⟩ := fixed _ _ found
      exact .fixed found' (by omega)

/-- Slots are the same where the words of the old region are the same. -/
theorem Slot.alike_of_words {place : Space} {offset : Nat}
    (slot : regions.Slot layout place offset) (later : Regions δ)
    (space : later.old.space = regions.old.space)
    (cursor : later.old.cursor = regions.old.cursor)
    (words : ∀ offset, later.cell regions.old.space offset = regions.cell regions.old.space offset)
    (fixed
      : ∀ begin occupant,
          regions.fixed.occupant? begin = some occupant →
          ∃ other, later.fixed.occupant? begin = some other ∧ other.words = occupant.words)
    : later.Slot layout place offset := by
  refine slot.alike later space cursor (fun starts tiles first member => ?_) fixed
  have same : later.wordsAt regions.old.space first = regions.wordsAt regions.old.space first :=
    funext fun index => words (first + index)
  rw [same]
  exact ⟨(tiles.of_mem member).1, rfl, fun index => Iff.rfl⟩

/-- The birth region has no part in the slots outside of it. -/
theorem slot_birth (apart : regions.Apart) (birth : BirthRegion) {space : Space} {offset : Nat}
    : { regions with birth }.Slot layout space offset ↔ regions.Slot layout space offset := by
  have same := cell_birth regions birth apart.old_ne_birth
  constructor
  · exact fun slot => slot.alike_of_words regions rfl rfl (fun offset => (same offset).symm)
      fun begin occupant found => ⟨occupant, found, rfl⟩
  · exact fun slot => slot.alike_of_words { regions with birth } rfl rfl same
      fun begin occupant found => ⟨occupant, found, rfl⟩

end Regions

namespace World

variable {contract : Contract σ} {before after : World σ δ} {extra held : List Value}

/-- References are well-formed if they are in a closed set that has the starts. -/
theorem WellFormed.of_closed {inside : Value → Prop} (upholds : contract.Upholds after.host)
    (closed : after.heap.regions.Closed contract.layout inside)
    (starts : ∀ value, after.Starts contract held value → inside value)
    (coherent : after.heap.regions.Coherent contract.layout inside)
    (heads
      : ∀ addr : Address,
          addr.Decodes →
          inside addr.toValue →
          addr.space ≠ .fixed →
          contract.layout.IsSlot (after.heap.regions.field addr) 0 →
          after.heap.regions.clears ⟨after.heap.regions.field addr 0⟩ = false)
    (tiled
      : ∃ starts,
          after.heap.regions.Tiles contract.layout starts 0 after.heap.regions.old.cursor
          ∧ ∀ addr : Address,
              addr.Decodes →
              inside addr.toValue →
              addr.space = after.heap.regions.old.space →
              addr.offset ∈ starts)
    (recorded
      : ∀ raw ∈ after.heap.regions.birth.remembered,
          ∃ slot : Address,
            slot.raw = raw
            ∧ slot.Decodes
            ∧ after.heap.regions.Slot contract.layout slot.space slot.offset)
    : after.WellFormed contract held := by
  have within : ∀ value, after.Met contract held value → inside value := fun value =>
    Regions.Traced.within closed starts
  obtain ⟨list, tiles, listed⟩ := tiled
  exact ⟨upholds, coherent.mono within,
    fun addr valid met => heads addr valid (within _ met),
    ⟨list, tiles, fun addr valid met => listed addr valid (within _ met)⟩, recorded⟩

/-- A reference among values that are met or are no references is met. -/
theorem met_of_plain {addr : Address} (valid : addr.Decodes)
    (among : addr.toValue.address? = none ∨ before.Met contract extra addr.toValue)
    : before.Met contract extra addr.toValue := by
  rcases among with plain | met
  · rw [Value.address?_toValue valid] at plain
    cases plain
  · exact met

/-- In the same memory, references are well-formed if tracing starts from what was met. -/
theorem WellFormed.of_within (wellFormed : before.WellFormed contract extra)
    (same : after.heap.regions = before.heap.regions) (upholds : contract.Upholds after.host)
    (starts
      : ∀ value,
          after.Starts contract held value →
          value.address? = none ∨ before.Met contract extra value)
    : after.WellFormed contract held := by
  obtain ⟨list, tiles, listed⟩ := wellFormed.tiled
  refine .of_closed upholds ?_ starts ?_ ?_ ?_ ?_
  · rw [same]
    exact Regions.closed_traced.plain
  · rw [same]
    exact wellFormed.coherent.plain
  · rw [same]
    exact fun addr valid among => wellFormed.heads addr valid (met_of_plain valid among)
  · rw [same]
    exact ⟨list, tiles, fun addr valid among => listed addr valid (met_of_plain valid among)⟩
  · rw [same]
    exact wellFormed.recorded

/-- What is met may be stored. -/
theorem WellFormed.met (wellFormed : before.WellFormed contract []) {value : Value}
    (met : before.Met contract [] value)
    : before.WellFormed contract [value] := by
  refine wellFormed.of_within rfl wellFormed.upholds fun other start => Or.inr ?_
  cases start with
  | rooted rooted => exact .start (.rooted rooted)
  | noted noted => exact .start (.noted noted)
  | extra member =>
      rw [List.mem_singleton.mp member]
      exact met

/-- Memory still has all that was met, and the old region with all its objects. -/
structure Preserves (contract : Contract σ) (extra : List Value) (before : World σ δ)
    (after : Regions δ)
    : Prop where
  space : after.old.space = before.heap.regions.old.space
  cursor : after.old.cursor = before.heap.regions.old.cursor
  limit : ∀ space, before.heap.regions.limit space ≤ after.limit space
  old
    : ∀ offset < before.heap.regions.old.cursor,
        after.cell before.heap.regions.old.space offset
        = before.heap.regions.cell before.heap.regions.old.space offset
  object
    : ∀ object : Address,
        object.Decodes →
        before.Met contract extra object.toValue →
        object.space = .birth →
        ∀ index < contract.layout.size (before.heap.regions.field object),
          after.field object index = before.heap.regions.field object index
  fixed
    : ∀ offset begin,
        before.heap.regions.fixed.containing? offset = some begin →
        after.fixed.containing? offset = some begin
          ∧ after.fixed.occupant? begin = before.heap.regions.fixed.occupant? begin
          ∧ ∀ occupant,
              before.heap.regions.fixed.occupant? begin = some occupant →
              ∀ index < occupant.words,
                after.cell .fixed (begin + index)
                = before.heap.regions.cell .fixed (begin + index)

section Preserves

variable {now : Regions δ} (preserves : Preserves contract extra before now)
  (wellFormed : before.WellFormed contract extra)

include preserves wellFormed

/-- The words of what was met are the same. -/
theorem Preserves.field {object : Address} (valid : object.Decodes)
    (met : before.Met contract extra object.toValue) (moves : object.space ≠ .fixed) {index : Nat}
    (inside : index < contract.layout.size (before.heap.regions.field object))
    : now.field object index = before.heap.regions.field object index := by
  by_cases birth : object.space = .birth
  · exact preserves.object object valid met birth index inside
  · obtain ⟨there, -, below⟩ := wellFormed.coherent.object object valid met moves
    have old : object.space = before.heap.regions.old.space := by
      simpa [Regions.moves, birth] using there
    rw [Regions.limit, if_neg birth] at below
    rw [Regions.field, Regions.field, old]
    exact preserves.old _ (by omega)

/-- What was met is laid out the same. -/
theorem Preserves.laidOut {object : Address} (valid : object.Decodes)
    (met : before.Met contract extra object.toValue) (moves : object.space ≠ .fixed)
    : contract.layout.IsObject (now.field object)
      ∧ contract.layout.size (now.field object)
        = contract.layout.size (before.heap.regions.field object)
      ∧ ∀ index,
          contract.layout.IsSlot (now.field object) index
          ↔ contract.layout.IsSlot (before.heap.regions.field object) index := by
  have isObject := (wellFormed.coherent.object object valid met moves).2.1
  have large := contract.layout.two_le_size isObject
  refine contract.layout.agree isObject
    (fun index inside _ => preserves.field wellFormed valid met moves inside) ?_
  rw [preserves.field wellFormed valid met moves (by omega)]
  exact contract.layout.first_ne_zero isObject

omit wellFormed in
/-- Objects back to back in the old region still are. -/
theorem Preserves.tiles {starts : List Nat}
    (tiles
      : before.heap.regions.Tiles contract.layout starts 0 before.heap.regions.old.cursor)
    : now.Tiles contract.layout starts 0 now.old.cursor := by
  rw [preserves.cursor]
  refine tiles.alike preserves.space fun first member isObject => ?_
  obtain ⟨-, -, below⟩ := tiles.of_mem member
  have large := contract.layout.two_le_size isObject
  have same : ∀ index < contract.layout.size
      (before.heap.regions.wordsAt before.heap.regions.old.space first),
      now.wordsAt before.heap.regions.old.space first index
        = before.heap.regions.wordsAt before.heap.regions.old.space first index :=
    fun index inside => preserves.old _ (by omega)
  have agrees := contract.layout.agree isObject (fun index inside _ => same index inside) (by
    rw [same 0 (by omega)]
    exact contract.layout.first_ne_zero isObject)
  exact ⟨agrees.1, agrees.2.1⟩

variable (apart : before.heap.regions.Apart)

include apart

/-- What was met, with what is no reference, is closed. -/
theorem Preserves.closed
    : now.Closed contract.layout
        fun value => value.address? = none ∨ before.Met contract extra value where
  field addr valid among moves index slot := by
    have met := met_of_plain valid among
    have notFixed : addr.space ≠ .fixed := by
      rw [Regions.moves, preserves.space] at moves
      exact apart.ne_fixed moves
    obtain ⟨-, -, slots⟩ := preserves.laidOut wellFormed valid met notFixed
    have slot' := (slots index).mp slot
    have isObject := (wellFormed.coherent.object addr valid met notFixed).2.1
    rw [preserves.field wellFormed valid met notFixed (contract.layout.slot_lt isObject slot')]
    exact Or.inr (wellFormed.coherent.met_slot valid met notFixed slot')
  payload addr valid among fixed begin occupant covers found known index inside := by
    have met := met_of_plain valid among
    obtain ⟨begin', covers'⟩ := Option.isSome_iff_exists.mp
      (wellFormed.coherent.live addr valid met fixed)
    obtain ⟨same, holds, words⟩ := preserves.fixed _ _ covers'
    rw [covers, Option.some.injEq] at same
    subst same
    rw [holds] at found
    rw [words occupant found index inside]
    exact Or.inr (.payload valid met rfl fixed covers' found known inside)

/-- What was traced from values that were met still is, by induction over the path. -/
theorem Preserves.traced {start : Value → Prop}
    (starts : ∀ value, start value → before.Met contract extra value) {value : Value}
    (traced : before.heap.regions.Traced contract.layout true start value)
    : now.Traced contract.layout true start value := by
  have met : ∀ {value}, before.heap.regions.Traced contract.layout true start value →
      before.Met contract extra value := fun traced =>
    traced.within Regions.closed_traced starts
  induction traced with
  | start root => exact .start root
  | @field addr index valid traced moves slot ih =>
      have notFixed : addr.space ≠ .fixed := apart.ne_fixed moves
      have isObject := (wellFormed.coherent.object addr valid (met traced) notFixed).2.1
      rw [← preserves.field wellFormed valid (met traced) notFixed
        (contract.layout.slot_lt isObject slot)]
      refine .field valid ih ?_ ?_
      · rwa [Regions.moves, preserves.space]
      · exact ((preserves.laidOut wellFormed valid (met traced) notFixed).2.2 index).mpr slot
  | @payload addr begin index occupant valid traced follows fixed covers found known inside ih =>
      obtain ⟨covers', holds, words⟩ := preserves.fixed _ _ covers
      rw [← words occupant found index inside]
      exact .payload valid ih follows fixed covers' (holds.trans found) known inside

omit apart in
/-- What was met is still well-formed. -/
theorem Preserves.coherent : now.Coherent contract.layout (before.Met contract extra) where
  object addr valid met notFixed := by
    obtain ⟨moves, -, below⟩ := wellFormed.coherent.object addr valid met notFixed
    obtain ⟨isObject, size, -⟩ := preserves.laidOut wellFormed valid met notFixed
    refine ⟨?_, isObject, ?_⟩
    · rwa [Regions.moves, preserves.space]
    · rw [size]
      exact below.trans (preserves.limit addr.space)
  apart first second valid valid' met met' same notFixed differs := by
    have size := (preserves.laidOut wellFormed valid met notFixed).2.1
    have size' := (preserves.laidOut wellFormed valid' met' (same ▸ notFixed)).2.1
    rw [size, size']
    exact wellFormed.coherent.apart first second valid valid' met met' same notFixed differs
  live addr valid met fixed := by
    obtain ⟨begin, covers⟩ := Option.isSome_iff_exists.mp
      (wellFormed.coherent.live addr valid met fixed)
    rw [(preserves.fixed _ _ covers).1]
    rfl

omit apart in
/-- No more references than before are to be cleared. -/
theorem Preserves.clears {value : Value} (met : before.Met contract extra value)
    : now.clears value = before.heap.regions.clears value := by
  cases found : value.address? with
  | none => simp [Regions.clears, found]
  | some addr =>
      have valid := Value.decodes_of_address? found
      rw [← Value.toValue_of_address? found] at met
      by_cases fixed : addr.space = .fixed
      · obtain ⟨begin, covers⟩ := Option.isSome_iff_exists.mp
          (wellFormed.coherent.live addr valid met fixed)
        obtain ⟨same, holds, -⟩ := preserves.fixed _ _ covers
        simp [Regions.clears, found, Regions.forgets, Regions.occupantAt?, covers, same, holds]
      · have other : (addr.space == .fixed) = false := by simpa using fixed
        simp [Regions.clears, found, other]

end Preserves

/-- Where memory still has all that was met, references are well-formed if tracing starts from that. -/
theorem WellFormed.of_preserves (wellFormed : before.WellFormed contract extra)
    (apart : before.heap.regions.Apart)
    (preserves : Preserves contract extra before after.heap.regions)
    (upholds : contract.Upholds after.host)
    (starts
      : ∀ value,
          after.Starts contract held value →
          value.address? = none ∨ before.Met contract extra value)
    (recorded
      : ∀ raw ∈ after.heap.regions.birth.remembered,
          ∃ slot : Address,
            slot.raw = raw
            ∧ slot.Decodes
            ∧ after.heap.regions.Slot contract.layout slot.space slot.offset)
    : after.WellFormed contract held := by
  obtain ⟨list, tiles, listed⟩ := wellFormed.tiled
  refine .of_closed upholds (preserves.closed wellFormed apart) starts
    (preserves.coherent wellFormed).plain (fun addr valid among notFixed slot => ?_)
    ⟨list, preserves.tiles tiles, fun addr valid among old => ?_⟩ recorded
  · have met := met_of_plain valid among
    have isObject := (wellFormed.coherent.object addr valid met notFixed).2.1
    have slot' := ((preserves.laidOut wellFormed valid met notFixed).2.2 0).mp slot
    rw [preserves.field wellFormed valid met notFixed (contract.layout.slot_lt isObject slot'),
      preserves.clears wellFormed (wellFormed.coherent.met_slot valid met notFixed slot')]
    exact wellFormed.heads addr valid met notFixed slot'
  · rw [preserves.space] at old
    exact listed addr valid (met_of_plain valid among) old

end World

end MovingHeap
