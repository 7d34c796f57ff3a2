import MovingHeap.Proofs.HeapGraph

/-! What it means that a collection preserves the graph of objects.
Every value that was met has become another one, and whatever held it holds that instead. Objects were
moved as a whole or stay, different ones are still different, and what can be reached afterwards is
what the values that were met became.
-/

namespace MovingHeap

variable {σ δ : Type}

/-- The object at an address was copied to another: its slots hold what their values became, its other
words are the same.
-/
structure Regions.Copied (layout : Layout) (move : Value → Value) (before after : Regions δ)
    (object copy : Address)
    : Prop where
  valid : copy.Decodes
  same : move object.toValue = copy.toValue
  space : copy.space = after.old.space
  inside : copy.offset + layout.size (before.field object) ≤ after.old.cursor
  slots
    : ∀ index,
        layout.IsSlot (before.field object) index →
        after.field copy index = (move ⟨before.field object index⟩).raw
  others
    : ∀ index < layout.size (before.field object),
        ¬ layout.IsSlot (before.field object) index →
        after.field copy index = before.field object index

/-- The fixed object around an address is where it was, and unless it was forgotten its words hold what
their values became.
-/
structure Regions.Kept (move : Value → Value) (before after : Regions δ) (addr : Address)
    : Prop where
  same : move addr.toValue = addr.toValue
  object
    : ∃ begin occupant,
        before.fixed.containing? addr.offset = some begin
        ∧ before.fixed.occupant? begin = some occupant
        ∧ after.fixed.containing? addr.offset = some begin
        ∧ after.fixed.occupant? begin = some occupant
        ∧ (occupant.forgotten = false →
            ∀ index < occupant.words,
              after.cell .fixed (begin + index)
              = (move ⟨before.cell .fixed (begin + index)⟩).raw)

/-- The object at an address has left a tombstone that names another address. -/
def Regions.Buried (regions : Regions δ) (object other : Address) : Prop :=
  regions.field object 0 = 0 ∧ regions.field object 1 = other.raw

namespace World

/-- The values that were met have moved: roots and slots hold what they became, objects were copied or
kept as a whole, and what differed still differs, unless it led to a forgotten object and was cleared.
Birth objects have left tombstones.
-/
structure Relocates (contract : Contract σ) (met : Value → Prop) (move : Value → Value)
    (before after : World σ δ)
    : Prop where
  upholds : contract.Upholds after.host
  kept : contract.roots after.host = (contract.roots before.host).map move
  roots : ∀ root, after.heap.rootValue root = move (before.heap.rootValue root)
  tables : before.heap.SameTables after.heap
  old : after.heap.regions.old.space.isOld
  plain : ∀ value : Value, value.address? = none → move value = value
  moving
    : ∀ object : Address,
        object.Decodes →
        met object.toValue →
        object.space ≠ .fixed →
        ∃ copy, Regions.Copied contract.layout move before.heap.regions after.heap.regions object
          copy
  fixed
    : ∀ addr : Address,
        addr.Decodes →
        met addr.toValue →
        addr.space = .fixed →
        before.heap.regions.forgets addr ∧ move addr.toValue = .null
        ∨ Regions.Kept move before.heap.regions after.heap.regions addr
  injective
    : ∀ first second,
        met first →
        met second →
        before.heap.regions.clears first = false →
        before.heap.regions.clears second = false →
        move first = move second →
        first = second
  apart
    : ∀ first second copy other : Address,
        first.Decodes →
        second.Decodes →
        met first.toValue →
        met second.toValue →
        first.space ≠ .fixed →
        second.space ≠ .fixed →
        first ≠ second →
        Regions.Copied contract.layout move before.heap.regions after.heap.regions first copy →
        Regions.Copied contract.layout move before.heap.regions after.heap.regions second other →
        copy.offset + contract.layout.size (before.heap.regions.field first) ≤ other.offset
        ∨ other.offset + contract.layout.size (before.heap.regions.field second) ≤ copy.offset
  buried
    : ∀ object copy : Address,
        object.Decodes →
        met object.toValue →
        object.space = .birth →
        Regions.Copied contract.layout move before.heap.regions after.heap.regions object copy →
        after.heap.regions.Buried object copy

section Relocates

variable {contract : Contract σ} {start : Value → Prop} {move : Value → Value}
  {before after : World σ δ}
  (relocates
    : Relocates contract (before.heap.regions.Traced contract.layout true start) move before after)

include relocates

/-- What a value became leads into the birth region from nowhere. -/
theorem Relocates.isBirth_move {value : Value}
    (met : before.heap.regions.Traced contract.layout true start value)
    : (move value).isBirth = false := by
  cases found : value.address? with
  | none =>
      rw [relocates.plain value found]
      simp [Value.isBirth, found]
  | some addr =>
      have valid := Value.decodes_of_address? found
      rw [← Value.toValue_of_address? found] at met ⊢
      by_cases fixed : addr.space = .fixed
      · rcases relocates.fixed addr valid met fixed with ⟨-, null⟩ | kept
        · rw [null]
          rfl
        · rw [kept.same]
          simp [Value.isBirth, Value.address?_toValue valid, fixed]
      · obtain ⟨copy, copied⟩ := relocates.moving addr valid met fixed
        have old := relocates.old
        rw [copied.same, Value.isBirth, Value.address?_toValue copied.valid, Option.any_some,
          copied.space]
        cases here : after.heap.regions.old.space <;> simp_all [Space.isOld]

/-- A value that became an address was one: of a fixed object that was kept, or of an object that was
copied there.
-/
theorem Relocates.of_move {value : Value} {addr : Address} (valid : addr.Decodes)
    (met : before.heap.regions.Traced contract.layout true start value)
    (became : move value = addr.toValue)
    : addr.space = .fixed ∧ value = addr.toValue
        ∧ Regions.Kept move before.heap.regions after.heap.regions addr
      ∨ addr.space ≠ .fixed
        ∧ ∃ object : Address,
            object.Decodes
            ∧ value = object.toValue
            ∧ object.space ≠ .fixed
            ∧ Regions.Copied contract.layout move before.heap.regions after.heap.regions object
              addr := by
  have target := Value.address?_toValue valid
  cases found : value.address? with
  | none =>
      rw [relocates.plain value found] at became
      rw [became, target] at found
      cases found
  | some object =>
      have decodes := Value.decodes_of_address? found
      obtain rfl : object.toValue = value := Value.toValue_of_address? found
      by_cases fixed : object.space = .fixed
      · rcases relocates.fixed object decodes met fixed with ⟨-, null⟩ | kept
        · rw [became] at null
          rw [null] at target
          cases target
        · have same := kept.same.symm.trans became
          obtain rfl : object = addr := by
            rw [← Option.some.injEq, ← Value.address?_toValue decodes, same, target]
          exact Or.inl ⟨fixed, rfl, kept⟩
      · obtain ⟨copy, copied⟩ := relocates.moving object decodes met fixed
        have same := copied.same.symm.trans became
        obtain rfl : copy = addr := by
          rw [← Option.some.injEq, ← Value.address?_toValue copied.valid, same, target]
        have old := relocates.old
        refine Or.inr ⟨fun here => ?_, object, decodes, rfl, fixed, copied⟩
        rw [← copied.space, here] at old
        cases old

section Coherent

variable
  (coherent
    : before.heap.regions.Coherent contract.layout
        (before.heap.regions.Traced contract.layout true start))
  (heads
    : ∀ addr : Address,
        addr.Decodes →
        before.heap.regions.Traced contract.layout true start addr.toValue →
        addr.space ≠ .fixed →
        contract.layout.IsSlot (before.heap.regions.field addr) 0 →
        before.heap.regions.clears ⟨before.heap.regions.field addr 0⟩ = false)

/-- A value that is not cleared does not become null, unless it is. -/
theorem Relocates.move_ne_null {value : Value}
    (met : before.heap.regions.Traced contract.layout true start value)
    (stays : before.heap.regions.clears value = false) (present : value ≠ .null)
    : move value ≠ .null := by
  cases found : value.address? with
  | none => rwa [relocates.plain value found]
  | some addr =>
      have valid := Value.decodes_of_address? found
      obtain rfl : addr.toValue = value := Value.toValue_of_address? found
      by_cases fixed : addr.space = .fixed
      · rcases relocates.fixed addr valid met fixed with ⟨forgotten, -⟩ | kept
        · simp [Regions.clears, found, fixed, forgotten] at stays
        · rwa [kept.same]
      · obtain ⟨copy, copied⟩ := relocates.moving addr valid met fixed
        rw [copied.same]
        intro null
        have target := Value.address?_toValue copied.valid
        rw [null] at target
        cases target

include coherent heads

/-- A copy is laid out like the object it was made of. -/
theorem Relocates.layout_copied {object copy : Address} (valid : object.Decodes)
    (met : before.heap.regions.Traced contract.layout true start object.toValue)
    (moves : object.space ≠ .fixed)
    (copied
      : Regions.Copied contract.layout move before.heap.regions after.heap.regions object copy)
    : contract.layout.IsObject (after.heap.regions.field copy)
      ∧ contract.layout.size (after.heap.regions.field copy)
        = contract.layout.size (before.heap.regions.field object)
      ∧ ∀ index,
          contract.layout.IsSlot (after.heap.regions.field copy) index
          ↔ contract.layout.IsSlot (before.heap.regions.field object) index := by
  have isObject := (coherent.object object valid met moves).2.1
  refine contract.layout.agree isObject copied.others ?_
  have first := contract.layout.first_ne_zero isObject
  by_cases slot : contract.layout.IsSlot (before.heap.regions.field object) 0
  · rw [copied.slots 0 slot]
    have holds := coherent.met_slot valid met moves slot
    have present : (Value.mk (before.heap.regions.field object 0)) ≠ .null := fun null =>
      first (congrArg Value.raw null)
    exact fun null => relocates.move_ne_null holds (heads object valid met moves slot) present
      (congrArg Value.mk null)
  · have large := contract.layout.two_le_size isObject
    rwa [copied.others 0 (by omega) slot]

/-- What can be reached afterwards is what the values that were met became, by induction over the
path.
-/
theorem Relocates.met_of_reached (roots : ∀ value, before.Rooted contract value → start value)
    {value : Value} (reached : after.Reached contract value)
    : ∃ former,
        before.heap.regions.Traced contract.layout true start former ∧ move former = value := by
  induction reached with
  | start root =>
      cases root with
      | root root => exact ⟨_, .start (roots _ (.root root)), (relocates.roots root).symm⟩
      | kept member =>
          rw [relocates.kept] at member
          obtain ⟨former, kept, same⟩ := List.mem_map.mp member
          exact ⟨former, .start (roots _ (.kept kept)), same⟩
  | @field addr index valid _ moves slot ih =>
      obtain ⟨former, met, became⟩ := ih
      rcases relocates.of_move valid met became with ⟨fixed, -, -⟩ | ⟨-, object, decodes, rfl,
        notFixed, copied⟩
      · have old := relocates.old
        simp only [Regions.moves, fixed, Bool.true_and, Bool.or_eq_true, beq_iff_eq] at moves
        rcases moves with birth | same
        · cases birth
        · rw [← same] at old
          cases old
      · obtain ⟨-, -, slots⟩ := relocates.layout_copied coherent heads decodes met notFixed copied
        have slot' := (slots index).mp slot
        exact ⟨_, coherent.met_slot decodes met notFixed slot',
          congrArg Value.mk (copied.slots index slot').symm⟩
  | @payload addr begin index occupant valid _ _ fixed covers found known inside ih =>
      obtain ⟨former, met, became⟩ := ih
      rcases relocates.of_move valid met became with ⟨-, rfl, kept⟩ | ⟨moving, -⟩
      · obtain ⟨begin', occupant', covers', found', covers'', found'', words⟩ := kept.object
        rw [covers, Option.some.injEq] at covers''
        subst covers''
        rw [found, Option.some.injEq] at found''
        subst found''
        exact ⟨_, .payload valid met rfl fixed covers' found' known inside,
          congrArg Value.mk (words known index inside).symm⟩
      · exact absurd fixed moving

/-- What can be reached afterwards is well-formed. -/
theorem Relocates.coherent_reached (roots : ∀ value, before.Rooted contract value → start value)
    : after.heap.regions.Coherent contract.layout (after.Reached contract) where
  object addr valid reached notFixed := by
    obtain ⟨former, met, became⟩ := relocates.met_of_reached coherent heads roots reached
    rcases relocates.of_move valid met became with ⟨fixed, -⟩ | ⟨-, object, decodes, rfl, moves,
      copied⟩
    · exact absurd fixed notFixed
    · obtain ⟨isObject, size, -⟩ := relocates.layout_copied coherent heads decodes met moves copied
      have old := relocates.old
      have later : addr.space ≠ .birth := by
        rw [copied.space]
        intro birth
        rw [birth] at old
        cases old
      refine ⟨?_, isObject, ?_⟩
      · simp [Regions.moves, copied.space]
      · rw [size, Regions.limit, if_neg later]
        exact copied.inside
  apart first second valid valid' reached reached' same notFixed differs := by
    obtain ⟨former, met, became⟩ := relocates.met_of_reached coherent heads roots reached
    obtain ⟨other, met', became'⟩ := relocates.met_of_reached coherent heads roots reached'
    rcases relocates.of_move valid met became with ⟨fixed, -⟩ | ⟨-, object, decodes, rfl, moves,
      copied⟩
    · exact absurd fixed notFixed
    rcases relocates.of_move valid' met' became' with ⟨fixed, -⟩ | ⟨-, object', decodes', rfl,
      moves', copied'⟩
    · exact absurd (same.trans fixed) notFixed
    obtain ⟨-, size, -⟩ := relocates.layout_copied coherent heads decodes met moves copied
    obtain ⟨-, size', -⟩ := relocates.layout_copied coherent heads decodes' met' moves' copied'
    rw [size, size']
    refine relocates.apart object object' first second decodes decodes' met met' moves moves' ?_
      copied copied'
    rintro rfl
    have same := copied.same.symm.trans copied'.same
    refine differs ?_
    rw [← Option.some.injEq, ← Value.address?_toValue valid, same, Value.address?_toValue valid']
  live addr valid reached fixed := by
    obtain ⟨former, met, became⟩ := relocates.met_of_reached coherent heads roots reached
    rcases relocates.of_move valid met became with ⟨-, -, kept⟩ | ⟨moving, -⟩
    · obtain ⟨begin, occupant, -, -, covers, -⟩ := kept.object
      simp [covers]
    · exact absurd fixed moving

/-- No reference that a copy begins with is to be cleared. -/
theorem Relocates.heads_reached (roots : ∀ value, before.Rooted contract value → start value)
    {addr : Address} (valid : addr.Decodes) (reached : after.Reached contract addr.toValue)
    (notFixed : addr.space ≠ .fixed)
    (slot : contract.layout.IsSlot (after.heap.regions.field addr) 0)
    : after.heap.regions.clears ⟨after.heap.regions.field addr 0⟩ = false := by
  obtain ⟨former, met, became⟩ := relocates.met_of_reached coherent heads roots reached
  rcases relocates.of_move valid met became with ⟨fixed, -⟩ | ⟨-, object, decodes, rfl, moves,
    copied⟩
  · exact absurd fixed notFixed
  obtain ⟨-, -, slots⟩ := relocates.layout_copied coherent heads decodes met moves copied
  have slot' := (slots 0).mp slot
  have stays := heads object decodes met moves slot'
  have holds := coherent.met_slot decodes met moves slot'
  rw [copied.slots 0 slot']
  -- What the slot holds afterwards is an address only if it was one before.
  by_contra clears
  simp only [Bool.not_eq_false, Regions.clears, Option.any_eq_true] at clears
  obtain ⟨target, found, leads⟩ := clears
  simp only [Bool.and_eq_true, beq_iff_eq] at leads
  have decodes' := Value.decodes_of_address? found
  rcases relocates.of_move decodes' holds (Value.toValue_of_address? found).symm with
    ⟨fixed, same, kept⟩ | ⟨moving, -⟩
  · obtain ⟨begin, occupant, covers, held, covers', held', -⟩ := kept.object
    have gave := leads.2
    simp only [Regions.forgets, Regions.occupantAt?, covers', held', Option.bind_some] at gave
    have before' : before.heap.regions.forgets target := by
      simpa [Regions.forgets, Regions.occupantAt?, covers, held] using gave
    rw [same] at stays
    simp [Regions.clears, Value.address?_toValue decodes', fixed, before'] at stays
  · exact moving leads.1

end Coherent

end Relocates

end World

end MovingHeap
