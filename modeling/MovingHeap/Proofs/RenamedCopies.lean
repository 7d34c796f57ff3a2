import MovingHeap.Proofs.BarrierRuns
import MovingHeap.Proofs.Guarantees
import MovingHeap.Proofs.Promotions
import Mathlib.Data.Set.Function

/-! Minor collections of two heaps that differ in their records only.
They promote the same objects, but the order in which slots were recorded is the order in which objects
are copied, so a copy may lie elsewhere. The heaps are the same once the copies are renamed.
-/

namespace MovingHeap

variable {σ δ : Type}

-----------------------------------------------------------------------------------------
-- What copies are renamed to
-----------------------------------------------------------------------------------------

/-- The values that lead to the copies of objects. -/
def copiesOf (objects : List Address) (move : Value → Value) : List Value :=
  objects.map fun object => move object.toValue

/-- What leads to the copy of an object leads to where else it was copied; other values stay what they
are.
-/
def renamed (objects : List Address) (move move' : Value → Value) (value : Value) : Value :=
  match objects.find? fun object => move object.toValue = value with
  | some object => move' object.toValue
  | none => value

/-- What leads to no copy stays. -/
theorem renamed_elsewhere {objects : List Address} {move move' : Value → Value} {value : Value}
    (elsewhere : value ∉ copiesOf objects move)
    : renamed objects move move' value = value := by
  have none : (objects.find? fun object => move object.toValue = value) = none := by
    rw [List.find?_eq_none]
    intro object member same
    exact elsewhere (List.mem_map.mpr ⟨object, member, by simpa using same⟩)
  rw [renamed, none]

/-- What leads to a copy leads to the other one. -/
theorem renamed_copy {objects : List Address} {move move' : Value → Value}
    (injective
      : ∀ first ∈ objects, ∀ second ∈ objects,
          move first.toValue = move second.toValue → first = second)
    {object : Address} (member : object ∈ objects)
    : renamed objects move move' (move object.toValue) = move' object.toValue := by
  unfold renamed
  split
  next other found =>
    have same : move other.toValue = move object.toValue := by
      simpa using List.find?_some found
    rw [injective other (List.mem_of_find?_eq_some found) object member same]
  next none =>
    rw [List.find?_eq_none] at none
    exact absurd (by simp) (none object member)

-----------------------------------------------------------------------------------------
-- Heaps up to a renaming
-----------------------------------------------------------------------------------------

/-- Memory without its words. -/
def Regions.wordless (regions : Regions δ) : Regions δ :=
  { regions with
    birth := { regions.birth with words := regions.birth.words.outline }
    old := { regions.old with words := regions.old.words.outline }
    fixed := { regions.fixed with arena := regions.fixed.arena.outline } }

/-- The heap without the words of memory and what the roots hold, and without the flag and the counters
that go with duplicates.
-/
def Heap.wordless (heap : Heap δ) : Heap δ :=
  { heap with
    config := heap.withoutRecords.config
    regions := heap.regions.wordless
    frames := heap.frames.outline
    handlers := heap.handlers.outline
    modules := { heap.modules with entries := ∅ }
    constants := { heap.constants with slots := heap.constants.slots.outline }
    counters := heap.withoutRecords.counters }

namespace World

/-- After minor collections, two worlds are the same up to a renaming of the copies: each holds the
copies of the other under other names, with the same words, and wherever a birth reference was held each
holds what leads to the copy. All other allocated words are the same, and so is what there is besides
words and roots.
-/
structure SameUpToRenaming (contract : Contract σ) (before : World σ δ) (rename : Value → Value)
    (copies others : List Value) (first second : World σ δ)
    : Prop where
  bijective : Set.BijOn rename {value | value ∈ copies} {value | value ∈ others}
  elsewhere : ∀ value, value ∉ copies → rename value = value
  roots : ∀ root, second.heap.rootValue root = rename (first.heap.rootValue root)
  kept : contract.roots second.host = (contract.roots first.host).map rename
  copied
    : ∀ value ∈ copies,
        ∃ copy other : Address,
          copy.Decodes
          ∧ copy.toValue = value
          ∧ Regions.Copied contract.layout rename first.heap.regions second.heap.regions copy other
  young
    : ∀ space offset,
        before.heap.regions.Slot contract.layout space offset →
        (Value.mk (before.heap.regions.cell space offset)).isBirth →
        second.heap.regions.cell space offset
        = (rename ⟨first.heap.regions.cell space offset⟩).raw
  stays
    : ∀ space offset,
        before.Stays space offset →
        ¬ (before.heap.regions.Slot contract.layout space offset
          ∧ (Value.mk (before.heap.regions.cell space offset)).isBirth) →
        second.heap.regions.cell space offset = first.heap.regions.cell space offset
  tables : first.heap.SameTables second.heap
  rest : second.heap.wordless = first.heap.wordless

/-- Minor collections of two worlds have promoted the same objects and as many bytes, and have left the
same up to a renaming of the copies.
-/
def PromoteAlike (contract : Contract σ) (first second after after' : World σ δ) : Prop :=
  ∃ objects objects' move move',
    first.PromotesAll contract objects move after
    ∧ second.PromotesAll contract objects' move' after'
    ∧ objects.Perm objects'
    ∧ after'.heap.counters.lastCopied = after.heap.counters.lastCopied
    ∧ after'.heap.counters.totalPromoted = after.heap.counters.totalPromoted
    ∧ SameUpToRenaming contract first (renamed objects move move') (copiesOf objects move)
        (copiesOf objects' move') after after'

variable {contract : Contract σ} {first second after after' : World σ δ}

/-- A value that does not lead into the birth region stays what it is. -/
theorem Promotes.still {move : Value → Value} (promotes : first.Promotes contract move after)
    {value : Value} (rests : value.isBirth = false)
    : move value = value := by
  cases found : value.address? with
  | none => exact promotes.plain value found
  | some addr =>
      have same := Value.toValue_of_address? found
      rw [Value.isBirth, found, Option.any_some, beq_eq_false_iff_ne] at rests
      rw [← same]
      exact promotes.stays addr (Value.decodes_of_address? found) rests

/-- What became of a value in the one collection leads to what became of it in the other. -/
theorem PromotesAll.renamed_move {objects objects' : List Address} {move move' : Value → Value}
    (promotes : first.PromotesAll contract objects move after)
    (promotes' : second.PromotesAll contract objects' move' after') {value : Value}
    (met : first.Met contract [] value)
    : renamed objects move move' (move value) = move' value := by
  have injective : ∀ left ∈ objects, ∀ right ∈ objects,
      move left.toValue = move right.toValue → left = right := by
    intro left member right member' equal
    obtain ⟨valid, -, there⟩ := (promotes.members left).mp member
    obtain ⟨valid', -, there'⟩ := (promotes.members right).mp member'
    exact Pass.eq_of_toValue valid valid' (promotes.toPromotes.inj there there' equal)
  by_cases moves : ∃ object ∈ objects, object.toValue = value
  · obtain ⟨object, member, rfl⟩ := moves
    exact renamed_copy injective member
  -- What was not promoted is where it was, and no copy leads there.
  · have elsewhere : move value ∉ copiesOf objects move := by
      intro member
      obtain ⟨object, inside, equal⟩ := List.mem_map.mp member
      obtain ⟨-, -, there⟩ := (promotes.members object).mp inside
      exact moves ⟨object, inside, promotes.toPromotes.inj there met equal⟩
    have rests : value.isBirth = false := by
      rw [Bool.eq_false_iff]
      intro birth
      obtain ⟨object, refers, young⟩ := (Option.any_eq_true _ _).mp birth
      have here := Value.toValue_of_address? refers
      refine moves ⟨object, (promotes.members object).mpr ⟨?_, by simpa using young, ?_⟩, here⟩
      · exact Value.decodes_of_address? refers
      · rwa [here]
    rw [renamed_elsewhere elsewhere, promotes.toPromotes.still rests, promotes'.toPromotes.still rests]

/-- What a minor collection makes of memory but for the words: the birth region is empty, what was
promoted was taken in the old region, and no fixed object is fresh.
-/
theorem PromotesAll.regions_wordless {objects : List Address} {move : Value → Value}
    (promotes : first.PromotesAll contract objects move after) (regular : first.heap.Regular)
    : after.heap.regions.wordless
      = let before := first.heap.withoutRecords.regions.wordless
        { before with
          birth := { before.birth with cursor := 0 }
          old := { before.old with cursor := before.old.cursor + first.extentOf contract objects }
          fixed := { before.fixed with recent := [] }
          copied := first.extentOf contract objects } := by
  have later := promotes.collects.steady.toRegular
  have outline := promotes.outline
  simp only [Regions.outline, Regions.mk.injEq] at outline
  obtain ⟨birth, old, -, fixed, -, -⟩ := outline
  simp only [Regions.wordless, Regions.mk.injEq]
  refine ⟨birth, ?_, later.target.trans regular.target.symm, ?_,
    later.unscanned.trans regular.unscanned.symm, promotes.copied⟩
  · simp only [Semispace.outline, Semispace.mk.injEq] at old ⊢
    exact ⟨old.1, old.2.1, promotes.cursor⟩
  · simp only [FixedSpace.mk.injEq] at fixed ⊢
    exact ⟨fixed.1, fixed.2.1, promotes.slots, fixed.2.2.2.1, promotes.recent, fixed.2.2.2.2.2⟩

/-- What a minor collection makes of the heap but for words and roots depends on no record. -/
theorem PromotesAll.wordless {objects : List Address} {move : Value → Value}
    (promotes : first.PromotesAll contract objects move after) (regular : first.heap.Regular)
    : after.heap.wordless
      = let before := first.heap.withoutRecords.wordless
        { before with
          regions :=
            { before.regions with
              birth := { before.regions.birth with cursor := 0 }
              old :=
                { before.regions.old with
                  cursor := before.regions.old.cursor + first.extentOf contract objects }
              fixed := { before.regions.fixed with recent := [] }
              copied := first.extentOf contract objects }
          modules := { before.modules with watermark := 0 }
          constants := before.constants.clearDirty
          phase := .idle
          collections := before.collections + 1
          counters :=
            { before.counters with
              minorCollections := before.counters.minorCollections + 1
              totalPromoted :=
                before.counters.totalPromoted + first.extentOf contract objects * wordBytes
              lastCopied := first.extentOf contract objects * wordBytes } } := by
  have ends := congrArg Heap.wordless promotes.heap
  have tables := promotes.tables
  have capacity : after.heap.constants.slots.size = first.heap.constants.slots.size := tables.capacity
  have regions := promotes.regions_wordless regular
  rw [ends]
  simp only [Heap.wordless, Heap.mk.injEq]
  refine ⟨rfl, regions, tables.frames, tables.handlers, ?_, ?_, trivial, rfl, rfl, rfl, rfl⟩
  · simp only [ModuleTable.mk.injEq, promotes.collects.watermark, tables.limit]
    trivial
  · simp only [ConstantTable.mk.injEq, ConstantTable.clearDirty, Arena.outline, capacity,
      promotes.dirty]
    trivial

namespace SameAtRest

-----------------------------------------------------------------------------------------
-- Worlds that differ in their records
-----------------------------------------------------------------------------------------

section Sound

variable (same : first.SameAtRest second)

include same

theorem symm : second.SameAtRest first where
  host := same.host.symm
  heap := same.heap.symm
  words index below below' := (same.words index below' below).symm
  records word := (same.records word).symm
  idle := same.phase.trans same.idle
  steady := same.steady'
  steady' := same.steady

/-- All is the same but memory and counters. -/
theorem outside : first.SameOutside second where
  host := same.host
  frames := (congrArg Heap.frames same.heap :)
  handlers := (congrArg Heap.handlers same.heap :)
  modules := (congrArg Heap.modules same.heap :)
  constants := (congrArg Heap.constants same.heap :)

theorem cursor : second.heap.regions.birth.cursor = first.heap.regions.birth.cursor :=
  (congrArg (fun heap : Heap δ => heap.regions.birth.cursor) same.heap :)

variable (sound : first.Sound contract)

include sound

/-- Records lie behind every object that is met. -/
theorem birth_words {object : Address} (valid : object.Decodes)
    (met : first.Met contract [] object.toValue) (birth : object.space = .birth) {index : Nat}
    (inside : index < contract.layout.size (first.heap.regions.field object))
    : second.heap.regions.birth.words.get (object.offset + index)
      = first.heap.regions.birth.words.get (object.offset + index) := by
  have notFixed : object.space ≠ .fixed := by simp [birth]
  obtain ⟨-, -, below⟩ := sound.wellFormed.coherent.object object valid met notFixed
  rw [Regions.limit, if_pos birth] at below
  have spare := same.steady.spare
  have spare' := same.steady'.spare
  have cursor := same.cursor
  exact same.words _ (by omega) (by omega)

/-- Memory still has all that is met. -/
theorem preserves : Preserves contract [] first second.heap.regions := by
  rw [same.regions]
  exact preserves_birth sound.regular.apart (Nat.le_of_eq same.cursor.symm)
    fun _ valid met birth _ inside => same.birth_words sound valid met birth inside

/-- What is sound does not depend on how often and in which order slots are recorded. -/
theorem sound_other : second.Sound contract := by
  have apart := sound.regular.apart
  have wellFormed : second.WellFormed contract [] :=
    sound.wellFormed.of_birth apart same.outside same.regions (Nat.le_of_eq same.cursor.symm)
      (fun object valid met birth index inside => same.birth_words sound valid met birth inside)
      (fun raw member => Or.inl ((same.records raw).mp member)) fun _ => id
  refine ⟨⟨same.steady'.toRegular, wellFormed, ?_⟩, ?_⟩
  · exact generational_birth sound.generational apart same.outside same.regions
      fun raw member => (same.records raw).mpr member
  · rw [same.capacity, same.regions]
    exact sound.room

/-- What is met in the one world is met in the other. -/
theorem met {addr : Address} (valid : addr.Decodes) (met : second.Met contract [] addr.toValue)
    : first.Met contract [] addr.toValue :=
  met_of_plain valid (met_birth sound.wellFormed sound.regular.apart same.outside same.regions
    (Nat.le_of_eq same.cursor.symm)
    (fun _ valid met birth _ inside => same.birth_words sound valid met birth inside)
    (fun raw member => Or.inl ((same.records raw).mp member)) (fun _ => id) met)

theorem met_iff {addr : Address} (valid : addr.Decodes)
    : second.Met contract [] addr.toValue ↔ first.Met contract [] addr.toValue :=
  ⟨same.met sound valid, same.symm.met (same.sound_other sound) valid⟩

end Sound

-----------------------------------------------------------------------------------------
-- What is promoted
-----------------------------------------------------------------------------------------

section Promotes

variable {objects objects' : List Address} {move move' : Value → Value}
  (same : first.SameAtRest second) (sound : first.Sound contract)
  (promotes : first.PromotesAll contract objects move after)
  (promotes' : second.PromotesAll contract objects' move' after')

include same sound promotes promotes'

/-- The same objects are promoted, though maybe in another order. -/
theorem perm : objects.Perm objects' := by
  refine (List.perm_ext_iff_of_nodup promotes.nodup promotes'.nodup).mpr fun object => ?_
  rw [promotes.members, promotes'.members]
  refine and_congr_right fun valid => and_congr_right fun _ => ?_
  exact (same.met_iff sound valid).symm

/-- As many words are promoted. -/
theorem extent : second.extentOf contract objects' = first.extentOf contract objects := by
  have sizes : objects.map (fun object => contract.layout.size (second.heap.regions.field object))
      = objects.map fun object => contract.layout.size (first.heap.regions.field object) := by
    refine List.map_congr_left fun object member => ?_
    obtain ⟨valid, birth, met⟩ := (promotes.members object).mp member
    exact ((same.preserves sound).laidOut sound.wellFormed valid met (by simp [birth])).2.1
  have order := (same.perm sound promotes promotes').map fun object =>
    contract.layout.size (second.heap.regions.field object)
  rw [extentOf, extentOf, MovingHeap.extent, MovingHeap.extent, ← order.sum_eq, sizes]

/-- The copy of an object in the one collection is copied to that in the other. -/
theorem copied {object : Address} (member : object ∈ objects)
    : ∃ copy other : Address,
        copy.Decodes
        ∧ copy.toValue = move object.toValue
        ∧ Regions.Copied contract.layout (renamed objects move move') after.heap.regions
            after'.heap.regions copy other := by
  obtain ⟨valid, birth, met⟩ := (promotes.members object).mp member
  have notFixed : object.space ≠ .fixed := by simp [birth]
  have preserves := same.preserves sound
  have renames : ∀ {value}, first.Met contract [] value →
      renamed objects move move' (move value) = move' value := fun met =>
    promotes.renamed_move promotes' met
  obtain ⟨copy, here⟩ := promotes.moving object valid met notFixed
  obtain ⟨other, there⟩ := promotes'.moving object valid ((same.met_iff sound valid).mpr met) notFixed
  obtain ⟨-, size, slots⟩ := promotes.toRelocates.layout_copied sound.wellFormed.coherent
    sound.wellFormed.heads valid met notFixed here
  obtain ⟨-, size', slots'⟩ := preserves.laidOut sound.wellFormed valid met notFixed
  have isObject := (sound.wellFormed.coherent.object object valid met notFixed).2.1
  refine ⟨copy, other, here.valid, here.same.symm, ?_⟩
  refine
    { valid := there.valid
      same := by rw [← here.same, renames met, there.same]
      space := there.space
      inside := by
        rw [size, ← size']
        exact there.inside
      slots := fun index slot => ?_
      others := fun index inside plain => ?_ }
  · have slot' := (slots index).mp slot
    have within := contract.layout.slot_lt isObject slot'
    rw [here.slots index slot', there.slots index ((slots' index).mpr slot'),
      preserves.field sound.wellFormed valid met notFixed within]
    have holds := sound.wellFormed.coherent.met_slot valid met notFixed slot'
    exact congrArg Value.raw (renames holds).symm
  · rw [size] at inside
    have plain' := fun slot => plain ((slots index).mpr slot)
    rw [here.others index inside plain', there.others index (by omega)
      fun slot => plain' ((slots' index).mp slot)]
    exact preserves.field sound.wellFormed valid met notFixed inside

/-- Each copy is one of the same object in the other heap. -/
theorem bijective
    : Set.BijOn (renamed objects move move') {value | value ∈ copiesOf objects move}
        {value | value ∈ copiesOf objects' move'} := by
  have renames : ∀ object ∈ objects,
      renamed objects move move' (move object.toValue) = move' object.toValue := fun object member =>
    promotes.renamed_move promotes' ((promotes.members object).mp member).2.2
  have listed := fun object => (same.perm sound promotes promotes').mem_iff (a := object)
  refine ⟨fun value member => ?_, fun value member value' member' equal => ?_, fun value member => ?_⟩
  · obtain ⟨object, inside, rfl⟩ := List.mem_map.mp member
    rw [renames object inside]
    exact List.mem_map.mpr ⟨object, (listed object).mp inside, rfl⟩
  · obtain ⟨object, inside, rfl⟩ := List.mem_map.mp member
    obtain ⟨object', inside', rfl⟩ := List.mem_map.mp member'
    rw [renames object inside, renames object' inside'] at equal
    obtain ⟨-, -, met⟩ := (promotes'.members object).mp ((listed object).mp inside)
    obtain ⟨-, -, met'⟩ := (promotes'.members object').mp ((listed object').mp inside')
    rw [promotes'.toPromotes.inj met met' equal]
  · obtain ⟨object, inside, rfl⟩ := List.mem_map.mp member
    have inside' := (listed object).mpr inside
    exact ⟨move object.toValue, List.mem_map.mpr ⟨object, inside', rfl⟩, renames object inside'⟩

/-- A slot that held a birth reference holds what leads to the copy. -/
theorem young {space : Space} {offset : Nat}
    (slot : first.heap.regions.Slot contract.layout space offset)
    (birth : (Value.mk (first.heap.regions.cell space offset)).isBirth)
    : after'.heap.regions.cell space offset
      = (renamed objects move move' ⟨after.heap.regions.cell space offset⟩).raw := by
  have apart := sound.regular.apart
  have met : first.Met contract [] ⟨first.heap.regions.cell space offset⟩ :=
    .start (.noted (sound.generational.slots space offset slot birth))
  have slot' : second.heap.regions.Slot contract.layout space offset := by
    rw [same.regions]
    exact (Regions.slot_birth apart _).mpr slot
  have cell : second.heap.regions.cell space offset = first.heap.regions.cell space offset := by
    rw [same.regions]
    exact Regions.cell_birth _ _ (ne_birth_of_slot apart slot) offset
  rw [promotes'.slotted space offset slot', promotes.slotted space offset slot, cell]
  exact congrArg Value.raw (promotes.renamed_move promotes' met).symm

/-- All other words that stay where they were are the same. -/
theorem stays {space : Space} {offset : Nat} (stays : first.Stays space offset)
    (plain
      : ¬ (first.heap.regions.Slot contract.layout space offset
          ∧ (Value.mk (first.heap.regions.cell space offset)).isBirth))
    : after'.heap.regions.cell space offset = after.heap.regions.cell space offset := by
  have apart := sound.regular.apart
  have outside : space ≠ .birth := by
    rcases stays with ⟨rfl, -⟩ | ⟨rfl, -⟩
    · exact nofun
    · exact apart.old_ne_birth
  have cell : second.heap.regions.cell space offset = first.heap.regions.cell space offset := by
    rw [same.regions]
    exact Regions.cell_birth _ _ outside offset
  have slots : second.heap.regions.Slot contract.layout space offset
      ↔ first.heap.regions.Slot contract.layout space offset := by
    rw [same.regions]
    exact Regions.slot_birth apart _
  have stays' : second.Stays space offset := by
    rw [Stays, same.regions]
    exact stays
  by_cases slot : first.heap.regions.Slot contract.layout space offset
  · have rests : (Value.mk (first.heap.regions.cell space offset)).isBirth = false := by
      rw [Bool.eq_false_iff]
      exact fun birth => plain ⟨slot, birth⟩
    rw [promotes'.slotted space offset (slots.mpr slot), promotes.slotted space offset slot, cell,
      promotes.toPromotes.still rests, promotes'.toPromotes.still rests]
  · rw [promotes'.unslotted space offset stays' fun there => slot (slots.mp there),
      promotes.unslotted space offset stays slot, cell]

/-- The heaps are the same but for how the copies are called. -/
theorem renames
    : SameUpToRenaming contract first (renamed objects move move') (copiesOf objects move)
        (copiesOf objects' move') after after' where
  bijective := same.bijective sound promotes promotes'
  elsewhere _ := renamed_elsewhere
  roots root := by
    rw [promotes'.roots, promotes.roots, same.outside.rootValue]
    exact (promotes.renamed_move promotes' (.start (.rooted (.root root)))).symm
  kept := by
    rw [promotes'.kept, promotes.kept, same.host, List.map_map]
    refine List.map_congr_left fun value member => ?_
    exact (promotes.renamed_move promotes' (.start (.rooted (.kept member)))).symm
  copied value member := by
    obtain ⟨object, inside, rfl⟩ := List.mem_map.mp member
    exact same.copied sound promotes promotes' inside
  young _ _ := same.young sound promotes promotes'
  stays _ _ := same.stays sound promotes promotes'
  tables := by
    have tables := same.outside.tables
    exact promotes.tables.symm.trans (tables.trans promotes'.tables)
  rest := by
    have extent := same.extent sound promotes promotes'
    rw [promotes'.wordless same.steady'.toRegular, promotes.wordless sound.regular, same.heap, extent]

end Promotes

/-- Minor collections of worlds that differ in their records come to their ends and promote the same
objects and as many bytes, and what they leave is the same up to a renaming of the copies.
-/
theorem promoteAlike (same : first.SameAtRest second) (sound : first.Sound contract)
    (addressable : first.Addressable) {host : Host σ δ} (faithful : host.Traces contract)
    (reason : Reason)
    : Ends (Collector.minor host reason) first fun _ after =>
        Ends (Collector.minor host reason) second fun _ after' =>
          PromoteAlike contract first second after after' := by
  have addressable' : second.Addressable := by
    rw [Addressable, same.regions]
    exact addressable
  refine (sound.minor_promotes addressable faithful reason).mono fun _ after reached => ?_
  obtain ⟨objects, move, promotes⟩ := reached
  refine ((same.sound_other sound).minor_promotes addressable' faithful reason).mono
    fun _ after' reached' => ?_
  obtain ⟨objects', move', promotes'⟩ := reached'
  have rest := same.renames sound promotes promotes'
  refine ⟨objects, objects', move, move', promotes, promotes', same.perm sound promotes promotes',
    ?_, ?_, rest⟩
  · exact (congrArg (fun heap : Heap δ => heap.counters.lastCopied) rest.rest :)
  · exact (congrArg (fun heap : Heap δ => heap.counters.totalPromoted) rest.rest :)

end SameAtRest

end World

end MovingHeap
