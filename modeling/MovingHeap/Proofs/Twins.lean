import MovingHeap.Proofs.MinorCollection
import MovingHeap.Proofs.OrderedCollections

/-! A heap before and after a minor collection, as a full collection traverses it.
Each object that can be reached has a twin where the minor collection left it, which holds what its
values became. So the two traversals come upon the same, step by step, whatever else the minor collection
promoted.
-/

namespace MovingHeap

variable {σ δ : Type}

namespace World

/-- A moving object that was met and where it is after a minor collection. -/
structure Twins (contract : Contract σ) (move : Value → Value) (world middle : World σ δ)
    (object copy : Address)
    : Prop where
  valid : object.Decodes
  met : world.Met contract [] object.toValue
  notFixed : object.space ≠ .fixed
  copied
    : Regions.Copied contract.layout move world.heap.regions middle.heap.regions object copy

/-- Two tours have come upon the same: the objects moved are twins, in the same order, the fixed objects
are the same, and what those hold that wait was met.
-/
structure InStep (contract : Contract σ) (move : Value → Value) (world middle : World σ δ)
    (tour image : Tour)
    : Prop where
  moved : List.Forall₂ (world.Twins contract move middle) tour.moved image.moved
  marked : image.marked = tour.marked
  waiting : image.waiting = tour.waiting
  followed
    : ∀ begin ∈ tour.waiting,
        ∀ occupant,
          world.heap.regions.fixed.occupant? begin = some occupant →
          ∀ index < occupant.words,
            world.Met contract [] ⟨world.heap.regions.cell .fixed (begin + index)⟩

variable {contract : Contract σ} {move : Value → Value} {world middle : World σ δ}

/-- The twin of an object moves in a full collection. -/
theorem Twins.moves {object copy : Address} (twins : world.Twins contract move middle object copy)
    : middle.heap.regions.moves true copy.space := by
  simp [Regions.moves, twins.copied.space]

section Promotes

variable (sound : world.Sound contract) (promotes : world.Promotes contract move middle)

include promotes

/-- An object has one twin, and is the twin of one object. -/
theorem Promotes.biUnique_twins : Relator.BiUnique (world.Twins contract move middle) where
  left object copy other left right := by
    have rests : ∀ {object copy}, world.Twins contract move middle object copy →
        world.heap.regions.clears object.toValue = false := by
      intro object copy twins
      simp [Regions.clears, Value.address?_toValue twins.valid, twins.notFixed]
    exact Pass.eq_of_toValue left.valid right.valid
      (promotes.injective _ _ left.met right.met (rests left) (rests right)
        (left.copied.same.trans right.copied.same.symm))
  right object first second left right :=
    Pass.eq_of_toValue left.copied.valid right.copied.valid
      (left.copied.same.symm.trans right.copied.same)

/-- Fixed objects are where they were. -/
theorem Promotes.containing? (offset : Nat)
    : middle.heap.regions.fixed.containing? offset
      = world.heap.regions.fixed.containing? offset := by
  simp only [FixedSpace.containing?, promotes.slots]

/-- Fixed objects are what they were. -/
theorem Promotes.occupant? (begin : Nat)
    : middle.heap.regions.fixed.occupant? begin = world.heap.regions.fixed.occupant? begin := by
  simp only [FixedSpace.occupant?, FixedSpace.slot?, promotes.slots]

/-- As many fixed objects were forgotten. -/
theorem Promotes.forgets (addr : Address)
    : middle.heap.regions.forgets addr = world.heap.regions.forgets addr := by
  simp only [Regions.forgets, Regions.occupantAt?, promotes.containing?, promotes.occupant?]

/-- Nothing moves out of the fixed space after a minor collection either. -/
theorem Promotes.not_moves_fixed : middle.heap.regions.moves true .fixed = false := by
  have old := promotes.old
  rw [Bool.eq_false_iff]
  intro moves
  simp only [Regions.moves, Bool.true_and, Bool.or_eq_true, beq_iff_eq, reduceCtorEq,
    false_or] at moves
  rw [← moves] at old
  cases old

/-- A moving object that was met has a twin. -/
theorem Promotes.exists_twin {object : Address} (valid : object.Decodes)
    (met : world.Met contract [] object.toValue) (notFixed : object.space ≠ .fixed)
    : ∃ copy, world.Twins contract move middle object copy := by
  obtain ⟨copy, copied⟩ := promotes.moving object valid met notFixed
  exact ⟨copy, valid, met, notFixed, copied⟩

include sound

/-- Coming upon a value and upon what it became does the same. -/
theorem InStep.meet {tour image : Tour}
    (inStep : world.InStep contract move middle tour image) {value : Value}
    (met : world.Met contract [] value)
    : world.InStep contract move middle (world.heap.regions.meet true tour value)
        (middle.heap.regions.meet true image (move value)) := by
  cases found : value.address? with
  | none =>
      rw [promotes.plain value found]
      simpa only [Regions.meet, found] using inStep
  | some addr =>
      have valid := Value.decodes_of_address? found
      obtain rfl : addr.toValue = value := Value.toValue_of_address? found
      by_cases fixed : addr.space = .fixed
      · have rests : world.heap.regions.moves true .fixed = false := by
          rw [Bool.eq_false_iff]
          exact fun moves => sound.regular.apart.ne_fixed moves rfl
        have same : move addr.toValue = addr.toValue :=
          promotes.stays addr valid (by simp [fixed])
        simp only [Regions.meet, same, Value.address?_toValue valid, fixed, rests,
          promotes.not_moves_fixed, promotes.forgets, promotes.containing?, inStep.marked,
          inStep.waiting]
        cases forgets : world.heap.regions.forgets addr with
        | true => simpa using inStep
        | false =>
            cases covers : world.heap.regions.fixed.containing? addr.offset with
            | none => simpa using inStep
            | some begin =>
                by_cases already : begin ∈ tour.marked
                · simpa [already] using inStep
                · simp only [already, Bool.false_eq_true, if_false, Bool.not_false, Bool.true_and,
                    beq_self_eq_true, if_true]
                  refine ⟨inStep.moved, rfl, rfl, fun start member occupant there index inside => ?_⟩
                  rcases List.mem_cons.mp member with rfl | earlier
                  · rw [Pass.forgets_eq covers there] at forgets
                    exact .payload valid met rfl fixed covers there forgets inside
                  · exact inStep.followed start earlier occupant there index inside
      · obtain ⟨copy, twins⟩ := promotes.exists_twin valid met fixed
        have moves := (sound.wellFormed.coherent.object addr valid met fixed).1
        have listed : addr ∈ tour.moved ↔ copy ∈ image.moved :=
          List.rel_mem promotes.biUnique_twins twins inStep.moved
        simp only [Regions.meet, twins.copied.same, Value.address?_toValue valid,
          Value.address?_toValue twins.copied.valid, moves, twins.moves, if_true, listed]
        by_cases already : copy ∈ image.moved
        · simpa [already] using inStep
        · simp only [already, if_false]
          exact ⟨List.rel_append inStep.moved (.cons twins .nil), inStep.marked, inStep.waiting,
            inStep.followed⟩

/-- Coming upon values and upon what they became does the same, by one after another. -/
theorem InStep.foldl {tour image : Tour}
    (inStep : world.InStep contract move middle tour image) {values : List Value}
    (met : ∀ value ∈ values, world.Met contract [] value)
    : world.InStep contract move middle (values.foldl (world.heap.regions.meet true) tour)
        ((values.map move).foldl (middle.heap.regions.meet true) image) := by
  induction values generalizing tour image with
  | nil => exact inStep
  | cons value values ih =>
      exact ih (inStep.meet sound promotes (met value List.mem_cons_self)) fun other member =>
        met other (List.mem_cons_of_mem _ member)

section Values

variable (order : VisitingOrder contract.layout)

/-- The slots of a twin hold what the values in the slots of the object became, in the same order. -/
theorem Twins.slotValues {object copy : Address}
    (twins : world.Twins contract move middle object copy)
    : (∀ value ∈ world.heap.regions.slotValues order object, world.Met contract [] value)
      ∧ middle.heap.regions.slotValues order copy
        = (world.heap.regions.slotValues order object).map move := by
  have coherent := sound.wellFormed.coherent
  obtain ⟨-, isObject, -⟩ := coherent.object object twins.valid twins.met twins.notFixed
  obtain ⟨isCopy, -, -⟩ := promotes.toRelocates.layout_copied coherent sound.wellFormed.heads
    twins.valid twins.met twins.notFixed twins.copied
  have same := order.agree isObject twins.copied.others (contract.layout.first_ne_zero isCopy)
  constructor
  · intro value member
    obtain ⟨index, listed, rfl⟩ := List.mem_map.mp member
    exact coherent.met_slot twins.valid twins.met twins.notFixed (order.isSlot isObject listed)
  · rw [Regions.slotValues, Regions.slotValues, same, List.map_map]
    refine List.map_congr_left fun index listed => ?_
    exact congrArg Value.mk (twins.copied.slots index (order.isSlot isObject listed))

omit sound in
/-- The words of a fixed object hold what their values became, in the same order. -/
theorem Promotes.payloadValues {begin : Nat} {occupant : Occupant δ}
    (found : world.heap.regions.fixed.occupant? begin = some occupant)
    : middle.heap.regions.payloadValues order begin occupant
      = (world.heap.regions.payloadValues order begin occupant).map move := by
  rw [Regions.payloadValues, Regions.payloadValues, List.map_map]
  refine List.map_congr_left fun index listed => ?_
  exact congrArg Value.mk (promotes.payloads begin occupant found index (order.inside listed))

/-- Traversals that begin in step end in step, by induction along one of them. -/
theorem InStep.traverses {scanned : Nat} {tour image final last : Tour}
    (inStep : world.InStep contract move middle tour image)
    (traverses : world.heap.regions.Traverses order scanned tour final)
    (follows : middle.heap.regions.Traverses order scanned image last)
    : world.InStep contract move middle final last := by
  induction traverses generalizing image with
  | @done _ tour all none =>
      have length := inStep.moved.length_eq
      cases follows with
      | done => exact inStep
      | moved next =>
          rw [List.getElem?_eq_none (by omega)] at next
          cases next
      | marked _ waits =>
          rw [inStep.waiting, none] at waits
          cases waits
  | @moved scanned tour final object next rest ih =>
      have length := inStep.moved.length_eq
      obtain ⟨inside, here⟩ := List.getElem?_eq_some_iff.mp next
      cases follows with
      | done all => omega
      | @moved _ _ _ copy next' rest' =>
          obtain ⟨inside', here'⟩ := List.getElem?_eq_some_iff.mp next'
          have twins := (List.forall₂_iff_get.mp inStep.moved).2 scanned inside inside'
          simp only [List.get_eq_getElem, here, here'] at twins
          obtain ⟨met, values⟩ := twins.slotValues sound promotes order
          rw [values] at rest'
          exact ih (inStep.foldl sound promotes met) rest'
      | marked all => omega
  | @marked scanned tour final begin others occupant all waits found rest ih =>
      have length := inStep.moved.length_eq
      cases follows with
      | done _ none =>
          rw [inStep.waiting, waits] at none
          cases none
      | moved next =>
          rw [List.getElem?_eq_none (by omega)] at next
          cases next
      | @marked _ _ _ begin' others' occupant' all' waits' found' rest' =>
          rw [inStep.waiting, waits] at waits'
          cases waits'
          rw [promotes.occupant?, found] at found'
          cases found'
          rw [promotes.payloadValues order found] at rest'
          have popped : world.InStep contract move middle { tour with waiting := others }
              { image with waiting := others } :=
            ⟨inStep.moved, inStep.marked, rfl, fun start member =>
              inStep.followed start (by rw [waits]; exact List.mem_cons_of_mem _ member)⟩
          refine ih (popped.foldl sound promotes fun value member => ?_) rest'
          obtain ⟨index, listed, rfl⟩ := List.mem_map.mp member
          exact inStep.followed begin (by simp [waits]) occupant found index
            (order.inside listed)

omit sound in
/-- A full collection after a minor one starts from what the values became that it would have started
from before.
-/
theorem Promotes.rootValues
    : middle.rootValues contract = (world.rootValues contract).map move := by
  have kinds := promotes.tables.rootsOf
  have listed : middle.heap.fullRoots = world.heap.fullRoots := by
    have frames := kinds .slot
    have thrown := kinds .pending
    have loaded := kinds .module
    have global := kinds .constant
    simp only [Heap.rootsOf] at frames thrown loaded global
    simp only [Heap.fullRoots, frames, thrown, loaded, global]
  rw [World.rootValues, World.rootValues, listed, promotes.kept, List.map_append, List.map_map]
  exact congrArg (· ++ _) (List.map_congr_left fun root _ => promotes.roots root)

/-- A full collection before a minor one and after it traverse the same. -/
theorem Promotes.inStep {tour image : Tour}
    (traverses
      : world.heap.regions.Traverses order 0
          ((world.rootValues contract).foldl (world.heap.regions.meet true) {}) tour)
    (follows
      : middle.heap.regions.Traverses order 0
          ((middle.rootValues contract).foldl (middle.heap.regions.meet true) {}) image)
    : world.InStep contract move middle tour image := by
  have begun : world.InStep contract move middle {} {} := ⟨.nil, rfl, rfl, nofun⟩
  refine InStep.traverses sound promotes order (begun.foldl sound promotes fun value member => ?_)
    traverses (promotes.rootValues ▸ follows)
  refine .start (.rooted ?_)
  rcases List.mem_append.mp member with listed | kept
  · obtain ⟨root, -, rfl⟩ := List.mem_map.mp listed
    exact .root root
  · exact .kept kept

end Values

end Promotes

end World

end MovingHeap
