import MovingHeap.Mutator.Queries
import MovingHeap.Proofs.Courses

/-! Where stale references into the birth region lead.
A collection leaves tombstones in the memory of the birth region, which stay until the memory is used
again. They name the copies that this collection made.
-/

namespace MovingHeap

variable {σ δ : Type}

namespace Regions

/-- A reference out of the birth region leads to no tombstone. -/
theorem tombstone?_of_later {regions : Regions δ} {addr : Address} (valid : addr.Decodes)
    (later : addr.space ≠ .birth)
    : regions.tombstone? addr.toValue = none := by
  simp [tombstone?, Value.address?_toValue valid, later]

/-- A tombstone of the birth region is read as such. -/
theorem Buried.tombstone? {regions : Regions δ} {object other : Address}
    (buried : regions.Buried object other) (valid : object.Decodes) (valid' : other.Decodes)
    (birth : object.space = .birth) (inside : object.offset + 2 ≤ regions.birth.capacity)
    : regions.tombstone? object.toValue = some other.toValue := by
  obtain ⟨first, second⟩ := buried
  simp only [field, cell, birth, Nat.add_zero] at first second
  have words : regions.slice? object 2 = some [0, other.raw] := by
    rw [BirthRegion.capacity] at inside
    simp only [slice?, birth, Arena.slice?, if_pos inside, Arena.words, List.range', List.map, first,
      second]
  rw [Regions.tombstone?, Value.address?_toValue valid, Option.bind_some, if_pos birth, words]
  exact if_neg valid'.raw_ne_zero

/-- A stale reference to an object that left a tombstone leads to where that says. -/
theorem Buried.followForwards? {regions : Regions δ} {object other : Address}
    (buried : regions.Buried object other) (valid : object.Decodes) (valid' : other.Decodes)
    (birth : object.space = .birth) (later : other.space ≠ .birth)
    (inside : object.offset + 2 ≤ regions.birth.capacity)
    : regions.followForwards? object.toValue = some other.toValue := by
  obtain ⟨hops, enough⟩ : ∃ hops, regions.birth.capacity = hops + 1 :=
    ⟨regions.birth.capacity - 1, by omega⟩
  have next := buried.tombstone? valid valid' birth inside
  rw [Regions.followForwards?, enough, chase, next]
  cases hops with
  | zero => simp [chase, tombstone?_of_later valid' later]
  | succ hops => simp [chase, tombstone?_of_later valid' later]

section Copied

variable {layout : Layout} {move : Value → Value} {before other after later : Regions δ}
  {object copy : Address} (copied : Copied layout move before after object copy)
include copied

/-- The object was copied from any memory that lays it out alike and holds the same words of it. -/
theorem Copied.of_source (isObject : layout.IsObject (before.field object))
    (size : layout.size (other.field object) = layout.size (before.field object))
    (slots
      : ∀ index,
          layout.IsSlot (other.field object) index ↔ layout.IsSlot (before.field object) index)
    (field
      : ∀ index < layout.size (before.field object),
          other.field object index = before.field object index)
    : Copied layout move other after object copy where
  valid := copied.valid
  same := copied.same
  space := copied.space
  inside := by
    rw [size]
    exact copied.inside
  slots index slot := by
    have slot' := (slots index).mp slot
    rw [field index (layout.slot_lt isObject slot')]
    exact copied.slots index slot'
  others index inside plain := by
    rw [size] at inside
    rw [field index inside]
    exact copied.others index inside fun slot => plain ((slots index).mpr slot)

/-- The object was copied to any memory whose words are the same, and whose old region is as full. -/
theorem Copied.of_target (old : later.old = after.old) (cells : later.cell = after.cell)
    : Copied layout move before later object copy where
  valid := copied.valid
  same := copied.same
  space := old ▸ copied.space
  inside := old ▸ copied.inside
  slots := by simpa only [Regions.field, cells] using copied.slots
  others := by simpa only [Regions.field, cells] using copied.others

end Copied

/-- A decoded address is classified by what it refers to. -/
theorem classify_toValue (regions : Regions δ) {addr : Address} (valid : addr.Decodes)
    : regions.classify addr.toValue = regions.classifyAddress addr := by
  have present : addr.toValue.isNull = false := by
    simpa [Value.isNull, Address.toValue] using valid.raw_ne_zero
  simp [classify, present, Value.integer?_toValue valid, Value.address?_toValue valid]

/-- An allocated word of the old region is classified as old. -/
theorem classify_old {regions : Regions δ} {addr : Address} (valid : addr.Decodes)
    (old : regions.old.space.isOld) (space : addr.space = regions.old.space)
    (below : addr.offset < regions.old.cursor)
    : regions.classify addr.toValue = .old addr := by
  have contains : regions.old.contains addr := by simp [Semispace.contains, space, below]
  rw [classify_toValue regions valid, classifyAddress]
  cases there : addr.space with
  | birth | fixed =>
      rw [← space, there] at old
      cases old
  | oldA | oldB => exact if_pos contains

/-- What lies in the old space that is out of use is foreign. -/
theorem classify_flipped {regions : Regions δ} {addr : Address} (valid : addr.Decodes)
    (old : addr.space.isOld) (space : regions.old.space = addr.space.flipped)
    : regions.classify addr.toValue = .foreign addr.raw := by
  have outside : regions.old.contains addr = false := by
    simp [Semispace.contains, space, Ne.symm (Space.flipped_ne old)]
  rw [classify_toValue regions valid, classifyAddress]
  cases there : addr.space with
  | birth | fixed =>
      rw [there] at old
      cases old
  | oldA | oldB => exact if_neg (by simp [outside])

end Regions

namespace World

variable {contract : Contract σ} {met : Value → Prop} {move : Value → Value}
  {before start middle after : World σ δ}

/-- What was relocated still is where words were handed out afterwards. -/
theorem Relocates.reserved (relocates : Relocates contract met move before middle)
    (words stride : Nat)
    : Relocates contract met move before (middle.reserved words stride) := by
  have cells : (middle.reserved words stride).heap.regions.cell = middle.heap.regions.cell := by
    funext space offset
    cases space <;> rfl
  have copied : ∀ object copy,
      Regions.Copied contract.layout move before.heap.regions
          (middle.reserved words stride).heap.regions object copy
        ↔ Regions.Copied contract.layout move before.heap.regions middle.heap.regions object
          copy :=
    fun _ _ => ⟨fun there => there.of_target rfl cells.symm, fun there => there.of_target rfl cells⟩
  refine ⟨relocates.upholds, relocates.kept, fun root => ?_, ?_, relocates.old, relocates.plain, ?_,
    ?_, relocates.injective, ?_, ?_⟩
  · rw [← relocates.roots]
    cases root <;> rfl
  · exact relocates.tables.trans ⟨rfl, rfl, fun _ => rfl, rfl, rfl, rfl⟩
  · intro object valid there notFixed
    obtain ⟨copy, moved⟩ := relocates.moving object valid there notFixed
    exact ⟨copy, (copied object copy).mpr moved⟩
  · intro addr valid there fixed
    refine (relocates.fixed addr valid there fixed).imp id fun kept => ⟨kept.same, ?_⟩
    obtain ⟨begin, occupant, covers, found, covers', found', words⟩ := kept.object
    refine ⟨begin, occupant, covers, found, covers', found', ?_⟩
    simpa only [cells] using words
  · intro first second copy other
    rw [copied, copied]
    exact relocates.apart first second copy other
  · intro object copy
    rw [copied, Regions.Buried, Regions.field, Regions.field, cells]
    exact relocates.buried object copy

/-- What could be reached still can be where all of it is in place. -/
theorem SameOutside.reached (same : before.SameOutside start) {extra : List Value}
    (preserves : Preserves contract extra before start.heap.regions)
    (wellFormed : before.WellFormed contract extra) (apart : before.heap.regions.Apart)
    {value : Value} (reached : before.Reached contract value)
    : start.Reached contract value := by
  refine (preserves.traced wellFormed apart (fun _ root => .start (.rooted root)) reached).mono ?_
  intro value rooted
  cases rooted with
  | root root =>
      rw [← same.rootValue]
      exact .root root
  | kept member =>
      rw [← same.host] at member
      exact .kept member

/-- Where an object is in place at both moments, it was copied from the one as from the other. -/
theorem Preserves.copied_iff {extra : List Value} {regions : Regions δ}
    (preserves : Preserves contract extra before start.heap.regions)
    (wellFormed : before.WellFormed contract extra) {object copy : Address} (valid : object.Decodes)
    (met : before.Met contract extra object.toValue) (notFixed : object.space ≠ .fixed)
    : Regions.Copied contract.layout move before.heap.regions regions object copy
      ↔ Regions.Copied contract.layout move start.heap.regions regions object copy := by
  obtain ⟨isObject', size, slots⟩ := preserves.laidOut wellFormed valid met notFixed
  have isObject := (wellFormed.coherent.object object valid met notFixed).2.1
  have field : ∀ index < contract.layout.size (before.heap.regions.field object),
      start.heap.regions.field object index = before.heap.regions.field object index :=
    fun index inside => preserves.field wellFormed valid met notFixed inside
  constructor
  · exact fun copied => copied.of_source isObject size slots field
  · exact fun copied => copied.of_source isObject' size.symm (fun index => (slots index).symm)
      fun index inside => (field index (size ▸ inside)).symm

/-- What was relocated from one moment on was relocated from an earlier one, if all of it was in place
by then.
-/
theorem Relocates.of_preserves
    (relocates : Relocates contract (start.Reached contract) move start after)
    (same : before.SameOutside start) {extra : List Value}
    (wellFormed : before.WellFormed contract extra) (apart : before.heap.regions.Apart)
    (preserves : Preserves contract extra before start.heap.regions)
    (tables : before.heap.SameTables start.heap)
    : Relocates contract (before.Reached contract) move before after := by
  have met : ∀ {value}, before.Reached contract value → before.Met contract extra value :=
    fun reached => reached.mono fun _ => .rooted
  have reached : ∀ {value}, before.Reached contract value → start.Reached contract value :=
    same.reached preserves wellFormed apart
  have copied : ∀ object copy : Address, object.Decodes → before.Reached contract object.toValue →
      object.space ≠ .fixed →
      (Regions.Copied contract.layout move before.heap.regions after.heap.regions object copy
        ↔ Regions.Copied contract.layout move start.heap.regions after.heap.regions object copy) :=
    fun _ _ valid there notFixed => preserves.copied_iff wellFormed valid (met there) notFixed
  have clears : ∀ {value}, before.Reached contract value →
      start.heap.regions.clears value = before.heap.regions.clears value :=
    fun there => preserves.clears wellFormed (met there)
  refine ⟨relocates.upholds, ?_, fun root => ?_, tables.trans relocates.tables, relocates.old,
    relocates.plain, ?_, ?_, ?_, ?_, ?_⟩
  · rw [← same.host]
    exact relocates.kept
  · rw [← same.rootValue]
    exact relocates.roots root
  · intro object valid there notFixed
    obtain ⟨copy, moved⟩ := relocates.moving object valid (reached there) notFixed
    exact ⟨copy, (copied object copy valid there notFixed).mpr moved⟩
  · intro addr valid there fixed
    obtain ⟨begin, covers⟩ := Option.isSome_iff_exists.mp
      (wellFormed.coherent.live addr valid (met there) fixed)
    obtain ⟨covers', found, words⟩ := preserves.fixed _ _ covers
    rcases relocates.fixed addr valid (reached there) fixed with ⟨gone, null⟩ | kept
    · refine Or.inl ⟨?_, null⟩
      rw [← gone, Regions.forgets, Regions.forgets, Regions.occupantAt?, Regions.occupantAt?, covers,
        covers', Option.bind_some, Option.bind_some, found]
    · refine Or.inr ⟨kept.same, ?_⟩
      obtain ⟨begin', occupant, coverer, holds, later, holds', payload⟩ := kept.object
      rw [covers', Option.some.injEq] at coverer
      subst coverer
      rw [found] at holds
      refine ⟨begin, occupant, covers, holds, later, holds', fun known index inside => ?_⟩
      rw [← words occupant holds index inside]
      exact payload known index inside
  · intro first second there there' stays stays'
    rw [← clears there] at stays
    rw [← clears there'] at stays'
    exact relocates.injective first second (reached there) (reached there') stays stays'
  · intro first second copy other valid valid' there there' notFixed notFixed' differs moved moved'
    have size := (preserves.laidOut wellFormed valid (met there) notFixed).2.1
    have size' := (preserves.laidOut wellFormed valid' (met there') notFixed').2.1
    rw [← size, ← size']
    exact relocates.apart first second copy other valid valid' (reached there) (reached there')
      notFixed notFixed' differs ((copied first copy valid there notFixed).mp moved)
      ((copied second other valid' there' notFixed').mp moved')
  · intro object copy valid there birth moved
    exact relocates.buried object copy valid (reached there) birth
      ((copied object copy valid there (by simp [birth])).mp moved)

/-- Fewer values have been relocated where more have. -/
theorem Relocates.mono {fewer : Value → Prop}
    (relocates : Relocates contract met move before after) (subset : ∀ value, fewer value → met value)
    : Relocates contract fewer move before after where
  upholds := relocates.upholds
  kept := relocates.kept
  roots := relocates.roots
  tables := relocates.tables
  old := relocates.old
  plain := relocates.plain
  moving object valid there := relocates.moving object valid (subset _ there)
  fixed addr valid there := relocates.fixed addr valid (subset _ there)
  injective first second there there' :=
    relocates.injective first second (subset _ there) (subset _ there')
  apart first second copy other valid valid' there there' :=
    relocates.apart first second copy other valid valid' (subset _ there) (subset _ there')
  buried object copy valid there := relocates.buried object copy valid (subset _ there)

/-- An object that was met lies in allocated words, at least two of them. -/
theorem inside_birth (sound : before.Sound contract) {object : Address} (valid : object.Decodes)
    (reached : before.Reached contract object.toValue) (birth : object.space = .birth)
    : object.offset + 2 ≤ before.heap.regions.birth.capacity := by
  have met : before.Met contract [] object.toValue := reached.mono fun _ => .rooted
  obtain ⟨-, isObject, inside⟩ :=
    sound.wellFormed.coherent.object object valid met (by simp [birth])
  have large := contract.layout.two_le_size isObject
  have slack := sound.regular.slack
  have within := sound.regular.birthInside
  rw [Regions.limit, if_pos birth] at inside
  omega

/-- After one collection, a stale reference to a birth object that could be reached leads to where the
object lives now.
-/
theorem Relocates.follows (sound : before.Sound contract)
    (relocates : Relocates contract (before.Reached contract) move before after)
    (capacity : after.heap.regions.birth.capacity = before.heap.regions.birth.capacity)
    {object : Address} (valid : object.Decodes)
    (reached : before.Reached contract object.toValue) (birth : object.space = .birth)
    : after.heap.followForwards? object.toValue = some (move object.toValue)
      ∧ ∃ home : Address,
          move object.toValue = home.toValue
          ∧ after.heap.classify (move object.toValue) = .old home := by
  obtain ⟨copy, copied⟩ := relocates.moving object valid reached (by simp [birth])
  have buried := relocates.buried object copy valid reached birth copied
  have later : copy.space ≠ .birth := by
    intro here
    have old := relocates.old
    rw [← copied.space, here] at old
    cases old
  have inside := inside_birth sound valid reached birth
  rw [← capacity] at inside
  have met : before.Met contract [] object.toValue := reached.mono fun _ => .rooted
  have large := contract.layout.two_le_size
    (sound.wellFormed.coherent.object object valid met (by simp [birth])).2.1
  have below := copied.inside
  rw [copied.same]
  exact ⟨buried.followForwards? valid copied.valid birth later inside, copy, rfl,
    Regions.classify_old copied.valid relocates.old copied.space (by omega)⟩

/-- After a minor collection and a full one, a stale reference leads to where the first of them put the
object, which is no memory of the heap any more.
-/
theorem follows_stale (sound : before.Sound contract) {first second : Value → Value}
    (promotes : Promotes contract first before middle) (collects : before.Collects middle)
    (compacts : Compacts contract second middle after) {later : World σ δ}
    (cells
      : ∀ offset, later.heap.regions.cell .birth offset = after.heap.regions.cell .birth offset)
    (space : later.heap.regions.old.space = after.heap.regions.old.space)
    (capacity : later.heap.regions.birth.capacity = before.heap.regions.birth.capacity)
    {object : Address} (valid : object.Decodes)
    (reached : before.Reached contract object.toValue) (birth : object.space = .birth)
    : ∃ stale : Address,
        later.heap.followForwards? object.toValue = some stale.toValue
        ∧ later.heap.classify stale.toValue = .foreign stale.raw := by
  have met : before.Met contract [] object.toValue := reached.mono fun _ => .rooted
  obtain ⟨stale, copied⟩ := promotes.moving object valid met (by simp [birth])
  have old : stale.space.isOld := by
    rw [copied.space]
    exact promotes.old
  have promoted : stale.space ≠ .birth := by
    intro here
    rw [here] at old
    cases old
  have same : ∀ offset, later.heap.regions.cell .birth offset
      = middle.heap.regions.cell .birth offset := by
    intro offset
    rw [cells, compacts.unused offset]
    rw [collects.empty]
    exact Nat.zero_le _
  have buried : later.heap.regions.Buried object stale := by
    obtain ⟨zero, named⟩ := promotes.buried object stale valid met birth copied
    rw [Regions.field, birth] at zero named
    rw [Regions.Buried, Regions.field, Regions.field, birth, same, same]
    exact ⟨zero, named⟩
  have inside := inside_birth sound valid reached birth
  rw [← capacity] at inside
  refine ⟨stale, buried.followForwards? valid copied.valid birth promoted inside,
    Regions.classify_flipped copied.valid old ?_⟩
  rw [space, compacts.flipped, copied.space]

end World

-----------------------------------------------------------------------------------------
-- Operations that ask for memory
-----------------------------------------------------------------------------------------

namespace Operation

/-- Whether the operation does nothing to objects but to let a collection run where one is due. -/
def isClaiming : Operation δ → Bool
  | .allocate .. | .allocateAligned .. | .notifyStore .. => true
  | .collect .. | .collectMinor | .collectFull => true
  | _ => false

variable {contract : Contract σ} {operation : Operation δ} {world : World σ δ}

section Start

variable (claiming : operation.isClaiming) (sound : world.Sound contract)
  (steady : world.heap.Steady)
include claiming sound steady

/-- Such an operation leaves everything that is met in place before the collection. -/
theorem preserves_start
    : world.SameOutside (operation.start world)
      ∧ World.Preserves contract [] world (operation.start world).heap.regions
      ∧ world.heap.SameTables (operation.start world).heap := by
  have same : world.SameOutside world
      ∧ World.Preserves contract [] world world.heap.regions
      ∧ world.heap.SameTables world.heap := by
    exact ⟨.refl world, ⟨rfl, rfl, fun _ => Nat.le_refl _, fun _ _ => rfl, fun _ _ _ _ _ _ => rfl,
      fun _ _ covers => ⟨covers, rfl, fun _ _ _ _ => rfl⟩⟩, .refl _⟩
  cases operation with
  | notifyStore slot =>
      refine ⟨⟨rfl, rfl, rfl, rfl, rfl⟩, ?_, ⟨rfl, rfl, fun _ => rfl, rfl, rfl, rfl⟩⟩
      exact World.preserves_birth sound.regular.apart (Nat.le_refl _)
        fun object valid met birth index inside =>
          World.get_remember sound.wellFormed steady.spare valid met birth inside slot
  | allocate | allocateAligned | collect | collectMinor | collectFull => exact same
  | _ => cases claiming

/-- What could be reached can be reached in the world in which a collection begins. -/
theorem reached_start {value : Value} (reached : world.Reached contract value)
    : (operation.start world).Reached contract value := by
  obtain ⟨same, preserves, -⟩ := preserves_start claiming sound steady
  exact same.reached preserves sound.wellFormed sound.regular.apart reached

/-- What a collection relocates is relocated by the operation that let it run. -/
theorem relocates_finish {move : Value → Value} {middle : World σ δ}
    (relocates
      : World.Relocates contract ((operation.start world).Reached contract) move
          (operation.start world) middle)
    : World.Relocates contract (world.Reached contract) move world (operation.finish middle) := by
  obtain ⟨same, preserves, tables⟩ := preserves_start claiming sound steady
  have moved := relocates.of_preserves same sound.wellFormed sound.regular.apart preserves tables
  cases operation with
  | allocate | allocateAligned => exact moved.reserved _ _
  | notifyStore | collect | collectMinor | collectFull => exact moved
  | _ => cases claiming

omit sound steady in
/-- Such an operation leaves the outline of the birth region and the count of collections before the
collection.
-/
theorem outline_start
    : (operation.start world).heap.regions.birth.capacity = world.heap.regions.birth.capacity
      ∧ (operation.start world).heap.collections = world.heap.collections := by
  cases operation with
  | allocate | allocateAligned | notifyStore | collect | collectMinor | collectFull => exact ⟨rfl, rfl⟩
  | _ => cases claiming

end Start

/-- Taking memory leaves the old region, the words of the birth region and the count of collections. -/
theorem outline_finish (middle : World σ δ)
    : (∀ offset,
          (operation.finish middle).heap.regions.cell .birth offset
          = middle.heap.regions.cell .birth offset)
      ∧ (operation.finish middle).heap.regions.old = middle.heap.regions.old
      ∧ (operation.finish middle).heap.regions.birth.capacity
        = middle.heap.regions.birth.capacity
      ∧ (operation.finish middle).heap.collections = middle.heap.collections := by
  cases operation <;> exact ⟨fun _ => rfl, rfl, rfl, rfl⟩

end Operation

end MovingHeap
