import MovingHeap.Proofs.Initialisation
import MovingHeap.Proofs.Likeness
import MovingHeap.Proofs.Conformance

/-! What happens to a heap without a mutator noticing.
Two heaps look alike if their memories do and their roots hold paired values. Collections keep a heap
looking like any other one that it looked like, as does handing out memory and recording slots.
-/

namespace MovingHeap

variable {σ τ δ ε α : Type}

namespace World

-----------------------------------------------------------------------------------------
-- Heaps that look alike
-----------------------------------------------------------------------------------------

/-- Values are paired so that the heaps look alike and their roots hold paired values. -/
structure Matches (layout : Layout) (first : World σ δ) (second : World τ ε)
    (pairs : Value → Value → Prop)
    : Prop where
  alike : first.heap.regions.Alike layout second.heap.regions pairs
  roots : ∀ root, pairs (first.heap.rootValue root) (second.heap.rootValue root)

/-- The heap still looks like every other one that it looked like, and has the same tables. -/
structure Unnoticed (layout : Layout) (before after : World σ δ) : Prop where
  tables : before.heap.SameTables after.heap
  looks
    : ∀ {τ ε : Type} {second : World τ ε} {pairs : Value → Value → Prop},
        before.Matches layout second pairs → ∃ later, after.Matches layout second later

/-- The heap is sound and serves a mutator that gave up on no fixed object: no collection runs. -/
structure Serving (contract : Contract σ) (world : World σ δ) : Prop
    extends world.Sound contract where
  steady : world.heap.Steady
  idle : world.heap.phase = .idle
  known
    : ∀ begin occupant,
        world.heap.regions.fixed.occupant? begin = some occupant → occupant.forgotten = false

variable {contract : Contract σ} {layout : Layout} {world before after : World σ δ}
  {second : World τ ε} {pairs : Value → Value → Prop}

/-- The heaps may be looked at the other way round. -/
theorem Matches.symm (agrees : before.Matches layout second pairs)
    : second.Matches layout before fun other value => pairs value other :=
  ⟨agrees.alike.symm, agrees.roots⟩

/-- Nothing happening goes unnoticed. -/
theorem Unnoticed.refl (world : World σ δ) : world.Unnoticed layout world :=
  ⟨.refl _, fun agrees => ⟨_, agrees⟩⟩

/-- What goes unnoticed twice goes unnoticed. -/
theorem Unnoticed.trans {middle : World σ δ} (first : before.Unnoticed layout middle)
    (further : middle.Unnoticed layout after)
    : before.Unnoticed layout after where
  tables := first.tables.trans further.tables
  looks agrees := by
    obtain ⟨_, agrees'⟩ := first.looks agrees
    exact further.looks agrees'

/-- The tables are the same where all but memory is. -/
theorem SameOutside.tables (same : before.SameOutside after)
    : before.heap.SameTables after.heap :=
  ⟨by rw [same.frames], by rw [same.handlers], fun _ => by rw [same.modules], by rw [same.modules],
    by rw [same.constants], by rw [same.constants]⟩

/-- Where memory and roots are the same, nothing is noticed. -/
theorem Unnoticed.of_same (same : before.SameOutside after)
    (regions : after.heap.regions = before.heap.regions)
    : before.Unnoticed layout after where
  tables := same.tables
  looks {_ _ _ pairs} agrees := by
    refine ⟨pairs, ?_, fun root => ?_⟩
    · rw [regions]
      exact agrees.alike
    · rw [same.rootValue]
      exact agrees.roots root

-----------------------------------------------------------------------------------------
-- Objects that were carried elsewhere
-----------------------------------------------------------------------------------------

/-- No reference is to be cleared where no fixed object was given up. -/
theorem clears_eq_false {regions : Regions δ}
    (known
      : ∀ begin occupant,
          regions.fixed.occupant? begin = some occupant → occupant.forgotten = false)
    (value : Value)
    : regions.clears value = false := by
  simp only [Regions.clears, Option.any_eq_false_iff_get, Regions.forgets, Regions.occupantAt?]
  intro some
  rw [Bool.and_eq_false_iff]
  refine Or.inr ?_
  rw [Option.any_eq_false]
  intro occupant found
  obtain ⟨begin, -, holds⟩ := Option.bind_eq_some_iff.mp found
  simp [known begin occupant holds]

/-- What a field of an object that was traced holds was traced, too. -/
theorem traced_field {regions : Regions δ} {start : Value → Prop}
    (coherent : regions.Coherent layout (regions.Traced layout true start))
    (known
      : ∀ begin occupant,
          regions.fixed.occupant? begin = some occupant → occupant.forgotten = false)
    {object : Address} (valid : object.Decodes)
    (met : regions.Traced layout true start object.toValue) {index : Nat}
    (isField : regions.IsField layout object index)
    : regions.Traced layout true start ⟨regions.field object index⟩ := by
  by_cases fixed : object.space = .fixed
  · rw [Regions.IsField, if_pos fixed] at isField
    obtain ⟨covers, occupant, found, inside⟩ := isField
    rw [Regions.field, fixed]
    exact .payload valid met rfl fixed covers found (known _ _ found) inside
  · rw [Regions.IsField, if_neg fixed] at isField
    exact coherent.met_slot valid met fixed isField

/-- A heap whose objects were carried elsewhere is not told from the former one. -/
theorem Unnoticed.of_carries {start : Value → Prop} {move : Value → Value}
    (coherent
      : before.heap.regions.Coherent layout (before.heap.regions.Traced layout true start))
    (known
      : ∀ begin occupant,
          before.heap.regions.fixed.occupant? begin = some occupant → occupant.forgotten = false)
    (starts : ∀ root, start (before.heap.rootValue root))
    (carries
      : Regions.Carries layout (before.heap.regions.Traced layout true start) move
          before.heap.regions after.heap.regions)
    (roots : ∀ root, after.heap.rootValue root = move (before.heap.rootValue root))
    (tables : before.heap.SameTables after.heap)
    : before.Unnoticed layout after where
  tables := tables
  looks agrees := by
    refine ⟨_, agrees.alike.carried carries fun object valid met index isField =>
      traced_field coherent known valid met isField, fun root => ?_⟩
    exact ⟨_, .start (starts root), agrees.roots root, (roots root).symm⟩

/-- Where memory still has all that was met, objects were left where they were. -/
theorem carries_of_preserves (wellFormed : before.WellFormed contract []) {now : Regions δ}
    (preserves : Preserves contract [] before now)
    : Regions.Carries contract.layout (before.Met contract []) id before.heap.regions now := by
  refine ⟨fun _ _ => rfl, fun object valid met => ⟨object, valid, rfl, ?_, fun index isField => ?_⟩,
    fun _ _ _ _ => id⟩
  · by_cases fixed : object.space = .fixed
    · refine .of_fixed fixed fixed fun index => ?_
      obtain ⟨begin, covers⟩ := Option.isSome_iff_exists.mp
        (wellFormed.coherent.live object valid met fixed)
      obtain ⟨covers', holds, -⟩ := preserves.fixed _ _ covers
      simp only [Regions.IsField, if_pos fixed, covers, covers', Option.some.injEq]
      exact and_congr_right fun here => by rw [← here, holds]
    · obtain ⟨isObject, size, slots⟩ := preserves.laidOut wellFormed valid met fixed
      exact .of_moving fixed fixed size slots fun index inside _ =>
        preserves.field wellFormed valid met fixed inside
  · by_cases fixed : object.space = .fixed
    · rw [Regions.IsField, if_pos fixed] at isField
      obtain ⟨covers, occupant, found, inside⟩ := isField
      have word := (preserves.fixed _ _ covers).2.2 occupant found index inside
      rwa [Regions.field, Regions.field, fixed]
    · rw [Regions.IsField, if_neg fixed] at isField
      have isObject := (wellFormed.coherent.object object valid met fixed).2.1
      exact preserves.field wellFormed valid met fixed (contract.layout.slot_lt isObject isField)

/-- Where memory still has all that was met, nothing is noticed. -/
theorem Unnoticed.of_preserves (wellFormed : before.WellFormed contract [])
    (known
      : ∀ begin occupant,
          before.heap.regions.fixed.occupant? begin = some occupant → occupant.forgotten = false)
    (preserves : Preserves contract [] before after.heap.regions)
    (same : before.SameOutside after)
    : before.Unnoticed contract.layout after :=
  .of_carries wellFormed.coherent known (fun root => .rooted (.root root))
    (carries_of_preserves wellFormed preserves) same.rootValue same.tables

/-- Objects that a collection moved were carried elsewhere, if none was given up. -/
theorem Relocates.carries {start : Value → Prop} {move : Value → Value}
    (relocates
      : Relocates contract (before.heap.regions.Traced contract.layout true start) move before after)
    (coherent
      : before.heap.regions.Coherent contract.layout
          (before.heap.regions.Traced contract.layout true start))
    (known
      : ∀ begin occupant,
          before.heap.regions.fixed.occupant? begin = some occupant → occupant.forgotten = false)
    : Regions.Carries contract.layout (before.heap.regions.Traced contract.layout true start) move
        before.heap.regions after.heap.regions := by
  have clears := clears_eq_false known
  refine ⟨relocates.plain, fun object valid met => ?_, fun first second there there' =>
    relocates.injective first second there there' (clears first) (clears second)⟩
  by_cases fixed : object.space = .fixed
  · rcases relocates.fixed object valid met fixed with ⟨gone, -⟩ | kept
    · have stays := clears object.toValue
      rw [Regions.clears, Value.address?_toValue valid] at stays
      simp [fixed, gone] at stays
    · obtain ⟨begin, occupant, covers, found, covers', found', words⟩ := kept.object
      refine ⟨object, valid, kept.same, .of_fixed fixed fixed fun index => ?_, fun index isField => ?_⟩
      · simp only [Regions.IsField, if_pos fixed, covers, covers', Option.some.injEq]
        exact and_congr_right fun here => by rw [← here, found, found']
      · rw [Regions.IsField, if_pos fixed] at isField
        obtain ⟨here, other, holds, inside⟩ := isField
        obtain rfl : begin = object.offset := Option.some.inj (covers.symm.trans here)
        obtain rfl : occupant = other := Option.some.inj (found.symm.trans holds)
        rw [Regions.field, Regions.field, fixed]
        exact words (known _ _ found) index inside
  · obtain ⟨copy, copied⟩ := relocates.moving object valid met fixed
    obtain ⟨-, size, slots⟩ := relocates.layout_copied coherent (fun _ _ _ _ _ => clears _) valid met
      fixed copied
    have moved : copy.space ≠ .fixed := by
      intro here
      have old := relocates.old
      rw [← copied.space, here] at old
      cases old
    refine ⟨copy, copied.valid, copied.same, .of_moving fixed moved size slots copied.others,
      fun index isField => ?_⟩
    rw [Regions.IsField, if_neg fixed] at isField
    exact copied.slots index isField

-----------------------------------------------------------------------------------------
-- Collections
-----------------------------------------------------------------------------------------

/-- A collection goes unnoticed, and no fixed object is given up by it. -/
theorem Collected.unnoticed {move : Value → Value} (collected : Collected contract move before after)
    (wellFormed : before.WellFormed contract [])
    (known
      : ∀ begin occupant,
          before.heap.regions.fixed.occupant? begin = some occupant → occupant.forgotten = false)
    : before.Unnoticed contract.layout after
      ∧ ∀ begin occupant,
          after.heap.regions.fixed.occupant? begin = some occupant →
          occupant.forgotten = false := by
  have reached : ∀ value, before.Reached contract value → before.Met contract [] value :=
    fun _ traced => traced.mono fun _ rooted => .rooted rooted
  have compacts : ∀ {world final : World σ δ} {change : Value → Value},
      world.heap.regions.Coherent contract.layout (world.Reached contract) →
      (∀ begin occupant,
        world.heap.regions.fixed.occupant? begin = some occupant → occupant.forgotten = false) →
      Compacts contract change world final →
      world.Unnoticed contract.layout final
      ∧ ∀ begin occupant,
          final.heap.regions.fixed.occupant? begin = some occupant →
          occupant.forgotten = false := by
    intro world final change coherent known compacts
    refine ⟨.of_carries coherent known (fun root => .root root)
      (compacts.toRelocates.carries coherent known) compacts.roots compacts.tables, ?_⟩
    intro begin occupant found
    exact known begin occupant ((compacts.survivors begin occupant).mp found).1
  have promotes : ∀ {final : World σ δ} {change : Value → Value},
      Promotes contract change before final →
      before.Unnoticed contract.layout final
      ∧ ∀ begin occupant,
          final.heap.regions.fixed.occupant? begin = some occupant →
          occupant.forgotten = false := by
    intro final change promotes
    refine ⟨.of_carries wellFormed.coherent known (fun root => .rooted (.root root))
      (promotes.toRelocates.carries wellFormed.coherent known) promotes.roots promotes.tables, ?_⟩
    intro begin occupant found
    refine known begin occupant ?_
    rwa [FixedSpace.occupant?, FixedSpace.slot?, ← promotes.slots]
  cases collected with
  | promoted promoted => exact promotes promoted
  | compacted compacted => exact compacts (wellFormed.coherent.mono reached) known compacted
  | both promoted _ compacted =>
      obtain ⟨first, known'⟩ := promotes promoted
      have coherent := promoted.toRelocates.coherent_reached wellFormed.coherent wellFormed.heads
        fun _ rooted => .rooted rooted
      obtain ⟨further, known''⟩ := compacts coherent known' compacted
      exact ⟨first.trans further, known''⟩

/-- Collecting on demand goes unnoticed. -/
theorem Sound.serves_collectFor (sound : world.Sound contract)
    (known
      : ∀ begin occupant,
          world.heap.regions.fixed.occupant? begin = some occupant → occupant.forgotten = false)
    (addressable : world.Addressable) {host : Host σ δ} (faithful : host.Faithful contract)
    (words : Nat) (wantsFull : Bool) (reason : Reason)
    : Runs (Collector.collectFor host words wantsFull reason) world
        (fun _ final =>
          final.Serving contract ∧ world.Unnoticed contract.layout final ∧ world.Collects final)
        fun _ _ => True := by
  refine (sound.collectFor addressable faithful words wantsFull reason).mono ?_ fun _ _ _ => trivial
  intro _ final reached
  obtain ⟨collects, sound', move, collected⟩ := reached
  obtain ⟨unnoticed, known'⟩ := collected.unnoticed sound.wellFormed known
  exact ⟨⟨sound', collects.steady, collects.idle, known'⟩, unnoticed, collects⟩

end World

end MovingHeap
