import MovingHeap.Proofs.Regularity
import MovingHeap.Proofs.Transport

/-! What holds of a heap between operations if its host plays by the rules.
A collection brings it about again: nothing is noted afterwards and nothing has to be, as no reference
into the birth region is left.
-/

namespace MovingHeap

variable {σ δ : Type}

namespace World

/-- Every word of the fixed space can be told by an address. -/
def Addressable (world : World σ δ) : Prop :=
  world.heap.regions.fixed.arena.size ≤ maxOffsetWords

instance (world : World σ δ) : Decidable world.Addressable :=
  inferInstanceAs (Decidable (world.heap.regions.fixed.arena.size ≤ maxOffsetWords))

/-- The heap is in order, its references are well-formed, and every birth reference outside of the birth
region is known.
-/
structure Orderly (contract : Contract σ) (world : World σ δ) : Prop where
  regular : world.heap.Regular
  wellFormed : world.WellFormed contract []
  generational : world.heap.Generational contract.layout

/-- The heap is in order and has room to promote the whole birth region. -/
structure Sound (contract : Contract σ) (world : World σ δ) : Prop
    extends world.Orderly contract where
  room : world.heap.regions.birth.capacity ≤ world.heap.regions.old.free

/-- Nothing is noted where no slot is recorded and no fixed object is fresh. -/
theorem not_noted {regions : Regions δ}
    (unrecorded : regions.birth.bufferStart = regions.birth.capacity)
    (recent : regions.fixed.recent = []) {space : Space} {offset : Nat}
    : ¬ regions.Noted space offset := by
  intro noted
  cases noted with
  | recorded valid member =>
      simp [BirthRegion.remembered, BirthRegion.rememberedCount, unrecorded, Arena.words] at member
  | fresh member found inside =>
      rw [recent] at member
      cases member

/-- Then what is met is what the roots reach, by induction over the path. -/
theorem reached_of_met {contract : Contract σ} {world : World σ δ}
    (unnoted : ∀ space offset, ¬ world.heap.regions.Noted space offset) {value : Value}
    (met : world.Met contract [] value)
    : world.Reached contract value := by
  refine Regions.Traced.mono met fun value start => ?_
  cases start with
  | rooted rooted => exact rooted
  | noted noted => exact absurd noted (unnoted _ _)
  | extra member => cases member

/-- What a collection leaves is in order, if old objects lie back to back, each copy is one of them, and
no slot leads into the birth region.
-/
theorem Relocates.orderly {contract : Contract σ} {start : Value → Prop} {move : Value → Value}
    {before after : World σ δ}
    (relocates
      : Relocates contract (before.heap.regions.Traced contract.layout true start) move before after)
    (coherent
      : before.heap.regions.Coherent contract.layout
          (before.heap.regions.Traced contract.layout true start))
    (heads
      : ∀ addr : Address,
          addr.Decodes →
          before.heap.regions.Traced contract.layout true start addr.toValue →
          addr.space ≠ .fixed →
          contract.layout.IsSlot (before.heap.regions.field addr) 0 →
          before.heap.regions.clears ⟨before.heap.regions.field addr 0⟩ = false)
    (roots : ∀ value, before.Rooted contract value → start value)
    (collects : before.Collects after) (recent : after.heap.regions.fixed.recent = [])
    {starts : List Nat}
    (tiles : after.heap.regions.Tiles contract.layout starts 0 after.heap.regions.old.cursor)
    (copies
      : ∀ object copy : Address,
          object.Decodes →
          before.heap.regions.Traced contract.layout true start object.toValue →
          object.space ≠ .fixed →
          Regions.Copied contract.layout move before.heap.regions after.heap.regions object copy →
          copy.offset ∈ starts)
    (slots
      : ∀ space offset,
          after.heap.regions.Slot contract.layout space offset →
          (Value.mk (after.heap.regions.cell space offset)).isBirth = false)
    : after.Orderly contract := by
  have unnoted : ∀ space offset, ¬ after.heap.regions.Noted space offset :=
    fun _ _ => not_noted collects.unrecorded recent
  have reached : ∀ {value}, after.Met contract [] value → after.Reached contract value :=
    reached_of_met unnoted
  have rooted : ∀ root, (after.heap.rootValue root).isBirth = false := by
    intro root
    rw [relocates.roots]
    exact relocates.isBirth_move (.start (roots _ (.root root)))
  refine ⟨collects.steady.toRegular, ⟨relocates.upholds, ?_, ?_, ⟨starts, tiles, ?_⟩, ?_⟩, ⟨?_, ?_, ?_⟩⟩
  · exact (relocates.coherent_reached coherent heads roots).mono fun value => reached
  · intro addr valid met
    exact relocates.heads_reached coherent heads roots valid (reached met)
  · intro addr valid met old
    obtain ⟨former, there, became⟩ := relocates.met_of_reached coherent heads roots (reached met)
    rcases relocates.of_move valid there became with ⟨fixed, -⟩ | ⟨-, object, decodes, rfl, moves,
      copied⟩
    · have isOld := relocates.old
      rw [← old, fixed] at isOld
      cases isOld
    · exact copies object addr decodes there moves copied
  · intro raw member
    simp [BirthRegion.remembered, BirthRegion.rememberedCount, collects.unrecorded, Arena.words]
      at member
  · intro space offset slot young
    rw [slots space offset slot] at young
    cases young
  · intro rank young
    have none : (after.heap.modules.constantAt rank).isBirth = false := rooted (.module rank)
    rw [none] at young
    cases young
  · intro index young
    have none : (after.heap.constants.get index).isBirth = false := rooted (.constant index)
    rw [none] at young
    cases young

end World

end MovingHeap
