import MovingHeap.Proofs.Graph
import MovingHeap.Proofs.RootTables
import MovingHeap.World

/-! What a mutator can reach, and what the heap has to know of it between collections.
Old objects lie back to back, so that walking over them finds every slot there is in the old region.
A reference into the birth region that is kept anywhere else has to be noted: in the recorded slots,
by its fixed object being fresh, by the watermark of the modules or by a dirty group of constants.
-/

namespace MovingHeap

variable {σ δ : Type}

/-- Whether a value leads into the birth region. -/
def Value.isBirth (value : Value) : Bool := value.address?.any (·.space == .birth)

namespace Regions

/-- The words of a space from an offset on. -/
def wordsAt (regions : Regions δ) (space : Space) (offset : Nat) : Nat → Word :=
  fun index => regions.cell space (offset + index)

/-- The objects that begin at the given offsets lie back to back in the old region, from one offset to
another.
-/
def Tiles (layout : Layout) (regions : Regions δ) : List Nat → Nat → Nat → Prop
  | [], start, stop => start = stop
  | first :: rest, start, stop =>
      first = start
      ∧ layout.IsObject (regions.wordsAt regions.old.space first)
      ∧ regions.Tiles layout rest
          (first + layout.size (regions.wordsAt regions.old.space first)) stop

/-- The cell is a slot outside of the birth region: a reference slot of an old object, reachable or
not, or a word of a live fixed object.
-/
inductive Slot (layout : Layout) (regions : Regions δ) : Space → Nat → Prop where
  | old {starts : List Nat} {start index : Nat}
      (tiles : regions.Tiles layout starts 0 regions.old.cursor) (member : start ∈ starts)
      (slot : layout.IsSlot (regions.wordsAt regions.old.space start) index)
      : Slot layout regions regions.old.space (start + index)
  | fixed {begin index : Nat} {occupant : Occupant δ}
      (found : regions.fixed.occupant? begin = some occupant) (inside : index < occupant.words)
      : Slot layout regions .fixed (begin + index)

/-- A minor collection looks at the cell: it was recorded, or belongs to a fresh fixed object. -/
inductive Noted (regions : Regions δ) : Space → Nat → Prop where
  | recorded {slot : Address} (valid : slot.Decodes)
      (member : slot.raw ∈ regions.birth.remembered)
      : Noted regions slot.space slot.offset
  | fresh {begin index : Nat} {occupant : Occupant δ} (recent : begin ∈ regions.fixed.recent)
      (found : regions.fixed.occupant? begin = some occupant) (inside : index < occupant.words)
      : Noted regions .fixed (begin + index)

/-- Whether a full collection clears the reference: it leads to a fixed object that was forgotten. -/
def clears (regions : Regions δ) (value : Value) : Bool :=
  value.address?.any fun addr => addr.space == .fixed && regions.forgets addr

end Regions

namespace World

/-- The values that the roots hold, those of the heap and those of the host. -/
inductive Rooted (contract : Contract σ) (world : World σ δ) : Value → Prop where
  | root (root : Root) : Rooted contract world (world.heap.rootValue root)
  | kept {value : Value} (member : value ∈ contract.roots world.host)
      : Rooted contract world value

/-- The values that roots and noted cells hold, and some more. -/
inductive Starts (contract : Contract σ) (world : World σ δ) (extra : List Value)
    : Value → Prop where
  | rooted {value : Value} (rooted : world.Rooted contract value)
      : Starts contract world extra value
  | noted {space : Space} {offset : Nat} (noted : world.heap.regions.Noted space offset)
      : Starts contract world extra ⟨world.heap.regions.cell space offset⟩
  | extra {value : Value} (member : value ∈ extra) : Starts contract world extra value

/-- The values met when references are followed from the roots. -/
def Reached (contract : Contract σ) (world : World σ δ) : Value → Prop :=
  world.heap.regions.Traced contract.layout true (world.Rooted contract)

/-- The values met when references are followed from the roots, the noted cells and some more. -/
def Met (contract : Contract σ) (world : World σ δ) (extra : List Value) : Value → Prop :=
  world.heap.regions.Traced contract.layout true (world.Starts contract extra)

/-- The host keeps its references well-formed: those met lead to initialised objects in allocated
words or to live fixed objects, none that an object begins with is to be cleared, old objects lie back
to back, and only slots were recorded. The extra values are about to be stored.
-/
structure WellFormed (contract : Contract σ) (world : World σ δ) (extra : List Value) : Prop where
  upholds : contract.Upholds world.host
  coherent : world.heap.regions.Coherent contract.layout (world.Met contract extra)
  heads
    : ∀ addr : Address,
        addr.Decodes →
        world.Met contract extra addr.toValue →
        addr.space ≠ .fixed →
        contract.layout.IsSlot (world.heap.regions.field addr) 0 →
        world.heap.regions.clears ⟨world.heap.regions.field addr 0⟩ = false
  tiled
    : ∃ starts,
        world.heap.regions.Tiles contract.layout starts 0 world.heap.regions.old.cursor
        ∧ ∀ addr : Address,
            addr.Decodes →
            world.Met contract extra addr.toValue →
            addr.space = world.heap.regions.old.space →
            addr.offset ∈ starts
  recorded
    : ∀ raw ∈ world.heap.regions.birth.remembered,
        ∃ slot : Address,
          slot.raw = raw
          ∧ slot.Decodes
          ∧ world.heap.regions.Slot contract.layout slot.space slot.offset

end World

/-- Every place outside of the birth region that holds a reference into it is known to the next minor
collection: slots of old and fixed objects are noted, modules lie at or above the watermark, constants
in dirty groups.
-/
structure Heap.Generational (layout : Layout) (heap : Heap δ) : Prop where
  slots
    : ∀ space offset,
        heap.regions.Slot layout space offset →
        (Value.mk (heap.regions.cell space offset)).isBirth →
        heap.regions.Noted space offset
  modules
    : ∀ rank,
        (heap.modules.constantAt rank).isBirth →
        heap.modules.watermark ≠ 0 ∧ heap.modules.watermark ≤ rank
  constants
    : ∀ index, (heap.constants.get index).isBirth → heap.constants.isDirty index

end MovingHeap
