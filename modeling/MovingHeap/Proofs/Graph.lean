import MovingHeap.Proofs.Cells
import MovingHeap.Proofs.Contract
import MovingHeap.Proofs.FixedOperations

/-! The graph of objects in memory and what makes it coherent.
References lead to moving objects, whose slots are followed, and to fixed objects, all of whose words
are, unless they were forgotten.
-/

namespace MovingHeap

variable {δ : Type}

namespace Regions

/-- Whether objects of the space move: birth objects always do, old ones in a full collection. -/
def moves (regions : Regions δ) (full : Bool) (space : Space) : Bool :=
  space == .birth || full && space == regions.old.space

/-- Nothing moves out of the fixed space. -/
theorem Apart.ne_fixed {regions : Regions δ} (apart : regions.Apart) {full : Bool} {space : Space}
    (moves : regions.moves full space)
    : space ≠ .fixed := by
  rintro rfl
  have old := apart.old
  simp only [Regions.moves, Bool.or_eq_true, Bool.and_eq_true, beq_iff_eq] at moves
  rcases moves with birth | ⟨-, same⟩
  · cases birth
  · rw [← same] at old
    cases old

/-- Where the allocated words of a space end that objects move out of. -/
def limit (regions : Regions δ) (space : Space) : Nat :=
  if space = .birth then regions.birth.cursor else regions.old.cursor

/-- The fixed object around an address. -/
def occupantAt? (regions : Regions δ) (addr : Address) : Option (Occupant δ) :=
  (regions.fixed.containing? addr.offset).bind regions.fixed.occupant?

/-- Whether the host gave up on the fixed object around an address. -/
def forgets (regions : Regions δ) (addr : Address) : Bool :=
  (regions.occupantAt? addr).any (·.forgotten)

/-- The values met when references are followed from where tracing starts: the slots of moving
objects and, in a full collection, the words of fixed objects that were not forgotten.
-/
inductive Traced (layout : Layout) (regions : Regions δ) (full : Bool) (start : Value → Prop)
    : Value → Prop where
  | start {value : Value} (root : start value) : Traced layout regions full start value
  | field {addr : Address} {index : Nat} (valid : addr.Decodes)
      (met : Traced layout regions full start addr.toValue)
      (moves : regions.moves full addr.space) (slot : layout.IsSlot (regions.field addr) index)
      : Traced layout regions full start ⟨regions.field addr index⟩
  | payload {addr : Address} {begin index : Nat} {occupant : Occupant δ} (valid : addr.Decodes)
      (met : Traced layout regions full start addr.toValue) (follows : full)
      (fixed : addr.space = .fixed)
      (covers : regions.fixed.containing? addr.offset = some begin)
      (found : regions.fixed.occupant? begin = some occupant)
      (known : occupant.forgotten = false) (inside : index < occupant.words)
      : Traced layout regions full start ⟨regions.cell .fixed (begin + index)⟩

/-- The references among the given values are well-formed: each that leads to a moving object is its
start, the objects lie in allocated words and apart from each other, and references into the fixed
space lead to live objects.
-/
structure Coherent (layout : Layout) (regions : Regions δ) (met : Value → Prop) : Prop where
  object
    : ∀ addr : Address,
        addr.Decodes →
        met addr.toValue →
        addr.space ≠ .fixed →
        regions.moves true addr.space
          ∧ layout.IsObject (regions.field addr)
          ∧ addr.offset + layout.size (regions.field addr) ≤ regions.limit addr.space
  apart
    : ∀ first second : Address,
        first.Decodes →
        second.Decodes →
        met first.toValue →
        met second.toValue →
        first.space = second.space →
        first.space ≠ .fixed →
        first ≠ second →
        first.offset + layout.size (regions.field first) ≤ second.offset
          ∨ second.offset + layout.size (regions.field second) ≤ first.offset
  live
    : ∀ addr : Address,
        addr.Decodes →
        met addr.toValue →
        addr.space = .fixed →
        (regions.fixed.containing? addr.offset).isSome

/-- References that are among well-formed ones are well-formed. -/
theorem Coherent.mono {layout : Layout} {regions : Regions δ} {met fewer : Value → Prop}
    (coherent : regions.Coherent layout met) (subset : ∀ value, fewer value → met value)
    : regions.Coherent layout fewer where
  object addr valid here := coherent.object addr valid (subset _ here)
  apart first second left right here there :=
    coherent.apart first second left right (subset _ here) (subset _ there)
  live addr valid here := coherent.live addr valid (subset _ here)

section Traced

variable {layout : Layout} {regions : Regions δ} {full : Bool} {start : Value → Prop}

/-- More roots lead to more, by induction over the path. -/
theorem Traced.mono {more : Value → Prop} {value : Value}
    (met : regions.Traced layout full start value) (subset : ∀ value, start value → more value)
    : regions.Traced layout full more value := by
  induction met with
  | start root => exact .start (subset _ root)
  | field valid _ moves slot ih => exact .field valid ih moves slot
  | payload valid _ follows fixed covers found known inside ih =>
      exact .payload valid ih follows fixed covers found known inside

/-- A full collection meets whatever a minor one meets, by induction over the path. -/
theorem Traced.whole {value : Value} (met : regions.Traced layout full start value)
    : regions.Traced layout true start value := by
  induction met with
  | start root => exact .start root
  | field valid _ moves slot ih =>
      refine .field valid ih ?_ slot
      simp only [Regions.moves, Bool.or_eq_true, Bool.and_eq_true] at moves ⊢
      exact moves.imp id fun both => ⟨trivial, both.2⟩
  | payload valid _ follows fixed covers found known inside ih =>
      exact .payload valid ih rfl fixed covers found known inside

/-- What is held in a slot of a moving object that was met was met, too. -/
theorem Coherent.met_slot (coherent : regions.Coherent layout (regions.Traced layout true start))
    {object : Address} (valid : object.Decodes)
    (met : regions.Traced layout true start object.toValue) (moves : object.space ≠ .fixed)
    {index : Nat} (slot : layout.IsSlot (regions.field object) index)
    : regions.Traced layout true start ⟨regions.field object index⟩ :=
  .field valid met (coherent.object object valid met moves).1 slot

end Traced

end Regions

end MovingHeap
