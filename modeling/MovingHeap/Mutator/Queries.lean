import MovingHeap.Heap

/-! What a mutator may ask of a heap at any time. -/

namespace MovingHeap.Heap

variable {δ : Type}

/-- What a value refers to. -/
def classify (heap : Heap δ) (value : Value) : ValueKind := heap.regions.classify value

/-- Whether a value refers to an object allocated since the last collection. -/
def isYoung (heap : Heap δ) (value : Value) : Bool :=
  match heap.classify value with
  | .birth _ => true
  | _ => false

/-- Where a stale reference to a promoted object leads, however long the chase takes. -/
def followOn (heap : Heap δ) (value : Value) : Value := heap.regions.followOn value

/-- Where a stale reference to a promoted object leads; `none` if tombstones lead in a circle. -/
def followForwards? (heap : Heap δ) (value : Value) : Option Value :=
  heap.regions.followForwards? value

/-- The extent of the birth region. -/
def birthBounds (heap : Heap δ) : RegionBounds := heap.regions.birth.bounds

/-- The extent of the old region. -/
def oldBounds (heap : Heap δ) : RegionBounds := heap.regions.old.bounds

/-- The module at a rank. -/
def module? (heap : Heap δ) (rank : Nat) : Option Module := heap.modules.get? rank

/-- The constant of the module at a rank. -/
def moduleConstant (heap : Heap δ) (rank : Nat) : Except ModuleError Value :=
  heap.modules.constant rank

/-- The function `name` of the module at a rank, or of the first module that has it. -/
def moduleSymbol (heap : Heap δ) (name : String) (rank : Option Nat) : Except ModuleError Symbol :=
  heap.modules.symbol name rank

/-- A global constant. -/
def constant (heap : Heap δ) (index : Nat) : Value := heap.constants.get index

end MovingHeap.Heap
