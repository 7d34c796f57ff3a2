/-! What a host callback hands back when it cannot touch managed memory: copying, destroying and the
hooks around a full collection. Whatever else the callback did is in the host's own state.
-/

namespace MovingHeap

/-- An answer of the host, its state afterwards and the lines it logged on the way. -/
structure Reply (σ α : Type) where
  answer : α
  host : σ
  notes : List String := []

end MovingHeap
