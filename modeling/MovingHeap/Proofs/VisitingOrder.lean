import MovingHeap.Proofs.Contract

/-! The order in which a host visits what it is asked to scan.
A faithful host visits all slots of an object but may take them in any order. The order is fixed if the
words of an object that are no slots tell it, and if the roots of the host are taken as they are listed.
Going back to what was visited or read to be no reference makes no difference.
-/

namespace MovingHeap

variable {σ δ α : Type}

/-- The order in which full collections visit the slots of an object, told by its words that are no
slots, and the words of a fixed object.
-/
structure VisitingOrder (layout : Layout) where
  slots : (Nat → Word) → List Nat
  payload : Address → Nat → List Nat
  isSlot
    : ∀ {words index}, layout.IsObject words → index ∈ slots words → layout.IsSlot words index
  inside : ∀ {object words index}, index ∈ payload object words → index < words
  agree
    : ∀ {words other},
        layout.IsObject words →
        (∀ index < layout.size words, ¬ layout.IsSlot words index → other index = words index) →
        other 0 ≠ 0 →
        slots other = slots words

namespace Visit

/-- The visit of a full collection takes the slots of the item in the order of a list. It may leave out
those that it was read to hold no reference, and go back to those that are known. It does so whatever it
reads in slots, from every state of the host that keeps the promise.
-/
def InOrder (contract : Contract σ) (kept : List Value) (item : Item)
    : Visit σ α → (known : Nat → Prop) → (order : List Nat) → Prop
  | .done _, known, order => ∀ index ∈ order, known index
  | .getHost next, known, order =>
      ∀ host, contract.Upholds host → contract.roots host = kept →
        (next host).InOrder contract kept item known order
  | .setHost host next, known, order =>
      contract.Upholds host ∧ contract.roots host = kept
        ∧ next.InOrder contract kept item known order
  | .note _ next, known, order => next.InOrder contract kept item known order
  | .isFull next, known, order => (next true).InOrder contract kept item known order
  | .load addr next, known, order =>
      ∃ index < item.size, addr = item.object.add index
        ∧ ∀ word, (¬ item.IsSlot index → word = item.word index) →
          (next word).InOrder contract kept item
            (fun other => known other ∨ other = index ∧ (Value.mk word).address? = none) order
  | .words addr count next, known, order =>
      ∃ first, addr = item.object.add first ∧ first + count ≤ item.size
        ∧ ∀ words : List Word, words.length = count →
          (∀ index (inside : index < words.length), ¬ item.IsSlot (first + index) →
            words[index] = item.word (first + index)) →
          (next words).InOrder contract kept item
            (fun other =>
              known other
              ∨ ∃ index word, other = first + index ∧ words[index]? = some word
                ∧ (Value.mk word).address? = none)
            order
  | .visitSlot slot next, known, order =>
      ∃ index, item.IsSlot index ∧ slot = item.object.add index
        ∧ (known index ∧ next.InOrder contract kept item known order
          ∨ ∃ skipped rest, order = skipped ++ index :: rest ∧ (∀ other ∈ skipped, known other)
            ∧ next.InOrder contract kept item (fun other => known other ∨ other = index) rest)
  | .visitValue _ _, _, _ => False
  | .allocate, _, _ => False
  | .collect, _, _ => False
  | .fail _, _, _ => False

/-- A root needs no visit: it is no reference, or was answered. -/
def Answered (answers : List (Value × Value)) (root : Value) : Prop :=
  root.address? = none ∨ ∃ moved, (root, moved) ∈ answers

/-- The visit of a full collection forwards the roots of the host in the order of a list. It may leave
out those that are no references, and go back to those that were answered and to their answers.
-/
def RootsInOrder (contract : Contract σ)
    : Visit σ Unit → (current : List Value) → (answers : List (Value × Value)) →
        (order : List Value) → Prop
  | .done _, _, answers, order => ∀ root ∈ order, Answered answers root
  | .getHost next, current, answers, order =>
      ∀ host, contract.Upholds host → contract.roots host = current →
        (next host).RootsInOrder contract current answers order
  | .setHost host next, _, answers, order =>
      contract.Upholds host
        ∧ next.RootsInOrder contract (contract.roots host) answers order
  | .note _ next, current, answers, order => next.RootsInOrder contract current answers order
  | .isFull next, current, answers, order =>
      (next true).RootsInOrder contract current answers order
  | .visitValue value next, current, answers, order =>
      (((∃ moved, (value, moved) ∈ answers) ∨ ∃ root, (root, value) ∈ answers)
        ∧ (∀ moved, (∀ known, (value, known) ∈ answers → moved = known) →
            ((∃ root, (root, value) ∈ answers) → moved = value) →
            (next moved).RootsInOrder contract current answers order))
      ∨ ∃ skipped rest, order = skipped ++ value :: rest
        ∧ (∀ root ∈ skipped, Answered answers root)
        ∧ ∀ moved, (∀ known, (value, known) ∈ answers → moved = known) →
            ((∃ root, (root, value) ∈ answers) → moved = value) →
            (next moved).RootsInOrder contract current ((value, moved) :: answers) rest
  | .load _ _, _, _, _ => False
  | .words _ _ _, _, _, _ => False
  | .visitSlot _ _, _, _, _ => False
  | .allocate, _, _, _ => False
  | .collect, _, _, _ => False
  | .fail _, _, _, _ => False

end Visit

/-- The callbacks of full collections visit objects in an order, and the roots of the host in the order
in which it keeps them.
-/
structure Host.Follows (host : Host σ δ) (contract : Contract σ)
    (order : VisitingOrder contract.layout)
    : Prop where
  scanFull
    : ∀ object words kept,
        object.Decodes →
        object.offset + contract.layout.size words ≤ maxOffsetWords →
        contract.layout.IsObject words →
        (host.scanFull object).InOrder contract kept (contract.layout.item object words)
          (fun _ => False) (order.slots words)
  scanFixedFull
    : ∀ object words kept,
        object.Decodes →
        object.offset + words ≤ maxOffsetWords →
        (host.scanFixedFull object words).InOrder contract kept (.payload object words)
          (fun _ => False) (order.payload object words)
  extraFullRoots
    : ∀ roots, host.extraFullRoots.RootsInOrder contract roots [] roots

end MovingHeap
