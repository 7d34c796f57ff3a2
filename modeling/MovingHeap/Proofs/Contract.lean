import Mathlib.Tactic.Common
import MovingHeap.Host
import MovingHeap.Proofs.Packing

/-! What a host promises to a collection.
A host lays its objects out in a way that their own words tell, copies them unchanged, visits exactly
their reference slots, and forwards every root it keeps. Its state may change on the way as long as
it keeps the promise and the roots.
-/

namespace MovingHeap

variable {σ δ α : Type}

/-- How moving objects are laid out, told from the words that begin with them. The words that are no
reference slots decide, so an object stays one when its references are forwarded.
-/
structure Layout where
  IsObject : (Nat → Word) → Prop
  size : (Nat → Word) → Nat
  IsSlot : (Nat → Word) → Nat → Prop
  two_le_size : ∀ {words}, IsObject words → 2 ≤ size words
  first_ne_zero : ∀ {words}, IsObject words → words 0 ≠ 0
  slot_lt : ∀ {words index}, IsObject words → IsSlot words index → index < size words
  agree
    : ∀ {words other},
        IsObject words →
        (∀ index < size words, ¬ IsSlot words index → other index = words index) →
        other 0 ≠ 0 →
        IsObject other ∧ size other = size words
          ∧ ∀ index, IsSlot other index ↔ IsSlot words index

/-- A promise: the layout of objects, the roots that the host keeps itself, and the states in which
it keeps the promise.
-/
structure Contract (σ : Type) where
  layout : Layout
  roots : σ → List Value
  Upholds : σ → Prop

/-- The host still keeps the promise and keeps the same roots. -/
def Contract.Keeps (contract : Contract σ) (before after : σ) : Prop :=
  contract.Upholds after ∧ contract.roots after = contract.roots before

/-- Memory that a host is asked to scan: as many words from an address on, some of them slots. -/
structure Item where
  object : Address
  size : Nat
  /-- The words that are no slots. -/
  word : Nat → Word
  IsSlot : Nat → Prop

/-- A moving object to scan. -/
def Layout.item (layout : Layout) (object : Address) (words : Nat → Word) : Item where
  object
  size := layout.size words
  word := words
  IsSlot := layout.IsSlot words

/-- A fixed object to scan, all of whose words are slots. -/
def Item.payload (object : Address) (words : Nat) : Item where
  object
  size := words
  word := fun _ => 0
  IsSlot := (· < words)

/-- A view as words, zero behind its end. -/
def Window.field (window : Window) (index : Nat) : Word := (window.get? index).getD 0

namespace Visit

/-- The visit reads the words of the item only, visits its slots only, and each of them unless it was
read to hold no reference. It goes on like that whatever it reads in slots, from every state of the
host that keeps the promise, and ends with an accepted answer.
-/
def Scans (contract : Contract σ) (kept : List Value) (full : Bool) (item : Item)
    (accepted : α → Prop)
    : Visit σ α → (handled : Nat → Prop) → Prop
  | .done result, handled => accepted result ∧ ∀ index, item.IsSlot index → handled index
  | .getHost next, handled =>
      ∀ host, contract.Upholds host → contract.roots host = kept →
        (next host).Scans contract kept full item accepted handled
  | .setHost host next, handled =>
      contract.Upholds host ∧ contract.roots host = kept
        ∧ next.Scans contract kept full item accepted handled
  | .note _ next, handled => next.Scans contract kept full item accepted handled
  | .isFull next, handled => (next full).Scans contract kept full item accepted handled
  | .load addr next, handled =>
      ∃ index < item.size, addr = item.object.add index
        ∧ ∀ word, (¬ item.IsSlot index → word = item.word index) →
          (next word).Scans contract kept full item accepted fun other =>
            handled other ∨ other = index ∧ (Value.mk word).address? = none
  | .words addr count next, handled =>
      ∃ first, addr = item.object.add first ∧ first + count ≤ item.size
        ∧ ∀ words : List Word, words.length = count →
          (∀ index (inside : index < words.length), ¬ item.IsSlot (first + index) →
            words[index] = item.word (first + index)) →
          (next words).Scans contract kept full item accepted fun other =>
            handled other
            ∨ ∃ index word, other = first + index ∧ words[index]? = some word
              ∧ (Value.mk word).address? = none
  | .visitSlot slot next, handled =>
      ∃ index, item.IsSlot index ∧ slot = item.object.add index
        ∧ next.Scans contract kept full item accepted fun other => handled other ∨ other = index
  | .visitValue _ _, _ => False
  | .allocate, _ => False
  | .collect, _ => False
  | .fail _, _ => False

/-- The visit forwards each of the roots that the host began with and keeps what comes of it. Only
roots are forwarded, or what came of them; a root that is no reference may be left alone. The answers
are those given so far, the last first.
-/
def ForwardsRoots (contract : Contract σ) (full : Bool) (initial : List Value)
    : Visit σ Unit → (current : List Value) → (answers : List (Value × Value)) → Prop
  | .done _, current, answers =>
      List.Forall₂ (fun root moved =>
        (root, moved) ∈ answers ∨ moved = root ∧ root.address? = none) initial current
  | .getHost next, current, answers =>
      ∀ host, contract.Upholds host → contract.roots host = current →
        (next host).ForwardsRoots contract full initial current answers
  | .setHost host next, _, answers =>
      contract.Upholds host
        ∧ next.ForwardsRoots contract full initial (contract.roots host) answers
  | .note _ next, current, answers => next.ForwardsRoots contract full initial current answers
  | .isFull next, current, answers =>
      (next full).ForwardsRoots contract full initial current answers
  | .visitValue value next, current, answers =>
      (value ∈ initial ∨ ∃ root, (root, value) ∈ answers)
        ∧ ∀ moved, (∀ known, (value, known) ∈ answers → moved = known) →
          ((∃ root, (root, value) ∈ answers) → moved = value) →
          (next moved).ForwardsRoots contract full initial current ((value, moved) :: answers)
  | .load _ _, _, _ => False
  | .words _ _ _, _, _ => False
  | .visitSlot _ _, _, _ => False
  | .allocate, _, _ => False
  | .collect, _, _ => False
  | .fail _, _, _ => False

end Visit

/-- The callbacks that tracing uses, and those around it, keep a promise. Copying answers the words of
the object and their number; scans visit the slots and answer the address behind the object; every word
of a fixed object is a slot; the callbacks for roots forward every root of the host.
-/
structure Host.Traces (host : Host σ δ) (contract : Contract σ) : Prop where
  copy
    : ∀ destination source state,
        contract.Upholds state →
        contract.layout.IsObject source.field →
        contract.layout.size source.field ≤ source.length →
        contract.layout.size source.field ≤ destination.length →
        (host.copy destination source state).answer
            = ⟨source.take (contract.layout.size source.field),
                contract.layout.size source.field⟩
          ∧ contract.Keeps state (host.copy destination source state).host
  scanMinor
    : ∀ object words kept,
        object.Decodes →
        object.offset + contract.layout.size words ≤ maxOffsetWords →
        contract.layout.IsObject words →
        (host.scanMinor object).Scans contract kept false (contract.layout.item object words)
          (· = object.add (contract.layout.size words)) fun _ => False
  scanFull
    : ∀ object words kept,
        object.Decodes →
        object.offset + contract.layout.size words ≤ maxOffsetWords →
        contract.layout.IsObject words →
        (host.scanFull object).Scans contract kept true (contract.layout.item object words)
          (· = object.add (contract.layout.size words)) fun _ => False
  scanFixedMinor
    : ∀ object words kept,
        object.Decodes →
        object.offset + words ≤ maxOffsetWords →
        (host.scanFixedMinor object words).Scans contract kept false (.payload object words)
          (fun _ => True) fun _ => False
  scanFixedFull
    : ∀ object words kept,
        object.Decodes →
        object.offset + words ≤ maxOffsetWords →
        (host.scanFixedFull object words).Scans contract kept true (.payload object words)
          (fun _ => True) fun _ => False
  extraMinorRoots
    : ∀ roots, host.extraMinorRoots.ForwardsRoots contract false roots roots []
  extraFullRoots
    : ∀ roots, host.extraFullRoots.ForwardsRoots contract true roots roots []
  beforeFull
    : ∀ state, contract.Upholds state → contract.Keeps state (host.beforeFull state).host
  afterFull
    : ∀ state, contract.Upholds state → contract.Keeps state (host.afterFull state).host

/-- The callbacks keep a promise, destructors included. -/
structure Host.Faithful (host : Host σ δ) (contract : Contract σ) : Prop
    extends host.Traces contract where
  destroy
    : ∀ destructor payload words state,
        contract.Upholds state →
        contract.Keeps state (host.destroy destructor payload words state).host

end MovingHeap
