import Mathlib.Algebra.BigOperators.Group.Finset.Basic
import Mathlib.Algebra.GroupWithZero.Nat
import Mathlib.Data.Finset.Prod
import Mathlib.Order.Interval.Finset.Nat
import MovingHeap.Proofs.Evolution
import MovingHeap.Proofs.Graph

/-! One collection as it traces.
Objects are copied back to back in the order in which they are met, so the list of objects moved so
far says where each copy is. A reference is settled once its target was moved or marked, and from then
on it is known what it becomes.
-/

namespace MovingHeap

variable {σ δ : Type}

-----------------------------------------------------------------------------------------
-- Objects back to back
-----------------------------------------------------------------------------------------

/-- The words of some objects together. -/
def extent (size : Address → Nat) (objects : List Address) : Nat := (objects.map size).sum

/-- Where an object begins if the objects of a list are laid back to back. -/
def offsetIn (size : Address → Nat) : List Address → Address → Nat
  | [], _ => 0
  | head :: rest, object => if head = object then 0 else size head + offsetIn size rest object

section BackToBack

variable {size : Address → Nat} {objects : List Address} {object : Address}

/-- The words of the objects of two lists together. -/
@[simp] theorem extent_append (front back : List Address)
    : extent size (front ++ back) = extent size front + extent size back := by
  simp [extent]

/-- An object ends within the words of all, by looking for it in the list. -/
theorem offsetIn_add_size_le (member : object ∈ objects)
    : offsetIn size objects object + size object ≤ extent size objects := by
  induction objects with
  | nil => cases member
  | cons head rest ih =>
      simp only [offsetIn, extent, List.map_cons, List.sum_cons] at ih ⊢
      split_ifs with here
      · subst here
        omega
      · have later := ih (List.mem_of_ne_of_mem (Ne.symm here) member)
        omega

/-- Later objects do not change where an object begins, by looking for it in the list. -/
theorem offsetIn_append (member : object ∈ objects) (more : List Address)
    : offsetIn size (objects ++ more) object = offsetIn size objects object := by
  induction objects with
  | nil => cases member
  | cons head rest ih =>
      simp only [List.cons_append, offsetIn]
      split_ifs with here
      · rfl
      · rw [ih (List.mem_of_ne_of_mem (Ne.symm here) member)]

/-- An object begins where the objects before it end, by skipping them. -/
theorem offsetIn_append_cons {front : List Address} (fresh : object ∉ front)
    (back : List Address)
    : offsetIn size (front ++ object :: back) object = extent size front := by
  induction front with
  | nil => simp [offsetIn, extent]
  | cons head rest ih =>
      rw [List.mem_cons, not_or] at fresh
      obtain ⟨differs, fresh⟩ := fresh
      simp only [List.cons_append, offsetIn, if_neg (Ne.symm differs), ih fresh, extent,
        List.map_cons, List.sum_cons]

/-- Two objects lie apart, by looking for the first one of them in the list. -/
theorem offsetIn_apart {other : Address} (member : object ∈ objects) (there : other ∈ objects)
    (differs : object ≠ other)
    : offsetIn size objects object + size object ≤ offsetIn size objects other
      ∨ offsetIn size objects other + size other ≤ offsetIn size objects object := by
  induction objects with
  | nil => cases member
  | cons head rest ih =>
      simp only [offsetIn]
      split_ifs with here also
      · exact absurd (here.symm.trans also) differs
      · subst here
        exact Or.inl (by omega)
      next also =>
        subst also
        exact Or.inr (by omega)
      next also =>
        have apart := ih (List.mem_of_ne_of_mem (Ne.symm here) member)
          (List.mem_of_ne_of_mem (Ne.symm also) there)
        omega

/-- Objects back to back have no word in common. -/
theorem offsetIn_inj {other : Address} {first second : Nat} (member : object ∈ objects)
    (there : other ∈ objects) (left : first < size object) (right : second < size other)
    (same : offsetIn size objects object + first = offsetIn size objects other + second)
    : object = other ∧ first = second := by
  by_cases equal : object = other
  · subst equal
    exact ⟨rfl, by omega⟩
  · have apart : offsetIn size objects object + size object ≤ offsetIn size objects other
        ∨ offsetIn size objects other + size other ≤ offsetIn size objects object :=
      offsetIn_apart member there equal
    omega

end BackToBack

-----------------------------------------------------------------------------------------
-- What a collection begins with and what it has done
-----------------------------------------------------------------------------------------

/-- A collection: what the host promises, memory as it was, the values that tracing starts from and the
cells of objects that stay whose references it forwards.
-/
structure Pass (σ δ : Type) where
  contract : Contract σ
  before : Regions δ
  start : Value → Prop
  handles : Space → Nat → Prop

/-- What was done so far: the objects moved, in the order of their copies, and the starts of the fixed
objects marked.
-/
structure Trail where
  moved : List Address := []
  marked : List Nat := []

/-- More was done. -/
structure Trail.Grows (before now : Trail) : Prop where
  moved : before.moved <+: now.moved
  marked : ∀ begin ∈ before.marked, begin ∈ now.marked

namespace Trail.Grows

theorem refl (trail : Trail) : trail.Grows trail :=
  ⟨List.prefix_rfl, fun _ => id⟩

theorem trans {before now later : Trail} (first : before.Grows now) (second : now.Grows later)
    : before.Grows later :=
  ⟨first.moved.trans second.moved, fun begin => second.marked begin ∘ first.marked begin⟩

/-- What was moved stays moved. -/
theorem mem {before now : Trail} (grows : before.Grows now) {object : Address}
    (member : object ∈ before.moved)
    : object ∈ now.moved :=
  grows.moved.subset member

end Trail.Grows

/-- What was done so far, with the fixed objects that wait to be scanned, the last marked first. -/
structure Tour extends Trail where
  waiting : List Nat := []

/-- What tracing does about a value: an object that moves is moved and a fixed one is marked, each when
it is met for the first time.
-/
def Regions.meet (regions : Regions δ) (full : Bool) (tour : Tour) (value : Value) : Tour :=
  match value.address? with
  | none => tour
  | some addr =>
      if regions.moves full addr.space then
        if addr ∈ tour.moved then tour else { tour with moved := tour.moved ++ [addr] }
      else if full && addr.space == .fixed && !regions.forgets addr then
        match regions.fixed.containing? addr.offset with
        | none => tour
        | some begin =>
            if begin ∈ tour.marked then tour
            else { tour with marked := begin :: tour.marked, waiting := begin :: tour.waiting }
      else tour

/-- How far tracing has come where memory is as it is by now. -/
def Trail.tour (trail : Trail) (now : Regions δ) : Tour := { trail with waiting := now.unscanned }

namespace Pass

variable (pass : Pass σ δ)

/-- How objects are laid out. -/
abbrev layout : Layout := pass.contract.layout

/-- Whether the collection is a full one. -/
def full : Bool := pass.before.isFull

/-- Whether objects of the space move. -/
def moves (space : Space) : Bool := pass.before.moves pass.full space

/-- The values met from the start. -/
def Traced : Value → Prop := pass.before.Traced pass.layout pass.full pass.start

/-- The words of an object as it was. -/
def size (object : Address) : Nat := pass.layout.size (pass.before.field object)

/-- Where the first copy goes. -/
def base : Nat := pass.before.destination.cursor

/-- The space that copies go to. -/
def space : Space := pass.before.destination.space

/-- Where the copy of an object begins. -/
def copyOffset (trail : Trail) (object : Address) : Nat :=
  pass.base + offsetIn pass.size trail.moved object

/-- The copy of an object. -/
def copyOf (trail : Trail) (object : Address) : Address :=
  .pack pass.space (pass.copyOffset trail object)

/-- What a value becomes. -/
def relocated (trail : Trail) (value : Value) : Value :=
  match value.address? with
  | none => value
  | some addr =>
      if pass.moves addr.space then (pass.copyOf trail addr).toValue
      else if pass.full && addr.space == .fixed && pass.before.forgets addr then .null
      else value

/-- It is known what the value becomes: the target has moved or was marked. -/
def Settled (trail : Trail) (value : Value) : Prop :=
  ∀ addr, value.address? = some addr →
    (pass.moves addr.space → addr ∈ trail.moved)
    ∧ (pass.full → addr.space = .fixed → pass.before.forgets addr = false →
        ∀ begin, pass.before.fixed.containing? addr.offset = some begin → begin ∈ trail.marked)

/-- Whether the cell belongs to an object that stays where it is. -/
def Stays (space : Space) (offset : Nat) : Prop :=
  space = .fixed ∧ offset < pass.before.fixed.arena.size
  ∨ pass.full = false ∧ space = pass.before.old.space ∧ offset < pass.base

/-- What tracing does about a value. -/
def meet : Tour → Value → Tour := pass.before.meet pass.full

/-- The cell is a slot that held a value when tracing began: one in a copy or one that is handled where
it is.
-/
inductive Holds (trail : Trail) : Space → Nat → Value → Prop where
  | copied {object : Address} {index : Nat} (moved : object ∈ trail.moved)
      (slot : pass.layout.IsSlot (pass.before.field object) index)
      : Holds trail pass.space (pass.copyOffset trail object + index)
          ⟨pass.before.field object index⟩
  | stayed {space : Space} {offset : Nat} (handled : pass.handles space offset)
      : Holds trail space offset ⟨pass.before.cell space offset⟩

/-- The word is what the value became or, as long as it was not forwarded, the value. -/
def Carried (trail : Trail) (value : Value) (word : Word) : Prop :=
  word = value.raw ∨ pass.Settled trail value ∧ word = (pass.relocated trail value).raw

/-- The word is what the value became. -/
def Forwarded (trail : Trail) (value : Value) (word : Word) : Prop :=
  pass.Settled trail value ∧ word = (pass.relocated trail value).raw

/-- The collection can trace: memory has room for all that moves, nothing is marked, and the values met
are well-formed references.
-/
structure Ready : Prop where
  apart : pass.before.Apart
  birthInside : pass.before.birth.cursor ≤ pass.before.birth.words.size
  oldInside : pass.before.old.cursor ≤ pass.before.old.words.size
  birthSmall : pass.before.birth.words.size ≤ maxOffsetWords
  oldSmall : pass.before.old.words.size ≤ maxOffsetWords
  destinationSmall : pass.before.destination.words.size ≤ maxOffsetWords
  fixedSmall : pass.before.fixed.arena.size ≤ maxOffsetWords
  consistent : pass.before.fixed.Consistent
  noneMarked : pass.before.fixed.NoneMarked
  unscanned : pass.before.unscanned = []
  room
    : pass.base + pass.before.birth.cursor + (if pass.full then pass.before.old.cursor else 0)
      ≤ pass.before.destination.words.size
  object
    : ∀ addr : Address,
        addr.Decodes →
        pass.Traced addr.toValue →
        pass.moves addr.space →
        pass.layout.IsObject (pass.before.field addr)
          ∧ addr.offset + pass.size addr ≤ pass.before.limit addr.space
  separate
    : ∀ first second : Address,
        first.Decodes →
        second.Decodes →
        pass.Traced first.toValue →
        pass.Traced second.toValue →
        first.space = second.space →
        pass.moves first.space →
        first ≠ second →
        first.offset + pass.size first ≤ second.offset
          ∨ second.offset + pass.size second ≤ first.offset
  known
    : pass.full →
        ∀ addr : Address,
          addr.Decodes →
          pass.Traced addr.toValue →
          if addr.space = .fixed then (pass.before.fixed.containing? addr.offset).isSome
          else pass.moves addr.space
  handled
    : ∀ space offset,
        pass.handles space offset →
        pass.Traced ⟨pass.before.cell space offset⟩ ∧ pass.Stays space offset

section Ready

variable {pass} {trail : Trail} {value : Value}

-----------------------------------------------------------------------------------------
-- What values become
-----------------------------------------------------------------------------------------

/-- What is no reference is settled. -/
theorem settled_of_plain (plain : value.address? = none) : pass.Settled trail value := by
  intro addr found
  rw [plain] at found
  cases found

/-- What is no reference stays what it is. -/
theorem relocated_of_plain (plain : value.address? = none)
    : pass.relocated trail value = value := by
  simp [relocated, plain]

/-- A reference to a moving object becomes one to its copy. -/
theorem relocated_of_moves {addr : Address} (found : value.address? = some addr)
    (moves : pass.moves addr.space)
    : pass.relocated trail value = (pass.copyOf trail addr).toValue := by
  simp [relocated, found, moves]

/-- What is settled stays settled. -/
theorem Settled.grows {now : Trail} (settled : pass.Settled trail value)
    (grows : trail.Grows now)
    : pass.Settled now value := by
  intro addr found
  obtain ⟨moved, marked⟩ := settled addr found
  exact ⟨fun moves => grows.mem (moved moves), fun full fixed known begin covers =>
    grows.marked begin (marked full fixed known begin covers)⟩

/-- Nothing is done about a value that is settled. -/
theorem Settled.meet {tour : Tour} (settled : pass.Settled tour.toTrail value)
    : pass.meet tour value = tour := by
  unfold Pass.meet Regions.meet
  cases found : value.address? with
  | none => rfl
  | some addr =>
      obtain ⟨moved, marked⟩ := settled addr found
      dsimp only
      split_ifs with moves fresh follows
      · rfl
      · exact absurd (moved moves) fresh
      · simp only [Bool.and_eq_true, beq_iff_eq, Bool.not_eq_true'] at follows
        obtain ⟨⟨full, fixed⟩, known⟩ := follows
        cases covers : pass.before.fixed.containing? addr.offset with
        | none => rfl
        | some begin => exact if_pos (marked full fixed known begin covers)
      · rfl

/-- The copy of an object that was moved stays where it is. -/
theorem copyOffset_grows {now : Trail} (grows : trail.Grows now) {object : Address}
    (moved : object ∈ trail.moved)
    : pass.copyOffset now object = pass.copyOffset trail object := by
  obtain ⟨more, equal⟩ := grows.moved
  rw [copyOffset, copyOffset, ← equal, offsetIn_append moved]

/-- What a settled value becomes stays the same. -/
theorem Settled.relocated_grows {now : Trail} (settled : pass.Settled trail value)
    (grows : trail.Grows now)
    : pass.relocated now value = pass.relocated trail value := by
  unfold relocated
  cases found : value.address? with
  | none => rfl
  | some addr =>
      dsimp only
      split_ifs with moves
      · have moved := (settled addr found).1 moves
        rw [copyOf, copyOf, copyOffset_grows grows moved]
      · rfl
      · rfl

/-- A forwarded word stays one. -/
theorem Forwarded.grows {now : Trail} {word : Word} (forwarded : pass.Forwarded trail value word)
    (grows : trail.Grows now)
    : pass.Forwarded now value word :=
  ⟨forwarded.1.grows grows, by rw [forwarded.1.relocated_grows grows]; exact forwarded.2⟩

/-- A word that was carried over stays so. -/
theorem Carried.grows {now : Trail} {word : Word} (carried : pass.Carried trail value word)
    (grows : trail.Grows now)
    : pass.Carried now value word :=
  carried.imp id fun forwarded => Forwarded.grows forwarded grows

/-- A carried word that is no reference is forwarded: either the value is none, or it became none. -/
theorem Carried.forwarded_of_plain {word : Word} (carried : pass.Carried trail value word)
    (plain : (Value.mk word).address? = none)
    : pass.Forwarded trail value word := by
  rcases carried with rfl | forwarded
  · have here : value.address? = none := plain
    exact ⟨settled_of_plain here, by rw [relocated_of_plain here]⟩
  · exact forwarded

/-- What holds of a slot goes on to hold as more is done. -/
theorem Holds.grows {now : Trail} {space : Space} {offset : Nat}
    (holds : pass.Holds trail space offset value) (grows : trail.Grows now)
    : pass.Holds now space offset value := by
  cases holds with
  | copied moved slot =>
      rw [← copyOffset_grows grows moved]
      exact .copied (grows.mem moved) slot
  | stayed handled => exact .stayed handled

-----------------------------------------------------------------------------------------
-- Where things are
-----------------------------------------------------------------------------------------

/-- Copies go to an old space. -/
theorem Ready.isOld_space (ready : pass.Ready) : pass.space.isOld :=
  ready.apart.isOld_destination

/-- In a full collection copies go to the space that the old one is not. -/
theorem Ready.space_of_full (ready : pass.Ready) (full : pass.full)
    : pass.space = pass.before.old.space.flipped := by
  obtain ⟨target, there⟩ := Option.isSome_iff_exists.mp full
  rw [space, Regions.destination, there, Option.getD_some]
  exact ready.apart.target target there

/-- In a minor collection copies go to the old space. -/
theorem space_of_minor (minor : pass.full = false) : pass.space = pass.before.old.space := by
  have gone : pass.before.target = none := by simpa [full, Regions.isFull] using minor
  simp [space, Regions.destination, gone]

/-- Objects move out of the birth region or, in a full collection, the old one. -/
theorem moves_iff {space : Space}
    : pass.moves space ↔ space = .birth ∨ pass.full ∧ space = pass.before.old.space := by
  simp [moves, Regions.moves]

/-- Nothing moves out of the space that copies go to. -/
theorem Ready.not_moves_space (ready : pass.Ready) : pass.moves pass.space = false := by
  rw [Bool.eq_false_iff]
  intro moves
  have old := ready.isOld_space
  rcases moves_iff.mp moves with birth | ⟨full, same⟩
  · rw [birth] at old
    cases old
  · rw [ready.space_of_full full] at same
    exact Space.flipped_ne ready.apart.old same

/-- Nothing moves out of the fixed space. -/
theorem Ready.not_moves_fixed (ready : pass.Ready) : pass.moves .fixed = false := by
  rw [Bool.eq_false_iff]
  intro moves
  exact ready.apart.ne_fixed moves rfl

/-- What stays does not move. -/
theorem Ready.not_moves_of_stays (ready : pass.Ready) {space : Space} {offset : Nat}
    (stays : pass.Stays space offset)
    : pass.moves space = false := by
  rcases stays with ⟨rfl, -⟩ | ⟨minor, rfl, -⟩
  · exact ready.not_moves_fixed
  · rw [← space_of_minor minor]
    exact ready.not_moves_space

/-- What stays in the space that copies go to lies below them. -/
theorem Ready.lt_base_of_stays (ready : pass.Ready) {offset : Nat}
    (stays : pass.Stays pass.space offset)
    : offset < pass.base := by
  rcases stays with ⟨fixed, -⟩ | ⟨-, -, below⟩
  · have old := ready.isOld_space
    rw [fixed] at old
    cases old
  · exact below

-----------------------------------------------------------------------------------------
-- How much moves
-----------------------------------------------------------------------------------------

/-- Where the words of an object lie. -/
def places (pass : Pass σ δ) (object : Address) : Finset (Space × Nat) :=
  {object.space} ×ˢ Finset.Ico object.offset (object.offset + pass.size object)

/-- Where the words of the objects that move lie. -/
def cleared (pass : Pass σ δ) : Finset (Space × Nat) :=
  {.birth} ×ˢ Finset.range pass.before.birth.cursor
    ∪ {pass.before.old.space} ×ˢ
      Finset.range (if pass.full then pass.before.old.cursor else 0)

theorem card_places (object : Address) : (pass.places object).card = pass.size object := by
  simp [places]

theorem card_cleared_le
    : pass.cleared.card
      ≤ pass.before.birth.cursor + if pass.full then pass.before.old.cursor else 0 := by
  refine (Finset.card_union_le _ _).trans (Nat.le_of_eq ?_)
  simp

/-- Objects that move lie apart. -/
theorem Ready.disjoint_places (ready : pass.Ready) {first second : Address} (valid : first.Decodes)
    (traced : pass.Traced first.toValue) (moves : pass.moves first.space)
    (valid' : second.Decodes) (traced' : pass.Traced second.toValue) (differs : first ≠ second)
    : Disjoint (pass.places first) (pass.places second) := by
  rw [Finset.disjoint_left]
  rintro ⟨space, offset⟩ left right
  simp only [places, Finset.mem_product, Finset.mem_singleton, Finset.mem_Ico] at left right
  have apart := ready.separate first second valid valid' traced traced'
    (left.1.symm.trans right.1) moves differs
  omega

/-- An object that moves lies in a region that is cleared. -/
theorem Ready.places_subset (ready : pass.Ready) {object : Address} (valid : object.Decodes)
    (traced : pass.Traced object.toValue) (moves : pass.moves object.space)
    : pass.places object ⊆ pass.cleared := by
  rintro ⟨space, offset⟩ covers
  have bound := (ready.object object valid traced moves).2
  simp only [places, Finset.mem_product, Finset.mem_singleton, Finset.mem_Ico] at covers
  simp only [cleared, Finset.mem_union, Finset.mem_product, Finset.mem_singleton, Finset.mem_range]
  rcases moves_iff.mp moves with birth | ⟨full, same⟩
  · rw [Regions.limit, if_pos birth] at bound
    exact Or.inl ⟨covers.1.trans birth, by omega⟩
  · have later : object.space ≠ .birth := by
      rw [same]
      intro birth
      have isOld := ready.apart.old
      rw [birth] at isOld
      cases isOld
    rw [Regions.limit, if_neg later] at bound
    exact Or.inr ⟨covers.1.trans same, by rw [if_pos full]; omega⟩

/-- The objects that move fit into their regions together, as they lie apart. -/
theorem Ready.extent_le (ready : pass.Ready) {objects : List Address} (nodup : objects.Nodup)
    (met
      : ∀ object ∈ objects,
          object.Decodes ∧ pass.Traced object.toValue ∧ pass.moves object.space)
    : extent pass.size objects
      ≤ pass.before.birth.cursor + if pass.full then pass.before.old.cursor else 0 := by
  have disjoint : ∀ first ∈ objects.toFinset, ∀ second ∈ objects.toFinset, first ≠ second →
      Disjoint (pass.places first) (pass.places second) := by
    intro first here second there differs
    obtain ⟨valid, traced, moves⟩ := met first (List.mem_toFinset.mp here)
    obtain ⟨valid', traced', -⟩ := met second (List.mem_toFinset.mp there)
    exact ready.disjoint_places valid traced moves valid' traced' differs
  have inside : objects.toFinset.biUnion pass.places ⊆ pass.cleared := by
    refine Finset.biUnion_subset.mpr fun object here => ?_
    obtain ⟨valid, traced, moves⟩ := met object (List.mem_toFinset.mp here)
    exact ready.places_subset valid traced moves
  calc extent pass.size objects
      = ∑ object ∈ objects.toFinset, pass.size object :=
        (List.sum_toFinset pass.size nodup).symm
    _ = ∑ object ∈ objects.toFinset, (pass.places object).card :=
        Finset.sum_congr rfl fun object _ => (card_places object).symm
    _ = (objects.toFinset.biUnion pass.places).card := (Finset.card_biUnion disjoint).symm
    _ ≤ pass.cleared.card := Finset.card_le_card inside
    _ ≤ _ := card_cleared_le

end Ready

end Pass

end MovingHeap
