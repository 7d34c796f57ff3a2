import MovingHeap.Proofs.HeapGraph
import MovingHeap.Proofs.Pass

/-! The old region as objects back to back.
There is one way at most to lay objects back to back over the same words, so the starts of the old
objects are determined; copies made one behind the other lie so, too.
-/

namespace MovingHeap

variable {σ δ : Type}

namespace Regions

variable {layout : Layout} {regions : Regions δ}

/-- Objects back to back in two parts. -/
theorem tiles_append {front back : List Nat} {start stop : Nat}
    : regions.Tiles layout (front ++ back) start stop
      ↔ ∃ middle, regions.Tiles layout front start middle ∧ regions.Tiles layout back middle stop := by
  induction front generalizing start with
  | nil => simp [Tiles]
  | cons first rest ih =>
      constructor
      · intro tiles
        obtain ⟨begins, isObject, more⟩ := tiles
        obtain ⟨middle, left, right⟩ := ih.mp more
        exact ⟨middle, ⟨begins, isObject, left⟩, right⟩
      · intro parts
        obtain ⟨middle, ⟨begins, isObject, left⟩, right⟩ := parts
        exact ⟨begins, isObject, ih.mpr ⟨middle, left, right⟩⟩

/-- Each of the objects lies between the ends. -/
theorem Tiles.of_mem {starts : List Nat} {start stop first : Nat}
    (tiles : regions.Tiles layout starts start stop) (member : first ∈ starts)
    : layout.IsObject (regions.wordsAt regions.old.space first)
      ∧ start ≤ first
      ∧ first + layout.size (regions.wordsAt regions.old.space first) ≤ stop := by
  induction starts generalizing start with
  | nil => cases member
  | cons head rest ih =>
      obtain ⟨begins, isObject, more⟩ := tiles
      have ends : ∀ {list : List Nat} {low high : Nat},
          regions.Tiles layout list low high → low ≤ high := by
        intro list
        induction list with
        | nil => intro low high same; exact Nat.le_of_eq same
        | cons other others ih =>
            intro low high tiles
            have behind := ih tiles.2.2
            have here := tiles.1
            omega
      rcases List.mem_cons.mp member with same | later
      · rw [same]
        exact ⟨isObject, by omega, ends more⟩
      · obtain ⟨found, above, below⟩ := ih more later
        exact ⟨found, by omega, below⟩

/-- Different objects back to back have no word in common, by looking for the first one of them. -/
theorem Tiles.apart {starts : List Nat} {start stop first second : Nat}
    (tiles : regions.Tiles layout starts start stop) (member : first ∈ starts)
    (there : second ∈ starts) (differs : first ≠ second)
    : first + layout.size (regions.wordsAt regions.old.space first) ≤ second
      ∨ second + layout.size (regions.wordsAt regions.old.space second) ≤ first := by
  induction starts generalizing start with
  | nil => cases member
  | cons head rest ih =>
      obtain ⟨begins, isObject, more⟩ := tiles
      rcases List.mem_cons.mp member with here | later
      · rcases List.mem_cons.mp there with here' | later'
        · exact absurd (here.trans here'.symm) differs
        · rw [here]
          exact Or.inl (more.of_mem later').2.1
      · rcases List.mem_cons.mp there with here' | later'
        · rw [here']
          exact Or.inr (more.of_mem later).2.1
        · exact ih more later later'

/-- Objects back to back between the same ends are the same objects, by induction along them. -/
theorem Tiles.unique {starts others : List Nat} {start stop : Nat}
    (left : regions.Tiles layout starts start stop)
    (right : regions.Tiles layout others start stop)
    : starts = others := by
  induction starts generalizing others start with
  | nil =>
      cases others with
      | nil => rfl
      | cons first rest =>
          have large := layout.two_le_size right.2.1
          obtain ⟨-, above, below⟩ := right.of_mem List.mem_cons_self
          have same : start = stop := left
          omega
  | cons first rest ih =>
      cases others with
      | nil =>
          have large := layout.two_le_size left.2.1
          obtain ⟨-, above, below⟩ := left.of_mem List.mem_cons_self
          have same : start = stop := right
          omega
      | cons other more =>
          obtain ⟨begins, -, tail⟩ := left
          obtain ⟨begins', -, tail'⟩ := right
          have heads : first = other := begins.trans begins'.symm
          rw [heads] at tail ⊢
          rw [ih tail tail']

/-- Objects that are still objects of their size still lie back to back. -/
theorem Tiles.alike {later : Regions δ} (space : later.old.space = regions.old.space)
    {starts : List Nat} {start stop : Nat} (tiles : regions.Tiles layout starts start stop)
    (same
      : ∀ first ∈ starts,
          layout.IsObject (regions.wordsAt regions.old.space first) →
          layout.IsObject (later.wordsAt regions.old.space first)
          ∧ layout.size (later.wordsAt regions.old.space first)
            = layout.size (regions.wordsAt regions.old.space first))
    : later.Tiles layout starts start stop := by
  induction starts generalizing start with
  | nil => exact tiles
  | cons first rest ih =>
      obtain ⟨begins, isObject, more⟩ := tiles
      obtain ⟨still, size⟩ := same first List.mem_cons_self isObject
      refine ⟨begins, ?_, ?_⟩
      · rwa [space]
      · rw [space, size]
        exact ih more fun other member => same other (List.mem_cons_of_mem _ member)

/-- Where a tiled object is a slot of the old region. -/
theorem slot_old_iff {starts : List Nat} {offset : Nat}
    (tiles : regions.Tiles layout starts 0 regions.old.cursor)
    (old : regions.old.space.isOld)
    : regions.Slot layout regions.old.space offset
      ↔ ∃ start ∈ starts, ∃ index,
          layout.IsSlot (regions.wordsAt regions.old.space start) index
          ∧ offset = start + index := by
  constructor
  · intro slot
    generalize here : regions.old.space = space at slot
    cases slot with
    | @old starts' start index tiles' member slot =>
        rw [tiles'.unique tiles] at member
        exact ⟨start, member, index, slot, rfl⟩
    | fixed found inside =>
        rw [here] at old
        cases old
  · intro found
    obtain ⟨start, member, index, slot, rfl⟩ := found
    exact .old tiles member slot

/-- A word of a tiled object that is no slot of it is no slot at all. -/
theorem Tiles.not_slot {starts : List Nat} {start index : Nat}
    (tiles : regions.Tiles layout starts 0 regions.old.cursor) (old : regions.old.space.isOld)
    (member : start ∈ starts)
    (inside : index < layout.size (regions.wordsAt regions.old.space start))
    (plain : ¬ layout.IsSlot (regions.wordsAt regions.old.space start) index)
    : ¬ regions.Slot layout regions.old.space (start + index) := by
  intro slot
  obtain ⟨other, there, position, isSlot, same⟩ := (slot_old_iff tiles old).mp slot
  by_cases equal : start = other
  · subst equal
    obtain rfl : index = position := by omega
    exact plain isSlot
  · have within := layout.slot_lt (tiles.of_mem there).1 isSlot
    rcases tiles.apart member there equal with below | above
    · omega
    · omega

/-- A slot outside of the birth region lies in allocated words of the old region or in the arena. -/
theorem Slot.inside (consistent : regions.fixed.Consistent) {space : Space} {offset : Nat}
    (slot : regions.Slot layout space offset)
    : space = .fixed ∧ offset < regions.fixed.arena.size
      ∨ space = regions.old.space ∧ offset < regions.old.cursor := by
  cases slot with
  | old tiles member slot =>
      obtain ⟨isObject, -, below⟩ := tiles.of_mem member
      have inside := layout.slot_lt isObject slot
      exact Or.inr ⟨rfl, by omega⟩
  | fixed found inside =>
      have payload := (consistent.payload found).1
      exact Or.inl ⟨rfl, by omega⟩

end Regions

/-- Copies made one behind the other lie back to back, by induction along those that follow. -/
theorem Pass.tiles_copies {pass : Pass σ δ} {trail : Trail} {layout : Layout} {after : Regions δ}
    (nodup : trail.moved.Nodup) {front rest : List Address} (split : trail.moved = front ++ rest)
    (copies
      : ∀ object ∈ trail.moved,
          layout.IsObject (after.wordsAt after.old.space (pass.copyOffset trail object))
          ∧ layout.size (after.wordsAt after.old.space (pass.copyOffset trail object))
            = pass.size object)
    : after.Tiles layout (rest.map (pass.copyOffset trail)) (pass.base + extent pass.size front)
        (pass.base + extent pass.size trail.moved) := by
  induction rest generalizing front with
  | nil =>
      rw [List.append_nil] at split
      rw [split]
      rfl
  | cons object rest ih =>
      have member : object ∈ trail.moved := by simp [split]
      have fresh : object ∉ front := by
        rw [split] at nodup
        exact fun inside =>
          (List.nodup_append.mp nodup).2.2 object inside object List.mem_cons_self rfl
      have place : pass.copyOffset trail object = pass.base + extent pass.size front := by
        rw [copyOffset, split, offsetIn_append_cons fresh]
      obtain ⟨isObject, size⟩ := copies object member
      refine ⟨place, isObject, ?_⟩
      have further := ih (show trail.moved = (front ++ [object]) ++ rest by simp [split])
      have single : extent pass.size [object] = pass.size object := by simp [extent]
      rw [extent_append, single, ← Nat.add_assoc] at further
      rwa [size, place]

end MovingHeap
