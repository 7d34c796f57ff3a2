import Mathlib.Data.List.Dedup
import Mathlib.Data.List.Destutter
import Mathlib.Data.List.Sort
import Mathlib.Data.List.TakeWhile
import Mathlib.Order.Bounds.Basic
import MovingHeap.Proofs.FixedLifetime

/-! The slot sizes of a progression and the lookup of a size among them.
Whatever a progression proposes, the sizes in use are ascending and go up to the cutoff, so that the
first class that holds an object is the smallest that does.
-/

namespace MovingHeap.SizeClasses

-----------------------------------------------------------------------------------------
-- Rounding
-----------------------------------------------------------------------------------------

/-- Sizes are rounded to the least even size that is not below them. -/
theorem isLeast_roundUp (words : Nat)
    : IsLeast {size | 2 ∣ size ∧ words ≤ size} (roundUp words) := by
  simp only [roundUp, step]
  refine ⟨⟨⟨(words + 1) / 2, by omega⟩, by omega⟩, ?_⟩
  intro size even
  obtain ⟨⟨half, rfl⟩, enough⟩ := even
  omega

/-- More words are not rounded to a smaller size. -/
theorem roundUp_mono {words more : Nat} (grows : words ≤ more) : roundUp words ≤ roundUp more :=
  (isLeast_roundUp words).2
    ⟨(isLeast_roundUp more).1.1, grows.trans (isLeast_roundUp more).1.2⟩

-----------------------------------------------------------------------------------------
-- Ascending lists of sizes
-----------------------------------------------------------------------------------------

/-- A list of sizes as the fixed space needs it: all of them even and in order, with the small steps and
the cutoff among them and none beyond.
-/
structure Graded (sizes : List Nat) : Prop where
  ascending : sizes.Pairwise (· < ·)
  even : ∀ size ∈ sizes, 2 ∣ size
  steps : [2, 4, 6, 8, 10, 12, 14] ⊆ sizes
  cutoff : IsGreatest {size | size ∈ sizes} largeCutoff

variable {sizes : List Nat} {size other index words : Nat}

/-- What is in a list that a size was put into. -/
theorem mem_insert : other ∈ insert size sizes ↔ other = size ∨ other ∈ sizes := by
  induction sizes with
  | nil => exact List.mem_cons
  | cons head rest ih =>
      simp only [insert]
      split_ifs with below same
      · exact List.mem_cons
      · subst same
        simp
      · simp only [List.mem_cons, ih]
        tauto

/-- A list stays ascending with a size put into it. -/
theorem ascending_insert (ascending : sizes.Pairwise (· < ·))
    : (insert size sizes).Pairwise (· < ·) := by
  induction sizes with
  | nil => exact List.pairwise_singleton _ _
  | cons head rest ih =>
      obtain ⟨above, sorted⟩ := List.pairwise_cons.mp ascending
      simp only [insert]
      split_ifs with below same
      · refine ascending.cons fun later member => ?_
        rcases List.mem_cons.mp member with rfl | member
        · exact below
        · exact below.trans (above later member)
      · exact ascending
      · refine (ih sorted).cons fun later member => ?_
        rcases mem_insert.mp member with rfl | member
        · omega
        · exact above later member

/-- What is in a list that was put in order, by one size after another. -/
theorem mem_inOrder : other ∈ inOrder sizes ↔ other ∈ sizes := by
  induction sizes with
  | nil => exact Iff.rfl
  | cons head rest ih =>
      change other ∈ insert head (inOrder rest) ↔ _
      rw [mem_insert, List.mem_cons, ih]

/-- A list that was put in order is ascending, by one size after another. -/
theorem ascending_inOrder (sizes : List Nat) : (inOrder sizes).Pairwise (· < ·) := by
  induction sizes with
  | nil => exact .nil
  | cons head rest ih => exact ascending_insert ih

/-- Putting sizes in order comes to sorting them and dropping each that is equal to the one before it. -/
theorem inOrder_eq_destutter (sizes : List Nat)
    : inOrder sizes = (sizes.mergeSort (· ≤ ·)).destutter (· ≠ ·) := by
  have sorted : (sizes.mergeSort (· ≤ ·)).Pairwise (· ≤ ·) := List.pairwise_mergeSort' (· ≤ ·) sizes
  have once := List.nodup_dedup (sizes.mergeSort (· ≤ ·))
  have ascending : (sizes.mergeSort (· ≤ ·)).dedup.Pairwise (· < ·) :=
    ((sorted.sublist (List.dedup_sublist _)).and once).imp fun both =>
      Nat.lt_of_le_of_ne both.1 both.2
  rw [sorted.destutter_eq_dedup]
  refine (ascending_inOrder sizes).eq_of_mem_iff ascending fun size => ?_
  rw [mem_inOrder, List.mem_dedup, List.mem_mergeSort]

-----------------------------------------------------------------------------------------
-- Progressions
-----------------------------------------------------------------------------------------

section Progressions

variable {σ : Type} {advance : σ → σ} {proposed : σ → Nat} {limit : Nat} {state : σ}
  {found : List Nat}

/-- Sizes as they come: the steps are among them, and none is odd or beyond the cutoff. -/
structure Gathered (sizes : List Nat) : Prop where
  steps : stepped ⊆ sizes
  even : ∀ size ∈ sizes, 2 ∣ size
  small : ∀ size ∈ sizes, size ≤ largeCutoff

theorem gathered_stepped : Gathered stepped where
  steps := List.Subset.refl _
  even := by decide
  small := by decide

/-- An even size up to the cutoff may be appended. -/
theorem Gathered.append (gathered : Gathered sizes) (even : 2 ∣ size) (small : size ≤ largeCutoff)
    : Gathered (sizes ++ [size]) where
  steps := List.subset_append_of_subset_left _ gathered.steps
  even := by
    intro other member
    rcases List.mem_append.mp member with former | last
    · exact gathered.even other former
    · rwa [List.mem_singleton.mp last]
  small := by
    intro other member
    rcases List.mem_append.mp member with former | last
    · exact gathered.small other former
    · rwa [List.mem_singleton.mp last]

/-- Whatever a progression proposes may be appended, by induction on what may still be proposed. -/
theorem Gathered.extend (gathered : Gathered sizes)
    (built : extend advance proposed limit state sizes = some found)
    : Gathered found := by
  induction limit generalizing state sizes with
  | zero => cases built
  | succ limit ih =>
      simp only [SizeClasses.extend] at built
      split_ifs at built with beyond again
      · cases built
        exact gathered
      · exact ih gathered built
      · have least := isLeast_roundUp (proposed state)
        have small : roundUp (proposed state) ≤ largeCutoff :=
          least.2 ⟨by decide, Nat.le_of_not_lt beyond⟩
        exact ih (gathered.append least.1.1 small) built

/-- Sizes that came with the cutoff as the last one are as the fixed space needs them once in order. -/
theorem Gathered.graded (gathered : Gathered sizes) : Graded (inOrder (sizes ++ [largeCutoff])) where
  ascending := ascending_inOrder _
  even := by
    intro size member
    have all := gathered.append (by decide) (Nat.le_refl _)
    exact all.even size (mem_inOrder.mp member)
  steps := by
    intro size step
    have here : size ∈ stepped := step
    exact mem_inOrder.mpr (List.mem_append_left _ (gathered.steps here))
  cutoff := by
    have all := gathered.append (by decide) (Nat.le_refl _)
    refine ⟨mem_inOrder.mpr List.mem_concat_self, fun size member => ?_⟩
    exact all.small size (mem_inOrder.mp member)

/-- The classes of a progression are the sizes that it makes classes of, in order. -/
theorem graded_ofProgression {classes : SizeClasses} {start : σ}
    (built : ofProgression? advance proposed limit start = some classes)
    : Graded classes.sizes
      ∧ ∃ sizes,
          listed? advance proposed limit start = some sizes ∧ classes.sizes = inOrder sizes := by
  obtain ⟨sizes, listed, rfl⟩ := Option.map_eq_some_iff.mp built
  obtain ⟨found, added, rfl⟩ := Option.map_eq_some_iff.mp listed
  exact ⟨(gathered_stepped.extend added).graded, _, listed, rfl⟩

end Progressions

-----------------------------------------------------------------------------------------
-- Looking up sizes
-----------------------------------------------------------------------------------------

/-- The classes before the first that holds some words are those that are too small for them. -/
theorem lt_takeWhile_iff (ascending : sizes.Pairwise (· < ·)) (there : sizes[index]? = some size)
    : index < (sizes.takeWhile (· < words)).length ↔ size < words := by
  induction sizes generalizing index with
  | nil => cases there
  | cons head rest ih =>
      obtain ⟨above, sorted⟩ := List.pairwise_cons.mp ascending
      by_cases small : head < words
      · rw [List.takeWhile_cons_of_pos (by simpa using small), List.length_cons]
        cases index with
        | zero =>
            cases there
            simpa using small
        | succ index =>
            rw [Nat.succ_lt_succ_iff]
            exact ih sorted there
      · rw [List.takeWhile_cons_of_neg (by simpa using small)]
        have enough : head ≤ size := by
          cases index with
          | zero =>
              cases there
              exact Nat.le_refl _
          | succ index => exact (above size (List.mem_of_getElem? there)).le
        simp only [List.length_nil, Nat.not_lt_zero, false_iff]
        omega

/-- What the class and the slot size for some words are: the first and the smallest that hold them, and
beyond the cutoff an even size of its own.
-/
structure Serves (classes : SizeClasses) (words : Nat) : Prop where
  first
    : words ≤ largeCutoff →
        IsLeast {index | ∃ size, classes.sizes[index]? = some size ∧ words ≤ size}
          (classes.indexFor words)
  large : classes.indexFor words = classes.large ↔ largeCutoff < words
  even : 2 ∣ classes.capacity (classes.indexFor words) words
  enough : words ≤ classes.capacity (classes.indexFor words) words
  smallest
    : words ≤ largeCutoff →
        IsLeast {size | size ∈ classes.sizes ∧ words ≤ size}
          (classes.capacity (classes.indexFor words) words)
  rounded
    : largeCutoff < words →
        IsLeast {size | 2 ∣ size ∧ words ≤ size} (classes.capacity (classes.indexFor words) words)

variable {classes : SizeClasses}

/-- Words beyond the cutoff have no class, as all classes are too small. -/
theorem Graded.indexFor_large (graded : Graded classes.sizes) (beyond : largeCutoff < words)
    : classes.indexFor words = classes.large := by
  have all : classes.sizes.takeWhile (· < words) = classes.sizes := by
    rw [List.takeWhile_eq_self_iff]
    intro size member
    exact decide_eq_true ((graded.cutoff.2 member).trans_lt beyond)
  rw [indexFor, all, large]

/-- Up to the cutoff some class holds the words, and the first that does is the smallest. -/
theorem Graded.exists_indexFor (graded : Graded classes.sizes) (small : words ≤ largeCutoff)
    : ∃ size,
        classes.sizes[classes.indexFor words]? = some size
        ∧ IsLeast {size | size ∈ classes.sizes ∧ words ≤ size} size := by
  obtain ⟨last, there⟩ := List.mem_iff_getElem?.mp graded.cutoff.1
  have before : classes.indexFor words ≤ last :=
    Nat.le_of_not_lt fun later => absurd ((lt_takeWhile_iff graded.ascending there).mp later) (by omega)
  have inside : classes.indexFor words < classes.sizes.length :=
    before.trans_lt (List.getElem?_eq_some_iff.mp there).1
  have found := List.getElem?_eq_getElem inside
  refine ⟨_, found, ⟨List.getElem_mem inside, le_of_indexFor found⟩, ?_⟩
  intro other fits
  obtain ⟨place, held⟩ := List.mem_iff_getElem?.mp fits.1
  have behind : classes.indexFor words ≤ place :=
    Nat.le_of_not_lt fun early =>
      absurd ((lt_takeWhile_iff graded.ascending held).mp early) (Nat.not_lt.mpr fits.2)
  obtain ⟨bound, rfl⟩ := List.getElem?_eq_some_iff.mp held
  rcases Nat.eq_or_lt_of_le behind with same | later
  · simp only [same, Nat.le_refl]
  · exact (List.pairwise_iff_getElem.mp graded.ascending _ _ inside bound later).le

/-- The slot size of words beyond the cutoff. -/
theorem Graded.capacity_large (graded : Graded classes.sizes) (beyond : largeCutoff < words)
    : classes.capacity (classes.indexFor words) words = roundUp words := by
  rw [graded.indexFor_large beyond, capacity, large, List.getElem?_eq_none (Nat.le_refl _),
    Option.getD_none]

/-- The slot size of words up to the cutoff. -/
theorem Graded.capacity_small (graded : Graded classes.sizes) (small : words ≤ largeCutoff)
    : IsLeast {size | size ∈ classes.sizes ∧ words ≤ size}
        (classes.capacity (classes.indexFor words) words) := by
  obtain ⟨size, found, least⟩ := graded.exists_indexFor small
  rw [capacity, found, Option.getD_some]
  exact least

/-- Every number of words is served. -/
theorem Graded.serves (graded : Graded classes.sizes) (words : Nat) : classes.Serves words := by
  refine ⟨fun small => ⟨?_, ?_⟩, ⟨fun none => ?_, graded.indexFor_large⟩, ?_,
    classes.le_capacity words, graded.capacity_small, fun beyond => ?_⟩
  · obtain ⟨size, found, least⟩ := graded.exists_indexFor small
    exact ⟨size, found, least.1.2⟩
  · intro index held
    obtain ⟨size, there, enough⟩ := held
    exact Nat.le_of_not_lt fun early =>
      absurd ((lt_takeWhile_iff graded.ascending there).mp early) (Nat.not_lt.mpr enough)
  · by_contra small
    obtain ⟨size, found, -⟩ := graded.exists_indexFor (Nat.le_of_not_lt small)
    rw [none, large, List.getElem?_eq_none (Nat.le_refl _)] at found
    cases found
  · rcases Nat.lt_or_ge largeCutoff words with beyond | small
    · rw [graded.capacity_large beyond]
      exact (isLeast_roundUp words).1.1
    · exact graded.even _ (graded.capacity_small small).1.1
  · rw [graded.capacity_large beyond]
    exact isLeast_roundUp words

/-- More words are not given a smaller slot. -/
theorem Graded.capacity_mono (graded : Graded classes.sizes)
    : Monotone fun words => classes.capacity (classes.indexFor words) words := by
  intro words more grows
  simp only
  rcases Nat.lt_or_ge largeCutoff words with beyond | small
  · rw [graded.capacity_large beyond, graded.capacity_large (beyond.trans_le grows)]
    exact roundUp_mono grows
  · have least := graded.capacity_small small
    rcases Nat.lt_or_ge largeCutoff more with beyond | fits
    · exact ((graded.cutoff.2 least.1.1).trans beyond.le).trans (classes.le_capacity more)
    · have next := graded.capacity_small fits
      exact least.2 ⟨next.1.1, grows.trans next.1.2⟩

-----------------------------------------------------------------------------------------
-- Classes that fit
-----------------------------------------------------------------------------------------

/-- What the fixed space can rely on in its slot sizes. -/
structure Fitting (classes : SizeClasses) : Prop where
  graded : Graded classes.sizes
  serves : ∀ words, classes.Serves words
  monotone : Monotone fun words => classes.capacity (classes.indexFor words) words

/-- The classes are what a progression lists, sorted and without what is equal to the one before it. -/
def Sorts (classes : SizeClasses) {σ : Type} (advance : σ → σ) (proposed : σ → Nat) (limit : Nat)
    (start : σ)
    : Prop :=
  ∃ sizes,
    listed? advance proposed limit start = some sizes
    ∧ classes.sizes = (sizes.mergeSort (· ≤ ·)).destutter (· ≠ ·)

/-- The classes of a progression fit, and sorting makes no others. -/
theorem fitting_of_built {σ : Type} {advance : σ → σ} {proposed : σ → Nat} {limit : Nat} {start : σ}
    (built : ofProgression? advance proposed limit start = some classes)
    : classes.Fitting ∧ classes.Sorts advance proposed limit start := by
  obtain ⟨graded, sizes, listed, same⟩ := graded_ofProgression built
  refine ⟨⟨graded, graded.serves, graded.capacity_mono⟩, sizes, listed, ?_⟩
  rw [same, inOrder_eq_destutter]

end MovingHeap.SizeClasses
