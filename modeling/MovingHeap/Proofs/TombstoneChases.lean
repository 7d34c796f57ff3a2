import MovingHeap.Proofs.FixedGrowth
import MovingHeap.Proofs.Guarantees

/-! Where the chase of tombstones ends, and when it never does.
A chase takes every pair of words for a tombstone that looks like one, so that what is left of dead
objects can send it around a circle; it ends for all other references, wherever they came from.
-/

namespace MovingHeap

variable {σ δ : Type}

namespace Regions

-----------------------------------------------------------------------------------------
-- Ways through birth memory
-----------------------------------------------------------------------------------------

/-- The value is the birth address of a word pair, a zero and behind it the next value, not null. -/
structure Hops (regions : Regions δ) (value next : Value) : Prop where
  pair
    : ∃ addr,
        value.address? = some addr
        ∧ addr.space = .birth
        ∧ regions.slice? addr 2 = some [0, next.raw]
  more : next ≠ .null

/-- The ways of a chase: on from pair to pair, as far as one likes. -/
inductive Reaches (regions : Regions δ) : Value → Value → Prop where
  | here (value : Value) : Reaches regions value value
  | hop {value next last : Value} (first : regions.Hops value next)
      (rest : Reaches regions next last)
      : Reaches regions value last

/-- The way from a value leads to the last one, which is no birth address of such a pair. -/
structure EndsAt (regions : Regions δ) (value last : Value) : Prop where
  reaches : regions.Reaches value last
  ends : ∀ next, ¬ regions.Hops last next

/-- The way from a value comes back to a pair that it has met. -/
def Circles (regions : Regions δ) (value : Value) : Prop :=
  ∃ met next, regions.Reaches value met ∧ regions.Hops met next ∧ regions.Reaches next met

variable {regions : Regions δ} {value next last : Value}

/-- Pairs are what is read as tombstones. -/
theorem hops_iff_tombstone? : regions.Hops value next ↔ regions.tombstone? value = some next := by
  constructor
  · intro hops
    obtain ⟨addr, found, birth, words⟩ := hops.pair
    have set : next.raw ≠ 0 := fun zero => hops.more (congrArg Value.mk zero)
    simp [tombstone?, found, birth, words, set]
  · intro read
    obtain ⟨addr, found, read⟩ := Option.bind_eq_some_iff.mp read
    split_ifs at read with birth
    split at read
    next forward words =>
      split_ifs at read with set
      cases read
      exact ⟨⟨addr, found, birth, words⟩, fun null => set (congrArg Value.raw null)⟩
    next => cases read

/-- A pair names one value. -/
theorem Hops.unique {other : Value} (hops : regions.Hops value next)
    (hops' : regions.Hops value other)
    : next = other := by
  rw [hops_iff_tombstone?] at hops hops'
  exact Option.some.inj (hops.symm.trans hops')

/-- Where a way ends there is no tombstone. -/
theorem EndsAt.tombstone? (ends : regions.EndsAt value last) : regions.tombstone? last = none := by
  rw [Option.eq_none_iff_forall_ne_some]
  exact fun next read => ends.ends next (hops_iff_tombstone?.mpr read)

/-- Without a tombstone the way ends at once. -/
theorem endsAt_of_none (none : regions.tombstone? value = none) : regions.EndsAt value value := by
  refine ⟨.here value, fun next hops => ?_⟩
  rw [hops_iff_tombstone?, none] at hops
  cases hops

/-- A way that ends still does with a pair before it. -/
theorem EndsAt.hop (first : regions.Hops value next) (ends : regions.EndsAt next last)
    : regions.EndsAt value last :=
  ⟨.hop first ends.reaches, ends.ends⟩

/-- A circle is still met with a pair before it. -/
theorem Circles.hop (first : regions.Hops value next) (circles : regions.Circles next)
    : regions.Circles value := by
  obtain ⟨met, behind, reaches, hops, back⟩ := circles
  exact ⟨met, behind, .hop first reaches, hops, back⟩

/-- A circle is still met one pair further on, even if the first pair is part of it. -/
theorem Circles.onward (circles : regions.Circles value) (first : regions.Hops value next)
    : regions.Circles next := by
  obtain ⟨met, behind, reaches, hops, back⟩ := circles
  cases reaches with
  | here =>
      rw [hops.unique first] at back
      exact ⟨value, next, back, first, back⟩
  | hop other rest =>
      rw [other.unique first] at rest
      exact ⟨met, behind, rest, hops, back⟩

/-- A way that ends meets no circle, by following it to its end. -/
theorem EndsAt.not_circles (ends : regions.EndsAt value last) : ¬ regions.Circles value := by
  obtain ⟨reaches, ended⟩ := ends
  induction reaches with
  | here =>
      intro circles
      obtain ⟨met, behind, reaches, hops, -⟩ := circles
      cases reaches with
      | here => exact ended behind hops
      | hop first => exact ended _ first
  | hop first _ ih => exact fun circles => ih ended (circles.onward first)

-----------------------------------------------------------------------------------------
-- Chases
-----------------------------------------------------------------------------------------

/-- A chase that ends has found the end of the way, by following its steps. -/
theorem endsAt_of_chase {hops : Nat} (found : regions.chase hops value = some last)
    : regions.EndsAt value last := by
  fun_induction chase regions hops value with
  | case1 value ended =>
      cases found
      exact endsAt_of_none (Option.isNone_iff_eq_none.mp ended)
  | case2 => cases found
  | case3 hops value ended =>
      cases found
      exact endsAt_of_none ended
  | case4 hops value next read ih => exact (ih found).hop (hops_iff_tombstone?.mpr read)

/-- The loop finds the end of the way, by following it there. -/
theorem EndsAt.followOn (ends : regions.EndsAt value last) : regions.followOn value = last := by
  have ended := ends.tombstone?
  induction ends.reaches with
  | here => exact followOn_of_none ended
  | hop first rest ih =>
      rw [followOn_of_some (hops_iff_tombstone?.mp first)]
      exact ih ⟨rest, ends.ends⟩ ended

/-- A chase around a circle comes to no end, however many steps it is given. -/
theorem Circles.chase (circles : regions.Circles value) (hops : Nat)
    : regions.chase hops value = none := by
  rw [Option.eq_none_iff_forall_ne_some]
  exact fun last found => (endsAt_of_chase found).not_circles circles

-----------------------------------------------------------------------------------------
-- Enough steps
-----------------------------------------------------------------------------------------

/-- The pairs that a chase has met on its way to a value, each of them once. -/
structure Trail (regions : Regions δ) (met : List Value) (value : Value) : Prop where
  once : met.Nodup
  leads : ∀ earlier ∈ met, ∃ next, regions.Hops earlier next ∧ regions.Reaches next value

variable {met : List Value}

/-- The place of a pair in the birth region. -/
theorem Hops.place (hops : regions.Hops value next)
    : ∃ offset < regions.birth.capacity, value = (Address.pack .birth offset).toValue := by
  obtain ⟨addr, found, birth, words⟩ := hops.pair
  refine ⟨addr.offset, ?_, ?_⟩
  · simp only [slice?, birth, Arena.slice?] at words
    split_ifs at words with inside
    rw [BirthRegion.capacity]
    omega
  · rw [← birth, Address.pack_space_offset (Value.decodes_of_address? found),
      Value.toValue_of_address? found]

/-- Ways go on by one pair. -/
theorem Reaches.snoc (reaches : regions.Reaches value last) (further : regions.Hops last next)
    : regions.Reaches value next := by
  induction reaches with
  | here => exact .hop further (.here next)
  | hop first _ ih => exact .hop first (ih further)

/-- A trail is no longer than the birth region, as its pairs are at different places. -/
theorem Trail.length_le (trail : regions.Trail met value) : met.length ≤ regions.birth.capacity := by
  have places : met ⊆
      (List.range regions.birth.capacity).map fun offset => (Address.pack .birth offset).toValue := by
    intro earlier known
    obtain ⟨next, hops, -⟩ := trail.leads earlier known
    obtain ⟨offset, inside, rfl⟩ := hops.place
    exact List.mem_map_of_mem (List.mem_range.mpr inside)
  simpa using trail.once.length_le_of_subset places

/-- A pair that is new to the trail makes it longer. -/
theorem Trail.step (trail : regions.Trail met value) (new : value ∉ met)
    (hops : regions.Hops value next)
    : regions.Trail (value :: met) next := by
  refine ⟨trail.once.cons new, fun earlier known => ?_⟩
  rcases List.mem_cons.mp known with rfl | known
  · exact ⟨next, hops, .here next⟩
  · obtain ⟨behind, first, reaches⟩ := trail.leads earlier known
    exact ⟨behind, first, reaches.snoc hops⟩

/-- A pair that is on its own trail closes a circle. -/
theorem Trail.circles (trail : regions.Trail met value) (known : value ∈ met)
    : regions.Circles value := by
  obtain ⟨next, hops, reaches⟩ := trail.leads value known
  exact ⟨value, next, .here value, hops, reaches⟩

/-- A chase that has no step left, for each word of the birth region one, runs around a circle: the
induction is on the steps, which together with the trail are as many as the words.
-/
theorem Trail.circles_of_chase {hops : Nat} (trail : regions.Trail met value)
    (budget : met.length + hops = regions.birth.capacity) (lost : regions.chase hops value = none)
    : regions.Circles value := by
  by_cases known : value ∈ met
  · exact trail.circles known
  induction hops generalizing met value with
  | zero =>
      simp only [chase] at lost
      split_ifs at lost with ended
      obtain ⟨next, read⟩ := Option.ne_none_iff_exists'.mp (mt Option.isNone_iff_eq_none.mpr ended)
      have longer := (trail.step known (hops_iff_tombstone?.mpr read)).length_le
      rw [List.length_cons] at longer
      omega
  | succ hops ih =>
      simp only [chase] at lost
      split at lost
      next => cases lost
      next next read =>
        have first := hops_iff_tombstone?.mpr read
        have further := trail.step known first
        apply Circles.hop first
        by_cases again : next ∈ value :: met
        · exact further.circles again
        · apply ih further _ lost again
          rw [List.length_cons]
          omega

/-- As many steps as the birth region has words are enough, unless the way meets a circle. -/
theorem exists_followForwards? (straight : ¬ regions.Circles value)
    : ∃ last, regions.followForwards? value = some last := by
  have start : regions.Trail [] value := ⟨.nil, nofun⟩
  exact Option.ne_none_iff_exists'.mp (mt (start.circles_of_chase (Nat.zero_add _)) straight)

/-- In every heap, whatever its memory holds, a chase ends after finitely many steps for every value but
those whose way through birth memory comes back to a pair that it has met. What it has found then is the
end of that way, at most as many steps away as the region has words, and another chase leaves it as it is.
-/
theorem chases_end_unless_circling (regions : Regions δ) (value : Value)
    : ((∃ hops last, regions.chase hops value = some last) ↔ ¬ regions.Circles value)
      ∧ ∀ hops last, regions.chase hops value = some last →
          regions.EndsAt value last
          ∧ regions.chase regions.birth.capacity value = some last
          ∧ regions.followOn value = last
          ∧ regions.followOn last = last := by
  refine ⟨⟨?_, fun straight => ⟨_, exists_followForwards? straight⟩⟩, fun hops last found => ?_⟩
  · rintro ⟨hops, last, found⟩ circles
    cases (circles.chase hops).symm.trans found
  · have ends := endsAt_of_chase found
    obtain ⟨other, enough⟩ := exists_followForwards? ends.not_circles
    have same : other = last := (followOn_of_chase enough).symm.trans ends.followOn
    exact ⟨ends, same ▸ enough, ends.followOn, followOn_of_none (tombstone?_of_chase found)⟩

end Regions

-----------------------------------------------------------------------------------------
-- A record on top of what is left of another
-----------------------------------------------------------------------------------------

namespace Record

/-- A record that refers to itself dies in a minor collection, and a longer one takes its place: the last
field, null, comes to lie before the reference that is left.
-/
def burial : List (Step HostState Destructor) := [
  .operate host (.allocate 24),
  .operate host (.store (.pack .birth 0) (header 2)),
  .operate host (.store (.pack .birth 1) 0),
  .operate host (.store (.pack .birth 2) 0),
  .operate host (.allocate 16),
  .operate host (.store (.pack .birth 3) (header 1)),
  .operate host (.store (.pack .birth 4) (Address.pack .birth 3).raw),
  .operate host .collectMinor,
  .operate host (.allocate 32),
  .operate host (.store (.pack .birth 0) (header 3)),
  .operate host (.store (.pack .birth 1) (Value.tagged 1).raw),
  .operate host (.store (.pack .birth 2) (Value.tagged 2).raw),
  .operate host (.store (.pack .birth 3) 0)]

/-- What such records leave behind is a circle of one pair, on which no chase ends. -/
theorem chase_goes_on_for_ever
    : (emptyWorld.play burial).Reachable
      ∧ (emptyWorld.play burial).heap.phase = .idle
      ∧ ∀ hops,
          (emptyWorld.play burial).heap.regions.chase hops (Address.pack .birth 3).toValue = none := by
  have created : World.create .standard smallConfig {} = .ok emptyWorld := by with_unfolding_all rfl
  have begins : emptyWorld.Reachable := .create created
  have read : (emptyWorld.play burial).heap.regions.tombstone? (Address.pack .birth 3).toValue
      = some (Address.pack .birth 3).toValue := by decide +kernel
  have circles : (emptyWorld.play burial).heap.regions.Circles (Address.pack .birth 3).toValue :=
    ⟨_, _, .here _, Regions.hops_iff_tombstone?.mpr read, .here _⟩
  exact ⟨begins.play burial, by decide +kernel, circles.chase⟩

end Record

end MovingHeap
