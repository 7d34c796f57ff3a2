import MovingHeap.Collector.Full
import MovingHeap.Proofs.FixedOperations
import MovingHeap.Proofs.Outcome
import MovingHeap.Proofs.Packing

/-! What a collection leaves alone while it traces, whatever its host does.
Memory keeps its outline: words, marks and the cursor of the region that is copied to may change,
the extent of every region and the slots of the fixed space do not. What is left to scan shrinks
with every step, so the bounds on the number of steps are never reached.
-/

namespace MovingHeap

variable {σ δ α : Type}

/-- Memory of as many words. -/
def Arena.outline (arena : Arena) : Arena := .zeroed arena.size

@[simp] theorem Arena.size_outline (arena : Arena) : arena.outline.size = arena.size := rfl

/-- A semispace without its words and its cursor. -/
def Semispace.outline (region : Semispace) : Semispace where
  space := region.space
  words := region.words.outline

namespace Regions

/-- Memory without what tracing may change. -/
def outline (regions : Regions δ) : Regions δ where
  birth := { regions.birth with words := regions.birth.words.outline }
  old := regions.old.outline
  target := regions.target.map Semispace.outline
  fixed :=
    { regions.fixed with
      arena := regions.fixed.arena.outline
      slots := regions.fixed.unmarkedSlots
      recent := [] }

/-- The fixed objects that are still to be scanned or could still be marked. -/
def pendingWork (regions : Regions δ) : Nat :=
  regions.unscanned.length + regions.fixed.unmarkedCount

/-- Nothing waits to be scanned where no work is pending. -/
theorem unscanned_eq_nil {regions : Regions δ} (done : regions.pendingWork = 0)
    : regions.unscanned = [] := by
  simp only [pendingWork] at done
  exact List.length_eq_zero_iff.mp (by omega)

/-- What holds between the memory at two moments of one collection. -/
structure Evolves (before now : Regions δ) : Prop where
  outline : now.outline = before.outline
  grows : before.destination.cursor ≤ now.destination.cursor
  inside
    : before.destination.cursor ≤ before.destination.capacity →
        now.destination.cursor ≤ now.destination.capacity
  oldCursor : before.isFull → now.old.cursor = before.old.cursor
  unmarked
    : before.isFull = false →
        now.fixed.slots = before.fixed.slots ∧ now.unscanned = before.unscanned
  work : now.pendingWork ≤ before.pendingWork

/-- Less is left to do once the first fixed object that waits is off the list. -/
theorem Evolves.pendingWork_lt {regions now : Regions δ} {start : Nat} {rest : List Nat}
    (listed : regions.unscanned = start :: rest)
    (evolves : Evolves { regions with unscanned := rest } now)
    : now.pendingWork < regions.pendingWork := by
  have work := evolves.work
  simp only [pendingWork, listed, List.length_cons] at work ⊢
  omega

-----------------------------------------------------------------------------------------
-- What an outline tells
-----------------------------------------------------------------------------------------

section Evolves

variable {before now : Regions δ} (evolves : before.Evolves now)

include evolves

/-- The allocated words of the birth region stay as many. -/
theorem Evolves.birthCursor : now.birth.cursor = before.birth.cursor :=
  congrArg (fun regions => regions.birth.cursor) evolves.outline

/-- The recorded slots stay where they are. -/
theorem Evolves.bufferStart : now.birth.bufferStart = before.birth.bufferStart :=
  congrArg (fun regions => regions.birth.bufferStart) evolves.outline

/-- The margin stays what it is. -/
theorem Evolves.margin : now.birth.margin = before.birth.margin :=
  congrArg (fun regions => regions.birth.margin) evolves.outline

/-- The birth region keeps its size. -/
theorem Evolves.birthSize : now.birth.words.size = before.birth.words.size :=
  congrArg (fun regions => regions.birth.words.size) evolves.outline

/-- The old semispace keeps its name. -/
theorem Evolves.oldSpace : now.old.space = before.old.space :=
  congrArg (fun regions => regions.old.space) evolves.outline

/-- The old semispace keeps its size. -/
theorem Evolves.oldSize : now.old.words.size = before.old.words.size :=
  congrArg (fun regions => regions.old.words.size) evolves.outline

/-- The target stays there, or stays away. -/
theorem Evolves.target : now.target.map Semispace.outline = before.target.map Semispace.outline :=
  congrArg (fun regions => regions.target) evolves.outline

/-- A full collection stays one, as does a minor one. -/
theorem Evolves.isFull : now.isFull = before.isFull := by
  have target := congrArg Option.isSome evolves.target
  simpa [Regions.isFull] using target

/-- The region that is copied to keeps its name. -/
theorem Evolves.destinationSpace : now.destination.space = before.destination.space := by
  have target := evolves.target
  have old := evolves.oldSpace
  unfold destination
  cases here : now.target <;> cases there : before.target <;> simp_all [Semispace.outline]

/-- The region that is copied to keeps its size. -/
theorem Evolves.destinationSize
    : now.destination.words.size = before.destination.words.size := by
  have target := evolves.target
  have old := evolves.oldSize
  unfold destination
  cases here : now.target <;> cases there : before.target <;>
    simp_all [Semispace.outline, Arena.outline, Arena.zeroed]

/-- The arena of the fixed space keeps its size. -/
theorem Evolves.fixedSize : now.fixed.arena.size = before.fixed.arena.size :=
  congrArg (fun regions => regions.fixed.arena.size) evolves.outline

/-- The slots of the fixed space stay the same but for marks. -/
theorem Evolves.slots : now.fixed.unmarkedSlots = before.fixed.unmarkedSlots :=
  congrArg (fun regions => regions.fixed.slots) evolves.outline

/-- The free lists stay the same. -/
theorem Evolves.vacant : now.fixed.vacant = before.fixed.vacant :=
  congrArg (fun regions => regions.fixed.vacant) evolves.outline

/-- What is known of the fixed space but for its slots stays the same. -/
theorem Evolves.consistent (consistent : before.fixed.Consistent) : now.fixed.Consistent :=
  consistent.alike evolves.slots evolves.fixedSize evolves.vacant

/-- Evolution in two steps is evolution. -/
theorem Evolves.trans {later : Regions δ} (further : now.Evolves later)
    : before.Evolves later where
  outline := further.outline.trans evolves.outline
  grows := Nat.le_trans evolves.grows further.grows
  inside := further.inside ∘ evolves.inside
  oldCursor full :=
    (further.oldCursor (evolves.isFull.trans full)).trans (evolves.oldCursor full)
  unmarked minor :=
    have first := evolves.unmarked minor
    have second := further.unmarked (evolves.isFull.trans minor)
    ⟨second.1.trans first.1, second.2.trans first.2⟩
  work := Nat.le_trans further.work evolves.work

end Evolves

/-- Nothing happening is evolution. -/
theorem Evolves.refl (regions : Regions δ) : regions.Evolves regions :=
  ⟨rfl, Nat.le_refl _, id, fun _ => rfl, fun _ => ⟨rfl, rfl⟩, Nat.le_refl _⟩

-----------------------------------------------------------------------------------------
-- The steps of tracing
-----------------------------------------------------------------------------------------

/-- The region that is copied to is the one that was put back. -/
@[simp] theorem destination_setDestination (regions : Regions δ) (region : Semispace)
    : (regions.setDestination region).destination = region := by
  unfold setDestination isFull
  cases regions.target <;> simp [destination]

/-- A full collection stays one where the region that is copied to is put back. -/
@[simp] theorem isFull_setDestination (regions : Regions δ) (region : Semispace)
    : (regions.setDestination region).isFull = regions.isFull := by
  cases target : regions.target <;> simp [setDestination, isFull, target]

/-- Putting back the region that is copied to leaves the fixed space alone. -/
@[simp] theorem fixed_setDestination (regions : Regions δ) (region : Semispace)
    : (regions.setDestination region).fixed = regions.fixed := by
  unfold setDestination
  split_ifs <;> rfl

/-- Putting back the region that is copied to leaves the birth region alone. -/
theorem birth_setDestination (regions : Regions δ) (region : Semispace)
    : (regions.setDestination region).birth = regions.birth := by
  unfold setDestination
  split_ifs <;> rfl

/-- Putting back the region that is copied to counts nothing as copied. -/
theorem copied_setDestination (regions : Regions δ) (region : Semispace)
    : (regions.setDestination region).copied = regions.copied := by
  unfold setDestination
  split_ifs <;> rfl

/-- Tombstones count nothing as copied. -/
theorem copied_bury (regions : Regions δ) (young : Bool) (offset : Nat) (forwarded : Address)
    : (regions.bury young offset forwarded).copied = regions.copied := by
  cases young <;> rfl

/-- A copy that is admitted takes words behind the cursor, all of them free. -/
theorem admit?_eq_some {region extended : Semispace} {words : Nat}
    (admitted : admit? region words = some extended)
    : extended = { region with cursor := region.cursor + words }
      ∧ region.cursor + words ≤ region.capacity := by
  unfold admit? Semispace.bump? at admitted
  split_ifs at admitted with large room
  cases admitted
  exact ⟨rfl, room⟩

/-- Tombstones leave the fixed space alone. -/
@[simp] theorem fixed_bury (regions : Regions δ) (young : Bool) (offset : Nat)
    (forwarded : Address)
    : (regions.bury young offset forwarded).fixed = regions.fixed := by
  cases young <;> rfl

/-- Putting back the region that is copied to is a step if the region only grew. -/
theorem Evolves.setDestination {regions : Regions δ} {region : Semispace}
    (space : region.space = regions.destination.space)
    (size : region.words.size = regions.destination.words.size)
    (grows : regions.destination.cursor ≤ region.cursor)
    (inside
      : regions.destination.cursor ≤ regions.destination.capacity →
          region.cursor ≤ region.capacity)
    : regions.Evolves (regions.setDestination region) where
  outline := by
    have same : region.outline = regions.destination.outline := by
      simp only [Semispace.outline, Arena.outline, space, size]
    unfold Regions.setDestination Regions.isFull
    unfold destination at same
    cases target : regions.target <;> simp_all [Regions.outline]
  grows := by rwa [destination_setDestination]
  inside := by rwa [destination_setDestination]
  oldCursor full := by simp [Regions.setDestination, full]
  unmarked minor := by simp [Regions.setDestination, minor]
  work := by
    unfold Regions.setDestination
    split_ifs <;> exact Nat.le_refl _

/-- Leaving a tombstone is a step. -/
theorem Evolves.bury (regions : Regions δ) (young : Bool) (offset : Nat) (forwarded : Address)
    : regions.Evolves (regions.bury young offset forwarded) := by
  cases young with
  | true => exact ⟨rfl, Nat.le_refl _, id, fun _ => rfl, fun _ => ⟨rfl, rfl⟩, Nat.le_refl _⟩
  | false =>
      refine ⟨?_, ?_, ?_, fun _ => rfl, fun _ => ⟨rfl, rfl⟩, Nat.le_refl _⟩
      · simp [Regions.outline, Regions.bury, Semispace.outline, Arena.outline]
      all_goals
        cases target : regions.target <;>
          simp [Regions.bury, destination, target, Semispace.capacity]

/-- Counting copied words is a step. -/
theorem Evolves.count (regions : Regions δ) (copied : Nat)
    : regions.Evolves { regions with copied } :=
  ⟨rfl, Nat.le_refl _, id, fun _ => rfl, fun _ => ⟨rfl, rfl⟩, Nat.le_refl _⟩

/-- Writing a word by address is a step. -/
theorem Evolves.setWord? {regions next : Regions δ} {addr : Address} {word : Word}
    (done : regions.setWord? addr word = some next)
    : regions.Evolves next := by
  have semispace : ∀ space, (regions.oldSpace? space).bind (fun region =>
      if addr.offset < region.cursor ∧ addr.offset < region.capacity then
        some (regions.setOldSpace (region.setWord addr.offset word))
      else none) = some next → regions.Evolves next := by
    intro space found
    obtain ⟨region, here, write⟩ := Option.bind_eq_some_iff.mp found
    split_ifs at write
    cases write
    unfold oldSpace? at here
    unfold setOldSpace
    split_ifs at here with current
    · cases here
      simp only [Semispace.setWord, if_true]
      refine ⟨?_, ?_, ?_, fun _ => rfl, fun _ => ⟨rfl, rfl⟩, Nat.le_refl _⟩
      · simp [Regions.outline, Semispace.outline, Arena.outline]
      all_goals
        cases target : regions.target <;> simp [destination, target, Semispace.capacity]
    · obtain ⟨target, named⟩ := Option.filter_eq_some_iff.mp here
      have differs : ¬ regions.old.space = region.space := by
        rw [show region.space = space by simpa using named]
        exact current
      simp only [Semispace.setWord, differs, if_false]
      refine ⟨?_, ?_, ?_, fun _ => rfl, fun _ => ⟨rfl, rfl⟩, Nat.le_refl _⟩
      · simp [Regions.outline, Semispace.outline, Arena.outline, target]
      · simp [destination, target]
      · simp [destination, target, Semispace.capacity]
  unfold Regions.setWord? at done
  cases here : addr.space with
  | birth =>
      simp only [here] at done
      split_ifs at done
      cases done
      exact ⟨rfl, Nat.le_refl _, id, fun _ => rfl, fun _ => ⟨rfl, rfl⟩, Nat.le_refl _⟩
  | fixed =>
      simp only [here] at done
      split_ifs at done
      cases done
      exact ⟨rfl, Nat.le_refl _, id, fun _ => rfl, fun _ => ⟨rfl, rfl⟩, Nat.le_refl _⟩
  | oldA | oldB =>
      simp only [here] at done
      exact semispace _ done

/-- What becomes of memory when a reference into the fixed space is marked. -/
def marked (regions : Regions δ) (mark : Mark) (fixed : FixedSpace δ) : Regions δ :=
  { regions with
    fixed
    unscanned := match mark with
      | .fresh start => start :: regions.unscanned
      | _ => regions.unscanned }

/-- Marking in a full collection is a step: an object that is newly to be scanned is one that could
be marked before.
-/
theorem Evolves.mark {regions : Regions δ} {offset : Nat} {mark : Mark} {fixed : FixedSpace δ}
    (full : regions.isFull) (done : regions.fixed.mark? offset = some (mark, fixed))
    : regions.Evolves (regions.marked mark fixed) := by
  obtain ⟨start, covers, found⟩ := Option.bind_eq_some_iff.mp done
  obtain ⟨occupant, here, result⟩ := Option.map_eq_some_iff.mp found
  split_ifs at result with forgotten already
  · cases result
    exact Evolves.refl regions
  · cases result
    exact Evolves.refl regions
  · cases result
    have fewer := FixedSpace.unmarkedCount_mark here (by simpa using already)
    refine ⟨?_, Nat.le_refl _, id, fun _ => rfl, ?_, ?_⟩
    · simp only [Regions.outline, marked, FixedSpace.unmarkedSlots_mark]
      rfl
    · intro minor
      rw [full] at minor
      cases minor
    · simp only [pendingWork, marked, List.length_cons]
      omega

end Regions

-----------------------------------------------------------------------------------------
-- Whatever the host does
-----------------------------------------------------------------------------------------

/-- The site has come on: memory evolved, and the same fixed objects count as fresh. -/
def Site.Advances (before now : Site σ δ) : Prop :=
  before.regions.Evolves now.regions ∧ now.regions.fixed.recent = before.regions.fixed.recent

namespace Site

/-- Coming on in two steps is coming on. -/
theorem Advances.trans {before now later : Site σ δ} (first : before.Advances now)
    (second : now.Advances later)
    : before.Advances later :=
  ⟨first.1.trans second.1, second.2.trans first.2⟩

/-- Where memory is as it was, the site has come on. -/
theorem Advances.of_regions {before now : Site σ δ} (same : now.regions = before.regions)
    : before.Advances now := by
  refine ⟨?_, by rw [same]⟩
  rw [same]
  exact Regions.Evolves.refl before.regions

end Site

/-- Wherever the action ends or is stopped, the site has come on. -/
def Tends (action : Action (Site σ δ) α) : Prop :=
  ∀ site, Runs action site (fun _ final => site.Advances final) fun _ final => site.Advances final

namespace Tends

/-- Where an action ends the site has come on, besides whatever else is known. -/
theorem and_ends {action : Action (Site σ δ) α} (tends : Tends action) {site : Site σ δ}
    {ended : α → Site σ δ → Prop} (ends : Ends action site ended)
    : Ends action site fun result final => site.Advances final ∧ ended result final := by
  obtain ⟨result, final, run, holds⟩ := ends.exists_ok
  simp only [Ends, Runs, run]
  exact ⟨(tends site).of_ok run, holds⟩

/-- Ending at once. -/
theorem pure (result : α) : Tends (σ := σ) (δ := δ) (Pure.pure result) :=
  fun _ => Site.Advances.of_regions rfl

/-- Being stopped at once. -/
theorem stop (violation : Violation) : Tends (σ := σ) (δ := δ) (α := α) (Site.stop violation) :=
  fun _ => Site.runs_stop.mpr (Site.Advances.of_regions rfl)

/-- One action after another. -/
theorem bind {β : Type} {action : Action (Site σ δ) α} {next : α → Action (Site σ δ) β}
    (first : Tends action) (second : ∀ result, Tends (next result))
    : Tends (action >>= next) := by
  intro site
  rw [runs_bind]
  refine (first site).mono (fun result middle onward => ?_) fun _ _ onward => onward
  exact (second result middle).mono (fun _ _ => onward.trans) fun _ _ => onward.trans

/-- Looking at the site first. -/
theorem get_bind {next : Site σ δ → Action (Site σ δ) α} (second : ∀ site, Tends (next site))
    : Tends (get >>= next) :=
  fun site => second site site

/-- Answering what is there or being stopped. -/
theorem require (found : Option α) (violation : Violation)
    : Tends (σ := σ) (δ := δ) (Site.require found violation) := by
  cases found with
  | none => exact stop violation
  | some result => exact pure result

/-- Logging. -/
theorem report (event : Event) : Tends (σ := σ) (δ := δ) (Site.report event) :=
  fun _ => Site.Advances.of_regions rfl

end Tends

namespace Collector

/-- Memory once an object has been copied and buried. -/
def relocated (regions : Regions δ) (filled extended : Semispace) (object : Address)
    (young : Bool) (copied : Nat)
    : Regions δ :=
  let moved := ((regions.setDestination filled).setDestination extended).bury young
    object.offset regions.destination.next
  { moved with copied := moved.copied + copied }

/-- Copying an object into the free part of the destination is a step. -/
theorem evolves_fillTail (regions : Regions δ) (words : List Word)
    : regions.Evolves (regions.setDestination (regions.destination.fillTail words)) :=
  Regions.Evolves.setDestination rfl (Semispace.capacity_fillTail _ _) (Nat.le_refl _)
    fun inside => Nat.le_trans inside (Nat.le_of_eq (Semispace.capacity_fillTail _ _).symm)

/-- Allocating a copy and burying the object it was made of is a step. -/
theorem evolves_relocated {regions : Regions δ} {words : List Word} {extended : Semispace}
    {count : Nat}
    (admitted : Regions.admit? (regions.destination.fillTail words) count = some extended)
    (object : Address) (young : Bool)
    : regions.Evolves
        (relocated regions (regions.destination.fillTail words) extended object young count) := by
  obtain ⟨rfl, room⟩ := Regions.admit?_eq_some admitted
  refine (evolves_fillTail regions words).trans ?_
  have further : (regions.setDestination (regions.destination.fillTail words)).Evolves
      ((regions.setDestination (regions.destination.fillTail words)).setDestination
        { regions.destination.fillTail words with
          cursor := (regions.destination.fillTail words).cursor + count }) := by
    refine Regions.Evolves.setDestination ?_ ?_ ?_ fun _ => room
    · rw [Regions.destination_setDestination]
    · rw [Regions.destination_setDestination]
    · rw [Regions.destination_setDestination]
      exact Nat.le_add_right _ _
  exact further.trans
    ((Regions.Evolves.bury _ young object.offset regions.destination.next).trans
      (Regions.Evolves.count _ _))

/-- As many words are counted for an object that was copied as it has. -/
theorem copied_relocated (regions : Regions δ) (filled extended : Semispace) (object : Address)
    (young : Bool) (count : Nat)
    : (relocated regions filled extended object young count).copied = regions.copied + count := by
  simp only [relocated, Regions.copied_bury, Regions.copied_setDestination]

/-- Copying an object. -/
theorem tends_relocate (host : Host σ δ) (object : Address) (young : Bool)
    : Tends (relocate host object young) := by
  intro site
  simp only [relocate, runs_bind, runs_get, Site.runs_accept, Site.runs_modifyRegions,
    Site.runs_require]
  split
  next extended admitted =>
    exact ⟨evolves_relocated admitted object young, by simp⟩
  next refused => exact ⟨evolves_fillTail _ _, by simp⟩

/-- Finding the copy of an object or making one. -/
theorem tends_evacuate (host : Host σ δ) (object : Address) (young : Bool)
    : Tends (evacuate host object young) := by
  refine Tends.get_bind fun site => ?_
  dsimp only
  split_ifs
  · exact Tends.stop _
  · exact Tends.require _ _
  · exact tends_relocate host object young

/-- Marking keeps the list of fresh objects. -/
theorem recent_of_mark? {space next : FixedSpace δ} {offset : Nat} {mark : Mark}
    (done : space.mark? offset = some (mark, next))
    : next.recent = space.recent := by
  obtain ⟨start, -, found⟩ := Option.bind_eq_some_iff.mp done
  obtain ⟨occupant, -, result⟩ := Option.map_eq_some_iff.mp found
  split_ifs at result <;> cases result <;> rfl

/-- Marking a fixed object, in a full collection. -/
theorem runs_markFixed (addr : Address) {site : Site σ δ} (full : site.regions.isFull)
    : Runs (markFixed addr) site (fun _ final => site.Advances final)
        fun _ final => site.Advances final := by
  simp only [markFixed, runs_bind, runs_get, Site.runs_require]
  split
  next found done =>
    obtain ⟨mark, fixed⟩ := found
    have onward : site.regions.Evolves (site.regions.marked mark fixed) :=
      Regions.Evolves.mark full done
    have recent := recent_of_mark? done
    cases mark <;>
      simp only [runs_bind, Site.runs_modifyRegions, runs_pure] <;>
      exact ⟨onward, recent⟩
  next missing => exact Site.Advances.of_regions rfl

/-- Forwarding a reference. -/
theorem tends_forward (host : Host σ δ) (value : Value) : Tends (forward host value) := by
  unfold forward
  split
  next => exact Tends.pure _
  next addr _ =>
    intro site
    simp only [runs_bind, runs_get]
    split
    · rw [runs_map]
      exact tends_evacuate host addr true site
    · split_ifs with full
      · exact runs_markFixed addr full
      · exact Tends.pure _ site
    · split_ifs
      · rw [runs_map]
        exact tends_evacuate host addr false site
      · exact Tends.pure _ site

/-- Reading a word. -/
theorem tends_loadWord (addr : Address) : Tends (σ := σ) (δ := δ) (loadWord addr) :=
  Tends.get_bind fun _ => Tends.require _ _

/-- Writing a word leaves alone what describes the fixed objects, what is to be scanned and the cursor
of the region that is copied to.
-/
theorem frame_setWord? {regions next : Regions δ} {addr : Address} {word : Word}
    (done : regions.setWord? addr word = some next)
    : next.fixed.recent = regions.fixed.recent
      ∧ next.fixed.slots = regions.fixed.slots
      ∧ next.unscanned = regions.unscanned
      ∧ next.destination.cursor = regions.destination.cursor := by
  have semispace : ∀ space, (regions.oldSpace? space).bind (fun region =>
      if addr.offset < region.cursor ∧ addr.offset < region.capacity then
        some (regions.setOldSpace (region.setWord addr.offset word))
      else none) = some next →
      next.fixed = regions.fixed ∧ next.unscanned = regions.unscanned
        ∧ next.destination.cursor = regions.destination.cursor := by
    intro space found
    obtain ⟨region, here, write⟩ := Option.bind_eq_some_iff.mp found
    split_ifs at write
    cases write
    unfold Regions.oldSpace? at here
    unfold Regions.setOldSpace
    split_ifs at here with current
    · cases here
      simp only [Semispace.setWord, if_true, true_and]
      cases target : regions.target <;> simp [Regions.destination, target]
    · obtain ⟨target, named⟩ := Option.filter_eq_some_iff.mp here
      have differs : ¬ regions.old.space = region.space := by
        rw [show region.space = space by simpa using named]
        exact current
      simp [Semispace.setWord, differs, Regions.destination, target]
  unfold Regions.setWord? at done
  cases here : addr.space with
  | birth | fixed =>
      simp only [here] at done
      split_ifs at done
      cases done
      exact ⟨rfl, rfl, rfl, rfl⟩
  | oldA | oldB =>
      simp only [here] at done
      obtain ⟨fixed, unscanned, cursor⟩ := semispace _ done
      rw [fixed]
      exact ⟨rfl, rfl, unscanned, cursor⟩

/-- Forwarding the reference in a slot. -/
theorem tends_visitSlot (host : Host σ δ) (slot : Address) : Tends (visitSlot host slot) := by
  refine Tends.bind (tends_loadWord slot) fun word => ?_
  refine Tends.bind (tends_forward host _) fun forwarded => ?_
  split_ifs
  · intro site
    simp only [runs_bind, runs_get, Site.runs_require, Site.runs_modifyRegions]
    split
    next regions done => exact ⟨Regions.Evolves.setWord? done, (frame_setWord? done).1⟩
    next => exact Site.Advances.of_regions rfl
  · exact Tends.pure _

/-- A visit, by induction over its steps. -/
theorem tends_runVisit (host : Host σ δ) (phase : Phase) (program : Visit σ α)
    : Tends (runVisit host phase program) := by
  induction program with
  | done result => exact Tends.pure result
  | getHost next ih => exact Tends.get_bind fun site => ih site.host
  | setHost state next ih =>
      exact Tends.bind (fun site => Site.Advances.of_regions rfl) fun _ => ih
  | note line next ih => exact Tends.bind (Tends.report _) fun _ => ih
  | isFull next ih => exact Tends.get_bind fun site => ih site.regions.isFull
  | load addr next ih => exact Tends.bind (tends_loadWord addr) ih
  | words addr count next ih => exact Tends.get_bind fun site => Tends.bind (Tends.require _ _) ih
  | visitSlot slot next ih => exact Tends.bind (tends_visitSlot host slot) fun _ => ih
  | visitValue value next ih => exact Tends.bind (tends_forward host value) ih
  | allocate => exact Tends.stop _
  | collect => exact Tends.stop _
  | fail violation => exact Tends.stop violation

/-- Visiting recorded slots, by one slot after another. -/
theorem tends_visitRemembered (host : Host σ δ) (words : List Word)
    : Tends (visitRemembered host words) := by
  induction words with
  | nil => exact Tends.pure ()
  | cons raw words ih =>
      exact Tends.bind (Tends.require _ _) fun slot =>
        Tends.bind (tends_visitSlot host slot) fun _ => ih

/-- Scanning a fixed object. -/
theorem tends_scanFixed (host : Host σ δ) (phase : Phase) (scan : Address → Nat → Visit σ Unit)
    (start : Nat)
    : Tends (scanFixed host phase scan start) := by
  refine Tends.get_bind fun site => ?_
  split
  · exact tends_runVisit host phase _
  · exact Tends.pure ()

/-- Scanning fixed objects, by one object after another. -/
theorem tends_scanFixedList (host : Host σ δ) (phase : Phase)
    (scan : Address → Nat → Visit σ Unit) (starts : List Nat)
    : Tends (scanFixedList host phase scan starts) := by
  induction starts with
  | nil => exact Tends.pure ()
  | cons start starts ih =>
      exact Tends.bind (tends_scanFixed host phase scan start) fun _ => ih

/-- Checking where scanning goes on. -/
theorem tends_checkNext (space : Space) (limit : Nat) (object next : Address)
    : Tends (σ := σ) (δ := δ) (checkNext space limit object next) := by
  unfold checkNext
  split_ifs
  · exact Tends.pure _
  · exact Tends.stop _

/-- Scanning promoted objects, by induction over the number of steps. -/
theorem tends_scanPromoted (host : Host σ δ) (phase : Phase) (space : Space)
    (objects scan : Nat)
    : Tends (scanPromoted host phase space objects scan) := by
  induction objects generalizing scan with
  | zero => exact Tends.pure ()
  | succ objects ih =>
      refine Tends.get_bind fun site => ?_
      split_ifs
      · refine Tends.bind (tends_runVisit host phase _) fun next => Tends.get_bind fun site => ?_
        exact Tends.bind (tends_checkNext _ _ _ next) ih
      · exact Tends.pure ()

/-- Taking a fixed object off the list of those to scan is a step. -/
theorem evolves_unscanned {regions : Regions δ} {start : Nat} {rest : List Nat}
    (full : regions.isFull) (listed : regions.unscanned = start :: rest)
    : regions.Evolves { regions with unscanned := rest } := by
  refine ⟨rfl, Nat.le_refl _, id, fun _ => rfl, ?_, ?_⟩
  · intro minor
    rw [full] at minor
    cases minor
  · simp only [Regions.pendingWork, listed, List.length_cons]
    omega

/-- Scanning survivors, by induction over the number of steps. -/
theorem runs_scanSurvivors (host : Host σ δ) (phase : Phase) (space : Space) (steps scan : Nat)
    {site : Site σ δ} (full : site.regions.isFull)
    : Runs (scanSurvivors host phase space steps scan) site
        (fun _ final => site.Advances final) fun _ final => site.Advances final := by
  induction steps generalizing scan site with
  | zero => exact Site.Advances.of_regions rfl
  | succ steps ih =>
      simp only [scanSurvivors, runs_bind, runs_get, runs_ite]
      split_ifs
      · refine (tends_runVisit host phase _ site).mono (fun next middle first => ?_)
          fun _ _ onward => onward
        refine (tends_checkNext space _ _ next middle).mono (fun scan later second => ?_)
          fun _ _ onward => first.trans onward
        have through := first.trans second
        exact (ih scan (through.1.isFull.trans full)).mono (fun _ _ => through.trans)
          fun _ _ => through.trans
      · split
        · exact Site.Advances.of_regions rfl
        next start rest listed =>
          simp only [runs_bind, Site.runs_modifyRegions]
          have popped : site.Advances { site with
              regions := { site.regions with unscanned := rest } } :=
            ⟨evolves_unscanned full listed, rfl⟩
          refine (tends_scanFixed host phase _ start _).mono (fun _ middle first => ?_)
            fun _ _ onward => popped.trans onward
          have through := popped.trans first
          exact (ih scan (through.1.isFull.trans full)).mono (fun _ _ => through.trans)
            fun _ _ => through.trans

/-- Scanning survivors leaves no fixed object unscanned if the bound on the number of steps covers
the words behind `scan` and the fixed objects, by induction over the number of steps: each scans
a word further or leaves one fixed object fewer.
-/
theorem unscanned_scanSurvivors (host : Host σ δ) (phase : Phase) (space : Space)
    (steps scan : Nat) {site : Site σ δ} (full : site.regions.isFull)
    (inside : site.regions.destination.cursor ≤ site.regions.destination.capacity)
    (small : site.regions.destination.capacity ≤ maxOffsetWords)
    (enough
      : site.regions.destination.capacity - scan + site.regions.pendingWork ≤ steps)
    : Runs (scanSurvivors host phase space steps scan) site
        (fun _ final => final.regions.unscanned = []) fun _ _ => True := by
  induction steps generalizing scan site with
  | zero => exact Regions.unscanned_eq_nil (by omega)
  | succ steps ih =>
      simp only [scanSurvivors, runs_bind, runs_get, runs_ite]
      split_ifs with below
      · refine (tends_runVisit host phase _ site).mono (fun next middle first => ?_)
          fun _ _ _ => trivial
        simp only [checkNext, runs_ite]
        split_ifs with onward
        · have evolves := first.1
          have capacity : middle.regions.destination.capacity
              = site.regions.destination.capacity := evolves.destinationSize
          refine ih next.offset (evolves.isFull.trans full) (evolves.inside inside)
            (Nat.le_trans (Nat.le_of_eq capacity) small) ?_
          have work := evolves.work
          have place : (Address.pack space scan).offset = scan :=
            Address.offset_pack space (by omega)
          rw [place] at onward
          omega
        · exact Site.runs_stop.mpr trivial
      · split
        next listed => exact listed
        next start rest listed =>
          simp only [runs_bind, Site.runs_modifyRegions]
          refine (tends_scanFixed host phase _ start _).mono (fun _ middle first => ?_)
            fun _ _ _ => trivial
          have evolves := first.1
          have capacity : middle.regions.destination.capacity
              = site.regions.destination.capacity := evolves.destinationSize
          refine ih scan (evolves.isFull.trans full) (evolves.inside inside)
            (Nat.le_trans (Nat.le_of_eq capacity) small) ?_
          have less := evolves.pendingWork_lt listed
          omega

end Collector

end MovingHeap
