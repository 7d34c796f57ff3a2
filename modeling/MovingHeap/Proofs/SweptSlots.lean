import MovingHeap.Proofs.LinkedSweeps
import MovingHeap.Proofs.Recording

/-! What a sweep of the fixed space frees.
It frees the live slots without a mark and no others, whichever objects are marked. Each freed object is
destroyed by one call, for its own payload, unless it was forgotten, and goes to the front of its list.
-/

namespace MovingHeap

variable {σ δ : Type}

/-- The slot with its object, if there is one, marked or not. -/
def FixedSlot.withMark (slot : FixedSlot δ) (mark : Bool) : FixedSlot δ :=
  { slot with occupant := slot.occupant.map ({ · with marked := mark }) }

/-- A slot has its own mark. -/
theorem FixedSlot.withMark_own (slot : FixedSlot δ)
    : slot.withMark (slot.occupant.any (·.marked)) = slot := by
  cases slot with
  | mk start capacity sizeClass executable occupant => cases occupant <;> rfl

namespace FixedSpace

-----------------------------------------------------------------------------------------
-- Forgotten objects
-----------------------------------------------------------------------------------------

/-- Forgotten objects have no destructor. -/
def Silent (space : FixedSpace δ) : Prop :=
  ∀ slot ∈ space.slots,
    ∀ occupant,
      slot.occupant = some occupant → occupant.forgotten → occupant.destructor = none

/-- Changes in place forget no object that keeps its destructor. -/
theorem Silent.map {space next : FixedSpace δ} (silent : space.Silent)
    {change : FixedSlot δ → FixedSlot δ} (slots : next.slots = space.slots.map change)
    (keeps
      : ∀ slot occupant,
          (change slot).occupant = some occupant →
          occupant.forgotten →
          occupant.destructor = none
          ∨ ∃ former,
              slot.occupant = some former
              ∧ former.forgotten
              ∧ former.destructor = occupant.destructor)
    : next.Silent := by
  intro slot member occupant holds forgotten
  rw [slots] at member
  obtain ⟨before, inside, rfl⟩ := List.mem_map.mp member
  rcases keeps before occupant holds forgotten with none | ⟨former, held, gave, same⟩
  · exact none
  · rw [← same]
    exact silent before inside former held gave

/-- Objects are changed in place without being forgotten, or lose their destructor. -/
theorem Silent.updateOccupant {space : FixedSpace δ} (silent : space.Silent) (start : Nat)
    {change : Occupant δ → Occupant δ}
    (keeps
      : ∀ occupant,
          (change occupant).forgotten →
          (change occupant).destructor = none
          ∨ occupant.forgotten ∧ occupant.destructor = (change occupant).destructor)
    : (space.updateOccupant start change).Silent := by
  refine silent.map rfl fun slot occupant holds forgotten => ?_
  split_ifs at holds
  · obtain ⟨former, held, rfl⟩ := Option.map_eq_some_iff.mp holds
    exact (keeps former forgotten).imp_right fun same => ⟨former, held, same⟩
  · exact .inr ⟨occupant, holds, forgotten, rfl⟩

/-- A new object is not forgotten. -/
theorem Silent.occupy {space : FixedSpace δ} (silent : space.Silent) (slot : FixedSlot δ)
    {occupant : Occupant δ} (known : occupant.forgotten = false)
    : (space.occupy slot occupant).Silent := by
  refine silent.map rfl fun other resident holds forgotten => ?_
  split_ifs at holds
  · cases holds
    rw [known] at forgotten
    cases forgotten
  · exact .inr ⟨resident, holds, forgotten, rfl⟩

/-- Every change leaves forgotten objects without a destructor. -/
theorem Silent.apply {space next : FixedSpace δ} (silent : space.Silent) (change : Change σ δ)
    (applied : change.apply space = .ok next)
    : next.Silent := by
  cases change with
  | allocate words positive destructor executable =>
      cases applied
      rw [FixedSpace.allocate]
      cases space.vacantFor? (space.classes.indexFor words) words executable with
      | some slot =>
          have reused : (space.reuse slot).Silent := silent
          exact reused.occupy slot rfl
      | none =>
          refine Silent.occupy (fun slot member occupant holds => ?_) _ rfl
          rcases List.mem_cons.mp member with rfl | below
          · cases holds
          · exact silent slot below occupant holds
  | overwrite offset word =>
      cases applied
      unfold FixedSpace.overwrite
      split_ifs <;> exact silent
  | forget start =>
      cases applied
      unfold FixedSpace.forget?
      cases space.occupant? start with
      | none => exact silent
      | some occupant => exact silent.updateOccupant start fun _ _ => .inl rfl
  | mark offset =>
      cases applied
      rcases space.mark?_cases offset with same | ⟨start, same⟩
      · rw [same]
        exact silent
      · rw [same]
        exact silent.updateOccupant start fun _ forgotten => .inr ⟨forgotten, rfl⟩
  | sweep destroy host =>
      cases sweeps : space.sweep destroy host with
      | error start => simp [Change.apply, sweeps, Except.map] at applied
      | ok swept =>
          rw [Change.apply, sweeps] at applied
          cases applied
          refine silent.map (slots_sweep sweeps) fun slot occupant holds forgotten => ?_
          rw [occupant_swept] at holds
          obtain ⟨former, marked, rfl⟩ := Option.map_eq_some_iff.mp holds
          exact .inr ⟨former, (Option.filter_eq_some_iff.mp marked).1, forgotten, rfl⟩
  | clearFresh =>
      cases applied
      exact silent

/-- Any changes leave forgotten objects without a destructor. -/
theorem Silent.changed {space final : FixedSpace δ} (silent : space.Silent)
    {changes : List (Change σ δ)} (done : space.changed changes = .ok final)
    : final.Silent :=
  keeps_changed (fun change _ _ silent applied => silent.apply change applied) silent done

-----------------------------------------------------------------------------------------
-- Other marks
-----------------------------------------------------------------------------------------

/-- The space with these objects marked and no others. -/
def withMarks (space : FixedSpace δ) (marks : Nat → Bool) : FixedSpace δ :=
  { space with slots := space.slots.map fun slot => slot.withMark (marks slot.start) }

/-- Every space is one with some marks. -/
theorem Consistent.exists_marks {space : FixedSpace δ} (consistent : space.Consistent)
    : ∃ marks, space.withMarks marks = space := by
  refine ⟨fun start => (space.occupant? start).any (·.marked), ?_⟩
  have slots : space.slots.map (fun slot =>
      slot.withMark ((space.occupant? slot.start).any (·.marked))) = space.slots := by
    refine (List.map_congr_left fun slot member => ?_).trans (List.map_id _)
    rw [FixedSpace.occupant?, consistent.slot?_start member]
    exact slot.withMark_own
  rw [withMarks, slots]

/-- A space is as much in order with other marks. -/
theorem Kept.withMarks {space : FixedSpace δ} (kept : space.Kept) (marks : Nat → Bool)
    : (space.withMarks marks).Kept := by
  have live : ∀ slot : FixedSlot δ, (slot.withMark (marks slot.start)).isLive = slot.isLive := by
    intro slot
    simp [FixedSlot.isLive, FixedSlot.withMark]
  refine ⟨⟨?_, ?_, kept.vacantNodup, ?_⟩, kept.toCounted.map rfl live (fun _ => rfl) rfl rfl⟩
  · refine (stacked_map ?_ ?_).mpr kept.stacked <;> exact fun _ => rfl
  · intro slot member occupant holds
    obtain ⟨before, inside, rfl⟩ := List.mem_map.mp member
    obtain ⟨former, held, rfl⟩ := Option.map_eq_some_iff.mp holds
    exact kept.fits before inside former held
  · intro sizeClass executable start
    refine (kept.mem_vacant sizeClass executable start).trans ?_
    simp [FixedSpace.withMarks, FixedSlot.withMark]

/-- Marks say nothing of what was forgotten. -/
theorem Silent.withMarks {space : FixedSpace δ} (silent : space.Silent) (marks : Nat → Bool)
    : (space.withMarks marks).Silent := by
  refine silent.map rfl fun slot occupant holds forgotten => ?_
  obtain ⟨former, held, rfl⟩ := Option.map_eq_some_iff.mp holds
  exact .inr ⟨former, held, forgotten, rfl⟩

-----------------------------------------------------------------------------------------
-- Calls of destructors
-----------------------------------------------------------------------------------------

/-- The destructors of a host, with a list of their calls beside its state. -/
def listing (destroy : δ → Address → List Word → σ → Reply σ (List Word)) (destructor : δ)
    (object : Address) (words : List Word) (state : σ × List (Call δ))
    : Reply (σ × List (Call δ)) (List Word) :=
  (destroy destructor object words state.1).beside (state.2 ++ [.mk destructor object words])

/-- Listing calls changes nothing else, by one call after another. -/
theorem runDestructors_listing (destroy : δ → Address → List Word → σ → Reply σ (List Word))
    (slots : List (FixedSlot δ)) (arena : Arena) (state : σ × List (Call δ))
    : (runDestructors (listing destroy) slots arena state).1
        = (runDestructors destroy slots arena state.1).1
      ∧ (runDestructors (listing destroy) slots arena state).2.1.1
        = (runDestructors destroy slots arena state.1).2.1
      ∧ (runDestructors (listing destroy) slots arena state).2.2
        = (runDestructors destroy slots arena state.1).2.2 := by
  induction slots generalizing arena state with
  | nil => exact ⟨rfl, rfl, rfl⟩
  | cons slot slots ih =>
      simp only [runDestructors]
      split
      · exact ih arena state
      next words destructor _ =>
        obtain ⟨same, kept, told⟩ := ih
          (arena.setMany slot.start ((destroy destructor (.pack .fixed slot.start)
            (arena.words slot.start words) state.1).answer.take words))
          (listing destroy destructor (.pack .fixed slot.start) (arena.words slot.start words)
            state).host
        exact ⟨same, kept, congrArg _ told⟩

/-- Destructors write to the payloads that they are called for and nowhere else, by one call after another.
-/
theorem get_runDestructors_elsewhere
    {destroy : δ → Address → List Word → σ → Reply σ (List Word)} {slots : List (FixedSlot δ)}
    {arena : Arena} {host : σ} {offset : Nat}
    (outside
      : ∀ slot ∈ slots,
          ∀ occupant,
            slot.occupant = some occupant →
            occupant.destructor.isSome →
            offset < slot.start ∨ slot.start + occupant.words ≤ offset)
    : (runDestructors destroy slots arena host).1.get offset = arena.get offset := by
  fun_induction runDestructors destroy slots arena host with
  | case1 => rfl
  | case2 slot slots arena host none? ih =>
      exact ih fun other inside => outside other (List.mem_cons_of_mem _ inside)
  | case3 slot slots arena host words destructor found reply written final host' notes run ih =>
      have rest := ih fun other inside => outside other (List.mem_cons_of_mem _ inside)
      rw [run] at rest
      obtain ⟨occupant, holds, equal⟩ := Option.bind_eq_some_iff.mp found
      obtain ⟨_, named, pair⟩ := Option.map_eq_some_iff.mp equal
      have size : occupant.words = words := congrArg Prod.fst pair
      have apart := outside slot List.mem_cons_self occupant holds (by rw [named]; rfl)
      refine rest.trans (Arena.get_setMany_outside _ ?_)
      rw [List.length_take]
      omega

-----------------------------------------------------------------------------------------
-- Sweeping
-----------------------------------------------------------------------------------------

/-- The live slots without a mark, by descending start. -/
def garbage (space : FixedSpace δ) : List (FixedSlot δ) := space.slots.filter FixedSlot.isGarbage

/-- The live slots of a class and use without a mark, by ascending start. -/
def garbageOf (space : FixedSpace δ) (sizeClass : Nat) (executable : Bool) : List Nat :=
  ((space.garbage.filter fun slot =>
    slot.sizeClass == sizeClass && slot.executable == executable).map FixedSlot.start).reverse

/-- The calls that destroy the live objects without a mark, by descending start: one for each that has a
destructor and was not forgotten, over its own payload.
-/
def dueCalls (space : FixedSpace δ) : List (Call δ) :=
  (space.garbage.filter fun slot => slot.occupant.all (!·.forgotten)).filterMap
    (·.call? space.arena)

/-- A list of vacant slots is the freed slots of its class and use, the last one first, and behind them what
it was, by pushing one slot after another.
-/
theorem get_foldl_push (freed : List (FixedSlot δ)) (vacant : FreeLists) (sizeClass : Nat)
    (executable : Bool)
    : (freed.foldl FreeLists.push vacant).get sizeClass executable
      = ((freed.filter fun slot =>
            slot.sizeClass == sizeClass && slot.executable == executable).map
          FixedSlot.start).reverse
        ++ vacant.get sizeClass executable := by
  induction freed generalizing vacant with
  | nil => rfl
  | cons head rest ih =>
      rw [List.foldl_cons, ih, FreeLists.push, FreeLists.get_set]
      split_ifs with here
      · obtain ⟨rfl, rfl⟩ := here
        simp
      · have other : (head.sizeClass == sizeClass && head.executable == executable) = false := by
          simpa using here
        rw [List.filter_cons_of_neg (by simp [other])]

/-- What a sweep does: the live slots without a mark are vacant, and nothing else is different but the marks
that are cleared. Freed objects are destroyed in descending order, those that were not forgotten, each over
its own payload; they are counted, and lead the lists of vacant slots in ascending order.
-/
structure Frees (space : FixedSpace δ)
    (destroy : δ → Address → List Word → σ → Reply σ (List Word)) (host : σ) (swept : Swept σ δ)
    : Prop where
  slots
    : swept.space.slots
      = space.slots.map fun slot =>
          { slot with
            occupant := (slot.occupant.filter (·.marked)).map ({ · with marked := false }) }
  kept
    : ∀ slot ∈ space.slots,
        ∀ occupant,
          slot.occupant = some occupant →
          occupant.marked →
          swept.space.arena.words slot.start slot.capacity
          = space.arena.words slot.start slot.capacity
  elsewhere
    : ∀ offset,
        (∀ slot ∈ space.garbage,
            ∀ occupant,
              slot.occupant = some occupant →
              occupant.destructor.isSome →
              offset < slot.start ∨ slot.start + occupant.words ≤ offset) →
        swept.space.arena.get offset = space.arena.get offset
  descending : (space.garbage.map FixedSlot.start).Pairwise (· > ·)
  calls
    : space.sweep (listing destroy) (host, [])
      = .ok
        { space := swept.space
          outcome := swept.outcome
          host := (swept.host, space.dueCalls)
          notes := swept.notes }
  reclaimed : swept.outcome.reclaimed = space.garbage.length
  reclaimedWords : swept.outcome.reclaimedWords = (space.garbage.map FixedSlot.capacity).sum
  destroyed : swept.outcome.destroyed = space.dueCalls.length
  objects : swept.space.liveObjects + swept.outcome.reclaimed = space.liveObjects
  words : swept.space.liveWords + swept.outcome.reclaimedWords = space.liveWords
  lists
    : ∀ sizeClass executable,
        swept.space.vacant.get sizeClass executable
          = space.garbageOf sizeClass executable ++ space.vacant.get sizeClass executable
        ∧ (space.garbageOf sizeClass executable).Pairwise (· < ·)
  size : swept.space.arena.size = space.arena.size
  fresh : swept.space.freshObjects = space.freshObjects

/-- A swept slot is the slot with its object, unmarked, if that was marked. -/
theorem swept_eq (slot : FixedSlot δ)
    : slot.swept
      = { slot with
          occupant := (slot.occupant.filter (·.marked)).map ({ · with marked := false }) } := by
  have held := occupant_swept slot
  have start := start_swept slot
  have capacity := capacity_swept slot
  have sizeClass := sizeClass_swept slot
  have executable := executable_swept slot
  cases swept : slot.swept with
  | mk start' capacity' sizeClass' executable' occupant' =>
      rw [swept] at held start capacity sizeClass executable
      cases held
      cases start
      cases capacity
      cases sizeClass
      cases executable
      rfl

/-- The live slots of a class and use without a mark are listed by ascending start. -/
theorem Consistent.ascending_garbageOf {space : FixedSpace δ} (consistent : space.Consistent)
    (sizeClass : Nat) (executable : Bool)
    : (space.garbageOf sizeClass executable).Pairwise (· < ·) := by
  refine List.pairwise_reverse.mpr (consistent.stacked.descending.sublist ?_)
  exact (List.filter_sublist.trans List.filter_sublist).map FixedSlot.start

/-- Destructors are called for the objects that were not forgotten. -/
theorem Silent.dueCalls_eq {space : FixedSpace δ} (silent : space.Silent)
    : space.dueCalls = space.garbage.filterMap (·.call? space.arena) := by
  rw [dueCalls, List.filterMap_filter]
  refine List.filterMap_congr fun slot member => ?_
  split_ifs with known
  · rfl
  · cases held : slot.occupant with
    | none => simp [held] at known
    | some occupant =>
        have forgotten : occupant.forgotten := by simpa [held] using known
        have none := silent slot (List.mem_filter.mp member).1 occupant held forgotten
        simp [FixedSlot.call?, held, none]

/-- A sweep of a space in order frees the live slots without a mark. -/
theorem Kept.frees {space : FixedSpace δ} (kept : space.Kept) (silent : space.Silent)
    (destroy : δ → Address → List Word → σ → Reply σ (List Word)) (host : σ)
    : ∃ swept, space.sweep destroy host = .ok swept ∧ space.Frees destroy host swept := by
  obtain ⟨swept, sweeps, effects, -⟩ := kept.toConsistent.sweep destroy host
  obtain ⟨listed, lists, -, -⟩ := kept.toConsistent.sweep (listing destroy) (host, [])
  obtain ⟨objects, words⟩ := live_swept space.slots
  rw [← kept.objects] at objects
  rw [← kept.words] at words
  have shape := sweptUpTo_slots sweeps
  refine ⟨swept, sweeps, ?_⟩
  subst shape
  have total : (space.slots.filter FixedSlot.isGarbage).foldl
      (fun words slot => words + slot.capacity) 0
      = ((space.slots.filter FixedSlot.isGarbage).map FixedSlot.capacity).sum := by
    rw [foldl_capacity, Nat.zero_add]
  refine
    { slots := ?_
      kept := fun slot member occupant holds marked => ?_
      elsewhere := fun offset outside => get_runDestructors_elsewhere outside
      descending := kept.stacked.descending.sublist (List.filter_sublist.map _)
      calls := ?_
      reclaimed := rfl
      reclaimedWords := total
      destroyed := ?_
      objects := ?_
      words := ?_
      lists := fun sizeClass executable =>
        ⟨get_foldl_push _ _ sizeClass executable, kept.ascending_garbageOf sizeClass executable⟩
      size := effects.size
      fresh := congrArg List.reverse effects.recent }
  · rw [effects.slots]
    exact List.map_congr_left fun slot _ => swept_eq slot
  · refine Arena.words_congr fun offset above below => effects.kept offset slot.start ?_
    have live : slot.isLive := by simp [FixedSlot.isLive, holds]
    exact (effects.containing?_eq_some_iff kept.toConsistent).mpr
      ⟨kept.containing?_eq_some_iff.mpr ⟨slot, member, rfl, live, above, below⟩, occupant,
        kept.occupant?_eq_some_iff.mpr ⟨slot, member, rfl, holds⟩, marked⟩
  · have fits : ∀ slot ∈ space.garbage, ∀ occupant,
        slot.occupant = some occupant → occupant.words ≤ slot.capacity :=
      fun slot member occupant holds =>
        (kept.fits slot (List.mem_filter.mp member).1 occupant holds).2
    have made := @calls_runDestructors _ _ (listing destroy) (fun _ => True) Prod.snd
      (fun _ _ _ _ _ => trivial) (fun _ _ _ _ _ => rfl) space.garbage space.arena (host, []) trivial
      fits (kept.stacked.pairwise.filter _)
    obtain ⟨same, state, told⟩ :=
      runDestructors_listing destroy space.garbage space.arena (host, [])
    rw [lists, ← sweptUpTo_slots lists, silent.dueCalls_eq]
    rw [List.nil_append] at made
    have pair : (runDestructors (listing destroy) space.garbage space.arena (host, [])).2.1
        = ((runDestructors destroy space.garbage space.arena host).2.1,
            space.garbage.filterMap (·.call? space.arena)) :=
      Prod.ext state made
    simp only [garbage] at same pair told
    simp only [sweptUpTo, same, pair, told, garbage]
  · rw [silent.dueCalls_eq, List.length_filterMap_eq_countP]
    refine List.countP_congr fun slot _ => ?_
    simp [FixedSlot.call?, Option.isSome_bind]
  · exact Nat.sub_add_cancel (by omega)
  · refine Nat.sub_add_cancel ?_
    rw [total]
    omega

end FixedSpace

-----------------------------------------------------------------------------------------
-- Sweeping in every run
-----------------------------------------------------------------------------------------

namespace LinkedSpace

/-- The space with these objects marked and no others. -/
def withMarks (linked : LinkedSpace δ) (marks : Nat → Bool) : LinkedSpace δ :=
  { linked with
    headers := fun start =>
      (linked.headers start).map fun header =>
        { header with occupant := header.occupant.map ({ · with marked := marks start }) } }

/-- The links spell out the same slots with other marks. -/
theorem Spells.withMarks {linked : LinkedSpace δ} {space : FixedSpace δ}
    (spells : linked.Spells space) (marks : Nat → Bool)
    : (linked.withMarks marks).Spells (space.withMarks marks) := by
  have previous : (linked.withMarks marks).previous = linked.previous := by
    funext start
    rw [LinkedSpace.previous, LinkedSpace.withMarks, LinkedSpace.previous, Option.bind_map]
    rfl
  have next : (linked.withMarks marks).next = linked.next := by
    funext start
    rw [LinkedSpace.next, LinkedSpace.withMarks, LinkedSpace.next, Option.bind_map]
    rfl
  refine ⟨{ spells with headers := fun start => ?_, chain := ?_ }, fun sizeClass executable => ?_⟩
  · have places : (fun slot : FixedSlot δ => slot.start == start)
        ∘ (fun slot : FixedSlot δ => slot.withMark (marks slot.start))
        = fun slot => slot.start == start := rfl
    rw [FixedSpace.slot?, FixedSpace.withMarks, List.find?_map, places]
    change _ = (space.slot? start).map _
    rw [← spells.headers, LinkedSpace.withMarks, Option.map_map, Option.map_map]
    rfl
  · have starts : (space.withMarks marks).slots.map FixedSlot.start
        = space.slots.map FixedSlot.start := by
      rw [FixedSpace.withMarks, List.map_map]
      rfl
    rw [starts, previous]
    exact spells.chain
  · rw [next]
    exact spells.lists sizeClass executable

end LinkedSpace

end MovingHeap
