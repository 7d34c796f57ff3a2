import MovingHeap.Proofs.OrderedTracing

/-! What a full collection leaves, in order.
Memory tells what was moved and marked, so the copies lie in the order in which the graph of objects was
traversed.
-/

namespace MovingHeap

variable {σ δ : Type}

/-- Objects that begin at the same places back to back are in the same order, by taking off the first. -/
theorem eq_of_offsetIn {size : Address → Nat} {first second : List Address} (nodup : first.Nodup)
    (nodup' : second.Nodup) (same : ∀ object, object ∈ first ↔ object ∈ second)
    (positive : ∀ object ∈ first, 0 < size object)
    (offsets : ∀ object ∈ first, offsetIn size first object = offsetIn size second object)
    : first = second := by
  induction first generalizing second with
  | nil =>
      cases second with
      | nil => rfl
      | cons head => exact absurd ((same head).mpr List.mem_cons_self) List.not_mem_nil
  | cons head rest ih =>
      cases second with
      | nil => exact absurd ((same head).mp List.mem_cons_self) List.not_mem_nil
      | cons head' rest' =>
          have begins := offsets head List.mem_cons_self
          have large := positive head' ((same head').mpr List.mem_cons_self)
          simp only [offsetIn, if_pos] at begins
          split_ifs at begins with here
          · subst here
            obtain ⟨fresh, nodup⟩ := List.nodup_cons.mp nodup
            obtain ⟨fresh', nodup'⟩ := List.nodup_cons.mp nodup'
            have differs : ∀ {object}, object ∈ rest → head' ≠ object := by
              rintro object member rfl
              exact fresh member
            refine congrArg (head' :: ·) (ih nodup nodup' (fun object => ?_)
              (fun object member => positive object (List.mem_cons_of_mem _ member))
              fun object member => ?_)
            · constructor
              · intro member
                have there := (same object).mp (List.mem_cons_of_mem _ member)
                exact List.mem_of_ne_of_mem (differs member).symm there
              · intro member
                have there := (same object).mpr (List.mem_cons_of_mem _ member)
                refine List.mem_of_ne_of_mem ?_ there
                rintro rfl
                exact fresh' member
            · have equal := offsets object (List.mem_cons_of_mem _ member)
              simp only [offsetIn, if_neg (differs member)] at equal
              omega
          · omega

namespace Pass

section Unique

variable {pass : Pass σ δ} {first second : Trail} {now : Regions δ}

/-- An object that was moved in one account was moved in the other. -/
theorem Progress.mem_moved (ready : pass.Ready) (progress : pass.Progress first now)
    (other : pass.Progress second now) {object : Address} (moved : object ∈ first.moved)
    : object ∈ second.moved := by
  obtain ⟨valid, traced, moves⟩ := progress.met object moved
  have isObject := (ready.object object valid traced moves).1
  by_contra unmoved
  have positive := progress.size_pos ready moved
  have intact := other.intact object valid traced moves unmoved 0 positive
  rw [(progress.buried object moved).1] at intact
  exact pass.layout.first_ne_zero isObject intact.symm

/-- Memory tells which objects were moved and in which order. -/
theorem Progress.moved_eq (ready : pass.Ready) (progress : pass.Progress first now)
    (other : pass.Progress second now)
    : first.moved = second.moved := by
  refine eq_of_offsetIn progress.nodup other.nodup
    (fun object => ⟨progress.mem_moved ready other, other.mem_moved ready progress⟩)
    (fun object moved => progress.size_pos ready moved) fun object moved => ?_
  have moved' := progress.mem_moved ready other moved
  have raw := (progress.buried object moved).2.symm.trans (other.buried object moved').2
  have copies : pass.copyOf first object = pass.copyOf second object := congrArg Address.mk raw
  have offset := (progress.copyOf_eq ready moved).2.2
  rw [copies, (other.copyOf_eq ready moved').2.2] at offset
  exact Nat.add_left_cancel offset.symm

/-- Memory tells which fixed objects were marked. -/
theorem Progress.mem_marked (ready : pass.Ready) (progress : pass.Progress first now)
    (other : pass.Progress second now) {begin : Nat} (marked : begin ∈ first.marked)
    : begin ∈ second.marked := by
  obtain ⟨-, addr, -, -, -, covers, -⟩ := progress.reached begin marked
  obtain ⟨occupant, found⟩ := ready.consistent.exists_occupant covers
  obtain ⟨mark, here⟩ := progress.occupant found
  exact (other.marks begin _ here).mp ((progress.marks begin _ here).mpr marked)

end Unique

end Pass

namespace World

/-- A full collection has compacted the heap in the order in which its objects are traversed. -/
structure CompactsInOrder (contract : Contract σ) (order : VisitingOrder contract.layout)
    (move : Value → Value) (tour : Tour) (before after : World σ δ)
    : Prop extends before.Compacts contract move after where
  traverses
    : before.heap.regions.Traverses order 0
        ((before.rootValues contract).foldl (before.heap.regions.meet true) {}) tour
  moved
    : ∀ object,
        object ∈ tour.moved
        ↔ object.Decodes ∧ before.Reached contract object.toValue ∧ object.space ≠ .fixed
  packs
    : Regions.Packs contract.layout move before.heap.regions after.heap.regions tour.moved 0
        after.heap.regions.old.cursor
  marked : ∀ begin, begin ∈ tour.marked ↔ before.Survives contract begin

/-- A full collection compacts the heap in the order in which its objects are traversed. -/
theorem Collectable.full_inOrder {contract : Contract σ} {world : World σ δ}
    (collectable : world.Collectable contract) (addressable : world.Addressable)
    {host : Host σ δ} (faithful : host.Faithful contract)
    {order : VisitingOrder contract.layout} (follows : host.Follows contract order)
    (reason : Reason)
    : Runs (Collector.full host reason) world
        (fun _ final => ∃ move tour, world.CompactsInOrder contract order move tour final)
        fun violation _ =>
          host.mapper.map? (Collector.targetWords world.heap) = none
          ∧ violation = .regionMap (Collector.targetWords world.heap * wordBytes) := by
  have completes := collectable.full_completes addressable faithful reason fun words mapped log =>
    Ends.mono
      (Pass.traceFull_traverses collectable addressable mapped faithful.toTraces follows log)
      fun _ traced ⟨trail, traverses⟩ =>
        show ∃ trail, (Pass.ofFull contract world words).Progress trail traced.heap.regions
          ∧ world.heap.regions.Traverses order 0
              ((world.rootValues contract).foldl (world.heap.regions.meet true) {})
              (trail.tour traced.heap.regions) from
        ⟨trail, traverses⟩
  refine Runs.mono ((Collector.numbered_full host reason world).and completes) ?_
    fun _ _ stopped => stopped.2
  rintro _ final ⟨numbered, words, trail, traced, swept, ⟨other, progress', traverses⟩, full⟩
  have progress := full.done.standing.moment.progress
  have same := progress'.moved_eq full.ready progress
  have compacts := Pass.compacts_ofFull full.done full.settled full.filled full.sweeps full.keeps
    full.heap collectable full.ready rfl full.tables numbered
  have packs := Pass.packs_ofFull full.done full.keeps full.heap full.ready
    (show trail.moved = [] ++ trail.moved from rfl)
  have leaves := Pass.leaves_ofFull full.keeps full.heap progress full.ready
  have cursor : traced.heap.regions.destination.cursor
      = 0 + extent (Pass.ofFull contract world words).size trail.moved := progress.cursor
  refine ⟨_, _, compacts, traverses, fun object => ⟨fun moved => ?_, fun reached => ?_⟩, ?_,
    fun begin => ?_⟩
  · obtain ⟨valid, met, moves⟩ := progress'.met object moved
    rw [Pass.moves_ofFull] at moves
    exact ⟨valid, Pass.traced_ofFull.mp met, collectable.regular.apart.ne_fixed moves⟩
  · obtain ⟨valid, there, notFixed⟩ := reached
    have moves := (collectable.coherent.object object valid there notFixed).1
    rw [← Pass.moves_ofFull] at moves
    have moved := (full.settled _ there object (Value.address?_toValue valid)).1 moves
    exact progress.mem_moved full.ready progress' moved
  · rw [leaves.cursor, cursor, Nat.zero_add]
    have listed : (other.tour traced.heap.regions).moved = trail.moved := same
    rw [listed]
    exact packs
  · rw [← Pass.marked_iff_survives progress full.settled]
    exact ⟨progress'.mem_marked full.ready progress, progress.mem_marked full.ready progress'⟩

end World

end MovingHeap
