import MovingHeap.Proofs.Destructors
import MovingHeap.Proofs.Twins

/-! A minor collection before a full one.
The full collection moves the twin of an object to where it would have moved the object, and what the
values became becomes what they would have become. So the minor collection is not noticed, whatever
garbage it promoted.
-/

namespace MovingHeap

variable {σ δ : Type}

namespace World

/-- Two heaps are the same as their roots and all that a full collection keeps go: all roots hold the
same, the old region is in the same semispace and holds the same words, and there are the same fixed
objects, which hold the same.
-/
structure Agrees (contract : Contract σ) (first second : World σ δ) : Prop where
  roots : ∀ root, second.heap.rootValue root = first.heap.rootValue root
  tables : first.heap.SameTables second.heap
  kept : contract.roots second.host = contract.roots first.host
  space : second.heap.regions.old.space = first.heap.regions.old.space
  cursor : second.heap.regions.old.cursor = first.heap.regions.old.cursor
  words
    : ∀ offset < first.heap.regions.old.cursor,
        second.heap.regions.old.words.get offset = first.heap.regions.old.words.get offset
  occupants
    : ∀ begin,
        second.heap.regions.fixed.occupant? begin = first.heap.regions.fixed.occupant? begin
  payloads
    : ∀ begin occupant,
        first.heap.regions.fixed.occupant? begin = some occupant →
        ∀ index < occupant.words,
          second.heap.regions.fixed.arena.get (begin + index)
          = first.heap.regions.fixed.arena.get (begin + index)

variable {contract : Contract σ} {order : VisitingOrder contract.layout} {move : Value → Value}
  {world middle : World σ δ}

/-- What can be reached can be reached after a minor collection, by induction over the path. -/
theorem Promotes.reached (sound : world.Sound contract)
    (promotes : world.Promotes contract move middle) {value : Value}
    (reached : world.Reached contract value)
    : middle.Reached contract (move value) := by
  have coherent := sound.wellFormed.coherent
  have met : ∀ {value}, world.Reached contract value → world.Met contract [] value :=
    fun reached => reached.mono fun _ => .rooted
  induction reached with
  | start root =>
      cases root with
      | root root =>
          rw [← promotes.roots]
          exact .start (.root root)
      | kept member =>
          refine .start (.kept ?_)
          rw [promotes.kept]
          exact List.mem_map_of_mem member
  | @field addr index valid there moves slot ih =>
      have notFixed := sound.regular.apart.ne_fixed moves
      obtain ⟨copy, twins⟩ := promotes.exists_twin valid (met there) notFixed
      obtain ⟨-, -, slots⟩ := promotes.toRelocates.layout_copied coherent sound.wellFormed.heads
        valid (met there) notFixed twins.copied
      rw [twins.copied.same] at ih
      have holds := twins.copied.slots index slot
      rw [show move _ = ⟨middle.heap.regions.field copy index⟩ from congrArg Value.mk holds.symm]
      exact .field twins.copied.valid ih twins.moves ((slots index).mpr slot)
  | @payload addr begin index occupant valid there follows fixed covers found known inside ih =>
      rw [promotes.stays addr valid (by simp [fixed])] at ih
      have holds := promotes.payloads begin occupant found index inside
      rw [show move _ = ⟨middle.heap.regions.cell .fixed (begin + index)⟩ from
        congrArg Value.mk holds.symm]
      exact .payload valid ih rfl fixed ((promotes.containing? _).trans covers)
        ((promotes.occupant? _).trans found) known inside

section Agrees

variable {direct final : World σ δ} {moveDirect moveFinal : Value → Value} {tour image : Tour}
  (sound : world.Sound contract) (promotes : world.Promotes contract move middle)
  (left : world.CompactsInOrder contract order moveDirect tour direct)
  (right : middle.CompactsInOrder contract order moveFinal image final)

/-- Objects whose twins are packed alike are packed alike: twins have copies at the same offsets, which
cover all words between the ends, and the ends are the same.
-/
theorem packs_twins {objects twins : List Address}
    (sizes
      : ∀ {object twin},
          world.Twins contract move middle object twin →
          contract.layout.size (middle.heap.regions.field twin)
          = contract.layout.size (world.heap.regions.field object))
    (pairs : List.Forall₂ (world.Twins contract move middle) objects twins)
    {start stop stop' : Nat}
    (packs
      : Regions.Packs contract.layout moveDirect world.heap.regions direct.heap.regions objects
          start stop)
    (packs'
      : Regions.Packs contract.layout moveFinal middle.heap.regions final.heap.regions twins
          start stop')
    : stop' = stop
      ∧ (∀ object ∈ objects,
          ∃ twin copy copy',
            world.Twins contract move middle object twin
            ∧ Regions.Copied contract.layout moveDirect world.heap.regions direct.heap.regions
                object copy
            ∧ Regions.Copied contract.layout moveFinal middle.heap.regions final.heap.regions
                twin copy'
            ∧ copy'.offset = copy.offset)
      ∧ ∀ offset,
          start ≤ offset →
          offset < stop →
          ∃ object ∈ objects, ∃ copy,
            Regions.Copied contract.layout moveDirect world.heap.regions direct.heap.regions
                object copy
            ∧ copy.offset ≤ offset
            ∧ offset < copy.offset + contract.layout.size (world.heap.regions.field object) := by
  induction pairs generalizing start with
  | nil =>
      have ends : start = stop := packs
      have ends' : start = stop' := packs'
      exact ⟨by omega, nofun, fun offset above below => by omega⟩
  | @cons object twin objects twins pair _ ih =>
      obtain ⟨⟨copy, copied, begins⟩, rest⟩ := packs
      obtain ⟨⟨copy', copied', begins'⟩, rest'⟩ := packs'
      rw [sizes pair] at rest'
      obtain ⟨ends, lands, covers⟩ := ih rest rest'
      refine ⟨ends, fun other member => ?_, fun offset above below => ?_⟩
      · rcases List.mem_cons.mp member with rfl | later
        · exact ⟨twin, copy, copy', pair, copied, copied', begins'.trans begins.symm⟩
        · exact lands other later
      · by_cases here : offset < start + contract.layout.size (world.heap.regions.field object)
        · exact ⟨object, List.mem_cons_self, copy, copied, by omega, by omega⟩
        · obtain ⟨other, member, there⟩ := covers offset (by omega) below
          exact ⟨other, List.mem_cons_of_mem _ member, there⟩

include sound promotes left right

/-- Objects are copied to where their twins are copied to. -/
theorem lands_twins
    : final.heap.regions.old.cursor = direct.heap.regions.old.cursor
      ∧ (∀ object ∈ tour.moved,
          ∃ twin copy,
            world.Twins contract move middle object twin
            ∧ Regions.Copied contract.layout moveDirect world.heap.regions direct.heap.regions
                object copy
            ∧ Regions.Copied contract.layout moveFinal middle.heap.regions final.heap.regions
                twin copy)
      ∧ ∀ offset < direct.heap.regions.old.cursor,
          ∃ object ∈ tour.moved, ∃ copy,
            Regions.Copied contract.layout moveDirect world.heap.regions direct.heap.regions
                object copy
            ∧ copy.offset ≤ offset
            ∧ offset < copy.offset + contract.layout.size (world.heap.regions.field object) := by
  have inStep := promotes.inStep sound order left.traverses right.traverses
  have sizes : ∀ {object twin}, world.Twins contract move middle object twin →
      contract.layout.size (middle.heap.regions.field twin)
      = contract.layout.size (world.heap.regions.field object) := fun twins =>
    (promotes.toRelocates.layout_copied sound.wellFormed.coherent sound.wellFormed.heads
      twins.valid twins.met twins.notFixed twins.copied).2.1
  obtain ⟨ends, lands, covers⟩ := packs_twins sizes inStep.moved left.packs right.packs
  refine ⟨ends, fun object moved => ?_, fun offset below => covers offset (Nat.zero_le _) below⟩
  obtain ⟨twin, copy, copy', twins, copied, copied', offset⟩ := lands object moved
  have space : copy'.space = copy.space := by
    rw [copied.space, copied'.space, left.flipped, right.flipped, promotes.space]
  obtain rfl := copied'.valid.ext copied.valid space offset
  exact ⟨twin, copy', twins, copied, copied'⟩

/-- What a value became becomes what the value would have become. -/
theorem move_move {value : Value} (reached : world.Reached contract value)
    : moveFinal (move value) = moveDirect value := by
  cases found : value.address? with
  | none => rw [promotes.plain value found, right.plain value found, left.plain value found]
  | some addr =>
      have valid := Value.decodes_of_address? found
      obtain rfl : addr.toValue = value := Value.toValue_of_address? found
      by_cases fixed : addr.space = .fixed
      · have rests := promotes.stays addr valid (by simp [fixed])
        have there := promotes.reached sound reached
        rw [rests] at there ⊢
        cases forgets : world.heap.regions.forgets addr with
        | true =>
            rw [left.forgotten addr valid fixed forgets,
              right.forgotten addr valid fixed ((promotes.forgets addr).trans forgets)]
        | false =>
            rw [(left.known addr valid reached fixed forgets).same,
              (right.known addr valid there fixed ((promotes.forgets addr).trans forgets)).same]
      · obtain ⟨-, lands, -⟩ := lands_twins sound promotes left right
        obtain ⟨twin, copy, twins, copied, copied'⟩ :=
          lands addr ((left.moved addr).mpr ⟨valid, reached, fixed⟩)
        rw [twins.copied.same, copied'.same, copied.same]

/-- The same fixed objects survive. -/
theorem survives_iff {begin : Nat}
    : middle.Survives contract begin ↔ world.Survives contract begin := by
  have inStep := promotes.inStep sound order left.traverses right.traverses
  rw [← left.marked, ← right.marked, inStep.marked]

/-- The words of a copy are the same. -/
theorem field_landed {object twin copy : Address} {index : Nat} (moved : object ∈ tour.moved)
    (twins : world.Twins contract move middle object twin)
    (copied
      : Regions.Copied contract.layout moveDirect world.heap.regions direct.heap.regions object copy)
    (copied'
      : Regions.Copied contract.layout moveFinal middle.heap.regions final.heap.regions twin copy)
    (inside : index < contract.layout.size (world.heap.regions.field object))
    : final.heap.regions.field copy index = direct.heap.regions.field copy index := by
  obtain ⟨-, size, slots⟩ := promotes.toRelocates.layout_copied sound.wellFormed.coherent
    sound.wellFormed.heads twins.valid twins.met twins.notFixed twins.copied
  by_cases slot : contract.layout.IsSlot (world.heap.regions.field object) index
  · have reached : world.Reached contract ⟨world.heap.regions.field object index⟩ := by
      obtain ⟨valid, there, notFixed⟩ := (left.moved object).mp moved
      refine .field valid there ?_ slot
      exact (sound.wellFormed.coherent.object object valid twins.met notFixed).1
    rw [copied'.slots index ((slots index).mpr slot), twins.copied.slots index slot,
      copied.slots index slot, ← move_move sound promotes left right reached]
  · rw [copied'.others index (by rwa [size]) fun there => slot ((slots index).mp there),
      twins.copied.others index inside slot, copied.others index inside slot]

/-- A full collection leaves the same with a minor one before it. -/
theorem agrees_of_compacts : direct.Agrees contract final := by
  obtain ⟨cursor, lands, covers⟩ := lands_twins sound promotes left right
  have moves : ∀ {value}, world.Reached contract value →
      moveFinal (move value) = moveDirect value :=
    move_move sound promotes left right
  have space : final.heap.regions.old.space = direct.heap.regions.old.space := by
    rw [left.flipped, right.flipped, promotes.space]
  have survivors : ∀ begin occupant,
      final.heap.regions.fixed.occupant? begin = some occupant
      ↔ direct.heap.regions.fixed.occupant? begin = some occupant := by
    intro begin occupant
    rw [left.survivors, right.survivors, promotes.occupant?,
      survives_iff sound promotes left right]
  refine ⟨fun root => ?_, ?_, ?_, space, cursor, fun offset below => ?_, fun begin => ?_,
    fun begin occupant found index inside => ?_⟩
  · rw [left.roots, right.roots, promotes.roots, moves (.start (.root root))]
  · exact left.tables.symm.trans (promotes.tables.trans right.tables)
  · rw [left.kept, right.kept, promotes.kept, List.map_map]
    exact List.map_congr_left fun value member => moves (.start (.kept member))
  · obtain ⟨object, moved, copy, copied, above, below⟩ := covers offset below
    obtain ⟨twin, copy', twins, again, copied'⟩ := lands object moved
    obtain rfl := Pass.eq_of_toValue copied.valid again.valid (copied.same.symm.trans again.same)
    have same := field_landed sound promotes left right moved twins copied copied'
      (show offset - copy.offset < _ by omega)
    rw [Regions.field, Regions.field, copied.space, Nat.add_sub_cancel' above] at same
    rwa [Regions.cell_of_isOld left.old, Regions.cell_of_isOld left.old, Regions.oldSpace?,
      Regions.oldSpace?, if_pos rfl, if_pos space] at same
  · exact Option.ext fun occupant => survivors begin occupant
  · obtain ⟨former, addr, valid, reached, fixed, covers', known⟩ :=
      (left.survivors begin occupant).mp found
    have kept := left.known addr valid reached fixed known
    have there := promotes.reached sound reached
    rw [promotes.stays addr valid (by simp [fixed])] at there
    have kept' := right.known addr valid there fixed ((promotes.forgets addr).trans known)
    obtain ⟨begin', occupant', here, found', -, -, words⟩ := kept.object
    rw [covers'] at here
    cases here
    rw [former] at found'
    cases found'
    obtain ⟨begin', occupant', here, found', -, -, words'⟩ := kept'.object
    rw [promotes.containing?, covers'] at here
    cases here
    rw [promotes.occupant?, former] at found'
    cases found'
    rw [Pass.forgets_eq covers' former] at known
    have holds := words known index inside
    have holds' := words' known index inside
    rw [promotes.payloads begin occupant former index inside] at holds'
    have value := moves (.payload valid reached rfl fixed covers' former known inside)
    exact holds'.trans ((congrArg Value.raw value).trans holds.symm)

/-- The same destructors are to be called, in the same order. -/
theorem targets_eq : middle.targets contract = world.targets contract := by
  have survive : middle.Survives contract = world.Survives contract :=
    funext fun _ => propext (survives_iff sound promotes left right)
  rw [targets, targets, promotes.slots, survive]

end Agrees

-----------------------------------------------------------------------------------------
-- The two collections
-----------------------------------------------------------------------------------------

/-- Two heaps agree, and on the way to them the same destructors were called for the same objects in the
same order.
-/
structure Concurs (contract : Contract σ) (host : Host σ δ) (first second : World σ δ) : Prop
    extends first.Agrees contract second where
  called
    : ∀ calls,
        host.Records contract calls →
        (calls second.host).map Call.target = (calls first.host).map Call.target

variable {host : Host σ δ}

/-- Memory was granted if a full collection ended. -/
theorem granted_of_full {reason : Reason} {direct : World σ δ}
    (ran : Collector.full host reason world = .ok () direct)
    : (host.mapper.map? (Collector.targetWords world.heap)).isSome := by
  have runs : Runs (Collector.full host reason) world
      (fun _ _ => (host.mapper.map? (Collector.targetWords world.heap)).isSome) fun _ _ => True := by
    refine Collector.runs_full (fun words mapped log => ?_) fun _ _ _ => trivial
    refine (runs_anyhow _ _).mono (fun _ traced _ => ?_) fun _ _ => id
    rw [mapped]
    split <;> exact fun _ _ => by simp
  exact runs.of_ok ran

variable (sound : world.Sound contract) (addressable : world.Addressable)
  (faithful : host.Faithful contract) (follows : host.Follows contract order)

include sound addressable faithful

/-- A minor collection leaves no need for more memory. -/
theorem Sound.granted_minor {reason : Reason}
    (minor : Collector.minor host reason world = .ok () middle)
    (granted : (host.mapper.map? (Collector.targetWords world.heap)).isSome)
    : (host.mapper.map? (Collector.targetWords middle.heap)).isSome := by
  obtain ⟨collects, -⟩ := (sound.minor addressable faithful.toTraces reason).of_ok minor
  have cursor := (sound.minor_cursor addressable faithful.toTraces reason).of_ok minor
  have fewer : Collector.targetWords middle.heap ≤ Collector.targetWords world.heap := by
    simp only [Collector.targetWords, collects.config, collects.empty, collects.capacity]
    omega
  exact host.mapper.fewer fewer granted

include follows

/-- Where a full collection ends, it ends after a minor one, too, and leaves the same. -/
theorem Sound.full_after_minor {alone first : Reason} {direct : World σ δ}
    (ran : Collector.full host alone world = .ok () direct)
    (minor : Collector.minor host first world = .ok () middle) (second : Reason)
    : Ends (Collector.full host second) middle fun _ final =>
        direct.Concurs contract host final := by
  obtain ⟨collects, orderly, move, promotes⟩ :=
    (sound.minor addressable faithful.toTraces first).of_ok minor
  have still : middle.Addressable := by
    rw [Addressable, collects.arena]
    exact addressable
  have granted := sound.granted_minor addressable faithful minor (granted_of_full ran)
  obtain ⟨moveDirect, tour, left⟩ :=
    (sound.toOrderly.collectable.full_inOrder addressable faithful follows alone).of_ok ran
  have runs := orderly.collectable.full_inOrder still faithful follows second
  have ends : Ends (Collector.full host second) middle fun _ final =>
      ∃ move tour, middle.CompactsInOrder contract order move tour final := by
    refine runs.mono (fun _ _ => id) fun _ _ refused => ?_
    rw [refused.1] at granted
    cases granted
  obtain ⟨_, final, ran', moveFinal, image, right⟩ := ends.exists_ok
  rw [Ends, Runs, ran']
  refine ⟨agrees_of_compacts sound promotes left right, fun calls records => ?_⟩
  have silent := (sound.minor_silent addressable records first).of_ok minor
  rw [(sound.toOrderly.collectable.full_targets addressable records alone).of_ok ran,
    (orderly.collectable.full_targets still records second).of_ok ran', silent,
    targets_eq sound promotes left right]

end World

end MovingHeap
