import MovingHeap.Proofs.Tracing

/-! Forwarding one reference, in each of its cases.
An object that was met for the first time is copied behind the others and buried; one that has moved
is found through its tombstone; a fixed object is marked. Nothing that was forwarded before changes.
-/

namespace MovingHeap

variable {σ δ : Type}

namespace Pass

/-- A moment of a collection as its site shows it: tracing has come as far as the trail says, the host
keeps its promise and the given roots.
-/
structure Moment (pass : Pass σ δ) (kept : List Value) (trail : Trail) (site : Site σ δ)
    : Prop where
  progress : pass.Progress trail site.regions
  upholds : pass.contract.Upholds site.host
  roots : pass.contract.roots site.host = kept

/-- Tracing came on from one moment to another without a change to the slots there were. -/
structure Extends (pass : Pass σ δ) (kept : List Value) (trail : Trail) (now : Regions δ)
    (later : Trail) (final : Site σ δ)
    : Prop where
  grows : trail.Grows later
  moment : pass.Moment kept later final
  untouched
    : ∀ space offset value,
        pass.Holds trail space offset value →
        final.regions.cell space offset = now.cell space offset
  waiting
    : ∀ begin ∈ later.marked,
        begin ∈ final.regions.unscanned ∨ begin ∈ trail.marked ∧ begin ∉ now.unscanned

/-- Tracing came on by doing what is to be done about a value, no more and no less. -/
structure Meets (pass : Pass σ δ) (kept : List Value) (trail : Trail) (now : Regions δ)
    (value : Value) (later : Trail) (final : Site σ δ)
    : Prop extends pass.Extends kept trail now later final where
  settled : pass.Settled later value
  tour : later.tour final.regions = pass.meet (trail.tour now) value

variable {pass : Pass σ δ} {kept : List Value} {trail : Trail} {site : Site σ δ}

/-- Nothing happening is coming on. -/
theorem Extends.refl (moment : pass.Moment kept trail site)
    : pass.Extends kept trail site.regions trail site :=
  ⟨.refl trail, moment, fun _ _ _ _ => rfl, fun begin marked => by
    by_cases waits : begin ∈ site.regions.unscanned
    · exact Or.inl waits
    · exact Or.inr ⟨marked, waits⟩⟩

/-- Nothing is to be done about a value that is settled. -/
theorem Meets.refl {value : Value} (moment : pass.Moment kept trail site)
    (settled : pass.Settled trail value)
    : pass.Meets kept trail site.regions value trail site where
  toExtends := .refl moment
  settled := settled
  tour := (show pass.meet (trail.tour site.regions) value = _ from Settled.meet settled).symm

/-- A collection that was full stays one. -/
theorem Moment.isFull (moment : pass.Moment kept trail site) : site.regions.isFull = pass.full :=
  moment.progress.evolves.isFull

/-- A fixed object that is met is there, and marked if it was already. -/
theorem Moment.mark? (ready : pass.Ready) (moment : pass.Moment kept trail site)
    {addr : Address} {begin : Nat}
    (covers : pass.before.fixed.containing? addr.offset = some begin)
    : ∃ occupant : Occupant δ,
        site.regions.fixed.occupant? begin = some occupant
        ∧ occupant.forgotten = pass.before.forgets addr
        ∧ (occupant.marked ↔ begin ∈ trail.marked)
        ∧ site.regions.fixed.mark? addr.offset
          = some (if occupant.forgotten then (.forgotten, site.regions.fixed)
            else if occupant.marked then (.already, site.regions.fixed)
            else (.fresh begin,
              site.regions.fixed.updateOccupant begin ({ · with marked := true }))) := by
  obtain ⟨before, found⟩ := ready.consistent.exists_occupant covers
  obtain ⟨marked, here⟩ := moment.progress.occupant found
  have same := FixedSpace.containing?_alike moment.progress.evolves.slots addr.offset
  refine ⟨_, here, ?_, moment.progress.marks begin _ here,
    FixedSpace.mark?_eq (same.trans covers) here⟩
  simp [Regions.forgets, Regions.occupantAt?, covers, found]

-----------------------------------------------------------------------------------------
-- References that stay
-----------------------------------------------------------------------------------------

/-- A value that needs no forwarding is left alone, and so is everything else. -/
theorem forward_still (ready : pass.Ready) (moment : pass.Moment kept trail site)
    (host : Host σ δ) {value : Value} (still : pass.Still trail value)
    : Ends (Collector.forward host value) site fun result final =>
        result = value ∧ final = site := by
  unfold Collector.forward
  split
  next => exact runs_pure.mpr ⟨rfl, rfl⟩
  next addr found =>
    obtain ⟨rests, fixed⟩ := still addr found
    simp only [runs_bind, runs_get]
    split
    next birth =>
      have moves : pass.moves addr.space := moves_iff.mpr (Or.inl birth)
      rw [rests] at moves
      cases moves
    next here =>
      split_ifs with full
      · rw [moment.isFull] at full
        obtain ⟨known, begin, marked, covers⟩ := fixed full here
        obtain ⟨occupant, -, forgets, marks, mark⟩ := moment.mark? ready covers
        rw [known] at forgets
        simp only [forgets, Bool.false_eq_true, if_false, marks.mpr marked, if_true] at mark
        simp only [Collector.markFixed, runs_bind, runs_get, mark, Site.runs_require_some,
          Site.runs_modifyRegions, runs_pure]
        exact ⟨Value.toValue_of_address? found, trivial⟩
      · exact runs_pure.mpr ⟨rfl, rfl⟩
    next young notFixed =>
      split_ifs with both
      · rw [moment.isFull, moment.progress.evolves.oldSpace] at both
        have moves : pass.moves addr.space := moves_iff.mpr (Or.inr both)
        rw [rests] at moves
        cases moves
      · exact runs_pure.mpr ⟨rfl, rfl⟩

-----------------------------------------------------------------------------------------
-- References to fixed objects
-----------------------------------------------------------------------------------------

/-- Marking a fixed object for the first time is a step of tracing. -/
theorem Progress.mark {now : Regions δ} (progress : pass.Progress trail now)
    (full : pass.full) {addr : Address} {begin : Nat} (valid : addr.Decodes)
    (traced : pass.Traced addr.toValue) (fixed : addr.space = .fixed)
    (covers : pass.before.fixed.containing? addr.offset = some begin)
    (known : pass.before.forgets addr = false)
    (evolves : now.Evolves (now.marked (.fresh begin)
      (now.fixed.updateOccupant begin ({ · with marked := true }))))
    : pass.Progress { trail with marked := begin :: trail.marked }
        (now.marked (.fresh begin)
          (now.fixed.updateOccupant begin ({ · with marked := true }))) where
  evolves := progress.evolves.trans evolves
  cursor := progress.cursor
  nodup := progress.nodup
  met := progress.met
  buried := progress.buried
  intact := progress.intact
  slots space offset value holds := by
    have before : pass.Holds trail space offset value := by
      cases holds with
      | copied moved slot => exact .copied moved slot
      | stayed handled => exact .stayed handled
    refine Carried.grows (progress.slots space offset value before) ⟨List.prefix_rfl, ?_⟩
    exact fun begin => List.mem_cons_of_mem _
  copies := progress.copies
  stays := progress.stays
  unused := progress.unused
  marks start occupant found := by
    simp only [Regions.marked, FixedSpace.occupant?_updateOccupant] at found
    rw [List.mem_cons]
    split_ifs at found with here
    · obtain ⟨former, -, rfl⟩ := Option.map_eq_some_iff.mp found
      exact ⟨fun _ => Or.inl here, fun _ => rfl⟩
    · rw [progress.marks start occupant found]
      exact ⟨Or.inr, fun either => either.resolve_left here⟩
  reached start member := by
    rcases List.mem_cons.mp member with rfl | earlier
    · exact ⟨full, addr, valid, traced, fixed, covers, known⟩
    · exact progress.reached start earlier
  waiting start member := by
    rcases List.mem_cons.mp member with rfl | earlier
    · exact List.mem_cons_self
    · exact List.mem_cons_of_mem _ (progress.waiting start earlier)

/-- A reference to a fixed object is settled by marking the object. -/
theorem markFixed_traced (ready : pass.Ready) (moment : pass.Moment kept trail site)
    (full : pass.full) {addr : Address} (valid : addr.Decodes)
    (traced : pass.Traced addr.toValue) (fixed : addr.space = .fixed)
    : Ends (Collector.markFixed addr) site fun result final =>
        ∃ later,
          pass.Meets kept trail site.regions addr.toValue later final
          ∧ result = pass.relocated later addr.toValue := by
  have live := ready.known full addr valid traced
  rw [if_pos fixed] at live
  obtain ⟨begin, covers⟩ := Option.isSome_iff_exists.mp live
  obtain ⟨occupant, here, forgets, marks, mark⟩ := moment.mark? ready covers
  have rests : pass.moves addr.space = false := by
    rw [fixed]
    exact ready.not_moves_fixed
  have target := Value.address?_toValue valid
  have onlyAddr : ∀ {later : Trail}, (pass.before.forgets addr = false → begin ∈ later.marked) →
      pass.Settled later addr.toValue := by
    intro later marked other found
    rw [target, Option.some.injEq] at found
    subst found
    refine ⟨fun moves => by simp [rests] at moves, fun _ _ known start same => ?_⟩
    rw [covers, Option.some.injEq] at same
    exact same ▸ marked known
  have becomes : ∀ later, pass.relocated later addr.toValue
      = if pass.before.forgets addr then .null else addr.toValue := by
    intro later
    simp [relocated, target, full, fixed, ready.not_moves_fixed]
  simp only [Collector.markFixed, runs_bind, runs_get, mark, Site.runs_require_some,
    Site.runs_modifyRegions]
  cases gave : occupant.forgotten with
  | true =>
      simp only [if_true, runs_pure]
      refine ⟨trail, Meets.refl moment (onlyAddr fun known => ?_), ?_⟩
      · rw [← forgets, gave] at known
        cases known
      · rw [becomes, ← forgets, gave, if_pos rfl]
  | false =>
      have known : pass.before.forgets addr = false := forgets.symm.trans gave
      cases already : occupant.marked with
      | true =>
          simp only [Bool.false_eq_true, if_false, if_true, runs_pure]
          refine ⟨trail, Meets.refl moment (onlyAddr fun _ => marks.mp already), ?_⟩
          rw [becomes, known, if_neg Bool.false_ne_true]
      | false =>
          simp only [Bool.false_eq_true, if_false, runs_bind, Site.runs_modifyRegions, runs_pure]
          simp only [gave, already, Bool.false_eq_true, if_false] at mark
          have isFull : site.regions.isFull := moment.isFull.trans full
          refine ⟨{ trail with marked := begin :: trail.marked },
            ⟨⟨⟨List.prefix_rfl, fun _ => List.mem_cons_of_mem _⟩, ⟨?_, moment.upholds, moment.roots⟩,
              fun space offset value _ => ?_, fun start member => ?_⟩,
            onlyAddr fun _ => List.mem_cons_self, ?_⟩, ?_⟩
          · exact moment.progress.mark full valid traced fixed covers known
              (Regions.Evolves.mark isFull mark)
          · cases space <;> rfl
          · rcases List.mem_cons.mp member with rfl | earlier
            · exact Or.inl List.mem_cons_self
            · by_cases waits : start ∈ site.regions.unscanned
              · exact Or.inl (List.mem_cons_of_mem _ waits)
              · exact Or.inr ⟨earlier, waits⟩
          · have fresh : begin ∉ trail.marked := fun marked => by
              rw [marks.mpr marked] at already
              cases already
            have stays : pass.before.moves true .fixed = false := full ▸ ready.not_moves_fixed
            simp [meet, Regions.meet, target, fixed, full, known, covers, fresh, Trail.tour, stays]
          · rw [becomes, known, if_neg Bool.false_ne_true]

-----------------------------------------------------------------------------------------
-- References to moving objects
-----------------------------------------------------------------------------------------

/-- The space of a moving object is the one objects are copied out of for its age. -/
theorem Progress.source_eq {now : Regions δ} (progress : pass.Progress trail now)
    {object : Address} (moves : pass.moves object.space)
    : now.source (object.space == .birth) = object.space := by
  rcases moves_iff.mp moves with birth | ⟨-, same⟩
  · simp [Regions.source, birth]
  · by_cases birth : object.space = .birth
    · simp [Regions.source, birth]
    · have later : (object.space == Space.birth) = false := by simpa using birth
      rw [later, Regions.source, if_neg Bool.false_ne_true, progress.evolves.oldSpace, same]

/-- What an object is copied out of: its words are the cells of its space, and its region ends where it
ended.
-/
theorem Progress.origin_eq (ready : pass.Ready) {now : Regions δ}
    (progress : pass.Progress trail now) {object : Address} (moves : pass.moves object.space)
    : (∀ offset,
        (now.origin (object.space == .birth)).1.get offset = now.cell object.space offset)
      ∧ (now.origin (object.space == .birth)).2 = pass.before.limit object.space := by
  have apart := progress.evolves.apart ready.apart
  constructor
  · intro offset
    rw [← apart.cell_source, progress.source_eq moves]
  · by_cases birth : object.space = .birth
    · simp [Regions.origin, Regions.limit, birth, progress.evolves.birthCursor]
    · rcases moves_iff.mp moves with young | ⟨full, -⟩
      · exact absurd young birth
      · have later : (object.space == Space.birth) = false := by simpa using birth
        rw [later, Regions.origin, if_neg Bool.false_ne_true, Regions.limit, if_neg birth]
        exact progress.evolves.oldCursor full

/-- An object that has not moved is not among the others. -/
theorem Progress.nodup_snoc {now : Regions δ} (progress : pass.Progress trail now)
    {object : Address} (fresh : object ∉ trail.moved)
    : (trail.moved ++ [object]).Nodup := by
  refine List.nodup_append.mpr ⟨progress.nodup, List.nodup_singleton object, ?_⟩
  intro first member second only
  rw [List.mem_singleton] at only
  rintro rfl
  exact fresh (only ▸ member)

/-- An object that was met may move like the others. -/
theorem Progress.met_snoc {now : Regions δ} (progress : pass.Progress trail now)
    {object : Address} (valid : object.Decodes) (traced : pass.Traced object.toValue)
    (moves : pass.moves object.space)
    : ∀ other ∈ trail.moved ++ [object],
        other.Decodes ∧ pass.Traced other.toValue ∧ pass.moves other.space := by
  intro other member
  rcases List.mem_append.mp member with moved | only
  · exact progress.met other moved
  · rw [List.mem_singleton.mp only]
    exact ⟨valid, traced, moves⟩

/-- There is room for a copy of an object that has not moved. -/
theorem Progress.room (ready : pass.Ready) {now : Regions δ}
    (progress : pass.Progress trail now) {object : Address} (valid : object.Decodes)
    (traced : pass.Traced object.toValue) (moves : pass.moves object.space)
    (fresh : object ∉ trail.moved)
    : now.destination.cursor + pass.size object ≤ now.destination.words.size := by
  have bound := ready.extent_le (progress.nodup_snoc fresh)
    (progress.met_snoc valid traced moves)
  have room := ready.room
  have size := progress.evolves.destinationSize
  have cursor := progress.cursor
  simp only [extent_append] at bound
  have single : extent pass.size [object] = pass.size object := by simp [extent]
  omega

/-- The first word of a list of words that begins like an object. -/
structure Copies (pass : Pass σ δ) (object : Address) (written : List Word) : Prop where
  length : written.length = pass.size object
  word : ∀ index (inside : index < written.length), written[index] = pass.before.field object index

section Relocated

variable {now : Regions δ} {object : Address} {written : List Word} {extended : Semispace}

/-- Memory after an object that has not moved was copied and buried: the tombstone, the copy, and what
did not change.
-/
structure Buried (pass : Pass σ δ) (now : Regions δ) (object : Address) (final : Regions δ)
    : Prop where
  first : final.field object 0 = 0
  second : final.field object 1 = (Address.pack pass.space now.destination.cursor).raw
  copy
    : ∀ index < pass.size object,
        final.cell pass.space (now.destination.cursor + index) = pass.before.field object index
  sources
    : ∀ space offset,
        pass.moves space →
        (space = object.space → offset ≠ object.offset ∧ offset ≠ object.offset + 1) →
        final.cell space offset = now.cell space offset
  others
    : ∀ space offset,
        pass.moves space = false →
        (space = pass.space → offset < now.destination.cursor) →
        final.cell space offset = now.cell space offset
  cursor : final.destination.cursor = now.destination.cursor + pass.size object
  fixed : final.fixed = now.fixed
  unscanned : final.unscanned = now.unscanned

/-- Burying an object leaves the cursor of the destination alone. -/
theorem cursor_bury (regions : Regions δ) (young : Bool) (offset : Nat) (forwarded : Address)
    : (regions.bury young offset forwarded).destination.cursor = regions.destination.cursor := by
  cases young <;> cases target : regions.target <;>
    simp [Regions.bury, Regions.destination, target]

/-- Burying an object leaves alone what is to be scanned. -/
theorem unscanned_bury (regions : Regions δ) (young : Bool) (offset : Nat) (forwarded : Address)
    : (regions.bury young offset forwarded).unscanned = regions.unscanned := by
  cases young <;> rfl

/-- Putting back the region that is copied to leaves alone what is to be scanned. -/
theorem unscanned_setDestination (regions : Regions δ) (region : Semispace)
    : (regions.setDestination region).unscanned = regions.unscanned := by
  unfold Regions.setDestination
  split_ifs <;> rfl

/-- Copying an object that has not moved and burying it does so. -/
theorem Progress.buried_relocated (ready : pass.Ready) (progress : pass.Progress trail now)
    (moves : pass.moves object.space) (copies : pass.Copies object written)
    (room : now.destination.cursor + pass.size object ≤ now.destination.words.size)
    (admitted
      : Regions.admit? (now.destination.fillTail written) (pass.size object) = some extended)
    : pass.Buried now object
        (Collector.relocated now (now.destination.fillTail written) extended object
          (object.space == .birth) (pass.size object)) := by
  have apart := progress.evolves.apart ready.apart
  have bumped : extended = { now.destination.fillTail written with
      cursor := now.destination.cursor + pass.size object } := (Regions.admit?_eq_some admitted).1
  subst bumped
  have cells := apart.cell_relocated (now.destination.fillTail written)
    { now.destination.fillTail written with
      cursor := now.destination.cursor + pass.size object }
    rfl rfl rfl object (object.space == .birth) (pass.size object)
  rw [progress.source_eq moves] at cells
  have differs : pass.space ≠ object.space := by
    rintro same
    rw [← same, ready.not_moves_space] at moves
    cases moves
  have space := progress.destinationSpace
  refine ⟨?_, ?_, ?_, ?_, ?_, ?_, by simp [Collector.relocated], ?_⟩
  · rw [Regions.field, cells, if_pos ⟨rfl, rfl⟩]
  · rw [Regions.field, cells, if_neg (by simp), if_pos ⟨rfl, rfl⟩, ← space]
    rfl
  · intro index inside
    rw [cells, if_neg fun both => differs both.1, if_neg fun both => differs both.1,
      if_pos space.symm]
    have fits : written.length ≤ now.destination.free := by
      rw [copies.length, Semispace.free, Semispace.capacity]
      omega
    rw [Semispace.get_fillTail_filled _ fits (by rwa [copies.length]), copies.word]
  · intro place offset moving apart
    have other : place ≠ now.destination.space := by
      rw [space]
      rintro rfl
      rw [ready.not_moves_space] at moving
      cases moving
    rw [cells, if_neg fun both => (apart both.1).1 both.2,
      if_neg fun both => (apart both.1).2 both.2, if_neg other]
  · intro place offset rests below
    have other : place ≠ object.space := by
      rintro rfl
      rw [rests] at moves
      cases moves
    rw [cells, if_neg fun both => other both.1, if_neg fun both => other both.1]
    split_ifs with here
    · subst here
      rw [Semispace.get_fillTail_allocated _ _ (below space), apart.cell_destination]
    · rfl
  · refine (cursor_bury _ _ _ _).trans ?_
    rw [Regions.destination_setDestination]
  · exact (unscanned_bury _ _ _ _).trans
      ((unscanned_setDestination _ _).trans (unscanned_setDestination _ _))

/-- Slots there were before an object was buried are untouched. -/
theorem Progress.untouched_buried (ready : pass.Ready) (progress : pass.Progress trail now)
    {final : Regions δ} (buried : pass.Buried now object final) {space : Space} {offset : Nat}
    {value : Value} (holds : pass.Holds trail space offset value)
    : final.cell space offset = now.cell space offset := by
  have cursor := progress.cursor
  rcases progress.place_of_holds ready holds with ⟨rfl, -, below⟩ | stays
  · exact buried.others _ _ ready.not_moves_space fun _ => below
  · refine buried.others _ _ (ready.not_moves_of_stays stays) ?_
    rintro rfl
    have below := ready.lt_base_of_stays stays
    omega

/-- Objects that were met lie apart, so a tombstone touches the object it buries and no other. -/
theorem Buried.field_ne (ready : pass.Ready) (valid : object.Decodes)
    (traced : pass.Traced object.toValue) {final : Regions δ} (buried : pass.Buried now object final)
    {other : Address} (valid' : other.Decodes) (traced' : pass.Traced other.toValue)
    (moves : pass.moves other.space) (differs : other ≠ object) {index : Nat}
    (inside : index < pass.size other)
    : final.field other index = now.field other index := by
  refine buried.sources _ _ moves fun same => ?_
  have separate := ready.separate other object valid' valid traced' traced same moves differs
  have large : 2 ≤ pass.size object :=
    pass.layout.two_le_size (ready.object object valid traced (same ▸ moves)).1
  omega

/-- Burying an object that has not moved is a step of tracing. -/
theorem Progress.bury (ready : pass.Ready) (progress : pass.Progress trail now)
    (valid : object.Decodes) (traced : pass.Traced object.toValue)
    (moves : pass.moves object.space) (fresh : object ∉ trail.moved) {final : Regions δ}
    (buried : pass.Buried now object final) (evolves : now.Evolves final)
    : pass.Progress { trail with moved := trail.moved ++ [object] } final := by
  have grows : trail.Grows { trail with moved := trail.moved ++ [object] } :=
    ⟨List.prefix_append _ _, fun _ => id⟩
  have place : pass.copyOffset { trail with moved := trail.moved ++ [object] } object
      = now.destination.cursor := by
    rw [copyOffset, progress.cursor, offsetIn_append_cons fresh]
  refine {
    evolves := progress.evolves.trans evolves
    cursor := ?_
    nodup := progress.nodup_snoc fresh
    met := progress.met_snoc valid traced moves
    buried := ?_
    intact := ?_
    slots := ?_
    copies := ?_
    stays := ?_
    unused := ?_
    marks := ?_
    reached := progress.reached
    waiting := ?_ }
  · rw [buried.cursor, progress.cursor, extent_append, Nat.add_assoc]
    simp [extent]
  · intro other member
    rcases List.mem_append.mp member with moved | only
    · obtain ⟨valid', traced', moves'⟩ := progress.met other moved
      have differs : other ≠ object := by
        rintro rfl
        exact fresh moved
      have two : 2 ≤ pass.size other :=
        pass.layout.two_le_size (ready.object other valid' traced' moves').1
      have kept : ∀ index < pass.size other, final.field other index = now.field other index :=
        fun _ => buried.field_ne ready valid traced valid' traced' moves' differs
      rw [kept 0 (by omega), kept 1 (by omega), copyOf, copyOffset_grows grows moved]
      exact progress.buried other moved
    · rw [List.mem_singleton.mp only, copyOf, place]
      exact ⟨buried.first, buried.second⟩
  · intro other valid' traced' moves' unmoved index inside
    rw [List.mem_append, not_or, List.mem_singleton] at unmoved
    rw [buried.field_ne ready valid traced valid' traced' moves' unmoved.2 inside]
    exact progress.intact other valid' traced' moves' unmoved.1 index inside
  · intro space offset value holds
    have earlier : pass.Holds trail space offset value →
        pass.Carried { trail with moved := trail.moved ++ [object] } value
          (final.cell space offset) := by
      intro before
      rw [progress.untouched_buried ready buried before]
      exact (progress.slots space offset value before).grows grows
    cases holds with
    | @copied other index member slot =>
        rcases List.mem_append.mp member with moved | only
        · rw [copyOffset_grows grows moved] at earlier ⊢
          exact earlier (.copied moved slot)
        · rw [List.mem_singleton.mp only] at slot ⊢
          rw [place, buried.copy index (ready.slot_lt valid traced moves slot)]
          exact Or.inl rfl
    | stayed handled => exact earlier (.stayed handled)
  · intro other member index inside plain
    rcases List.mem_append.mp member with moved | only
    · have bound := progress.copy_le moved
      rw [copyOffset_grows grows moved, buried.others _ _ ready.not_moves_space
        fun _ => by omega]
      exact progress.copies other moved index inside plain
    · rw [List.mem_singleton.mp only] at inside ⊢
      rw [place, buried.copy index inside]
  · intro space offset stays plain
    rw [buried.others _ _ (ready.not_moves_of_stays stays), progress.stays space offset stays plain]
    rintro rfl
    have below := ready.lt_base_of_stays stays
    have cursor := progress.cursor
    omega
  · intro offset behind
    rw [buried.sources _ _ (moves_iff.mpr (Or.inl rfl)), progress.unused offset behind]
    intro birth
    have bound := (ready.object object valid traced moves).2
    rw [Regions.limit, if_pos birth.symm] at bound
    have large : 2 ≤ pass.size object :=
      pass.layout.two_le_size (ready.object object valid traced moves).1
    omega
  · rw [buried.fixed]
    exact progress.marks
  · rw [buried.unscanned]
    exact progress.waiting

end Relocated

/-- The view that an object is copied out of begins with the words that the object had. -/
theorem Progress.field_window (ready : pass.Ready) {now : Regions δ}
    (progress : pass.Progress trail now) {object : Address} (valid : object.Decodes)
    (traced : pass.Traced object.toValue) (moves : pass.moves object.space)
    (fresh : object ∉ trail.moved) {index : Nat} (inside : index < pass.size object)
    : Window.field ((now.origin (object.space == .birth)).1.window object.offset
          ((now.origin (object.space == .birth)).2 - object.offset)) index
      = pass.before.field object index := by
  obtain ⟨cells, limit⟩ := progress.origin_eq ready moves
  have bound := (ready.object object valid traced moves).2
  have reach : index < (now.origin (object.space == .birth)).2 - object.offset := by omega
  rw [Window.field, Arena.get?_window _ _ _ reach, Option.getD_some, cells]
  exact progress.intact object valid traced moves fresh index inside

/-- What is copied of an object is the object. -/
theorem Progress.copies_window (ready : pass.Ready) {now : Regions δ}
    (progress : pass.Progress trail now) {object : Address} (valid : object.Decodes)
    (traced : pass.Traced object.toValue) (moves : pass.moves object.space)
    (fresh : object ∉ trail.moved)
    : pass.Copies object
        (((now.origin (object.space == .birth)).1.window object.offset
          ((now.origin (object.space == .birth)).2 - object.offset)).take (pass.size object)) := by
  obtain ⟨cells, limit⟩ := progress.origin_eq ready moves
  have bound := (ready.object object valid traced moves).2
  rw [Arena.take_window _ _ (by omega)]
  refine ⟨Arena.length_words _ _ _, fun index inside => ?_⟩
  rw [Arena.getElem_words, cells]
  rw [Arena.length_words] at inside
  exact progress.intact object valid traced moves fresh index inside

/-- A copy of an object is admitted where there is room for it. -/
theorem Copies.admitted (ready : pass.Ready) {object : Address} {written : List Word}
    (copies : pass.Copies object written) {destination : Semispace} (valid : object.Decodes)
    (traced : pass.Traced object.toValue) (moves : pass.moves object.space)
    (room : destination.cursor + pass.size object ≤ destination.words.size)
    : ∃ extended,
        Regions.admit? (destination.fillTail written) (pass.size object) = some extended := by
  have isObject := (ready.object object valid traced moves).1
  have large : 2 ≤ pass.size object := pass.layout.two_le_size isObject
  have nonzero := pass.layout.first_ne_zero isObject
  have fits : written.length ≤ destination.free := by
    rw [copies.length, Semispace.free, Semispace.capacity]
    omega
  have first : (destination.fillTail written).words.get (destination.fillTail written).cursor
      = pass.before.field object 0 := by
    have begins : 0 < written.length := by
      rw [copies.length]
      omega
    have filled := Semispace.get_fillTail_filled destination fits begins
    rw [copies.word] at filled
    exact filled
  have inside : (destination.fillTail written).cursor + pass.size object
      ≤ (destination.fillTail written).capacity := by
    rw [Semispace.capacity_fillTail]
    exact room
  obtain ⟨extended, bumped⟩ : ∃ extended,
      (destination.fillTail written).bump? (pass.size object) = some extended :=
    ⟨_, if_pos inside⟩
  refine ⟨extended, ?_⟩
  rw [Regions.admit?, if_pos ⟨large, by rw [first]; exact nonzero⟩, bumped]

/-- A reference to an object that was moved is settled. -/
theorem Ready.settled_moved (ready : pass.Ready) {object : Address} (valid : object.Decodes)
    (moves : pass.moves object.space) (moved : object ∈ trail.moved)
    : pass.Settled trail object.toValue := by
  intro other target
  rw [Value.address?_toValue valid, Option.some.injEq] at target
  subst target
  refine ⟨fun _ => moved, fun _ fixed => ?_⟩
  rw [fixed, ready.not_moves_fixed] at moves
  cases moves

/-- The view that an object is copied out of begins with the object, and there is room for a copy. -/
theorem Progress.source_window (ready : pass.Ready) {now : Regions δ}
    (progress : pass.Progress trail now) {object : Address} (valid : object.Decodes)
    (traced : pass.Traced object.toValue) (moves : pass.moves object.space)
    (fresh : object ∉ trail.moved)
    : let source := (now.origin (object.space == .birth)).1.window object.offset
        ((now.origin (object.space == .birth)).2 - object.offset)
      pass.layout.IsObject source.field
      ∧ pass.layout.size source.field = pass.size object
      ∧ pass.size object ≤ source.length
      ∧ pass.size object ≤ now.destination.tail.length := by
  intro source
  have isObject := (ready.object object valid traced moves).1
  have large : 2 ≤ pass.size object := pass.layout.two_le_size isObject
  have room := progress.room ready valid traced moves fresh
  obtain ⟨-, limit⟩ := progress.origin_eq ready moves
  have bound := (ready.object object valid traced moves).2
  have reads := fun index (inside : index < pass.size object) =>
    progress.field_window ready valid traced moves fresh inside
  obtain ⟨sameObject, sameSize, -⟩ := pass.layout.agree isObject
    (fun index inside _ => reads index inside)
    (by rw [reads 0 (by omega)]; exact pass.layout.first_ne_zero isObject)
  have length : source.length = pass.before.limit object.space - object.offset := by
    rw [← limit]
    rfl
  refine ⟨sameObject, sameSize, by omega, ?_⟩
  simp only [Semispace.tail, Arena.window, Semispace.free, Semispace.capacity]
  omega

/-- An object that has not moved is copied behind the others. -/
theorem relocate_traced (ready : pass.Ready) (moment : pass.Moment kept trail site)
    {host : Host σ δ} (faithful : host.Traces pass.contract) {object : Address}
    (valid : object.Decodes) (traced : pass.Traced object.toValue)
    (moves : pass.moves object.space) (fresh : object ∉ trail.moved)
    : Ends (Collector.relocate host object (object.space == .birth)) site fun result final =>
        ∃ later,
          pass.Meets kept trail site.regions object.toValue later final
          ∧ result = pass.copyOf later object := by
  have progress := moment.progress
  have room := progress.room ready valid traced moves fresh
  have copies := progress.copies_window ready valid traced moves fresh
  obtain ⟨isObject, size, long, free⟩ := progress.source_window ready valid traced moves fresh
  generalize window : (site.regions.origin (object.space == .birth)).1.window object.offset
    ((site.regions.origin (object.space == .birth)).2 - object.offset) = source at *
  obtain ⟨answer, upholds, roots⟩ := faithful.copy site.regions.destination.tail source site.host
    moment.upholds isObject (size.trans_le long) (size.trans_le free)
  rw [size] at answer
  obtain ⟨extended, admitted⟩ := copies.admitted ready valid traced moves room
  simp only [Collector.relocate, runs_bind, runs_get, Site.runs_accept, Site.runs_modifyRegions,
    window, answer, admitted, Site.runs_require_some, runs_pure]
  have buried := progress.buried_relocated ready moves copies room admitted
  have evolves := Collector.evolves_relocated admitted object (object.space == .birth)
  refine ⟨{ trail with moved := trail.moved ++ [object] },
    ⟨⟨⟨List.prefix_append _ _, fun _ => id⟩, ⟨?_, upholds, roots.trans moment.roots⟩, ?_, ?_⟩,
      ready.settled_moved valid moves (List.mem_append_right _ (List.mem_singleton_self object)), ?_⟩,
    ?_⟩
  · exact progress.bury ready valid traced moves fresh buried evolves
  · exact fun space offset value holds => progress.untouched_buried ready buried holds
  · intro begin marked
    refine ((Extends.refl moment).waiting begin marked).imp_left fun waits => ?_
    exact (congrArg (begin ∈ ·) buried.unscanned).mpr waits
  · have waiting := buried.unscanned
    simp only [Collector.relocated] at waiting
    simp [meet, Regions.meet, Value.address?_toValue valid, fresh, Trail.tour,
      show pass.before.moves pass.full object.space from moves, waiting]
  · rw [copyOf, copyOffset, offsetIn_append_cons fresh, ← progress.cursor,
      ← progress.destinationSpace]
    rfl

/-- The copy of an object that was met is found or made. -/
theorem evacuate_traced (ready : pass.Ready) (moment : pass.Moment kept trail site)
    {host : Host σ δ} (faithful : host.Traces pass.contract) {object : Address}
    (valid : object.Decodes) (traced : pass.Traced object.toValue)
    (moves : pass.moves object.space)
    : Ends (Collector.evacuate host object (object.space == .birth)) site fun result final =>
        ∃ later,
          pass.Meets kept trail site.regions object.toValue later final
          ∧ result = pass.copyOf later object := by
  have progress := moment.progress
  obtain ⟨isObject, bound⟩ := ready.object object valid traced moves
  have large : 2 ≤ pass.size object := pass.layout.two_le_size isObject
  obtain ⟨cells, limit⟩ := progress.origin_eq ready moves
  simp only [Collector.evacuate, runs_bind, runs_get, limit]
  rw [if_neg (by omega)]
  have reads : ∀ index, (site.regions.origin (object.space == .birth)).1.get
      (object.offset + index) = site.regions.field object index := fun index => cells _
  have first := reads 0
  rw [Nat.add_zero] at first
  rw [first, reads 1]
  by_cases moved : object ∈ trail.moved
  · obtain ⟨zero, forwarded⟩ := progress.buried object moved
    rw [if_pos zero, forwarded, show Address.ofRaw? (pass.copyOf trail object).raw
      = some (pass.copyOf trail object) from (progress.copyOf_eq ready moved).1]
    exact ⟨trail, Meets.refl moment (ready.settled_moved valid moves moved), rfl⟩
  · have nonzero := pass.layout.first_ne_zero isObject
    rw [if_neg (by rwa [progress.intact object valid traced moves moved 0 (by omega)])]
    exact relocate_traced ready moment faithful valid traced moves moved

/-- A reference to an object that moves is settled by copying the object. -/
theorem forward_moving (ready : pass.Ready) (moment : pass.Moment kept trail site)
    {host : Host σ δ} (faithful : host.Traces pass.contract) {value : Value} {addr : Address}
    (traced : pass.Traced value) (found : value.address? = some addr)
    (moves : pass.moves addr.space)
    : Ends (Collector.forward host value) site fun result final =>
        ∃ later,
          pass.Meets kept trail site.regions value later final
          ∧ result = pass.relocated later value := by
  have valid := Value.decodes_of_address? found
  have same := Value.toValue_of_address? found
  rw [← same] at traced
  have evacuates : ∀ young, (addr.space == .birth) = young →
      Ends (Collector.evacuate host addr young) site fun result final =>
        ∃ later, pass.Meets kept trail site.regions value later final
          ∧ result.toValue = pass.relocated later value := by
    rintro young rfl
    refine (evacuate_traced ready moment faithful valid traced moves).mono ?_
    rintro result final ⟨later, meets, rfl⟩
    rw [same] at meets
    exact ⟨later, meets, (relocated_of_moves found moves).symm⟩
  simp only [Collector.forward, found, runs_bind, runs_get]
  split
  next birth =>
    rw [runs_map]
    exact evacuates true (by simp [birth])
  next fixed =>
    rw [fixed, ready.not_moves_fixed] at moves
    cases moves
  next young notFixed =>
    have later : (addr.space == Space.birth) = false := by simpa using young
    rcases moves_iff.mp moves with birth | both
    · exact absurd birth young
    · rw [moment.isFull, moment.progress.evolves.oldSpace, if_pos both, runs_map]
      exact evacuates false later

/-- Forwarding a value that was met settles it. -/
theorem forward_traced (ready : pass.Ready) (moment : pass.Moment kept trail site)
    {host : Host σ δ} (faithful : host.Traces pass.contract) {value : Value}
    (traced : pass.Traced value)
    : Ends (Collector.forward host value) site fun result final =>
        ∃ later,
          pass.Meets kept trail site.regions value later final
          ∧ result = pass.relocated later value := by
  have rests : pass.Still trail value →
      Ends (Collector.forward host value) site fun result final =>
        ∃ later, pass.Meets kept trail site.regions value later final
          ∧ result = pass.relocated later value := by
    intro still
    refine (forward_still ready moment host still).mono ?_
    rintro result final ⟨rfl, rfl⟩
    exact ⟨trail, Meets.refl moment still.settled.1, still.settled.2.symm⟩
  cases found : value.address? with
  | none =>
      refine rests fun addr target => ?_
      rw [found] at target
      cases target
  | some addr =>
      by_cases moves : pass.moves addr.space
      · exact forward_moving ready moment faithful traced found moves
      · have valid := Value.decodes_of_address? found
        have same := Value.toValue_of_address? found
        by_cases full : pass.full
        · rw [← same] at traced
          have known := ready.known full addr valid traced
          split_ifs at known with fixed
          · have marks := markFixed_traced ready moment full valid traced fixed
            rw [same] at marks
            simp only [Collector.forward, found, runs_bind, runs_get, fixed, moment.isFull, full,
              if_true]
            exact marks
          · exact absurd known moves
        · refine rests fun other target => ?_
          rw [found, Option.some.injEq] at target
          subst target
          exact ⟨by simpa using moves, fun isFull => absurd isFull full⟩

/-- Forwarding a word that was carried over leads to what the value became. -/
theorem forward_carried (ready : pass.Ready) (moment : pass.Moment kept trail site)
    {host : Host σ δ} (faithful : host.Traces pass.contract) {value : Value} {word : Word}
    (traced : pass.Traced value) (carried : pass.Carried trail value word)
    : Ends (Collector.forward host ⟨word⟩) site fun result final =>
        ∃ later,
          pass.Meets kept trail site.regions value later final
          ∧ result = pass.relocated later value := by
  rcases moment.progress.still_of_carried ready traced carried with rfl | ⟨settled, became, still⟩
  · exact forward_traced ready moment faithful traced
  · refine (forward_still ready moment host still).mono ?_
    rintro result final ⟨rfl, rfl⟩
    exact ⟨trail, Meets.refl moment settled, became⟩

end Pass

end MovingHeap
