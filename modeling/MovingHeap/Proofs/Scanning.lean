import MovingHeap.Proofs.Relocation

/-! Scanning one object while a collection traces.
A visit of the host handles the slots of the object it was asked to scan; each slot it handles holds
what its reference became, and goes on to do so.
-/

namespace MovingHeap

variable {σ δ α : Type}

namespace Pass

/-- Tracing came on from one moment to another, and slots that were forwarded still are. -/
structure Onward (pass : Pass σ δ) (kept : List Value) (trail : Trail) (now : Regions δ)
    (later : Trail) (final : Site σ δ)
    : Prop where
  grows : trail.Grows later
  moment : pass.Moment kept later final
  forwarded
    : ∀ space offset value,
        pass.Holds trail space offset value →
        pass.Forwarded trail value (now.cell space offset) →
        pass.Forwarded later value (final.regions.cell space offset)

/-- Tracing came on by visits, which take no fixed object off the list of those to scan: one that is
marked waits to be scanned, or had been marked before and did not wait.
-/
structure Visits (pass : Pass σ δ) (kept : List Value) (trail : Trail) (now : Regions δ)
    (later : Trail) (final : Site σ δ)
    : Prop extends pass.Onward kept trail now later final where
  waiting
    : ∀ begin ∈ later.marked,
        begin ∈ final.regions.unscanned ∨ begin ∈ trail.marked ∧ begin ∉ now.unscanned

variable {pass : Pass σ δ} {kept : List Value} {trail : Trail} {site : Site σ δ}

/-- Nothing happening is coming on. -/
theorem Onward.refl (moment : pass.Moment kept trail site)
    : pass.Onward kept trail site.regions trail site :=
  ⟨.refl trail, moment, fun _ _ _ _ => id⟩

/-- Coming on in two steps is coming on. -/
theorem Onward.trans {kept' : List Value} {now : Regions δ} {middle later : Trail}
    {between final : Site σ δ} (first : pass.Onward kept trail now middle between)
    (second : pass.Onward kept' middle between.regions later final)
    : pass.Onward kept' trail now later final where
  grows := first.grows.trans second.grows
  moment := second.moment
  forwarded space offset value holds forwarded :=
    second.forwarded space offset value (holds.grows first.grows)
      (first.forwarded space offset value holds forwarded)

/-- Visits in two steps are visits. -/
theorem Visits.trans {kept' : List Value} {now : Regions δ} {middle later : Trail}
    {between final : Site σ δ} (first : pass.Visits kept trail now middle between)
    (second : pass.Visits kept' middle between.regions later final)
    : pass.Visits kept' trail now later final where
  toOnward := first.toOnward.trans second.toOnward
  waiting begin marked := by
    rcases second.waiting begin marked with waits | ⟨earlier, gone⟩
    · exact Or.inl waits
    · exact Or.inr ((first.waiting begin earlier).resolve_left gone)

/-- Where no slot changes, those that were forwarded still are. -/
theorem Extends.visits {later : Trail} {final : Site σ δ}
    (extension : pass.Extends kept trail site.regions later final)
    : pass.Visits kept trail site.regions later final where
  grows := extension.grows
  moment := extension.moment
  waiting := extension.waiting
  forwarded space offset value holds forwarded := by
    rw [extension.untouched space offset value holds]
    exact forwarded.grows extension.grows

-----------------------------------------------------------------------------------------
-- Visiting one slot
-----------------------------------------------------------------------------------------

/-- A slot of a copy is none of its other words, nor is a slot of an object that stays. -/
theorem Progress.holds_ne (ready : pass.Ready) {now : Regions δ}
    (progress : pass.Progress trail now) {object : Address} {index : Nat} {value : Value}
    (moved : object ∈ trail.moved) (inside : index < pass.size object)
    (plain : ¬ pass.layout.IsSlot (pass.before.field object) index)
    : ¬ pass.Holds trail pass.space (pass.copyOffset trail object + index) value := by
  intro holds
  generalize there : pass.copyOffset trail object + index = offset at holds
  generalize where' : pass.space = space at holds
  cases holds with
  | @copied other index' moved' slot =>
      obtain ⟨valid, met, moves⟩ := progress.met _ moved'
      have inside' := ready.slot_lt valid met moves slot
      simp only [copyOffset] at there
      obtain ⟨rfl, rfl⟩ := offsetIn_inj moved moved' inside inside' (by omega)
      exact plain slot
  | stayed handled =>
      subst where'
      have below := ready.lt_base_of_stays (ready.handled _ _ handled).2
      simp only [copyOffset] at there
      omega

/-- A slot is no cell of an object that stays unless it is handled. -/
theorem Ready.handles_of_holds (ready : pass.Ready) {space : Space} {offset : Nat} {value : Value}
    (stays : pass.Stays space offset) (holds : pass.Holds trail space offset value)
    : pass.handles space offset := by
  cases holds with
  | copied moved slot =>
      have below := ready.lt_base_of_stays stays
      simp only [copyOffset] at below
      omega
  | stayed handled => exact handled

/-- Writing what a value became to its slot is a step of tracing. -/
theorem Progress.write (ready : pass.Ready) {now next : Regions δ}
    (progress : pass.Progress trail now) {slot : Address} {value : Value}
    (holds : pass.Holds trail slot.space slot.offset value)
    (settled : pass.Settled trail value)
    (done : now.setWord? slot (pass.relocated trail value).raw = some next)
    : pass.Progress trail next := by
  have cells := Regions.cell_setWord? done
  obtain ⟨-, slots, unscanned, cursor⟩ := Collector.frame_setWord? done
  have rests := progress.not_moves_of_holds ready holds
  have sources : ∀ object : Address, pass.moves object.space → ∀ index,
      next.field object index = now.field object index := by
    intro object moves index
    rw [Regions.field, cells, if_neg]
    · rfl
    · rintro ⟨same, -⟩
      rw [same, rests] at moves
      cases moves
  refine {
    evolves := progress.evolves.trans (Regions.Evolves.setWord? done)
    cursor := cursor.trans progress.cursor
    nodup := progress.nodup
    met := progress.met
    buried := ?_
    intact := ?_
    slots := ?_
    copies := ?_
    stays := ?_
    unused := ?_
    marks := ?_
    reached := progress.reached
    waiting := by rw [unscanned]; exact progress.waiting }
  · intro object moved
    obtain ⟨-, -, moves⟩ := progress.met object moved
    rw [sources object moves, sources object moves]
    exact progress.buried object moved
  · intro object valid traced moves unmoved index inside
    rw [sources object moves]
    exact progress.intact object valid traced moves unmoved index inside
  · intro space offset other there
    rw [cells]
    split_ifs with here
    · rw [here.1, here.2] at there
      rw [progress.holds_unique ready there holds]
      exact Or.inr ⟨settled, rfl⟩
    · exact progress.slots space offset other there
  · intro object moved index inside plain
    rw [cells, if_neg]
    · exact progress.copies object moved index inside plain
    · rintro ⟨space, offset⟩
      rw [← space, ← offset] at holds
      exact progress.holds_ne ready moved inside plain holds
  · intro space offset stays plain
    rw [cells, if_neg]
    · exact progress.stays space offset stays plain
    · rintro ⟨rfl, rfl⟩
      exact plain (ready.handles_of_holds stays holds)
  · intro offset behind
    rw [cells, if_neg]
    · exact progress.unused offset behind
    · rintro ⟨birth, -⟩
      rw [← birth, moves_iff.mpr (Or.inl rfl)] at rests
      cases rests
  · intro begin occupant found
    refine progress.marks begin occupant ?_
    simpa only [FixedSpace.occupant?, FixedSpace.slot?, slots] using found

/-- Visiting a slot forwards its reference. -/
theorem visitSlot_holds (ready : pass.Ready) (moment : pass.Moment kept trail site)
    {host : Host σ δ} (faithful : host.Traces pass.contract) {slot : Address} {value : Value}
    (holds : pass.Holds trail slot.space slot.offset value)
    : Ends (Collector.visitSlot host slot) site fun _ final =>
        ∃ later,
          pass.Visits kept trail site.regions later final
          ∧ pass.Forwarded later value (final.regions.cell slot.space slot.offset)
          ∧ later.tour final.regions = pass.meet (trail.tour site.regions) value := by
  have progress := moment.progress
  have readable := progress.readable_of_holds ready holds
  have carried := progress.slots _ _ _ holds
  have traced := progress.traced_of_holds ready holds
  simp only [Collector.visitSlot, Collector.loadWord, runs_bind, runs_get,
    Regions.word?_eq readable, Site.runs_require_some]
  refine (forward_carried ready moment faithful traced carried).mono ?_
  rintro result middle ⟨later, meets, rfl⟩
  have onward := meets.visits
  have settled := meets.settled
  have held := holds.grows meets.grows
  split_ifs with changes
  · obtain ⟨next, done⟩ := Regions.exists_setWord? (pass.relocated later value).raw
      (onward.moment.progress.writable_of_holds ready held)
    simp only [runs_bind, runs_get, done, Site.runs_require_some, Site.runs_modifyRegions]
    have cells := Regions.cell_setWord? done
    obtain ⟨-, -, unscanned, -⟩ := Collector.frame_setWord? done
    refine ⟨later, onward.trans ⟨⟨.refl later, ⟨?_, onward.moment.upholds, onward.moment.roots⟩,
      ?_⟩, ?_⟩, ⟨settled, ?_⟩, ?_⟩
    · exact onward.moment.progress.write ready held settled done
    · intro space offset other there forwarded
      rw [cells]
      split_ifs with here
      · rw [here.1, here.2] at there
        rw [onward.moment.progress.holds_unique ready there held]
        exact ⟨settled, rfl⟩
      · exact forwarded
    · intro begin marked
      rw [unscanned]
      exact (Extends.refl onward.moment).waiting begin marked
    · rw [cells, if_pos ⟨rfl, rfl⟩]
    · rw [← meets.tour, Trail.tour, unscanned]
      rfl
  · refine runs_pure.mpr ⟨later, onward, ⟨settled, ?_⟩, meets.tour⟩
    rw [meets.untouched _ _ _ holds]
    exact (congrArg Value.raw (not_not.mp changes)).symm

-----------------------------------------------------------------------------------------
-- Visits to one object
-----------------------------------------------------------------------------------------

/-- The item that a host is asked to scan lies at an offset of a space: its slots are slots of the
collection that held the given words, and its other words can be read and do not change.
-/
structure Views (pass : Pass σ δ) (trail : Trail) (item : Item) (space : Space) (offset : Nat)
    (original : Nat → Word)
    : Prop where
  place : ∀ index ≤ item.size, item.object.add index = .pack space (offset + index)
  small : offset + item.size ≤ maxOffsetWords
  positive : 0 < item.size
  slot_lt : ∀ index, item.IsSlot index → index < item.size
  slots
    : ∀ index, item.IsSlot index → pass.Holds trail space (offset + index) ⟨original index⟩
  others
    : ∀ index < item.size,
        ¬ item.IsSlot index →
        ∀ later now,
          trail.Grows later →
          pass.Progress later now →
          now.Readable space (offset + index)
            ∧ now.cell space (offset + index) = item.word index

section Views

variable {item : Item} {space : Space} {offset : Nat} {original : Nat → Word}

/-- What is scanned stays so as tracing comes on. -/
theorem Views.grows (views : pass.Views trail item space offset original) {later : Trail}
    (grows : trail.Grows later)
    : pass.Views later item space offset original where
  place := views.place
  small := views.small
  positive := views.positive
  slot_lt := views.slot_lt
  slots index slot := (views.slots index slot).grows grows
  others index inside plain further now growth :=
    views.others index inside plain further now (grows.trans growth)

/-- The words of what is scanned are told by addresses. -/
theorem Views.located (views : pass.Views trail item space offset original) {index : Nat}
    (inside : index ≤ item.size)
    : (item.object.add index).space = space ∧ (item.object.add index).offset = offset + index := by
  have bound := views.small
  rw [views.place index inside]
  exact ⟨Address.space_pack _ (by omega), Address.offset_pack _ (by omega)⟩

/-- Every word of what is scanned can be read. -/
theorem Views.readable (ready : pass.Ready)
    (views : pass.Views trail item space offset original) {now : Regions δ}
    (progress : pass.Progress trail now) {index : Nat} (inside : index < item.size)
    : now.Readable space (offset + index) := by
  by_cases slot : item.IsSlot index
  · exact progress.readable_of_holds ready (views.slots index slot)
  · exact (views.others index inside slot trail now (.refl trail) progress).1

/-- The words that are no slots are what they were. -/
theorem Views.word (views : pass.Views trail item space offset original) {now : Regions δ}
    (progress : pass.Progress trail now) {index : Nat} (inside : index < item.size)
    (plain : ¬ item.IsSlot index)
    : now.cell space (offset + index) = item.word index :=
  (views.others index inside plain trail now (.refl trail) progress).2

/-- Reading a word of what is scanned. -/
theorem Views.word?_eq (ready : pass.Ready)
    (views : pass.Views trail item space offset original) {now : Regions δ}
    (progress : pass.Progress trail now) {index : Nat} (inside : index < item.size)
    : now.word? (item.object.add index) = some (now.cell space (offset + index)) := by
  obtain ⟨inSpace, atOffset⟩ := views.located (Nat.le_of_lt inside)
  rw [Regions.word?_eq] <;> rw [inSpace, atOffset]
  exact views.readable ready progress inside

/-- Consecutive words of what is scanned end where it does, or before, and it can be read so far. -/
theorem Views.reaches (ready : pass.Ready)
    (views : pass.Views trail item space offset original) {now : Regions δ}
    (progress : pass.Progress trail now) {first count : Nat} (inside : first + count ≤ item.size)
    : now.Readable (item.object.add first).space (offset + (item.size - 1))
      ∧ (item.object.add first).offset + count ≤ offset + (item.size - 1) + 1 := by
  have positive := views.positive
  obtain ⟨inSpace, atOffset⟩ := views.located (show first ≤ item.size by omega)
  rw [inSpace, atOffset]
  exact ⟨views.readable ready progress (by omega), by omega⟩

/-- Reading consecutive words of what is scanned. -/
theorem Views.slice?_eq (ready : pass.Ready)
    (views : pass.Views trail item space offset original) {now : Regions δ}
    (progress : pass.Progress trail now) {first count : Nat} (inside : first + count ≤ item.size)
    : ∃ list : List Word,
        now.slice? (item.object.add first) count = some list
        ∧ list.length = count
        ∧ ∀ index (within : index < list.length),
            list[index] = now.cell space (offset + (first + index)) := by
  obtain ⟨inSpace, atOffset⟩ := views.located (show first ≤ item.size by omega)
  obtain ⟨reaches, within⟩ := views.reaches ready progress inside
  obtain ⟨list, read, length, fields⟩ := Regions.slice?_eq reaches within
  refine ⟨list, read, length, fun index within => ?_⟩
  rw [fields index within, Regions.field, inSpace, atOffset, Nat.add_assoc]

/-- Visiting a slot of what is scanned. -/
theorem Views.visitSlot (ready : pass.Ready)
    (views : pass.Views trail item space offset original)
    (moment : pass.Moment kept trail site) {host : Host σ δ}
    (faithful : host.Traces pass.contract) {index : Nat} (slot : item.IsSlot index)
    : Ends (Collector.visitSlot host (item.object.add index)) site fun _ final =>
        ∃ later,
          pass.Visits kept trail site.regions later final
          ∧ pass.Forwarded later ⟨original index⟩ (final.regions.cell space (offset + index))
          ∧ later.tour final.regions
            = pass.meet (trail.tour site.regions) ⟨original index⟩ := by
  obtain ⟨inSpace, atOffset⟩ := views.located (Nat.le_of_lt (views.slot_lt index slot))
  have holds : pass.Holds trail (item.object.add index).space (item.object.add index).offset
      ⟨original index⟩ := by
    rw [inSpace, atOffset]
    exact views.slots index slot
  have visits := visitSlot_holds ready moment faithful holds
  rwa [inSpace, atOffset] at visits

/-- The slots that a visit has handled are forwarded. -/
def Handled (pass : Pass σ δ) (trail : Trail) (now : Regions δ) (item : Item) (space : Space)
    (offset : Nat) (original : Nat → Word) (handled : Nat → Prop)
    : Prop :=
  ∀ index, item.IsSlot index → handled index →
    pass.Forwarded trail ⟨original index⟩ (now.cell space (offset + index))

/-- A slot that is read to hold no reference is forwarded. -/
theorem Views.forwarded_of_plain (views : pass.Views trail item space offset original)
    {now : Regions δ} (progress : pass.Progress trail now) {index : Nat}
    (slot : item.IsSlot index)
    (plain : (Value.mk (now.cell space (offset + index))).address? = none)
    : pass.Forwarded trail ⟨original index⟩ (now.cell space (offset + index)) :=
  (progress.slots _ _ _ (views.slots index slot)).forwarded_of_plain plain

/-- A faithful visit runs to its end and leaves every slot forwarded, by induction over its steps. -/
theorem runVisit_scans (ready : pass.Ready) {host : Host σ δ}
    (faithful : host.Traces pass.contract) (phase : Phase) {accepted : α → Prop}
    {program : Visit σ α} {handled : Nat → Prop}
    (scans : program.Scans pass.contract kept pass.full item accepted handled)
    (views : pass.Views trail item space offset original)
    (moment : pass.Moment kept trail site)
    (done : pass.Handled trail site.regions item space offset original handled)
    : Ends (Collector.runVisit host phase program) site fun result final =>
        ∃ later,
          pass.Visits kept trail site.regions later final
          ∧ accepted result
          ∧ pass.Handled later final.regions item space offset original fun _ => True := by
  induction program generalizing trail site handled with
  | done result =>
      obtain ⟨accept, all⟩ := scans
      exact runs_pure.mpr ⟨trail, (Extends.refl moment).visits, accept, fun index slot _ =>
        done index slot (all index slot)⟩
  | getHost next ih =>
      exact ih site.host (scans site.host moment.upholds moment.roots) views moment done
  | setHost state next ih =>
      obtain ⟨upholds, roots, rest⟩ := scans
      have set : pass.Moment kept trail { site with host := state } :=
        ⟨moment.progress, upholds, roots⟩
      exact ih rest views set done
  | note line next ih =>
      have logged : pass.Moment kept trail { site with log := .note line :: site.log } :=
        ⟨moment.progress, moment.upholds, moment.roots⟩
      exact ih scans views logged done
  | isFull next ih =>
      refine ih site.regions.isFull ?_ views moment done
      rw [moment.isFull]
      exact scans
  | load addr next ih =>
      obtain ⟨index, inside, rfl, rest⟩ := scans
      have progress := moment.progress
      simp only [Collector.runVisit, Collector.loadWord, runs_bind, runs_get,
        views.word?_eq ready progress inside, Site.runs_require_some]
      refine ih _ (rest _ (views.word progress inside)) views moment ?_
      rintro other isSlot (earlier | ⟨rfl, plain⟩)
      · exact done other isSlot earlier
      · exact views.forwarded_of_plain progress isSlot plain
  | words addr count next ih =>
      obtain ⟨first, rfl, inside, rest⟩ := scans
      have progress := moment.progress
      obtain ⟨list, read, length, cells⟩ := views.slice?_eq ready progress inside
      simp only [Collector.runVisit, runs_bind, runs_get, read, Site.runs_require_some]
      refine ih _ (rest list length fun index within plain => ?_) views moment ?_
      · rw [cells index within]
        exact views.word progress (by omega) plain
      · rintro other isSlot (earlier | ⟨index, word, rfl, found, plain⟩)
        · exact done other isSlot earlier
        · obtain ⟨within, same⟩ := List.getElem?_eq_some_iff.mp found
          rw [← same, cells index within] at plain
          exact views.forwarded_of_plain progress isSlot plain
  | visitSlot slot next ih =>
      obtain ⟨index, isSlot, rfl, rest⟩ := scans
      simp only [Collector.runVisit, runs_bind]
      refine (views.visitSlot ready moment faithful isSlot).mono ?_
      rintro _ middle ⟨later, onward, forwarded, -⟩
      refine (ih rest (views.grows onward.grows) onward.moment ?_).mono ?_
      · rintro other isSlot' (earlier | rfl)
        · exact onward.forwarded _ _ _ (views.slots other isSlot') (done other isSlot' earlier)
        · exact forwarded
      · rintro result final ⟨last, further, rest⟩
        exact ⟨last, onward.trans further, rest⟩
  | visitValue value next ih => exact scans.elim
  | allocate => exact scans.elim
  | collect => exact scans.elim
  | fail violation => exact scans.elim

end Views

end Pass

end MovingHeap
