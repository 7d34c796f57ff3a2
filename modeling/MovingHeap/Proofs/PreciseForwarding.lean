import MovingHeap.Proofs.AgreeingMemory
import MovingHeap.Proofs.Alongside
import MovingHeap.Proofs.Scanning

/-! Forwarding a reference in two heaps that agree in the words that matter.
The words of an object decide whether it has moved and what becomes of it, so both runs copy the same
objects to the same places. Only the first heap need be in order.
-/

namespace MovingHeap

variable {σ δ : Type}

/-- What comes of copying an object is told by its words and by how much memory lies behind it and is
free, whatever that memory holds. The host is shown the memory behind the object, too, and could keep
what it finds there.
-/
def Host.Discreet (host : Host σ δ) (contract : Contract σ) : Prop :=
  ∀ destination other source again state,
    contract.Upholds state →
    contract.layout.IsObject source.field →
    contract.layout.size source.field ≤ source.length →
    contract.layout.size source.field ≤ destination.length →
    other.length = destination.length →
    again.length = source.length →
    (∀ index < contract.layout.size source.field, again.field index = source.field index) →
    host.copy other again state = host.copy destination source state

/-- The word belongs to an object that moves and is met when references are followed from some values. -/
def Regions.Lives (layout : Layout) (full : Bool) (regions : Regions δ) (start : Value → Prop)
    (space : Space) (offset : Nat)
    : Prop :=
  ∃ object : Address,
    object.Decodes
    ∧ regions.Traced layout full start object.toValue
    ∧ regions.moves full object.space
    ∧ space = object.space
    ∧ object.offset ≤ offset
    ∧ offset < object.offset + layout.size (regions.field object)

/-- Puts a word where it can be written. -/
def Site.putWord (slot : Address) (word : Word) (violation : Violation)
    : Action (Site σ δ) Unit := do
  let regions ← Site.require ((← get).regions.setWord? slot word) violation
  Site.modifyRegions fun _ => regions

/-- Copying an object ends where the copy that the host makes is admitted. -/
theorem Collector.ends_relocate {host : Host σ δ} {site : Site σ δ} {object : Address} {young : Bool}
    {reply : Reply σ Copied} {written : List Word} {count : Nat} {extended : Semispace}
    (replies
      : host.copy site.regions.destination.tail
            ((site.regions.origin young).1.window object.offset
              ((site.regions.origin young).2 - object.offset)) site.host
        = reply)
    (answer : reply.answer = ⟨written, count⟩)
    (admitted
      : Regions.admit? (site.regions.destination.fillTail written) count = some extended)
    : Ends (relocate host object young) site fun result final =>
        result = site.regions.destination.next
        ∧ final
          = { regions := relocated site.regions (site.regions.destination.fillTail written)
                extended object young count
              host := reply.host
              log := (reply.notes.map Event.note).reverse ++ site.log } := by
  simp only [relocate, runs_bind, runs_get, Site.runs_accept, Site.runs_modifyRegions, replies,
    answer, admitted, Site.runs_require_some, runs_pure]
  exact ⟨trivial, rfl⟩

namespace Pass

/-- The collection depends on the word: it belongs to an object that moves, or is handled where it is. -/
def DependsOn (pass : Pass σ δ) (space : Space) (offset : Nat) : Prop :=
  pass.before.Lives pass.layout pass.full pass.start space offset ∨ pass.handles space offset

/-- What two runs share by now: the words that matter, and the copies. -/
def Shared (pass : Pass σ δ) (matters : Space → Nat → Prop) (now : Regions δ) (space : Space)
    (offset : Nat)
    : Prop :=
  matters space offset
  ∨ space = pass.space ∧ pass.base ≤ offset ∧ offset < now.destination.cursor

/-- Two runs of a collection have come as far, and agree in all that they share. -/
def InTandem (pass : Pass σ δ) (matters : Space → Nat → Prop) (first second : Site σ δ) : Prop :=
  first.AgreesOn (pass.Shared matters first.regions) second

variable {pass : Pass σ δ} {kept : List Value} {trail : Trail} {matters : Space → Nat → Prop}
  {first second : Site σ δ}

/-- Where nothing more was copied, as much is shared. -/
theorem shared_of_cursor {now next : Regions δ}
    (cursor : next.destination.cursor = now.destination.cursor)
    : pass.Shared matters next = pass.Shared matters now := by
  funext space offset
  rw [Shared, Shared, cursor]

/-- Where nothing more was copied, runs that agree in what they shared are in tandem. -/
theorem InTandem.of_cursor {next next' : Site σ δ}
    (cursor : next.regions.destination.cursor = first.regions.destination.cursor)
    (agrees : next.AgreesOn (pass.Shared matters first.regions) next')
    : pass.InTandem matters next next' := by
  rwa [InTandem, shared_of_cursor cursor]

/-- Words of an object that moves are the same in both runs. -/
theorem InTandem.field (tandem : pass.InTandem matters first second)
    (covers : ∀ space offset, pass.DependsOn space offset → matters space offset)
    {object : Address} (valid : object.Decodes) (traced : pass.Traced object.toValue)
    (moves : pass.moves object.space) {index : Nat} (inside : index < pass.size object)
    : second.regions.field object index = first.regions.field object index :=
  tandem.regions.cells _ _ (.inl (covers _ _ (.inl
    ⟨object, valid, traced, moves, rfl, Nat.le_add_right _ _, Nat.add_lt_add_left inside _⟩)))

/-- Slots hold the same in both runs. -/
theorem InTandem.shared_of_holds (ready : pass.Ready)
    (covers : ∀ space offset, pass.DependsOn space offset → matters space offset)
    {now : Regions δ} (progress : pass.Progress trail now) {space : Space} {offset : Nat}
    {value : Value} (holds : pass.Holds trail space offset value)
    : pass.Shared matters now space offset := by
  cases holds with
  | stayed handled => exact .inl (covers _ _ (.inr handled))
  | @copied object index moved slot =>
      obtain ⟨valid, traced, moves⟩ := progress.met _ moved
      have inside := ready.slot_lt valid traced moves slot
      have bound := progress.copy_le moved
      refine .inr ⟨rfl, ?_, by omega⟩
      simp only [copyOffset]
      omega

-----------------------------------------------------------------------------------------
-- Moving objects
-----------------------------------------------------------------------------------------

section Moving

variable (ready : pass.Ready) (moment : pass.Moment kept trail first)
  (covers : ∀ space offset, pass.DependsOn space offset → matters space offset)
  (tandem : pass.InTandem matters first second) {object : Address} (valid : object.Decodes)
  (traced : pass.Traced object.toValue) (moves : pass.moves object.space)

include ready moment covers tandem valid traced moves

/-- What an object is copied out of reads the same in both runs, as far as the object goes. -/
theorem origin_inTandem {index : Nat} (inside : index < pass.size object)
    : (second.regions.origin (object.space == .birth)).1.get (object.offset + index)
      = (first.regions.origin (object.space == .birth)).1.get (object.offset + index) := by
  have apart := moment.progress.evolves.apart ready.apart
  have source := moment.progress.source_eq moves
  rw [← apart.cell_source, ← (tandem.regions.apart apart).cell_source, tandem.regions.source, source]
  exact tandem.field covers valid traced moves inside

variable {host : Host σ δ} (faithful : host.Traces pass.contract)
  (discreet : host.Discreet pass.contract)

include faithful discreet

/-- Both runs copy an object that has not moved to the same place. -/
theorem relocate_inTandem (fresh : object ∉ trail.moved)
    : Alongside (Collector.relocate host object (object.space == .birth))
        (Collector.relocate host object (object.space == .birth)) first second
        fun _ => pass.InTandem matters := by
  have progress := moment.progress
  have apart := progress.evolves.apart ready.apart
  have large := pass.layout.two_le_size (ready.object object valid traced moves).1
  have room := progress.room ready valid traced moves fresh
  have copies := progress.copies_window ready valid traced moves fresh
  obtain ⟨isObject, size, long, free⟩ := progress.source_window ready valid traced moves fresh
  have agrees := tandem.regions
  have limit := agrees.limit (object.space == .birth)
  have reads := fun index (inside : index < pass.size object) =>
    origin_inTandem ready moment covers tandem valid traced moves inside
  -- the host is shown the same object, in as much memory
  have replies : host.copy second.regions.destination.tail
        ((second.regions.origin (object.space == .birth)).1.window object.offset
          ((second.regions.origin (object.space == .birth)).2 - object.offset)) second.host
      = host.copy first.regions.destination.tail
        ((first.regions.origin (object.space == .birth)).1.window object.offset
          ((first.regions.origin (object.space == .birth)).2 - object.offset)) first.host := by
    rw [tandem.host]
    refine discreet _ _ _ _ _ moment.upholds isObject (size.trans_le long) (size.trans_le free)
      agrees.destinationFree (by rw [Arena.window, Arena.window, limit]) fun index inside => ?_
    rw [size] at inside
    have within : index < (first.regions.origin (object.space == .birth)).2 - object.offset :=
      Nat.lt_of_lt_of_le inside long
    rw [Window.field, Window.field, Arena.get?_window _ _ _ within,
      Arena.get?_window _ _ _ (by rwa [limit]), reads index inside]
  generalize window : (first.regions.origin (object.space == .birth)).1.window object.offset
    ((first.regions.origin (object.space == .birth)).2 - object.offset) = source at *
  obtain ⟨answer, -, -⟩ := faithful.copy first.regions.destination.tail source first.host
    moment.upholds isObject (size.trans_le long) (size.trans_le free)
  rw [size] at answer
  have length : (source.take (pass.size object)).length = pass.size object := copies.length
  have fits : (source.take (pass.size object)).length ≤ first.regions.destination.free := by
    rw [length, Semispace.free, Semispace.capacity]
    omega
  have begins : 0 < (source.take (pass.size object)).length := by
    rw [length]
    exact Nat.lt_of_lt_of_le Nat.zero_lt_two large
  obtain ⟨extended, admitted⟩ := copies.admitted ready valid traced moves room
  obtain ⟨rfl, admitted'⟩ := agrees.admit? begins fits admitted
  have relocated := agrees.relocated apart fits object (object.space == .birth) (pass.size object)
  have buried := progress.buried_relocated ready moves copies room admitted
  refine .of_runs (Collector.ends_relocate (by rw [window]) answer admitted) ?_
  rintro _ _ ⟨rfl, rfl⟩
  refine (Collector.ends_relocate replies answer admitted').mono ?_
  rintro _ _ ⟨rfl, rfl⟩
  refine ⟨agrees.next, relocated.mono fun space offset shared => ?_, rfl, by rw [tandem.log]⟩
  rcases shared with earlier | ⟨rfl, above, below⟩
  · exact .inl (.inl earlier)
  · have cursor := buried.cursor
    simp only at below
    by_cases former : offset < first.regions.destination.cursor
    · exact .inl (.inr ⟨rfl, above, former⟩)
    · exact .inr ⟨progress.destinationSpace.symm, by omega, by omega⟩

/-- Both runs find or make the copy of an object in the same place. -/
theorem evacuate_inTandem
    : Alongside (Collector.evacuate host object (object.space == .birth))
        (Collector.evacuate host object (object.space == .birth)) first second
        fun _ => pass.InTandem matters := by
  have large := pass.layout.two_le_size (ready.object object valid traced moves).1
  have reads := fun index (inside : index < pass.size object) =>
    origin_inTandem ready moment covers tandem valid traced moves inside
  have zeroth := reads 0 (Nat.lt_of_lt_of_le Nat.zero_lt_two large)
  rw [Nat.add_zero] at zeroth
  refine .get_bind ?_
  dsimp only
  rw [tandem.regions.limit, zeroth, reads 1 large]
  refine .ite (fun _ => .stop) fun _ => .ite (fun _ => .require fun _ _ => tandem) fun header => ?_
  refine relocate_inTandem ready moment covers tandem valid traced moves faithful discreet ?_
  -- an object that has moved is told by its tombstone
  intro moved
  obtain ⟨cells, -⟩ := moment.progress.origin_eq ready moves
  exact header ((cells _).trans (moment.progress.buried object moved).1)

end Moving

-----------------------------------------------------------------------------------------
-- References
-----------------------------------------------------------------------------------------

/-- Changing the fixed space in the same way keeps both runs in tandem. -/
theorem InTandem.changeFixed (tandem : pass.InTandem matters first second)
    (change : FixedSpace δ → FixedSpace δ)
    : pass.InTandem matters
        { first with regions := { first.regions with fixed := change first.regions.fixed } }
        { second with regions := { second.regions with fixed := change second.regions.fixed } } :=
  .of_cursor rfl ⟨tandem.regions.changeFixed change, tandem.host, tandem.log⟩

/-- Changing what is to be scanned in the same way keeps both runs in tandem. -/
theorem InTandem.changeUnscanned (tandem : pass.InTandem matters first second)
    (change : List Nat → List Nat)
    : pass.InTandem matters
        { first with
          regions := { first.regions with unscanned := change first.regions.unscanned } }
        { second with
          regions := { second.regions with unscanned := change second.regions.unscanned } } :=
  .of_cursor rfl ⟨tandem.regions.changeUnscanned change, tandem.host, tandem.log⟩

/-- Both runs mark the same fixed object. -/
theorem markFixed_inTandem (tandem : pass.InTandem matters first second) (addr : Address)
    : Alongside (Collector.markFixed addr) (Collector.markFixed addr) first second
        fun _ => pass.InTandem matters := by
  refine .get_bind ?_
  rw [tandem.regions.fixed]
  refine .require_bind fun found _ => .modifyRegions_bind ?_
  have marked := tandem.changeFixed fun _ => found.2
  cases found.1 with
  | fresh start => exact .modifyRegions_bind (.pure (marked.changeUnscanned (start :: ·)))
  | already => exact .pure marked
  | forgotten => exact .pure marked

/-- Both runs forward a reference to the same one, if what it leads to was met or does not move. -/
theorem forward_inTandem (ready : pass.Ready) (moment : pass.Moment kept trail first)
    (covers : ∀ space offset, pass.DependsOn space offset → matters space offset)
    (tandem : pass.InTandem matters first second) {host : Host σ δ}
    (faithful : host.Traces pass.contract) (discreet : host.Discreet pass.contract) {value : Value}
    (met
      : ∀ addr, value.address? = some addr → pass.moves addr.space → pass.Traced addr.toValue)
    : Alongside (Collector.forward host value) (Collector.forward host value) first second
        fun _ => pass.InTandem matters := by
  have agrees := tandem.regions
  unfold Collector.forward
  split
  next => exact .pure tandem
  next addr found =>
    have valid := Value.decodes_of_address? found
    have evacuates : ∀ young, (addr.space == .birth) = young → pass.moves addr.space →
        Alongside (Collector.evacuate host addr young) (Collector.evacuate host addr young) first
          second fun _ => pass.InTandem matters := by
      rintro young rfl moves
      exact evacuate_inTandem ready moment covers tandem valid (met addr found moves) moves faithful
        discreet
    refine .get_bind ?_
    simp only [agrees.isFull, agrees.oldSpace]
    split
    next birth => exact .map (evacuates true (by simp [birth]) (moves_iff.mpr (.inl birth)))
    next => exact .ite (fun _ => markFixed_inTandem tandem addr) fun _ => .pure tandem
    next young notFixed =>
      refine .ite (fun both => .map (evacuates false (by simpa using young) ?_)) fun _ => .pure tandem
      rw [moment.isFull, moment.progress.evolves.oldSpace] at both
      exact moves_iff.mpr (.inr both)

-----------------------------------------------------------------------------------------
-- Slots
-----------------------------------------------------------------------------------------

/-- What a carried word leads to was met, if it moves. -/
theorem Progress.met_of_carried (ready : pass.Ready) {now : Regions δ}
    (progress : pass.Progress trail now) {value : Value} {word : Word} (traced : pass.Traced value)
    (carried : pass.Carried trail value word) {addr : Address}
    (found : (Value.mk word).address? = some addr) (moves : pass.moves addr.space)
    : pass.Traced addr.toValue := by
  rcases progress.still_of_carried ready traced carried with rfl | ⟨-, -, still⟩
  · rwa [Value.toValue_of_address? found]
  · rw [(still addr found).1] at moves
    cases moves

/-- Both runs read a word that is the same. -/
theorem loadWord_inTandem {α : Type} (tandem : pass.InTandem matters first second) {addr : Address}
    (readable : first.regions.Readable addr.space addr.offset)
    (same
      : second.regions.cell addr.space addr.offset = first.regions.cell addr.space addr.offset)
    {next next' : Word → Action (Site σ δ) α} {ended : α → Site σ δ → Site σ δ → Prop}
    (further
      : Alongside (next (first.regions.cell addr.space addr.offset))
          (next' (first.regions.cell addr.space addr.offset)) first second ended)
    : Alongside (Collector.loadWord addr >>= next) (Collector.loadWord addr >>= next') first second
        ended := by
  simp only [Collector.loadWord, bind_assoc]
  refine .get_bind ?_
  rw [tandem.regions.word? readable same, Regions.word?_eq readable]
  exact further

/-- Both runs write the same word where it can be written. -/
theorem putWord_inTandem (tandem : pass.InTandem matters first second) (slot : Address)
    (word : Word) (violation : Violation)
    : Alongside (Site.putWord slot word violation) (Site.putWord slot word violation) first second
        fun _ => pass.InTandem matters := by
  have writes : Runs (Site.putWord slot word violation) first
      (fun _ final =>
        ∃ next, first.regions.setWord? slot word = some next ∧ final = { first with regions := next })
      fun _ _ => True := by
    simp only [Site.putWord, runs_bind, runs_get, Site.runs_require]
    split
    next next done => exact ⟨next, done, rfl⟩
    next => trivial
  refine .of_runs writes ?_
  rintro _ _ ⟨next, done, rfl⟩
  obtain ⟨next', done', agrees⟩ := tandem.regions.setWord? done
  obtain ⟨-, -, -, cursor⟩ := Collector.frame_setWord? done
  simp only [Site.putWord, runs_bind, runs_get, done', Site.runs_require_some,
    Site.runs_modifyRegions]
  exact ⟨trivial, .of_cursor cursor ⟨agrees, tandem.host, tandem.log⟩⟩

/-- Both runs put the same reference into a slot. -/
theorem visitSlot_inTandem (ready : pass.Ready) (moment : pass.Moment kept trail first)
    (covers : ∀ space offset, pass.DependsOn space offset → matters space offset)
    (tandem : pass.InTandem matters first second) {host : Host σ δ}
    (faithful : host.Traces pass.contract) (discreet : host.Discreet pass.contract) {slot : Address}
    {value : Value} (holds : pass.Holds trail slot.space slot.offset value)
    : Alongside (Collector.visitSlot host slot) (Collector.visitSlot host slot) first second
        fun _ => pass.InTandem matters := by
  have progress := moment.progress
  have traced := progress.traced_of_holds ready holds
  have carried := progress.slots _ _ _ holds
  refine loadWord_inTandem tandem (progress.readable_of_holds ready holds)
    (tandem.regions.cells _ _ (InTandem.shared_of_holds ready covers progress holds)) ?_
  refine .bind (forward_inTandem ready moment covers tandem faithful discreet fun addr found moves =>
    progress.met_of_carried ready traced carried found moves) fun forwarded _ _ tandem => ?_
  exact .ite (fun _ => putWord_inTandem tandem slot _ _) fun _ => .pure tandem

end Pass

end MovingHeap
