import MovingHeap.Proofs.PreciseForwarding
import MovingHeap.Proofs.RootVisits

/-! Scanning in two heaps that agree in the words that matter.
The host reads nothing but what both runs share, so it asks for the same in both, step by step, and the
loops of a collection go through the same copies and the same fixed objects.
-/

namespace MovingHeap

variable {σ δ α : Type}

namespace Pass

variable {pass : Pass σ δ} {kept : List Value} {trail : Trail} {matters : Space → Nat → Prop}
  {first second : Site σ δ}

section Steps

variable (ready : pass.Ready)
  (covers : ∀ space offset, pass.DependsOn space offset → matters space offset) {host : Host σ δ}
  (faithful : host.Traces pass.contract) (discreet : host.Discreet pass.contract)

-----------------------------------------------------------------------------------------
-- Visits
-----------------------------------------------------------------------------------------

/-- The words of an item are shared: it lies in the fixed space, or is a copy. -/
def Within (pass : Pass σ δ) (item : Item) (space : Space) (offset : Nat) (now : Regions δ) : Prop :=
  space = .fixed
  ∨ space = pass.space ∧ pass.base ≤ offset ∧ offset + item.size ≤ now.destination.cursor

/-- Words of an item are the same in both runs. -/
theorem InTandem.cell (tandem : pass.InTandem matters first second) {item : Item} {space : Space}
    {offset : Nat} (within : pass.Within item space offset first.regions) {index : Nat}
    (inside : index < item.size)
    : second.regions.cell space (offset + index) = first.regions.cell space (offset + index) := by
  rcases within with rfl | ⟨rfl, above, below⟩
  · exact tandem.regions.cell_fixed _
  · exact tandem.regions.cells _ _ (.inr ⟨rfl, by omega, by omega⟩)

/-- As more is copied, the words of an item stay shared. -/
theorem Within.grows {item : Item} {space : Space} {offset : Nat} {now next : Regions δ}
    (within : pass.Within item space offset now) (progress : pass.Progress trail now) {later : Trail}
    (further : pass.Progress later next) (grows : trail.Grows later)
    : pass.Within item space offset next := by
  refine within.imp_right fun ⟨here, above, below⟩ => ⟨here, above, ?_⟩
  obtain ⟨more, longer⟩ := grows.moved
  have former := progress.cursor
  have cursor := further.cursor
  rw [← longer, extent_append] at cursor
  omega

include ready covers faithful discreet

/-- A faithful visit to an item goes the same way in both runs, by induction over its steps. -/
theorem runVisit_inTandem {item : Item} {space : Space} {offset : Nat} {original : Nat → Word}
    (phase : Phase) {accepted : α → Prop} {program : Visit σ α} {handled : Nat → Prop}
    (scans : program.Scans pass.contract kept pass.full item accepted handled)
    (views : pass.Views trail item space offset original)
    (within : pass.Within item space offset first.regions) (moment : pass.Moment kept trail first)
    (tandem : pass.InTandem matters first second)
    : Alongside (Collector.runVisit host phase program) (Collector.runVisit host phase program) first
        second fun _ => pass.InTandem matters := by
  induction program generalizing trail first second handled with
  | done result => exact .pure tandem
  | getHost next ih =>
      refine .get_bind ?_
      rw [tandem.host]
      exact ih first.host (scans first.host moment.upholds moment.roots) views within moment tandem
  | setHost state next ih =>
      obtain ⟨upholds, roots, rest⟩ := scans
      have set : pass.Moment kept trail { first with host := state } :=
        ⟨moment.progress, upholds, roots⟩
      exact ih rest views within set ⟨tandem.regions, rfl, tandem.log⟩
  | note line next ih =>
      have logged : pass.Moment kept trail { first with log := .note line :: first.log } :=
        ⟨moment.progress, moment.upholds, moment.roots⟩
      refine ih scans views within logged ⟨tandem.regions, tandem.host, ?_⟩
      exact congrArg (Event.note line :: ·) tandem.log
  | isFull next ih =>
      refine .get_bind ?_
      rw [tandem.regions.isFull]
      have rest : (next first.regions.isFull).Scans pass.contract kept pass.full item accepted
          handled := by
        rw [moment.isFull]
        exact scans
      exact ih _ rest views within moment tandem
  | load addr next ih =>
      obtain ⟨index, inside, rfl, rest⟩ := scans
      have progress := moment.progress
      obtain ⟨inSpace, atOffset⟩ := views.located (Nat.le_of_lt inside)
      refine loadWord_inTandem tandem ?_ ?_ ?_
      · rw [inSpace, atOffset]
        exact views.readable ready progress inside
      · rw [inSpace, atOffset]
        exact tandem.cell within inside
      · rw [inSpace, atOffset]
        exact ih _ (rest _ (views.word progress inside)) views within moment tandem
  | words addr count next ih =>
      obtain ⟨start, rfl, inside, rest⟩ := scans
      have progress := moment.progress
      obtain ⟨list, read, length, cells⟩ := views.slice?_eq ready progress inside
      obtain ⟨reaches, short⟩ := views.reaches ready progress inside
      obtain ⟨inSpace, atOffset⟩ := views.located (show start ≤ item.size by omega)
      have read' : second.regions.slice? (item.object.add start) count = some list := by
        refine (tandem.regions.slice? reaches short fun index inner => ?_).trans read
        rw [Regions.field, Regions.field, inSpace, atOffset, Nat.add_assoc]
        exact tandem.cell within (by omega)
      simp only [Collector.runVisit]
      refine .get_bind ?_
      rw [read, read']
      refine .require_bind fun words found => ?_
      obtain rfl := Option.some.inj found
      refine ih _ (rest list length fun index inner plain => ?_) views within moment tandem
      rw [cells index inner]
      exact views.word progress (by omega) plain
  | visitSlot slot next ih =>
      obtain ⟨index, isSlot, rfl, rest⟩ := scans
      obtain ⟨inSpace, atOffset⟩ := views.located (Nat.le_of_lt (views.slot_lt index isSlot))
      have holds : pass.Holds trail (item.object.add index).space (item.object.add index).offset
          ⟨original index⟩ := by
        rw [inSpace, atOffset]
        exact views.slots index isSlot
      refine .bind ((visitSlot_inTandem ready moment covers tandem faithful discreet holds).and_runs
        (views.visitSlot ready moment faithful isSlot)) ?_
      rintro _ between between' ⟨⟨later, visits, -⟩, tandem⟩
      exact ih rest (views.grows visits.grows)
        (within.grows moment.progress visits.moment.progress visits.grows) visits.moment tandem
  | visitValue value next ih => exact scans.elim
  | allocate => exact scans.elim
  | collect => exact scans.elim
  | fail violation => exact scans.elim

/-- A host that forwards its roots gets the same answers in both runs, by induction over the steps of its
visit.
-/
theorem runVisit_rootsInTandem (phase : Phase) {initial : List Value}
    (traced : ∀ root ∈ initial, pass.Traced root) {program : Visit σ Unit} {current : List Value}
    {answers : List (Value × Value)}
    (forwards : program.ForwardsRoots pass.contract pass.full initial current answers)
    (moment : pass.Moment current trail first)
    (became : ∀ root moved, (root, moved) ∈ answers → pass.Became trail root moved)
    (tandem : pass.InTandem matters first second)
    : Alongside (Collector.runVisit host phase program) (Collector.runVisit host phase program) first
        second fun _ => pass.InTandem matters := by
  induction program generalizing trail first second current answers with
  | done result => exact .pure tandem
  | getHost next ih =>
      refine .get_bind ?_
      rw [tandem.host]
      exact ih first.host (forwards first.host moment.upholds moment.roots) moment became tandem
  | setHost state next ih =>
      obtain ⟨upholds, rest⟩ := forwards
      have set : pass.Moment (pass.contract.roots state) trail { first with host := state } :=
        ⟨moment.progress, upholds, rfl⟩
      exact ih rest set became ⟨tandem.regions, rfl, tandem.log⟩
  | note line next ih =>
      have logged : pass.Moment current trail { first with log := .note line :: first.log } :=
        ⟨moment.progress, moment.upholds, moment.roots⟩
      refine ih forwards logged became ⟨tandem.regions, tandem.host, ?_⟩
      exact congrArg (Event.note line :: ·) tandem.log
  | isFull next ih =>
      refine .get_bind ?_
      rw [tandem.regions.isFull]
      have rest : (next first.regions.isFull).ForwardsRoots pass.contract pass.full initial current
          answers := by
        rw [moment.isFull]
        exact forwards
      exact ih _ rest moment became tandem
  | visitValue value next ih =>
      obtain ⟨known, rest⟩ := forwards
      have knows := known_of_asked became traced known
      have met : ∀ addr, value.address? = some addr → pass.moves addr.space →
          pass.Traced addr.toValue := by
        intro addr found moves
        rcases knows with met | ⟨root, became⟩
        · rwa [Value.toValue_of_address? found]
        · rw [(became.still addr found).1] at moves
          cases moves
      refine .bind ((forward_inTandem ready moment covers tandem faithful discreet met).and_runs
        (forward_became ready moment faithful knows)) ?_
      rintro moved between between' ⟨⟨later, visits, result, -⟩, tandem⟩
      refine ih moved (rest moved ?_ ?_) visits.moment (became_cons became visits.grows result) tandem
      · intro earlier answered
        exact ((became value earlier answered).grows visits.grows).unique result
      · rintro ⟨root, answered⟩
        exact ((became root value answered).grows visits.grows).stays result
  | load addr next ih => exact forwards.elim
  | words addr count next ih => exact forwards.elim
  | visitSlot slot next ih => exact forwards.elim
  | allocate => exact forwards.elim
  | collect => exact forwards.elim
  | fail violation => exact forwards.elim

-----------------------------------------------------------------------------------------
-- Lists
-----------------------------------------------------------------------------------------

/-- Both runs forward the same recorded slots, by one slot after another. -/
theorem visitRemembered_inTandem (words : List Word)
    (handles
      : ∀ raw ∈ words, ∃ slot : Address, slot.raw = raw ∧ slot.Decodes
          ∧ pass.handles slot.space slot.offset)
    (moment : pass.Moment kept trail first) (tandem : pass.InTandem matters first second)
    : Alongside (Collector.visitRemembered host words) (Collector.visitRemembered host words) first
        second fun _ => pass.InTandem matters := by
  induction words generalizing trail first second with
  | nil => exact .pure tandem
  | cons raw words ih =>
      obtain ⟨slot, rfl, valid, handled⟩ := handles raw List.mem_cons_self
      have decoded : Address.ofRaw? slot.raw = some slot := valid
      refine .require_bind fun found there => ?_
      obtain rfl : slot = found := Option.some.inj (decoded.symm.trans there)
      refine .bind ((visitSlot_inTandem ready moment covers tandem faithful discreet
        (.stayed handled)).and_runs (visitSlot_holds ready moment faithful (.stayed handled))) ?_
      rintro _ between between' ⟨⟨later, visits, -⟩, tandem⟩
      exact ih (fun other member => handles other (List.mem_cons_of_mem _ member)) visits.moment tandem

/-- Both runs scan the same fixed object. -/
theorem scanFixed_inTandem (phase : Phase) {scan : Address → Nat → Visit σ Unit} {begin : Nat}
    (scans
      : ∀ words,
          begin + words ≤ maxOffsetWords →
          (scan (.pack .fixed begin) words).Scans pass.contract kept pass.full
            (.payload (.pack .fixed begin) words) (fun _ => True) fun _ => False)
    (handles : pass.HandlesObject begin) (moment : pass.Moment kept trail first)
    (tandem : pass.InTandem matters first second)
    : Alongside (Collector.scanFixed host phase scan begin)
        (Collector.scanFixed host phase scan begin) first second fun _ => pass.InTandem matters := by
  refine .get_bind ?_
  rw [tandem.regions.fixed]
  have alike := FixedSpace.occupant?_alike moment.progress.evolves.slots begin
  cases present : first.regions.fixed.occupant? begin with
  | none => exact .pure tandem
  | some occupant =>
      rw [present, Option.map_some, eq_comm, Option.map_eq_some_iff] at alike
      obtain ⟨before, found, same⟩ := alike
      have words : before.words = occupant.words := (congrArg Occupant.words same :)
      have views := views_payload trail ready found handles
      rw [words] at views
      exact runVisit_inTandem ready covers faithful discreet phase (scans _ views.small) views
        (.inl rfl) moment tandem

/-- Both runs scan the same fixed objects, by one object after another. -/
theorem scanFixedList_inTandem (minor : pass.full = false) (phase : Phase) (starts : List Nat)
    (handles : ∀ begin ∈ starts, pass.HandlesObject begin) (moment : pass.Moment kept trail first)
    (tandem : pass.InTandem matters first second)
    : Alongside (Collector.scanFixedList host phase host.scanFixedMinor starts)
        (Collector.scanFixedList host phase host.scanFixedMinor starts) first second
        fun _ => pass.InTandem matters := by
  induction starts generalizing trail first second with
  | nil => exact .pure tandem
  | cons begin starts ih =>
      have here := handles begin List.mem_cons_self
      have scans := scansFixed minor faithful.scanFixedMinor kept begin
      refine .bind ((scanFixed_inTandem ready covers faithful discreet phase scans here moment
        tandem).and_runs (scanFixed_filled ready faithful phase scans here moment)) ?_
      rintro _ between between' ⟨⟨later, visits, -⟩, tandem⟩
      exact ih (fun other member => handles other (List.mem_cons_of_mem _ member)) visits.moment tandem

-----------------------------------------------------------------------------------------
-- Loops
-----------------------------------------------------------------------------------------

omit ready covers faithful discreet in
/-- Both runs check the same answer. -/
theorem checkNext_inTandem (tandem : pass.InTandem matters first second) (space : Space)
    (limit : Nat) (object next : Address)
    : Alongside (Collector.checkNext space limit object next)
        (Collector.checkNext space limit object next) first second
        fun _ => pass.InTandem matters :=
  .ite (fun _ => .pure tandem) fun _ => .stop

/-- Both runs scan the same copy and go on behind it. -/
theorem scanCopy_inTandem (phase : Phase) {object : Address} {scan : Address → Visit σ Address}
    (moment : pass.Moment kept trail first) (moved : object ∈ trail.moved)
    (scans
      : (scan (.pack pass.space (pass.copyOffset trail object))).Scans pass.contract kept pass.full
          (pass.layout.item (pass.copyOf trail object) (pass.before.field object))
          (· = (pass.copyOf trail object).add (pass.size object)) fun _ => False)
    (tandem : pass.InTandem matters first second) (limit : Regions δ → Nat)
    (limits
      : ∀ later between between',
          pass.Moment kept later between →
          pass.InTandem matters between between' →
          limit between.regions = between.regions.destination.cursor
          ∧ limit between'.regions = between.regions.destination.cursor)
    {next next' : Nat → Action (Site σ δ) Unit} {ended : Unit → Site σ δ → Site σ δ → Prop}
    (further
      : ∀ later between between',
          pass.Visits kept trail first.regions later between →
          pass.Scanned later between.regions object →
          pass.InTandem matters between between' →
          Alongside (next (pass.copyOffset trail object + pass.size object))
            (next' (pass.copyOffset trail object + pass.size object)) between between' ended)
    : Alongside
        (do
          let copy := Address.pack pass.space (pass.copyOffset trail object)
          let behind ← Collector.runVisit host phase (scan copy)
          let offset ← Collector.checkNext pass.space (limit (← get).regions) copy behind
          next offset)
        (do
          let copy := Address.pack pass.space (pass.copyOffset trail object)
          let behind ← Collector.runVisit host phase (scan copy)
          let offset ← Collector.checkNext pass.space (limit (← get).regions) copy behind
          next' offset) first second ended := by
  have views := views_copy ready moment.progress moved
  have within : pass.Within (pass.layout.item (pass.copyOf trail object) (pass.before.field object))
      pass.space (pass.copyOffset trail object) first.regions :=
    .inr ⟨rfl, Nat.le_add_right _ _, moment.progress.copy_le moved⟩
  refine .bind ((runVisit_inTandem ready covers faithful discreet phase scans views within moment
    tandem).and_runs (scan_copy ready faithful phase moment moved scans)) ?_
  rintro _ between between' ⟨⟨later, visits, rfl, scanned⟩, tandem⟩
  have still : pass.copyOffset later object = pass.copyOffset trail object :=
    copyOffset_grows visits.grows moved
  obtain ⟨bound, bound'⟩ := limits later between between' visits.moment tandem
  refine .get_bind ?_
  rw [bound, bound']
  refine .bind ((checkNext_inTandem tandem _ _ _ _).and_runs (checkNext_copy ready visits.moment
    (visits.grows.mem moved) still rfl)) ?_
  rintro _ _ last ⟨⟨rfl, rfl⟩, checked⟩
  exact further later _ _ visits scanned checked

/-- Both runs of a minor collection scan the same copies, by induction over the objects that may follow. -/
theorem scanPromoted_inTandem (minor : pass.full = false) (phase : Phase) (objects : Nat)
    {scan : Nat} {rest : List Address} (moment : pass.Moment kept trail first)
    (boundary : pass.Boundary trail first.regions scan rest)
    (tandem : pass.InTandem matters first second)
    : Alongside (Collector.scanPromoted host phase pass.space objects scan)
        (Collector.scanPromoted host phase pass.space objects scan) first second
        fun _ => pass.InTandem matters := by
  induction objects generalizing scan rest trail first second with
  | zero => exact .pure tandem
  | succ objects ih =>
      have destination := moment.destination_of_minor minor
      refine .get_bind ?_
      rw [tandem.regions.oldCursor, ← destination]
      refine .ite (fun below => ?_) fun _ => .pure tandem
      obtain ⟨object, others, rfl, moved, place⟩ := boundary.next moment.progress below
      have scans := scansCopy ready moment.progress moved minor faithful.scanMinor kept
      rw [← place]
      refine scanCopy_inTandem ready covers faithful discreet phase moment moved scans tandem
        (fun regions => regions.old.cursor) (fun _ between _ moment tandem => ?_) ?_
      · have cursor : between.regions.destination.cursor = between.regions.old.cursor :=
          congrArg Semispace.cursor (moment.destination_of_minor minor)
        rw [cursor, tandem.regions.oldCursor]
        exact ⟨rfl, rfl⟩
      · intro later between between' visits scanned tandem
        obtain ⟨rest, further⟩ := boundary.onward visits.toOnward scanned
        rw [place]
        exact ih visits.moment further tandem

/-- Both runs of a full collection scan the same copies and the same marked objects, by induction over the
steps that may follow.
-/
theorem scanSurvivors_inTandem (full : pass.full) (phase : Phase)
    (handles
      : ∀ trail now,
          pass.Progress trail now → ∀ begin ∈ trail.marked, pass.HandlesObject begin)
    (steps : Nat) {scan : Nat} {rest : List Address} (moment : pass.Moment kept trail first)
    (boundary : pass.Boundary trail first.regions scan rest)
    (tandem : pass.InTandem matters first second)
    : Alongside (Collector.scanSurvivors host phase pass.space steps scan)
        (Collector.scanSurvivors host phase pass.space steps scan) first second
        fun _ => pass.InTandem matters := by
  induction steps generalizing scan rest trail first second with
  | zero => exact .pure tandem
  | succ steps ih =>
      refine .get_bind ?_
      dsimp only
      rw [tandem.regions.destinationCursor, tandem.regions.unscanned]
      refine .ite (fun below => ?_) fun _ => ?_
      · obtain ⟨object, others, rfl, moved, place⟩ := boundary.next moment.progress below
        have scans := scansCopy ready moment.progress moved full faithful.scanFull kept
        rw [← place]
        refine scanCopy_inTandem ready covers faithful discreet phase moment moved scans tandem
          (fun regions => regions.destination.cursor)
          (fun _ _ _ _ tandem => ⟨rfl, tandem.regions.destinationCursor⟩) ?_
        intro later between between' visits scanned tandem
        obtain ⟨rest, further⟩ := boundary.onward visits.toOnward scanned
        rw [place]
        exact ih visits.moment further tandem
      · cases listed : first.regions.unscanned with
        | nil => exact .pure tandem
        | cons begin others =>
            have pop := moment.pop full listed
            have marked := moment.progress.waiting begin (by simp [listed])
            have handled := handles trail _ moment.progress begin marked
            have scans := scansFixed full faithful.scanFixedFull kept begin
            refine .modifyRegions_bind ?_
            refine .bind ((scanFixed_inTandem ready covers faithful discreet phase scans handled
              pop.moment (tandem.changeUnscanned fun _ => others)).and_runs
              (scanFixed_filled ready faithful phase scans handled pop.moment)) ?_
            rintro _ between between' ⟨⟨later, visits, -⟩, tandem⟩
            obtain ⟨rest, further⟩ := boundary.grows (pop.trans visits.toOnward)
            exact ih visits.moment further tandem

end Steps

end Pass

end MovingHeap
