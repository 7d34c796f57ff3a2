import MovingHeap.Proofs.Scanning

/-! The loops that scan what was copied and marked until nothing is left.
Copies are scanned in the order in which they were made, so the objects moved so far are those scanned
and then those still to scan. When the loop ends, every slot of a copy and every word of a marked
fixed object holds what its reference became.
-/

namespace MovingHeap

variable {σ δ : Type}

namespace Pass

variable {pass : Pass σ δ} {kept : List Value} {trail : Trail} {site : Site σ δ}

-----------------------------------------------------------------------------------------
-- What is scanned
-----------------------------------------------------------------------------------------

/-- Every slot of the copy of an object is forwarded. -/
def Scanned (pass : Pass σ δ) (trail : Trail) (now : Regions δ) (object : Address) : Prop :=
  ∀ index, pass.layout.IsSlot (pass.before.field object) index →
    pass.Forwarded trail ⟨pass.before.field object index⟩
      (now.cell pass.space (pass.copyOffset trail object + index))

/-- Every word of the fixed object that begins at a place is forwarded. -/
def Filled (pass : Pass σ δ) (trail : Trail) (now : Regions δ) (begin : Nat) : Prop :=
  ∀ occupant, pass.before.fixed.occupant? begin = some occupant →
    ∀ index < occupant.words,
      pass.Forwarded trail ⟨pass.before.cell .fixed (begin + index)⟩
        (now.cell .fixed (begin + index))

/-- The words of the fixed object that begins at a place are handled. -/
def HandlesObject (pass : Pass σ δ) (begin : Nat) : Prop :=
  ∀ occupant, pass.before.fixed.occupant? begin = some occupant →
    ∀ index < occupant.words, pass.handles .fixed (begin + index)

/-- A copy that was scanned stays so. -/
theorem Scanned.onward {now : Regions δ} {object : Address} {later : Trail} {final : Site σ δ}
    (scanned : pass.Scanned trail now object) (moved : object ∈ trail.moved)
    (onward : pass.Onward kept trail now later final)
    : pass.Scanned later final.regions object := by
  intro index slot
  rw [copyOffset_grows onward.grows moved]
  exact onward.forwarded _ _ _ (.copied moved slot) (scanned index slot)

/-- A fixed object that was scanned stays so. -/
theorem Filled.onward {now : Regions δ} {begin : Nat} {later : Trail} {final : Site σ δ}
    (filled : pass.Filled trail now begin) (handles : pass.HandlesObject begin)
    (onward : pass.Onward kept trail now later final)
    : pass.Filled later final.regions begin := by
  intro occupant found index inside
  exact onward.forwarded _ _ _ (.stayed (handles occupant found index inside))
    (filled occupant found index inside)

/-- The copy of an object can be scanned. -/
theorem views_copy (ready : pass.Ready) {now : Regions δ} (progress : pass.Progress trail now)
    {object : Address} (moved : object ∈ trail.moved)
    : pass.Views trail (pass.layout.item (pass.copyOf trail object) (pass.before.field object))
        pass.space (pass.copyOffset trail object) (pass.before.field object) := by
  obtain ⟨valid, met, moves⟩ := progress.met object moved
  have isObject := (ready.object object valid met moves).1
  have inside := progress.copy_le moved
  have small := progress.cursor_le ready
  have bound : pass.copyOffset trail object + pass.size object ≤ maxOffsetWords := by omega
  refine ⟨fun index within => ?_, bound, ?_, fun index => ready.slot_lt valid met moves,
    fun index slot => .copied moved slot, ?_⟩
  · have reach : pass.copyOffset trail object + index ≤ maxOffsetWords := by
      have within' : index ≤ pass.size object := within
      omega
    exact Address.add_pack pass.space reach
  · exact Nat.lt_of_lt_of_le Nat.zero_lt_two (pass.layout.two_le_size isObject)
  · intro index within plain later now grows progress
    have still := progress.copy_le (grows.mem moved)
    have within' : index < pass.size object := within
    rw [copyOffset_grows grows moved] at still
    refine ⟨progress.readable_of_lt ready (by omega), ?_⟩
    have word := progress.copies object (grows.mem moved) index within' plain
    rwa [copyOffset_grows grows moved] at word

/-- A fixed object whose words are handled can be scanned. -/
theorem views_payload (trail : Trail) (ready : pass.Ready) {begin : Nat} {occupant : Occupant δ}
    (found : pass.before.fixed.occupant? begin = some occupant)
    (handles : pass.HandlesObject begin)
    : pass.Views trail (.payload (.pack .fixed begin) occupant.words) .fixed begin
        fun index => pass.before.cell .fixed (begin + index) := by
  have inside := (ready.consistent.payload found).1
  have small := ready.fixedSmall
  have bound : begin + occupant.words ≤ maxOffsetWords := by omega
  refine ⟨fun index within => ?_, bound, ready.consistent.words_pos found, fun index => id,
    fun index slot => .stayed (handles occupant found index slot), ?_⟩
  · have within' : index ≤ occupant.words := within
    exact Address.add_pack .fixed (by omega)
  · exact fun index within plain => absurd within plain

/-- Scanning a copy forwards its slots and answers the address behind it. -/
theorem scan_copy (ready : pass.Ready) {host : Host σ δ}
    (faithful : host.Traces pass.contract) (phase : Phase)
    (moment : pass.Moment kept trail site) {object : Address} (moved : object ∈ trail.moved)
    {program : Visit σ Address}
    (scans
      : program.Scans pass.contract kept pass.full
          (pass.layout.item (pass.copyOf trail object) (pass.before.field object))
          (· = (pass.copyOf trail object).add (pass.size object)) fun _ => False)
    : Ends (Collector.runVisit host phase program) site fun next final =>
        ∃ later,
          pass.Visits kept trail site.regions later final
          ∧ next = .pack pass.space (pass.copyOffset trail object + pass.size object)
          ∧ pass.Scanned later final.regions object := by
  have views := views_copy ready moment.progress moved
  refine (runVisit_scans ready faithful phase scans views moment nofun).mono ?_
  rintro next final ⟨later, visits, rfl, handled⟩
  refine ⟨later, visits, views.place _ (Nat.le_refl _), fun index slot => ?_⟩
  rw [copyOffset_grows visits.grows moved]
  exact handled index slot trivial

/-- A host that scans fixed objects faithfully does so with the one that begins at a place. -/
theorem scansFixed {scan : Address → Nat → Visit σ Unit} {full : Bool} (same : pass.full = full)
    (scans
      : ∀ object words kept,
          object.Decodes →
          object.offset + words ≤ maxOffsetWords →
          (scan object words).Scans pass.contract kept full (.payload object words)
            (fun _ => True) fun _ => False)
    (kept : List Value) (begin words : Nat) (bound : begin + words ≤ maxOffsetWords)
    : (scan (.pack .fixed begin) words).Scans pass.contract kept pass.full
        (.payload (.pack .fixed begin) words) (fun _ => True) fun _ => False := by
  have small : begin ≤ maxOffsetWords := by omega
  rw [same]
  exact scans _ words kept (Address.decodes_pack _ small) (by rwa [Address.offset_pack _ small])

/-- Scanning a fixed object forwards its words. -/
theorem scanFixed_filled (ready : pass.Ready) {host : Host σ δ}
    (faithful : host.Traces pass.contract) (phase : Phase)
    {scan : Address → Nat → Visit σ Unit} {begin : Nat}
    (scans
      : ∀ words,
          begin + words ≤ maxOffsetWords →
          (scan (.pack .fixed begin) words).Scans pass.contract kept pass.full
            (.payload (.pack .fixed begin) words) (fun _ => True) fun _ => False)
    (handles : pass.HandlesObject begin) (moment : pass.Moment kept trail site)
    : Ends (Collector.scanFixed host phase scan begin) site fun _ final =>
        ∃ later,
          pass.Visits kept trail site.regions later final
          ∧ pass.Filled later final.regions begin := by
  simp only [Collector.scanFixed, runs_bind, runs_get]
  have alike := FixedSpace.occupant?_alike moment.progress.evolves.slots begin
  cases present : site.regions.fixed.occupant? begin with
  | none =>
      refine runs_pure.mpr ⟨trail, (Extends.refl moment).visits, fun occupant found => ?_⟩
      rw [present, found] at alike
      cases alike
  | some occupant =>
      rw [present, Option.map_some, eq_comm, Option.map_eq_some_iff] at alike
      obtain ⟨before, found, same⟩ := alike
      have words : before.words = occupant.words := (congrArg Occupant.words same :)
      have views := views_payload trail ready found handles
      have bound := views.small
      rw [words] at views bound
      refine (runVisit_scans ready faithful phase (scans occupant.words bound) views moment
        fun _ _ handled => handled.elim).mono ?_
      rintro _ final ⟨later, visits, -, handled⟩
      refine ⟨later, visits, fun other there index inside => ?_⟩
      rw [found, Option.some.injEq] at there
      subst there
      exact handled index (by rwa [← words]) trivial

-----------------------------------------------------------------------------------------
-- Copies in the order in which they were made
-----------------------------------------------------------------------------------------

/-- The copies before an offset have been scanned, those of the other objects begin there. -/
structure Boundary (pass : Pass σ δ) (trail : Trail) (now : Regions δ) (scan : Nat)
    (rest : List Address)
    : Prop where
  split
    : ∃ front,
        trail.moved = front ++ rest
        ∧ scan = pass.base + extent pass.size front
        ∧ ∀ object ∈ front, pass.Scanned trail now object

/-- Nothing was scanned where copying began. -/
theorem Boundary.initial (trail : Trail) (now : Regions δ)
    : pass.Boundary trail now pass.base trail.moved :=
  ⟨[], rfl, rfl, nofun⟩

/-- Every moved object has words. -/
theorem Progress.size_pos (ready : pass.Ready) {now : Regions δ}
    (progress : pass.Progress trail now) {object : Address} (moved : object ∈ trail.moved)
    : 0 < pass.size object := by
  obtain ⟨valid, met, moves⟩ := progress.met object moved
  exact Nat.lt_of_lt_of_le Nat.zero_lt_two
    (pass.layout.two_le_size (ready.object object valid met moves).1)

/-- No copy begins at the cursor or behind it. -/
theorem Progress.rest_eq_nil (ready : pass.Ready) {now : Regions δ}
    (progress : pass.Progress trail now) {front rest : List Address}
    (split : trail.moved = front ++ rest)
    (reached : now.destination.cursor ≤ pass.base + extent pass.size front)
    : rest = [] := by
  have cursor := progress.cursor
  cases rest with
  | nil => rfl
  | cons object rest =>
      have positive := progress.size_pos ready (show object ∈ trail.moved by simp [split])
      rw [split, extent_append] at cursor
      simp only [extent, List.map_cons, List.sum_cons] at cursor reached
      omega

/-- Below the cursor there is a copy. -/
theorem Progress.exists_copy {now : Regions δ} (progress : pass.Progress trail now)
    {front rest : List Address} (split : trail.moved = front ++ rest)
    (below : pass.base + extent pass.size front < now.destination.cursor)
    : ∃ object others,
        rest = object :: others
        ∧ object ∈ trail.moved
        ∧ pass.copyOffset trail object = pass.base + extent pass.size front := by
  have cursor := progress.cursor
  cases rest with
  | nil =>
      rw [split, List.append_nil] at cursor
      omega
  | cons object others =>
      have nodup := progress.nodup
      rw [split] at nodup
      have fresh : object ∉ front := fun member =>
        (List.nodup_append.mp nodup).2.2 object member object List.mem_cons_self rfl
      refine ⟨object, others, rfl, by simp [split], ?_⟩
      rw [copyOffset, split, offsetIn_append_cons fresh]

/-- At the cursor every copy has been scanned. -/
theorem Boundary.scanned_all (ready : pass.Ready) {now : Regions δ}
    (progress : pass.Progress trail now) {scan : Nat} {rest : List Address}
    (boundary : pass.Boundary trail now scan rest) (reached : now.destination.cursor ≤ scan)
    : ∀ object ∈ trail.moved, pass.Scanned trail now object := by
  obtain ⟨front, split, rfl, scanned⟩ := boundary.split
  obtain rfl := progress.rest_eq_nil ready split reached
  rw [List.append_nil] at split
  rwa [split]

/-- Below the cursor there is a copy to scan. -/
theorem Boundary.next {now : Regions δ} (progress : pass.Progress trail now) {scan : Nat}
    {rest : List Address} (boundary : pass.Boundary trail now scan rest)
    (below : scan < now.destination.cursor)
    : ∃ object others,
        rest = object :: others
        ∧ object ∈ trail.moved
        ∧ pass.copyOffset trail object = scan := by
  obtain ⟨front, split, rfl, -⟩ := boundary.split
  exact progress.exists_copy split below

/-- Once its first copy was scanned, scanning goes on behind it. -/
theorem Boundary.onward {now : Regions δ} {scan : Nat} {object : Address} {others : List Address}
    (boundary : pass.Boundary trail now scan (object :: others)) {later : Trail}
    {final : Site σ δ} (onward : pass.Onward kept trail now later final)
    (scanned : pass.Scanned later final.regions object)
    : ∃ rest, pass.Boundary later final.regions (scan + pass.size object) rest := by
  obtain ⟨front, split, place, before⟩ := boundary.split
  obtain ⟨more, longer⟩ := onward.grows.moved
  refine ⟨others ++ more, ⟨front ++ [object], ?_, ?_, ?_⟩⟩
  · rw [← longer, split]
    simp
  · rw [extent_append, place]
    simp only [extent, List.map_cons, List.map_nil, List.sum_cons, List.sum_nil]
    omega
  · intro other member
    rcases List.mem_append.mp member with earlier | only
    · exact (before other earlier).onward (by simp [split, earlier]) onward
    · rw [List.mem_singleton.mp only]
      exact scanned

/-- What was scanned stays so as tracing comes on. -/
theorem Boundary.grows {now : Regions δ} {scan : Nat} {rest : List Address}
    (boundary : pass.Boundary trail now scan rest) {later : Trail} {final : Site σ δ}
    (onward : pass.Onward kept trail now later final)
    : ∃ rest, pass.Boundary later final.regions scan rest := by
  obtain ⟨front, split, place, before⟩ := boundary.split
  obtain ⟨more, longer⟩ := onward.grows.moved
  refine ⟨rest ++ more, ⟨front, ?_, place, fun object member => ?_⟩⟩
  · rw [← longer, split, List.append_assoc]
  · exact (before object member).onward (by simp [split, member]) onward

/-- Scanning may go on behind a copy. -/
theorem checkNext_copy (ready : pass.Ready) (moment : pass.Moment kept trail site)
    {object : Address} (moved : object ∈ trail.moved) {scan limit : Nat}
    (place : pass.copyOffset trail object = scan) (cursor : limit = site.regions.destination.cursor)
    : Ends (Collector.checkNext pass.space limit (.pack pass.space scan)
        (.pack pass.space (scan + pass.size object))) site fun next final =>
        next = scan + pass.size object ∧ final = site := by
  have inside := moment.progress.copy_le moved
  have small := moment.progress.cursor_le ready
  have positive := moment.progress.size_pos ready moved
  have here : scan ≤ maxOffsetWords := by omega
  have behind : scan + pass.size object ≤ maxOffsetWords := by omega
  rw [Collector.checkNext, Address.space_pack _ behind, Address.offset_pack _ behind,
    Address.offset_pack _ here, if_pos ⟨rfl, by omega, by omega⟩]
  exact ⟨rfl, rfl⟩

-----------------------------------------------------------------------------------------
-- The loops
-----------------------------------------------------------------------------------------

/-- In a minor collection objects are copied behind the old ones. -/
theorem Moment.destination_of_minor (moment : pass.Moment kept trail site)
    (minor : pass.full = false)
    : site.regions.destination = site.regions.old := by
  have isFull : site.regions.target.isSome = false := moment.isFull.trans minor
  have gone : site.regions.target = none := by simpa using isFull
  simp [Regions.destination, gone]

/-- The copy at an offset can be asked for. -/
theorem Progress.copyOf_pack (ready : pass.Ready) {now : Regions δ}
    (progress : pass.Progress trail now) {object : Address} (moved : object ∈ trail.moved)
    : (pass.copyOf trail object).Decodes
      ∧ (pass.copyOf trail object).offset + pass.size object ≤ maxOffsetWords
      ∧ pass.layout.IsObject (pass.before.field object) := by
  obtain ⟨valid, met, moves⟩ := progress.met object moved
  obtain ⟨decodes, -, offset⟩ := progress.copyOf_eq ready moved
  have inside := progress.copy_le moved
  have small := progress.cursor_le ready
  exact ⟨decodes, by omega, (ready.object object valid met moves).1⟩

/-- A host that scans moving objects faithfully does so with a copy. -/
theorem scansCopy (ready : pass.Ready) {now : Regions δ} (progress : pass.Progress trail now)
    {object : Address} (moved : object ∈ trail.moved) {scan : Address → Visit σ Address} {full : Bool}
    (same : pass.full = full)
    (scans
      : ∀ object words kept,
          object.Decodes →
          object.offset + pass.layout.size words ≤ maxOffsetWords →
          pass.layout.IsObject words →
          (scan object).Scans pass.contract kept full (pass.layout.item object words)
            (· = object.add (pass.layout.size words)) fun _ => False)
    (kept : List Value)
    : (scan (.pack pass.space (pass.copyOffset trail object))).Scans pass.contract kept pass.full
        (pass.layout.item (pass.copyOf trail object) (pass.before.field object))
        (· = (pass.copyOf trail object).add (pass.size object)) fun _ => False := by
  obtain ⟨valid, bound, isObject⟩ := progress.copyOf_pack ready moved
  rw [same]
  exact scans _ _ kept valid bound isObject

/-- A minor collection scans all copies, by induction over the words behind those scanned. -/
theorem scanPromoted_scanned (ready : pass.Ready) (minor : pass.full = false)
    {host : Host σ δ} (faithful : host.Traces pass.contract) (phase : Phase)
    (objects : Nat) {scan : Nat} {rest : List Address}
    (moment : pass.Moment kept trail site)
    (boundary : pass.Boundary trail site.regions scan rest)
    (enough : site.regions.destination.words.size ≤ scan + objects)
    : Ends (Collector.scanPromoted host phase pass.space objects scan) site fun _ final =>
        ∃ later,
          pass.Onward kept trail site.regions later final
          ∧ ∀ object ∈ later.moved, pass.Scanned later final.regions object := by
  induction objects generalizing scan rest trail site with
  | zero =>
      have fits := moment.progress.fits ready
      have cursor := moment.progress.cursor
      exact ⟨trail, .refl moment, boundary.scanned_all ready moment.progress (by omega)⟩
  | succ objects ih =>
      have destination := moment.destination_of_minor minor
      simp only [Collector.scanPromoted, runs_bind, runs_get, runs_ite, ← destination]
      split_ifs with below
      · obtain ⟨object, others, rfl, moved, place⟩ := boundary.next moment.progress below
        have scans := scansCopy ready moment.progress moved minor faithful.scanMinor kept
        have positive := moment.progress.size_pos ready moved
        rw [← place]
        refine (scan_copy ready faithful phase moment moved scans).mono ?_
        rintro _ middle ⟨later, visits, rfl, scanned⟩
        have still : pass.copyOffset later object = pass.copyOffset trail object :=
          copyOffset_grows visits.grows moved
        refine (checkNext_copy ready visits.moment (visits.grows.mem moved) still
          (congrArg Semispace.cursor (visits.moment.destination_of_minor minor)).symm).mono ?_
        rintro _ _ ⟨rfl, rfl⟩
        obtain ⟨rest, further⟩ := boundary.onward visits.toOnward scanned
        rw [place]
        have size := visits.moment.progress.evolves.destinationSize
        have former := moment.progress.evolves.destinationSize
        refine (ih visits.moment further (by omega)).mono ?_
        rintro _ final ⟨last, onward, all⟩
        exact ⟨last, visits.toOnward.trans onward, all⟩
      · exact ⟨trail, .refl moment, boundary.scanned_all ready moment.progress (by omega)⟩

/-- A marked fixed object waits to be scanned or has been. -/
def Waits (pass : Pass σ δ) (trail : Trail) (now : Regions δ) : Prop :=
  ∀ begin ∈ trail.marked, begin ∈ now.unscanned ∨ pass.Filled trail now begin

/-- Visits leave every marked object waiting or scanned. -/
theorem Waits.visits {now : Regions δ} (waits : pass.Waits trail now)
    (handles : ∀ begin ∈ trail.marked, pass.HandlesObject begin) {later : Trail}
    {final : Site σ δ} (visits : pass.Visits kept trail now later final)
    : pass.Waits later final.regions := by
  intro begin marked
  rcases visits.waiting begin marked with waiting | ⟨earlier, gone⟩
  · exact Or.inl waiting
  · have filled := (waits begin earlier).resolve_left gone
    exact Or.inr (filled.onward (handles begin earlier) visits.toOnward)

/-- Taking a fixed object off the list of those to scan is coming on. -/
theorem Moment.pop (moment : pass.Moment kept trail site) (full : pass.full) {begin : Nat}
    {rest : List Nat} (listed : site.regions.unscanned = begin :: rest)
    : pass.Onward kept trail site.regions trail
        { site with regions := { site.regions with unscanned := rest } } := by
  have isFull : site.regions.isFull := moment.isFull.trans full
  have cells : ∀ space offset,
      Regions.cell { site.regions with unscanned := rest } space offset
        = site.regions.cell space offset := fun space offset => by
    cases space <;> rfl
  refine ⟨.refl trail, ⟨?_, moment.upholds, moment.roots⟩, fun space offset value _ forwarded => by
    rwa [cells]⟩
  refine moment.progress.alike (Collector.evolves_unscanned isFull listed) cells rfl rfl ?_
  intro start member
  rw [listed]
  exact List.mem_cons_of_mem _ member

/-- A full collection scans all copies and all marked objects, by induction over the words behind the
copies scanned and the fixed objects that wait or could still be marked.
-/
theorem scanSurvivors_scanned (ready : pass.Ready) (full : pass.full)
    {host : Host σ δ} (faithful : host.Traces pass.contract) (phase : Phase)
    (handles
      : ∀ trail now,
          pass.Progress trail now → ∀ begin ∈ trail.marked, pass.HandlesObject begin)
    (steps : Nat) {scan : Nat} {rest : List Address} (moment : pass.Moment kept trail site)
    (boundary : pass.Boundary trail site.regions scan rest)
    (waits : pass.Waits trail site.regions)
    (enough
      : site.regions.destination.words.size - scan + site.regions.pendingWork ≤ steps)
    : Ends (Collector.scanSurvivors host phase pass.space steps scan) site fun _ final =>
        ∃ later,
          pass.Onward kept trail site.regions later final
          ∧ (∀ object ∈ later.moved, pass.Scanned later final.regions object)
          ∧ ∀ begin ∈ later.marked, pass.Filled later final.regions begin := by
  induction steps generalizing scan rest trail site with
  | zero =>
      have fits := moment.progress.fits ready
      have cursor := moment.progress.cursor
      have none : site.regions.unscanned = [] := Regions.unscanned_eq_nil (by omega)
      refine ⟨trail, .refl moment, boundary.scanned_all ready moment.progress (by omega),
        fun begin marked => (waits begin marked).resolve_left ?_⟩
      simp [none]
  | succ steps ih =>
      simp only [Collector.scanSurvivors, runs_bind, runs_get, runs_ite]
      split_ifs with below
      · obtain ⟨object, others, rfl, moved, place⟩ := boundary.next moment.progress below
        have scans := scansCopy ready moment.progress moved full faithful.scanFull kept
        have positive := moment.progress.size_pos ready moved
        rw [← place]
        refine ((Collector.tends_runVisit host phase _).and_ends
          (scan_copy ready faithful phase moment moved scans)).mono ?_
        rintro _ middle ⟨advances, later, visits, rfl, scanned⟩
        have still : pass.copyOffset later object = pass.copyOffset trail object :=
          copyOffset_grows visits.grows moved
        refine (checkNext_copy ready visits.moment (visits.grows.mem moved) still rfl).mono ?_
        rintro _ _ ⟨rfl, rfl⟩
        obtain ⟨rest, further⟩ := boundary.onward visits.toOnward scanned
        rw [place]
        have size := advances.1.destinationSize
        have work := advances.1.work
        have waiting := waits.visits (handles trail _ moment.progress) visits
        have fits := moment.progress.fits ready
        have cursor := moment.progress.cursor
        refine (ih visits.moment further waiting (by omega)).mono ?_
        rintro _ final ⟨last, onward, all⟩
        exact ⟨last, visits.toOnward.trans onward, all⟩
      · split
        next none =>
          refine ⟨trail, .refl moment, boundary.scanned_all ready moment.progress (by omega),
            fun begin marked => (waits begin marked).resolve_left ?_⟩
          simp [none]
        next begin others listed =>
          simp only [runs_bind, Site.runs_modifyRegions]
          have pop := moment.pop full listed
          have popped := pop.moment
          have marked := moment.progress.waiting begin (by simp [listed])
          have handled := handles trail _ moment.progress begin marked
          obtain ⟨-, addr, -, -, -, covers, -⟩ := moment.progress.reached begin marked
          refine ((Collector.tends_scanFixed host phase _ begin).and_ends
            (scanFixed_filled ready faithful phase (scansFixed full faithful.scanFixedFull kept begin)
              handled popped)).mono ?_
          rintro _ middle ⟨advances, later, visits, filled⟩
          have size : middle.regions.destination.words.size
              = site.regions.destination.words.size := advances.1.destinationSize
          have work := advances.1.pendingWork_lt listed
          have onward := pop.trans visits.toOnward
          obtain ⟨rest, further⟩ := boundary.grows onward
          have waiting : pass.Waits later middle.regions := by
            intro other there
            rcases visits.waiting other there with waiting | ⟨earlier, gone⟩
            · exact Or.inl waiting
            · refine Or.inr ?_
              by_cases same : other = begin
              · rw [same]
                exact filled
              · refine ((waits other earlier).resolve_left ?_).onward
                  (handles trail _ moment.progress other earlier) onward
                rw [listed]
                simpa [same] using gone
          refine (ih visits.moment further waiting (by omega)).mono ?_
          rintro _ final ⟨last, onward', all⟩
          exact ⟨last, onward.trans onward', all⟩

end Pass

end MovingHeap
