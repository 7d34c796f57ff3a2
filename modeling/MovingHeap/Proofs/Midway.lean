import MovingHeap.Proofs.FullCollection
import MovingHeap.Proofs.MinorCollection
import MovingHeap.Proofs.Passages

/-! What holds in the middle of a collection.
Wherever a collection with a faithful host comes through while it traces, tracing has come as far as some
trail says, and what is about to be forwarded is a slot of that trail, a value that was met or what became
of one.
-/

namespace MovingHeap

variable {σ δ α : Type}

namespace Pass

/-- What is about to be forwarded was met, or became of what was met. -/
def Asks (pass : Pass σ δ) (trail : Trail) : Option Errand → Prop
  | none => True
  | some (.slot slot) => ∃ value, pass.Holds trail slot.space slot.offset value
  | some (.value value) => pass.Traced value ∨ ∃ root, pass.Became trail root value

/-- Tracing has come on from a trail to a moment with an errand. -/
def Midway (pass : Pass σ δ) (trail : Trail) (site : Site σ δ) (errand : Option Errand) : Prop :=
  ∃ kept later, trail.Grows later ∧ pass.Moment kept later site ∧ pass.Asks later errand

/-- Tracing has come to a moment of a world with an errand. -/
def Amid (pass : Pass σ δ) (origin : Heap δ) (world : World σ δ) (errand : Option Errand) : Prop :=
  ∃ kept trail, pass.Standing origin kept trail world ∧ pass.Asks trail errand

variable {pass : Pass σ δ} {origin : Heap δ} {kept : List Value} {trail : Trail} {site : Site σ δ}
  {world : World σ δ} {host : Host σ δ}

theorem Moment.midway (moment : pass.Moment kept trail site) : pass.Midway trail site none :=
  ⟨kept, trail, .refl trail, moment, trivial⟩

theorem Standing.amid (standing : pass.Standing origin kept trail world)
    : pass.Amid origin world none :=
  ⟨kept, trail, standing, trivial⟩

/-- What is midway from a later trail on is so from an earlier one. -/
theorem Midway.since {later : Trail} (grows : trail.Grows later) {errand : Option Errand}
    (midway : pass.Midway later site errand)
    : pass.Midway trail site errand := by
  obtain ⟨kept, last, further, moment, asks⟩ := midway
  exact ⟨kept, last, grows.trans further, moment, asks⟩

/-- What callbacks come through on the way, the world does. -/
theorem Standing.keeps_onSite (standing : pass.Standing origin kept trail world)
    {action : Action (Site σ δ) α} {passage : Passage action}
    (keeps : passage.Keeps world.site (pass.Midway trail))
    : passage.onSite.Keeps world (pass.Amid origin) := by
  refine Passage.keeps_onSite (keeps.mono fun site errand midway => ?_)
  obtain ⟨kept, later, grows, moment, asks⟩ := midway
  refine ⟨kept, later, ⟨moment, fun root => ?_⟩, asks⟩
  rw [rootValue_withSite]
  exact (standing.carried root).grows grows

/-- On the way of a scan, and until what was traced is left for the sweep. -/
theorem Standing.keeps_scan (standing : pass.Standing origin kept trail world)
    {action : Action (Site σ δ) Unit} {passage : Passage action}
    (keeps : passage.Keeps world.site (pass.Midway trail))
    (tends
      : Runs action world.site (fun _ final => world.site.Advances final)
          fun _ final => world.site.Advances final)
    {scanned : Trail → Unit → Site σ δ → Prop}
    (ends
      : Ends action world.site fun result final =>
          ∃ later,
            pass.Onward kept trail world.heap.regions later final ∧ scanned later result final)
    {next : Unit → Action (World σ δ) α}
    : (Passage.bind passage.onSite fun _ =>
        .bind (.step (World.enterPhase .sweeping) none) fun result => .hidden (next result)).Keeps
        world (pass.Amid origin) := by
  refine Passage.keeps_bind (standing.keeps_onSite keeps) ?_
  refine Runs.mono (standing.onSite_onward tends ends) ?_ fun _ _ => False.elim
  intro _ traced reached
  obtain ⟨later, passes, -⟩ := reached
  have left := passes.standing.enterPhase (show Phase.sweeping ≠ .idle by decide)
    (.phaseChanged traced.heap.phase .sweeping :: traced.log)
  exact Passage.keeps_step_bind passes.standing.amid
    (World.runs_enterPhase.mpr ⟨left.standing.amid, Passage.keeps_hidden⟩)

section Ready

variable (ready : pass.Ready) (faithful : host.Traces pass.contract)

include ready faithful

-----------------------------------------------------------------------------------------
-- Visits
-----------------------------------------------------------------------------------------

/-- On the way of a visit to a slot. -/
theorem keeps_visitSlot (moment : pass.Moment kept trail site) {slot : Address} {value : Value}
    (holds : pass.Holds trail slot.space slot.offset value)
    : (Collector.passVisitSlot host slot).Keeps site (pass.Midway trail) := by
  have progress := moment.progress
  have readable := progress.readable_of_holds ready holds
  have carried := progress.slots _ _ _ holds
  have traced := progress.traced_of_holds ready holds
  refine Passage.keeps_step_bind ⟨kept, trail, .refl trail, moment, value, holds⟩ ?_
  simp only [Collector.loadWord, runs_bind, runs_get, Regions.word?_eq readable,
    Site.runs_require_some]
  refine ⟨moment.midway, Passage.keeps_step_bind moment.midway ?_⟩
  refine Runs.mono (forward_carried ready moment faithful traced carried) ?_ fun _ _ => False.elim
  intro _ _ reached
  obtain ⟨later, meets, -⟩ := reached
  exact ⟨meets.moment.midway.since meets.grows, Passage.keeps_hidden⟩

/-- On the way of a faithful visit to an item, by induction over its steps. -/
theorem keeps_scans (phase : Phase) {item : Item} {space : Space} {offset : Nat}
    {original : Nat → Word} {accepted : α → Prop} {program : Visit σ α} {handled : Nat → Prop}
    (scans : program.Scans pass.contract kept pass.full item accepted handled)
    (views : pass.Views trail item space offset original) (moment : pass.Moment kept trail site)
    : (Collector.passRunVisit host phase program).Keeps site (pass.Midway trail) := by
  induction program generalizing trail site handled with
  | done result => exact Passage.keeps_step moment.midway moment.midway
  | getHost next ih =>
      exact Passage.keeps_step_bind moment.midway
        ⟨moment.midway, ih site.host (scans site.host moment.upholds moment.roots) views moment⟩
  | setHost state next ih =>
      obtain ⟨upholds, roots, rest⟩ := scans
      have set : pass.Moment kept trail { site with host := state } :=
        ⟨moment.progress, upholds, roots⟩
      exact Passage.keeps_step_bind moment.midway ⟨set.midway, ih rest views set⟩
  | note line next ih =>
      have logged : pass.Moment kept trail { site with log := .note line :: site.log } :=
        ⟨moment.progress, moment.upholds, moment.roots⟩
      exact Passage.keeps_step_bind moment.midway ⟨logged.midway, ih scans views logged⟩
  | isFull next ih =>
      have rest : (next site.regions.isFull).Scans pass.contract kept pass.full item accepted
          handled := by
        rw [moment.isFull]
        exact scans
      exact Passage.keeps_step_bind moment.midway ⟨moment.midway, ih _ rest views moment⟩
  | load addr next ih =>
      obtain ⟨index, inside, rfl, rest⟩ := scans
      refine Passage.keeps_step_bind moment.midway ?_
      simp only [Collector.loadWord, runs_bind, runs_get,
        views.word?_eq ready moment.progress inside, Site.runs_require_some]
      exact ⟨moment.midway, ih _ (rest _ (views.word moment.progress inside)) views moment⟩
  | words addr count next ih =>
      obtain ⟨first, rfl, inside, rest⟩ := scans
      obtain ⟨list, read, length, cells⟩ := views.slice?_eq ready moment.progress inside
      refine Passage.keeps_step_bind moment.midway
        ⟨moment.midway, Passage.keeps_step_bind moment.midway ?_⟩
      simp only [read, Site.runs_require_some]
      refine ⟨moment.midway, ih _ (rest list length fun index within plain => ?_) views moment⟩
      rw [cells index within]
      exact views.word moment.progress (by omega) plain
  | visitSlot slot next ih =>
      obtain ⟨index, isSlot, rfl, rest⟩ := scans
      obtain ⟨inSpace, atOffset⟩ := views.located (Nat.le_of_lt (views.slot_lt index isSlot))
      have holds := views.slots index isSlot
      rw [← inSpace, ← atOffset] at holds
      refine Passage.keeps_bind (keeps_visitSlot ready faithful moment holds) ?_
      refine Runs.mono (views.visitSlot ready moment faithful isSlot) ?_ fun _ _ => False.elim
      intro _ middle reached
      obtain ⟨later, visits, -⟩ := reached
      exact (ih rest (views.grows visits.grows) visits.moment).mono
        fun _ _ => Midway.since visits.grows
  | visitValue value next ih => exact scans.elim
  | allocate => exact scans.elim
  | collect => exact scans.elim
  | fail violation => exact scans.elim

/-- On the way of a visit that forwards the roots of the host, by induction over its steps. -/
theorem keeps_forwardsRoots (phase : Phase) {initial : List Value}
    (traced : ∀ root ∈ initial, pass.Traced root) {program : Visit σ Unit} {current : List Value}
    {answers : List (Value × Value)}
    (forwards : program.ForwardsRoots pass.contract pass.full initial current answers)
    (moment : pass.Moment current trail site)
    (became : ∀ root moved, (root, moved) ∈ answers → pass.Became trail root moved)
    : (Collector.passRunVisit host phase program).Keeps site (pass.Midway trail) := by
  induction program generalizing trail site current answers with
  | done result => exact Passage.keeps_step moment.midway moment.midway
  | getHost next ih =>
      exact Passage.keeps_step_bind moment.midway
        ⟨moment.midway, ih site.host (forwards site.host moment.upholds moment.roots) moment became⟩
  | setHost state next ih =>
      obtain ⟨upholds, rest⟩ := forwards
      have set : pass.Moment (pass.contract.roots state) trail { site with host := state } :=
        ⟨moment.progress, upholds, rfl⟩
      exact Passage.keeps_step_bind moment.midway ⟨set.midway, ih rest set became⟩
  | note line next ih =>
      have logged : pass.Moment current trail { site with log := .note line :: site.log } :=
        ⟨moment.progress, moment.upholds, moment.roots⟩
      exact Passage.keeps_step_bind moment.midway ⟨logged.midway, ih forwards logged became⟩
  | isFull next ih =>
      have rest : (next site.regions.isFull).ForwardsRoots pass.contract pass.full initial current
          answers := by
        rw [moment.isFull]
        exact forwards
      exact Passage.keeps_step_bind moment.midway ⟨moment.midway, ih _ rest moment became⟩
  | visitValue value next ih =>
      obtain ⟨known, rest⟩ := forwards
      have knows := known_of_asked became traced known
      refine Passage.keeps_step_bind ⟨current, trail, .refl trail, moment, knows⟩ ?_
      refine Runs.mono (forward_became ready moment faithful knows) ?_ fun _ _ => False.elim
      intro moved middle reached
      obtain ⟨later, visits, result, -⟩ := reached
      refine ⟨visits.moment.midway.since visits.grows, ?_⟩
      refine (ih moved (rest moved ?_ ?_) visits.moment
        (became_cons became visits.grows result)).mono fun _ _ => Midway.since visits.grows
      · intro earlier answered
        exact ((became value earlier answered).grows visits.grows).unique result
      · rintro ⟨root, answered⟩
        exact ((became root value answered).grows visits.grows).stays result
  | load addr next ih => exact forwards.elim
  | words addr count next ih => exact forwards.elim
  | visitSlot slot next ih => exact forwards.elim
  | allocate => exact forwards.elim
  | collect => exact forwards.elim
  | fail violation => exact forwards.elim

/-- On the way of a visit to a fixed object. -/
theorem keeps_scanFixed (phase : Phase) {scan : Address → Nat → Visit σ Unit} {begin : Nat}
    (scans
      : ∀ words,
          begin + words ≤ maxOffsetWords →
          (scan (.pack .fixed begin) words).Scans pass.contract kept pass.full
            (.payload (.pack .fixed begin) words) (fun _ => True) fun _ => False)
    (handles : pass.HandlesObject begin) (moment : pass.Moment kept trail site)
    : (Collector.passScanFixed host phase scan begin).Keeps site (pass.Midway trail) := by
  refine Passage.keeps_step_bind moment.midway ⟨moment.midway, ?_⟩
  have alike := FixedSpace.occupant?_alike moment.progress.evolves.slots begin
  generalize site.regions.fixed.occupant? begin = present at alike ⊢
  cases present with
  | some occupant =>
      rw [Option.map_some, eq_comm, Option.map_eq_some_iff] at alike
      obtain ⟨before, found, same⟩ := alike
      have words : before.words = occupant.words := (congrArg Occupant.words same :)
      have views := views_payload trail ready found handles
      have bound := views.small
      rw [words] at views bound
      exact keeps_scans ready faithful phase (scans occupant.words bound) views moment
  | none => exact Passage.keeps_step moment.midway moment.midway

-----------------------------------------------------------------------------------------
-- Loops
-----------------------------------------------------------------------------------------

/-- On the way of visits to recorded slots, one after another. -/
theorem keeps_visitRemembered (words : List Word)
    (handles
      : ∀ raw ∈ words, ∃ slot : Address, slot.raw = raw ∧ slot.Decodes
          ∧ pass.handles slot.space slot.offset)
    (moment : pass.Moment kept trail site)
    : (Collector.passVisitRemembered host words).Keeps site (pass.Midway trail) := by
  induction words generalizing trail site with
  | nil => exact Passage.keeps_step moment.midway moment.midway
  | cons raw words ih =>
      obtain ⟨slot, rfl, valid, handled⟩ := handles raw List.mem_cons_self
      have decoded : Address.ofRaw? slot.raw = some slot := valid
      refine Passage.keeps_step_bind moment.midway ?_
      simp only [decoded, Site.runs_require_some]
      refine ⟨moment.midway,
        Passage.keeps_bind (keeps_visitSlot ready faithful moment (.stayed handled)) ?_⟩
      refine Runs.mono (visitSlot_holds ready moment faithful (.stayed handled)) ?_
        fun _ _ => False.elim
      intro _ middle reached
      obtain ⟨later, visits, -⟩ := reached
      exact (ih (fun other member => handles other (List.mem_cons_of_mem _ member))
        visits.moment).mono fun _ _ => Midway.since visits.grows

/-- On the way of visits to fixed objects in a minor collection, one after another. -/
theorem keeps_scanFixedList (minor : pass.full = false) (phase : Phase) (starts : List Nat)
    (handles : ∀ begin ∈ starts, pass.HandlesObject begin) (moment : pass.Moment kept trail site)
    : (Collector.passScanFixedList host phase host.scanFixedMinor starts).Keeps site
        (pass.Midway trail) := by
  induction starts generalizing trail site with
  | nil => exact Passage.keeps_step moment.midway moment.midway
  | cons begin starts ih =>
      have scans := scansFixed minor faithful.scanFixedMinor kept begin
      have handled := handles begin List.mem_cons_self
      refine Passage.keeps_bind (keeps_scanFixed ready faithful phase scans handled moment) ?_
      refine Runs.mono (scanFixed_filled ready faithful phase scans handled moment) ?_
        fun _ _ => False.elim
      intro _ middle reached
      obtain ⟨later, visits, -⟩ := reached
      exact (ih (fun other member => handles other (List.mem_cons_of_mem _ member))
        visits.moment).mono fun _ _ => Midway.since visits.grows

/-- On the way of a visit to a copy, and of what comes behind that copy. -/
theorem keeps_scanCopy (phase : Phase) (moment : pass.Moment kept trail site) {object : Address}
    (moved : object ∈ trail.moved) {scan : Nat} (place : pass.copyOffset trail object = scan)
    {program : Visit σ Address}
    (scans
      : program.Scans pass.contract kept pass.full
          (pass.layout.item (pass.copyOf trail object) (pass.before.field object))
          (· = (pass.copyOf trail object).add (pass.size object)) fun _ => False)
    {limit : Site σ δ → Nat}
    (cursor
      : ∀ {later now}, pass.Moment kept later now → limit now = now.regions.destination.cursor)
    {next : Nat → Action (Site σ δ) α} {rest : ∀ scan, Passage (next scan)}
    (further
      : ∀ later middle,
          pass.Visits kept trail site.regions later middle →
          pass.Scanned later middle.regions object →
          (rest (scan + pass.size object)).Keeps middle (pass.Midway later))
    : (Passage.bind (Collector.passRunVisit host phase program) fun address =>
        .bind (.step get none) fun now =>
          .bind
            (.step (Collector.checkNext pass.space (limit now) (.pack pass.space scan) address) none)
            rest).Keeps site (pass.Midway trail) := by
  have views := views_copy ready moment.progress moved
  refine Passage.keeps_bind (keeps_scans ready faithful phase scans views moment) ?_
  refine Runs.mono (scan_copy ready faithful phase moment moved scans) ?_ fun _ _ => False.elim
  intro _ middle reached
  obtain ⟨later, visits, rfl, scanned⟩ := reached
  have there : pass.copyOffset later object = scan := (copyOffset_grows visits.grows moved).trans place
  have checks := checkNext_copy ready visits.moment (visits.grows.mem moved) there
    (cursor visits.moment)
  rw [place]
  have midway := visits.moment.midway
  have onward : (Passage.bind (.step get none) fun now : Site σ δ =>
      Passage.bind
        (.step (Collector.checkNext pass.space (limit now) (.pack pass.space scan)
          (.pack pass.space (scan + pass.size object))) none) rest).Keeps middle
      (pass.Midway later) := by
    refine Passage.keeps_step_bind midway ⟨midway, Passage.keeps_step_bind midway ?_⟩
    refine Runs.mono checks ?_ fun _ _ => False.elim
    intro _ _ same
    obtain ⟨rfl, rfl⟩ := same
    exact ⟨midway, further later _ visits scanned⟩
  exact onward.mono fun _ _ => Midway.since visits.grows

/-- On the way of a scan of promoted objects, by induction over the steps that are allowed. -/
theorem keeps_scanPromoted (minor : pass.full = false) (phase : Phase) (objects : Nat) {scan : Nat}
    {rest : List Address} (moment : pass.Moment kept trail site)
    (boundary : pass.Boundary trail site.regions scan rest)
    : (Collector.passScanPromoted host phase pass.space objects scan).Keeps site
        (pass.Midway trail) := by
  induction objects generalizing scan rest trail site with
  | zero => exact Passage.keeps_step moment.midway moment.midway
  | succ objects ih =>
      have midway := moment.midway
      refine Passage.keeps_step_bind midway ⟨midway, Passage.keeps_ite (fun below => ?_) fun _ =>
        Passage.keeps_step midway midway⟩
      rw [← moment.destination_of_minor minor] at below
      obtain ⟨object, others, rfl, moved, place⟩ := boundary.next moment.progress below
      have scans := scansCopy ready moment.progress moved minor faithful.scanMinor kept
      rw [place] at scans
      refine keeps_scanCopy ready faithful phase moment moved place scans
        (fun now => congrArg Semispace.cursor (now.destination_of_minor minor).symm)
        fun later middle visits scanned => ?_
      obtain ⟨_, further⟩ := boundary.onward visits.toOnward scanned
      exact ih visits.moment further

/-- On the way of a scan of survivors, by induction over the steps that are allowed. -/
theorem keeps_scanSurvivors (full : pass.full) (phase : Phase)
    (handles
      : ∀ trail now,
          pass.Progress trail now → ∀ begin ∈ trail.marked, pass.HandlesObject begin)
    (steps : Nat) {scan : Nat} {rest : List Address} (moment : pass.Moment kept trail site)
    (boundary : pass.Boundary trail site.regions scan rest)
    : (Collector.passScanSurvivors host phase pass.space steps scan).Keeps site
        (pass.Midway trail) := by
  induction steps generalizing scan rest trail site with
  | zero => exact Passage.keeps_step moment.midway moment.midway
  | succ steps ih =>
      have midway := moment.midway
      refine Passage.keeps_step_bind midway ⟨midway, Passage.keeps_ite (fun below => ?_) fun _ => ?_⟩
      · obtain ⟨object, others, rfl, moved, place⟩ := boundary.next moment.progress below
        have scans := scansCopy ready moment.progress moved full faithful.scanFull kept
        rw [place] at scans
        refine keeps_scanCopy ready faithful phase moment moved place scans (fun _ => rfl)
          fun later middle visits scanned => ?_
        obtain ⟨_, further⟩ := boundary.onward visits.toOnward scanned
        exact ih visits.moment further
      · generalize listed : site.regions.unscanned = waiting
        cases waiting with
        | nil => exact Passage.keeps_step midway midway
        | cons begin others =>
            have pop := moment.pop full listed
            have handled := handles trail _ moment.progress begin
              (moment.progress.waiting begin (by simp [listed]))
            have scans := scansFixed full faithful.scanFixedFull kept begin
            refine Passage.keeps_step_bind midway
              ⟨pop.moment.midway,
                Passage.keeps_bind (keeps_scanFixed ready faithful phase scans handled pop.moment) ?_⟩
            refine Runs.mono (scanFixed_filled ready faithful phase scans handled pop.moment) ?_
              fun _ _ => False.elim
            intro _ middle reached
            obtain ⟨later, visits, -⟩ := reached
            obtain ⟨_, further⟩ := boundary.grows (pop.trans visits.toOnward)
            exact (ih visits.moment further).mono fun _ _ => Midway.since visits.grows

-----------------------------------------------------------------------------------------
-- Roots
-----------------------------------------------------------------------------------------

/-- On the way of a visit to a root. -/
theorem keeps_visitRoot (standing : pass.Standing origin kept trail world) {root : Root}
    (traced : pass.Traced (origin.rootValue root))
    : (Collector.passVisitRoot host root).Keeps world (pass.Amid origin) := by
  refine Passage.keeps_step_bind standing.amid
    ⟨standing.amid, Passage.keeps_step_bind standing.amid ?_⟩
  rw [World.runs_onSite]
  refine Runs.mono (forward_carried ready standing.moment faithful traced (standing.carried root)) ?_
    fun _ _ => False.elim
  intro _ site reached
  obtain ⟨later, meets, -⟩ := reached
  refine ⟨⟨kept, later, ⟨meets.moment, fun other => ?_⟩, trivial⟩, Passage.keeps_hidden⟩
  rw [rootValue_withSite]
  exact (standing.carried other).grows meets.grows

/-- On the way of visits to roots, one after another. -/
theorem keeps_visitRoots (traced : ∀ root, pass.Traced (origin.rootValue root))
    (roots : List Root) (standing : pass.Standing origin kept trail world)
    : (Collector.passVisitRoots host roots).Keeps world (pass.Amid origin) := by
  induction roots generalizing trail world with
  | nil => exact Passage.keeps_step standing.amid standing.amid
  | cons root roots ih =>
      refine Passage.keeps_bind (keeps_visitRoot ready faithful standing (traced root)) ?_
      refine Runs.mono (visitRoot_forwards ready standing faithful (traced root)) ?_
        fun _ _ => False.elim
      intro _ _ reached
      obtain ⟨later, proceeds, -⟩ := reached
      exact ih proceeds.standing

/-- On the way of visits to the roots of one more kind, and of what comes behind them. -/
theorem Gathers.keeps_visitKind {begun : World σ δ} {fresh : List Nat} {kinds : List RootKind}
    {cells : Space → Nat → Prop}
    (gathers : pass.Gathers origin begun kept fresh kinds cells trail world) (kind : RootKind)
    (traced : ∀ root, pass.Traced (origin.rootValue root)) {list : Heap δ → List Root}
    (covers
      : ∀ root,
          root.kind = kind →
          world.heap.rootValue root ≠ .null →
          root ∈ list world.heap ∨ ∀ later, pass.Still later (origin.rootValue root))
    {next : Action (World σ δ) α} {rest : Passage next}
    (further
      : ∀ later final,
          pass.Gathers origin begun kept fresh (kind :: kinds) cells later final →
          rest.Keeps final (pass.Amid origin))
    : (Passage.bind (.step World.heapNow none) fun heap =>
        .bind (Collector.passVisitRoots host (list heap)) fun _ => rest).Keeps world
        (pass.Amid origin) := by
  have standing := gathers.standing
  refine Passage.keeps_step_bind standing.amid
    ⟨standing.amid, Passage.keeps_bind (keeps_visitRoots ready faithful traced _ standing) ?_⟩
  refine Runs.mono (gathers.visitKind ready faithful kind traced covers) ?_ fun _ _ => False.elim
  intro _ final reached
  obtain ⟨later, gathered⟩ := reached
  exact further later final gathered

/-- On the way of a visit to the roots that the host keeps itself. -/
theorem keeps_visitHost (standing : pass.Standing origin kept trail world)
    {program : Visit σ Unit}
    (forwards : program.ForwardsRoots pass.contract pass.full kept kept [])
    (traced : ∀ root ∈ kept, pass.Traced root)
    : (Collector.passVisit host program).Keeps world (pass.Amid origin) :=
  Passage.keeps_step_bind standing.amid
    ⟨standing.amid,
      standing.keeps_onSite
        (keeps_forwardsRoots ready faithful world.heap.phase traced forwards standing.moment nofun)⟩

end Ready

-----------------------------------------------------------------------------------------
-- Minor collections
-----------------------------------------------------------------------------------------

section Minor

variable {contract : Contract σ} (sound : world.Sound contract) (addressable : world.Addressable)
  (faithful : host.Traces contract)

include sound addressable faithful

/-- On the way of visits to all that a minor collection starts from. -/
theorem keeps_visitMinorRoots {begun : World σ δ}
    (same : begun = { heap := Collector.minorStart world.heap, host := world.host, log := begun.log })
    : (Collector.passVisitMinorRoots host).Keeps begun
        ((ofMinor contract world).Amid world.heap) := by
  have ready := ready_ofMinor sound addressable
  have traced : ∀ root, (ofMinor contract world).Traced (world.heap.rootValue root) :=
    fun root => .start (.rooted (.root root))
  have watermark : begun.heap.modules.watermark = world.heap.modules.watermark := by rw [same]; rfl
  have dirty : begun.heap.constants.dirty = world.heap.constants.dirty := by rw [same]; rfl
  have started := gathers_ofMinor sound addressable same
  refine started.keeps_visitKind ready faithful .slot traced
    (fun root => covers_ofMinor sound watermark dirty started.comes root) fun _ _ slots => ?_
  refine slots.keeps_visitKind ready faithful .pending traced
    (fun root => covers_ofMinor sound watermark dirty slots.comes root) fun _ now pending => ?_
  have handles := remembered_handled sound pending.standing.moment.progress
  refine Passage.keeps_step_bind pending.standing.amid ⟨pending.standing.amid,
    Passage.keeps_bind (pending.standing.keeps_onSite
      (keeps_visitRemembered ready faithful _ handles pending.standing.moment)) ?_⟩
  refine Runs.mono (visitRemembered_gathers sound ready faithful pending) ?_ fun _ _ => False.elim
  intro _ _ reached
  obtain ⟨_, recorded⟩ := reached
  refine recorded.keeps_visitKind ready faithful .module traced
    (fun root => covers_ofMinor sound watermark dirty recorded.comes root) fun _ _ modules => ?_
  refine modules.keeps_visitKind ready faithful .constant traced
    (fun root => covers_ofMinor sound watermark dirty modules.comes root)
    fun trail middle constants => ?_
  have cleared := constants.standing.moment.clearFresh
  have standing : (ofMinor contract world).Standing world.heap (contract.roots world.host) trail
      { middle with
        heap := { middle.heap with
          regions := { middle.heap.regions with fixed := middle.heap.regions.fixed.clearFresh } } } :=
    ⟨cleared.moment, fun root => by cases root <;> exact constants.standing.carried _⟩
  refine Passage.keeps_step_bind constants.standing.amid ⟨constants.standing.amid,
    Passage.keeps_step_bind constants.standing.amid ⟨standing.amid,
      Passage.keeps_step_bind standing.amid ⟨standing.amid,
        Passage.keeps_bind (standing.keeps_onSite (keeps_scanFixedList ready faithful
          (full_ofMinor sound) _ _ (fresh_handled constants.recent) standing.moment)) ?_⟩⟩⟩
  refine Runs.mono (scanFresh_gathers sound ready faithful _ constants) ?_ fun _ _ => False.elim
  intro _ _ reached
  obtain ⟨_, fresh⟩ := reached
  have forwards := faithful.extraMinorRoots (contract.roots world.host)
  rw [← full_ofMinor sound] at forwards
  exact keeps_visitHost ready faithful fresh.standing forwards
    fun root member => .start (.rooted (.kept member))

/-- On the way of a minor collection while it traces. -/
theorem keeps_minor (reason : Reason)
    : (Collector.passMinor host reason).Keeps world ((ofMinor contract world).Amid world.heap) := by
  have ready := ready_ofMinor sound addressable
  have destination := destination_ofMinor sound
  refine Passage.keeps_bind Passage.keeps_hidden ?_
  simp only [Collector.nextId, runs_bind, runs_pure, World.runs_heapNow, World.runs_modifyHeap]
  refine Passage.keeps_bind Passage.keeps_hidden (World.runs_heapNow.mpr ?_)
  refine Passage.keeps_bind Passage.keeps_hidden (World.runs_modifyRegions.mpr ?_)
  refine Passage.keeps_bind Passage.keeps_hidden (World.runs_enterPhase.mpr ?_)
  refine Passage.keeps_bind (keeps_visitMinorRoots sound addressable faithful rfl) ?_
  refine Runs.mono (visitMinorRoots_visited sound addressable faithful rfl) ?_ fun _ _ => False.elim
  intro _ middle reached
  obtain ⟨trail, visited, -⟩ := reached
  have entered := visited.standing.enterPhase (show Phase.relocating ≠ .idle by decide)
    (.phaseChanged middle.heap.phase .relocating :: middle.log)
  refine Passage.keeps_step_bind visited.standing.amid
    (World.runs_enterPhase.mpr ⟨entered.standing.amid, ?_⟩)
  have standing := entered.standing
  have scans := keeps_scanPromoted ready faithful (full_ofMinor sound) .relocating
    world.heap.regions.old.free standing.moment (.initial trail _)
  have ends := scanPromoted_scanned ready (full_ofMinor sound) faithful .relocating
    world.heap.regions.old.free standing.moment (.initial trail _) ?_
  · rw [Pass.space, Pass.base, destination] at scans ends
    exact standing.keeps_scan scans (Collector.tends_scanPromoted host _ _ _ _ _) ends
  · rw [standing.moment.progress.evolves.destinationSize, destination, Pass.base, destination,
      Semispace.free, Semispace.capacity]
    omega

end Minor

-----------------------------------------------------------------------------------------
-- Full collections
-----------------------------------------------------------------------------------------

section Full

variable {contract : Contract σ} (collectable : world.Collectable contract)
  (addressable : world.Addressable) (faithful : host.Traces contract)

include collectable addressable faithful

/-- On the way of visits to all that a full collection starts from. -/
theorem keeps_visitFullRoots {words : Arena}
    (mapped : host.mapper.map? (Collector.targetWords world.heap) = some words) {begun : World σ δ}
    (same
      : begun
        = { heap := Collector.fullStart world.heap words
            host := (host.beforeFull world.host).host
            log := begun.log })
    : (Collector.passVisitFullRoots host).Keeps begun
        ((ofFull contract world words).Amid world.heap) := by
  have ready := ready_ofFull collectable addressable mapped
  have traced : ∀ root, (ofFull contract world words).Traced (world.heap.rootValue root) :=
    fun root => .start (.root root)
  have started := gathers_ofFull collectable addressable mapped faithful same
  refine started.keeps_visitKind ready faithful .slot traced covers_ofFull fun _ _ slots => ?_
  refine slots.keeps_visitKind ready faithful .pending traced covers_ofFull fun _ _ pending => ?_
  refine pending.keeps_visitKind ready faithful .module traced covers_ofFull fun _ _ modules => ?_
  refine modules.keeps_visitKind ready faithful .constant traced covers_ofFull
    fun _ _ constants => ?_
  exact keeps_visitHost ready faithful constants.standing
    (faithful.extraFullRoots (contract.roots world.host)) fun root member => .start (.kept member)

/-- On the way of a full collection while it traces. -/
theorem keeps_full (reason : Reason)
    : (Collector.passFull host reason).Keeps world fun state errand =>
        ∃ words,
          host.mapper.map? (Collector.targetWords world.heap) = some words
          ∧ (ofFull contract world words).Amid world.heap state errand := by
  refine Passage.keeps_bind Passage.keeps_hidden ?_
  simp only [Collector.nextId, runs_bind, runs_pure, World.runs_heapNow, World.runs_modifyHeap]
  refine Passage.keeps_bind Passage.keeps_hidden ?_
  simp only [Collector.callHook, runs_bind, runs_get, World.runs_onSite, Site.runs_accept]
  refine Passage.keeps_bind Passage.keeps_hidden (World.runs_heapNow.mpr ?_)
  refine Passage.keeps_bind Passage.keeps_hidden (World.runs_enterPhase.mpr ?_)
  refine Passage.keeps_bind Passage.keeps_hidden ?_
  simp only [Collector.openTarget, runs_bind, runs_pure, World.runs_heapNow, World.runs_require]
  split
  next words mapped =>
    simp only [World.runs_modifyRegions]
    have ready := ready_ofFull collectable addressable mapped
    refine Passage.Keeps.mono ?_ fun state errand
      (amid : (ofFull contract world words).Amid world.heap state errand) => ⟨words, mapped, amid⟩
    refine Passage.keeps_bind
      (keeps_visitFullRoots collectable addressable faithful mapped rfl) ?_
    refine Runs.mono (visitFullRoots_visited collectable addressable mapped faithful rfl) ?_
      fun _ _ => False.elim
    intro _ middle reached
    obtain ⟨trail, visited, comes, waiting⟩ := reached
    have entered := visited.standing.enterPhase (show Phase.relocating ≠ .idle by decide)
      (.phaseChanged middle.heap.phase .relocating :: middle.log)
    have standing := entered.standing
    refine Passage.keeps_step_bind visited.standing.amid
      (World.runs_enterPhase.mpr ⟨standing.amid, ?_⟩)
    have scans := keeps_scanSurvivors ready faithful full_ofFull .relocating
      (fun _ _ progress _ marked => (handles_ofFull progress marked).2)
      ((Collector.fullTarget world.heap words).capacity + world.heap.regions.fixed.slots.length)
      standing.moment (.initial trail _)
    have ends := scanSurvivors_scanned ready full_ofFull faithful .relocating
      (fun _ _ progress _ marked => (handles_ofFull progress marked).2)
      ((Collector.fullTarget world.heap words).capacity + world.heap.regions.fixed.slots.length)
      standing.moment (.initial trail _) (fun begin marked => Or.inl (waiting begin marked))
      (Collector.steps_traceFull collectable.regular mapped rfl comes).2
    have isFull : middle.heap.regions.isFull := comes.regions.isFull
    exact standing.keeps_scan scans (Collector.runs_scanSurvivors host _ _ _ _ isFull) ends
  next => trivial

end Full

end Pass

end MovingHeap
