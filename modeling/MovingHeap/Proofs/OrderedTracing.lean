import MovingHeap.Proofs.FullCollection
import MovingHeap.Proofs.OrderedVisits

/-! The order in which a full collection traces.
What it comes upon depends on the graph of objects and the order of visits alone: the values that roots
hold, then those in the slots of the objects moved, the first one first, and whenever all of these were
scanned, the words of the fixed object marked last.
-/

namespace MovingHeap

variable {σ δ : Type}

namespace Regions

/-- The values in the slots of a moving object, in the order of visits. -/
def slotValues {layout : Layout} (order : VisitingOrder layout) (regions : Regions δ)
    (object : Address)
    : List Value :=
  (order.slots (regions.field object)).map fun index => ⟨regions.field object index⟩

/-- The values in the words of a fixed object, in the order of visits. -/
def payloadValues {layout : Layout} (order : VisitingOrder layout) (regions : Regions δ)
    (begin : Nat) (occupant : Occupant δ)
    : List Value :=
  (order.payload (.pack .fixed begin) occupant.words).map fun index =>
    ⟨regions.cell .fixed (begin + index)⟩

/-- Scanning leads from one moment to the last: as many of the objects moved were scanned, and the next
one is scanned first. Whenever all were, the fixed object marked last is.
-/
inductive Traverses {layout : Layout} (order : VisitingOrder layout) (regions : Regions δ)
    : Nat → Tour → Tour → Prop where
  | done {scanned : Nat} {tour : Tour} (all : tour.moved.length ≤ scanned)
      (none : tour.waiting = [])
      : Traverses order regions scanned tour tour
  | moved {scanned : Nat} {tour final : Tour} {object : Address}
      (next : tour.moved[scanned]? = some object)
      (rest
        : Traverses order regions (scanned + 1)
            ((regions.slotValues order object).foldl (regions.meet true) tour) final)
      : Traverses order regions scanned tour final
  | marked {scanned : Nat} {tour final : Tour} {begin : Nat} {others : List Nat}
      {occupant : Occupant δ} (all : tour.moved.length ≤ scanned)
      (waits : tour.waiting = begin :: others)
      (found : regions.fixed.occupant? begin = some occupant)
      (rest
        : Traverses order regions scanned
            ((regions.payloadValues order begin occupant).foldl (regions.meet true)
              { tour with waiting := others })
            final)
      : Traverses order regions scanned tour final

end Regions

namespace Pass

variable {pass : Pass σ δ} {kept : List Value} {trail : Trail} {site : Site σ δ}
  {regions : Regions δ}

/-- In a full collection the memory it began with tells what is to be done about a value. -/
theorem Opens.meet (opens : pass.Opens regions) (full : pass.full)
    : pass.meet = regions.meet true := by
  funext tour value
  simp only [Pass.meet, Regions.meet, opens.moves, opens.forgets, opens.fixed, full]

section Loop

variable {order : VisitingOrder pass.layout}

/-- Scanning a copy comes upon the values that the slots of the object held. -/
theorem scan_copy_inOrder (ready : pass.Ready) (full : pass.full) (opens : pass.Opens regions)
    {host : Host σ δ} (faithful : host.Traces pass.contract) (phase : Phase)
    (moment : pass.Moment kept trail site) {object : Address} (moved : object ∈ trail.moved)
    {program : Visit σ Address}
    (inOrder
      : program.InOrder pass.contract kept
          (pass.layout.item (pass.copyOf trail object) (pass.before.field object))
          (fun _ => False) (order.slots (pass.before.field object)))
    : Ends (Collector.runVisit host phase program) site fun _ final =>
        ∃ later,
          pass.Tours kept trail site.regions (regions.slotValues order object) later final := by
  have views := views_copy ready moment.progress moved
  obtain ⟨valid, met, moves⟩ := moment.progress.met object moved
  have isObject := (ready.object object valid met moves).1
  have moving : regions.moves true object.space := by
    rw [← opens.moves]
    rwa [Pass.moves, full] at moves
  have visits := runVisit_inOrder ready full faithful phase inOrder views moment
    (fun index listed => order.isSlot isObject listed) fun _ _ known => known.elim
  rwa [opens.field moving] at visits

/-- Scanning a fixed object that was marked comes upon the values of its words. -/
theorem scanFixed_inOrder (ready : pass.Ready) (full : pass.full) (opens : pass.Opens regions)
    {host : Host σ δ} (faithful : host.Traces pass.contract) (phase : Phase)
    {scan : Address → Nat → Visit σ Unit} {begin : Nat} {occupant : Occupant δ}
    (inOrder
      : ∀ words,
          begin + words ≤ maxOffsetWords →
          (scan (.pack .fixed begin) words).InOrder pass.contract kept
            (.payload (.pack .fixed begin) words) (fun _ => False)
            (order.payload (.pack .fixed begin) words))
    (found : pass.before.fixed.occupant? begin = some occupant)
    (handles : pass.HandlesObject begin) (moment : pass.Moment kept trail site)
    : Ends (Collector.scanFixed host phase scan begin) site fun _ final =>
        ∃ later,
          pass.Tours kept trail site.regions (regions.payloadValues order begin occupant) later
            final := by
  obtain ⟨marked, here⟩ := moment.progress.occupant found
  have views := views_payload trail ready found handles
  simp only [Collector.scanFixed, runs_bind, runs_get, here]
  have visits := runVisit_inOrder ready full faithful phase (inOrder occupant.words views.small)
    views moment (fun index listed => order.inside listed) fun _ _ known => known.elim
  simpa only [Regions.payloadValues, opens.cell (.inr rfl)] using visits

section Steps

variable (ready : pass.Ready) (full : pass.full) (opens : pass.Opens regions) {host : Host σ δ}
  (faithful : host.Traces pass.contract) (follows : host.Follows pass.contract order)
  (phase : Phase)
include ready full opens faithful follows

/-- Scanning the next copy comes upon the values that the slots of its object held and answers the place
behind it.
-/
theorem scan_nextCopy (moment : pass.Moment kept trail site) {object : Address}
    (moved : object ∈ trail.moved)
    : Ends
        (Collector.runVisit host phase
          (host.scanFull (.pack pass.space (pass.copyOffset trail object)))) site fun next final =>
        site.Advances final
        ∧ ∃ later,
            pass.Tours kept trail site.regions (regions.slotValues order object) later final
            ∧ next = .pack pass.space (pass.copyOffset later object + pass.size object) := by
  obtain ⟨valid, bound, isObject⟩ := moment.progress.copyOf_pack ready moved
  have scans := faithful.scanFull _ _ kept valid bound isObject
  have inOrder := follows.scanFull _ _ kept valid bound isObject
  rw [← full] at scans
  have visits := ((scan_copy ready faithful phase moment moved scans).and
    (scan_copy_inOrder ready full opens faithful phase moment moved inOrder)).mono
    (fun _ _ => id) fun _ _ => And.left
  refine ((Collector.tends_runVisit host phase _).and_ends visits).mono ?_
  rintro next final ⟨advances, ⟨_, -, answered, -⟩, later, tours⟩
  exact ⟨advances, later, tours, by rw [answered, copyOffset_grows tours.grows moved]⟩

/-- Scanning the fixed object that waits first comes upon the values of its words. -/
theorem scan_nextFixed (moment : pass.Moment kept trail site) {begin : Nat} {others : List Nat}
    (handles : pass.HandlesObject begin) (listed : site.regions.unscanned = begin :: others)
    : ∃ occupant,
        regions.fixed.occupant? begin = some occupant
        ∧ Ends (Collector.scanFixed host phase host.scanFixedFull begin)
            { site with regions := { site.regions with unscanned := others } } fun _ final =>
            Regions.Evolves { site.regions with unscanned := others } final.regions
            ∧ ∃ later,
                pass.Tours kept trail { site.regions with unscanned := others }
                  (regions.payloadValues order begin occupant) later final := by
  have popped := (moment.pop full listed).moment
  have marked := moment.progress.waiting begin (by simp [listed])
  obtain ⟨-, addr, -, -, -, covers, -⟩ := moment.progress.reached begin marked
  obtain ⟨occupant, found⟩ := ready.consistent.exists_occupant covers
  have inOrder : ∀ words, begin + words ≤ maxOffsetWords →
      (host.scanFixedFull (.pack .fixed begin) words).InOrder pass.contract kept
        (.payload (.pack .fixed begin) words) (fun _ => False)
        (order.payload (.pack .fixed begin) words) := by
    intro words bound
    have small : begin ≤ maxOffsetWords := by omega
    exact follows.scanFixedFull (.pack .fixed begin) words kept
      (Address.decodes_pack _ small) (by rwa [Address.offset_pack _ small])
  refine ⟨occupant, by rwa [← opens.fixed], ?_⟩
  exact ((Collector.tends_scanFixed host phase _ begin).and_ends
    (scanFixed_inOrder ready full opens faithful phase inOrder found handles popped)).mono
    fun _ _ reached => ⟨reached.1.1, reached.2⟩

/-- A full collection traverses what it comes upon, by induction over the words behind the copies scanned
and the fixed objects that wait or could still be marked.
-/
theorem scanSurvivors_traverses
    (handles
      : ∀ trail now,
          pass.Progress trail now → ∀ begin ∈ trail.marked, pass.HandlesObject begin)
    (steps : Nat) {scan : Nat} (front rest : List Address)
    (moment : pass.Moment kept trail site) (split : trail.moved = front ++ rest)
    (place : scan = pass.base + extent pass.size front)
    (enough
      : site.regions.destination.words.size - scan + site.regions.pendingWork ≤ steps)
    : Ends (Collector.scanSurvivors host phase pass.space steps scan) site fun _ final =>
        ∃ later,
          pass.Moment kept later final
          ∧ regions.Traverses order front.length (trail.tour site.regions)
              (later.tour final.regions) := by
  have meets := opens.meet full
  induction steps generalizing scan front rest trail site with
  | zero =>
      have fits := moment.progress.fits ready
      have cursor := moment.progress.cursor
      have none : site.regions.unscanned = [] := Regions.unscanned_eq_nil (by omega)
      obtain rfl := moment.progress.rest_eq_nil ready split (by omega)
      exact ⟨trail, moment, .done (by simp [Trail.tour, split]) none⟩
  | succ steps ih =>
      simp only [Collector.scanSurvivors, runs_bind, runs_get, runs_ite]
      split_ifs with below
      · obtain ⟨object, others, rfl, moved, there⟩ :=
          moment.progress.exists_copy split (place ▸ below)
        rw [← place] at there
        have positive := moment.progress.size_pos ready moved
        rw [← there]
        refine (scan_nextCopy ready full opens faithful follows phase moment moved).mono ?_
        rintro _ middle ⟨advances, later, tours, rfl⟩
        have still : pass.copyOffset later object = pass.copyOffset trail object :=
          copyOffset_grows tours.grows moved
        rw [still]
        refine (checkNext_copy ready tours.moment (tours.grows.mem moved) still rfl).mono ?_
        rintro _ _ ⟨rfl, rfl⟩
        obtain ⟨more, longer⟩ := tours.grows.moved
        have size := advances.1.destinationSize
        have work := advances.1.work
        have fits := moment.progress.fits ready
        have cursor := moment.progress.cursor
        rw [there]
        refine (ih (front ++ [object]) (others ++ more) tours.moment
          (by rw [← longer, split]; simp) ?_ (by omega)).mono ?_
        · rw [extent_append, place]
          simp only [extent, List.map_cons, List.map_nil, List.sum_cons, List.sum_nil]
          omega
        · rintro _ final ⟨last, further, traverses⟩
          have next : (trail.tour site.regions).moved[front.length]? = some object := by
            simp [Trail.tour, split]
          refine ⟨last, further, .moved next ?_⟩
          rw [← meets, ← tours.tour]
          simpa using traverses
      · obtain rfl := moment.progress.rest_eq_nil ready split (by omega)
        have all : (trail.tour site.regions).moved.length ≤ front.length := by
          simp [Trail.tour, split]
        split
        next none => exact ⟨trail, moment, .done all none⟩
        next begin others listed =>
          simp only [runs_bind, Site.runs_modifyRegions]
          have marked := moment.progress.waiting begin (by simp [listed])
          obtain ⟨occupant, found, scans⟩ := scan_nextFixed ready full opens faithful follows phase
            moment (handles trail _ moment.progress begin marked) listed
          refine scans.mono ?_
          rintro _ middle ⟨evolves, later, tours⟩
          have size : middle.regions.destination.words.size
              = site.regions.destination.words.size := evolves.destinationSize
          have less := evolves.pendingWork_lt listed
          obtain ⟨more, longer⟩ := tours.grows.moved
          refine (ih front more tours.moment
            (by rw [← longer, split, List.append_nil]) place (by omega)).mono ?_
          rintro _ final ⟨last, further, traverses⟩
          refine ⟨last, further, .marked all listed found ?_⟩
          rw [← meets]
          have tour := tours.tour
          simp only [Trail.tour] at tour ⊢
          rwa [← tour]

end Steps

end Loop

-----------------------------------------------------------------------------------------
-- Roots
-----------------------------------------------------------------------------------------

/-- How far visiting the roots has come since tracing began: it came upon these values, one after
another.
-/
structure Lists (pass : Pass σ δ) (origin : Heap δ) (begun : World σ δ) (kept : List Value)
    (values : List Value) (trail : Trail) (now : World σ δ)
    : Prop where
  standing : pass.Standing origin kept trail now
  comes : begun.Comes now
  tour : trail.tour now.heap.regions = values.foldl pass.meet {}

section Lists

variable {origin : Heap δ} {begun now : World σ δ} {values : List Value}

/-- Visiting some roots comes upon the values that they held. -/
theorem Lists.visitRoots (ready : pass.Ready)
    (lists : pass.Lists origin begun kept values trail now) {host : Host σ δ}
    (faithful : host.Traces pass.contract) (roots : List Root)
    (traced : ∀ root, pass.Traced (origin.rootValue root))
    : Ends (Collector.visitRoots host roots) now fun _ final =>
        ∃ later,
          pass.Lists origin begun kept (values ++ roots.map origin.rootValue) later final := by
  refine (visitRoots_forwards ready faithful roots (fun root _ => traced root)
    lists.standing).mono ?_
  rintro _ final ⟨later, proceeds, -, tour⟩
  refine ⟨later, proceeds.standing, lists.comes.trans proceeds.comes, ?_⟩
  rw [tour, lists.tour, List.foldl_append]

/-- Visiting the roots of the host comes upon them in order. -/
theorem Lists.visitHost (ready : pass.Ready) (full : pass.full)
    (lists : pass.Lists origin begun kept values trail now) {host : Host σ δ}
    (faithful : host.Traces pass.contract) (phase : Phase) {program : Visit σ Unit}
    (inOrder : program.RootsInOrder pass.contract kept [] kept)
    (traced : ∀ root ∈ kept, pass.Traced root)
    : Ends (World.onSite (Collector.runVisit host phase program)) now fun _ final =>
        ∃ later,
          pass.Lists origin begun (pass.contract.roots final.host) (values ++ kept) later
            final := by
  have visits := runVisit_rootsInOrder ready full faithful phase inOrder traced
    lists.standing.moment nofun
  have ends := lists.standing.onSite (Collector.tends_runVisit host phase program)
    (Ends.mono visits fun _ _ ⟨later, tours⟩ => ⟨later, tours.toVisits, tours.tour⟩)
  refine ends.mono ?_
  rintro _ final ⟨later, proceeds, -, tour⟩
  refine ⟨later, proceeds.standing, lists.comes.trans proceeds.comes, ?_⟩
  rw [List.foldl_append, ← lists.tour]
  exact tour

end Lists

end Pass

/-- The values that a full collection starts from, in the order in which they are visited. -/
def World.rootValues (contract : Contract σ) (world : World σ δ) : List Value :=
  world.heap.fullRoots.map world.heap.rootValue ++ contract.roots world.host

namespace Pass

section Full

variable {contract : Contract σ} {world : World σ δ} {words : Arena}
  {order : VisitingOrder contract.layout}
  (collectable : world.Collectable contract) (addressable : world.Addressable)
  {host : Host σ δ} (mapped : host.mapper.map? (Collector.targetWords world.heap) = some words)
  (faithful : host.Traces contract) (follows : host.Follows contract order)

include collectable addressable mapped faithful follows

/-- Visiting all that a full collection starts from comes upon the values there in order. -/
theorem visitFullRoots_lists {begun : World σ δ}
    (same
      : begun
        = { heap := Collector.fullStart world.heap words
            host := (host.beforeFull world.host).host
            log := begun.log })
    : Ends (Collector.visitFullRoots host) begun fun _ final =>
        ∃ later,
          (ofFull contract world words).Lists world.heap begun (contract.roots final.host)
            (world.rootValues contract) later final := by
  have ready := ready_ofFull collectable addressable mapped
  have traced : ∀ root, (ofFull contract world words).Traced (world.heap.rootValue root) :=
    fun root => .start (.root root)
  obtain ⟨upholds, roots⟩ := faithful.beforeFull world.host collectable.upholds
  have started : (ofFull contract world words).Lists world.heap begun (contract.roots world.host)
      [] {} begun := by
    refine ⟨⟨⟨?_, ?_, ?_⟩, fun root => Or.inl ?_⟩, (World.Advances.refl begun).toComes, ?_⟩
    · rw [same]
      exact ready.progress
    · rw [same]
      exact upholds
    · rw [same]
      exact roots
    · rw [same]
      cases root <;> rfl
    · rw [same]
      exact congrArg (Tour.mk {}) collectable.regular.unscanned
  have listed : ∀ {now : World σ δ} (kind : RootKind), begun.Comes now →
      now.heap.rootsOf kind = world.heap.rootsOf kind := by
    intro now kind comes
    rw [comes.tables.rootsOf, same]
    cases kind <;> rfl
  simp only [Collector.visitFullRoots, Collector.visit, runs_bind, World.runs_heapNow]
  refine (started.visitRoots ready faithful _ traced).mono ?_
  rintro _ first ⟨_, slots⟩
  refine (slots.visitRoots ready faithful _ traced).mono ?_
  rintro _ second ⟨_, pending⟩
  refine (pending.visitRoots ready faithful _ traced).mono ?_
  rintro _ third ⟨_, modules⟩
  refine (modules.visitRoots ready faithful _ traced).mono ?_
  rintro _ fourth ⟨_, constants⟩
  refine (constants.visitHost ready full_ofFull faithful _
    (follows.extraFullRoots (contract.roots world.host))
    fun root member => .start (.kept member)).mono ?_
  rintro _ final ⟨later, all⟩
  refine ⟨later, ?_⟩
  have frames := listed .slot started.comes
  have thrown := listed .pending slots.comes
  have loaded := listed .module pending.comes
  have global := listed .constant modules.comes
  simp only [Heap.rootsOf] at frames thrown loaded global
  simp only [List.nil_append, frames, thrown, loaded, global] at all
  simp only [World.rootValues, Heap.fullRoots, List.map_append]
  exact all

/-- Tracing in a full collection traverses what it comes upon, from the values that roots hold. -/
theorem traceFull_traverses (log : List Event)
    : Ends
        (Collector.traceFull host (Collector.fullTarget world.heap words)
          world.heap.regions.fixed.slots.length)
        { heap := Collector.fullStart world.heap words
          host := (host.beforeFull world.host).host
          log } fun _ traced =>
        ∃ trail,
          (ofFull contract world words).Progress trail traced.heap.regions
          ∧ world.heap.regions.Traverses order 0
              ((world.rootValues contract).foldl (world.heap.regions.meet true) {})
              (trail.tour traced.heap.regions) := by
  have ready := ready_ofFull collectable addressable mapped
  simp only [Collector.traceFull, runs_bind, World.runs_enterPhase]
  refine (visitFullRoots_lists collectable addressable mapped faithful follows rfl).mono ?_
  rintro _ middle ⟨trail, lists⟩
  have entered := lists.standing.enterPhase (show Phase.relocating ≠ .idle by decide)
    (.phaseChanged middle.heap.phase .relocating :: middle.log)
  obtain ⟨-, enough⟩ := Collector.steps_traceFull collectable.regular mapped rfl lists.comes
  have traverses := scanSurvivors_traverses ready full_ofFull opens_ofFull faithful follows
    .relocating (fun _ _ progress _ marked => (handles_ofFull progress marked).2)
    ((Collector.fullTarget world.heap words).capacity + world.heap.regions.fixed.slots.length)
    [] trail.moved entered.standing.moment rfl rfl enough
  rw [World.runs_onSite]
  refine traverses.mono ?_
  rintro _ final ⟨later, moment, through⟩
  refine ⟨later, moment.progress, ?_⟩
  have begins := lists.tour
  rw [opens_ofFull.meet full_ofFull] at begins
  rw [← begins]
  exact through

end Full

end Pass

end MovingHeap
