import MovingHeap.Proofs.CollectionSteps
import MovingHeap.Proofs.ScanLoops

/-! Visiting the roots while a collection traces.
Each root holds what it held when tracing began or what that became. Visiting a list of roots settles
what they hold, and so does every other way of visiting: recorded slots, fresh fixed objects and the
roots that the host keeps itself.
-/

namespace MovingHeap

variable {σ δ α : Type}

namespace Pass

/-- A moment of a collection as its world shows it: every root holds what it held in the heap where
tracing began, or what that became.
-/
structure Standing (pass : Pass σ δ) (origin : Heap δ) (kept : List Value) (trail : Trail)
    (world : World σ δ)
    : Prop where
  moment : pass.Moment kept trail world.site
  carried : ∀ root, pass.Carried trail (origin.rootValue root) (world.heap.rootValue root).raw

/-- Tracing came on in a world: slots and roots that were forwarded still are. -/
structure Passes (pass : Pass σ δ) (origin : Heap δ) (kept : List Value) (trail : Trail)
    (world : World σ δ) (later : Trail) (final : World σ δ)
    : Prop where
  onward : pass.Onward kept trail world.heap.regions later final.site
  comes : world.Comes final
  carried : ∀ root, pass.Carried later (origin.rootValue root) (final.heap.rootValue root).raw
  forwarded
    : ∀ root,
        pass.Forwarded trail (origin.rootValue root) (world.heap.rootValue root).raw →
        pass.Forwarded later (origin.rootValue root) (final.heap.rootValue root).raw

/-- Tracing came on in a world by visits, and the same fixed objects count as fresh. -/
structure Proceeds (pass : Pass σ δ) (origin : Heap δ) (kept : List Value) (trail : Trail)
    (world : World σ δ) (later : Trail) (final : World σ δ)
    : Prop extends pass.Passes origin kept trail world later final where
  visits : pass.Visits kept trail world.heap.regions later final.site
  recent : final.heap.regions.fixed.recent = world.heap.regions.fixed.recent

variable {pass : Pass σ δ} {origin : Heap δ} {kept : List Value} {trail : Trail}
  {world : World σ δ} {site : Site σ δ}

/-- Where tracing came on to is a moment of it. -/
theorem Passes.standing {later : Trail} {final : World σ δ}
    (passes : pass.Passes origin kept trail world later final)
    : pass.Standing origin kept later final :=
  ⟨passes.onward.moment, passes.carried⟩

theorem Proceeds.refl (standing : pass.Standing origin kept trail world)
    : pass.Proceeds origin kept trail world trail world where
  onward := .refl standing.moment
  comes := (World.Advances.refl world).toComes
  carried := standing.carried
  forwarded _ := id
  visits := (Extends.refl standing.moment).visits
  recent := rfl

theorem Passes.trans {kept' : List Value} {middle later : Trail} {between final : World σ δ}
    (first : pass.Passes origin kept trail world middle between)
    (second : pass.Passes origin kept' middle between later final)
    : pass.Passes origin kept' trail world later final where
  onward := first.onward.trans second.onward
  comes := first.comes.trans second.comes
  carried := second.carried
  forwarded root := second.forwarded root ∘ first.forwarded root

theorem Proceeds.trans {kept' : List Value} {middle later : Trail} {between final : World σ δ}
    (first : pass.Proceeds origin kept trail world middle between)
    (second : pass.Proceeds origin kept' middle between later final)
    : pass.Proceeds origin kept' trail world later final where
  toPasses := first.toPasses.trans second.toPasses
  visits := first.visits.trans second.visits
  recent := second.recent.trans first.recent

/-- Where only the part of the world changed that callbacks see, roots hold what they held. -/
theorem rootValue_withSite (world : World σ δ) (site : Site σ δ)
    : (world.withSite site).heap.rootValue = world.heap.rootValue := by
  funext root
  cases root <;> rfl

/-- What tracing does to the part of the world that callbacks see, it does to the world. -/
theorem Standing.withSite {kept' : List Value} (standing : pass.Standing origin kept trail world)
    {later : Trail} {final : Site σ δ} (advances : world.site.Advances final)
    (onward : pass.Onward kept' trail world.heap.regions later final)
    : pass.Passes origin kept' trail world later (world.withSite final) where
  onward := onward
  comes := (World.advances_withSite advances).toComes
  carried root := by
    rw [rootValue_withSite]
    exact (standing.carried root).grows onward.grows
  forwarded root forwarded := by
    rw [rootValue_withSite]
    exact forwarded.grows onward.grows

/-- Moving on to another phase of the collection is coming on. -/
theorem Standing.enterPhase (standing : pass.Standing origin kept trail world) {phase : Phase}
    (busy : phase ≠ .idle) (log : List Event)
    : pass.Passes origin kept trail world trail
        { world with heap := { world.heap with phase }, log } where
  onward := by
    have moment := standing.moment
    exact ⟨.refl trail, ⟨moment.progress, moment.upholds, moment.roots⟩, fun _ _ _ _ => id⟩
  comes := Collector.comes_enterPhase busy world log
  carried root := by cases root <;> exact standing.carried _
  forwarded root := by cases root <;> exact id

/-- Coming on in the part of the world that callbacks see is coming on in the world. -/
theorem Standing.onSite_onward (standing : pass.Standing origin kept trail world)
    {action : Action (Site σ δ) α}
    (tends
      : Runs action world.site (fun _ final => world.site.Advances final)
          fun _ final => world.site.Advances final)
    {kept' : Site σ δ → List Value} {ended : Trail → α → Site σ δ → Prop}
    (ends
      : Ends action world.site fun result final =>
          ∃ later,
            pass.Onward (kept' final) trail world.heap.regions later final
            ∧ ended later result final)
    : Ends (World.onSite action) world fun result final =>
        ∃ later,
          pass.Passes origin (kept' final.site) trail world later final
          ∧ final.heap.regions.fixed.recent = world.heap.regions.fixed.recent
          ∧ ended later result final.site := by
  rw [Ends, World.runs_onSite]
  refine Runs.mono (tends.and ends) ?_ fun _ _ stopped => stopped.2
  intro result final reached
  obtain ⟨advances, later, onward, ends⟩ := reached
  exact ⟨later, standing.withSite advances onward, advances.2, ends⟩

/-- Visits to the part of the world that callbacks see are visits in the world. -/
theorem Standing.onSite (standing : pass.Standing origin kept trail world)
    {action : Action (Site σ δ) α} (tends : Tends action) {kept' : Site σ δ → List Value}
    {ended : Trail → α → Site σ δ → Prop}
    (ends
      : Ends action world.site fun result final =>
          ∃ later,
            pass.Visits (kept' final) trail world.heap.regions later final
            ∧ ended later result final)
    : Ends (World.onSite action) world fun result final =>
        ∃ later,
          pass.Proceeds origin (kept' final.site) trail world later final
          ∧ final.heap.rootValue = world.heap.rootValue
          ∧ ended later result final.site := by
  rw [Ends, World.runs_onSite]
  refine (tends.and_ends ends).mono ?_
  intro result final reached
  obtain ⟨advances, later, visits, ends⟩ := reached
  exact ⟨later, ⟨standing.withSite advances visits.toOnward, visits, advances.2⟩,
    rootValue_withSite world final, ends⟩

-----------------------------------------------------------------------------------------
-- Roots of the heap
-----------------------------------------------------------------------------------------

/-- A value that is null by now stays null. -/
theorem Carried.relocated_of_null {value : Value} {later : Trail}
    (carried : pass.Carried trail value Value.null.raw) (grows : trail.Grows later)
    : pass.relocated later value = .null := by
  rcases carried with same | ⟨settled, same⟩
  · have null : value = .null := congrArg Value.mk same.symm
    rw [relocated_of_plain (by rw [null]; rfl), null]
  · rw [settled.relocated_grows grows]
    exact congrArg Value.mk same.symm

/-- Updating a root that holds something to what its value became is coming on. -/
theorem Proceeds.setRoot {later : Trail} {middle : World σ δ} {root : Root}
    (proceeds : pass.Proceeds origin kept trail world later middle)
    (settled : pass.Settled later (origin.rootValue root))
    (present : middle.heap.rootValue root ≠ .null)
    : pass.Proceeds origin kept trail world later
        { middle with
          heap := middle.heap.setRoot root (pass.relocated later (origin.rootValue root)) } := by
  have reads := Heap.rootValue_setRoot present (pass.relocated later (origin.rootValue root))
  have site : World.site { middle with
      heap := middle.heap.setRoot root (pass.relocated later (origin.rootValue root)) }
      = middle.site := by
    simp only [World.site, Heap.regions_setRoot]
  have updated := World.advances_setRoot middle root
    (pass.relocated later (origin.rootValue root))
  refine ⟨⟨?_, proceeds.comes.trans updated.toComes, fun other => ?_, fun other forwarded => ?_⟩,
    ?_, updated.recent.trans proceeds.recent⟩
  · rw [site]
    exact proceeds.onward
  · rw [reads]
    split_ifs with same
    · rw [same]
      exact Or.inr ⟨settled, rfl⟩
    · exact proceeds.carried other
  · rw [reads]
    split_ifs with same
    · rw [same]
      exact ⟨settled, rfl⟩
    · exact proceeds.forwarded other forwarded
  · rw [site]
    exact proceeds.visits

/-- Visiting a root forwards what it holds. -/
theorem visitRoot_forwards (ready : pass.Ready)
    (standing : pass.Standing origin kept trail world) {host : Host σ δ}
    (faithful : host.Traces pass.contract) {root : Root}
    (traced : pass.Traced (origin.rootValue root))
    : Ends (Collector.visitRoot host root) world fun _ final =>
        ∃ later,
          pass.Proceeds origin kept trail world later final
          ∧ pass.Forwarded later (origin.rootValue root) (final.heap.rootValue root).raw
          ∧ later.tour final.heap.regions
            = pass.meet (trail.tour world.heap.regions) (origin.rootValue root) := by
  have carried := standing.carried root
  have forwards : Ends (Collector.forward host (world.heap.rootValue root)) world.site
      fun result final =>
        ∃ later,
          pass.Visits kept trail world.heap.regions later final
          ∧ pass.Settled later (origin.rootValue root)
          ∧ later.tour final.regions
            = pass.meet (trail.tour world.heap.regions) (origin.rootValue root)
          ∧ result = pass.relocated later (origin.rootValue root) :=
    (forward_carried ready standing.moment faithful traced carried).mono
      fun result final ⟨later, meets, holds⟩ =>
        ⟨later, meets.visits, meets.settled, meets.tour, holds⟩
  have ends := standing.onSite (Collector.tends_forward host _) forwards
  simp only [Collector.visitRoot, runs_bind, World.runs_heapNow]
  refine ends.mono ?_
  rintro result middle ⟨later, proceeds, same, settled, tour, rfl⟩
  split_ifs with changes
  · have present : middle.heap.rootValue root ≠ .null := by
      intro null
      rw [same] at null
      rw [null] at carried changes
      exact changes (carried.relocated_of_null proceeds.visits.grows)
    have reads := Heap.rootValue_setRoot present (pass.relocated later (origin.rootValue root))
    rw [World.runs_modifyHeap]
    refine ⟨later, proceeds.setRoot settled present, ⟨settled, ?_⟩, ?_⟩
    · rw [reads, if_pos rfl]
    · rw [Heap.regions_setRoot]
      exact tour
  · refine runs_pure.mpr ⟨later, proceeds, ⟨settled, ?_⟩, tour⟩
    rw [same]
    exact (congrArg Value.raw (not_not.mp changes)).symm

/-- Visiting roots forwards what they hold, by one root after another. -/
theorem visitRoots_forwards (ready : pass.Ready) {host : Host σ δ}
    (faithful : host.Traces pass.contract) (roots : List Root)
    (traced : ∀ root ∈ roots, pass.Traced (origin.rootValue root))
    (standing : pass.Standing origin kept trail world)
    : Ends (Collector.visitRoots host roots) world fun _ final =>
        ∃ later,
          pass.Proceeds origin kept trail world later final
          ∧ (∀ root ∈ roots,
              pass.Forwarded later (origin.rootValue root) (final.heap.rootValue root).raw)
          ∧ later.tour final.heap.regions
            = (roots.map origin.rootValue).foldl pass.meet (trail.tour world.heap.regions) := by
  induction roots generalizing trail world with
  | nil => exact runs_pure.mpr ⟨trail, .refl standing, nofun, rfl⟩
  | cons root roots ih =>
      simp only [Collector.visitRoots, runs_bind]
      refine (visitRoot_forwards ready standing faithful (traced root List.mem_cons_self)).mono ?_
      rintro _ middle ⟨later, first, here, tour⟩
      have rest := ih (fun other member => traced other (List.mem_cons_of_mem _ member))
        first.standing
      refine rest.mono ?_
      rintro _ final ⟨last, second, there, tours⟩
      refine ⟨last, first.trans second, fun other member => ?_, ?_⟩
      · rcases List.mem_cons.mp member with rfl | later
        · exact second.forwarded other here
        · exact there other later
      · rw [tours, tour, List.map_cons, List.foldl_cons]

/-- What was carried over of a value that needs no forwarding is what it became. -/
theorem Still.forwarded {value : Value} {word : Word} (still : pass.Still trail value)
    (carried : pass.Carried trail value word)
    : pass.Forwarded trail value word := by
  obtain ⟨settled, same⟩ := still.settled
  rcases carried with rfl | forwarded
  · exact ⟨settled, by rw [same]⟩
  · exact forwarded

/-- Visiting roots forwards all roots of a kind, if those of the kind that are not listed are null or
need no forwarding.
-/
theorem visitRoots_kind (ready : pass.Ready)
    (standing : pass.Standing origin kept trail world) {host : Host σ δ}
    (faithful : host.Traces pass.contract) {roots : List Root} {kind : Root → Prop}
    (traced : ∀ root, pass.Traced (origin.rootValue root))
    (listed
      : ∀ root,
          kind root →
          world.heap.rootValue root ≠ .null →
          root ∈ roots ∨ ∀ later, pass.Still later (origin.rootValue root))
    : Ends (Collector.visitRoots host roots) world fun _ final =>
        ∃ later,
          pass.Proceeds origin kept trail world later final
          ∧ ∀ root,
              kind root →
              pass.Forwarded later (origin.rootValue root) (final.heap.rootValue root).raw := by
  refine (visitRoots_forwards ready faithful roots (fun root _ => traced root) standing).mono ?_
  intro _ final reached
  obtain ⟨later, proceeds, visited, -⟩ := reached
  refine ⟨later, proceeds, fun root ofKind => ?_⟩
  by_cases null : world.heap.rootValue root = .null
  · refine proceeds.forwarded root ((standing.carried root).forwarded_of_plain ?_)
    rw [null]
    rfl
  · rcases listed root ofKind null with member | still
    · exact visited root member
    · exact (still later).forwarded (proceeds.carried root)

-----------------------------------------------------------------------------------------
-- Roots in memory
-----------------------------------------------------------------------------------------

/-- Visiting recorded slots forwards their references, by one slot after another. -/
theorem visitRemembered_forwards (ready : pass.Ready) {host : Host σ δ}
    (faithful : host.Traces pass.contract) (words : List Word)
    (handles
      : ∀ raw ∈ words, ∃ slot : Address, slot.raw = raw ∧ slot.Decodes
          ∧ pass.handles slot.space slot.offset)
    (moment : pass.Moment kept trail site)
    : Ends (Collector.visitRemembered host words) site fun _ final =>
        ∃ later,
          pass.Visits kept trail site.regions later final
          ∧ ∀ slot : Address,
              slot.raw ∈ words →
              pass.Forwarded later ⟨pass.before.cell slot.space slot.offset⟩
                (final.regions.cell slot.space slot.offset) := by
  induction words generalizing trail site with
  | nil => exact runs_pure.mpr ⟨trail, (Extends.refl moment).visits, nofun⟩
  | cons raw words ih =>
      obtain ⟨slot, rfl, valid, handled⟩ := handles raw List.mem_cons_self
      have decoded : Address.ofRaw? slot.raw = some slot := valid
      simp only [Collector.visitRemembered, runs_bind, decoded, Site.runs_require_some]
      refine (visitSlot_holds ready moment faithful (.stayed handled)).mono ?_
      rintro _ middle ⟨later, first, here, -⟩
      refine (ih (fun other member => handles other (List.mem_cons_of_mem _ member))
        first.moment).mono ?_
      rintro _ final ⟨last, second, there⟩
      refine ⟨last, first.trans second, fun other member => ?_⟩
      rcases List.mem_cons.mp member with same | later
      · have equal : other = slot := congrArg Address.mk same
        rw [equal]
        exact second.forwarded _ _ _ (.stayed handled) here
      · exact there other later

/-- Scanning fixed objects in a minor collection forwards their words, by one object after another. -/
theorem scanFixedList_filled (ready : pass.Ready) (minor : pass.full = false) {host : Host σ δ}
    (faithful : host.Traces pass.contract) (phase : Phase) (starts : List Nat)
    (handles : ∀ begin ∈ starts, pass.HandlesObject begin)
    (moment : pass.Moment kept trail site)
    : Ends (Collector.scanFixedList host phase host.scanFixedMinor starts) site fun _ final =>
        ∃ later,
          pass.Visits kept trail site.regions later final
          ∧ ∀ begin ∈ starts, pass.Filled later final.regions begin := by
  induction starts generalizing trail site with
  | nil => exact runs_pure.mpr ⟨trail, (Extends.refl moment).visits, nofun⟩
  | cons begin starts ih =>
      have here := handles begin List.mem_cons_self
      simp only [Collector.scanFixedList, runs_bind]
      refine (scanFixed_filled ready faithful phase
        (scansFixed minor faithful.scanFixedMinor kept begin) here moment).mono ?_
      rintro _ middle ⟨later, first, filled⟩
      refine (ih (fun other member => handles other (List.mem_cons_of_mem _ member))
        first.moment).mono ?_
      rintro _ final ⟨last, second, rest⟩
      refine ⟨last, first.trans second, fun other member => ?_⟩
      rcases List.mem_cons.mp member with rfl | later
      · exact filled.onward here second.toOnward
      · exact rest other later

/-- Forgetting which objects are fresh is coming on. -/
theorem Moment.clearFresh (moment : pass.Moment kept trail site)
    : pass.Visits kept trail site.regions trail
        { site with regions := { site.regions with fixed := site.regions.fixed.clearFresh } } := by
  have cells : ∀ space offset,
      Regions.cell { site.regions with fixed := site.regions.fixed.clearFresh } space offset
        = site.regions.cell space offset := fun space offset => by
    cases space <;> rfl
  refine ⟨⟨.refl trail, ⟨?_, moment.upholds, moment.roots⟩, fun space offset value _ forwarded => by
    rwa [cells]⟩, (Extends.refl moment).waiting⟩
  exact moment.progress.alike
    ⟨rfl, Nat.le_refl _, id, fun _ => rfl, fun _ => ⟨rfl, rfl⟩, Nat.le_refl _⟩ cells rfl rfl
    fun _ => id

-----------------------------------------------------------------------------------------
-- Roots of the host
-----------------------------------------------------------------------------------------

/-- A value that needs no forwarding goes on to need none. -/
theorem Still.grows {value : Value} {later : Trail} (still : pass.Still trail value)
    (grows : trail.Grows later)
    : pass.Still later value := by
  intro addr found
  obtain ⟨rests, fixed⟩ := still addr found
  refine ⟨rests, fun full here => ?_⟩
  obtain ⟨known, begin, marked, covers⟩ := fixed full here
  exact ⟨known, begin, grows.marked begin marked, covers⟩

/-- A value became another, which needs no forwarding. -/
structure Became (pass : Pass σ δ) (trail : Trail) (value moved : Value) : Prop where
  settled : pass.Settled trail value
  same : moved = pass.relocated trail value
  still : pass.Still trail moved

/-- What a value became stays the same. -/
theorem Became.grows {value moved : Value} {later : Trail} (became : pass.Became trail value moved)
    (grows : trail.Grows later)
    : pass.Became later value moved where
  settled := became.settled.grows grows
  same := became.same.trans (became.settled.relocated_grows grows).symm
  still := became.still.grows grows

/-- A value becomes one other only. -/
theorem Became.unique {value first second : Value} (became : pass.Became trail value first)
    (again : pass.Became trail value second)
    : second = first :=
  again.same.trans became.same.symm

/-- What a value became becomes itself. -/
theorem Became.stays {root value moved : Value} (became : pass.Became trail root value)
    (again : pass.Became trail value moved)
    : moved = value :=
  again.same.trans became.still.settled.2

section Answers

variable {answers : List (Value × Value)} {value moved : Value}
  (became : ∀ root moved, (root, moved) ∈ answers → pass.Became trail root moved)
include became

/-- What a host asks to forward was met, or became of what was met. -/
theorem known_of_asked {initial : List Value} (traced : ∀ root ∈ initial, pass.Traced root)
    (asked : value ∈ initial ∨ ∃ root, (root, value) ∈ answers)
    : pass.Traced value ∨ ∃ root, pass.Became trail root value :=
  asked.imp (traced value) fun ⟨root, answered⟩ => ⟨root, became root value answered⟩

/-- One more answer is what its value became, and the earlier ones stay. -/
theorem became_cons {later : Trail} (grows : trail.Grows later)
    (result : pass.Became later value moved)
    : ∀ root other, (root, other) ∈ (value, moved) :: answers → pass.Became later root other := by
  intro root other member
  rcases List.mem_cons.mp member with same | earlier
  · obtain ⟨rfl, rfl⟩ := Prod.mk.inj same
    exact result
  · exact (became root other earlier).grows grows

end Answers

/-- Forwarding a root of the host, or what came of one, is answered as before. -/
theorem forward_became (ready : pass.Ready) (moment : pass.Moment kept trail site)
    {host : Host σ δ} (faithful : host.Traces pass.contract) {value : Value}
    (known : pass.Traced value ∨ ∃ root, pass.Became trail root value)
    : Ends (Collector.forward host value) site fun result final =>
        ∃ later,
          pass.Visits kept trail site.regions later final
          ∧ pass.Became later value result
          ∧ later.tour final.regions = pass.meet (trail.tour site.regions) value := by
  rcases known with traced | ⟨root, became⟩
  · refine (forward_traced ready moment faithful traced).mono ?_
    rintro result final ⟨later, meets, rfl⟩
    exact ⟨later, meets.visits, ⟨meets.settled, rfl,
      meets.moment.progress.still_relocated ready traced meets.settled⟩, meets.tour⟩
  · refine (forward_still ready moment host became.still).mono ?_
    rintro result final ⟨rfl, rfl⟩
    obtain ⟨settled, same⟩ := became.still.settled
    have meets := Meets.refl moment settled
    exact ⟨trail, meets.visits, ⟨settled, same.symm, became.still⟩, meets.tour⟩

/-- A host that forwards its roots ends up with what they became, by induction over the steps of its
visit.
-/
theorem runVisit_forwardsRoots (ready : pass.Ready) {host : Host σ δ}
    (faithful : host.Traces pass.contract) (phase : Phase) {initial : List Value}
    (traced : ∀ root ∈ initial, pass.Traced root) {program : Visit σ Unit} {current : List Value}
    {answers : List (Value × Value)}
    (forwards : program.ForwardsRoots pass.contract pass.full initial current answers)
    (moment : pass.Moment current trail site)
    (became : ∀ root moved, (root, moved) ∈ answers → pass.Became trail root moved)
    : Ends (Collector.runVisit host phase program) site fun _ final =>
        ∃ later,
          pass.Visits (pass.contract.roots final.host) trail site.regions later final
          ∧ List.Forall₂
              (fun root moved => pass.Settled later root ∧ moved = pass.relocated later root)
              initial (pass.contract.roots final.host) := by
  induction program generalizing trail site current answers with
  | done result =>
      refine runs_pure.mpr ⟨trail, ?_, ?_⟩
      · rw [moment.roots]
        exact (Extends.refl moment).visits
      · rw [moment.roots]
        refine List.Forall₂.imp ?_ forwards
        rintro root moved (answered | ⟨rfl, plain⟩)
        · exact ⟨(became root moved answered).settled, (became root moved answered).same⟩
        · exact ⟨settled_of_plain plain, (relocated_of_plain plain).symm⟩
  | getHost next ih =>
      exact ih site.host (forwards site.host moment.upholds moment.roots) moment became
  | setHost state next ih =>
      obtain ⟨upholds, rest⟩ := forwards
      have set : pass.Moment (pass.contract.roots state) trail { site with host := state } :=
        ⟨moment.progress, upholds, rfl⟩
      exact ih rest set became
  | note line next ih =>
      have logged : pass.Moment current trail { site with log := .note line :: site.log } :=
        ⟨moment.progress, moment.upholds, moment.roots⟩
      exact ih forwards logged became
  | isFull next ih =>
      refine ih site.regions.isFull ?_ moment became
      rw [moment.isFull]
      exact forwards
  | visitValue value next ih =>
      obtain ⟨known, rest⟩ := forwards
      have knows := known_of_asked became traced known
      simp only [Collector.runVisit, runs_bind]
      refine (forward_became ready moment faithful knows).mono ?_
      rintro moved middle ⟨later, visits, result, -⟩
      refine (ih moved (rest moved ?_ ?_) visits.moment
        (became_cons became visits.grows result)).mono ?_
      · intro earlier answered
        exact ((became value earlier answered).grows visits.grows).unique result
      · rintro ⟨root, answered⟩
        exact ((became root value answered).grows visits.grows).stays result
      · rintro _ final ⟨last, further, all⟩
        exact ⟨last, visits.trans further, all⟩
  | load addr next ih => exact forwards.elim
  | words addr count next ih => exact forwards.elim
  | visitSlot slot next ih => exact forwards.elim
  | allocate => exact forwards.elim
  | collect => exact forwards.elim
  | fail violation => exact forwards.elim

end Pass

end MovingHeap
