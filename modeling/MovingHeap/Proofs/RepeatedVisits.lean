import MovingHeap.Proofs.Passages

/-! Hosts that visit slots and values more often than once.
Where another visit right behind one changes nothing, a collection does not tell such a host from one that
visits once, step by step along the passage of the latter.
-/

namespace MovingHeap

variable {ω σ δ α β : Type}

-----------------------------------------------------------------------------------------
-- Visits that are repeated
-----------------------------------------------------------------------------------------

namespace Visit

/-- Visits a slot some times before the rest. -/
def again (slot : Address) : (times : Nat) → Visit σ α → Visit σ α
  | 0, rest => rest
  | times + 1, rest => .visitSlot slot (again slot times rest)

/-- Forwards a value, and then what comes of it, some times before the rest. -/
def valueAgain : (times : Nat) → (rest : Value → Visit σ α) → Value → Visit σ α
  | 0, rest, value => rest value
  | times + 1, rest, value => .visitValue value (valueAgain times rest)

/-- The second visit does what the first one does, but visits each slot and each value any number of times
more in a row.
-/
inductive Repeats : Visit σ α → Visit σ α → Prop where
  | done (result : α) : Repeats (.done result) (.done result)
  | getHost {next often : σ → Visit σ α} (rest : ∀ state, Repeats (next state) (often state))
      : Repeats (.getHost next) (.getHost often)
  | setHost (state : σ) {next often : Visit σ α} (rest : Repeats next often)
      : Repeats (.setHost state next) (.setHost state often)
  | note (line : String) {next often : Visit σ α} (rest : Repeats next often)
      : Repeats (.note line next) (.note line often)
  | isFull {next often : Bool → Visit σ α} (rest : ∀ full, Repeats (next full) (often full))
      : Repeats (.isFull next) (.isFull often)
  | load (addr : Address) {next often : Word → Visit σ α}
      (rest : ∀ word, Repeats (next word) (often word))
      : Repeats (.load addr next) (.load addr often)
  | words (addr : Address) (count : Nat) {next often : List Word → Visit σ α}
      (rest : ∀ list, Repeats (next list) (often list))
      : Repeats (.words addr count next) (.words addr count often)
  | visitSlot (slot : Address) (more : Nat) {next often : Visit σ α} (rest : Repeats next often)
      : Repeats (.visitSlot slot next) (.visitSlot slot (again slot more often))
  | visitValue (value : Value) (more : Nat) {next often : Value → Visit σ α}
      (rest : ∀ moved, Repeats (next moved) (often moved))
      : Repeats (.visitValue value next) (.visitValue value (valueAgain more often))
  | allocate : Repeats .allocate .allocate
  | collect : Repeats .collect .collect
  | fail (violation : Violation) : Repeats (.fail violation) (.fail violation)

/-- Makes each visit to a slot or a value as often again. -/
def often (more : Nat) : Visit σ α → Visit σ α
  | .done result => .done result
  | .getHost next => .getHost fun state => (next state).often more
  | .setHost state next => .setHost state (next.often more)
  | .note line next => .note line (next.often more)
  | .isFull next => .isFull fun full => (next full).often more
  | .load addr next => .load addr fun word => (next word).often more
  | .words addr count next => .words addr count fun list => (next list).often more
  | .visitSlot slot next => .visitSlot slot (again slot more (next.often more))
  | .visitValue value next =>
      .visitValue value (valueAgain more fun moved => (next moved).often more)
  | .allocate => .allocate
  | .collect => .collect
  | .fail violation => .fail violation

theorem repeats_often (more : Nat) (visit : Visit σ α) : visit.Repeats (visit.often more) := by
  induction visit with
  | done result => exact .done result
  | getHost next ih => exact .getHost ih
  | setHost state next ih => exact .setHost state ih
  | note line next ih => exact .note line ih
  | isFull next ih => exact .isFull ih
  | load addr next ih => exact .load addr ih
  | words addr count next ih => exact .words addr count ih
  | visitSlot slot next ih => exact .visitSlot slot more ih
  | visitValue value next ih => exact .visitValue value more ih
  | allocate => exact .allocate
  | collect => exact .collect
  | fail violation => exact .fail violation

end Visit

/-- The second host does what the first one does, but may repeat every visit. -/
structure Host.Repeats (host often : Host σ δ) : Prop where
  mapper : often.mapper = host.mapper
  copy : often.copy = host.copy
  scanMinor : ∀ object, (host.scanMinor object).Repeats (often.scanMinor object)
  scanFull : ∀ object, (host.scanFull object).Repeats (often.scanFull object)
  scanFixedMinor
    : ∀ object words, (host.scanFixedMinor object words).Repeats (often.scanFixedMinor object words)
  scanFixedFull
    : ∀ object words, (host.scanFixedFull object words).Repeats (often.scanFixedFull object words)
  extraMinorRoots : host.extraMinorRoots.Repeats often.extraMinorRoots
  extraFullRoots : host.extraFullRoots.Repeats often.extraFullRoots
  beforeFull : often.beforeFull = host.beforeFull
  afterFull : often.afterFull = host.afterFull
  destroy : often.destroy = host.destroy

/-- A host that makes every visit as often again. -/
def Host.often (host : Host σ δ) (more : Nat) : Host σ δ :=
  { host with
    scanMinor := fun object => (host.scanMinor object).often more
    scanFull := fun object => (host.scanFull object).often more
    scanFixedMinor := fun object words => (host.scanFixedMinor object words).often more
    scanFixedFull := fun object words => (host.scanFixedFull object words).often more
    extraMinorRoots := host.extraMinorRoots.often more
    extraFullRoots := host.extraFullRoots.often more }

theorem Host.repeats_often (host : Host σ δ) (more : Nat) : host.Repeats (host.often more) where
  mapper := rfl
  copy := rfl
  scanMinor object := (host.scanMinor object).repeats_often more
  scanFull object := (host.scanFull object).repeats_often more
  scanFixedMinor object words := (host.scanFixedMinor object words).repeats_often more
  scanFixedFull object words := (host.scanFixedFull object words).repeats_often more
  extraMinorRoots := host.extraMinorRoots.repeats_often more
  extraFullRoots := host.extraFullRoots.repeats_often more
  beforeFull := rfl
  afterFull := rfl
  destroy := rfl

/-- Whatever the errand forwards, another one right behind it changes nothing. -/
def Errand.Calm (host : Host σ δ) (site : Site σ δ) : Option Errand → Prop
  | none => True
  | some (.slot addr) =>
      Runs (Collector.visitSlot host addr) site
        (fun _ after => Collector.visitSlot host addr after = .ok () after) fun _ _ => True
  | some (.value kept) =>
      Runs (Collector.forward host kept) site
        (fun moved after => Collector.forward host moved after = .ok moved after) fun _ _ => True

-----------------------------------------------------------------------------------------
-- Runs along the same passage
-----------------------------------------------------------------------------------------

namespace Passage

variable {action : Action ω α} {start : ω} {holds : ω → Option Errand → Prop}

/-- An action comes through an errand that it does at once. -/
theorem Keeps.atOnce {errand : Option Errand} (keeps : (step action errand).Keeps start holds)
    : holds start errand :=
  keeps start errand (.inl ⟨rfl, rfl⟩)

theorem Keeps.first {next : α → Action ω β} {first : Passage action}
    {second : ∀ result, Passage (next result)} (keeps : (first.bind second).Keeps start holds)
    : first.Keeps start holds :=
  fun state errand through => keeps state errand (.inl through)

/-- Two actions run the same if their parts do along the passage of the second one. -/
theorem Keeps.bind_congr {action' : Action ω α} {next next' : α → Action ω β}
    {first : Passage action} {second : ∀ result, Passage (next result)}
    (keeps : (first.bind second).Keeps start holds)
    (front : first.Keeps start holds → action' start = action start)
    (back
      : ∀ result middle,
          action start = .ok result middle →
          (second result).Keeps middle holds →
          next' result middle = next result middle)
    : (action' >>= next') start = (action >>= next) start := by
  change EStateM.bind action' next' start = EStateM.bind action next start
  unfold EStateM.bind
  rw [front keeps.first]
  cases run : action start with
  | ok result middle =>
      exact back result middle run fun state errand through =>
        keeps state errand (.inr ⟨result, middle, run, through⟩)
  | error => rfl

theorem Keeps.ite_congr {condition : Prop} [Decidable condition]
    {action action' other other' : Action ω α} {yes : Passage action} {no : Passage other}
    (keeps
      : (ite yes no : Passage (if condition then action else other)).Keeps start holds)
    (chosen : yes.Keeps start holds → action' start = action start)
    (passed : no.Keeps start holds → other' start = other start)
    : (if condition then action' else other') start
      = (if condition then action else other) start := by
  split_ifs with holding
  · exact chosen fun state errand through =>
      keeps state errand (by simpa only [ite, if_pos holding] using through)
  · exact passed fun state errand through =>
      keeps state errand (by simpa only [ite, if_neg holding] using through)

theorem Keeps.onSite_congr {action action' : Action (Site σ δ) α} {passage : Passage action}
    {start : World σ δ} {holds : Site σ δ → Option Errand → Prop}
    (keeps : passage.onSite.Keeps start fun world errand => holds world.site errand)
    (same : passage.Keeps start.site holds → action' start.site = action start.site)
    : World.onSite action' start = World.onSite action start := by
  have keeps' : passage.Keeps start.site holds := fun site errand through =>
    keeps (start.withSite site) errand ⟨site, through, rfl⟩
  simp only [World.onSite, same keeps']

end Passage

namespace Collector

variable {host often : Host σ δ}

-----------------------------------------------------------------------------------------
-- Visits
-----------------------------------------------------------------------------------------

/-- Forwarding asks the host only to copy. -/
theorem forward_eq (same : often.copy = host.copy) : forward often = forward host := by
  funext value
  simp only [forward, evacuate, relocate, same]

theorem visitSlot_eq (same : often.copy = host.copy) : visitSlot often = visitSlot host := by
  funext slot
  simp only [visitSlot, forward_eq same]

/-- A slot whose visit changes nothing may be visited any number of times. -/
theorem runVisit_again {slot : Address} {site : Site σ δ}
    (rests : visitSlot host slot site = .ok () site) (phase : Phase) (times : Nat)
    (rest : Visit σ α)
    : runVisit host phase (.again slot times rest) site = runVisit host phase rest site := by
  induction times with
  | zero => rfl
  | succ times ih =>
      rw [← ih]
      change EStateM.bind (visitSlot host slot) (fun _ => runVisit host phase _) site = _
      simp only [EStateM.bind, rests]

/-- A value whose forwarding changes nothing may be forwarded any number of times. -/
theorem runVisit_valueAgain {value : Value} {site : Site σ δ}
    (rests : forward host value site = .ok value site) (phase : Phase) (times : Nat)
    (rest : Value → Visit σ α)
    : runVisit host phase (.valueAgain times rest value) site
      = runVisit host phase (rest value) site := by
  induction times with
  | zero => rfl
  | succ times ih =>
      rw [← ih]
      change EStateM.bind (forward host value) (fun moved => runVisit host phase _) site = _
      simp only [EStateM.bind, rests]

/-- A visit that repeats runs like the one it repeats, by induction over the steps. -/
theorem runVisit_repeats (same : often.copy = host.copy) (phase : Phase) {once more : Visit σ α}
    (repeats : once.Repeats more) {site : Site σ δ}
    (calm : (passRunVisit host phase once).Keeps site (Errand.Calm host))
    : runVisit often phase more site = runVisit host phase once site := by
  induction repeats generalizing site with
  | done | allocate | collect | fail => rfl
  | getHost _ ih | isFull _ ih | load _ _ ih =>
      exact calm.bind_congr (fun _ => rfl) fun _ _ _ calm => ih _ calm
  | setHost _ _ ih | note _ _ ih =>
      exact calm.bind_congr (fun _ => rfl) fun _ _ _ calm => ih calm
  | words _ _ _ ih =>
      exact calm.bind_congr (fun _ => rfl) fun _ _ _ calm =>
        calm.bind_congr (fun _ => rfl) fun list _ _ calm => ih list calm
  | visitSlot slot times _ ih =>
      have first : Errand.Calm host site (some (.slot slot)) := calm.first.first.atOnce
      refine calm.bind_congr (fun _ => by rw [visitSlot_eq same]) fun _ middle run calm => ?_
      have rests : visitSlot often slot middle = .ok () middle := by
        rw [visitSlot_eq same]
        exact first.of_ok run
      rw [runVisit_again rests]
      exact ih calm
  | visitValue value times _ ih =>
      have first : Errand.Calm host site (some (.value value)) := calm.first.atOnce
      refine calm.bind_congr (fun _ => by rw [forward_eq same]) fun moved middle run calm => ?_
      have rests : forward often moved middle = .ok moved middle := by
        rw [forward_eq same]
        exact first.of_ok run
      rw [runVisit_valueAgain rests]
      exact ih moved calm

/-- A visit of the host, in the current phase. -/
theorem visit_repeats (same : often.copy = host.copy) {once more : Visit σ α}
    (repeats : once.Repeats more) {world : World σ δ}
    (calm : (passVisit host once).Keeps world fun world => Errand.Calm host world.site)
    : visit often more world = visit host once world :=
  calm.bind_congr (fun _ => rfl) fun heap _ _ calm =>
    calm.onSite_congr (runVisit_repeats same heap.phase repeats)

theorem visitRoots_eq (same : often.copy = host.copy) : visitRoots often = visitRoots host := by
  funext roots
  induction roots with
  | nil => rfl
  | cons root roots ih => simp only [visitRoots, visitRoot, forward_eq same, ih]

theorem visitRemembered_eq (same : often.copy = host.copy)
    : visitRemembered often = visitRemembered host := by
  funext words
  induction words with
  | nil => rfl
  | cons word words ih => simp only [visitRemembered, visitSlot_eq same, ih]

-----------------------------------------------------------------------------------------
-- Scans
-----------------------------------------------------------------------------------------

theorem scanFixed_repeats (same : often.copy = host.copy) (phase : Phase)
    {scan scan' : Address → Nat → Visit σ Unit}
    (repeats : ∀ object words, (scan object words).Repeats (scan' object words)) (start : Nat)
    {site : Site σ δ} (calm : (passScanFixed host phase scan start).Keeps site (Errand.Calm host))
    : scanFixed often phase scan' start site = scanFixed host phase scan start site := by
  refine calm.bind_congr (fun _ => rfl) fun now _ _ calm => ?_
  revert calm
  cases now.regions.fixed.occupant? start with
  | some occupant => exact runVisit_repeats same phase (repeats _ _)
  | none => exact fun _ => rfl

theorem scanFixedList_repeats (same : often.copy = host.copy) (phase : Phase)
    {scan scan' : Address → Nat → Visit σ Unit}
    (repeats : ∀ object words, (scan object words).Repeats (scan' object words))
    (starts : List Nat) {site : Site σ δ}
    (calm : (passScanFixedList host phase scan starts).Keeps site (Errand.Calm host))
    : scanFixedList often phase scan' starts site = scanFixedList host phase scan starts site := by
  induction starts generalizing site with
  | nil => rfl
  | cons start starts ih =>
      exact calm.bind_congr (scanFixed_repeats same phase repeats start) fun _ _ _ calm => ih calm

/-- The scan of promoted objects, by induction over their number. -/
theorem scanPromoted_repeats (repeats : host.Repeats often) (phase : Phase) (space : Space)
    (objects scan : Nat) {site : Site σ δ}
    (calm : (passScanPromoted host phase space objects scan).Keeps site (Errand.Calm host))
    : scanPromoted often phase space objects scan site
      = scanPromoted host phase space objects scan site := by
  induction objects generalizing scan site with
  | zero => rfl
  | succ objects ih =>
      refine calm.bind_congr (fun _ => rfl) fun now _ _ calm => ?_
      refine calm.ite_congr (fun calm => ?_) fun _ => rfl
      refine calm.bind_congr
        (runVisit_repeats repeats.copy phase (repeats.scanMinor _)) fun _ _ _ calm => ?_
      exact calm.bind_congr (fun _ => rfl) fun _ _ _ calm =>
        calm.bind_congr (fun _ => rfl) fun next _ _ calm => ih next calm

/-- The scan of survivors, by induction over its steps. -/
theorem scanSurvivors_repeats (repeats : host.Repeats often) (phase : Phase) (space : Space)
    (steps scan : Nat) {site : Site σ δ}
    (calm : (passScanSurvivors host phase space steps scan).Keeps site (Errand.Calm host))
    : scanSurvivors often phase space steps scan site
      = scanSurvivors host phase space steps scan site := by
  induction steps generalizing scan site with
  | zero => rfl
  | succ steps ih =>
      refine calm.bind_congr (fun _ => rfl) fun now _ _ calm => ?_
      refine calm.ite_congr (fun calm => ?_) fun calm => ?_
      · refine calm.bind_congr
          (runVisit_repeats repeats.copy phase (repeats.scanFull _)) fun _ _ _ calm => ?_
        exact calm.bind_congr (fun _ => rfl) fun _ _ _ calm =>
          calm.bind_congr (fun _ => rfl) fun next _ _ calm => ih next calm
      · revert calm
        cases now.regions.unscanned with
        | nil => exact fun _ => rfl
        | cons start others =>
            exact fun calm => calm.bind_congr (fun _ => rfl) fun _ _ _ calm =>
              calm.bind_congr (scanFixed_repeats repeats.copy phase repeats.scanFixedFull _)
                fun _ _ _ calm => ih scan calm

-----------------------------------------------------------------------------------------
-- Collections
-----------------------------------------------------------------------------------------

/-- Roots of one kind are visited, and then something follows that does not tell the hosts apart. -/
theorem visitKind_repeats (same : often.copy = host.copy) {list : Heap δ → List Root}
    {next next' : Action (World σ δ) α} {rest : Passage next} {world : World σ δ}
    (calm
      : (Passage.bind (.step World.heapNow none) fun heap =>
          .bind (passVisitRoots host (list heap)) fun _ => rest).Keeps world
          fun world => Errand.Calm host world.site)
    (further
      : ∀ middle,
          (rest.Keeps middle fun world => Errand.Calm host world.site) →
          next' middle = next middle)
    : (World.heapNow >>= fun heap => visitRoots often (list heap) >>= fun _ => next') world
      = (World.heapNow >>= fun heap => visitRoots host (list heap) >>= fun _ => next) world :=
  calm.bind_congr (fun _ => rfl) fun _ _ _ calm =>
    calm.bind_congr (fun _ => by rw [visitRoots_eq same]) fun _ middle _ calm => further middle calm

theorem visitMinorRoots_repeats (repeats : host.Repeats often) {world : World σ δ}
    (calm : (passVisitMinorRoots host).Keeps world fun world => Errand.Calm host world.site)
    : visitMinorRoots often world = visitMinorRoots host world := by
  refine visitKind_repeats repeats.copy calm fun _ calm => ?_
  refine visitKind_repeats repeats.copy calm fun _ calm => ?_
  refine calm.bind_congr (fun _ => rfl) fun heap _ _ calm => ?_
  refine calm.bind_congr (fun _ => by rw [visitRemembered_eq repeats.copy]) fun _ _ _ calm => ?_
  refine visitKind_repeats repeats.copy calm fun _ calm => ?_
  refine visitKind_repeats repeats.copy calm fun _ calm => ?_
  refine calm.bind_congr (fun _ => rfl) fun fresh _ _ calm => ?_
  refine calm.bind_congr (fun _ => rfl) fun _ _ _ calm => ?_
  refine calm.bind_congr (fun _ => rfl) fun heap _ _ calm => ?_
  refine calm.bind_congr (fun calm => calm.onSite_congr
    (scanFixedList_repeats repeats.copy heap.phase repeats.scanFixedMinor _)) fun _ _ _ calm => ?_
  exact visit_repeats repeats.copy repeats.extraMinorRoots calm

theorem visitFullRoots_repeats (repeats : host.Repeats often) {world : World σ δ}
    (calm : (passVisitFullRoots host).Keeps world fun world => Errand.Calm host world.site)
    : visitFullRoots often world = visitFullRoots host world := by
  refine visitKind_repeats repeats.copy calm fun _ calm => ?_
  refine visitKind_repeats repeats.copy calm fun _ calm => ?_
  refine visitKind_repeats repeats.copy calm fun _ calm => ?_
  refine visitKind_repeats repeats.copy calm fun _ calm => ?_
  exact visit_repeats repeats.copy repeats.extraFullRoots calm

/-- A minor collection does not tell the hosts from each other. -/
theorem minor_repeats (repeats : host.Repeats often) (reason : Reason) {world : World σ δ}
    (calm : (passMinor host reason).Keeps world fun world => Errand.Calm host world.site)
    : minor often reason world = minor host reason world := by
  refine calm.bind_congr (fun _ => rfl) fun id _ _ calm => ?_
  refine calm.bind_congr (fun _ => rfl) fun heap _ _ calm => ?_
  refine calm.bind_congr (fun _ => rfl) fun _ _ _ calm => ?_
  refine calm.bind_congr (fun _ => rfl) fun _ _ _ calm => ?_
  refine calm.bind_congr (visitMinorRoots_repeats repeats) fun _ _ _ calm => ?_
  refine calm.bind_congr (fun _ => rfl) fun _ _ _ calm => ?_
  exact calm.bind_congr (fun calm => calm.onSite_congr
    (scanPromoted_repeats repeats .relocating _ _ _)) fun _ _ _ _ => rfl

/-- A full collection does not tell the hosts from each other. -/
theorem full_repeats (repeats : host.Repeats often) (reason : Reason) {world : World σ δ}
    (calm : (passFull host reason).Keeps world fun world => Errand.Calm host world.site)
    : full often reason world = full host reason world := by
  have sweeps : sweepFixed often = sweepFixed host := by
    simp only [sweepFixed, repeats.destroy]
  refine calm.bind_congr (fun _ => rfl) fun id _ _ calm => ?_
  refine calm.bind_congr (fun _ => by rw [repeats.beforeFull]) fun _ _ _ calm => ?_
  refine calm.bind_congr (fun _ => rfl) fun before _ _ calm => ?_
  refine calm.bind_congr (fun _ => rfl) fun _ _ _ calm => ?_
  refine calm.bind_congr (fun _ => by rw [repeats.mapper]) fun target _ _ calm => ?_
  refine calm.bind_congr (visitFullRoots_repeats repeats) fun _ _ _ calm => ?_
  refine calm.bind_congr (fun _ => rfl) fun _ _ _ calm => ?_
  refine calm.bind_congr (fun calm => calm.onSite_congr
    (scanSurvivors_repeats repeats .relocating _ _ _)) fun _ _ _ _ => ?_
  rw [sweeps, repeats.afterFull]

end Collector

end MovingHeap
