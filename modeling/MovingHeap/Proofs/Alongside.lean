import MovingHeap.Proofs.Outcome

/-! Two runs of an action side by side.
Wherever the first run ends, so does the second one, with the same result, and something holds of the two
states. What is known of the first run alone is taken from elsewhere; nothing need be known of the second.
-/

namespace MovingHeap

variable {ω σ δ α β : Type}

/-- Wherever the one action ends, the other ends with the same result, in states that belong together. -/
def Alongside (action other : Action ω α) (first second : ω) (ended : α → ω → ω → Prop) : Prop :=
  ∀ result final,
    action first = .ok result final →
    ∃ final', other second = .ok result final' ∧ ended result final final'

namespace Alongside

variable {action other : Action ω α} {first second : ω} {ended : α → ω → ω → Prop}

/-- What holds where both runs end may be weakened. -/
theorem mono (alongside : Alongside action other first second ended)
    {weaker : α → ω → ω → Prop}
    (weaken : ∀ result final final', ended result final final' → weaker result final final')
    : Alongside action other first second weaker := by
  intro result final run
  obtain ⟨final', run', holds⟩ := alongside result final run
  exact ⟨final', run', weaken result final final' holds⟩

/-- What is known of the first run is known where both end. -/
theorem and_runs (alongside : Alongside action other first second ended) {holds : α → ω → Prop}
    {stopped : Violation → ω → Prop} (runs : Runs action first holds stopped)
    : Alongside action other first second fun result final final' =>
        holds result final ∧ ended result final final' := by
  intro result final run
  obtain ⟨final', run', both⟩ := alongside result final run
  exact ⟨final', run', runs.of_ok run, both⟩

/-- Two runs may be followed one after the other. -/
theorem of_runs {holds : α → ω → Prop} {stopped : Violation → ω → Prop}
    (runs : Runs action first holds stopped)
    (follows
      : ∀ result final,
          holds result final →
          Ends other second fun result' final' =>
            result' = result ∧ ended result final final')
    : Alongside action other first second ended := by
  intro result final run
  obtain ⟨_, final', run', rfl, both⟩ := (follows result final (runs.of_ok run)).exists_ok
  exact ⟨final', run', both⟩

/-- What is known of the first run tells where the second one ends, too. -/
theorem runs (alongside : Alongside action other first second ended) {holds : α → ω → Prop}
    {stopped : Violation → ω → Prop} (runs : Runs action first holds stopped)
    : Runs action first
        (fun result final =>
          holds result final ∧ ∃ final', other second = .ok result final' ∧ ended result final final')
        stopped := by
  unfold Runs at runs ⊢
  cases run : action first with
  | ok result final =>
      simp only [run] at runs
      exact ⟨runs, alongside result final run⟩
  | error violation final => simpa only [run] using runs

/-- Answering at once. -/
theorem pure {result : α} (holds : ended result first second)
    : Alongside (Pure.pure result) (Pure.pure result) first second ended := by
  intro _ _ run
  cases run
  exact ⟨second, rfl, holds⟩

/-- One action after another, in both runs. -/
theorem bind {next next' : α → Action ω β} {middle : α → ω → ω → Prop}
    {ended : β → ω → ω → Prop} (begins : Alongside action other first second middle)
    (further
      : ∀ result between between',
          middle result between between' →
          Alongside (next result) (next' result) between between' ended)
    : Alongside (action >>= next) (other >>= next') first second ended := by
  intro last final run
  change EStateM.bind action next first = _ at run
  change ∃ final', EStateM.bind other next' second = _ ∧ _
  unfold EStateM.bind at run ⊢
  cases begun : action first with
  | ok result between =>
      obtain ⟨between', begun', holds⟩ := begins result between begun
      rw [begun] at run
      rw [begun']
      exact further result between between' holds last final run
  | error =>
      rw [begun] at run
      cases run

/-- An action whose result is changed. -/
theorem map {change : α → β} {ended : β → ω → ω → Prop}
    (alongside
      : Alongside action other first second fun result final final' =>
          ended (change result) final final')
    : Alongside (change <$> action) (change <$> other) first second ended := by
  simp only [map_eq_pure_bind]
  exact alongside.bind fun _ _ _ holds => pure holds

/-- Looking at the state first. -/
theorem get_bind {next next' : ω → Action ω α}
    (further : Alongside (next first) (next' second) first second ended)
    : Alongside (get >>= next) (get >>= next') first second ended :=
  further

/-- Going on from where a step of both runs is seen to lead. -/
theorem step_bind {result : α} {next next' : α → Action ω β} {middle middle' : ω}
    {ended : β → ω → ω → Prop} (run : action first = .ok result middle)
    (run' : other second = .ok result middle')
    (further : Alongside (next result) (next' result) middle middle' ended)
    : Alongside (action >>= next) (other >>= next') first second ended := by
  have begins : Alongside action other first second fun answer between between' =>
      answer = result ∧ between = middle ∧ between' = middle' := by
    intro answer final ran
    rw [run] at ran
    cases ran
    exact ⟨middle', run', rfl, rfl, rfl⟩
  refine begins.bind ?_
  rintro _ _ _ ⟨rfl, rfl, rfl⟩
  exact further

/-- Choosing between two actions, in both runs alike. -/
theorem ite {condition : Prop} [Decidable condition] {alternative alternative' : Action ω α}
    (holds : condition → Alongside action other first second ended)
    (fails : ¬ condition → Alongside alternative alternative' first second ended)
    : Alongside (if condition then action else alternative)
        (if condition then other else alternative') first second ended := by
  split_ifs with chosen
  · exact holds chosen
  · exact fails chosen

end Alongside

namespace Alongside

section Site

variable {first second : Site σ δ}

/-- What stops the first run says nothing about the second. -/
theorem stop {violation : Violation} {other : Action (Site σ δ) α}
    {ended : α → Site σ δ → Site σ δ → Prop}
    : Alongside (Site.stop violation) other first second ended := by
  intro _ _ run
  have never : Runs (Site.stop violation) first (fun (_ : α) _ => False) fun _ _ => True :=
    Site.runs_stop.mpr trivial
  exact (never.of_ok run).elim

/-- Answering what is there, in both runs the same. -/
theorem require {found : Option α} {violation : Violation}
    {ended : α → Site σ δ → Site σ δ → Prop}
    (holds : ∀ result, found = some result → ended result first second)
    : Alongside (Site.require found violation) (Site.require found violation) first second
        ended := by
  cases found with
  | none => exact stop
  | some result => exact pure (holds result rfl)

/-- Going on from what is there, in both runs the same. -/
theorem require_bind {found : Option α} {violation : Violation}
    {next next' : α → Action (Site σ δ) β} {ended : β → Site σ δ → Site σ δ → Prop}
    (further
      : ∀ result, found = some result → Alongside (next result) (next' result) first second ended)
    : Alongside (Site.require found violation >>= next) (Site.require found violation >>= next')
        first second ended := by
  cases found with
  | none => exact bind stop fun _ _ _ (never : False) => never.elim
  | some result => exact further result rfl

/-- Changing memory first. -/
theorem modifyRegions_bind {change change' : Regions δ → Regions δ}
    {next next' : Unit → Action (Site σ δ) α} {ended : α → Site σ δ → Site σ δ → Prop}
    (further
      : Alongside (next ()) (next' ()) { first with regions := change first.regions }
          { second with regions := change' second.regions } ended)
    : Alongside (Site.modifyRegions change >>= next) (Site.modifyRegions change' >>= next') first
        second ended :=
  further

/-- Taking over the same reply of a callback in both runs. -/
theorem accept {reply : Reply σ α} {ended : α → Site σ δ → Site σ δ → Prop}
    (holds
      : ended reply.answer
          { first with
            host := reply.host
            log := (reply.notes.map Event.note).reverse ++ first.log }
          { second with
            host := reply.host
            log := (reply.notes.map Event.note).reverse ++ second.log })
    : Alongside (Site.accept reply) (Site.accept reply) first second ended := by
  intro _ _ run
  cases run
  exact ⟨_, rfl, holds⟩

end Site

section World

variable {first second : World σ δ}

/-- Working on the parts of both worlds that callbacks see. -/
theorem onSite {action other : Action (Site σ δ) α} {ended : α → World σ δ → World σ δ → Prop}
    (alongside
      : Alongside action other first.site second.site fun result final final' =>
          ended result (first.withSite final) (second.withSite final'))
    : Alongside (World.onSite action) (World.onSite other) first second ended := by
  intro result final run
  simp only [World.onSite] at run ⊢
  cases inner : action first.site with
  | ok answer middle =>
      rw [inner] at run
      cases run
      obtain ⟨middle', inner', holds⟩ := alongside result middle inner
      exact ⟨second.withSite middle', by rw [inner'], holds⟩
  | error =>
      rw [inner] at run
      cases run

/-- Looking at the heap first. -/
theorem heapNow_bind {next next' : Heap δ → Action (World σ δ) α}
    {ended : α → World σ δ → World σ δ → Prop}
    (further : Alongside (next first.heap) (next' second.heap) first second ended)
    : Alongside (World.heapNow >>= next) (World.heapNow >>= next') first second ended :=
  further

/-- Changing both heaps. -/
theorem modifyHeap {change change' : Heap δ → Heap δ} {ended : Unit → World σ δ → World σ δ → Prop}
    (holds
      : ended () { first with heap := change first.heap } { second with heap := change' second.heap })
    : Alongside (World.modifyHeap change) (World.modifyHeap change') first second ended := by
  intro _ _ run
  cases run
  exact ⟨_, rfl, holds⟩

/-- Changing both heaps first. -/
theorem modifyHeap_bind {change change' : Heap δ → Heap δ}
    {next next' : Unit → Action (World σ δ) α} {ended : α → World σ δ → World σ δ → Prop}
    (further
      : Alongside (next ()) (next' ()) { first with heap := change first.heap }
          { second with heap := change' second.heap } ended)
    : Alongside (World.modifyHeap change >>= next) (World.modifyHeap change' >>= next') first second
        ended :=
  further

/-- Changing the memory of both worlds first. -/
theorem modifyMemory_bind {change change' : Regions δ → Regions δ}
    {next next' : Unit → Action (World σ δ) α} {ended : α → World σ δ → World σ δ → Prop}
    (further
      : Alongside (next ()) (next' ())
          { first with heap := { first.heap with regions := change first.heap.regions } }
          { second with heap := { second.heap with regions := change' second.heap.regions } } ended)
    : Alongside (World.modifyRegions change >>= next) (World.modifyRegions change' >>= next') first
        second ended :=
  further

/-- Moving both collectors to another phase first. -/
theorem enterPhase_bind {phase : Phase} {next next' : Unit → Action (World σ δ) α}
    {ended : α → World σ δ → World σ δ → Prop}
    (further
      : Alongside (next ()) (next' ())
          { first with
            heap := { first.heap with phase }
            log := .phaseChanged first.heap.phase phase :: first.log }
          { second with
            heap := { second.heap with phase }
            log := .phaseChanged second.heap.phase phase :: second.log } ended)
    : Alongside (World.enterPhase phase >>= next) (World.enterPhase phase >>= next') first second
        ended :=
  further

/-- Going on from what is there, in both runs the same. -/
theorem requireWorld_bind {found : Option α} {violation : Violation}
    {next next' : α → Action (World σ δ) β} {ended : β → World σ δ → World σ δ → Prop}
    (further
      : ∀ result, found = some result → Alongside (next result) (next' result) first second ended)
    : Alongside (World.require found violation >>= next) (World.require found violation >>= next')
        first second ended := by
  cases found with
  | none =>
      have never : Alongside (World.require (none : Option α) violation)
          (World.require (none : Option α) violation) first second fun _ _ _ => False := onSite stop
      exact never.bind fun _ _ _ => False.elim
  | some result => exact further result rfl

end World

end Alongside

end MovingHeap
