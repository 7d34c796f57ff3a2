import Mathlib.Tactic.Common
import MovingHeap.World

/-! How actions run.
`Runs` says what holds where an action ends and what holds where a violation stops it; it follows
the action step by step, so that a proof can do so too. `Ends` leaves no violation.
-/

namespace MovingHeap

variable {ω σ δ α β : Type}

/-- From `state` the action ends in a result and a state that satisfy `ended`, or a violation stops
it in a state that satisfies `stopped`.
-/
def Runs (action : Action ω α) (state : ω) (ended : α → ω → Prop)
    (stopped : Violation → ω → Prop)
    : Prop :=
  match action state with
  | .ok result final => ended result final
  | .error violation final => stopped violation final

/-- The action runs to its end from `state`, in a result and a state that satisfy `ended`. -/
abbrev Ends (action : Action ω α) (state : ω) (ended : α → ω → Prop) : Prop :=
  Runs action state ended fun _ _ => False

section Runs

variable {action : Action ω α} {state : ω} {ended : α → ω → Prop}
  {stopped : Violation → ω → Prop}

instance [∀ result final, Decidable (ended result final)]
    [∀ violation final, Decidable (stopped violation final)]
    : Decidable (Runs action state ended stopped) :=
  show Decidable (match action state with
    | .ok result final => ended result final
    | .error violation final => stopped violation final) from
  match action state with
  | .ok result final => inferInstanceAs (Decidable (ended result final))
  | .error violation final => inferInstanceAs (Decidable (stopped violation final))

/-- What holds where an action ends or is stopped may be weakened. -/
theorem Runs.mono {weaker : α → ω → Prop} {laxer : Violation → ω → Prop}
    (runs : Runs action state ended stopped)
    (weaken : ∀ result final, ended result final → weaker result final)
    (relax : ∀ violation final, stopped violation final → laxer violation final)
    : Runs action state weaker laxer := by
  unfold Runs at runs ⊢
  cases run : action state with
  | ok result final => exact weaken result final (by simpa only [run] using runs)
  | error violation final => exact relax violation final (by simpa only [run] using runs)

/-- What holds at the end of an action may be weakened. -/
theorem Ends.mono {weaker : α → ω → Prop} (ends : Ends action state ended)
    (weaken : ∀ result final, ended result final → weaker result final)
    : Ends action state weaker :=
  Runs.mono ends weaken fun _ _ never => never

/-- What holds where an action ends or is stopped may be told in two parts. -/
theorem Runs.and {other : α → ω → Prop} {halted : Violation → ω → Prop}
    (runs : Runs action state ended stopped) (again : Runs action state other halted)
    : Runs action state (fun result final => ended result final ∧ other result final)
        fun violation final => stopped violation final ∧ halted violation final := by
  unfold Runs at runs again ⊢
  cases run : action state with
  | ok result final =>
      simp only [run] at runs again
      exact ⟨runs, again⟩
  | error violation final =>
      simp only [run] at runs again
      exact ⟨runs, again⟩

/-- An action that is not stopped has a result. -/
theorem Ends.exists_ok (ends : Ends action state ended)
    : ∃ result final, action state = .ok result final ∧ ended result final := by
  unfold Ends Runs at ends
  cases run : action state with
  | ok result final => exact ⟨result, final, rfl, by simpa only [run] using ends⟩
  | error violation final => simp [run] at ends

/-- What holds wherever an action ends holds of the end it is seen to have. -/
theorem Runs.of_ok (runs : Runs action state ended stopped) {result : α} {final : ω}
    (run : action state = .ok result final)
    : ended result final := by
  simpa only [Runs, run] using runs

/-- What holds wherever an action is stopped holds where it is seen to be stopped. -/
theorem Runs.of_error (runs : Runs action state ended stopped) {violation : Violation}
    {final : ω} (run : action state = .error violation final)
    : stopped violation final := by
  simpa only [Runs, run] using runs

/-- An action that ends is seen to end there. -/
theorem Runs.with_ok (runs : Runs action state ended stopped)
    : Runs action state (fun result final => action state = .ok result final ∧ ended result final)
        stopped := by
  unfold Runs at runs ⊢
  cases run : action state with
  | ok result final => exact ⟨rfl, by simpa only [run] using runs⟩
  | error => simpa only [run] using runs

-----------------------------------------------------------------------------------------
-- The steps of actions
-----------------------------------------------------------------------------------------

/-- An action is stopped where it is seen to be stopped. -/
theorem Runs.seen (runs : Runs action state ended stopped)
    : Runs action state ended fun violation final => action state = .error violation final := by
  unfold Runs at runs ⊢
  cases run : action state with
  | ok result final => simpa only [run] using runs
  | error => rfl

/-- An action runs somehow. -/
theorem runs_anyhow (action : Action ω α) (state : ω)
    : Runs action state (fun _ _ => True) fun _ _ => True := by
  unfold Runs
  cases action state <;> trivial

/-- An action runs the same from states from which it is known to. -/
theorem Runs.bind_congr {next other : α → Action ω β}
    (same
      : Runs action state (fun result middle => next result middle = other result middle)
          fun _ _ => True)
    : (action >>= next) state = (action >>= other) state := by
  change EStateM.bind action next state = EStateM.bind action other state
  unfold EStateM.bind
  cases run : action state with
  | ok result middle => exact same.of_ok run
  | error => rfl

/-- Looking at the state and going on from there. -/
theorem get_bind_apply (next : ω → Action ω α) (state : ω)
    : (get >>= next) state = next state state := rfl

/-- Answering at once. -/
@[simp] theorem runs_pure {result : α}
    : Runs (pure result) state ended stopped ↔ ended result state :=
  Iff.rfl

/-- Stopping at once. -/
@[simp] theorem runs_throw {violation : Violation}
    : Runs (throw violation) state ended stopped ↔ stopped violation state :=
  Iff.rfl

/-- One action after another. -/
@[simp] theorem runs_bind {next : α → Action ω β} {endedNext : β → ω → Prop}
    : Runs (action >>= next) state endedNext stopped
      ↔ Runs action state (fun result middle => Runs (next result) middle endedNext stopped)
        stopped := by
  simp only [Runs, bind, EStateM.bind]
  cases action state <;> rfl

/-- An action whose result is changed. -/
@[simp] theorem runs_map {change : α → β} {endedNext : β → ω → Prop}
    : Runs (change <$> action) state endedNext stopped
      ↔ Runs action state (fun result final => endedNext (change result) final) stopped := by
  rw [map_eq_pure_bind, runs_bind]
  rfl

/-- Looking at the state. -/
@[simp] theorem runs_get {ended : ω → ω → Prop}
    : Runs get state ended stopped ↔ ended state state :=
  Iff.rfl

/-- Changing the state. -/
@[simp] theorem runs_modify {change : ω → ω} {ended : PUnit → ω → Prop}
    : Runs (modify change) state ended stopped ↔ ended ⟨⟩ (change state) :=
  Iff.rfl

/-- Choosing between two actions. -/
theorem runs_ite {condition : Prop} [Decidable condition] {other : Action ω α}
    : Runs (if condition then action else other) state ended stopped
      ↔ if condition then Runs action state ended stopped
        else Runs other state ended stopped := by
  split_ifs <;> rfl

end Runs

namespace Site

variable {site : Site σ δ} {stopped : Violation → Site σ δ → Prop}

/-- Logging an event. -/
@[simp] theorem runs_report {event : Event} {ended : Unit → Site σ δ → Prop}
    : Runs (report event) site ended stopped
      ↔ ended () { site with log := event :: site.log } :=
  Iff.rfl

/-- Stopping with a violation, which is logged. -/
@[simp] theorem runs_stop {violation : Violation} {ended : α → Site σ δ → Prop}
    : Runs (stop violation) site ended stopped
      ↔ stopped violation { site with log := .fatal violation :: site.log } := by
  rw [stop, runs_bind, runs_report, runs_throw]

/-- Answering what is there; nothing there is a violation. -/
theorem runs_require {found : Option α} {violation : Violation} {ended : α → Site σ δ → Prop}
    : Runs (require found violation) site ended stopped
      ↔ match found with
        | some result => ended result site
        | none => stopped violation { site with log := .fatal violation :: site.log } := by
  cases found with
  | none => exact runs_stop
  | some result => exact runs_pure

/-- Answering what is there. -/
@[simp] theorem runs_require_some {result : α} {violation : Violation}
    {ended : α → Site σ δ → Prop}
    : Runs (require (some result) violation) site ended stopped ↔ ended result site :=
  Iff.rfl

/-- Changing memory. -/
@[simp] theorem runs_modifyRegions {change : Regions δ → Regions δ}
    {ended : Unit → Site σ δ → Prop}
    : Runs (modifyRegions change) site ended stopped
      ↔ ended () { site with regions := change site.regions } :=
  Iff.rfl

/-- Taking over the reply of a callback. -/
@[simp] theorem runs_accept {reply : Reply σ α} {ended : α → Site σ δ → Prop}
    : Runs (accept reply) site ended stopped
      ↔ ended reply.answer
        { site with
          host := reply.host
          log := (reply.notes.map Event.note).reverse ++ site.log } := by
  rw [accept, runs_bind, runs_modify, runs_pure]

end Site

namespace World

variable {world : World σ δ} {stopped : Violation → World σ δ → Prop}

/-- Working on the part of the world that callbacks see. -/
@[simp] theorem runs_onSite {action : Action (Site σ δ) α} {ended : α → World σ δ → Prop}
    : Runs (onSite action) world ended stopped
      ↔ Runs action world.site (fun result site => ended result (world.withSite site))
        fun violation site => stopped violation (world.withSite site) := by
  simp only [Runs, onSite]
  cases action world.site <;> rfl

/-- Logging an event. -/
@[simp] theorem runs_report {event : Event} {ended : Unit → World σ δ → Prop}
    : Runs (report event) world ended stopped
      ↔ ended () { world with log := event :: world.log } := by
  rw [report, runs_onSite, Site.runs_report]
  rfl

/-- Stopping with a violation, which is logged. -/
@[simp] theorem runs_stop {violation : Violation} {ended : α → World σ δ → Prop}
    : Runs (stop violation) world ended stopped
      ↔ stopped violation { world with log := .fatal violation :: world.log } := by
  rw [stop, runs_onSite, Site.runs_stop]
  rfl

/-- Answering what is there; nothing there is a violation. -/
theorem runs_require {found : Option α} {violation : Violation} {ended : α → World σ δ → Prop}
    : Runs (require found violation) world ended stopped
      ↔ match found with
        | some result => ended result world
        | none => stopped violation { world with log := .fatal violation :: world.log } := by
  rw [require, runs_onSite, Site.runs_require]
  cases found <;> rfl

/-- Answering a result; a violation in its place stops the action. -/
theorem runs_check {result : Except Violation α} {ended : α → World σ δ → Prop}
    : Runs (check result) world ended stopped
      ↔ match result with
        | .ok value => ended value world
        | .error violation =>
            stopped violation { world with log := .fatal violation :: world.log } := by
  cases result with
  | ok value => exact runs_pure
  | error violation => exact runs_stop

/-- Looking at the heap. -/
@[simp] theorem runs_heapNow {ended : Heap δ → World σ δ → Prop}
    : Runs heapNow world ended stopped ↔ ended world.heap world := by
  rw [heapNow, runs_map, runs_get]

/-- Changing the heap. -/
@[simp] theorem runs_modifyHeap {change : Heap δ → Heap δ} {ended : Unit → World σ δ → Prop}
    : Runs (modifyHeap change) world ended stopped
      ↔ ended () { world with heap := change world.heap } :=
  Iff.rfl

/-- Changing memory. -/
@[simp] theorem runs_modifyRegions {change : Regions δ → Regions δ}
    {ended : Unit → World σ δ → Prop}
    : Runs (modifyRegions change) world ended stopped
      ↔ ended ()
        { world with heap := { world.heap with regions := change world.heap.regions } } := by
  rw [modifyRegions, runs_onSite, Site.runs_modifyRegions]
  rfl

/-- Changing what the heap counts. -/
@[simp] theorem runs_count {change : Counters → Counters} {ended : Unit → World σ δ → Prop}
    : Runs (count change) world ended stopped
      ↔ ended ()
        { world with
          heap := { world.heap with counters := change world.heap.counters } } :=
  Iff.rfl

/-- Moving the collector to another phase. -/
@[simp] theorem runs_enterPhase {phase : Phase} {ended : Unit → World σ δ → Prop}
    : Runs (enterPhase phase) world ended stopped
      ↔ ended ()
        { world with
          heap := { world.heap with phase }
          log := .phaseChanged world.heap.phase phase :: world.log } := by
  rw [enterPhase, runs_bind, runs_heapNow, runs_bind, runs_report, runs_modifyHeap]

end World

end MovingHeap
