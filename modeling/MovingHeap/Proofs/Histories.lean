import MovingHeap.Proofs.Courses

/-! Whole runs of a host that plays by the rules, step by step.
What becomes of a value in a run is what the collections on the way make of it, one after another.
-/

namespace MovingHeap

variable {σ δ α : Type}

/-- A step of a run: an operation with the callbacks it runs under, or a change that the host makes to
its own state.
-/
inductive Step (σ δ : Type) where
  | operate (host : Host σ δ) (operation : Operation δ)
  | change (state : σ)

namespace Step

/-- What a step does. -/
def run : Step σ δ → Action (World σ δ) Unit
  | operate host operation => operation.run host
  | change state => modify ({ · with host := state })

/-- The host plays by the rules in the step. -/
def Conforms (contract : Contract σ) (world : World σ δ) : Step σ δ → Prop
  | operate host operation => host.Faithful contract ∧ operation.Permitted contract world
  | change state => ({ world with host := state } : World σ δ).WellFormed contract []

/-- What values become by the step: they stay what they are if no collection runs, and otherwise the
collection that the operation lets run moves them.
-/
inductive Moves (contract : Contract σ) (world : World σ δ)
    : Step σ δ → (Value → Value) → Prop where
  | rests {step : Step σ δ}
      (same : (world.after step.run).heap.collections = world.heap.collections)
      : Moves contract world step id
  | collects {host : Host σ δ} {operation : Operation δ} {middle : World σ δ}
      {move : Value → Value}
      (collected : World.Collected contract move (operation.start world) middle)
      (finished : world.after (operation.run host) = operation.finish middle)
      : Moves contract world (.operate host operation) move

end Step

namespace World

/-- Steps one after another. -/
def perform : List (Step σ δ) → Action (World σ δ) Unit
  | [] => pure ()
  | step :: rest => do
      step.run
      perform rest

/-- The world that steps lead to. -/
def play (world : World σ δ) : List (Step σ δ) → World σ δ
  | [] => world
  | step :: rest => (world.after step.run).play rest

/-- The host plays by the rules in every step, and the fixed space can be told by addresses. -/
def Plays (contract : Contract σ) (world : World σ δ) : List (Step σ δ) → Prop
  | [] => world.Addressable
  | step :: rest =>
      world.Addressable ∧ step.Conforms contract world ∧ (world.after step.run).Plays contract rest

/-- What values become by the steps, one after another. -/
def Moves (contract : Contract σ) (world : World σ δ)
    : List (Step σ δ) → (Value → Value) → Prop
  | [], move => move = id
  | step :: rest, move =>
      ∃ first later,
        step.Moves contract world first
        ∧ (world.after step.run).Moves contract rest later
        ∧ move = later ∘ first

variable {contract : Contract σ} {world : World σ δ}

-----------------------------------------------------------------------------------------
-- Collections
-----------------------------------------------------------------------------------------

/-- Roots hold what the collections made of what they held. -/
theorem Collected.roots {move : Value → Value} {before after : World σ δ}
    (collected : World.Collected contract move before after) (root : Root)
    : after.heap.rootValue root = move (before.heap.rootValue root) := by
  cases collected with
  | promoted promotes => exact promotes.roots root
  | compacted compacts => exact compacts.roots root
  | both promotes _ compacts =>
      rw [compacts.roots, promotes.roots]
      rfl

/-- At least one collection is counted. -/
theorem Collected.counted {move : Value → Value} {before after : World σ δ}
    (collected : World.Collected contract move before after)
    : before.heap.collections < after.heap.collections := by
  cases collected with
  | promoted promotes => exact Nat.lt_of_lt_of_eq (Nat.lt_succ_self _) promotes.numbered.symm
  | compacted compacts => exact Nat.lt_of_lt_of_eq (Nat.lt_succ_self _) compacts.numbered.symm
  | both promotes _ compacts =>
      have first := promotes.numbered
      have second := compacts.numbered
      omega

end World

-----------------------------------------------------------------------------------------
-- Steps
-----------------------------------------------------------------------------------------

namespace Step

variable {contract : Contract σ} {world : World σ δ}

/-- A step counts the collections that it lets run, and without one values stay what they are. -/
theorem Moves.counts {step : Step σ δ} {move : Value → Value}
    (moves : step.Moves contract world move)
    : world.heap.collections ≤ (world.after step.run).heap.collections
      ∧ ((world.after step.run).heap.collections = world.heap.collections → move = id) := by
  cases moves with
  | rests same => exact ⟨Nat.le_of_eq same.symm, fun _ => rfl⟩
  | @collects host operation middle _ collected finished =>
      have counted := collected.counted
      obtain ⟨regions, counters, log, -, -, start⟩ := operation.start_eq world
      obtain ⟨birth, finish⟩ := operation.finish_eq middle
      rw [start] at counted
      have more : world.heap.collections
          < (world.after (Step.operate host operation).run).heap.collections := by
        rw [Step.run, finished, finish]
        exact counted
      exact ⟨Nat.le_of_lt more, fun same => absurd same (Nat.ne_of_gt more)⟩

/-- A step that ends leaves the heap idle. -/
theorem runs_idle {step : Step σ δ} (conforming : world.Conforming contract)
    (idle : world.heap.phase = .idle) (addressable : world.Addressable)
    (conforms : step.Conforms contract world)
    : Runs step.run world (fun _ final => final.heap.phase = .idle) fun _ _ => True := by
  cases step with
  | change state => exact idle
  | operate host operation =>
      have sound := conforming.sound idle addressable
      have steady := conforming.reachable.steady idle
      have takes := Operation.takes_run sound steady addressable conforms.1 conforms.2
      refine takes.mono (fun _ final course => ?_) fun _ _ _ => trivial
      cases course with
      | direct spares => exact spares.phase.trans idle
      | @collected words wantsFull reason middle _ begins reaches collects =>
          have kept := (begins.collectFor reaches conforms.1 _ _ _).of_ok collects
          obtain ⟨birth, finish⟩ := operation.finish_eq middle
          rw [finish]
          exact kept.1.idle

end Step

namespace World

variable {contract : Contract σ} {world : World σ δ}

/-- An action leaves what it leaves. -/
theorem runs_after (action : Action (World σ δ) α) (world : World σ δ)
    : Runs action world (fun _ final => final = world.after action)
        fun _ final => final = world.after action := by
  unfold Runs after
  cases action world <;> rfl

/-- What holds of the world that an action leaves holds where it ends. -/
theorem runs_of_after {action : Action (World σ δ) α} {world : World σ δ}
    {holds : World σ δ → Prop} (there : holds (world.after action))
    : Runs action world (fun _ final => holds final) fun _ _ => True :=
  (runs_after action world).mono (fun _ _ same => same ▸ there) fun _ _ _ => trivial

/-- Steps that end lead where they lead, by one step after another. -/
theorem runs_perform (steps : List (Step σ δ)) (world : World σ δ)
    : Runs (perform steps) world (fun _ final => final = world.play steps) fun _ _ => True := by
  induction steps generalizing world with
  | nil => rfl
  | cons step rest ih =>
      rw [perform, runs_bind]
      refine (runs_after step.run world).mono (fun _ middle same => ?_) fun _ _ _ => trivial
      rw [same]
      exact ih (world.after step.run)

/-- Whoever plays by the rules in a step goes on to do so. -/
theorem Conforming.step {step : Step σ δ} (conforming : world.Conforming contract)
    (conforms : step.Conforms contract world)
    : (world.after step.run).Conforming contract := by
  cases step with
  | operate host operation => exact .operate conforming conforms.1 conforms.2
  | change state => exact .change state conforming conforms

/-- Whoever plays by the rules in all steps has done so, by one step after another. -/
theorem Conforming.play {steps : List (Step σ δ)} (conforming : world.Conforming contract)
    (plays : world.Plays contract steps)
    : (world.play steps).Conforming contract := by
  induction steps generalizing world with
  | nil => exact conforming
  | cons step rest ih => exact ih (conforming.step plays.2.1) plays.2.2

/-- Without a collection values stay what they are. -/
theorem Moves.counts {steps : List (Step σ δ)} {move : Value → Value}
    (moves : world.Moves contract steps move)
    : world.heap.collections ≤ (world.play steps).heap.collections
      ∧ ((world.play steps).heap.collections = world.heap.collections → move = id) := by
  induction steps generalizing world move with
  | nil => exact ⟨Nat.le_refl _, fun _ => moves⟩
  | cons step rest ih =>
      obtain ⟨first, later, begins, further, rfl⟩ := moves
      obtain ⟨least, alone⟩ := begins.counts
      obtain ⟨least', alone'⟩ := ih further
      refine ⟨Nat.le_trans least least', fun same => ?_⟩
      rw [play] at same
      rw [alone (by omega), alone' (by omega)]
      rfl

-----------------------------------------------------------------------------------------
-- Runs in two parts
-----------------------------------------------------------------------------------------

/-- Steps in two parts. -/
theorem runs_perform_append {steps rest : List (Step σ δ)} {ended : Unit → World σ δ → Prop}
    {stopped : Violation → World σ δ → Prop}
    : Runs (perform (steps ++ rest)) world ended stopped
      ↔ Runs (perform steps) world (fun _ middle => Runs (perform rest) middle ended stopped)
          stopped := by
  induction steps generalizing world with
  | nil => rfl
  | cons step steps ih => simp only [List.cons_append, perform, runs_bind, ih]

/-- The world that steps in two parts lead to. -/
theorem play_append (world : World σ δ) (steps rest : List (Step σ δ))
    : world.play (steps ++ rest) = (world.play steps).play rest := by
  induction steps generalizing world with
  | nil => rfl
  | cons step steps ih => exact ih (world.after step.run)

/-- Whoever plays by the rules does so in each part. -/
theorem plays_append {steps rest : List (Step σ δ)}
    (plays : world.Plays contract (steps ++ rest))
    : world.Plays contract steps ∧ (world.play steps).Plays contract rest := by
  induction steps generalizing world with
  | nil => exact ⟨by cases rest <;> first | exact plays | exact plays.1, plays⟩
  | cons step steps ih =>
      obtain ⟨first, further⟩ := ih plays.2.2
      exact ⟨⟨plays.1, plays.2.1, first⟩, further⟩

end World

end MovingHeap
