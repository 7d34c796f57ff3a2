import MovingHeap.Proofs.Executions

/-! Whole runs of a program, with collections in between, from heaps that were just set up.
What lies between two instructions goes unnoticed, so the runs stay abreast however they are
configured and whenever they collect.
-/

namespace MovingHeap

variable {σ τ δ ε : Type}

namespace World

variable {contract : Contract σ} {contract' : Contract τ} {loaded : Nat → Prop}
  {world first : World σ δ} {second : World τ ε}

-----------------------------------------------------------------------------------------
-- Heaps that were just set up
-----------------------------------------------------------------------------------------

/-- The heap was set up by a host that keeps its promise and no reference, and modules may have been
loaded since.
-/
inductive Prepared (contract : Contract σ) : World σ δ → Prop where
  | create {mapper : Mapper} {config : Config} {state : σ} {world : World σ δ}
      (created : World.create mapper config state = .ok world) (upholds : contract.Upholds state)
      (kept : ∀ value ∈ contract.roots state, value.address? = none)
      : Prepared contract world
  | load {world : World σ δ} (loader : Loader) (name searchPath : String) (wanted : Option Nat)
      (prepared : Prepared contract world)
      : Prepared contract (world.after (loadModule loader name searchPath wanted))

/-- Loading a module changes the table of modules at most, and its constant is null. -/
theorem runs_loadModule (loader : Loader) (name searchPath : String) (wanted : Option Nat)
    (world : World σ δ)
    : Ends (loadModule loader name searchPath wanted) world fun _ final =>
        ∃ modules : ModuleTable,
          final.heap = { world.heap with modules }
          ∧ ∀ rank,
              modules.constantAt rank = .null
              ∨ modules.constantAt rank = world.heap.modules.constantAt rank := by
  simp only [loadModule, runs_bind, runs_heapNow]
  split
  next => exact ⟨_, rfl, fun _ => Or.inr rfl⟩
  next rank claimed =>
    split
    next =>
      simp only [runs_bind, runs_report, runs_pure]
      exact ⟨_, rfl, fun _ => Or.inr rfl⟩
    next modules registered =>
      simp only [runs_bind, runs_report, runs_modifyHeap, runs_pure]
      obtain ⟨path, library, -, rfl⟩ := ModuleTable.eq_of_register registered
      refine ⟨_, rfl, fun other => ?_⟩
      rw [ModuleTable.constantAt_touch, ModuleTable.constantAt_put]
      split_ifs
      · exact Or.inl rfl
      · exact Or.inr rfl

/-- A heap that was just set up serves; no root holds anything, and no frame was entered. -/
theorem Prepared.serving (prepared : world.Prepared contract)
    : world.Serving contract
      ∧ (∀ root, world.heap.rootValue root = .null)
      ∧ world.heap.frames = {} := by
  induction prepared with
  | create created upholds kept =>
      obtain ⟨empty, rfl⟩ := created_of_create created
      refine ⟨⟨empty.sound upholds kept, empty.steady, empty.idle, fun begin occupant found => ?_⟩,
        empty.rootValue, empty.frames⟩
      rw [empty.fixed] at found
      cases found
  | @load before loader name searchPath wanted _ ih =>
      obtain ⟨serving, roots, frames⟩ := ih
      have loads := ((serving.toSound.loadModule loader name searchPath wanted).and
        (lasting_loadModule loader name searchPath wanted before)).and
        (runs_loadModule loader name searchPath wanted before)
      have ends : Ends _ before _ := loads.mono (fun _ _ => id) fun _ _ stopped => stopped.2
      obtain ⟨_, final, run, ⟨sound, lasts⟩, modules, heap, constants⟩ := ends.exists_ok
      rw [after, run]
      have idle : final.heap.phase = .idle := by
        rw [heap]
        exact serving.idle
      have steady := lasts.steady idle serving.steady
      refine ⟨⟨sound idle steady, steady, idle, ?_⟩, fun root => ?_, ?_⟩
      · rw [heap]
        exact serving.known
      · rw [heap]
        cases root with
        | module rank =>
            rcases constants rank with null | same
            · exact null
            · exact same.trans (roots (.module rank))
        | slot id position => exact roots (.slot id position)
        | pending handler => exact roots (.pending handler)
        | constant index => exact roots (.constant index)
      · rw [heap]
        exact frames

/-- Heaps that were just set up cannot be told apart. -/
theorem Prepared.abreast (prepared : first.Prepared contract) (prepared' : second.Prepared contract')
    (modules
      : ∀ rank,
          loaded rank →
          (second.heap.modules.get? rank).isSome = (first.heap.modules.get? rank).isSome)
    : Abreast contract contract' loaded first second := by
  obtain ⟨serving, roots, frames⟩ := prepared.serving
  obtain ⟨serving', roots', frames'⟩ := prepared'.serving
  have gone : ∀ {object : Address}, object.Decodes → object.toValue ≠ .null := by
    intro object valid null
    have found := Value.address?_toValue valid
    rw [null, Value.address?_null] at found
    cases found
  refine ⟨⟨serving, serving', by rw [frames, frames'], modules⟩,
    fun value other => value = .null ∧ other = .null, ⟨?_, ?_, ?_, ?_⟩, fun root =>
    ⟨roots root, roots' root⟩⟩
  · rintro value other ⟨rfl, rfl⟩ _
    rfl
  · rintro object other valid _ ⟨null, -⟩
    exact absurd null (gone valid)
  · rintro object other index valid _ ⟨null, -⟩ _
    exact absurd null (gone valid)
  · rintro value other value' other' ⟨rfl, rfl⟩ ⟨rfl, rfl⟩
    exact Iff.rfl

-----------------------------------------------------------------------------------------
-- Runs
-----------------------------------------------------------------------------------------

/-- A collection that nobody asked for goes unnoticed. -/
theorem Serving.extra (serving : world.Serving contract) (addressable : world.Addressable)
    {host : Host σ δ} (faithful : host.Faithful contract) (extra : Extra)
    : Runs (extra.run host) world
        (fun _ final =>
          final.Serving contract ∧ world.Unnoticed contract.layout final ∧ final.Addressable)
        fun _ _ => True := by
  have collects : ∀ wantsFull,
      Runs (Collector.collectFor host 0 wantsFull .requestedByUser) world
        (fun _ final =>
          final.Serving contract ∧ world.Unnoticed contract.layout final ∧ final.Addressable)
        fun _ _ => True := by
    intro wantsFull
    refine (serving.serves_collectFor serving.known addressable faithful 0 wantsFull _).mono ?_
      fun _ _ => id
    rintro _ final ⟨serves, unnoticed, collects⟩
    exact ⟨serves, unnoticed, collects.arena.le.trans addressable⟩
  cases extra with
  | minor => exact collects false
  | full => exact collects true

/-- Collections that nobody asked for go unnoticed, one after another. -/
theorem Serving.extras (serving : world.Serving contract) (addressable : world.Addressable)
    {host : Host σ δ} (faithful : host.Faithful contract) (extras : List Extra)
    : Runs (Extra.runAll host extras) world
        (fun _ final => final.Serving contract ∧ world.Unnoticed contract.layout final)
        fun _ _ => True := by
  induction extras generalizing world with
  | nil => exact ⟨serving, .refl world⟩
  | cons extra rest ih =>
      rw [Extra.runAll, runs_bind]
      refine (serving.extra addressable faithful extra).mono ?_ fun _ _ => id
      rintro _ middle ⟨serves, unnoticed, addressable'⟩
      refine (ih serves addressable').mono ?_ fun _ _ => id
      rintro _ final ⟨ends, later⟩
      exact ⟨ends, unnoticed.trans later⟩

/-- Runs of a program stay abreast, by one instruction after another. -/
theorem Abreast.program (abreast : Abreast contract contract' loaded first second)
    (layout : contract'.layout = contract.layout) {host : Host σ δ} {host' : Host τ ε}
    (faithful : host.Faithful contract) (faithful' : host'.Faithful contract')
    {plan plan' : List (List Extra)} {program : Program}
    (proper : program.Proper contract.layout host plan first)
    (links
      : ∀ instruction ∈ program, ∀ rank, .module rank ∈ instruction.places → loaded rank)
    : Both (program.run host plan) first (program.run host' plan') second
        fun answers final answers' final' =>
          final.Addressable → final'.Addressable → answers = answers' := by
  induction program generalizing plan plan' first second with
  | nil => exact .pure fun _ _ => rfl
  | cons instruction rest ih =>
      intro _ final _ final' run run' addressable addressable'
      -- each run in its steps
      obtain ⟨_, ready, collected, more⟩ := ok_of_bind run
      obtain ⟨answer, next, done, others⟩ := ok_of_bind more
      obtain ⟨answers, last, runs, ends⟩ := ok_of_bind others
      obtain ⟨_, ready', collected', more'⟩ := ok_of_bind run'
      obtain ⟨answer', next', done', others'⟩ := ok_of_bind more'
      obtain ⟨answers', last', runs', ends'⟩ := ok_of_bind others'
      cases ends
      cases ends'
      obtain ⟨begins, continues⟩ := proper.of_ok collected
      -- what can be told by addresses in the end could be told before
      have resumes := (resuming_extras (plan.headD []) first abreast.serves.steady
        abreast.serves.idle).of_ok collected
      have resumes' := (resuming_extras (plan'.headD []) second abreast.serves'.steady
        abreast.serves'.idle).of_ok collected'
      have steps := (resuming_instruction instruction ready resumes.steady resumes.idle).of_ok done
      have steps' :=
        (resuming_instruction instruction ready' resumes'.steady resumes'.idle).of_ok done'
      have there := ((resuming_program plan.tail rest next steps.steady steps.idle).of_ok
        runs).addressable addressable
      have there' := ((resuming_program plan'.tail rest next' steps'.steady steps'.idle).of_ok
        runs').addressable addressable'
      have here := steps.addressable there
      have here' := steps'.addressable there'
      -- the collections go unnoticed, and the instruction keeps the heaps abreast
      obtain ⟨serves, unnoticed⟩ := (abreast.serves.extras (resumes.addressable here) faithful
        (plan.headD [])).of_ok collected
      obtain ⟨serves', unnoticed'⟩ := (abreast.serves'.extras (resumes'.addressable here') faithful'
        (plan'.headD [])).of_ok collected'
      obtain ⟨same, later⟩ := (abreast.unnoticed layout unnoticed serves unnoticed' serves').instruction
        ⟨layout, faithful, faithful', here, here'⟩ begins (links instruction List.mem_cons_self)
        _ _ _ _ done done' there there'
      rw [same, ih later (continues.of_ok done)
        (fun other member => links other (List.mem_cons_of_mem _ member)) _ _ _ _ runs runs'
        addressable addressable']

end World

end MovingHeap
