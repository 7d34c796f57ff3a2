import MovingHeap.Proofs.Places

/-! What a program leaves behind wherever it is not stopped.
No collection runs then, the heap is steady, and the fixed space is no smaller than before. This holds of
every step on its own, whatever the references in the heap are.
-/

namespace MovingHeap

variable {σ δ α β : Type}

namespace World

/-- No collection runs afterwards, the heap is steady, and no fixed space was lost. -/
structure Resumes (before after : World σ δ) : Prop where
  idle : after.heap.phase = .idle
  steady : after.heap.Steady
  arena : before.heap.regions.fixed.arena.size ≤ after.heap.regions.fixed.arena.size

/-- Where the action ends on a steady heap on which no collection runs, the heap is like that again. -/
def Resuming (action : Action (World σ δ) α) : Prop :=
  ∀ world : World σ δ,
    world.heap.Steady →
    world.heap.phase = .idle →
    Runs action world (fun _ final => world.Resumes final) fun _ _ => True

/-- What can be told by addresses in the end could be told by them before. -/
theorem Resumes.addressable {before after : World σ δ} (resumes : before.Resumes after)
    (addressable : after.Addressable)
    : before.Addressable :=
  resumes.arena.trans addressable

namespace Resuming

theorem pure (result : α) : Resuming (σ := σ) (δ := δ) (Pure.pure result) := fun _ steady idle =>
  ⟨idle, steady, Nat.le_refl _⟩

theorem bind {action : Action (World σ δ) α} {next : α → Action (World σ δ) β}
    (first : Resuming action) (second : ∀ result, Resuming (next result))
    : Resuming (action >>= next) := by
  intro world steady idle
  rw [runs_bind]
  refine (first world steady idle).mono (fun result middle resumes => ?_) fun _ _ => id
  refine (second result middle resumes.steady resumes.idle).mono (fun _ final further => ?_)
    fun _ _ => id
  exact ⟨further.idle, further.steady, resumes.arena.trans further.arena⟩

theorem map {action : Action (World σ δ) α} (resuming : Resuming action) (change : α → β)
    : Resuming (change <$> action) := by
  intro world steady idle
  rw [runs_map]
  exact resuming world steady idle

/-- An action that leaves the world as it is. -/
theorem of_same {action : Action (World σ δ) α} {holds : World σ δ → α → Prop}
    (same
      : ∀ world, Runs action world (fun result final => final = world ∧ holds world result)
          fun _ _ => True)
    : Resuming action := by
  intro world steady idle
  refine (same world).mono ?_ fun _ _ => id
  rintro _ _ ⟨rfl, -⟩
  exact ⟨idle, steady, Nat.le_refl _⟩

/-- An action that lasts and does not end while a collection runs. -/
theorem of_lasting {action : Action (World σ δ) α} (lasting : Lasting action)
    (ends
      : ∀ world : World σ δ,
          world.heap.Steady →
          world.heap.phase = .idle →
          Runs action world (fun _ final => final.heap.phase = .idle) fun _ _ => True)
    : Resuming action := by
  intro world steady idle
  refine ((lasting world).and (ends world steady idle)).mono ?_ fun _ _ _ => trivial
  rintro _ final ⟨lasts, rests⟩
  exact ⟨rests, lasts.steady rests steady, lasts.arena rests steady⟩

end Resuming

section Steps

variable {host : Host σ δ}

theorem resuming_collectFor (words : Nat) (wantsFull : Bool) (reason : Reason)
    : Resuming (Collector.collectFor host words wantsFull reason) :=
  .of_lasting (lasting_collectFor host words wantsFull reason) fun _ steady _ =>
    (Collector.collects_collectFor host words wantsFull reason steady.toRegular).mono
      (fun _ _ reached => reached.2.idle) fun _ _ _ => trivial

theorem resuming_reserve (size stride : Nat) : Resuming (reserve host size stride) := by
  refine .of_lasting (lasting_reserve host size stride) fun world steady idle => ?_
  refine runs_reserve (fun _ => trivial) (fun _ => idle) fun wantsFull reason _ => ?_
  exact (resuming_collectFor _ wantsFull reason world steady idle).mono
    (fun _ _ resumes => resumes.idle) fun _ _ => id

/-- What is done once the heap was found idle. -/
theorem resuming_ensureIdle {next : Unit → Action (World σ δ) α} (resuming : Resuming (next ()))
    : Resuming (ensureIdle >>= next) := by
  intro world steady idle
  rw [runs_bind, runs_ensureIdle idle]
  exact resuming world steady idle

theorem resuming_claim (size : Nat) (align : Option Nat)
    : Resuming (Instruction.claim host size align) := by
  cases align with
  | none => exact resuming_ensureIdle (resuming_reserve size 1)
  | some align =>
      refine resuming_ensureIdle ?_
      split_ifs
      · exact resuming_reserve size _
      · intro world _ _
        rw [runs_stop]
        trivial

theorem resuming_allocateFixed (size : Nat) (executable : Bool)
    : Resuming (allocateFixed size none executable : Action (World σ δ) Address) := by
  refine .of_lasting (lasting_allocateFixed size none executable) fun world _ idle => ?_
  unfold allocateFixed
  rw [runs_bind, runs_ensureIdle idle]
  simp only [runs_bind, runs_heapNow, runs_modifyRegions, runs_count, runs_ite, requestFull,
    runs_modifyHeap, runs_pure]
  split_ifs <;> exact idle

theorem resuming_store (addr : Address) (word : Word)
    : Resuming (store addr word : Action (World σ δ) Unit) :=
  .of_lasting (lasting_store addr word) fun _ _ idle =>
    runs_store (fun _ => trivial) fun _ _ => idle

theorem resuming_notifyStore (slot : Address) : Resuming (notifyStore host slot) := by
  refine .of_lasting (lasting_notifyStore slot) fun world steady idle => ?_
  refine runs_notifyStore (fun _ => idle) (fun _ _ => idle) (fun _ _ => idle) fun _ => ?_
  exact (Collector.collects_collectFor host 0 false .storeBufferFull
    (regular_recorded steady slot)).mono (fun _ _ reached => reached.2.idle) fun _ _ _ => trivial

theorem resuming_write (slot : Address) (value : Value) : Resuming (write host slot value) := by
  refine .bind (resuming_store slot value.raw) fun _ => ?_
  split_ifs
  · exact resuming_notifyStore slot
  · exact .pure ()

theorem resuming_load (addr : Address) : Resuming (load addr : Action (World σ δ) Word) := by
  intro world steady idle
  simp only [load, runs_bind, runs_heapNow, runs_require]
  split
  · exact ⟨idle, steady, Nat.le_refl _⟩
  · trivial

theorem resuming_enterFrame (descriptor : FrameDescriptor) (params : List Value)
    : Resuming (enterFrame descriptor params : Action (World σ δ) FrameId) := by
  refine .of_lasting (lasting_enterFrame descriptor params) fun world _ idle => ?_
  simp only [enterFrame, runs_bind, runs_heapNow, runs_check, runs_modifyHeap, runs_pure]
  split
  · exact idle
  · trivial

theorem resuming_exitFrame (id : FrameId)
    : Resuming (exitFrame id : Action (World σ δ) Unit) := by
  refine .of_lasting (lasting_exitFrame id) fun world _ idle => ?_
  simp only [exitFrame, runs_bind, runs_heapNow, runs_check, runs_modifyHeap]
  split
  · exact idle
  · trivial

theorem resuming_placeWrite (place : Place) (value : Value)
    : Resuming (place.write value : Action (World σ δ) Unit) :=
  .of_lasting (lasting_placeWrite place value) fun world _ idle =>
    (puts_placeWrite place value world).mono (fun _ _ puts => puts.phase.trans idle) fun _ _ => id

theorem resuming_initialise (object : Address) (index : Nat) (operands : List Operand)
    : Resuming (initialise object index operands : Action (World σ δ) Unit) := by
  induction operands generalizing index with
  | nil => exact .pure ()
  | cons operand rest ih =>
      exact .bind (.of_same (runs_operandRead operand)) fun _ =>
        .bind (resuming_store _ _) fun _ => ih (index + 1)

/-- Every instruction resumes. -/
theorem resuming_instruction (instruction : Instruction) : Resuming (instruction.run host) := by
  have operand : ∀ operand : Operand, Resuming (operand.read : Action (World σ δ) Value) :=
    fun operand => .of_same (runs_operandRead operand)
  have referent : ∀ place : Place, Resuming (place.referent : Action (World σ δ) Address) :=
    fun place => .of_same (runs_referent place)
  have keep : ∀ (target : Place) (value : Value),
      Resuming (do
        target.write value
        return Answer.nothing : Action (World σ δ) Answer) :=
    fun target value => .bind (resuming_placeWrite target value) fun _ => .pure _
  cases instruction with
  | put target source => exact .bind (operand source) fun _ => keep target _
  | record target align words =>
      exact .bind (resuming_claim _ align) fun object =>
        .bind (resuming_initialise object 0 words) fun _ => keep target _
  | fixed target size executable =>
      exact .bind (resuming_allocateFixed size executable) fun _ => keep target _
  | read target source index =>
      exact .bind (referent source) fun _ => .bind ((resuming_load _).map _) fun _ => keep target _
  | write target index source =>
      exact .bind (referent target) fun _ => .bind (operand source) fun _ =>
        .bind (resuming_write _ _) fun _ => .pure _
  | enter descriptor params =>
      exact .bind (.of_same (runs_readAll params)) fun _ =>
        .bind (resuming_enterFrame descriptor _) fun _ => .pure _
  | exit frame => exact .bind (resuming_exitFrame frame) fun _ => .pure _
  | integer source => exact .bind (.of_same (runs_placeRead source)) fun _ => .pure _
  | datum source index =>
      exact .bind (referent source) fun _ => .bind (resuming_load _) fun _ => .pure _
  | isNull source => exact .bind (.of_same (runs_placeRead source)) fun _ => .pure _
  | equal first second =>
      exact .bind (.of_same (runs_placeRead first)) fun _ =>
        .bind (.of_same (runs_placeRead second)) fun _ => .pure _

/-- Collections that nobody asked for resume, one after another. -/
theorem resuming_extras (extras : List Extra) : Resuming (Extra.runAll host extras) := by
  induction extras with
  | nil => exact .pure ()
  | cons extra rest ih =>
      refine .bind ?_ fun _ => ih
      cases extra with
      | minor => exact resuming_collectFor 0 false _
      | full => exact resuming_collectFor 0 true _

/-- Every program resumes, by one instruction after another. -/
theorem resuming_program (plan : List (List Extra)) (program : Program)
    : Resuming (program.run host plan) := by
  induction program generalizing plan with
  | nil => exact .pure _
  | cons instruction rest ih =>
      exact .bind (resuming_extras _) fun _ => .bind (resuming_instruction instruction) fun _ =>
        .bind (ih plan.tail) fun _ => .pure _

end Steps

end World

end MovingHeap
