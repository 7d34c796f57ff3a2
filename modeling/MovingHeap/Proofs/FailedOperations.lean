import MovingHeap.Mutator.Queries
import MovingHeap.Proofs.Guarantees
import MovingHeap.Proofs.StoppedCollections

/-! Operations that fail.
An operation that is stopped or refused while no collection runs has changed nothing, because it checks
all that can fail before it does anything. Only a collection that was begun may leave a trace.
-/

namespace MovingHeap

variable {σ δ α : Type}

-----------------------------------------------------------------------------------------
-- Requests
-----------------------------------------------------------------------------------------

/-- What can be asked of a heap and fail. -/
inductive Request (δ : Type) where
  | allocate (size : Nat)
  | allocateAligned (size align : Nat)
  | allocateFixed (size : Nat) (destructor : Option δ) (executable : Bool)
  | collect (size : Nat) (wantsFull : Bool)
  | enterFrame (descriptor : FrameDescriptor) (params : List Value)
  | exitFrame (id : FrameId)
  | frameDescriptor (id : FrameId)
  | frameSlot (id : FrameId) (kind : SlotKind) (index : Nat)
  | setFrameSlot (id : FrameId) (kind : SlotKind) (index : Nat) (value : Value)
  | load (addr : Address)
  | read (slot : Address)
  | store (addr : Address) (word : Word)
  | write (slot : Address) (value : Value)
  | forgetFixed (object : Address)
  | throwException (code : Int) (payload : Value)
  | loadModule (loader : Loader) (name searchPath : String) (wanted : Option Nat)
  | unloadModule (rank : Nat)
  | moduleSymbol (name : String) (rank : Option Nat)
  | setModuleConstant (rank : Nat) (value : Value)
  | moduleConstant (rank : Nat)
  | setModuleExtra (rank extra : Nat)

namespace Request

/-- An operation that is never refused, its answer left out. -/
def plain (action : Action (World σ δ) α) : Action (World σ δ) (Except ModuleError Unit) :=
  (fun _ => .ok ()) <$> action

/-- An operation that may be refused, its answer left out otherwise. -/
def refusable (action : Action (World σ δ) (Except ModuleError α))
    : Action (World σ δ) (Except ModuleError Unit) :=
  (Except.map fun _ => ()) <$> action

/-- Tries what is asked: it may be stopped or refused. -/
def attempt (host : Host σ δ) : Request δ → Action (World σ δ) (Except ModuleError Unit)
  | .allocate size => plain (World.allocate host size)
  | .allocateAligned size align => plain (World.allocateAligned host size align)
  | .allocateFixed size destructor executable =>
      plain (World.allocateFixed size destructor executable)
  | .collect size wantsFull => plain (World.collect host size wantsFull)
  | .enterFrame descriptor params => plain (World.enterFrame descriptor params)
  | .exitFrame id => plain (World.exitFrame id)
  | .frameDescriptor id => plain (World.frameDescriptor id)
  | .frameSlot id kind index => plain (World.frameSlot id kind index)
  | .setFrameSlot id kind index value => plain (World.setFrameSlot id kind index value)
  | .load addr => plain (World.load addr)
  | .read slot => plain (World.read slot)
  | .store addr word => plain (World.store addr word)
  | .write slot value => plain (World.write host slot value)
  | .forgetFixed object => plain (World.forgetFixed object)
  | .throwException code payload => plain (World.throwException code payload)
  | .loadModule loader name searchPath wanted =>
      refusable (World.loadModule loader name searchPath wanted)
  | .unloadModule rank => refusable (World.unloadModule rank)
  | .moduleSymbol name rank =>
      refusable ((fun heap : Heap δ => heap.moduleSymbol name rank) <$> World.heapNow)
  | .setModuleConstant rank value => refusable (World.setModuleConstant rank value)
  | .moduleConstant rank =>
      refusable ((fun heap : Heap δ => heap.moduleConstant rank) <$> World.heapNow)
  | .setModuleExtra rank extra => refusable (World.setModuleExtra rank extra)

end Request

namespace World

/-- The heap and its host are as they were. -/
def Untouched (before after : World σ δ) : Prop :=
  after.heap = before.heap ∧ after.host = before.host

/-- The heap and its host are as they were, or a collection began. -/
def Spared (before after : World σ δ) : Prop :=
  after.heap.collections = before.heap.collections → before.Untouched after

variable {host : Host σ δ} {world : World σ δ}

/-- Checking a result spares the heap. -/
theorem spared_check {result : Except Violation α} {ended : α → World σ δ → Prop}
    (ends : ∀ value, ended value world)
    : Runs (check result) world ended fun _ final => world.Spared final := by
  rw [runs_check]
  cases result with
  | ok value => exact ends value
  | error violation => exact fun _ => ⟨rfl, rfl⟩

/-- Asking for something to be there spares the heap. -/
theorem spared_require {found : Option α} {violation : Violation} {ended : α → World σ δ → Prop}
    (ends : ∀ value, ended value world)
    : Runs (require found violation) world ended fun _ final => world.Spared final := by
  rw [runs_require]
  cases found with
  | some value => exact ends value
  | none => exact fun _ => ⟨rfl, rfl⟩

/-- Handing out memory checks all that can fail first. -/
theorem spared_reserve (idle : world.heap.phase = .idle) (size stride : Nat)
    : Runs (reserve host size stride) world (fun _ _ => True) fun _ final => world.Spared final := by
  refine runs_reserve (fun _ _ => ⟨rfl, rfl⟩) (fun _ => trivial) fun wantsFull reason small => ?_
  refine (Collector.begun_collectFor host wantsFull reason idle small).mono (fun _ _ _ => trivial) ?_
  exact fun _ _ begun same => absurd same (Nat.ne_of_gt begun)

/-- Writing checks all that can fail first. -/
theorem spared_write (idle : world.heap.phase = .idle) (slot : Address) (value : Value)
    : Runs (write host slot value) world (fun _ _ => True) fun _ final => world.Spared final := by
  simp only [write, runs_bind, runs_ite, runs_pure]
  refine runs_store (fun _ _ => ⟨rfl, rfl⟩) fun regions _ => ?_
  split_ifs
  · refine runs_notifyStore (fun _ => trivial) (fun _ _ => trivial) (fun _ _ => trivial) fun _ => ?_
    refine (Collector.begun_collectFor host _ _ ?_ ?_).mono (fun _ _ _ => trivial) ?_
    · exact idle
    · exact Nat.zero_le _
    · exact fun _ _ begun same => absurd same (Nat.ne_of_gt begun)

/-- An operation that is never refused only has to spare the heap where it is stopped. -/
theorem runs_plain {action : Action (World σ δ) α} {stopped : Violation → World σ δ → Prop}
    (runs : Runs action world (fun _ _ => True) stopped)
    : Runs (Request.plain action) world
        (fun answer final => ∀ error, answer = .error error → world.Untouched final) stopped := by
  rw [Request.plain, runs_map]
  exact runs.mono (fun _ _ _ _ accepted => by cases accepted) fun _ _ => id

/-- An operation that may be refused is refused where its answer says so. -/
theorem runs_refusable {action : Action (World σ δ) (Except ModuleError α)}
    {stopped : Violation → World σ δ → Prop}
    (runs
      : Runs action world
          (fun answer final => ∀ error, answer = .error error → world.Untouched final) stopped)
    : Runs (Request.refusable action) world
        (fun answer final => ∀ error, answer = .error error → world.Untouched final) stopped := by
  rw [Request.refusable, runs_map]
  refine runs.mono (fun answer final untouched error refused => ?_) fun _ _ => id
  cases answer with
  | ok _ => cases refused
  | error other => exact untouched other rfl

/-- A module table is replaced or the answer is a refusal. -/
theorem untouched_updateModules (result : Except ModuleError ModuleTable)
    : Runs (updateModules result) world
        (fun answer final => ∀ error, answer = .error error → world.Untouched final)
        fun _ final => world.Spared final := by
  cases result with
  | error error => exact fun _ _ => ⟨rfl, rfl⟩
  | ok modules => exact fun _ accepted => by cases accepted

/-- An operation that is stopped or refused on a heap on which no collection runs has changed neither the
heap nor the state of the host, unless it began a collection.
-/
theorem failures_leave_heap (idle : world.heap.phase = .idle) (host : Host σ δ) (request : Request δ)
    : Runs (request.attempt host) world
        (fun answer final => ∀ error, answer = .error error → world.Untouched final)
        fun _ final =>
          final.heap.collections = world.heap.collections → world.Untouched final := by
  cases request with
  | allocate size =>
      refine runs_plain ?_
      simp only [World.allocate, ensureIdle, runs_bind, runs_heapNow, idle, ne_eq, not_true_eq_false,
        if_false, runs_pure]
      exact spared_reserve idle size 1
  | allocateAligned size align =>
      refine runs_plain ?_
      simp only [World.allocateAligned, ensureIdle, runs_bind, runs_heapNow, idle, ne_eq,
        not_true_eq_false, if_false, runs_pure, runs_ite, runs_stop]
      split_ifs
      · exact spared_reserve idle size _
      · exact fun _ => ⟨rfl, rfl⟩
  | allocateFixed size destructor executable =>
      refine runs_plain ?_
      simp only [World.allocateFixed, ensureIdle, requestFull, runs_bind, runs_heapNow, idle, ne_eq,
        not_true_eq_false, if_false, runs_pure, runs_modifyRegions, runs_count, runs_ite,
        runs_modifyHeap, ite_self]
  | collect size wantsFull =>
      refine runs_plain ?_
      by_cases small : wordsFor size ≤ world.heap.regions.birth.maxObjectWords
      · refine (Collector.begun_collectFor host wantsFull _ idle small).mono (fun _ _ _ => trivial) ?_
        exact fun _ _ begun same => absurd same (Nat.ne_of_gt begun)
      · refine Collector.runs_collectFor (fun busy => absurd idle busy) (fun _ _ _ => ⟨rfl, rfl⟩)
          (fun _ small' => absurd small' small) fun _ small' => absurd small' small
  | enterFrame descriptor params =>
      refine runs_plain ?_
      simp only [World.enterFrame, runs_bind, runs_heapNow, runs_modifyHeap, runs_pure]
      exact spared_check fun _ => trivial
  | exitFrame id =>
      refine runs_plain ?_
      simp only [World.exitFrame, runs_bind, runs_heapNow, runs_modifyHeap]
      exact spared_check fun _ => trivial
  | frameDescriptor id =>
      refine runs_plain ?_
      simp only [World.frameDescriptor, runs_bind, runs_heapNow]
      exact spared_check fun _ => trivial
  | frameSlot id kind index =>
      refine runs_plain ?_
      simp only [World.frameSlot, runs_bind, runs_heapNow]
      exact spared_check fun _ => trivial
  | setFrameSlot id kind index value =>
      refine runs_plain ?_
      simp only [World.setFrameSlot, runs_bind, runs_heapNow, runs_modifyHeap]
      exact spared_check fun _ => trivial
  | load addr =>
      refine runs_plain ?_
      simp only [World.load, runs_bind, runs_heapNow]
      exact spared_require fun _ => trivial
  | read slot =>
      refine runs_plain ?_
      simp only [World.read, World.load, runs_map, runs_bind, runs_heapNow]
      exact spared_require fun _ => trivial
  | store addr word => exact runs_plain (runs_store (fun _ _ => ⟨rfl, rfl⟩) fun _ _ => trivial)
  | write slot value => exact runs_plain (spared_write idle slot value)
  | forgetFixed object =>
      refine runs_plain ?_
      simp only [World.forgetFixed, runs_bind, runs_heapNow, runs_modifyRegions]
      exact spared_require fun _ => trivial
  | throwException code payload =>
      refine runs_plain ?_
      simp only [World.throwException, runs_bind, runs_heapNow, runs_modifyHeap, runs_pure]
      exact spared_require fun _ => trivial
  | loadModule loader name searchPath wanted =>
      refine runs_refusable ?_
      simp only [World.loadModule, runs_bind, runs_heapNow]
      split
      · exact fun _ _ => ⟨rfl, rfl⟩
      · split
        · simp only [runs_bind, runs_report, runs_pure]
          exact fun _ _ => ⟨rfl, rfl⟩
        · simp only [runs_bind, runs_report, runs_modifyHeap, runs_pure]
          exact fun _ accepted => by cases accepted
  | unloadModule rank =>
      refine runs_refusable ?_
      simp only [World.unloadModule, runs_bind, runs_heapNow]
      split
      · exact fun _ _ => ⟨rfl, rfl⟩
      · simp only [runs_bind, runs_report, runs_modifyHeap, runs_pure]
        exact fun _ accepted => by cases accepted
  | moduleSymbol name rank => exact runs_refusable fun _ _ => ⟨rfl, rfl⟩
  | setModuleConstant rank value => exact runs_refusable (untouched_updateModules _)
  | moduleConstant rank => exact runs_refusable fun _ _ => ⟨rfl, rfl⟩
  | setModuleExtra rank extra => exact runs_refusable (untouched_updateModules _)

/-- More memory than the birth region has is refused before anything is made room for. -/
theorem failures_leave_heap_large
    : Record.youngWorld.heap.phase = .idle
      ∧ Runs ((Request.allocate 4096).attempt Record.host) Record.youngWorld
          (fun _ _ => False)
          fun violation final =>
            violation = .objectTooLarge 4096 960 ∧ Record.youngWorld.Untouched final := by
  have stops : Runs ((Request.allocate 4096).attempt Record.host) Record.youngWorld
      (fun _ _ => False)
      fun violation final =>
        violation = .objectTooLarge 4096 960
        ∧ final.heap.collections = Record.youngWorld.heap.collections := by
    decide +kernel
  have fails := failures_leave_heap Record.idle_young Record.host (.allocate 4096)
  refine ⟨Record.idle_young, (stops.and fails).mono (fun _ _ never => never.1) ?_⟩
  exact fun _ _ stopped => ⟨stopped.1.1, stopped.2 stopped.1.2⟩

end World

end MovingHeap
