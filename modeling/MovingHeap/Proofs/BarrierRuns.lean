import MovingHeap.Proofs.Histories
import MovingHeap.Proofs.StoppedCollections

/-! Calls of the write barrier while no collection begins.
A slot that is reported is among the records afterwards: it was recorded, or found among those recorded
just before. So two runs of the same calls leave the same but for how often and in which order slots are
recorded, whether or not the one looks for duplicates.
-/

namespace MovingHeap

variable {σ δ : Type}

/-- A call of the write barrier, by itself or for a value that is written. -/
inductive BarrierCall where
  | notifyStore (slot : Address)
  | write (slot : Address) (value : Value)

namespace BarrierCall

/-- The slot that the barrier is called for. -/
def slot : BarrierCall → Address
  | notifyStore slot => slot
  | write slot _ => slot

/-- The call as an operation. -/
def operation : BarrierCall → Operation δ
  | notifyStore slot => .notifyStore slot
  | write slot value => .write slot value

/-- The call as a step of a host. -/
def step (host : Host σ δ) (call : BarrierCall) : Step σ δ := .operate host call.operation

/-- A slot outside of the birth region is reported: the host says so itself, or the value that it could
write there leads into the birth region.
-/
def Reports (world : World σ δ) : BarrierCall → Prop
  | notifyStore slot => slot.space ≠ .birth
  | write slot value =>
      slot.space ≠ .birth
      ∧ value.isBirth
      ∧ (world.heap.regions.setWord? slot value.raw).isSome

instance (world : World σ δ) : (call : BarrierCall) → Decidable (call.Reports world)
  | notifyStore slot => inferInstanceAs (Decidable (slot.space ≠ .birth))
  | write slot value =>
      inferInstanceAs
        (Decidable
          (slot.space ≠ .birth
            ∧ value.isBirth
            ∧ (world.heap.regions.setWord? slot value.raw).isSome))

end BarrierCall

/-- The heap without its records, without whether duplicates are looked for and without what is counted
about either.
-/
def Heap.withoutRecords (heap : Heap δ) : Heap δ :=
  { heap with
    config := { heap.config with storeBufferDedup := false }
    regions := { heap.regions with
      birth := { heap.regions.birth with
        words := .zeroed heap.regions.birth.capacity
        bufferStart := heap.regions.birth.capacity } }
    counters := { heap.counters with barrierRecords := 0, barrierDuplicates := 0 } }

namespace World

/-- Two worlds have the same slots recorded and are the same otherwise, but for how often and in which
order slots are recorded, for the flag and the counters that go with it and for what is logged. Birth
words are compared as far as neither holds records.
-/
structure SameButRecords (first second : World σ δ) : Prop where
  host : second.host = first.host
  heap : second.heap.withoutRecords = first.heap.withoutRecords
  words
    : ∀ index,
        index < first.heap.regions.birth.bufferStart →
        index < second.heap.regions.birth.bufferStart →
        second.heap.regions.birth.words.get index = first.heap.regions.birth.words.get index
  records
    : ∀ word,
        word ∈ second.heap.regions.birth.remembered ↔ word ∈ first.heap.regions.birth.remembered

/-- The world where duplicates are looked for or not. -/
def deduplicating (world : World σ δ) (flag : Bool) : World σ δ :=
  { world with
    heap := { world.heap with config := { world.heap.config with storeBufferDedup := flag } } }

/-- The world that calls of the write barrier lead to; what a violation stopped stays as it is then. -/
def called (world : World σ δ) (host : Host σ δ) (calls : List BarrierCall) : World σ δ :=
  world.play (calls.map (BarrierCall.step host))

-----------------------------------------------------------------------------------------
-- What a call leaves
-----------------------------------------------------------------------------------------

/-- The world after a word was stored, if it may be stored. -/
def stored (world : World σ δ) (slot : Address) (word : Word) : World σ δ :=
  match world.heap.regions.setWord? slot word with
  | some regions => world.withRegions regions
  | none => world

/-- The world after a slot was reported that was recorded or found among the last ones. -/
def noticed (world : World σ δ) (slot : Address) : World σ δ :=
  if world.heap.config.storeBufferDedup && world.heap.regions.birth.recentlyRemembered slot then
    { world with
      heap := { world.heap with
        counters :=
          { world.heap.counters with
            barrierDuplicates := world.heap.counters.barrierDuplicates + 1 } } }
  else world.recorded slot

end World

namespace BarrierCall

/-- What the call stores. -/
def stores (world : World σ δ) : BarrierCall → World σ δ
  | notifyStore _ => world
  | write slot value => world.stored slot value.raw

/-- What the call leaves if no collection begins. -/
def leaves (world : World σ δ) (call : BarrierCall) : World σ δ :=
  if call.Reports world then (call.stores world).noticed call.slot else call.stores world

end BarrierCall

variable {host : Host σ δ} {world first second : World σ δ}

namespace World

theorem host_noticed (world : World σ δ) (slot : Address)
    : (world.noticed slot).host = world.host := by
  unfold noticed
  split_ifs <;> rfl

/-- Nothing but records changes where a slot is reported. -/
theorem withoutRecords_noticed (world : World σ δ) (slot : Address)
    : (world.noticed slot).heap.withoutRecords = world.heap.withoutRecords := by
  unfold noticed
  split_ifs <;> rfl

/-- A slot that was reported is a record, and so is what was one before. -/
theorem remembered_noticed (steady : world.heap.Steady) (slot : Address) (word : Word)
    : word ∈ (world.noticed slot).heap.regions.birth.remembered
      ↔ word = slot.raw ∨ word ∈ world.heap.regions.birth.remembered := by
  unfold noticed
  split_ifs with known
  · rw [Bool.and_eq_true] at known
    have member := mem_of_recentlyRemembered known.2
    refine ⟨Or.inr, ?_⟩
    rintro (rfl | there)
    · exact member
    · exact there
  · have spare := steady.spare
    have room : 0 < world.heap.regions.birth.bufferStart := by omega
    rw [recorded, remembered_remember room steady.birthInside, List.mem_cons]

/-- Reporting a slot leaves the words below the records as they are. -/
theorem words_noticed (world : World σ δ) (slot : Address)
    : (world.noticed slot).heap.regions.birth.bufferStart ≤ world.heap.regions.birth.bufferStart
      ∧ ∀ index < (world.noticed slot).heap.regions.birth.bufferStart,
          (world.noticed slot).heap.regions.birth.words.get index
          = world.heap.regions.birth.words.get index := by
  unfold noticed
  split_ifs
  · exact ⟨Nat.le_refl _, fun _ _ => rfl⟩
  · refine ⟨Nat.sub_le _ _, fun index below => ?_⟩
    simp only [recorded, BirthRegion.remember] at below ⊢
    rw [Arena.get_set, if_neg (by omega)]

/-- A word is stored outside of the birth region whatever that region holds. -/
theorem setWord?_withBirth (regions : Regions δ) (birth : BirthRegion) {slot : Address}
    (outside : slot.space ≠ .birth) (word : Word)
    : { regions with birth }.setWord? slot word
      = (regions.setWord? slot word).map fun next => { next with birth } := by
  have semispace : ∀ space,
      ({ regions with birth }.oldSpace? space).bind (fun region =>
        if slot.offset < region.cursor ∧ slot.offset < region.capacity then
          some ({ regions with birth }.setOldSpace (region.setWord slot.offset word))
        else none)
      = ((regions.oldSpace? space).bind fun region =>
          if slot.offset < region.cursor ∧ slot.offset < region.capacity then
            some (regions.setOldSpace (region.setWord slot.offset word))
          else none).map fun next => { next with birth } := by
    intro space
    change (regions.oldSpace? space).bind _ = _
    cases regions.oldSpace? space with
    | none => rfl
    | some region =>
        simp only [Option.bind_some, Regions.setOldSpace]
        split_ifs <;> rfl
  unfold Regions.setWord?
  cases space : slot.space with
  | birth => exact absurd space outside
  | fixed =>
      dsimp only
      split_ifs <;> rfl
  | oldA | oldB => exact semispace _

/-- Then it leaves the birth region alone. -/
theorem birth_of_setWord? {regions next : Regions δ} {slot : Address} {word : Word}
    (outside : slot.space ≠ .birth) (done : regions.setWord? slot word = some next)
    : next = { next with birth := regions.birth } := by
  have kept := setWord?_withBirth regions regions.birth outside word
  change regions.setWord? slot word = _ at kept
  rw [done, Option.map_some, Option.some.injEq] at kept
  exact kept

theorem host_stored (world : World σ δ) (slot : Address) (word : Word)
    : (world.stored slot word).host = world.host := by
  unfold stored
  split <;> rfl

/-- Storing a word leaves the records alone. -/
theorem remembered_stored (world : World σ δ) (slot : Address) (word : Word)
    : (world.stored slot word).heap.regions.birth.remembered
      = world.heap.regions.birth.remembered := by
  unfold stored
  split
  next regions done => exact remembered_setWord? done
  next => rfl

theorem stored_elsewhere (world : World σ δ) {slot : Address} (outside : slot.space ≠ .birth)
    (word : Word)
    : (world.stored slot word).heap.regions.birth = world.heap.regions.birth := by
  unfold stored
  split
  next regions done =>
    rw [birth_of_setWord? outside done]
    rfl
  next => rfl

/-- A word that is stored in the birth region is there, if its place is below the records. -/
theorem birth_stored (world : World σ δ) {slot : Address} (birth : slot.space = .birth) (word : Word)
    : (world.stored slot word).heap.withoutRecords = world.heap.withoutRecords
      ∧ (world.stored slot word).heap.regions.birth.bufferStart
        = world.heap.regions.birth.bufferStart
      ∧ ∀ index < world.heap.regions.birth.bufferStart,
          (world.stored slot word).heap.regions.birth.words.get index
          = if slot.offset = index then word else world.heap.regions.birth.words.get index := by
  by_cases below : slot.offset < world.heap.regions.birth.bufferStart
  · have done : world.heap.regions.setWord? slot word = some { world.heap.regions with
        birth := { world.heap.regions.birth with
          words := world.heap.regions.birth.words.set slot.offset word } } := by
      simp only [Regions.setWord?, birth]
      exact if_pos below
    simp only [stored, done]
    exact ⟨rfl, rfl, fun index _ => Arena.get_set _ _ _ _⟩
  · have refused : world.heap.regions.setWord? slot word = none := by
      simp only [Regions.setWord?, birth]
      exact if_neg below
    simp only [stored, refused]
    refine ⟨trivial, trivial, fun index inside => ?_⟩
    rw [if_neg (by omega)]

/-- What a call stores leaves the heap steady. -/
theorem steady_stores (steady : world.heap.Steady) (call : BarrierCall)
    : (call.stores world).heap.Steady := by
  cases call with
  | notifyStore slot => exact steady
  | write slot value =>
      simp only [BarrierCall.stores, stored]
      split
      next regions done => exact steady_stored steady done
      next => exact steady

namespace SameButRecords

/-- Memory is the same outside of the birth region. -/
theorem regions (same : first.SameButRecords second)
    : second.heap.regions = { first.heap.regions with birth := second.heap.regions.birth } := by
  have rest := congrArg (fun heap : Heap δ =>
    { heap.regions with birth := second.heap.regions.birth }) same.heap
  exact rest

theorem capacity (same : first.SameButRecords second)
    : second.heap.regions.birth.capacity = first.heap.regions.birth.capacity :=
  congrArg (fun heap : Heap δ => heap.regions.birth.bufferStart) same.heap

theorem phase (same : first.SameButRecords second) : second.heap.phase = first.heap.phase :=
  (congrArg Heap.phase same.heap :)

/-- The same slot is reported in both worlds. -/
theorem noticed (same : first.SameButRecords second) (steady : first.heap.Steady)
    (steady' : second.heap.Steady) (slot : Address)
    : (first.noticed slot).SameButRecords (second.noticed slot) where
  host := by rw [host_noticed, host_noticed, same.host]
  heap := by rw [withoutRecords_noticed, withoutRecords_noticed, same.heap]
  words index below below' := by
    obtain ⟨fewer, words⟩ := words_noticed first slot
    obtain ⟨fewer', words'⟩ := words_noticed second slot
    rw [words index below, words' index below']
    exact same.words index (by omega) (by omega)
  records word := by
    rw [remembered_noticed steady', remembered_noticed steady, same.records]

/-- The same word is stored in both worlds, but for a place among the records of one of them. -/
theorem stored (same : first.SameButRecords second) (slot : Address) (word : Word)
    : (first.stored slot word).SameButRecords (second.stored slot word) := by
  have host : (second.stored slot word).host = (first.stored slot word).host := by
    rw [host_stored, host_stored, same.host]
  have records : ∀ other,
      other ∈ (second.stored slot word).heap.regions.birth.remembered
      ↔ other ∈ (first.stored slot word).heap.regions.birth.remembered := by
    intro other
    rw [remembered_stored, remembered_stored, same.records]
  by_cases birth : slot.space = .birth
  · obtain ⟨rest, start, words⟩ := birth_stored first birth word
    obtain ⟨rest', start', words'⟩ := birth_stored second birth word
    refine ⟨host, by rw [rest, rest', same.heap], ?_, records⟩
    rw [start, start']
    intro index below below'
    rw [words index below, words' index below', same.words index below below']
  · refine ⟨host, ?_, ?_, records⟩
    · have both := setWord?_withBirth first.heap.regions second.heap.regions.birth birth word
      rw [← same.regions] at both
      unfold World.stored
      cases done : first.heap.regions.setWord? slot word with
      | none =>
          rw [both, done]
          exact same.heap
      | some next =>
          rw [both, done]
          have kept := congrArg (fun heap : Heap δ =>
            { heap with regions := { next with birth := heap.regions.birth } }) same.heap
          rw [birth_of_setWord? birth done]
          exact kept
    · rw [stored_elsewhere first birth, stored_elsewhere second birth]
      exact same.words

/-- The call reports its slot in both worlds or in neither. -/
theorem reports_iff (same : first.SameButRecords second) (call : BarrierCall)
    : call.Reports second ↔ call.Reports first := by
  cases call with
  | notifyStore slot => exact Iff.rfl
  | write slot value =>
      simp only [BarrierCall.Reports]
      refine and_congr_right fun outside => and_congr_right fun _ => ?_
      rw [same.regions, setWord?_withBirth _ _ outside, Option.isSome_map]

/-- A call without a collection keeps two worlds the same. -/
theorem leaves (same : first.SameButRecords second) (steady : first.heap.Steady)
    (steady' : second.heap.Steady) (call : BarrierCall)
    : (call.leaves first).SameButRecords (call.leaves second) := by
  have stores : (call.stores first).SameButRecords (call.stores second) := by
    cases call with
    | notifyStore slot => exact same
    | write slot value => exact same.stored slot value.raw
  unfold BarrierCall.leaves
  simp only [same.reports_iff call]
  split_ifs
  · exact stores.noticed (steady_stores steady call) (steady_stores steady' call) call.slot
  · exact stores

end SameButRecords

/-- A slot that was reported is a record. -/
theorem remembered_leaves (steady : world.heap.Steady) {call : BarrierCall}
    (reports : call.Reports world)
    : call.slot.raw ∈ (call.leaves world).heap.regions.birth.remembered := by
  rw [BarrierCall.leaves, if_pos reports]
  exact (remembered_noticed (steady_stores steady call) _ _).mpr (Or.inl rfl)

-----------------------------------------------------------------------------------------
-- Runs without a collection
-----------------------------------------------------------------------------------------

/-- The heap and the host are those of another world, or a collection has begun since. -/
def Rests (world expected final : World σ δ) : Prop :=
  final.heap = expected.heap ∧ final.host = expected.host
  ∨ world.heap.collections < final.heap.collections

/-- Reporting a slot does not do more than that, unless a collection begins. -/
theorem rests_notifyStore (host : Host σ δ) (idle : world.heap.phase = .idle) {slot : Address}
    (outside : slot.space ≠ .birth)
    : Runs (notifyStore host slot) world
        (fun _ final => world.Rests (world.noticed slot) final)
        fun _ final => world.Rests (world.noticed slot) final := by
  simp only [notifyStore, if_pos outside, runs_bind, runs_heapNow, runs_ite, runs_report, runs_count,
    runs_modifyRegions, runs_pure]
  by_cases known
      : world.heap.config.storeBufferDedup && world.heap.regions.birth.recentlyRemembered slot
  · rw [if_pos known]
    refine Or.inl ?_
    rw [noticed, if_pos known]
    exact ⟨rfl, rfl⟩
  · rw [if_neg known, noticed, if_neg known]
    split_ifs
    · have still : (world.recorded slot).heap.phase = .idle := idle
      have begins := Collector.begun_collectFor host false .storeBufferFull still (Nat.zero_le _)
      exact begins.mono (fun _ _ => Or.inr) fun _ _ => Or.inr
    · exact Or.inl ⟨rfl, rfl⟩

/-- A call does what it does without a collection, unless one begins. -/
theorem rests_call (host : Host σ δ) (idle : world.heap.phase = .idle) (call : BarrierCall)
    : Runs (call.step host).run world (fun _ final => world.Rests (call.leaves world) final)
        fun _ final => world.Rests (call.leaves world) final := by
  cases call with
  | notifyStore slot =>
      change Runs (notifyStore host slot) world _ _
      by_cases outside : slot.space ≠ .birth
      · have left : (BarrierCall.notifyStore slot).leaves world = world.noticed slot := if_pos outside
        rw [left]
        exact rests_notifyStore host idle outside
      · have left : (BarrierCall.notifyStore slot).leaves world = world := if_neg outside
        simp only [left, notifyStore, if_neg outside, runs_pure]
        exact Or.inl ⟨rfl, rfl⟩
  | write slot value =>
      change Runs (write host slot value) world _ _
      cases done : world.heap.regions.setWord? slot value.raw with
      | none =>
          have left : (BarrierCall.write slot value).leaves world = world := by
            simp [BarrierCall.leaves, BarrierCall.Reports, BarrierCall.stores, stored, done]
          rw [left]
          simp only [write, store, runs_bind, runs_heapNow, done, runs_require]
          exact Or.inl ⟨rfl, rfl⟩
      | some regions =>
          simp only [write, store, runs_bind, runs_heapNow, done, runs_require, runs_modifyRegions,
            runs_ite, runs_pure]
          have stores : (BarrierCall.write slot value).stores world = world.withRegions regions := by
            simp only [BarrierCall.stores, stored, done]
          have asks : (value.address?.any (·.space == .birth) && slot.space != .birth) = true
              ↔ (BarrierCall.write slot value).Reports world := by
            simp [BarrierCall.Reports, Value.isBirth, done, and_comm]
          have still : (world.withRegions regions).heap.phase = .idle := idle
          simp only [asks, BarrierCall.leaves, stores]
          split_ifs with reports
          · exact rests_notifyStore host still reports.1
          · exact Or.inl ⟨rfl, rfl⟩

/-- Calls that lead to no collection lead to an idle heap. -/
theorem counted_call (host : Host σ δ) (world : World σ δ) (call : BarrierCall)
    : world.heap.collections ≤ (world.after (call.step host).run).heap.collections := by
  have notifies : ∀ (begun : World σ δ) slot,
      Runs (notifyStore host slot) begun
        (fun _ final => begun.heap.collections ≤ final.heap.collections)
        fun _ final => begun.heap.collections ≤ final.heap.collections := by
    intro begun slot
    refine runs_notifyStore (fun _ => Nat.le_refl _) (fun _ _ => Nat.le_refl _)
      (fun _ _ => Nat.le_refl _) fun _ => ?_
    by_cases idle : begun.heap.phase = .idle
    · have still : (begun.recorded slot).heap.phase = .idle := idle
      have begins := Collector.begun_collectFor host false .storeBufferFull still (Nat.zero_le _)
      exact begins.mono (fun _ _ => Nat.le_of_lt) fun _ _ => Nat.le_of_lt
    · exact Collector.runs_collectFor (fun _ _ => Nat.le_refl _) (fun _ _ => Nat.le_refl _)
        (fun rests => absurd rests idle) fun rests => absurd rests idle
  have calls : Runs (call.step host).run world
      (fun _ final => world.heap.collections ≤ final.heap.collections)
      fun _ final => world.heap.collections ≤ final.heap.collections := by
    cases call with
    | notifyStore slot => exact notifies world slot
    | write slot value =>
        change Runs (write host slot value) world _ _
        rw [write, runs_bind]
        refine runs_store (fun _ => Nat.le_refl _) fun regions done => ?_
        rw [runs_ite]
        split_ifs
        · exact notifies (world.withRegions regions) slot
        · exact Nat.le_refl _
  exact after_of_runs calls

/-- What a call leaves that lets no collection begin. -/
theorem after_call {call : BarrierCall} (idle : world.heap.phase = .idle)
    (rests : (world.after (call.step host).run).heap.collections = world.heap.collections)
    : (world.after (call.step host).run).heap = (call.leaves world).heap
      ∧ (world.after (call.step host).run).host = (call.leaves world).host := by
  have left : world.Rests (call.leaves world) (world.after (call.step host).run) :=
    after_of_runs (rests_call host idle call)
  exact left.resolve_right (by omega)

theorem phase_leaves (world : World σ δ) (call : BarrierCall)
    : (call.leaves world).heap.phase = world.heap.phase := by
  have noticed : ∀ (begun : World σ δ) slot, (begun.noticed slot).heap.phase = begun.heap.phase :=
    fun begun slot => (congrArg Heap.phase (withoutRecords_noticed begun slot) :)
  have stores : (call.stores world).heap.phase = world.heap.phase := by
    cases call with
    | notifyStore slot => rfl
    | write slot value =>
        simp only [BarrierCall.stores, stored]
        split <;> rfl
  unfold BarrierCall.leaves
  split_ifs
  · rw [noticed, stores]
  · exact stores

/-- Two worlds are the same but for their records, and no collection runs in either. -/
structure SameAtRest (first second : World σ δ) : Prop extends first.SameButRecords second where
  idle : first.heap.phase = .idle
  steady : first.heap.Steady
  steady' : second.heap.Steady

/-- A call that lets no collection begin keeps two worlds the same. -/
theorem SameAtRest.call (same : first.SameAtRest second) {call : BarrierCall}
    (rests : (first.after (call.step host).run).heap.collections = first.heap.collections)
    (rests' : (second.after (call.step host).run).heap.collections = second.heap.collections)
    : (first.after (call.step host).run).SameAtRest (second.after (call.step host).run) := by
  have idle' : second.heap.phase = .idle := same.phase.trans same.idle
  obtain ⟨heap, state⟩ := after_call same.idle rests
  obtain ⟨heap', state'⟩ := after_call idle' rests'
  have leaves := same.leaves same.steady same.steady' call
  have still : (first.after (call.step host).run).heap.phase = .idle := by
    rw [heap, phase_leaves, same.idle]
  have still' : (second.after (call.step host).run).heap.phase = .idle := by
    rw [heap', phase_leaves, idle']
  have lasts : first.Lasts (first.after (call.step host).run) :=
    lasts_after host call.operation first
  have lasts' : second.Lasts (second.after (call.step host).run) :=
    lasts_after host call.operation second
  refine ⟨⟨?_, ?_, ?_, ?_⟩, still, lasts.steady still same.steady, lasts'.steady still' same.steady'⟩
  · rw [state, state', leaves.host]
  · rw [heap, heap', leaves.heap]
  · rw [heap, heap']
    exact leaves.words
  · rw [heap, heap']
    exact leaves.records

/-- No call takes a collection back, by one call after another. -/
theorem counted_called (host : Host σ δ) (world : World σ δ) (calls : List BarrierCall)
    : world.heap.collections ≤ (world.called host calls).heap.collections := by
  induction calls generalizing world with
  | nil => exact Nat.le_refl _
  | cons call calls ih => exact (counted_call host world call).trans (ih _)

/-- Calls that let no collection begin keep two worlds the same, by one call after another. -/
theorem SameAtRest.called (same : first.SameAtRest second) {calls : List BarrierCall}
    (rests : (first.called host calls).heap.collections = first.heap.collections)
    (rests' : (second.called host calls).heap.collections = second.heap.collections)
    : (first.called host calls).SameAtRest (second.called host calls) := by
  induction calls generalizing first second with
  | nil => exact same
  | cons call calls ih =>
      have begins := counted_call host first call
      have begins' := counted_call host second call
      have onward := counted_called host (first.after (call.step host).run) calls
      have onward' := counted_called host (second.after (call.step host).run) calls
      simp only [World.called, List.map_cons, play] at rests rests' onward onward' ih ⊢
      exact ih (same.call (by omega) (by omega)) (by omega) (by omega)

end World

end MovingHeap
