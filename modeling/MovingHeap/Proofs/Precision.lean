import MovingHeap.Proofs.Guarantees
import MovingHeap.Proofs.PreciseCollections

/-! The collector is precise: words that belong to nothing it keeps never matter.
Birth memory is never cleared, so stale tombstones and references lie beside objects and inside memory
that is used again. Two heaps may differ in all such words, and a collection does the same to both.
-/

namespace MovingHeap

variable {σ δ : Type}

namespace World

/-- A minor collection depends on the word: it belongs to a birth object that is met from the roots and
the noted cells, is one of these cells, or lies in the store buffer.
-/
def MinorDependsOn (contract : Contract σ) (world : World σ δ) (space : Space) (offset : Nat)
    : Prop :=
  world.heap.regions.Lives contract.layout false (world.Starts contract []) space offset
  ∨ world.heap.regions.Noted space offset
  ∨ space = .birth ∧ world.heap.regions.birth.bufferStart ≤ offset

/-- A full collection depends on the word: it belongs to a birth or old object that is met from the roots. -/
def FullDependsOn (contract : Contract σ) (world : World σ δ) : Space → Nat → Prop :=
  world.heap.regions.Lives contract.layout true (world.Rooted contract)

variable {contract : Contract σ} {world second : World σ δ} {matters : Space → Nat → Prop}

/-- Tracing of a minor collection depends on nothing else. -/
theorem minorDependsOn_of_pass (sound : world.Sound contract) {space : Space} {offset : Nat}
    (depends : (Pass.ofMinor contract world).DependsOn space offset)
    : world.MinorDependsOn contract space offset := by
  rcases depends with lives | noted
  · rw [Pass.full_ofMinor sound] at lives
    exact .inl lives
  · exact .inr (.inl noted)

/-- Tracing of a full collection depends on nothing else but fixed objects. -/
theorem fullDependsOn_of_pass {words : Arena} {space : Space} {offset : Nat}
    (depends : (Pass.ofFull contract world words).DependsOn space offset)
    : world.FullDependsOn contract space offset ∨ space = .fixed := by
  rcases depends with ⟨object, valid, traced, moves, same, above, below⟩ | ⟨fixed, -⟩
  · rw [Pass.opens_ofFull.moves] at moves
    rw [Pass.opens_ofFull.field moves] at below
    exact .inl ⟨object, valid, Pass.traced_ofFull.mp traced, moves, same, above, below⟩
  · exact .inr fixed

-----------------------------------------------------------------------------------------
-- Collections of heaps that agree
-----------------------------------------------------------------------------------------

/-- What is known to agree includes the words of fixed objects. -/
theorem AgreesOn.fixed (agrees : world.AgreesOn matters second)
    : world.AgreesOn (fun space offset => matters space offset ∨ space = .fixed) second := by
  refine ⟨⟨agrees.regions.blank, fun space offset here => ?_⟩, agrees.rest, agrees.host, agrees.log⟩
  rcases here with here | rfl
  · exact agrees.regions.cells space offset here
  · exact agrees.regions.cell_fixed offset

/-- Where no collection runs, objects would be copied to the old region. -/
theorem destination_of_collects {before after : World σ δ} (collects : before.Collects after)
    : after.heap.regions.destination = after.heap.regions.old := by
  simp [Regions.destination, collects.steady.target]

/-- A minor collection does the same to both heaps. -/
theorem Sound.minor_precise (sound : world.Sound contract) (addressable : world.Addressable)
    {host : Host σ δ} (faithful : host.Faithful contract) (discreet : host.Discreet contract)
    (reason : Reason)
    (depends : ∀ space offset, world.MinorDependsOn contract space offset → matters space offset)
    (agrees : world.AgreesOn matters second)
    : Ends (Collector.minor host reason) world fun _ final =>
        ∃ final',
          Collector.minor host reason second = .ok () final'
          ∧ final.AgreesOn (fun space offset =>
              matters space offset
              ∨ space = final.heap.regions.old.space
                ∧ world.heap.regions.old.cursor ≤ offset
                ∧ offset < final.heap.regions.old.cursor) final' := by
  have together := Pass.minor_together sound addressable faithful.toTraces discreet
    (fun space offset => depends space offset ∘ minorDependsOn_of_pass sound)
    (fun offset above => depends .birth offset (.inr (.inr ⟨rfl, above⟩))) agrees reason
  refine Ends.mono (together.runs (sound.minor addressable faithful.toTraces reason)) ?_
  rintro _ final ⟨⟨collects, -, move, promotes⟩, final', run, together⟩
  refine ⟨final', run, together.agrees.mono fun space offset here => here.imp_right ?_⟩
  rintro ⟨rfl, above, below⟩
  rw [Pass.space, Pass.base, Pass.destination_ofMinor sound, destination_of_collects collects,
    ← promotes.space]
  exact ⟨rfl, above, below⟩

/-- Both heaps ask for as much memory for the survivors. -/
theorem AgreesOn.targetWords (agrees : world.AgreesOn matters second)
    : Collector.targetWords second.heap = Collector.targetWords world.heap := by
  have config : second.heap.config = world.heap.config := agrees.table Heap.config fun _ _ => rfl
  simp only [Collector.targetWords, BirthRegion.capacity, config, agrees.regions.oldCursor,
    agrees.regions.birthCursor, agrees.regions.birthSize]

/-- A full collection is stopped where memory for the survivors is refused. -/
theorem full_refused (host : Host σ δ) (reason : Reason)
    (refused : host.mapper.map? (Collector.targetWords world.heap) = none)
    : Runs (Collector.full host reason) world (fun _ _ => False) fun violation _ =>
        violation = .regionMap (Collector.targetWords world.heap * wordBytes) := by
  refine Collector.runs_full (fun words mapped => ?_) fun _ _ _ => rfl
  rw [refused] at mapped
  cases mapped

/-- A full collection does the same to both heaps, or is refused memory in both. -/
theorem Collectable.full_precise (collectable : world.Collectable contract)
    (addressable : world.Addressable) {host : Host σ δ} (faithful : host.Faithful contract)
    (discreet : host.Discreet contract) (reason : Reason)
    (depends : ∀ space offset, world.FullDependsOn contract space offset → matters space offset)
    (agrees : world.AgreesOn matters second)
    : Runs (Collector.full host reason) world
        (fun _ final =>
          ∃ final',
            Collector.full host reason second = .ok () final'
            ∧ final.AgreesOn (fun space offset =>
                matters space offset
                ∨ space = final.heap.regions.old.space
                  ∧ offset < final.heap.regions.old.cursor) final')
        fun violation _ =>
          host.mapper.map? (Collector.targetWords world.heap) = none
          ∧ ∃ final', Collector.full host reason second = .error violation final' := by
  cases mapped : host.mapper.map? (Collector.targetWords world.heap) with
  | none =>
      refine Runs.mono (full_refused host reason mapped) (fun _ _ => False.elim) ?_
      rintro violation _ rfl
      have refused : Runs (Collector.full host reason) second (fun _ _ => False) _ :=
        full_refused host reason (agrees.targetWords ▸ mapped)
      rw [agrees.targetWords] at refused
      cases run : Collector.full host reason second with
      | ok => exact (refused.of_ok run).elim
      | error =>
          obtain rfl := refused.of_error run
          exact ⟨rfl, _, rfl⟩
  | some words =>
      have together := Pass.full_together collectable addressable mapped faithful.toTraces discreet
        (fun space offset here => (fullDependsOn_of_pass here).imp_left (depends space offset))
        agrees.fixed reason
      refine Runs.mono (together.runs (collectable.full addressable faithful reason)) ?_ ?_
      · rintro _ final ⟨⟨collects, -, move, compacts⟩, final', run, together⟩
        refine ⟨final', run, together.agrees.mono fun space offset here => ?_⟩
        rcases here with here | ⟨rfl, below⟩
        · exact .inl (.inl here)
        · refine .inr ⟨?_, Nat.zero_le _, ?_⟩
          · rw [compacts.flipped]
            rfl
          · rwa [destination_of_collects collects]
      · intro _ _ refused
        rw [mapped] at refused
        cases refused.1

-----------------------------------------------------------------------------------------
-- Words that are not in use
-----------------------------------------------------------------------------------------

/-- A minor collection depends on no word of the birth region between the objects and the records. -/
theorem Sound.used_of_minorDependsOn (sound : world.Sound contract) {space : Space} {offset : Nat}
    (depends : world.MinorDependsOn contract space offset) (birth : space = .birth)
    : offset < world.heap.regions.birth.cursor ∨ world.heap.regions.birth.bufferStart ≤ offset := by
  subst birth
  rcases depends with ⟨object, valid, traced, -, same, above, below⟩ | noted | ⟨-, recorded⟩
  · have notFixed : object.space ≠ .fixed := by simp [← same]
    obtain ⟨-, -, inside⟩ := sound.wellFormed.coherent.object object valid traced.whole notFixed
    rw [Regions.limit, if_pos same.symm] at inside
    exact .inl (by omega)
  · rcases (Pass.slot_of_noted sound.wellFormed noted).inside sound.regular.consistent with
      ⟨fixed, -⟩ | ⟨old, -⟩
    · cases fixed
    · have isOld := sound.regular.apart.old
      rw [← old] at isOld
      cases isOld
  · exact .inr recorded

/-- A full collection depends on no word of the birth region behind the objects. -/
theorem Collectable.used_of_fullDependsOn (collectable : world.Collectable contract) {space : Space}
    {offset : Nat} (depends : world.FullDependsOn contract space offset) (birth : space = .birth)
    : offset < world.heap.regions.birth.cursor := by
  subst birth
  obtain ⟨object, valid, traced, -, same, above, below⟩ := depends
  have notFixed : object.space ≠ .fixed := by simp [← same]
  obtain ⟨-, -, inside⟩ := collectable.coherent.object object valid traced notFixed
  rw [Regions.limit, if_pos same.symm] at inside
  omega

/-- A word of the birth region was overwritten behind the back of the heap. -/
def littered (world : World σ δ) (offset : Nat) (word : Word) : World σ δ :=
  let birth := world.heap.regions.birth
  world.withRegions { world.heap.regions with
    birth := { birth with words := birth.words.set offset word } }

/-- The heap agrees in all other words. -/
theorem agreesOn_littered (world : World σ δ) (offset : Nat) (word : Word)
    : world.AgreesOn (fun space index => space = .birth → index ≠ offset)
        (world.littered offset word) where
  regions := by
    refine ⟨by simp [littered, withRegions, Regions.blank, Arena.outline], fun space index differs => ?_⟩
    cases space with
    | birth =>
        simp only [littered, withRegions, Regions.cell, Arena.get_set]
        exact if_neg fun same => differs rfl same.symm
    | fixed | oldA | oldB => rfl
  rest := rfl
  host := rfl
  log := rfl

end World

-----------------------------------------------------------------------------------------
-- The record host
-----------------------------------------------------------------------------------------

namespace Window

/-- Views that are as long read the same where their words are the same. -/
theorem get?_congr {window other : Window} (length : other.length = window.length) {index : Nat}
    (same : other.field index = window.field index)
    : other.get? index = window.get? index := by
  simp only [field, get?, length] at same ⊢
  split_ifs at same ⊢ with inside
  · exact congrArg some same
  · rfl

/-- Views that are as long begin with the same words where these are the same. -/
theorem take_congr {window other : Window} (length : other.length = window.length) {count : Nat}
    (same : ∀ index < count, other.field index = window.field index)
    : other.take count = window.take count := by
  rw [take, take, length]
  refine List.filterMap_congr fun index member => get?_congr length (same index ?_)
  exact Nat.lt_of_lt_of_le (List.mem_range.mp member) (Nat.min_le_left _ _)

end Window

namespace Record

/-- The record host tells nothing but how much memory it was shown. -/
theorem host_discreet : host.Discreet contract := by
  intro destination other source again state upholds _ _ fits length length' same
  have two : 0 < contract.layout.size source.field :=
    Nat.lt_of_lt_of_le Nat.zero_lt_two (Nat.le_max_right _ _)
  have header := Window.get?_congr length' (same 0 two)
  have mode : state.copyMode = .faithful := upholds.1
  have whole : min (Record.words ((source.get? 0).getD 0)) destination.length
      = Record.words ((source.get? 0).getD 0) := Nat.min_eq_left fits
  have body := Window.take_congr length' same
  change copy other again state = copy destination source state
  simp only [copy, mode, header, length, length', whole]
  rw [show again.take (Record.words ((source.get? 0).getD 0))
    = source.take (Record.words ((source.get? 0).getD 0)) from body]

/-- What a reference that was left behind looks like. -/
def staleWord : Word := (Address.pack .birth 0).raw

theorem unused_young
    : Record.youngWorld.heap.regions.birth.cursor ≤ 5
      ∧ 5 < Record.youngWorld.heap.regions.birth.bufferStart := by
  decide +kernel

end Record

-----------------------------------------------------------------------------------------
-- Precision
-----------------------------------------------------------------------------------------

namespace World

/-- Unreachable words never matter. Take a heap at rest whose host plays by the rules, and any other heap
that agrees with it but for birth and old words: those that belong to an object that the collection
reaches are the same, and for a minor collection the noted cells and the store buffer, too. Then the same
collection of the other heap ends as well, and the heaps agree again, also in all that was promoted or
survived. So roots, fixed objects, counts, the state of the host and the log are the same; only memory for
the survivors may be refused, and then it is to both.
-/
theorem unreachable_words_never_matter {contract : Contract σ} {world second : World σ δ}
    (conforming : world.Conforming contract) (idle : world.heap.phase = .idle)
    (addressable : world.Addressable) {host : Host σ δ} (faithful : host.Faithful contract)
    (discreet : host.Discreet contract) (reason : Reason) {matters : Space → Nat → Prop}
    (agrees : world.AgreesOn matters second)
    : ((∀ space offset,
          world.MinorDependsOn contract space offset → matters space offset) →
        Ends (Collector.minor host reason) world fun _ final =>
          ∃ final',
            Collector.minor host reason second = .ok () final'
            ∧ final.AgreesOn (fun space offset =>
                matters space offset
                ∨ space = final.heap.regions.old.space
                  ∧ world.heap.regions.old.cursor ≤ offset
                  ∧ offset < final.heap.regions.old.cursor) final')
      ∧ ((∀ space offset,
            world.FullDependsOn contract space offset → matters space offset) →
          Runs (Collector.full host reason) world
            (fun _ final =>
              ∃ final',
                Collector.full host reason second = .ok () final'
                ∧ final.AgreesOn (fun space offset =>
                    matters space offset
                    ∨ space = final.heap.regions.old.space
                      ∧ offset < final.heap.regions.old.cursor) final')
            fun violation _ =>
              host.mapper.map? (Collector.targetWords world.heap) = none
              ∧ ∃ final', Collector.full host reason second = .error violation final') := by
  have sound := conforming.sound idle addressable
  exact ⟨fun depends => sound.minor_precise addressable faithful discreet reason depends agrees,
    fun depends => sound.toOrderly.collectable.full_precise addressable faithful discreet reason depends
      agrees⟩

/-- A stale reference behind the young record makes no difference. -/
theorem unreachable_words_never_matter_stale
    : (Ends (Collector.minor Record.host .requestedByUser) Record.youngWorld fun _ final =>
        ∃ final',
          Collector.minor Record.host .requestedByUser
              (Record.youngWorld.littered 5 Record.staleWord)
            = .ok () final'
          ∧ final.AgreesOn (fun space offset =>
              (space = .birth → offset ≠ 5)
              ∨ space = final.heap.regions.old.space
                ∧ Record.youngWorld.heap.regions.old.cursor ≤ offset
                ∧ offset < final.heap.regions.old.cursor) final')
      ∧ Ends (Collector.full Record.host .requestedByUser) Record.youngWorld fun _ final =>
          ∃ final',
            Collector.full Record.host .requestedByUser
                (Record.youngWorld.littered 5 Record.staleWord)
              = .ok () final'
            ∧ final.AgreesOn (fun space offset =>
                (space = .birth → offset ≠ 5)
                ∨ space = final.heap.regions.old.space
                  ∧ offset < final.heap.regions.old.cursor) final' := by
  obtain ⟨above, below⟩ := Record.unused_young
  have collectable := Record.sound_young.toOrderly.collectable
  have precise := unreachable_words_never_matter Record.conforming_young Record.idle_young
    Record.addressable_young Record.host_faithful Record.host_discreet .requestedByUser
    (agreesOn_littered Record.youngWorld 5 Record.staleWord)
  refine ⟨precise.1 fun space offset depends birth => ?_,
    Runs.mono (precise.2 fun space offset depends birth => ?_) (fun _ _ => id) ?_⟩
  · have used := Record.sound_young.used_of_minorDependsOn depends birth
    omega
  · have used := collectable.used_of_fullDependsOn depends birth
    omega
  · intro _ _ refused
    rw [Record.mapped_young] at refused
    cases refused.1

end World

end MovingHeap
