import Mathlib.Order.Bounds.Defs
import MovingHeap.Proofs.FixedGrowth

/-! Blocks of the birth region, as allocation hands them out.
A block begins at the least multiple of its alignment behind everything that was handed out since the last
collection, and the margin stays free between its end and the recorded slots.
-/

namespace MovingHeap

variable {σ δ : Type}

-----------------------------------------------------------------------------------------
-- Alignment
-----------------------------------------------------------------------------------------

/-- The words of a block of so many bytes: two at least, so that a tombstone fits. -/
def blockWords (size : Nat) : Nat := max ((size + 7) / 8) 2

/-- The words that a block may take together with its padding. -/
def blockRoom (size align : Nat) : Nat := blockWords size + align / 8 - 1

namespace BirthRegion

variable {region : BirthRegion} {stride : Nat}

/-- Where a block begins that is aligned to so many words. -/
def nextAligned (region : BirthRegion) (stride : Nat) : Nat :=
  region.cursor + (region.padding? stride).getD 0

/-- Padding leads to the least multiple that is not below the cursor. -/
theorem isLeast_nextAligned (region : BirthRegion) (positive : 0 < stride)
    : IsLeast {offset | region.cursor ≤ offset ∧ stride ∣ offset} (region.nextAligned stride) := by
  have quotient := Nat.div_add_mod region.cursor stride
  have below := Nat.mod_lt region.cursor positive
  rw [nextAligned, padding?, if_neg positive.ne', Option.getD_some]
  cases Nat.eq_zero_or_pos (region.cursor % stride) with
  | inl aligned =>
      rw [aligned, Nat.sub_zero, Nat.mod_self, Nat.add_zero]
      exact ⟨⟨Nat.le_refl _, Nat.dvd_of_mod_eq_zero aligned⟩, fun _ => And.left⟩
  | inr unaligned =>
      rw [Nat.mod_eq_of_lt (Nat.sub_lt positive unaligned)]
      have next : region.cursor + (stride - region.cursor % stride)
          = stride * (region.cursor / stride + 1) := by
        rw [Nat.mul_add, Nat.mul_one]
        omega
      refine ⟨⟨Nat.le_add_right _ _, ⟨_, next⟩⟩, ?_⟩
      intro _ above
      obtain ⟨above, factor, rfl⟩ := above
      rw [next]
      refine Nat.mul_le_mul_left stride (Nat.lt_of_not_le fun small => ?_)
      have := Nat.mul_le_mul_left stride small
      omega

/-- Where words fit with the widest padding, they end within the margin. -/
theorem margin_of_nextAligned {words : Nat} (fits : region.fits (words + (stride - 1)))
    : region.nextAligned stride + words + region.margin ≤ region.bufferStart :=
  margin_of_fits fits

end BirthRegion

/-- Alignments are the powers of two from a word to 32 words. -/
theorem isAlignment_iff {align : Nat}
    : World.isAlignment align
      ↔ (∃ exponent, align = 2 ^ exponent) ∧ 8 ≤ align ∧ align ≤ 256 := by
  simp only [World.isAlignment, isPowerOfTwo, Nat.one_shiftLeft, Bool.and_eq_true, beq_iff_eq,
    decide_eq_true_eq, and_assoc]
  refine and_congr_left' ⟨fun same => ⟨_, same.symm⟩, fun power => ?_⟩
  obtain ⟨exponent, rfl⟩ := power
  rw [Nat.log2_two_pow]

/-- An alignment is made of whole words, and the tag of an address is a multiple of it. -/
structure Aligning (align : Nat) : Prop where
  words : align = align / wordBytes * 8
  positive : 0 < align / wordBytes
  divides : align ∣ 2 ^ 60

theorem aligning_of_isAlignment {align : Nat} (isAlignment : World.isAlignment align)
    : Aligning align := by
  obtain ⟨⟨exponent, rfl⟩, least, most⟩ := isAlignment_iff.mp isAlignment
  have lower : 3 ≤ exponent := (Nat.pow_le_pow_iff_right Nat.one_lt_two).mp least
  have upper : exponent ≤ 8 := (Nat.pow_le_pow_iff_right Nat.one_lt_two).mp most
  have words : 8 ∣ 2 ^ exponent := Nat.pow_dvd_pow 2 lower
  exact ⟨(Nat.div_mul_cancel words).symm, Nat.div_pos least (by decide),
    Nat.pow_dvd_pow 2 (by omega)⟩

/-- An address of the birth region is as aligned as its offset. -/
theorem Aligning.dvd_pack_birth {align offset : Nat} (aligning : Aligning align)
    (small : offset ≤ maxOffsetWords)
    : align ∣ (Address.pack .birth offset).raw.toNat ↔ align / wordBytes ∣ offset := by
  have tag := Dvd.dvd.mul_left aligning.divides Space.birth.tag.toNat
  have scaled : align ∣ offset * 8 ↔ align / wordBytes * 8 ∣ offset * 8 := by
    rw [← aligning.words]
  rw [Address.toNat_pack _ small, Nat.dvd_add_right tag, scaled]
  exact Nat.mul_dvd_mul_iff_right (by decide)

-----------------------------------------------------------------------------------------
-- Handing out
-----------------------------------------------------------------------------------------

namespace World

/-- How room is made for so many words: there is room and no full collection is pending, or the collector
is called, once, and empties the birth region.
-/
inductive MakesRoom (host : Host σ δ) (words : Nat) (before : World σ δ) : World σ δ → Prop where
  | had (unasked : before.heap.pendingFull = none) (fits : before.heap.regions.birth.fits words)
      : MakesRoom host words before before
  | made {wantsFull : Bool} {reason : Reason} {after : World σ δ}
      (needed
        : before.heap.pendingFull.isSome ∨ before.heap.regions.birth.fits words = false)
      (called : Collector.collectFor host words wantsFull reason before = .ok () after)
      (empty : after.heap.regions.birth.cursor = 0)
      (begun : before.heap.collections < after.heap.collections)
      : MakesRoom host words before after

/-- A call of the collector for so many words was stopped, and the collection stays where it is. -/
def Interrupted (host : Host σ δ) (words : Nat) (before : World σ δ) (violation : Violation)
    (after : World σ δ)
    : Prop :=
  after.heap.phase ≠ .idle
  ∧ ∃ wantsFull reason,
      Collector.collectFor host words wantsFull reason before = .error violation after

/-- A block is handed out where the next address begins that is a multiple of so many bytes. -/
structure Grants (before : World σ δ) (align words margin : Nat) (object : Address)
    (after : World σ δ)
    : Prop where
  birth : object.space = .birth
  aligned : align ∣ object.raw.toNat
  least
    : IsLeast
        {offset |
          before.heap.regions.birth.cursor ≤ offset
          ∧ align ∣ (Address.pack .birth offset).raw.toNat}
        object.offset
  reserved : after = before.reserved words (align / wordBytes)
  cursor : after.heap.regions.birth.cursor = object.offset + words
  unrecorded : object.offset + words ≤ after.heap.regions.birth.bufferStart
  spare
    : after.heap.regions.birth.cursor + margin ≤ after.heap.regions.birth.bufferStart

variable {world : World σ δ}

/-- Room that was made is there, whether or not the collector was called. -/
theorem MakesRoom.room {host : Host σ δ} {words : Nat} {after : World σ δ}
    (makes : world.MakesRoom host words after) (regular : world.heap.Regular)
    (small : words ≤ world.heap.regions.birth.maxObjectWords)
    : after.heap.regions.birth.fits words
      ∧ after.heap.regions.birth.margin = world.heap.regions.birth.margin
      ∧ after.heap.Regular := by
  cases makes with
  | had unasked fits => exact ⟨fits, rfl, regular⟩
  | made needed called =>
      have collects := ((Collector.collects_collectFor host words _ _ regular).of_ok called).2
      exact ⟨fits_of_collects collects regular small, collects.margin, collects.steady.toRegular⟩

/-- Room is made for what is not too large, unless the collection is interrupted. -/
theorem makesRoom_makeRoom (host : Host σ δ) {words : Nat} (idle : world.heap.phase = .idle)
    (regular : world.heap.Regular) (small : words ≤ world.heap.regions.birth.maxObjectWords)
    : Runs (makeRoom host words) world (fun _ middle => world.MakesRoom host words middle)
        (world.Interrupted host words) := by
  have calls : ∀ wantsFull reason,
      world.heap.pendingFull.isSome ∨ world.heap.regions.birth.fits words = false →
      Runs (Collector.collectFor host words wantsFull reason) world
        (fun _ middle => world.MakesRoom host words middle) (world.Interrupted host words) := by
    intro wantsFull reason needed
    have collects := Collector.collects_collectFor host words wantsFull reason regular
    have begun := Collector.begun_collectFor host wantsFull reason idle small
    cases run : Collector.collectFor host words wantsFull reason world with
    | ok result middle =>
        have makes : world.MakesRoom host words middle :=
          .made needed run (collects.of_ok run).2.empty (begun.of_ok run)
        simpa only [Runs, run] using makes
    | error violation middle =>
        have interrupted : world.Interrupted host words violation middle := by
          refine ⟨fun rests => ?_, wantsFull, reason, run⟩
          exact Nat.not_lt_of_le small (collects.of_error run rests).1
        simpa only [Runs, run] using interrupted
  simp only [makeRoom, runs_bind, runs_heapNow]
  split
  next reason pending => exact calls true reason (.inl (by rw [pending]; rfl))
  next unasked =>
    split_ifs with full
    · exact calls false _ (.inr (by simpa using full))
    · exact .had unasked (by simpa using full)

/-- Behind room that was made, the next words are handed out with their padding. -/
theorem MakesRoom.grants {host : Host σ δ} {size align : Nat} {middle : World σ δ}
    (makes : world.MakesRoom host (blockWords size + (align / wordBytes - 1)) middle)
    (regular : world.heap.Regular) (aligning : Aligning align)
    (small
      : blockWords size + (align / wordBytes - 1) ≤ world.heap.regions.birth.maxObjectWords)
    : middle.Grants align (blockWords size) world.heap.regions.birth.margin
        (.pack .birth (middle.heap.regions.birth.nextAligned (align / wordBytes)))
        (middle.reserved (blockWords size) (align / wordBytes)) := by
  obtain ⟨fits, margin, kept⟩ := makes.room regular small
  have spare := BirthRegion.margin_of_nextAligned fits
  have inside := kept.birthInside
  have within := kept.birthSmall
  have bound : middle.heap.regions.birth.nextAligned (align / wordBytes) ≤ maxOffsetWords := by
    omega
  obtain ⟨⟨above, aligned⟩, least⟩ := middle.heap.regions.birth.isLeast_nextAligned aligning.positive
  have raw := (aligning.dvd_pack_birth bound).mpr aligned
  refine ⟨Address.space_pack _ bound, raw, ?_, rfl, ?_, ?_, ?_⟩
  · rw [Address.offset_pack _ bound]
    refine ⟨⟨above, raw⟩, fun other among => ?_⟩
    cases Nat.le_total other maxOffsetWords with
    | inl told => exact least ⟨among.1, (aligning.dvd_pack_birth told).mp among.2⟩
    | inr beyond => exact bound.trans beyond
  · rw [Address.offset_pack _ bound]
    rfl
  · rw [Address.offset_pack _ bound]
    exact (Nat.le_add_right _ _).trans spare
  · rw [← margin]
    exact spare

/-- Memory of any size and alignment is handed out behind room that was made, or it is too large. -/
theorem grants_reserve (host : Host σ δ) (size : Nat) {align : Nat}
    (idle : world.heap.phase = .idle) (regular : world.heap.Regular)
    (aligning : Aligning align)
    (small
      : blockWords size + (align / wordBytes - 1) ≤ world.heap.regions.birth.maxObjectWords)
    : Runs (reserve host size (align / wordBytes)) world
        (fun object final =>
          ∃ middle,
            world.MakesRoom host (blockWords size + (align / wordBytes - 1)) middle
            ∧ middle.Grants align (blockWords size) world.heap.regions.birth.margin object final)
        (world.Interrupted host (blockWords size + (align / wordBytes - 1))) := by
  have same : max (wordsFor size) minObjectWords = blockWords size := rfl
  simp only [reserve, same, runs_bind, runs_heapNow, runs_ite, if_neg (Nat.not_lt.mpr small),
    runs_modifyRegions, runs_pure]
  refine (makesRoom_makeRoom host idle regular small).mono (fun _ middle makes => ?_)
    fun _ _ => id
  exact ⟨middle, makes, makes.grants regular aligning small⟩

/-- What is not aligned on purpose is aligned to one word. -/
theorem allocate_eq_allocateAligned (host : Host σ δ) (size : Nat)
    : allocate host size = allocateAligned host size 8 := by
  have word : isAlignment 8 = true := isAlignment_iff.mpr ⟨⟨3, rfl⟩, by decide, by decide⟩
  simp only [allocate, allocateAligned, word, if_true]
  rfl

section Demands

variable (host : Host σ δ) (size : Nat) {align : Nat} (idle : world.heap.phase = .idle)
include idle

/-- An aligned demand that is not too large is granted behind room that was made. -/
theorem grants_allocateAligned (regular : world.heap.Regular)
    (isAlignment : World.isAlignment align)
    (small : blockRoom size align ≤ world.heap.regions.birth.maxObjectWords)
    : Runs (allocateAligned host size align) world
        (fun object final =>
          ∃ middle,
            world.MakesRoom host (blockRoom size align) middle
            ∧ middle.Grants align (blockWords size) world.heap.regions.birth.margin object final)
        (world.Interrupted host (blockRoom size align)) := by
  have aligning := aligning_of_isAlignment isAlignment
  have room : blockRoom size align = blockWords size + (align / wordBytes - 1) :=
    Nat.add_sub_assoc aligning.positive _
  rw [room] at small ⊢
  simp only [allocateAligned, runs_bind, runs_ensureIdle idle, isAlignment, if_true]
  exact grants_reserve host size idle regular aligning small

/-- An aligned demand that is too large is refused before anything is collected. -/
theorem refuses_allocateAligned (isAlignment : World.isAlignment align)
    (large : world.heap.regions.birth.maxObjectWords < blockRoom size align)
    : Runs (allocateAligned host size align) world (fun _ _ => False)
        fun violation final =>
          violation
            = .objectTooLarge size (world.heap.regions.birth.maxObjectWords * wordBytes)
          ∧ final = { world with log := .fatal violation :: world.log } := by
  have room : blockRoom size align
      = max (wordsFor size) minObjectWords + (align / wordBytes - 1) :=
    Nat.add_sub_assoc (aligning_of_isAlignment isAlignment).positive _
  rw [room] at large
  simp only [allocateAligned, runs_bind, runs_ensureIdle idle, isAlignment, if_true, reserve,
    runs_heapNow, runs_ite, if_pos large, runs_stop, and_self]

/-- A demand that is granted moves the cursor to the end of its block. -/
theorem cursor_allocateAligned (align : Nat) (regular : world.heap.Regular)
    : Runs (allocateAligned host size align) world
        (fun object final => final.heap.regions.birth.cursor = object.offset + blockWords size)
        fun _ _ => True := by
  by_cases isAlignment : World.isAlignment align
  · cases Nat.lt_or_ge world.heap.regions.birth.maxObjectWords (blockRoom size align) with
    | inl large =>
        exact (refuses_allocateAligned host size idle isAlignment large).mono
          (fun _ _ => False.elim) fun _ _ _ => trivial
    | inr small =>
        refine (grants_allocateAligned host size idle regular isAlignment small).mono
          (fun _ _ granted => ?_) fun _ _ _ => trivial
        obtain ⟨middle, -, grants⟩ := granted
        exact grants.cursor
  · simp only [allocateAligned, runs_bind, runs_ensureIdle idle, isAlignment, runs_stop,
      Bool.false_eq_true, if_false]

end Demands

end World

-----------------------------------------------------------------------------------------
-- Blocks of a run
-----------------------------------------------------------------------------------------

/-- Words of the birth region that were handed out as one. -/
structure Stretch where
  start : Nat
  words : Nat
  deriving DecidableEq, Repr

namespace Stretch

/-- Where the words behind the stretch begin. -/
def stop (stretch : Stretch) : Nat := stretch.start + stretch.words

/-- No word lies in both. -/
def Apart (one other : Stretch) : Prop := one.stop ≤ other.start ∨ other.stop ≤ one.start

/-- What a demand for so many bytes was answered by, if it was. -/
def ofAnswer? (size : Nat) : EStateM.Result Violation (World σ δ) Address → Option Stretch
  | .ok object _ => some ⟨object.offset, blockWords size⟩
  | .error .. => none

end Stretch

/-- The birth region has the size and the margin that are configured. -/
structure Ledger.Outlined (ledger : Ledger) : Prop where
  margin : ledger.birthMargin = ledger.config.safetyMargin
  capacity : ledger.birthCapacity = ledger.config.birthWords

/-- The cursor falls only where a collection runs. -/
theorem Ledger.Turn.cursor_le {before after : Ledger} (turn : before.Turn after)
    (same : after.collections = before.collections)
    : before.birthCursor ≤ after.birthCursor := by
  cases turn with
  | rests => exact Nat.le_refl _
  | @posts posting own =>
      cases posting with
      | request | lodge => exact Nat.le_refl _
      | handOut words => exact Nat.le_add_right _ _
      | minor | full => cases own
  | collects calls words =>
      cases calls <;> simp only [post] at same <;> omega

namespace World

/-- The words of the birth region that a step hands out, if it does. -/
def handsOut? (world : World σ δ) : Step σ δ → Option Stretch
  | .operate host (.allocate size) => Stretch.ofAnswer? size (allocate host size world)
  | .operate host (.allocateAligned size align) =>
      Stretch.ofAnswer? size (allocateAligned host size align world)
  | _ => none

/-- The blocks that were handed out since the last collection, the newest first, as steps add to those
known before.
-/
def blocksAfter (world : World σ δ) : List (Step σ δ) → List Stretch → List Stretch
  | [], known => known
  | step :: rest, known =>
      let next := world.after step.run
      next.blocksAfter rest
        ((world.handsOut? step).toList
          ++ if next.heap.collections = world.heap.collections then known else [])

variable {world : World σ δ}

/-- What becomes of the answer does not change the world that an action leaves. -/
theorem after_map {α β : Type} (change : α → β) (action : Action (World σ δ) α)
    (world : World σ δ)
    : world.after (change <$> action) = world.after action := by
  have mapped : Runs (change <$> action) world (fun _ final => final = world.after action)
      fun _ final => final = world.after action :=
    runs_map.mpr (runs_after action world)
  have left := after_of_runs mapped
  exact left

/-- Blocks are listed by steps in two parts. -/
theorem blocksAfter_append (world : World σ δ) (steps rest : List (Step σ δ))
    (known : List Stretch)
    : world.blocksAfter (steps ++ rest) known
      = (world.play steps).blocksAfter rest (world.blocksAfter steps known) := by
  induction steps generalizing world known with
  | nil => rfl
  | cons step steps ih => exact ih _ _

/-- A block that a step hands out ends at the cursor that it leaves. -/
theorem stop_of_handsOut {step : Step σ δ} (reachable : world.Reachable)
    (idle : world.heap.phase = .idle) {block : Stretch} (handed : world.handsOut? step = some block)
    : block.stop = (world.after step.run).heap.regions.birth.cursor := by
  have regular := (reachable.steady idle).toRegular
  have answered : ∀ {host size align},
      Stretch.ofAnswer? size (allocateAligned host size align world) = some block →
      block.stop = (world.after (allocateAligned host size align)).heap.regions.birth.cursor := by
    intro host size align handed
    have cursor := cursor_allocateAligned host size idle align regular
    unfold after
    cases run : allocateAligned host size align world with
    | ok object final =>
        rw [run] at handed
        cases handed
        exact (cursor.of_ok run).symm
    | error =>
        rw [run] at handed
        cases handed
  cases step with
  | operate host operation =>
      cases operation with
      | allocate size =>
          rw [handsOut?, allocate_eq_allocateAligned] at handed
          rw [Step.run, Operation.run, after_map, allocate_eq_allocateAligned]
          exact answered handed
      | allocateAligned size align =>
          rw [handsOut?] at handed
          rw [Step.run, Operation.run, after_map]
          exact answered handed
      | _ => cases handed
  | change => cases handed

/-- Blocks handed out since the last collection lie below the cursor, by one step after another. -/
theorem stop_le_cursor {steps : List (Step σ δ)} {known : List Stretch}
    (reachable : world.Reachable) (idle : (world.play steps).heap.phase = .idle)
    (below : ∀ block ∈ known, block.stop ≤ world.heap.regions.birth.cursor)
    : ∀ block ∈ world.blocksAfter steps known,
        block.stop ≤ (world.play steps).heap.regions.birth.cursor := by
  induction steps generalizing world known with
  | nil => exact below
  | cons step rest ih =>
      have next : (world.after step.run).Reachable := reachable.play [step]
      have rests : (world.after step.run).heap.phase = .idle := idle_of_play idle
      refine ih next idle fun block listed => ?_
      cases List.mem_append.mp listed with
      | inl new =>
          have handed := Option.mem_toList.mp new
          exact Nat.le_of_eq (stop_of_handsOut reachable (idle_of_step rests) handed)
      | inr old =>
          split_ifs at old with same
          · exact (below block old).trans ((turn_step reachable rests).cursor_le same)
          · cases old

/-- The margin and the size of the birth region are those it was set up with. -/
theorem birth_of_play {mapper : Mapper} {config : Config} {state : σ} {start : World σ δ}
    (created : create mapper config state = .ok start) {steps : List (Step σ δ)}
    (idle : (start.play steps).heap.phase = .idle)
    : (start.play steps).heap.regions.birth.margin = config.safetyMargin
      ∧ (start.play steps).heap.regions.birth.maxObjectWords
        = config.birthWords - config.safetyMargin := by
  have begins : start.Reachable := .create created
  have scheduled : start.ledger.Scheduled config none := by
    rw [(ledger_of_create created).1]
    exact Ledger.scheduled_opening config
  have same : (start.play steps).ledger.config = config :=
    (scheduled_play begins scheduled idle).same
  have outlined : (start.play steps).ledger.Outlined := by
    refine (begins.play steps).posted (fun _ => ⟨rfl, rfl⟩) (fun ledger posting _ here => ?_) idle
    cases posting <;> exact ⟨here.margin, here.capacity⟩
  have margin := outlined.margin
  have capacity := outlined.capacity
  rw [same] at margin capacity
  exact ⟨margin, congrArg₂ (· - ·) capacity margin⟩

end World

namespace Record

/-- A block of two words, and then one of three words at a multiple of four words. -/
def demands : List (Step HostState Destructor) :=
  [.operate host (.allocate 16), .operate host (.allocateAligned 24 32)]

end Record

end MovingHeap
