import MovingHeap.Proofs.FullCollection
import MovingHeap.Proofs.MinorCollection
import MovingHeap.Proofs.RootChanges

/-! Every operation of a host that plays by the rules leaves a sound heap.
A collection that an operation runs makes the heap sound again whatever was recorded before it, so
that it is enough to look at what the operation does apart from that.
-/

namespace MovingHeap

variable {σ δ α : Type}

/-- Whether the violation says that there was no room for a copy or that it could not be right. -/
def Violation.isBadCopy : Violation → Bool
  | badCopy .. => true
  | _ => false

namespace World

variable {contract : Contract σ} {before after : World σ δ} {extra : List Value}

-----------------------------------------------------------------------------------------
-- Changes of the roots
-----------------------------------------------------------------------------------------

/-- References stay well-formed where a root takes what was given or what another root held. -/
theorem WellFormed.of_roots (wellFormed : before.WellFormed contract extra)
    (regions : after.heap.regions = before.heap.regions) (host : after.host = before.host)
    (roots
      : ∀ root,
          after.heap.rootValue root = .null
          ∨ after.heap.rootValue root ∈ extra
          ∨ ∃ former, after.heap.rootValue root = before.heap.rootValue former)
    : after.WellFormed contract extra := by
  refine wellFormed.of_within regions (by rw [host]; exact wellFormed.upholds) fun value start => ?_
  cases start with
  | rooted rooted =>
      cases rooted with
      | root root =>
          rcases roots root with null | given | ⟨former, same⟩
          · rw [null]
            exact Or.inl rfl
          · exact Or.inr (.start (.extra given))
          · rw [same]
            exact Or.inr (.start (.rooted (.root former)))
      | kept member =>
          rw [host] at member
          exact Or.inr (.start (.rooted (.kept member)))
  | noted noted =>
      rw [regions] at noted ⊢
      exact Or.inr (.start (.noted noted))
  | extra member => exact Or.inr (.start (.extra member))

/-- Fewer values about to be stored are well-formed, too. -/
theorem WellFormed.fewer (wellFormed : before.WellFormed contract extra) {held : List Value}
    (fewer : ∀ value ∈ held, value ∈ extra)
    : before.WellFormed contract held := by
  refine wellFormed.of_within rfl wellFormed.upholds fun value start => Or.inr ?_
  cases start with
  | rooted rooted => exact .start (.rooted rooted)
  | noted noted => exact .start (.noted noted)
  | extra member => exact .start (.extra (fewer _ member))

/-- A sound heap stays sound where a root takes what was given or what another root held, if modules
and constants that hold birth references count as changed.
-/
theorem Sound.of_roots (sound : before.Sound contract)
    (wellFormed : before.WellFormed contract extra) (steady : after.heap.Steady)
    (regions : after.heap.regions = before.heap.regions) (host : after.host = before.host)
    (roots
      : ∀ root,
          after.heap.rootValue root = .null
          ∨ after.heap.rootValue root ∈ extra
          ∨ ∃ former, after.heap.rootValue root = before.heap.rootValue former)
    (modules : after.heap.modules.Marked) (constants : after.heap.constants.Marked)
    : after.Sound contract where
  regular := steady.toRegular
  wellFormed := (wellFormed.of_roots regions host roots).fewer nofun
  generational := by
    refine ⟨?_, modules, constants⟩
    rw [regions]
    exact sound.generational.slots
  room := by
    rw [regions]
    exact sound.room

/-- A sound heap stays sound where memory, roots and host are the same. -/
theorem Sound.of_same (sound : before.Sound contract) (steady : after.heap.Steady)
    (same : before.SameOutside after) (regions : after.heap.regions = before.heap.regions)
    : after.Sound contract := by
  refine sound.of_roots sound.wellFormed steady regions same.host
    (fun root => Or.inr (Or.inr ⟨root, same.rootValue root⟩)) ?_ ?_
  · rw [same.modules]
    exact sound.generational.modules
  · rw [same.constants]
    exact sound.generational.constants

-----------------------------------------------------------------------------------------
-- Collections
-----------------------------------------------------------------------------------------

/-- What collecting on demand comes to: a minor collection, a full one, or the one and then the other. -/
inductive Collected (contract : Contract σ)
    : (Value → Value) → World σ δ → World σ δ → Prop where
  | promoted {move : Value → Value} {before after : World σ δ}
      (promotes : Promotes contract move before after)
      : Collected contract move before after
  | compacted {move : Value → Value} {before after : World σ δ}
      (compacts : Compacts contract move before after)
      : Collected contract move before after
  | both {first second : Value → Value} {before middle after : World σ δ}
      (promotes : Promotes contract first before middle) (collects : before.Collects middle)
      (compacts : Compacts contract second middle after)
      : Collected contract (second ∘ first) before after

/-- Collecting on demand leaves a sound heap, as a full collection follows where there is no room; no
copy is ever refused.
-/
theorem Sound.collectFor (sound : before.Sound contract) (addressable : before.Addressable)
    {host : Host σ δ} (faithful : host.Faithful contract) (words : Nat) (wantsFull : Bool)
    (reason : Reason)
    : Runs (Collector.collectFor host words wantsFull reason) before
        (fun _ final =>
          before.Collects final
          ∧ final.Sound contract
          ∧ ∃ move, Collected contract move before final)
        fun violation final =>
          violation.isBadCopy = false
          ∧ (final.heap.phase = .idle →
              final.heap = before.heap ∧ final.host = before.host) := by
  have full : ∀ {world : World σ δ} (reason : Reason), world.Orderly contract → world.Addressable →
      Runs (Collector.full host reason) world
        (fun _ final =>
          world.Collects final
          ∧ final.Sound contract
          ∧ ∃ move, Compacts contract move world final)
        fun violation final => violation.isBadCopy = false ∧ final.heap.phase ≠ .idle := by
    intro world reason orderly addressable
    refine Runs.mono (Runs.and (orderly.collectable.full addressable faithful reason)
      (Collector.collects_full host reason orderly.regular)) ?_ ?_
    · intro _ final reached
      exact ⟨reached.2, reached.1.2.1 orderly, reached.1.2.2⟩
    · intro violation final stopped
      obtain ⟨⟨-, rfl⟩, busy⟩ := stopped
      exact ⟨rfl, busy⟩
  refine Collector.runs_collectFor (fun _ _ => ⟨rfl, fun _ => ⟨rfl, rfl⟩⟩)
    (fun _ _ => ⟨rfl, fun _ => ⟨rfl, rfl⟩⟩) (fun _ _ reason => ?_) fun _ _ => ?_
  · exact (full reason sound.toOrderly addressable).mono
      (fun _ _ reached => ⟨reached.1, reached.2.1, _, .compacted reached.2.2.choose_spec⟩)
      fun _ _ stopped => ⟨stopped.1, fun idle => absurd idle stopped.2⟩
  · refine Runs.mono (sound.minor addressable faithful.toTraces reason) (fun _ middle reached => ?_)
      fun _ _ => False.elim
    obtain ⟨first, orderly, move, promotes⟩ := reached
    split_ifs with short
    · have still : middle.Addressable := by
        rw [Addressable, first.arena]
        exact addressable
      exact (full .oldSpaceFull orderly still).mono
        (fun _ _ second =>
          ⟨Collector.collects_trans first second.1, second.2.1, _,
            .both promotes first second.2.2.choose_spec⟩)
        fun _ _ stopped => ⟨stopped.1, fun idle => absurd idle stopped.2⟩
    · exact ⟨first, ⟨orderly, Nat.le_of_not_lt short⟩, move, .promoted promotes⟩

/-- The action leaves a sound heap wherever it leaves a steady one on which no collection runs, and it
is never stopped because a copy was refused.
-/
def KeepsSound (contract : Contract σ) (action : Action (World σ δ) α) (world : World σ δ) : Prop :=
  Runs action world
    (fun _ final => final.heap.phase = .idle → final.heap.Steady → final.Sound contract)
    fun violation final =>
      violation.isBadCopy = false
      ∧ (final.heap.phase = .idle → final.heap.Steady → final.Sound contract)

/-- Handing out words that fit leaves a sound heap. -/
theorem Sound.reserved {world : World σ δ} (sound : world.Sound contract) (words stride : Nat)
    (steady : (world.reserved words stride).heap.Steady)
    : (world.reserved words stride).Sound contract := by
  have apart := sound.regular.apart
  have same : world.SameOutside (world.reserved words stride) := ⟨rfl, rfl, rfl, rfl, rfl⟩
  refine ⟨⟨steady.toRegular, ?_, ?_⟩, sound.room⟩
  · refine sound.wellFormed.of_birth apart same rfl ?_ (fun _ _ _ _ _ _ => rfl)
      (fun raw member => Or.inl member) nofun
    simp only [BirthRegion.bump]
    omega
  · exact generational_birth sound.generational apart same rfl fun _ => id

/-- Handing out memory leaves a sound heap. -/
theorem Sound.reserve (sound : before.Sound contract) (addressable : before.Addressable)
    {host : Host σ δ} (faithful : host.Faithful contract) (size stride : Nat)
    : KeepsSound contract (World.reserve host size stride) before := by
  refine runs_reserve
    (fun _ => ⟨rfl, fun _ steady => sound.of_same steady ⟨rfl, rfl, rfl, rfl, rfl⟩ rfl⟩)
    (fun _ _ steady => sound.reserved _ _ steady) fun wantsFull reason _ => ?_
  refine (sound.collectFor addressable faithful _ wantsFull reason).mono ?_ ?_
  · intro _ middle reached _ steady
    exact reached.2.1.reserved _ _ steady
  · intro _ final stopped
    refine ⟨stopped.1, fun idle steady => ?_⟩
    obtain ⟨heap, host⟩ := stopped.2 idle
    exact sound.of_same steady ⟨host, by rw [heap], by rw [heap], by rw [heap], by rw [heap]⟩
      (by rw [heap])

-----------------------------------------------------------------------------------------
-- Stores
-----------------------------------------------------------------------------------------

/-- The world with other memory. -/
def withRegions (world : World σ δ) (regions : Regions δ) : World σ δ :=
  { world with heap := { world.heap with regions } }

/-- A slot may be recorded: it is one outside of the birth region, and what it holds is well-formed. -/
structure Recordable (contract : Contract σ) (world : World σ δ) (slot : Address) : Prop where
  valid : slot.Decodes
  isSlot : world.heap.regions.Slot contract.layout slot.space slot.offset
  wellFormed
    : world.WellFormed contract [⟨world.heap.regions.cell slot.space slot.offset⟩]

/-- Memory may become like that by storing a word: references stay well-formed, and no word becomes a
slot that was none.
-/
structure Storable (contract : Contract σ) (world : World σ δ) (after : Regions δ) : Prop where
  wellFormed : (world.withRegions after).WellFormed contract []
  slots
    : ∀ space offset,
        after.Slot contract.layout space offset →
        world.heap.regions.Slot contract.layout space offset

/-- A word that is stored leaves the recorded slots alone. -/
theorem remembered_setWord? {regions next : Regions δ} {addr : Address} {word : Word}
    (done : regions.setWord? addr word = some next)
    : next.birth.remembered = regions.birth.remembered := by
  have evolves := Regions.Evolves.setWord? done
  have start := evolves.bufferStart
  have size : next.birth.capacity = regions.birth.capacity := evolves.birthSize
  simp only [BirthRegion.remembered, BirthRegion.rememberedCount, start, size]
  refine Arena.words_congr fun index above _ => ?_
  have cell := Regions.cell_setWord? done .birth index
  have elsewhere : ¬ (Space.birth = addr.space ∧ index = addr.offset) := by
    intro here
    obtain ⟨birth, same⟩ := here
    simp only [Regions.setWord?, ← birth] at done
    split_ifs at done with below
    simp only [BirthRegion.writable] at below
    omega
  rw [if_neg elsewhere] at cell
  exact cell

/-- What was noted is noted after a store. -/
theorem noted_setWord? {regions next : Regions δ} {addr : Address} {word : Word}
    (done : regions.setWord? addr word = some next) {space : Space} {offset : Nat}
    (noted : regions.Noted space offset)
    : next.Noted space offset := by
  obtain ⟨recent, slots, -, -⟩ := Collector.frame_setWord? done
  cases noted with
  | recorded valid member =>
      rw [← remembered_setWord? done] at member
      exact .recorded valid member
  | @fresh begin index occupant member found inside =>
      rw [← recent] at member
      refine .fresh member ?_ inside
      rw [FixedSpace.occupant?, FixedSpace.slot?, slots]
      exact found

/-- The heap is sound, but one slot may hold a birth reference that is not known yet. -/
structure SoundBut (contract : Contract σ) (slot : Address) (world : World σ δ) : Prop where
  regular : world.heap.Regular
  wellFormed : world.WellFormed contract []
  slots
    : ∀ space offset,
        world.heap.regions.Slot contract.layout space offset →
        (Value.mk (world.heap.regions.cell space offset)).isBirth →
        world.heap.regions.Noted space offset ∨ space = slot.space ∧ offset = slot.offset
  modules : world.heap.modules.Marked
  constants : world.heap.constants.Marked
  room : world.heap.regions.birth.capacity ≤ world.heap.regions.old.free

/-- The heap is sound if the slot is noted or holds no birth reference. -/
theorem SoundBut.sound {slot : Address} {world : World σ δ} (but : SoundBut contract slot world)
    (noted
      : world.heap.regions.Slot contract.layout slot.space slot.offset →
        (Value.mk (world.heap.regions.cell slot.space slot.offset)).isBirth →
        world.heap.regions.Noted slot.space slot.offset)
    : world.Sound contract where
  regular := but.regular
  wellFormed := but.wellFormed
  generational := by
    refine ⟨fun space offset isSlot young => ?_, but.modules, but.constants⟩
    rcases but.slots space offset isSlot young with known | ⟨rfl, rfl⟩
    · exact known
    · exact noted isSlot young
  room := but.room

theorem Sound.but {world : World σ δ} (sound : world.Sound contract) (slot : Address)
    : SoundBut contract slot world where
  regular := sound.regular
  wellFormed := sound.wellFormed
  slots space offset isSlot young := Or.inl (sound.generational.slots space offset isSlot young)
  modules := sound.generational.modules
  constants := sound.generational.constants
  room := sound.room

/-- Storing a word leaves a sound heap but for the place it was stored to. -/
theorem Sound.stored (sound : before.Sound contract) {addr : Address} {word : Word}
    {regions : Regions δ} (done : before.heap.regions.setWord? addr word = some regions)
    (storable : Storable contract before regions)
    : SoundBut contract addr (before.withRegions regions) where
  regular :=
    ⟨sound.regular.toResting.evolves (Regions.Evolves.setWord? done), sound.regular.entered,
      sound.regular.numbered, sound.regular.ranks, sound.regular.groups, sound.regular.grouped⟩
  wellFormed := storable.wellFormed
  slots space offset slot young := by
    have former := storable.slots space offset slot
    have cell := Regions.cell_setWord? done space offset
    simp only [withRegions] at young ⊢
    by_cases here : space = addr.space ∧ offset = addr.offset
    · exact Or.inr here
    · rw [if_neg here] at cell
      rw [cell] at young
      exact Or.inl (noted_setWord? done (sound.generational.slots space offset former young))
  modules := sound.generational.modules
  constants := sound.generational.constants
  room := by
    have evolves := Regions.Evolves.setWord? done
    obtain ⟨-, -, -, cursor⟩ := Collector.frame_setWord? done
    have minor : before.heap.regions.isFull = false := by
      simp [Regions.isFull, sound.regular.target]
    have target : regions.target = none := by
      have isFull := evolves.isFull.trans minor
      simpa [Regions.isFull] using isFull
    have birth : regions.birth.capacity = before.heap.regions.birth.capacity := evolves.birthSize
    have old : regions.old.capacity = before.heap.regions.old.capacity := evolves.oldSize
    simp only [Regions.destination, target, sound.regular.target, Option.getD_none] at cursor
    have room := sound.room
    simp only [withRegions, Semispace.free] at room ⊢
    omega

/-- A recorded slot is noted. -/
theorem noted_recorded (steady : before.heap.Steady) {slot : Address} (valid : slot.Decodes)
    : (before.recorded slot).heap.regions.Noted slot.space slot.offset := by
  have spare := steady.spare
  have remembered := remembered_remember (Nat.lt_of_le_of_lt (Nat.zero_le _) spare)
    steady.birthInside slot
  refine .recorded valid ?_
  have member : slot.raw ∈ slot.raw :: before.heap.regions.birth.remembered := List.mem_cons_self
  rwa [← remembered] at member

/-- Recording a slot leaves the words of objects alone. -/
theorem get_remember (wellFormed : before.WellFormed contract extra)
    (spare
      : before.heap.regions.birth.cursor + storeBufferSlack < before.heap.regions.birth.bufferStart)
    {object : Address} (valid : object.Decodes) (met : before.Met contract extra object.toValue)
    (birth : object.space = .birth) {index : Nat}
    (inside : index < contract.layout.size (before.heap.regions.field object)) (slot : Address)
    : (before.heap.regions.birth.remember slot).words.get (object.offset + index)
      = before.heap.regions.birth.words.get (object.offset + index) := by
  obtain ⟨-, -, below⟩ := wellFormed.coherent.object object valid met (by simp [birth])
  rw [Regions.limit, if_pos birth] at below
  simp only [BirthRegion.remember, Arena.get_set]
  rw [if_neg (by omega)]

/-- Recording the slot leaves a sound heap, even where a collection is due then. -/
theorem SoundBut.recorded {slot : Address} (but : SoundBut contract slot before)
    (steady : before.heap.Steady) (recordable : Recordable contract before slot)
    : (before.recorded slot).Sound contract := by
  have apart := but.regular.apart
  have spare := steady.spare
  have remembered := remembered_remember (Nat.lt_of_le_of_lt (Nat.zero_le _) spare)
    but.regular.birthInside slot
  have wellFormed : (before.recorded slot).WellFormed contract [] := by
    refine recordable.wellFormed.of_birth apart ⟨rfl, rfl, rfl, rfl, rfl⟩ rfl (Nat.le_refl _) ?_ ?_
      nofun
    · exact fun object valid met birth index inside =>
        get_remember recordable.wellFormed spare valid met birth inside slot
    · intro raw member
      rw [remembered] at member
      rcases List.mem_cons.mp member with rfl | former
      · exact Or.inr ⟨slot, rfl, recordable.valid, recordable.isSlot,
          .start (.extra List.mem_cons_self)⟩
      · exact Or.inl former
  refine SoundBut.sound ⟨regular_recorded steady slot, wellFormed, ?_, but.modules, but.constants,
    but.room⟩ fun _ _ => noted_recorded steady recordable.valid
  intro space offset isSlot young
  have former := (Regions.slot_birth apart _).mp isSlot
  have cell := Regions.cell_birth before.heap.regions (before.heap.regions.birth.remember slot)
    (ne_birth_of_slot apart former) offset
  simp only [World.recorded] at young
  rw [cell] at young
  rcases but.slots space offset former young with noted | here
  · refine Or.inl ?_
    cases noted with
    | recorded valid member =>
        refine .recorded valid ?_
        have listed := List.mem_cons_of_mem slot.raw member
        rwa [← remembered] at listed
    | fresh recent found inside => exact .fresh recent found inside
  · exact Or.inr here

/-- Recording a slot that may hold a birth reference makes the heap sound. -/
theorem SoundBut.notifyStore {slot : Address} (but : SoundBut contract slot before)
    (steady : before.heap.Steady) (addressable : before.Addressable) {host : Host σ δ}
    (faithful : host.Faithful contract)
    (recordable : slot.space ≠ .birth → Recordable contract before slot)
    : KeepsSound contract (World.notifyStore host slot) before := by
  refine runs_notifyStore (fun young => ?_) (fun later known => ?_)
    (fun later _ _ _ => but.recorded steady (recordable later)) fun later => ?_
  · exact fun _ _ => but.sound fun isSlot => absurd young (ne_birth_of_slot but.regular.apart isSlot)
  · intro _ steady'
    have member := mem_of_recentlyRemembered known
    exact (but.sound fun _ _ => .recorded (recordable later).valid member).of_same steady'
      ⟨rfl, rfl, rfl, rfl, rfl⟩ rfl
  · have recorded := but.recorded steady (recordable later)
    refine (recorded.collectFor addressable faithful 0 false .storeBufferFull).mono ?_ ?_
    · exact fun _ _ reached _ _ => reached.2.1
    · intro _ final stopped
      refine ⟨stopped.1, fun idle steady' => ?_⟩
      obtain ⟨heap, host⟩ := stopped.2 idle
      exact recorded.of_same steady'
        ⟨host, by rw [heap], by rw [heap], by rw [heap], by rw [heap]⟩ (by rw [heap])

end World

end MovingHeap
