import MovingHeap.Proofs.Steadiness
import MovingHeap.Proofs.Upkeep

/-! Runs of hosts that play by the rules.
The rules speak of what the host hands to an operation: references that it stores are well-formed, and
one into the birth region that it stores elsewhere is recorded. They are enough for every heap on
which no collection runs to be sound.
-/

namespace MovingHeap

variable {σ δ α β : Type}

-----------------------------------------------------------------------------------------
-- What frames refuse
-----------------------------------------------------------------------------------------

namespace FrameStack

variable {stack : FrameStack} {violation : Violation}

theorem isBadCopy_of_push {descriptor : FrameDescriptor} {params : List Value}
    (refused : stack.push descriptor params = .error violation)
    : violation.isBadCopy = false := by
  unfold push at refused
  split_ifs at refused
  cases refused
  rfl

theorem isBadCopy_of_pop {id : FrameId} (refused : stack.pop id = .error violation)
    : violation.isBadCopy = false := by
  unfold pop at refused
  split at refused
  next =>
    split_ifs at refused
    cases refused
    rfl
  next =>
    cases refused
    rfl

theorem isBadCopy_of_frame {id : FrameId} (refused : stack.frame id = .error violation)
    : violation.isBadCopy = false := by
  unfold frame at refused
  split at refused
  · cases refused
  · cases refused
    rfl

theorem isBadCopy_of_position {id : FrameId} {kind : SlotKind} {index : Nat}
    (refused : stack.position id kind index = .error violation)
    : violation.isBadCopy = false := by
  unfold position at refused
  cases found : stack.frame id with
  | error unknown =>
      rw [found] at refused
      cases refused
      exact isBadCopy_of_frame found
  | ok frame =>
      simp only [found, bind, Except.bind] at refused
      split_ifs at refused
      · cases refused
      · cases refused
        rfl

end FrameStack

/-- A result that is changed is refused where it was. -/
theorem error_of_map {violation : Violation} {result : Except Violation α} {change : α → β}
    (refused : change <$> result = .error violation)
    : result = .error violation := by
  cases result with
  | error =>
      cases refused
      rfl
  | ok => cases refused

/-- A module table that was changed at a rank has a module there. -/
theorem ModuleTable.get?_of_map {table next : ModuleTable} {rank : Nat}
    {change : Module → ModuleTable} (done : change <$> table.get rank = .ok next)
    : ∃ entry, table.get? rank = some entry ∧ next = change entry := by
  unfold ModuleTable.get at done
  cases found : table.get? rank with
  | none =>
      rw [found] at done
      cases done
  | some entry =>
      rw [found] at done
      cases done
      exact ⟨entry, rfl, rfl⟩

namespace World

variable {contract : Contract σ} {before : World σ δ}

/-- A heap that is looked at stays as it is. -/
theorem Sound.check (sound : before.Sound contract) {result : Except Violation α}
    (refuses : ∀ violation, result = .error violation → violation.isBadCopy = false)
    : KeepsSound contract (World.check result) before := by
  unfold KeepsSound
  rw [runs_check]
  split
  next => exact fun _ _ => sound
  next violation =>
    exact ⟨refuses violation rfl, fun _ steady => sound.of_same steady ⟨rfl, rfl, rfl, rfl, rfl⟩ rfl⟩

/-- What is looked up in a heap leaves it as it is. -/
theorem Sound.look (sound : before.Sound contract) (look : Heap δ → Except Violation α)
    (refuses : ∀ violation, look before.heap = .error violation → violation.isBadCopy = false)
    : KeepsSound contract (do World.check (look (← World.heapNow))) before := by
  unfold KeepsSound
  rw [runs_bind, runs_heapNow]
  exact sound.check refuses

/-- A word that is read leaves the heap as it is. -/
theorem Sound.load (sound : before.Sound contract) (addr : Address)
    : KeepsSound contract (World.load addr) before := by
  unfold KeepsSound
  simp only [World.load, runs_bind, runs_heapNow, runs_require]
  split
  next => exact fun _ _ => sound
  next => exact ⟨rfl, fun _ steady => sound.of_same steady ⟨rfl, rfl, rfl, rfl, rfl⟩ rfl⟩

/-- What is done once the heap was found idle. -/
theorem Sound.ensureIdle (sound : before.Sound contract) {next : Unit → Action (World σ δ) α}
    (keeps : KeepsSound contract (next ()) before)
    : KeepsSound contract (World.ensureIdle >>= next) before := by
  unfold KeepsSound
  simp only [World.ensureIdle, runs_bind, runs_heapNow, runs_ite, runs_stop, runs_pure]
  split_ifs
  · exact ⟨rfl, fun _ steady => sound.of_same steady ⟨rfl, rfl, rfl, rfl, rfl⟩ rfl⟩
  · exact keeps

theorem Sound.allocate (sound : before.Sound contract) (addressable : before.Addressable)
    {host : Host σ δ} (faithful : host.Faithful contract) (size : Nat)
    : KeepsSound contract (World.allocate host size) before :=
  sound.ensureIdle (sound.reserve addressable faithful size 1)

theorem Sound.allocateAligned (sound : before.Sound contract) (addressable : before.Addressable)
    {host : Host σ δ} (faithful : host.Faithful contract) (size align : Nat)
    : KeepsSound contract (World.allocateAligned host size align) before := by
  refine sound.ensureIdle ?_
  split_ifs
  · exact sound.reserve addressable faithful size _
  · exact ⟨rfl, fun _ steady => sound.of_same steady ⟨rfl, rfl, rfl, rfl, rfl⟩ rfl⟩

/-- A fixed object that was just allocated holds no reference, and it is fresh. -/
theorem Sound.allocateFixed (sound : before.Sound contract) (size : Nat) (destructor : Option δ)
    (executable : Bool)
    : KeepsSound contract (World.allocateFixed size destructor executable) before := by
  refine sound.ensureIdle ?_
  have positive : 0 < max (wordsFor size) 1 := by omega
  obtain ⟨slot, -, -, reserves⟩ :=
    sound.regular.consistent.reserves_allocate positive destructor executable
  have reserved : ∀ after : World σ δ, before.SameOutside after →
      after.heap.regions
        = { before.heap.regions with
            fixed := (before.heap.regions.fixed.allocate (max (wordsFor size) 1) destructor
              executable).2 } →
      after.heap.Steady → after.Sound contract := by
    intro after same regions steady
    have apart := sound.regular.apart
    have consistent := sound.regular.consistent
    refine ⟨⟨steady.toRegular, ?_, ?_⟩, ?_⟩
    · exact WellFormed.of_reserves reserves consistent apart regions same sound.wellFormed
    · exact generational_reserves reserves consistent apart regions same sound.generational
    · rw [regions]
      exact sound.room
  unfold KeepsSound
  simp only [runs_bind, runs_heapNow, runs_modifyRegions, runs_count, runs_ite, requestFull,
    runs_modifyHeap, runs_pure]
  split_ifs
  · refine fun _ steady => reserved _ ?_ ?_ steady
    · exact ⟨rfl, rfl, rfl, rfl, rfl⟩
    · rfl
  · refine fun _ steady => reserved _ ?_ ?_ steady
    · exact ⟨rfl, rfl, rfl, rfl, rfl⟩
    · rfl

/-- A heap is sound after the host gave up on a fixed object if its references are still
well-formed: the object keeps its words, and stays fresh if it was.
-/
theorem Sound.forgotten (sound : before.Sound contract) {start : Nat} {fixed : FixedSpace δ}
    (forgets : before.heap.regions.fixed.forget? start = some fixed)
    (wellFormed : (before.withRegions { before.heap.regions with fixed }).WellFormed contract [])
    (steady : (before.withRegions { before.heap.regions with fixed }).heap.Steady)
    : (before.withRegions { before.heap.regions with fixed }).Sound contract := by
  obtain ⟨given, there, same⟩ := Option.map_eq_some_iff.mp forgets
  have occupants : ∀ begin occupant,
      fixed.occupant? begin = some occupant
      ↔ ∃ former, before.heap.regions.fixed.occupant? begin = some former
          ∧ (if begin = start then { former with destructor := none, forgotten := true } else former)
            = occupant := by
    intro begin occupant
    rw [← same, FixedSpace.occupant?_updateOccupant]
    split_ifs
    · exact Option.map_eq_some_iff
    · simp
  have recent : fixed.recent = before.heap.regions.fixed.recent := by
    rw [← same]
    rfl
  have arena : fixed.arena = before.heap.regions.fixed.arena := by
    rw [← same]
    rfl
  have cells : ∀ space offset,
      { before.heap.regions with fixed }.cell space offset
      = before.heap.regions.cell space offset := by
    intro space offset
    cases space with
    | fixed => simp only [Regions.cell, arena]
    | _ => rfl
  have outside : before.SameOutside (before.withRegions { before.heap.regions with fixed }) :=
    ⟨rfl, rfl, rfl, rfl, rfl⟩
  refine ⟨⟨steady.toRegular, wellFormed, ?_⟩, sound.room⟩
  refine outside.generational sound.generational ?_ ?_
  · intro space offset noted
    cases noted with
    | recorded valid member => exact .recorded valid member
    | @fresh begin index occupant member found inside =>
        rw [← recent] at member
        refine .fresh member ((occupants begin _).mpr ⟨occupant, found, rfl⟩) ?_
        split_ifs <;> exact inside
  · intro space offset slot _
    refine Or.inr ⟨slot.alike_of_words before.heap.regions rfl rfl
      (fun offset => (cells _ offset).symm) fun begin occupant found => ?_, cells space offset⟩
    obtain ⟨former, held, rfl⟩ := (occupants begin occupant).mp found
    refine ⟨former, held, ?_⟩
    split_ifs <;> rfl

theorem Sound.forgetFixed (sound : before.Sound contract) {object : Address}
    (wellFormed
      : ∀ fixed,
          object.space = .fixed →
          before.heap.regions.fixed.forget? object.offset = some fixed →
          (before.withRegions { before.heap.regions with fixed }).WellFormed contract [])
    : KeepsSound contract (World.forgetFixed object) before := by
  unfold KeepsSound
  simp only [World.forgetFixed, runs_bind, runs_heapNow, runs_require, runs_modifyRegions]
  split
  next fixed found =>
    split_ifs at found with isFixed
    exact fun _ => sound.forgotten found (wellFormed fixed isFixed found)
  next => exact ⟨rfl, fun _ steady => sound.of_same steady ⟨rfl, rfl, rfl, rfl, rfl⟩ rfl⟩

-----------------------------------------------------------------------------------------
-- Stores
-----------------------------------------------------------------------------------------

/-- Storing a word where it may be, with what is done then. -/
theorem Sound.store (sound : before.Sound contract) {addr : Address} {word : Word}
    {next : Unit → Action (World σ δ) α}
    (keeps
      : ∀ regions,
          before.heap.regions.setWord? addr word = some regions →
          KeepsSound contract (next ()) (before.withRegions regions))
    : KeepsSound contract (World.store addr word >>= next) before := by
  unfold KeepsSound
  rw [runs_bind]
  refine runs_store (fun _ => ⟨rfl, fun _ steady => sound.of_same steady ?_ rfl⟩) keeps
  exact ⟨rfl, rfl, rfl, rfl, rfl⟩

/-- A steady heap is still steady where a word was stored. -/
theorem steady_stored (steady : before.heap.Steady) {addr : Address} {word : Word}
    {regions : Regions δ} (done : before.heap.regions.setWord? addr word = some regions)
    : (before.withRegions regions).heap.Steady := by
  have evolves := Regions.Evolves.setWord? done
  have spare := steady.spare
  have cursor : regions.birth.cursor = before.heap.regions.birth.cursor := evolves.birthCursor
  have start : regions.birth.bufferStart = before.heap.regions.birth.bufferStart :=
    evolves.bufferStart
  refine ⟨⟨steady.toResting.evolves evolves, steady.entered, steady.numbered, steady.ranks,
    steady.groups, steady.grouped⟩, ?_⟩
  simp only [withRegions]
  omega

/-- The fixed space is as large as before where a word was stored. -/
theorem addressable_stored (addressable : before.Addressable) {addr : Address} {word : Word}
    {regions : Regions δ} (done : before.heap.regions.setWord? addr word = some regions)
    : (before.withRegions regions).Addressable := by
  have size : regions.fixed.arena.size = before.heap.regions.fixed.arena.size :=
    (Regions.Evolves.setWord? done).fixedSize
  rw [Addressable, withRegions, size]
  exact addressable

/-- The word that was stored is there. -/
theorem cell_stored {addr : Address} {word : Word} {regions : Regions δ}
    (done : before.heap.regions.setWord? addr word = some regions)
    : regions.cell addr.space addr.offset = word := by
  rw [Regions.cell_setWord? done, if_pos ⟨rfl, rfl⟩]

/-- A word that is no birth reference, or whose slot is noted, may be stored. -/
theorem Sound.storeWord (sound : before.Sound contract) {addr : Address} {word : Word}
    (storable
      : ∀ regions,
          before.heap.regions.setWord? addr word = some regions →
          Storable contract before regions)
    (noted
      : (Value.mk word).isBirth →
        before.heap.regions.Slot contract.layout addr.space addr.offset →
        before.heap.regions.Noted addr.space addr.offset)
    : KeepsSound contract (World.store addr word) before := by
  unfold KeepsSound
  refine runs_store (fun _ => ⟨rfl, fun _ steady => sound.of_same steady ?_ rfl⟩)
    fun regions done _ _ => ?_
  · exact ⟨rfl, rfl, rfl, rfl, rfl⟩
  · refine (sound.stored done (storable regions done)).sound fun isSlot young => ?_
    have there : (before.withRegions regions).heap.regions.cell addr.space addr.offset = word :=
      cell_stored done
    rw [there] at young
    exact noted_setWord? done
      (noted young ((storable regions done).slots addr.space addr.offset isSlot))

/-- A value may be stored where its slot is recorded right away. -/
theorem Sound.storeNotified (sound : before.Sound contract) (steady : before.heap.Steady)
    (addressable : before.Addressable) {host : Host σ δ} (faithful : host.Faithful contract)
    {slot : Address} {value : Value}
    (storable
      : ∀ regions,
          before.heap.regions.setWord? slot value.raw = some regions →
          Storable contract before regions
          ∧ (slot.space ≠ .birth → Recordable contract (before.withRegions regions) slot))
    : KeepsSound contract (do World.store slot value.raw; World.notifyStore host slot) before := by
  refine sound.store fun regions done => ?_
  obtain ⟨stores, recordable⟩ := storable regions done
  exact (sound.stored done stores).notifyStore (steady_stored steady done)
    (addressable_stored addressable done) faithful recordable

/-- A value may be written where its slot may be recorded if it leads into the birth region. -/
theorem Sound.write (sound : before.Sound contract) (steady : before.heap.Steady)
    (addressable : before.Addressable) {host : Host σ δ} (faithful : host.Faithful contract)
    {slot : Address} {value : Value}
    (storable
      : ∀ regions,
          before.heap.regions.setWord? slot value.raw = some regions →
          Storable contract before regions
          ∧ (value.isBirth → slot.space ≠ .birth →
              Recordable contract (before.withRegions regions) slot))
    : KeepsSound contract (World.write host slot value) before := by
  refine sound.store fun regions done => ?_
  obtain ⟨stores, recordable⟩ := storable regions done
  have but := sound.stored done stores
  split_ifs with young
  · simp only [Bool.and_eq_true, bne_iff_ne] at young
    exact but.notifyStore (steady_stored steady done) (addressable_stored addressable done) faithful
      (recordable young.1)
  · refine fun _ _ => but.sound fun isSlot birth => ?_
    have there : (before.withRegions regions).heap.regions.cell slot.space slot.offset = value.raw :=
      cell_stored done
    rw [there] at birth
    have later : slot.space ≠ .birth := ne_birth_of_slot but.regular.apart isSlot
    exact absurd (by simpa [Value.isBirth, later] using birth) young

-----------------------------------------------------------------------------------------
-- Roots
-----------------------------------------------------------------------------------------

section Roots

variable {extra : List Value}

/-- Frames may hold what they held, nulls and what is well-formed. -/
theorem Sound.frames (sound : before.Sound contract)
    (wellFormed : before.WellFormed contract extra) {after : World σ δ} {frames : FrameStack}
    {handlers : ExceptStack} (steady : after.heap.Steady) (host : after.host = before.host)
    (heap : after.heap = { before.heap with frames, handlers })
    (slots
      : ∀ id position,
          frames.slotAt id position = .null
          ∨ frames.slotAt id position ∈ extra
          ∨ frames.slotAt id position = before.heap.frames.slotAt id position)
    (pending
      : ∀ index,
          handlers.payloadAt index = .null
          ∨ handlers.payloadAt index ∈ extra
          ∨ handlers.payloadAt index = before.heap.handlers.payloadAt index)
    : after.Sound contract := by
  refine sound.of_roots wellFormed steady (by rw [heap]) host ?_ ?_ ?_
  · intro root
    rw [heap]
    cases root with
    | slot id position =>
        exact (slots id position).imp_right (Or.imp_right fun same => ⟨.slot id position, same⟩)
    | pending index =>
        exact (pending index).imp_right (Or.imp_right fun same => ⟨.pending index, same⟩)
    | module rank => exact Or.inr (Or.inr ⟨.module rank, rfl⟩)
    | constant index => exact Or.inr (Or.inr ⟨.constant index, rfl⟩)
  · rw [heap]
    exact sound.generational.modules
  · rw [heap]
    exact sound.generational.constants

/-- Modules may hold what they held, nulls and what is well-formed, if they are marked. -/
theorem Sound.modules (sound : before.Sound contract)
    (wellFormed : before.WellFormed contract extra) {after : World σ δ} {modules : ModuleTable}
    (steady : after.heap.Steady) (host : after.host = before.host)
    (heap : after.heap = { before.heap with modules })
    (constants
      : ∀ rank,
          modules.constantAt rank = .null
          ∨ modules.constantAt rank ∈ extra
          ∨ modules.constantAt rank = before.heap.modules.constantAt rank)
    (marked : modules.Marked)
    : after.Sound contract := by
  refine sound.of_roots wellFormed steady (by rw [heap]) host ?_ ?_ ?_
  · intro root
    rw [heap]
    cases root with
    | module rank =>
        exact (constants rank).imp_right (Or.imp_right fun same => ⟨.module rank, same⟩)
    | slot id position => exact Or.inr (Or.inr ⟨.slot id position, rfl⟩)
    | pending index => exact Or.inr (Or.inr ⟨.pending index, rfl⟩)
    | constant index => exact Or.inr (Or.inr ⟨.constant index, rfl⟩)
  · rw [heap]
    exact marked
  · rw [heap]
    exact sound.generational.constants

theorem Sound.enterFrame (sound : before.Sound contract) {descriptor : FrameDescriptor}
    {params : List Value} (wellFormed : before.WellFormed contract params)
    : KeepsSound contract (World.enterFrame descriptor params) before := by
  unfold KeepsSound
  simp only [World.enterFrame, runs_bind, runs_heapNow, runs_check, runs_modifyHeap, runs_pure]
  split
  next entered done =>
    obtain ⟨id, frames⟩ := entered
    refine fun _ steady => sound.frames wellFormed steady rfl rfl (fun other position => ?_)
      fun _ => Or.inr (Or.inr rfl)
    rw [FrameStack.slotAt_push done]
    split_ifs
    · cases given : params[position]? with
      | none => exact Or.inl rfl
      | some value => exact Or.inr (Or.inl (List.mem_of_getElem? given))
    · exact Or.inr (Or.inr rfl)
  next violation refused =>
    exact ⟨FrameStack.isBadCopy_of_push refused, fun _ steady =>
      sound.of_same steady ⟨rfl, rfl, rfl, rfl, rfl⟩ rfl⟩

theorem Sound.exitFrame (sound : before.Sound contract) {id : FrameId}
    : KeepsSound contract (World.exitFrame id) before := by
  unfold KeepsSound
  simp only [World.exitFrame, runs_bind, runs_heapNow, runs_check, runs_modifyHeap]
  split
  next frames done =>
    refine fun _ steady => sound.frames sound.wellFormed steady rfl rfl (fun other position => ?_)
      fun _ => Or.inr (Or.inr rfl)
    unfold FrameStack.pop at done
    split at done
    next top rest listed =>
      split_ifs at done
      cases done
      refine (FrameStack.slotAt_of_sublist sound.regular.entered ?_ other position).imp_right Or.inr
      rw [listed]
      exact List.sublist_cons_self top rest
    next => cases done
  next violation refused =>
    exact ⟨FrameStack.isBadCopy_of_pop refused, fun _ steady =>
      sound.of_same steady ⟨rfl, rfl, rfl, rfl, rfl⟩ rfl⟩

theorem Sound.setFrameSlot (sound : before.Sound contract) {id : FrameId} {kind : SlotKind}
    {index : Nat} {value : Value} (wellFormed : before.WellFormed contract [value])
    : KeepsSound contract (World.setFrameSlot id kind index value) before := by
  unfold KeepsSound
  simp only [World.setFrameSlot, runs_bind, runs_heapNow, runs_check, runs_modifyHeap]
  unfold FrameStack.set
  cases found : before.heap.frames.position id kind index with
  | ok place =>
      refine fun _ steady => sound.frames wellFormed steady rfl rfl (fun other position => ?_)
        fun _ => Or.inr (Or.inr rfl)
      simp only [FrameStack.slotAt_eq, FrameStack.slot?_setSlotAt]
      split_ifs with here
      · cases before.heap.frames.slot? id place with
        | none => exact Or.inl rfl
        | some former => exact Or.inr (Or.inl List.mem_cons_self)
      · exact Or.inr (Or.inr rfl)
  | error violation =>
      exact ⟨FrameStack.isBadCopy_of_position found, fun _ steady =>
        sound.of_same steady ⟨rfl, rfl, rfl, rfl, rfl⟩ rfl⟩

theorem Sound.openBlock (sound : before.Sound contract)
    : KeepsSound contract World.openBlock before := by
  unfold KeepsSound
  simp only [World.openBlock, runs_bind, runs_heapNow, runs_modifyHeap, runs_pure]
  refine fun _ steady => sound.frames sound.wellFormed steady rfl rfl
    (fun _ _ => Or.inr (Or.inr rfl)) fun index => ?_
  exact (ExceptStack.payloadAt_push _ rfl index).imp_right Or.inr

/-- Leaving a block takes handlers off and leaves frames, whatever came of its body. -/
theorem Sound.closeBlock (sound : before.Sound contract) (block : Block)
    (result : Except Thrown α)
    : KeepsSound contract (World.closeBlock block result) before := by
  have pending : ∀ index, (before.heap.handlers.popTo block.depth).2.payloadAt index = .null
      ∨ (before.heap.handlers.popTo block.depth).2.payloadAt index ∈ []
      ∨ (before.heap.handlers.popTo block.depth).2.payloadAt index
        = before.heap.handlers.payloadAt index := fun index =>
    (ExceptStack.payloadAt_popTo block.depth index).imp_right Or.inr
  have slots : ∀ saved id position,
      (before.heap.frames.unwindTo saved).slotAt id position = .null
      ∨ (before.heap.frames.unwindTo saved).slotAt id position ∈ []
      ∨ (before.heap.frames.unwindTo saved).slotAt id position
        = before.heap.frames.slotAt id position := fun saved id position =>
    (FrameStack.slotAt_of_sublist sound.regular.entered (List.dropWhile_sublist _) id
      position).imp_right Or.inr
  have same : ∀ id position,
      before.heap.frames.slotAt id position = .null
      ∨ before.heap.frames.slotAt id position ∈ []
      ∨ before.heap.frames.slotAt id position = before.heap.frames.slotAt id position :=
    fun _ _ => Or.inr (Or.inr rfl)
  unfold KeepsSound
  simp only [World.closeBlock, runs_bind, runs_heapNow, runs_modifyHeap]
  cases result with
  | ok value =>
      simp only [runs_bind, runs_heapNow, runs_ite, runs_stop, runs_pure]
      split_ifs
      · exact ⟨rfl, fun _ steady => sound.frames sound.wellFormed steady rfl rfl same pending⟩
      · exact fun _ steady => sound.frames sound.wellFormed steady rfl rfl same pending
  | error thrown =>
      simp only [runs_bind, runs_heapNow, runs_modifyHeap, runs_ite, runs_stop, runs_pure]
      split_ifs
      · exact ⟨rfl, fun _ steady => sound.frames sound.wellFormed steady rfl rfl (slots _) pending⟩
      · exact fun _ steady => sound.frames sound.wellFormed steady rfl rfl (slots _) pending

theorem Sound.throwException (sound : before.Sound contract) {code : Int} {payload : Value}
    (wellFormed : before.WellFormed contract [payload])
    : KeepsSound contract (World.throwException code payload) before := by
  unfold KeepsSound
  simp only [World.throwException, runs_bind, runs_heapNow, runs_require]
  split
  next handlers raises =>
    simp only [runs_modifyHeap, runs_pure]
    refine fun _ steady => sound.frames wellFormed steady rfl rfl (fun _ _ => Or.inr (Or.inr rfl))
      fun index => Or.inr ?_
    exact (ExceptStack.payloadAt_raise raises index).imp_left fun same => by
      rw [same]
      exact List.mem_cons_self
  next => exact ⟨rfl, fun _ steady => sound.of_same steady ⟨rfl, rfl, rfl, rfl, rfl⟩ rfl⟩

/-- A module that was just loaded holds nothing. -/
theorem Sound.loadModule (sound : before.Sound contract) (loader : Loader)
    (name searchPath : String) (wanted : Option Nat)
    : KeepsSound contract (World.loadModule loader name searchPath wanted) before := by
  have same : ∀ log, ({ before with log } : World σ δ).heap.Steady →
      ({ before with log } : World σ δ).Sound contract := fun _ steady =>
    sound.of_same steady ⟨rfl, rfl, rfl, rfl, rfl⟩ rfl
  unfold KeepsSound
  simp only [World.loadModule, runs_bind, runs_heapNow]
  split
  next => exact fun _ steady => same _ steady
  next rank claimed =>
    split
    next =>
      simp only [runs_bind, runs_report, runs_pure]
      exact fun _ steady => same _ steady
    next modules registered =>
      simp only [runs_bind, runs_report, runs_modifyHeap, runs_pure]
      obtain ⟨path, library, -, rfl⟩ := ModuleTable.eq_of_register registered
      intro _ steady
      refine sound.modules sound.wellFormed steady rfl rfl (fun other => ?_)
        (ModuleTable.Marked.touch_put sound.generational.modules
          (ModuleTable.ne_zero_of_claim claimed) _)
      rw [ModuleTable.constantAt_touch, ModuleTable.constantAt_put]
      split_ifs
      · exact Or.inl rfl
      · exact Or.inr (Or.inr rfl)

theorem Sound.unloadModule (sound : before.Sound contract) (rank : Nat)
    : KeepsSound contract (World.unloadModule rank) before := by
  unfold KeepsSound
  simp only [World.unloadModule, runs_bind, runs_heapNow]
  split
  next => exact fun _ _ => sound
  next entry modules unloaded =>
    simp only [runs_bind, runs_report, runs_modifyHeap, runs_pure]
    obtain rfl := ModuleTable.eq_of_unload unloaded
    intro _ steady
    have kept := @ModuleTable.constantAt_erase before.heap.modules rank
    refine sound.modules sound.wellFormed steady rfl rfl
      (fun other => (kept other).imp_right Or.inr) fun other young => ?_
    rcases kept other with gone | stays
    · rw [gone] at young
      cases young
    · rw [stays] at young
      exact sound.generational.modules other young

/-- Modules may be replaced by others that hold what they held, nulls and what is well-formed, if those
are marked.
-/
theorem Sound.updateModules (sound : before.Sound contract)
    (wellFormed : before.WellFormed contract extra) {result : Except ModuleError ModuleTable}
    (changed
      : ∀ modules,
          result = .ok modules →
          modules.Marked
          ∧ ∀ rank,
              modules.constantAt rank ∈ extra
              ∨ modules.constantAt rank = before.heap.modules.constantAt rank)
    : KeepsSound contract (World.updateModules result) before := by
  unfold KeepsSound
  cases result with
  | error => exact fun _ _ => sound
  | ok modules =>
      obtain ⟨marked, constants⟩ := changed modules rfl
      exact fun _ steady =>
        sound.modules wellFormed steady rfl rfl (fun rank => Or.inr (constants rank)) marked

theorem Sound.setModuleConstant (sound : before.Sound contract) {rank : Nat} {value : Value}
    (wellFormed : before.WellFormed contract [value])
    : KeepsSound contract (World.setModuleConstant rank value) before := by
  unfold KeepsSound
  rw [World.setModuleConstant, runs_bind, runs_heapNow]
  refine sound.updateModules wellFormed fun modules done => ?_
  obtain ⟨entry, found, rfl⟩ := ModuleTable.get?_of_map done
  refine ⟨ModuleTable.Marked.touch_put sound.generational.modules
    (sound.regular.ranks rank (by rw [found]; rfl)) _, fun other => ?_⟩
  rw [ModuleTable.constantAt_touch, ModuleTable.constantAt_put]
  split_ifs
  · exact Or.inl List.mem_cons_self
  · exact Or.inr rfl

theorem Sound.setModuleExtra (sound : before.Sound contract) (rank extra : Nat)
    : KeepsSound contract (World.setModuleExtra rank extra) before := by
  unfold KeepsSound
  rw [World.setModuleExtra, runs_bind, runs_heapNow]
  refine sound.updateModules sound.wellFormed fun modules done => ?_
  obtain ⟨entry, found, rfl⟩ := ModuleTable.get?_of_map done
  have holds : entry.constant = before.heap.modules.constantAt rank := by
    rw [ModuleTable.constantAt, found]
    rfl
  refine ⟨ModuleTable.Marked.put sound.generational.modules holds, fun other => Or.inr ?_⟩
  rw [ModuleTable.constantAt_put]
  split_ifs with here
  · rw [here]
    exact holds
  · rfl

theorem Sound.setConstant (sound : before.Sound contract) {index : Nat} {value : Value}
    (wellFormed : before.WellFormed contract [value])
    : KeepsSound contract (World.setConstant index value) before := by
  intro _ steady
  refine sound.of_roots wellFormed steady rfl rfl (fun root => ?_) sound.generational.modules ?_
  · cases root with
    | constant other =>
        simp only [Heap.rootValue, ConstantTable.get_set]
        split_ifs
        · exact Or.inr (Or.inl List.mem_cons_self)
        · exact Or.inr (Or.inr ⟨.constant other, rfl⟩)
    | slot id position => exact Or.inr (Or.inr ⟨.slot id position, rfl⟩)
    | pending index => exact Or.inr (Or.inr ⟨.pending index, rfl⟩)
    | module rank => exact Or.inr (Or.inr ⟨.module rank, rfl⟩)
  · exact ConstantTable.Marked.set sound.generational.constants sound.regular.groups
      sound.regular.grouped index value

end Roots

-----------------------------------------------------------------------------------------
-- Operations and runs
-----------------------------------------------------------------------------------------

/-- Collecting leaves a sound heap, and so does a request that is refused. -/
theorem Sound.collect (sound : before.Sound contract) (addressable : before.Addressable)
    {host : Host σ δ} (faithful : host.Faithful contract) (words : Nat) (wantsFull : Bool)
    (reason : Reason)
    : KeepsSound contract (Collector.collectFor host words wantsFull reason) before := by
  refine (sound.collectFor addressable faithful words wantsFull reason).mono ?_ ?_
  · exact fun _ _ reached _ _ => reached.2.1
  · intro _ final stopped
    refine ⟨stopped.1, fun idle steady => ?_⟩
    obtain ⟨heap, host⟩ := stopped.2 idle
    exact sound.of_same steady ⟨host, by rw [heap], by rw [heap], by rw [heap], by rw [heap]⟩
      (by rw [heap])

theorem KeepsSound.map {action : Action (World σ δ) α} (keeps : KeepsSound contract action before)
    (change : α → β)
    : KeepsSound contract (change <$> action) before := by
  unfold KeepsSound
  rw [runs_map]
  exact keeps

end World

/-- What a host that plays by the rules may ask of a heap. References that it stores lead to
well-formed objects, and what it stores does not make a word a slot that was none. A reference into the
birth region that it stores elsewhere goes to a slot that is recorded right away, or is noted already.
-/
def Operation.Permitted (contract : Contract σ) (world : World σ δ) : Operation δ → Prop
  | .forgetFixed object =>
      ∀ fixed,
        object.space = .fixed →
        world.heap.regions.fixed.forget? object.offset = some fixed →
        (world.withRegions { world.heap.regions with fixed }).WellFormed contract []
  | .store addr word =>
      (∀ regions,
        world.heap.regions.setWord? addr word = some regions →
        World.Storable contract world regions)
      ∧ ((Value.mk word).isBirth →
          world.heap.regions.Slot contract.layout addr.space addr.offset →
          world.heap.regions.Noted addr.space addr.offset)
  | .notifyStore slot => slot.space ≠ .birth → World.Recordable contract world slot
  | .storeNotified slot value =>
      ∀ regions,
        world.heap.regions.setWord? slot value.raw = some regions →
        World.Storable contract world regions
        ∧ (slot.space ≠ .birth → World.Recordable contract (world.withRegions regions) slot)
  | .write slot value =>
      ∀ regions,
        world.heap.regions.setWord? slot value.raw = some regions →
        World.Storable contract world regions
        ∧ (value.isBirth → slot.space ≠ .birth →
            World.Recordable contract (world.withRegions regions) slot)
  | .enterFrame _ params => world.WellFormed contract params
  | .setFrameSlot _ _ _ value => world.WellFormed contract [value]
  | .throwException _ payload => world.WellFormed contract [payload]
  | .setModuleConstant _ value => world.WellFormed contract [value]
  | .setConstant _ value => world.WellFormed contract [value]
  | _ => True

namespace World

/-- Whatever a host may ask of a sound heap leaves it sound. -/
theorem Sound.run (sound : before.Sound contract) (steady : before.heap.Steady)
    (addressable : before.Addressable) {host : Host σ δ} (faithful : host.Faithful contract)
    {operation : Operation δ} (permitted : operation.Permitted contract before)
    : KeepsSound contract (operation.run host) before := by
  cases operation with
  | allocate size => exact (sound.allocate addressable faithful size).map _
  | allocateAligned size align => exact (sound.allocateAligned addressable faithful size align).map _
  | allocateFixed size destructor executable =>
      exact (sound.allocateFixed size destructor executable).map _
  | forgetFixed object => exact sound.forgetFixed permitted
  | requestFull reason =>
      exact fun _ steady => sound.of_same steady ⟨rfl, rfl, rfl, rfl, rfl⟩ rfl
  | load addr => exact (sound.load addr).map _
  | store addr word => exact sound.storeWord permitted.1 permitted.2
  | notifyStore slot => exact (sound.but slot).notifyStore steady addressable faithful permitted
  | storeNotified slot value => exact sound.storeNotified steady addressable faithful permitted
  | write slot value => exact sound.write steady addressable faithful permitted
  | enterFrame descriptor params => exact (sound.enterFrame permitted).map _
  | exitFrame id => exact sound.exitFrame
  | frameDescriptor id =>
      refine (sound.look (fun heap => heap.frames.descriptor id) fun violation refused => ?_).map _
      exact FrameStack.isBadCopy_of_frame (error_of_map refused)
  | frameSlot id kind index =>
      refine (sound.look (fun heap => heap.frames.get id kind index) fun violation refused => ?_).map _
      exact FrameStack.isBadCopy_of_position (error_of_map refused)
  | setFrameSlot id kind index value => exact sound.setFrameSlot permitted
  | openBlock => exact sound.openBlock.map _
  | closeBlock block result => exact (sound.closeBlock block result).map _
  | throwException code payload => exact (sound.throwException permitted).map _
  | loadModule loader name searchPath wanted =>
      exact (sound.loadModule loader name searchPath wanted).map _
  | unloadModule rank => exact (sound.unloadModule rank).map _
  | setModuleConstant rank value => exact (sound.setModuleConstant permitted).map _
  | setModuleExtra rank extra => exact (sound.setModuleExtra rank extra).map _
  | setConstant index value => exact sound.setConstant permitted
  | collect size wantsFull => exact sound.collect addressable faithful _ wantsFull _
  | collectMinor => exact sound.collect addressable faithful 0 false _
  | collectFull => exact sound.collect addressable faithful 0 true _

/-- The worlds that a host leads to which plays by the rules: it may use other callbacks for each
operation, and change its own state in between, but keeps the promise.
-/
inductive Conforming (contract : Contract σ) : World σ δ → Prop where
  | create {mapper : Mapper} {config : Config} {state : σ} {world : World σ δ}
      (created : World.create mapper config state = .ok world) (upholds : contract.Upholds state)
      (kept : ∀ value ∈ contract.roots state, value.address? = none)
      : Conforming contract world
  | operate {world : World σ δ} {host : Host σ δ} {operation : Operation δ}
      (conforming : Conforming contract world) (faithful : host.Faithful contract)
      (permitted : operation.Permitted contract world)
      : Conforming contract (world.after (operation.run host))
  | change {world : World σ δ} (state : σ) (conforming : Conforming contract world)
      (wellFormed : ({ world with host := state } : World σ δ).WellFormed contract [])
      : Conforming contract { world with host := state }

/-- A host that plays by the rules gets nowhere that another does not get. -/
theorem Conforming.reachable {world : World σ δ} (conforming : world.Conforming contract)
    : world.Reachable := by
  induction conforming with
  | create created => exact .create created
  | operate _ _ _ ih => exact .operate _ _ ih
  | change state _ _ ih => exact .change state ih

/-- No root of a heap that was just set up holds anything. -/
theorem Created.rootValue {config : Config} {world : World σ δ} (created : world.Created config)
    (root : Root)
    : world.heap.rootValue root = .null := by
  cases root with
  | slot id position => simp [Heap.rootValue, created.frames, FrameStack.slotAt, FrameStack.find?]
  | pending index => simp [Heap.rootValue, created.handlers, ExceptStack.payloadAt]
  | module rank =>
      simp [Heap.rootValue, created.modules, ModuleTable.constantAt, ModuleTable.get?]
  | constant index =>
      rw [Heap.rootValue, created.constants]
      simp only [ConstantTable.get, ConstantTable.withCapacity, Arena.get?, Arena.get_zeroed]
      split_ifs <;> rfl

/-- A heap that was just set up is sound if its host keeps no reference. -/
theorem Created.sound {config : Config} {world : World σ δ} (created : world.Created config)
    (upholds : contract.Upholds world.host)
    (kept : ∀ value ∈ contract.roots world.host, value.address? = none)
    : world.Sound contract := by
  have unnoted : ∀ space offset, ¬ world.heap.regions.Noted space offset := fun _ _ =>
    not_noted created.unrecorded (by rw [created.fixed])
  have roots := created.rootValue
  have unslotted : ∀ space offset, ¬ world.heap.regions.Slot contract.layout space offset := by
    intro space offset slot
    cases slot with
    | @old starts start index tiles member isSlot =>
        rw [created.old] at tiles
        obtain ⟨object, -, fits⟩ := tiles.of_mem member
        have two := contract.layout.two_le_size object
        omega
    | fixed found inside =>
        rw [created.fixed] at found
        cases found
  have plain : ∀ addr : Address, addr.Decodes → addr.toValue.address? ≠ none := by
    intro addr valid none
    rw [Value.address?_toValue valid] at none
    cases none
  refine ⟨⟨created.steady.toRegular, ?_, ?_⟩, created.room⟩
  · have closed : world.heap.regions.Closed contract.layout fun value => value.address? = none :=
      ⟨fun addr valid here => absurd here (plain addr valid),
        fun addr valid here => absurd here (plain addr valid)⟩
    have coherent : world.heap.regions.Coherent contract.layout fun value => value.address? = none :=
      ⟨fun addr valid here => absurd here (plain addr valid),
        fun addr _ valid _ here => absurd here (plain addr valid),
        fun addr valid here => absurd here (plain addr valid)⟩
    refine WellFormed.of_closed upholds closed (fun value start => ?_) coherent
      (fun addr valid here => absurd here (plain addr valid))
      ⟨[], created.old.symm, fun addr valid here => absurd here (plain addr valid)⟩ ?_
    · cases start with
      | rooted rooted =>
          cases rooted with
          | root root =>
              rw [roots]
              exact Value.address?_null
          | kept member => exact kept value member
      | noted noted => exact absurd noted (unnoted _ _)
      | extra member => cases member
    · intro raw member
      simp [BirthRegion.remembered, BirthRegion.rememberedCount, created.unrecorded, Arena.words]
        at member
  · refine ⟨fun space offset slot => absurd slot (unslotted space offset), fun rank young => ?_,
      fun index young => ?_⟩
    · have none : world.heap.modules.constantAt rank = .null := roots (.module rank)
      rw [none] at young
      cases young
    · have none : world.heap.constants.get index = .null := roots (.constant index)
      rw [none] at young
      cases young

/-- A heap on which no collection runs is sound if its host plays by the rules. -/
theorem Conforming.sound {world : World σ δ} (conforming : world.Conforming contract)
    (idle : world.heap.phase = .idle) (addressable : world.Addressable)
    : world.Sound contract := by
  induction conforming with
  | create created upholds kept =>
      obtain ⟨empty, rfl⟩ := created_of_create created
      exact empty.sound upholds kept
  | @operate before host operation earlier faithful permitted ih =>
      have lasts := lasts_after host operation before
      have former := lasts.idle idle
      have steady := earlier.reachable.steady former
      have arena := lasts.arena idle steady
      have addressable' : before.Addressable := arena.trans addressable
      have keeps := (ih former addressable').run steady addressable' faithful permitted
      exact after_of_runs (keeps.mono (fun _ _ => id) fun _ _ stopped => stopped.2) idle
        (lasts.steady idle steady)
  | change state earlier wellFormed ih =>
      have sound := ih idle addressable
      exact ⟨⟨sound.regular, wellFormed, sound.generational⟩, sound.room⟩

end World

end MovingHeap
