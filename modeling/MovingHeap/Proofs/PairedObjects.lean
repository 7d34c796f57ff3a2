import MovingHeap.Proofs.Simulation

/-! Objects that a program allocates, reads and writes in two heaps.
A new object of one heap is paired with that of the other: both were given the same data and paired values,
and nothing led to either before.
-/

namespace MovingHeap

variable {σ τ δ ε : Type}

/-- As many words are allocated as were asked for. -/
theorem wordsFor_mul (words : Nat) : wordsFor (words * wordBytes) = words := by
  simp only [wordsFor, wordBytes]
  omega

-----------------------------------------------------------------------------------------
-- The words of records
-----------------------------------------------------------------------------------------

section Describes

variable {layout : Layout} {world : World σ δ} {words : List Operand}

/-- Every word of the object is given. -/
theorem Instruction.Describes.exists_operand (describes : Instruction.Describes layout world words)
    {index : Nat} (inside : index < layout.size (Instruction.template world words))
    : ∃ operand,
        words[index]? = some operand
        ∧ Instruction.template world words index = (operand.value world).raw := by
  have given := List.getElem?_eq_getElem (Nat.lt_of_lt_of_le inside describes.size)
  exact ⟨_, given, by rw [Instruction.template, given]; rfl⟩

/-- Words that are given in another heap, where places hold the same if they hold no reference, are those
of an object of the same layout with the same data.
-/
theorem Instruction.Describes.laidOut (describes : Instruction.Describes layout world words)
    {later : World τ ε}
    (places
      : ∀ place : Place,
          (place.value world).address? = none ∨ (place.value later).address? = none →
          place.value world = place.value later)
    {fields : Nat → Word}
    (given
      : ∀ index operand, words[index]? = some operand → fields index = (operand.value later).raw)
    : (∀ index < layout.size (template world words),
          ¬ layout.IsSlot (template world words) index → fields index = template world words index)
      ∧ layout.IsObject fields
      ∧ layout.size fields = layout.size (template world words)
      ∧ ∀ index, layout.IsSlot fields index ↔ layout.IsSlot (template world words) index := by
  have data : ∀ index < layout.size (template world words),
      ¬ layout.IsSlot (template world words) index → fields index = template world words index := by
    intro index inside plain
    obtain ⟨operand, here, word⟩ := describes.exists_operand inside
    rw [given index operand here, word]
    cases operand with
    | word raw => rfl
    | place place =>
        have none := (describes.data index place here).resolve_left plain
        rw [Operand.value, Operand.value, places place (Or.inl none)]
  have two := layout.two_le_size describes.isObject
  have first : fields 0 ≠ 0 := by
    obtain ⟨operand, here, word⟩ := describes.exists_operand (show 0 < _ by omega)
    have header := layout.first_ne_zero describes.isObject
    rw [given 0 operand here]
    rw [word] at header
    cases operand with
    | word raw => exact header
    | place place =>
        intro zero
        have null : place.value later = .null := congrArg Value.mk zero
        rw [Operand.value, places place (Or.inr (by rw [null]; rfl)), null] at header
        exact header rfl
  exact ⟨data, layout.agree describes.isObject data first⟩

end Describes

namespace World

-----------------------------------------------------------------------------------------
-- Records
-----------------------------------------------------------------------------------------

/-- A record was allocated and initialised, and nothing refers to it yet. -/
structure Bears (contract : Contract σ) (before : World σ δ) (words : List Operand)
    (object : Address) (after : World σ δ)
    : Prop where
  serves : after.Serving contract
  unnoticed : before.Unnoticed contract.layout after
  blank : after.Blank contract object (max words.length minObjectWords)
  fields
    : ∀ index operand,
        words[index]? = some operand →
        after.heap.regions.field object index = (operand.value after).raw

/-- A record is allocated, and then initialised. -/
theorem Serving.bears {contract : Contract σ} {world : World σ δ}
    (serving : world.Serving contract) (addressable : world.Addressable) {host : Host σ δ}
    (faithful : host.Faithful contract) (align : Option Nat) (words : List Operand)
    : Runs (Instruction.claim host (words.length * wordBytes) align) world
        (fun object middle =>
          Runs (initialise object 0 words) middle
            (fun _ final => world.Bears contract words object final)
            fun _ _ => True)
        fun _ _ => True := by
  refine (serving.claim addressable faithful _ align).mono ?_ fun _ _ => id
  rintro object middle ⟨serves, unnoticed, blank⟩
  rw [wordsFor_mul] at blank
  refine (blank.initialise serves (by rw [Nat.zero_add]; exact Nat.le_max_left _ _)).mono ?_
    fun _ _ => id
  rintro _ final ⟨ends, further, still, same, -, fields⟩
  refine ⟨ends, unnoticed.trans further, still, fun index operand here => ?_⟩
  rw [← Nat.zero_add index, fields index operand here, same.operand]

variable {contract : Contract σ} {contract' : Contract τ} {loaded : Nat → Prop}
  {first first' : World σ δ} {second second' : World τ ε} {pairs : Value → Value → Prop}

/-- The reference to a new record may be used. -/
theorem Bears.wellFormed {words : List Operand} {object : Address}
    (bears : first.Bears contract words object first') {places : World τ ε}
    (describes : Instruction.Describes contract.layout places words)
    (laidOut
      : contract.layout.IsObject (first'.heap.regions.field object)
        ∧ contract.layout.size (first'.heap.regions.field object)
          = contract.layout.size (Instruction.template places words)
        ∧ ∀ index,
            contract.layout.IsSlot (first'.heap.regions.field object) index
            ↔ contract.layout.IsSlot (Instruction.template places words) index)
    : first'.WellFormed contract [object.toValue] := by
  obtain ⟨isObject, size, isSlot⟩ := laidOut
  refine bears.blank.wellFormed bears.serves isObject ?_ fun index slot => ?_
  · rw [size]
    exact describes.size.trans (Nat.le_max_left _ _)
  · have inside := contract.layout.slot_lt isObject slot
    rw [size] at inside
    have slot' := (isSlot index).mp slot
    obtain ⟨operand, here, -⟩ := describes.exists_operand inside
    rw [bears.fields index operand here]
    cases operand with
    | word raw => exact Or.inl (describes.honest index _ here slot')
    | place place => exact usable_place place

/-- Records that were given the same data and paired values are paired, though nothing refers to them. -/
theorem Abreast.bears (abreast : Abreast contract contract' loaded first second)
    (layout : contract'.layout = contract.layout) {words : List Operand}
    (describes : Instruction.Describes contract.layout first words) {object other : Address}
    (bears : first.Bears contract words object first')
    (bears' : second.Bears contract' words other second')
    : Level contract contract' loaded first' second'
      ∧ first'.WellFormed contract [object.toValue]
      ∧ second'.WellFormed contract' [other.toValue]
      ∧ ∃ pairs,
          first'.Matches contract.layout second' pairs ∧ pairs object.toValue other.toValue := by
  have abreast' := abreast.unnoticed layout bears.unnoticed bears.serves bears'.unnoticed bears'.serves
  have level := abreast'.toLevel
  obtain ⟨_, agrees⟩ := abreast'.looks
  obtain ⟨pairs, pairing⟩ := level.pairing layout agrees
  -- both records are laid out as the operands told before they were allocated
  obtain ⟨_, before⟩ := abreast.looks
  have unnoticed' := bears'.unnoticed
  rw [layout] at unnoticed'
  obtain ⟨_, across⟩ := unnoticed'.looks before.symm
  have frames' : second'.heap.frames.outline = first.heap.frames.outline :=
    bears'.unnoticed.tables.frames.trans abreast.frames
  obtain ⟨data, laidOut⟩ := describes.laidOut (fun _ => bears.unnoticed.place) bears.fields
  obtain ⟨data', laidOut'⟩ := describes.laidOut (fun _ => across.symm.place frames') bears'.fields
  have wellFormed := bears.wellFormed describes laidOut
  have wellFormed' : second'.WellFormed contract' [other.toValue] := by
    rw [← layout] at describes laidOut'
    exact bears'.wellFormed describes laidOut'
  have moves : object.space ≠ .fixed := by simp [bears.blank.birth]
  have moves' : other.space ≠ .fixed := by simp [bears'.blank.birth]
  obtain ⟨isObject, size, isSlot⟩ := laidOut
  obtain ⟨isObject', size', isSlot'⟩ := laidOut'
  have mirrors : Regions.Mirrors contract.layout first'.heap.regions object second'.heap.regions
      other := by
    refine .of_moving moves moves' (size'.trans size.symm)
      (fun index => (isSlot' index).trans (isSlot index).symm) fun index inside plain => ?_
    rw [size] at inside
    rw [isSlot] at plain
    rw [data index inside plain, data' index inside plain]
  refine ⟨level, wellFormed, wellFormed', _,
    ⟨pairing.alike.insert bears.blank.valid bears'.blank.valid mirrors (fun index isField => ?_)
      fun value other' paired => ⟨?_, ?_⟩, fun root => Or.inl (pairing.roots root)⟩,
    Or.inr ⟨rfl, rfl⟩⟩
  · rw [Regions.IsField, if_neg moves] at isField
    have inside := contract.layout.slot_lt isObject isField
    rw [size] at inside
    obtain ⟨operand, here, -⟩ := describes.exists_operand inside
    rw [bears.fields index operand here, bears'.fields index operand here]
    exact pairing.operand level.frames (describes.honest index operand here ((isSlot index).mp isField))
  · rintro rfl
    exact bears.blank.not_met bears.serves
      ((pairing.usable _ _ paired).1.met bears.blank.valid)
  · rintro rfl
    exact bears'.blank.not_met bears'.serves
      ((pairing.usable _ _ paired).2.met bears'.blank.valid)

-----------------------------------------------------------------------------------------
-- Fixed objects
-----------------------------------------------------------------------------------------

/-- Fixed objects of one size that were just allocated are paired, though nothing refers to them. -/
theorem Abreast.lodges (abreast : Abreast contract contract' loaded first second)
    (layout : contract'.layout = contract.layout) {object other : Address} {words : Nat}
    (serves : first'.Serving contract) (unnoticed : first.Unnoticed contract.layout first')
    (lodging : first'.Lodging contract object words) (serves' : second'.Serving contract')
    (unnoticed' : second.Unnoticed contract'.layout second')
    (lodging' : second'.Lodging contract' other words)
    : Level contract contract' loaded first' second'
      ∧ ∃ pairs,
          first'.Matches contract.layout second' pairs ∧ pairs object.toValue other.toValue := by
  have abreast' := abreast.unnoticed layout unnoticed serves unnoticed' serves'
  have level := abreast'.toLevel
  obtain ⟨_, agrees⟩ := abreast'.looks
  obtain ⟨pairs, pairing⟩ := level.pairing layout agrees
  have fields' := lodging'.fields
  rw [layout] at fields'
  have mirrors : Regions.Mirrors contract.layout first'.heap.regions object second'.heap.regions
      other :=
    .of_fixed lodging.fixed lodging'.fixed fun index =>
      (fields' index).trans (lodging.fields index).symm
  refine ⟨level, _, ⟨pairing.alike.insert lodging.valid lodging'.valid mirrors
    (fun index isField => ?_) fun value other' paired => ⟨?_, ?_⟩,
    fun root => Or.inl (pairing.roots root)⟩, Or.inr ⟨rfl, rfl⟩⟩
  · have inside := (lodging.fields index).mp isField
    rw [lodging.zero index inside, lodging'.zero index inside]
    exact pairing.plain .null rfl
  · rintro rfl
    exact lodging.unmet ((pairing.usable _ _ paired).1.met lodging.valid)
  · rintro rfl
    exact lodging'.unmet ((pairing.usable _ _ paired).2.met lodging'.valid)

-----------------------------------------------------------------------------------------
-- Words of objects
-----------------------------------------------------------------------------------------

/-- A word of an object is read. -/
theorem Serving.load {world : World σ δ} (serving : world.Serving contract)
    (addressable : world.Addressable) {object : Address} (valid : object.Decodes)
    (met : world.Met contract [] object.toValue) {index : Nat}
    (inside
      : world.heap.regions.IsField contract.layout object index
        ∨ world.heap.regions.IsDatum contract.layout object index)
    : Runs (World.load (object.add index)) world
        (fun word final => final = world ∧ word = world.heap.regions.field object index)
        fun _ _ => True := by
  obtain ⟨-, space, offset⟩ := serving.place addressable valid met inside
  simp only [World.load, runs_bind, runs_heapNow, runs_require]
  split
  next word found =>
    have cell := Regions.cell_of_word? found
    rw [space, offset] at cell
    exact ⟨trivial, cell.symm⟩
  next => trivial

/-- The value in a field of an object is read. -/
theorem Serving.read {world : World σ δ} (serving : world.Serving contract)
    (addressable : world.Addressable) {object : Address} (valid : object.Decodes)
    (met : world.Met contract [] object.toValue) {index : Nat}
    (isField : world.heap.regions.IsField contract.layout object index)
    : Runs (World.read (object.add index)) world
        (fun value final => final = world ∧ value = ⟨world.heap.regions.field object index⟩)
        fun _ _ => True := by
  refine runs_map.mpr ((serving.load addressable valid met (Or.inl isField)).mono ?_ fun _ _ => id)
  rintro word _ ⟨rfl, rfl⟩
  exact ⟨rfl, rfl⟩

end World

end MovingHeap
