import MovingHeap.Proofs.FieldStores

/-! Fields that are written, with the collection that may follow.
Apart from the value in its field nothing is noticed of it. Two heaps that look alike still do if paired
values are written to paired fields.
-/

namespace MovingHeap

variable {σ τ δ ε : Type}

namespace World

-----------------------------------------------------------------------------------------
-- Values a mutator may use
-----------------------------------------------------------------------------------------

/-- A mutator may use the value: it is no reference, or it was met. -/
def Usable (contract : Contract σ) (world : World σ δ) (value : Value) : Prop :=
  value.address? = none ∨ world.Met contract [] value

section Usable

variable {contract : Contract σ} {world : World σ δ}

/-- Roots hold what may be used. -/
theorem usable_root (root : Root) : world.Usable contract (world.heap.rootValue root) :=
  Or.inr (.start (.rooted (.root root)))

/-- A reference that may be used was met. -/
theorem Usable.met {object : Address} (valid : object.Decodes)
    (usable : world.Usable contract object.toValue)
    : world.Met contract [] object.toValue :=
  met_of_plain valid usable

/-- The fields of what may be used hold what may be used. -/
theorem Serving.usable_field (serving : world.Serving contract) {object : Address}
    (valid : object.Decodes) (usable : world.Usable contract object.toValue) {index : Nat}
    (isField : world.heap.regions.IsField contract.layout object index)
    : world.Usable contract ⟨world.heap.regions.field object index⟩ :=
  Or.inr (traced_field serving.wellFormed.coherent serving.known valid (usable.met valid) isField)

/-- What may be used is well-formed. -/
theorem Serving.wellFormed_usable (serving : world.Serving contract) {held : List Value}
    (usable : ∀ value ∈ held, world.Usable contract value)
    : world.WellFormed contract held := by
  refine serving.wellFormed.of_within rfl serving.wellFormed.upholds fun value start => ?_
  cases start with
  | rooted rooted => exact Or.inr (.start (.rooted rooted))
  | noted noted => exact Or.inr (.start (.noted noted))
  | extra member => exact usable value member

end Usable

variable {contract : Contract σ} {contract' : Contract τ} {first : World σ δ}
  {second : World τ ε} {pairs : Value → Value → Prop}

/-- Heaps look alike where only values are paired that may be used. -/
theorem Matches.usable (agrees : first.Matches contract.layout second pairs)
    (layout : contract'.layout = contract.layout) (serving : first.Serving contract)
    (serving' : second.Serving contract')
    : first.Matches contract.layout second fun value other =>
        (pairs value other ∧ first.Usable contract value) ∧ second.Usable contract' other where
  alike := by
    have restricted : first.heap.regions.Alike contract.layout second.heap.regions
        fun value other => pairs value other ∧ first.Usable contract value :=
      agrees.alike.restrict fun _ valid usable _ => serving.usable_field valid usable
    have turned : second.heap.regions.Alike contract.layout first.heap.regions
        fun other value =>
          (pairs value other ∧ first.Usable contract value) ∧ second.Usable contract' other := by
      refine restricted.symm.restrict fun object valid usable index isField => ?_
      rw [← layout] at isField
      exact serving'.usable_field valid usable isField
    exact turned.symm
  roots root := ⟨⟨agrees.roots root, usable_root root⟩, usable_root root⟩

-----------------------------------------------------------------------------------------
-- One heap
-----------------------------------------------------------------------------------------

section Write

variable {world : World σ δ}

/-- Recording a slot goes unnoticed, and so does the collection that may follow. -/
theorem SoundBut.looks_notifyStore {slot : Address} (but : SoundBut contract slot world)
    (steady : world.heap.Steady) (idle : world.heap.phase = .idle)
    (known
      : ∀ begin occupant,
          world.heap.regions.fixed.occupant? begin = some occupant → occupant.forgotten = false)
    (addressable : world.Addressable) {host : Host σ δ} (faithful : host.Faithful contract)
    (recordable : slot.space ≠ .birth → Recordable contract world slot)
    : Runs (World.notifyStore host slot) world
        (fun _ final =>
          final.heap.phase = .idle
          ∧ (∀ begin occupant,
              final.heap.regions.fixed.occupant? begin = some occupant →
              occupant.forgotten = false)
          ∧ world.Unnoticed contract.layout final)
        fun _ _ => True := by
  have recorded : world.Unnoticed contract.layout (world.recorded slot) := by
    refine .of_preserves but.wellFormed known (preserves_birth but.regular.apart (Nat.le_refl _)
      fun object valid met young index inside => ?_) ⟨rfl, rfl, rfl, rfl, rfl⟩
    exact get_remember but.wellFormed steady.spare valid met young inside slot
  refine runs_notifyStore (fun _ => ⟨idle, known, .refl world⟩) (fun _ _ => ?_)
    (fun _ _ => ⟨idle, known, recorded⟩) fun later => ?_
  · exact ⟨idle, known, .of_same ⟨rfl, rfl, rfl, rfl, rfl⟩ rfl⟩
  · refine ((but.recorded steady (recordable later)).serves_collectFor known addressable faithful 0
      false .storeBufferFull).mono (fun _ final reached => ?_) fun _ _ _ => trivial
    obtain ⟨serving, unnoticed, -⟩ := reached
    exact ⟨serving.idle, serving.known, recorded.trans unnoticed⟩

variable {object : Address} {index : Nat} {value : Value}

/-- Writing a field stores the value, and nothing else is noticed. -/
theorem Fits.write (fits : world.Fits contract object index value)
    (serving : world.Serving contract) (addressable : world.Addressable) {host : Host σ δ}
    (faithful : host.Faithful contract)
    : Runs (World.write host (object.add index) value) world
        (fun _ final =>
          final.Serving contract
          ∧ ∃ regions,
              world.heap.regions.setWord? (object.add index) value.raw = some regions
              ∧ (world.withRegions regions).Unnoticed contract.layout final)
        fun _ _ => True := by
  have looks : Runs (World.write host (object.add index) value) world
      (fun _ final =>
        final.heap.phase = .idle
        ∧ (∀ begin occupant,
            final.heap.regions.fixed.occupant? begin = some occupant →
            occupant.forgotten = false)
        ∧ ∃ regions,
            world.heap.regions.setWord? (object.add index) value.raw = some regions
            ∧ (world.withRegions regions).Unnoticed contract.layout final)
      fun _ _ => True := by
    unfold World.write
    rw [runs_bind]
    refine runs_store (fun _ => trivial) fun regions done => ?_
    have known : ∀ begin occupant, regions.fixed.occupant? begin = some occupant →
        occupant.forgotten = false := by
      intro begin occupant found
      rw [FixedSpace.occupant?_congr (slots_stored done)] at found
      exact serving.known begin occupant found
    split_ifs
    · have stored := serving.toSound.stored done (fits.storable serving addressable done)
      refine (stored.looks_notifyStore (steady_stored serving.steady done) serving.idle known
        (addressable_stored addressable done) faithful
        (fits.recordable serving addressable done)).mono (fun _ final reached => ?_) fun _ _ => id
      obtain ⟨idle, known', unnoticed⟩ := reached
      exact ⟨idle, known', regions, done, unnoticed⟩
    · exact ⟨serving.idle, known, regions, done, .refl _⟩
  have keeps := serving.toSound.write serving.steady addressable faithful fun regions done =>
    ⟨fits.storable serving addressable done, fun _ => fits.recordable serving addressable done⟩
  refine ((keeps.and (lasting_write (object.add index) value world)).and looks).mono ?_
    fun _ _ _ => trivial
  rintro _ final ⟨⟨sound, lasts⟩, idle, known, stored⟩
  have steady := lasts.steady idle serving.steady
  exact ⟨⟨sound idle steady, steady, idle, known⟩, stored⟩

end Write

-----------------------------------------------------------------------------------------
-- Two heaps
-----------------------------------------------------------------------------------------

/-- Storing a word keeps the tables. -/
theorem tables_withRegions (world : World σ δ) (regions : Regions δ)
    : world.heap.SameTables (world.withRegions regions).heap :=
  ⟨rfl, rfl, fun _ => rfl, rfl, rfl, rfl⟩

/-- Heaps that look alike still do where paired values are stored in paired fields. -/
theorem Matches.store (agrees : first.Matches contract.layout second pairs)
    (layout : contract'.layout = contract.layout) (serving : first.Serving contract)
    (serving' : second.Serving contract') (addressable : first.Addressable)
    (addressable' : second.Addressable) {object other : Address} {index : Nat}
    {value value' : Value} (fits : first.Fits contract object index value)
    (fits' : second.Fits contract' other index value')
    (objects : pairs object.toValue other.toValue) (values : pairs value value')
    {regions : Regions δ} {regions' : Regions ε}
    (done : first.heap.regions.setWord? (object.add index) value.raw = some regions)
    (done' : second.heap.regions.setWord? (other.add index) value'.raw = some regions')
    : ∃ later,
        (first.withRegions regions).Matches contract.layout (second.withRegions regions') later := by
  have alike := (agrees.usable layout serving serving').alike
  -- both objects are where they were and as they were, but for the field
  have mirrors : ∀ {there : Address}, there.Decodes → first.Usable contract there.toValue → _ :=
    fun valid usable => fits.mirrors serving addressable done valid (usable.met valid)
  have mirrors' : ∀ {there : Address}, there.Decodes → second.Usable contract' there.toValue → _ :=
    fun valid usable => fits'.mirrors serving' addressable' done' valid (usable.met valid)
  rw [layout] at mirrors'
  refine ⟨fun value other =>
    (pairs value other ∧ first.Usable contract value) ∧ second.Usable contract' other,
    ⟨alike.plain, fun {there there'} valid valid' paired => ?_,
    fun {there there' position} valid valid' paired isField => ?_, alike.single⟩,
    (agrees.usable layout serving serving').roots⟩
  · exact ((mirrors valid paired.1.2).1.symm.trans (alike.objects valid valid' paired)).trans
      (mirrors' valid' paired.2).1
  · obtain ⟨mirror, fields⟩ := mirrors valid paired.1.2
    obtain ⟨-, fields'⟩ := mirrors' valid' paired.2
    have was := (mirror.fields position).mp isField
    have was' := ((alike.objects valid valid' paired).fields position).mpr was
    rw [withRegions, withRegions, fields position was, fields' position was']
    have single := agrees.alike.single paired.1.1 objects
    have same : there = object ↔ there' = other :=
      ⟨fun here => Address.toValue_inj (single.mp (congrArg Address.toValue here)),
        fun here => Address.toValue_inj (single.mpr (congrArg Address.toValue here))⟩
    by_cases here : there = object ∧ position = index
    · rw [if_pos here, if_pos ⟨same.mp here.1, here.2⟩]
      exact ⟨⟨values, fits.given⟩, fits'.given⟩
    · rw [if_neg here, if_neg fun there => here ⟨same.mpr there.1, there.2⟩]
      exact alike.fields valid valid' paired was

end World

end MovingHeap
