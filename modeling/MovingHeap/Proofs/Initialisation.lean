import MovingHeap.Proofs.Upkeep

/-! How a new object comes into being.
The words that were handed out last belong to no object, so a host may write them as it likes. Once
they are an object whose slots hold well-formed references, a reference to it is well-formed, too.
-/

namespace MovingHeap

variable {σ δ : Type}

namespace World

variable {contract : Contract σ} {world before after : World σ δ} {extra : List Value}

/-- From an offset on, allocated words of the birth region belong to no object that is met. -/
structure Unclaimed (contract : Contract σ) (world : World σ δ) (start : Nat) : Prop where
  below
    : ∀ addr : Address,
        addr.Decodes →
        world.Met contract [] addr.toValue →
        addr.space = .birth →
        addr.offset + contract.layout.size (world.heap.regions.field addr) ≤ start

/-- A word of the birth region that was handed out last is stored. -/
theorem setWord?_birth {regions next : Regions δ} {addr : Address} {word : Word}
    (done : regions.setWord? addr word = some next) (birth : addr.space = .birth)
    : next = { regions with
        birth := { regions.birth with words := regions.birth.words.set addr.offset word } } := by
  simp only [Regions.setWord?, birth] at done
  split_ifs at done
  exact (Option.some.inj done).symm

/-- Words stay unclaimed where the birth region keeps the words of what is met. -/
theorem Unclaimed.of_birth {start : Nat} (unclaimed : before.Unclaimed contract start)
    (wellFormed : before.WellFormed contract []) (apart : before.heap.regions.Apart)
    (same : before.SameOutside after) {birth : BirthRegion}
    (regions : after.heap.regions = { before.heap.regions with birth })
    (cursor : before.heap.regions.birth.cursor ≤ birth.cursor)
    (words
      : ∀ object : Address,
          object.Decodes →
          before.Met contract [] object.toValue →
          object.space = .birth →
          ∀ index < contract.layout.size (before.heap.regions.field object),
            birth.words.get (object.offset + index)
            = before.heap.regions.birth.words.get (object.offset + index))
    (remembered : ∀ raw ∈ birth.remembered, raw ∈ before.heap.regions.birth.remembered)
    : after.Unclaimed contract start where
  below object valid met young := by
    have former := met_of_plain valid (met_birth wellFormed apart same regions cursor words
      (fun raw member => Or.inl (remembered raw member)) (fun _ => id) met)
    have preserves : Preserves contract [] before { before.heap.regions with birth } :=
      preserves_birth apart cursor words
    have sized := (preserves.laidOut wellFormed valid former (by simp [young])).2.1
    rw [regions, sized]
    exact unclaimed.below object valid former young

section Stored

variable {start : Nat} (unclaimed : world.Unclaimed contract start) {addr : Address} {word : Word}
  (above : start ≤ addr.offset)
include unclaimed above

/-- No object that is met has the word. -/
theorem Unclaimed.words (object : Address) (valid : object.Decodes)
    (met : world.Met contract [] object.toValue) (young : object.space = .birth) (index : Nat)
    (inside : index < contract.layout.size (world.heap.regions.field object))
    : (world.heap.regions.birth.words.set addr.offset word).get (object.offset + index)
      = world.heap.regions.birth.words.get (object.offset + index) := by
  have below := unclaimed.below object valid met young
  rw [Arena.get_set, if_neg (by omega)]

variable (birth : addr.space = .birth) {regions : Regions δ}
  (done : world.heap.regions.setWord? addr word = some regions) (sound : world.Sound contract)
include birth done sound

/-- A word that belongs to no object may be stored. -/
theorem Unclaimed.storable : Storable contract world regions where
  wellFormed := by
    have remembered := remembered_setWord? done
    rw [setWord?_birth done birth] at remembered ⊢
    exact sound.wellFormed.of_birth sound.regular.apart ⟨rfl, rfl, rfl, rfl, rfl⟩ rfl (Nat.le_refl _)
      (unclaimed.words above) (fun raw member => Or.inl (remembered ▸ member)) nofun
  slots space offset slot := by
    rw [setWord?_birth done birth] at slot
    exact (Regions.slot_birth sound.regular.apart _).mp slot

/-- Such words still belong to no object then. -/
theorem Unclaimed.stored : (world.withRegions regions).Unclaimed contract start := by
  have remembered := remembered_setWord? done
  rw [setWord?_birth done birth] at remembered ⊢
  exact unclaimed.of_birth sound.wellFormed sound.regular.apart ⟨rfl, rfl, rfl, rfl, rfl⟩ rfl
    (Nat.le_refl _) (unclaimed.words above) fun raw member => remembered ▸ member

end Stored

/-- The words that were handed out last belong to no object. -/
theorem Sound.unclaimed_reserved (sound : world.Sound contract) (words stride : Nat)
    : (world.reserved words stride).Unclaimed contract
        (world.heap.regions.birth.bump
          ((world.heap.regions.birth.padding? stride).getD 0)).cursor := by
  have unclaimed : world.Unclaimed contract
      (world.heap.regions.birth.bump
        ((world.heap.regions.birth.padding? stride).getD 0)).cursor := by
    refine ⟨fun addr valid met young => ?_⟩
    have within := (sound.wellFormed.coherent.object addr valid met (by simp [young])).2.2
    rw [Regions.limit, if_pos young] at within
    exact within.trans (Nat.le_add_right _ _)
  refine unclaimed.of_birth sound.wellFormed sound.regular.apart ⟨rfl, rfl, rfl, rfl, rfl⟩ rfl ?_
    (fun _ _ _ _ _ _ => rfl) fun _ => id
  simp only [BirthRegion.bump]
  omega

/-- The value is no reference, or it was met already, or it is the reference to the new object. -/
def Joins (contract : Contract σ) (world : World σ δ) (extra : List Value) (object : Address)
    (value : Value)
    : Prop :=
  value.address? = none ∨ world.Met contract extra value ∨ value = object.toValue

/-- References that join the new object were met already, unless they lead to it. -/
theorem Joins.met_or_eq {object addr : Address}
    (joins : world.Joins contract extra object addr.toValue) (valid : object.Decodes)
    (decodes : addr.Decodes)
    : world.Met contract extra addr.toValue ∨ addr = object := by
  rcases joins with plain | met | same
  · rw [Value.address?_toValue decodes] at plain
    cases plain
  · exact Or.inl met
  · refine Or.inr ?_
    have here := Value.address?_toValue decodes
    rw [same, Value.address?_toValue valid] at here
    exact (Option.some.inj here).symm

/-- Where references are followed from joins the new object if that is one more to start from. -/
theorem Starts.joins {object : Address} {value : Value}
    (starts : world.Starts contract (object.toValue :: extra) value)
    : world.Joins contract extra object value := by
  cases starts with
  | rooted rooted => exact Or.inr (Or.inl (.start (.rooted rooted)))
  | noted noted => exact Or.inr (Or.inl (.start (.noted noted)))
  | extra member =>
      rcases List.mem_cons.mp member with same | other
      · exact Or.inr (Or.inr same)
      · exact Or.inr (Or.inl (.start (.extra other)))

/-- A reference to a new object is well-formed if what its slots hold is. -/
theorem WellFormed.fresh (wellFormed : world.WellFormed contract extra)
    (apart : world.heap.regions.Apart) {object : Address} (valid : object.Decodes)
    (birth : object.space = .birth)
    (isObject : contract.layout.IsObject (world.heap.regions.field object))
    (fits
      : object.offset + contract.layout.size (world.heap.regions.field object)
        ≤ world.heap.regions.birth.cursor)
    (unclaimed
      : ∀ addr : Address,
          addr.Decodes →
          world.Met contract extra addr.toValue →
          addr.space = .birth →
          addr.offset + contract.layout.size (world.heap.regions.field addr) ≤ object.offset)
    (slots
      : ∀ index,
          contract.layout.IsSlot (world.heap.regions.field object) index →
          (Value.mk (world.heap.regions.field object index)).address? = none
          ∨ world.Met contract extra ⟨world.heap.regions.field object index⟩)
    (head
      : contract.layout.IsSlot (world.heap.regions.field object) 0 →
        world.heap.regions.clears ⟨world.heap.regions.field object 0⟩ = false)
    : world.WellFormed contract (object.toValue :: extra) := by
  obtain ⟨list, tiles, listed⟩ := wellFormed.tiled
  have closed
      : world.heap.regions.Closed contract.layout (world.Joins contract extra object) := by
    refine ⟨fun addr decodes among moves index slot => ?_,
      fun addr decodes among fixed begin occupant covers found known index inside => ?_⟩
    · rcases among.met_or_eq valid decodes with met | rfl
      · exact Or.inr (Or.inl (.field decodes met moves slot))
      · exact (slots index slot).imp_right Or.inl
    · rcases among.met_or_eq valid decodes with met | rfl
      · exact Or.inr (Or.inl (.payload decodes met rfl fixed covers found known inside))
      · rw [birth] at fixed
        cases fixed
  have coherent
      : world.heap.regions.Coherent contract.layout (world.Joins contract extra object) := by
    refine ⟨fun addr decodes among notFixed => ?_,
      fun first second left right among among' space notFixed differs => ?_,
      fun addr decodes among fixed => ?_⟩
    · rcases among.met_or_eq valid decodes with met | rfl
      · exact wellFormed.coherent.object addr decodes met notFixed
      · refine ⟨by simp [Regions.moves, birth], isObject, ?_⟩
        rw [Regions.limit, if_pos birth]
        exact fits
    · rcases among.met_or_eq valid left with met | rfl
      · rcases among'.met_or_eq valid right with met' | rfl
        · exact wellFormed.coherent.apart first second left right met met' space notFixed differs
        · exact Or.inl (unclaimed first left met (space.trans birth))
      · rcases among'.met_or_eq valid right with met' | rfl
        · exact Or.inr (unclaimed second right met' (space.symm.trans birth))
        · exact absurd rfl differs
    · rcases among.met_or_eq valid decodes with met | rfl
      · exact wellFormed.coherent.live addr decodes met fixed
      · rw [birth] at fixed
        cases fixed
  refine .of_closed wellFormed.upholds closed (fun _ => Starts.joins) coherent
    (fun addr decodes among notFixed slot => ?_) ⟨list, tiles, fun addr decodes among old => ?_⟩
    wellFormed.recorded
  · rcases among.met_or_eq valid decodes with met | rfl
    · exact wellFormed.heads addr decodes met notFixed slot
    · exact head slot
  · rcases among.met_or_eq valid decodes with met | rfl
    · exact listed addr decodes met old
    · exact absurd (old.symm.trans birth) apart.old_ne_birth

end World

end MovingHeap
