import MovingHeap.Proofs.HeapGraph
import MovingHeap.Proofs.Tiling

/-! Memories that hold the same objects in different places.
A relation pairs the values of one memory with those of another. Values that are no references are
paired with themselves, references with references to objects that are laid out alike, hold the same
data, and whose slots hold paired values again.
-/

namespace MovingHeap

variable {δ ε : Type}

/-- Addresses that are the same as values are the same. -/
theorem Address.toValue_inj {first second : Address} (same : first.toValue = second.toValue)
    : first = second := by
  cases first
  cases second
  exact congrArg Address.mk (congrArg Value.raw same)

namespace Regions

variable {layout : Layout}

/-- The word of an object holds a value: it is a slot of a moving object or a word of the fixed object
that begins at the address.
-/
def IsField (layout : Layout) (regions : Regions δ) (object : Address) (index : Nat) : Prop :=
  if object.space = .fixed then
    regions.fixed.containing? object.offset = some object.offset
    ∧ ∃ occupant,
        regions.fixed.occupant? object.offset = some occupant ∧ index < occupant.words
  else layout.IsSlot (regions.field object) index

/-- The word of a moving object holds data. -/
def IsDatum (layout : Layout) (regions : Regions δ) (object : Address) (index : Nat) : Prop :=
  object.space ≠ .fixed
  ∧ index < layout.size (regions.field object)
  ∧ ¬ layout.IsSlot (regions.field object) index

/-- An object of one memory and an object of another are laid out alike and hold the same data. -/
structure Mirrors (layout : Layout) (first : Regions δ) (object : Address) (second : Regions ε)
    (other : Address)
    : Prop where
  kind : other.space = .fixed ↔ object.space = .fixed
  fields : ∀ index, second.IsField layout other index ↔ first.IsField layout object index
  data : ∀ index, second.IsDatum layout other index ↔ first.IsDatum layout object index
  same
    : ∀ index,
        first.IsDatum layout object index → second.field other index = first.field object index

/-- The pairs of values of two memories look alike to whoever does not look at addresses. -/
structure Alike (layout : Layout) (first : Regions δ) (second : Regions ε)
    (pairs : Value → Value → Prop)
    : Prop where
  plain
    : ∀ {value other : Value},
        pairs value other → value.address? = none ∨ other.address? = none → value = other
  objects
    : ∀ {object other : Address},
        object.Decodes →
        other.Decodes →
        pairs object.toValue other.toValue →
        Mirrors layout first object second other
  fields
    : ∀ {object other : Address} {index : Nat},
        object.Decodes →
        other.Decodes →
        pairs object.toValue other.toValue →
        first.IsField layout object index →
        pairs ⟨first.field object index⟩ ⟨second.field other index⟩
  single
    : ∀ {value other value' other' : Value},
        pairs value other → pairs value' other' → (value = value' ↔ other = other')

section Mirrors

variable {first : Regions δ} {second : Regions ε} {object other : Address}

/-- The other object mirrors the one. -/
theorem Mirrors.symm (mirrors : Mirrors layout first object second other)
    : Mirrors layout second other first object where
  kind := mirrors.kind.symm
  fields index := (mirrors.fields index).symm
  data index := (mirrors.data index).symm
  same index datum := (mirrors.same index ((mirrors.data index).mp datum)).symm

/-- What mirrors an object that mirrors another one mirrors that. -/
theorem Mirrors.trans {ζ : Type} {third : Regions ζ} {last : Address}
    (mirrors : Mirrors layout first object second other)
    (further : Mirrors layout second other third last)
    : Mirrors layout first object third last where
  kind := further.kind.trans mirrors.kind
  fields index := (further.fields index).trans (mirrors.fields index)
  data index := (further.data index).trans (mirrors.data index)
  same index datum :=
    (further.same index ((mirrors.data index).mpr datum)).trans (mirrors.same index datum)

/-- Moving objects mirror each other if they are of one size, have the same slots and hold the same
words elsewhere.
-/
theorem Mirrors.of_moving (moves : object.space ≠ .fixed) (moves' : other.space ≠ .fixed)
    (size : layout.size (second.field other) = layout.size (first.field object))
    (slots
      : ∀ index,
          layout.IsSlot (second.field other) index ↔ layout.IsSlot (first.field object) index)
    (same
      : ∀ index < layout.size (first.field object),
          ¬ layout.IsSlot (first.field object) index →
          second.field other index = first.field object index)
    : Mirrors layout first object second other where
  kind := ⟨fun fixed => absurd fixed moves', fun fixed => absurd fixed moves⟩
  fields index := by
    rw [IsField, IsField, if_neg moves, if_neg moves']
    exact slots index
  data index := by
    rw [IsDatum, IsDatum, size, slots index]
    exact and_congr_left fun _ => ⟨fun _ => moves, fun _ => moves'⟩
  same index datum := same index datum.2.1 datum.2.2

/-- Fixed objects mirror each other if both begin at their addresses and are of one size. -/
theorem Mirrors.of_fixed (fixed : object.space = .fixed) (fixed' : other.space = .fixed)
    (fields : ∀ index, second.IsField layout other index ↔ first.IsField layout object index)
    : Mirrors layout first object second other where
  kind := ⟨fun _ => fixed, fun _ => fixed'⟩
  fields := fields
  data _ := ⟨fun datum => absurd fixed' datum.1, fun datum => absurd fixed datum.1⟩
  same _ datum := absurd fixed datum.1

end Mirrors

section Alike

variable {first : Regions δ} {second : Regions ε} {pairs : Value → Value → Prop}

/-- What is paired with a value that is no reference is that value. -/
theorem Alike.address? (alike : first.Alike layout second pairs) {value other : Value}
    (paired : pairs value other)
    : value.address? = none ↔ other.address? = none := by
  constructor
  · intro none
    rwa [← alike.plain paired (Or.inl none)]
  · intro none
    rwa [alike.plain paired (Or.inr none)]

/-- A reference is paired with a reference. -/
theorem Alike.exists_address (alike : first.Alike layout second pairs) {object : Address}
    (valid : object.Decodes) {other : Value} (paired : pairs object.toValue other)
    : ∃ addr : Address, addr.Decodes ∧ other = addr.toValue := by
  cases found : other.address? with
  | none =>
      have gone := (alike.address? paired).mpr found
      rw [Value.address?_toValue valid] at gone
      cases gone
  | some addr =>
      exact ⟨addr, Value.decodes_of_address? found, (Value.toValue_of_address? found).symm⟩

/-- The memories may be looked at the other way round. -/
theorem Alike.symm (alike : first.Alike layout second pairs)
    : second.Alike layout first fun other value => pairs value other where
  plain paired none := (alike.plain paired none.symm).symm
  objects valid valid' paired := (alike.objects valid' valid paired).symm
  fields valid valid' paired isField :=
    alike.fields valid' valid paired (((alike.objects valid' valid paired).fields _).mp isField)
  single paired paired' := (alike.single paired paired').symm

/-- Fewer pairs look alike if the fields of what is left are left. -/
theorem Alike.restrict (alike : first.Alike layout second pairs) {met : Value → Prop}
    (closed
      : ∀ object : Address,
          object.Decodes →
          met object.toValue →
          ∀ index, first.IsField layout object index → met ⟨first.field object index⟩)
    : first.Alike layout second fun value other => pairs value other ∧ met value where
  plain paired := alike.plain paired.1
  objects valid valid' paired := alike.objects valid valid' paired.1
  fields valid valid' paired isField :=
    ⟨alike.fields valid valid' paired.1 isField, closed _ valid paired.2 _ isField⟩
  single paired paired' := alike.single paired.1 paired'.1

/-- Every value that is no reference may be paired with itself. -/
theorem Alike.plainly (alike : first.Alike layout second pairs)
    : first.Alike layout second fun value other =>
        pairs value other ∨ value = other ∧ value.address? = none where
  plain paired none := by
    rcases paired with former | ⟨same, -⟩
    · exact alike.plain former none
    · exact same
  objects valid valid' paired := by
    rcases paired with former | ⟨-, gone⟩
    · exact alike.objects valid valid' former
    · rw [Value.address?_toValue valid] at gone
      cases gone
  fields valid valid' paired isField := by
    rcases paired with former | ⟨-, gone⟩
    · exact Or.inl (alike.fields valid valid' former isField)
    · rw [Value.address?_toValue valid] at gone
      cases gone
  single {value other value' other'} paired paired' := by
    -- a value that is paired with one that is no reference is that value
    have plain : ∀ {left right : Value}, pairs left right →
        left.address? = none ∨ right.address? = none → left = right := alike.plain
    rcases paired with former | ⟨rfl, gone⟩ <;> rcases paired' with former' | ⟨rfl, gone'⟩
    · exact alike.single former former'
    · constructor
      · rintro rfl
        exact (plain former (Or.inl gone')).symm
      · rintro rfl
        exact plain former (Or.inr gone')
    · constructor
      · rintro rfl
        exact plain former' (Or.inl gone)
      · rintro rfl
        exact (plain former' (Or.inr gone)).symm
    · rfl

/-- A new object may be paired with another new one if their fields are paired. -/
theorem Alike.insert (alike : first.Alike layout second pairs) {object other : Address}
    (valid : object.Decodes) (valid' : other.Decodes)
    (mirrors : Mirrors layout first object second other)
    (fields
      : ∀ index,
          first.IsField layout object index →
          pairs ⟨first.field object index⟩ ⟨second.field other index⟩)
    (fresh
      : ∀ value other',
          pairs value other' → value ≠ object.toValue ∧ other' ≠ other.toValue)
    : first.Alike layout second fun value other' =>
        pairs value other' ∨ value = object.toValue ∧ other' = other.toValue where
  plain paired none := by
    rcases paired with former | ⟨rfl, rfl⟩
    · exact alike.plain former none
    · simp [Value.address?_toValue valid, Value.address?_toValue valid'] at none
  objects {object' other'} decodes decodes' paired := by
    rcases paired with former | ⟨same, same'⟩
    · exact alike.objects decodes decodes' former
    · obtain rfl : object' = object := Address.mk.injEq .. ▸ congrArg Value.raw same
      obtain rfl : other' = other := Address.mk.injEq .. ▸ congrArg Value.raw same'
      exact mirrors
  fields {object' other' index} decodes decodes' paired isField := by
    rcases paired with former | ⟨same, same'⟩
    · exact Or.inl (alike.fields decodes decodes' former isField)
    · obtain rfl : object' = object := Address.mk.injEq .. ▸ congrArg Value.raw same
      obtain rfl : other' = other := Address.mk.injEq .. ▸ congrArg Value.raw same'
      exact Or.inl (fields index isField)
  single paired paired' := by
    rcases paired with former | ⟨rfl, rfl⟩ <;> rcases paired' with former' | ⟨rfl, rfl⟩
    · exact alike.single former former'
    · obtain ⟨differs, differs'⟩ := fresh _ _ former
      exact ⟨fun same => absurd same differs, fun same => absurd same differs'⟩
    · obtain ⟨differs, differs'⟩ := fresh _ _ former'
      exact ⟨fun same => absurd same.symm differs, fun same => absurd same.symm differs'⟩
    · exact ⟨fun _ => rfl, fun _ => rfl⟩

end Alike

-----------------------------------------------------------------------------------------
-- One memory changes
-----------------------------------------------------------------------------------------

/-- The objects that were met were carried elsewhere or left where they were: they are laid out as
before, hold the same data, and their fields hold what their values became.
-/
structure Carries (layout : Layout) (met : Value → Prop) (move : Value → Value)
    (before after : Regions δ)
    : Prop where
  plain : ∀ value : Value, value.address? = none → move value = value
  objects
    : ∀ object : Address,
        object.Decodes →
        met object.toValue →
        ∃ copy : Address,
          copy.Decodes
          ∧ move object.toValue = copy.toValue
          ∧ Mirrors layout before object after copy
          ∧ ∀ index,
              before.IsField layout object index →
              after.field copy index = (move ⟨before.field object index⟩).raw
  injective : ∀ first second, met first → met second → move first = move second → first = second

/-- Two memories look alike where the objects of one of them were carried elsewhere. -/
theorem Alike.carried {before after : Regions δ} {second : Regions ε}
    {pairs : Value → Value → Prop} (alike : before.Alike layout second pairs)
    {met : Value → Prop} {move : Value → Value}
    (carries : Carries layout met move before after)
    (closed
      : ∀ object : Address,
          object.Decodes →
          met object.toValue →
          ∀ index, before.IsField layout object index → met ⟨before.field object index⟩)
    : after.Alike layout second fun value other =>
        ∃ former, met former ∧ pairs former other ∧ move former = value := by
  -- what became a reference was one
  have traced : ∀ {copy : Address} {former : Value}, copy.Decodes → met former →
      move former = copy.toValue →
      ∃ object : Address, object.Decodes ∧ former = object.toValue
        ∧ Mirrors layout before object after copy
        ∧ ∀ index, before.IsField layout object index →
            after.field copy index = (move ⟨before.field object index⟩).raw := by
    intro copy former valid there became
    cases found : former.address? with
    | none =>
        rw [carries.plain former found] at became
        rw [became, Value.address?_toValue valid] at found
        cases found
    | some object =>
        have decodes := Value.decodes_of_address? found
        obtain rfl : object.toValue = former := Value.toValue_of_address? found
        obtain ⟨copy', -, moved, mirrors, words⟩ := carries.objects object decodes there
        obtain rfl : copy' = copy := Address.toValue_inj (moved.symm.trans became)
        exact ⟨object, decodes, rfl, mirrors, words⟩
  refine ⟨?_, ?_, ?_, ?_⟩
  · rintro value other ⟨former, there, paired, rfl⟩ none
    have plain : former.address? = Option.none := by
      rcases none with gone | gone
      · cases found : former.address? with
        | none => rfl
        | some object =>
            have decodes := Value.decodes_of_address? found
            obtain rfl : object.toValue = former := Value.toValue_of_address? found
            obtain ⟨copy, valid, moved, -⟩ := carries.objects object decodes there
            rw [moved, Value.address?_toValue valid] at gone
            cases gone
      · exact (alike.address? paired).mpr gone
    rw [carries.plain former plain]
    exact alike.plain paired (Or.inl plain)
  · rintro copy other valid valid' ⟨former, there, paired, became⟩
    obtain ⟨object, decodes, rfl, mirrors, -⟩ := traced valid there became
    exact mirrors.symm.trans (alike.objects decodes valid' paired)
  · rintro copy other index valid valid' ⟨former, there, paired, became⟩ isField
    obtain ⟨object, decodes, rfl, mirrors, words⟩ := traced valid there became
    have isField' := (mirrors.fields index).mp isField
    rw [words index isField']
    exact ⟨_, closed object decodes there index isField',
      alike.fields decodes valid' paired isField', rfl⟩
  · rintro value other value' other' ⟨former, there, paired, rfl⟩ ⟨former', there', paired', rfl⟩
    rw [← alike.single paired paired']
    exact ⟨carries.injective former former' there there', congrArg move⟩

end Regions

end MovingHeap
