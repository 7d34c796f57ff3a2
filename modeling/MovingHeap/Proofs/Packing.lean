import Mathlib.Algebra.Group.Nat.Defs
import Mathlib.Tactic.Common
import MovingHeap.Value

/-! Packing a space and an offset into a word loses nothing as long as the offset fits its bits.
Addresses that decode are therefore interchangeable with places in managed memory.
-/

namespace MovingHeap

/-- Every space is found by its own tag and no other. -/
theorem Space.ofTag?_eq_some_iff {tag : Word} {space : Space}
    : Space.ofTag? tag = some space ↔ tag = space.tag := by
  constructor
  · intro found
    unfold Space.ofTag? at found
    split_ifs at found with first second third fourth <;> cases found <;> assumption
  · rintro rfl
    exact Space.ofTag?_tag space

namespace Address

-----------------------------------------------------------------------------------------
-- The number behind an address
-----------------------------------------------------------------------------------------

/-- A packed address as a number: the tag above the byte offset, which do not overlap. -/
theorem toNat_pack (space : Space) {offset : Nat} (small : offset ≤ maxOffsetWords)
    : (pack space offset).raw.toNat = space.tag.toNat * 2 ^ 60 + offset * 8 := by
  have bound : offset < 2 ^ 57 := by simp only [maxOffsetWords] at small; omega
  have low : (UInt64.ofNat offset <<< 3).toNat = offset * 8 := by
    rw [UInt64.toNat_shiftLeft, UInt64.toNat_ofNat', Nat.shiftLeft_eq]
    simp only [UInt64.reduceToNat, Nat.reducePow, Nat.reduceMod]
    omega
  have high : (space.tag <<< 60).toNat = space.tag.toNat * 2 ^ 60 := by
    cases space <;> rfl
  have join := Nat.shiftLeft_add_eq_or_of_lt (i := 60) (b := offset * 8) (by omega)
    space.tag.toNat
  rw [Nat.shiftLeft_eq] at join
  simp only [pack, UInt64.toNat_or, low, high]
  exact join.symm

/-- The offset of an address as a number: what is below the tag, in words. -/
theorem offset_eq (addr : Address) : addr.offset = addr.raw.toNat % 2 ^ 60 / 8 := by
  have mask : addr.raw.toNat &&& (2 ^ 60 - 1) = addr.raw.toNat % 2 ^ 60 :=
    Nat.and_two_pow_sub_one_eq_mod ..
  simp only [offset, offsetMask, UInt64.toNat_shiftRight, UInt64.toNat_and, UInt64.reduceToNat,
    Nat.shiftRight_eq_div_pow]
  simp only [Nat.reducePow, Nat.reduceSub, Nat.reduceMod] at mask ⊢
  rw [mask]

/-- The tag of an address as a number. -/
theorem toNat_tagBits (addr : Address) : (addr.raw >>> 60).toNat = addr.raw.toNat / 2 ^ 60 := by
  rw [UInt64.toNat_shiftRight, Nat.shiftRight_eq_div_pow]
  rfl

/-- Every offset read off an address fits the bits of an address. -/
theorem offset_le (addr : Address) : addr.offset ≤ maxOffsetWords := by
  rw [offset_eq, maxOffsetWords]
  omega

-----------------------------------------------------------------------------------------
-- Unpacking what was packed
-----------------------------------------------------------------------------------------

/-- A packed address has the tag of its space. -/
theorem tagBits_pack (space : Space) {offset : Nat} (small : offset ≤ maxOffsetWords)
    : (pack space offset).raw >>> 60 = space.tag := by
  apply UInt64.toNat_inj.mp
  rw [toNat_tagBits, toNat_pack space small]
  have bound : offset < 2 ^ 57 := by simp only [maxOffsetWords] at small; omega
  omega

/-- The space of a packed address. -/
@[simp] theorem space_pack (space : Space) {offset : Nat} (small : offset ≤ maxOffsetWords)
    : (pack space offset).space = space := by
  rw [Address.space, tagBits_pack space small, Space.ofTag?_tag, Option.getD_some]

/-- The offset of a packed address. -/
@[simp] theorem offset_pack (space : Space) {offset : Nat} (small : offset ≤ maxOffsetWords)
    : (pack space offset).offset = offset := by
  have bound : offset < 2 ^ 57 := by simp only [maxOffsetWords] at small; omega
  rw [offset_eq, toNat_pack space small]
  omega

/-- An address that is as good as its space and offset: its word decodes to it. -/
def Decodes (addr : Address) : Prop := ofRaw? addr.raw = some addr

/-- A word is a multiple of eight if its low bits are clear. -/
theorem lowBits_eq_zero_iff (raw : Word) : raw &&& 7 = 0 ↔ raw.toNat % 8 = 0 := by
  have mask : raw.toNat &&& (2 ^ 3 - 1) = raw.toNat % 2 ^ 3 := Nat.and_two_pow_sub_one_eq_mod ..
  rw [← UInt64.toNat_inj, UInt64.toNat_and]
  simp only [UInt64.reduceToNat, Nat.reducePow, Nat.reduceSub] at mask ⊢
  rw [mask]

/-- A packed address decodes. -/
theorem decodes_pack (space : Space) {offset : Nat} (small : offset ≤ maxOffsetWords)
    : (pack space offset).Decodes := by
  have low : (pack space offset).raw &&& 7 = 0 := by
    rw [lowBits_eq_zero_iff, toNat_pack space small]
    omega
  rw [Decodes, ofRaw?, if_pos low, tagBits_pack space small, Space.ofTag?_tag]
  rfl

/-- What a word decodes to is that word as an address. -/
theorem raw_of_ofRaw? {raw : Word} {addr : Address} (found : ofRaw? raw = some addr)
    : addr.raw = raw := by
  unfold ofRaw? at found
  split_ifs at found
  obtain ⟨_, _, rfl⟩ := Option.map_eq_some_iff.mp found
  rfl

/-- What a word decodes to decodes again. -/
theorem decodes_of_ofRaw? {raw : Word} {addr : Address} (found : ofRaw? raw = some addr)
    : addr.Decodes := by
  rw [Decodes, raw_of_ofRaw? found, found]

/-- The low bits of what decodes are clear. -/
theorem Decodes.lowBits {addr : Address} (valid : addr.Decodes) : addr.raw &&& 7 = 0 := by
  by_contra set
  simp [Decodes, ofRaw?, set] at valid

/-- A decoded address is determined by its space and its offset. -/
theorem pack_space_offset {addr : Address} (valid : addr.Decodes)
    : pack addr.space addr.offset = addr := by
  have aligned := valid.lowBits
  rw [Decodes, ofRaw?, if_pos aligned] at valid
  obtain ⟨space, found, -⟩ := Option.map_eq_some_iff.mp valid
  have tag : addr.raw.toNat / 2 ^ 60 = space.tag.toNat := by
    rw [← toNat_tagBits, Space.ofTag?_eq_some_iff.mp found]
  have here : addr.space = space := by rw [Address.space, found, Option.getD_some]
  have multiple := (lowBits_eq_zero_iff addr.raw).mp aligned
  have number : (pack addr.space addr.offset).raw.toNat = addr.raw.toNat := by
    rw [toNat_pack _ addr.offset_le, here, offset_eq]
    omega
  exact congrArg Address.mk (UInt64.toNat_inj.mp number)

/-- Decoded addresses of one place are one address. -/
theorem Decodes.ext {first second : Address} (left : first.Decodes) (right : second.Decodes)
    (space : first.space = second.space) (offset : first.offset = second.offset)
    : first = second := by
  rw [← pack_space_offset left, ← pack_space_offset right, space, offset]

/-- Different places have different packed addresses. -/
theorem pack_inj {first second : Space} {left right : Nat} (smallLeft : left ≤ maxOffsetWords)
    (smallRight : right ≤ maxOffsetWords)
    : pack first left = pack second right ↔ first = second ∧ left = right := by
  constructor
  · intro same
    have spaces := congrArg Address.space same
    have offsets := congrArg Address.offset same
    rw [space_pack _ smallLeft, space_pack _ smallRight] at spaces
    rw [offset_pack _ smallLeft, offset_pack _ smallRight] at offsets
    exact ⟨spaces, offsets⟩
  · rintro ⟨rfl, rfl⟩
    rfl

-----------------------------------------------------------------------------------------
-- Moving within a region
-----------------------------------------------------------------------------------------

/-- Adding words to a packed address moves its offset. -/
theorem add_pack (space : Space) {offset words : Nat} (small : offset + words ≤ maxOffsetWords)
    : (pack space offset).add words = pack space (offset + words) := by
  have bound : offset + words < 2 ^ 57 := by simp only [maxOffsetWords] at small; omega
  have step : (UInt64.ofNat words <<< 3).toNat = words * 8 := by
    rw [UInt64.toNat_shiftLeft, UInt64.toNat_ofNat', Nat.shiftLeft_eq]
    simp only [UInt64.reduceToNat, Nat.reducePow, Nat.reduceMod]
    omega
  have tag : space.tag.toNat ≤ 4 := by cases space <;> decide
  have number : ((pack space offset).add words).raw.toNat
      = (pack space (offset + words)).raw.toNat := by
    rw [add, UInt64.toNat_add, step, toNat_pack space (by omega), toNat_pack space small]
    omega
  exact congrArg Address.mk (UInt64.toNat_inj.mp number)

/-- The address some words behind a decoded one, as a place. -/
theorem add_eq_pack {addr : Address} (valid : addr.Decodes) {words : Nat}
    (small : addr.offset + words ≤ maxOffsetWords)
    : addr.add words = pack addr.space (addr.offset + words) := by
  conv_lhs => rw [← pack_space_offset valid]
  exact add_pack addr.space small

/-- No word that decodes is zero, as no space has the tag zero. -/
theorem Decodes.raw_ne_zero {addr : Address} (valid : addr.Decodes) : addr.raw ≠ 0 := by
  intro zero
  have none : ofRaw? 0 = none := by decide
  rw [Decodes, zero, none] at valid
  cases valid

end Address

namespace Value

/-- What a value refers to is its own word as an address. -/
theorem raw_of_address? {value : Value} {addr : Address} (found : value.address? = some addr)
    : addr.raw = value.raw := Address.raw_of_ofRaw? found

/-- What a value refers to decodes. -/
theorem decodes_of_address? {value : Value} {addr : Address} (found : value.address? = some addr)
    : addr.Decodes := Address.decodes_of_ofRaw? found

/-- A reference made from what a value refers to is that value. -/
theorem toValue_of_address? {value : Value} {addr : Address} (found : value.address? = some addr)
    : addr.toValue = value := by
  rw [Address.toValue, raw_of_address? found]

/-- A decoded address as a value refers to itself. -/
theorem address?_toValue {addr : Address} (valid : addr.Decodes)
    : addr.toValue.address? = some addr := valid

/-- A reference is no integer, as the low bits of addresses are clear. -/
theorem integer?_toValue {addr : Address} (valid : addr.Decodes) : addr.toValue.integer? = none := by
  have aligned := valid.lowBits
  have even : (addr.raw &&& 1).toNat = 0 := by
    have mask : addr.raw.toNat &&& (2 ^ 1 - 1) = addr.raw.toNat % 2 ^ 1 :=
      Nat.and_two_pow_sub_one_eq_mod ..
    rw [Address.lowBits_eq_zero_iff] at aligned
    rw [UInt64.toNat_and]
    simp only [UInt64.reduceToNat, Nat.reducePow, Nat.reduceSub] at mask ⊢
    omega
  have odd : addr.toValue.isInteger = false := by
    rw [isInteger, Address.toValue, beq_eq_false_iff_ne]
    intro one
    rw [one] at even
    cases even
  rw [integer?, odd]
  rfl

/-- Null refers to nothing. -/
@[simp] theorem address?_null : null.address? = none := by decide

end Value

end MovingHeap
