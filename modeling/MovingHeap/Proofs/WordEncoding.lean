import MovingHeap.Proofs.Packing

/-! What a word says, and that it says it to everyone alike.
Null, integers and references share one word; the low bits tell them apart, an integer keeps its sign above
the tag, and a reference keeps its space above the offset.
-/

namespace MovingHeap

namespace Value

-----------------------------------------------------------------------------------------
-- Integers
-----------------------------------------------------------------------------------------

/-- Integers are the odd words. -/
theorem isInteger_iff (value : Value) : value.isInteger ↔ value.raw.toNat % 2 = 1 := by
  rw [isInteger, beq_iff_eq, ← UInt64.toNat_inj, UInt64.toNat_and, UInt64.toNat_one,
    Nat.and_one_is_mod]

/-- Null is the word zero as a number. -/
theorem isNull_iff (value : Value) : value.isNull ↔ value.raw.toNat = 0 := by
  rw [isNull, beq_iff_eq, ← UInt64.toNat_inj, UInt64.toNat_zero]

/-- The word of an integer as a number: twice the integer and the tag, modulo the size of a word. -/
theorem toNat_tagged (n : Int) : ((tagged n).raw.toNat : Int) = (2 * n + 1) % 0x10000000000000000 := by
  simp only [tagged, UInt64.toNat_ofNat']
  omega

/-- The tag is odd, whatever bits of the integer are lost. -/
theorem isInteger_tagged (n : Int) : (tagged n).isInteger := by
  have number := toNat_tagged n
  rw [isInteger_iff]
  omega

/-- The integer of an odd word as a number. -/
theorem integer?_eq_some_iff {value : Value} {n : Int}
    : value.integer? = some n ↔
      value.isInteger ∧ minInteger ≤ n ∧ n ≤ maxInteger
      ∧ (value.raw.toNat : Int) = (2 * n + 1) % 0x10000000000000000 := by
  have small := UInt64.toNat_lt value.raw
  by_cases odd : value.isInteger
  · have bit := (isInteger_iff value).mp odd
    simp only [integer?, odd, if_true, Option.some.injEq, true_and, minInteger, maxInteger]
    split_ifs <;> omega
  · simp [integer?, odd]

/-- An integer is read back exactly if it is in range; beyond, bits are lost. -/
theorem integer?_tagged_iff (n : Int)
    : (tagged n).integer? = some n ↔ minInteger ≤ n ∧ n ≤ maxInteger := by
  rw [integer?_eq_some_iff]
  exact ⟨fun read => ⟨read.2.1, read.2.2.1⟩, fun range =>
    ⟨isInteger_tagged n, range.1, range.2, toNat_tagged n⟩⟩

/-- A word that is read as an integer is the word of that integer. -/
theorem tagged_of_integer? {value : Value} {n : Int} (read : value.integer? = some n)
    : tagged n = value := by
  obtain ⟨-, -, -, number⟩ := integer?_eq_some_iff.mp read
  have same := (toNat_tagged n).trans number.symm
  exact congrArg Value.mk (UInt64.toNat_inj.mp (Int.ofNat_inj.mp same))

/-- What tagging an integer comes to: it is read back exactly in range and refused beyond. -/
structure Tags (n : Int) : Prop where
  kept
    : tagged? n = some (tagged n) ∧ (tagged n).integer? = some n ↔
      minInteger ≤ n ∧ n ≤ maxInteger
  refused : tagged? n = none ↔ ¬ (minInteger ≤ n ∧ n ≤ maxInteger)

theorem tags (n : Int) : Tags n := by
  by_cases range : minInteger ≤ n ∧ n ≤ maxInteger
  · have read := (integer?_tagged_iff n).mpr range
    constructor <;> simp [tagged?, range, read]
  · constructor <;> simp [tagged?, range]

-----------------------------------------------------------------------------------------
-- Words
-----------------------------------------------------------------------------------------

/-- A word is one of null, an integer and a reference, and what it decodes to is encoded in no other. -/
structure Unambiguous (value : Value) : Prop where
  kind : [value.isNull, value.isInteger, value.isReference].count true = 1
  decodes
    : value.address?.isSome ↔
      value.raw.toNat % 8 = 0 ∧ 1 ≤ value.raw.toNat / 2 ^ 60 ∧ value.raw.toNat / 2 ^ 60 ≤ 4
  neither : value.isNull ∨ value.isInteger → value.address? = none
  encoded
    : ∀ addr, value.address? = some addr → (Address.pack addr.space addr.offset).raw = value.raw
  retagged : ∀ n, value.integer? = some n → tagged n = value

/-- Null is even, so that a word is of one kind only. -/
theorem count_kinds (value : Value)
    : [value.isNull, value.isInteger, value.isReference].count true = 1 := by
  have apart : value.isNull → ¬ value.isInteger := by
    rw [isNull_iff, isInteger_iff]
    omega
  cases null : value.isNull <;> cases integer : value.isInteger <;>
    simp_all [isReference]

end Value

namespace Space

/-- The tags in use are the numbers from one to four. -/
theorem isSome_ofTag? (tag : Word) : (ofTag? tag).isSome ↔ 1 ≤ tag.toNat ∧ tag.toNat ≤ 4 := by
  rw [Option.isSome_iff_exists]
  constructor
  · intro found
    obtain ⟨space, named⟩ := found
    rw [ofTag?_eq_some_iff.mp named]
    cases space <;> decide
  · intro range
    have number : tag.toNat = 1 ∨ tag.toNat = 2 ∨ tag.toNat = 3 ∨ tag.toNat = 4 := by omega
    rcases number with one | two | three | four
    · exact ⟨birth, ofTag?_eq_some_iff.mpr (UInt64.toNat_inj.mp one)⟩
    · exact ⟨oldA, ofTag?_eq_some_iff.mpr (UInt64.toNat_inj.mp two)⟩
    · exact ⟨oldB, ofTag?_eq_some_iff.mpr (UInt64.toNat_inj.mp three)⟩
    · exact ⟨fixed, ofTag?_eq_some_iff.mpr (UInt64.toNat_inj.mp four)⟩

end Space

namespace Address

/-- The words that decode: those with clear low bits and a tag in use. -/
theorem isSome_ofRaw? (raw : Word)
    : (ofRaw? raw).isSome ↔ raw.toNat % 8 = 0 ∧ 1 ≤ raw.toNat / 2 ^ 60 ∧ raw.toNat / 2 ^ 60 ≤ 4 := by
  have tag := toNat_tagBits ⟨raw⟩
  simp only at tag
  rw [← lowBits_eq_zero_iff, ofRaw?, ← tag]
  split_ifs with aligned
  · simp [aligned, Space.isSome_ofTag?]
  · simp [aligned]

/-- The number behind a decoded address: its tag above its byte offset. -/
theorem Decodes.toNat_raw {addr : Address} (valid : addr.Decodes)
    : addr.raw.toNat = addr.space.tag.toNat * 2 ^ 60 + addr.offset * 8 := by
  conv_lhs => rw [← pack_space_offset valid]
  exact toNat_pack addr.space addr.offset_le

/-- Within a space, addresses are in the order of their offsets. -/
theorem Decodes.raw_lt_raw_iff {left right : Address} (first : left.Decodes) (second : right.Decodes)
    (space : left.space = right.space)
    : left.raw < right.raw ↔ left.offset < right.offset := by
  rw [UInt64.lt_iff_toNat_lt, first.toNat_raw, second.toNat_raw, space]
  omega

/-- What making an address comes to: it decodes to the space and the offset that it was made of, and moves
within its space as far as offsets go.
-/
structure Packs (space : Space) (offset : Nat) : Prop where
  decodes : ofRaw? (pack space offset).raw = some (pack space offset)
  named : (pack space offset).space = space
  placed : (pack space offset).offset = offset
  moves
    : ∀ words, offset + words ≤ maxOffsetWords →
        ofRaw? ((pack space offset).add words).raw = some ((pack space offset).add words)
        ∧ ((pack space offset).add words).space = space
        ∧ ((pack space offset).add words).offset = offset + words

theorem packs {offset : Nat} (space : Space) (small : offset ≤ maxOffsetWords)
    : Packs space offset := by
  refine ⟨decodes_pack space small, space_pack space small, offset_pack space small,
    fun words within => ?_⟩
  rw [add_pack space within]
  exact ⟨decodes_pack space within, space_pack space within, offset_pack space within⟩

end Address

/-- Every word is unambiguous, by the laws of integers and addresses. -/
theorem Value.unambiguous (value : Value) : value.Unambiguous where
  kind := count_kinds value
  decodes := Address.isSome_ofRaw? value.raw
  neither := by
    intro other
    rw [isNull_iff, isInteger_iff] at other
    rw [← Option.not_isSome_iff_eq_none, address?, Address.isSome_ofRaw?]
    omega
  encoded := by
    intro addr found
    rw [Address.pack_space_offset (decodes_of_address? found), raw_of_address? found]
  retagged := fun _ => tagged_of_integer?

end MovingHeap
