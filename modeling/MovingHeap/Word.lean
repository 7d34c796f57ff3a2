/-! The machine words that managed memory is made of, and the rounding of byte counts to them.
Alignments are powers of two, so aligning is masking low bits.
-/

namespace MovingHeap

/-- One cell of managed memory. -/
abbrev Word := UInt64

/-- Bytes in a word. -/
def wordBytes : Nat := 8

/-- The words needed to hold `bytes`, the last one perhaps filled in part. -/
def wordsFor (bytes : Nat) : Nat := (bytes + (wordBytes - 1)) / wordBytes

/-- The largest multiple of the power of two `align` that is not above `x`. -/
def alignDown (x align : Word) : Word := x &&& ~~~(align - 1)

/-- The least multiple of the power of two `align` that is not below `x`, if no carry is lost. -/
def alignUp (x align : Word) : Word := alignDown (x + align - 1) align

/-- Whether `x` is a multiple of the power of two `align`. -/
def isAligned (x align : Word) : Bool := x &&& (align - 1) == 0

/-- A number is a power of two if it is the one with its own bit length. -/
def isPowerOfTwo (n : Nat) : Bool := 1 <<< n.log2 == n

/-- The least power of two that is not below `n`. -/
def nextPowerOfTwo (n : Nat) : Nat := if n ≤ 1 then 1 else 1 <<< ((n - 1).log2 + 1)

/-- The lower-case hexadecimal text of a word, marked by `0x`. -/
def hexText (w : Word) : String := "0x" ++ String.ofList (Nat.toDigits 16 w.toNat)

/-- Rounding up to words leaves no byte out and adds less than a word. -/
theorem wordsFor_bounds (bytes : Nat)
    : bytes ≤ wordsFor bytes * wordBytes ∧ wordsFor bytes * wordBytes < bytes + wordBytes := by
  simp only [wordsFor, wordBytes]
  omega

/-- The next power of two is not below the number. -/
theorem le_nextPowerOfTwo (n : Nat) : n ≤ nextPowerOfTwo n := by
  unfold nextPowerOfTwo
  split
  next small => exact small
  next =>
    have below : n - 1 < 1 <<< ((n - 1).log2 + 1) := by
      rw [Nat.one_shiftLeft]
      exact Nat.lt_log2_self
    omega

end MovingHeap
