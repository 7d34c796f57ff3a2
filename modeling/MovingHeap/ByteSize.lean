/-! Byte counts as people read them: a unit that keeps the number at least one, and one decimal.
Counts above 53 significant bits are first rounded to that many, the precision sizes are kept in.
-/

namespace MovingHeap.ByteSize

/-- The quotient rounded to the nearest integer, a half going to the even neighbour. -/
def roundQuotient (num den : Nat) : Nat :=
  let quotient := num / den
  let twice := 2 * (num % den)
  if twice < den || (twice == den && quotient % 2 == 0) then quotient else quotient + 1

/-- The significant bits a size keeps. -/
def significantBits : Nat := 53

/-- `n` rounded to the nearest number of `significantBits` bits, a half going to the even one. -/
def rounded (n : Nat) : Nat :=
  let unit := 1 <<< (n.log2 + 1 - significantBits)
  roundQuotient n unit * unit

/-- `num / den` with one decimal, a half going to the even tenth. -/
def tenthsText (num den : Nat) : String :=
  let tenths := roundQuotient (10 * num) den
  s!"{tenths / 10}.{tenths % 10}"

/-- Bytes are written exactly; from 1024 on kilo-, mega- and gigabytes take one decimal. -/
def text (bytes : Nat) : String :=
  let size := rounded bytes
  if size < 1024 then s!"{bytes}B"
  else if size < 0x100000 then tenthsText size 1024 ++ "K"
  else if size < 0x40000000 then tenthsText size (0x100000) ++ "M"
  else tenthsText size (0x40000000) ++ "G"

end MovingHeap.ByteSize
