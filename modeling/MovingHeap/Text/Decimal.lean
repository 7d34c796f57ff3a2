/-! Decimal numbers as texts: an optional sign and at least one digit, nothing else. -/

namespace MovingHeap.Text

/-- The value of a decimal digit. -/
def digit? (c : Char) : Option Nat :=
  if '0' ≤ c ∧ c ≤ '9' then some (c.toNat - '0'.toNat) else none

/-- The number that digits spell after those of `number`. -/
def digits? (number : Nat) : List Char → Option Nat
  | [] => some number
  | c :: rest => (digit? c).bind fun digit => digits? (10 * number + digit) rest

/-- The number of one or more digits. -/
def unsigned? : List Char → Option Nat
  | [] => none
  | text => digits? 0 text

/-- The natural number of a text. -/
def nat? (text : String) : Option Nat :=
  match text.toList with
  | '+' :: rest => unsigned? rest
  | rest => unsigned? rest

/-- The integer of a text. -/
def int? (text : String) : Option Int :=
  match text.toList with
  | '-' :: rest => (unsigned? rest).map fun n => -n
  | '+' :: rest => (unsigned? rest).map Int.ofNat
  | rest => (unsigned? rest).map Int.ofNat

/-- The integer of a text, if it fits 64 bits. -/
def int64? (text : String) : Option Int :=
  (int? text).filter fun n => -0x8000000000000000 ≤ n && n < 0x8000000000000000

end MovingHeap.Text
