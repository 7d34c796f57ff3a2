import MovingHeap.Word

/-! Managed references and the region addresses packed into them.
A word is null, a tagged integer (lowest bit set) or a reference; an address keeps its space in the
top four bits and a byte offset in the rest, so it is never null and never an integer.
-/

namespace MovingHeap

/-- The region an address points into; full collections alternate between the two old ones. -/
inductive Space where
  | birth
  | oldA
  | oldB
  | fixed
  deriving DecidableEq, Repr, Inhabited

namespace Space

/-- The number kept in an address's top bits. -/
def tag : Space → Word
  | birth => 1
  | oldA => 2
  | oldB => 3
  | fixed => 4

/-- The space of a tag; four of the sixteen tags are in use. -/
def ofTag? (tag : Word) : Option Space :=
  if tag = 1 then some birth
  else if tag = 2 then some oldA
  else if tag = 3 then some oldB
  else if tag = 4 then some fixed
  else none

/-- Whether objects of the space have been promoted. -/
def isOld : Space → Bool
  | oldA | oldB => true
  | birth | fixed => false

/-- The other old semispace; the remaining spaces have no counterpart. -/
def flipped : Space → Space
  | oldA => oldB
  | oldB => oldA
  | space => space

/-- The name a space goes by in texts. -/
def text : Space → String
  | birth => "Birth"
  | oldA => "OldA"
  | oldB => "OldB"
  | fixed => "Fixed"

/-- Every tag in use names its space. -/
@[simp] theorem ofTag?_tag (space : Space) : ofTag? space.tag = some space := by
  cases space <;> rfl

end Space

/-- The bits of an address below its tag. -/
def offsetMask : Word := 0x0fffffffffffffff

/-- The largest word offset an address can hold. -/
def maxOffsetWords : Nat := 0x01ffffffffffffff

/-- A space and a word offset packed into one word. -/
structure Address where
  raw : Word
  deriving DecidableEq, Repr, Inhabited

namespace Address

/-- The address `offset` words into `space`. -/
def pack (space : Space) (offset : Nat) : Address :=
  ⟨space.tag <<< 60 ||| UInt64.ofNat offset <<< 3⟩

/-- Decodes a word; null, tagged integers, misaligned words and unused tags are no addresses. -/
def ofRaw? (raw : Word) : Option Address :=
  if raw &&& 7 = 0 then (Space.ofTag? (raw >>> 60)).map fun _ => ⟨raw⟩ else none

/-- The space of the tag; a tag out of use, which only arithmetic can make, reads as fixed. -/
def space (addr : Address) : Space :=
  (Space.ofTag? (addr.raw >>> 60)).getD .fixed

/-- Words from the start of the region. -/
def offset (addr : Address) : Nat :=
  ((addr.raw &&& offsetMask) >>> 3).toNat

/-- The address `words` further into the same region. -/
def add (addr : Address) (words : Nat) : Address :=
  ⟨addr.raw + UInt64.ofNat words <<< 3⟩

/-- Space and offset, joined by a plus sign. -/
def text (addr : Address) : String :=
  s!"{addr.space.text}+{addr.offset}"

end Address

/-- A managed reference: null, a tagged integer or an address. -/
structure Value where
  raw : Word
  deriving DecidableEq, Repr, Inhabited

/-- An address as a reference to what it points at. -/
def Address.toValue (addr : Address) : Value := ⟨addr.raw⟩

namespace Value

/-- The reference to nothing. -/
def null : Value := ⟨0⟩

/-- The least integer that survives tagging. -/
def minInteger : Int := -0x4000000000000000

/-- The greatest integer that survives tagging. -/
def maxInteger : Int := 0x3fffffffffffffff

/-- Tags `n`; bits that do not fit beside the tag are lost. -/
def tagged (n : Int) : Value :=
  ⟨UInt64.ofNat ((2 * n + 1) % 0x10000000000000000).toNat⟩

/-- Tags `n` if nothing is lost. -/
def tagged? (n : Int) : Option Value :=
  if minInteger ≤ n ∧ n ≤ maxInteger then some (tagged n) else none

/-- The lowest bit marks integers. -/
def isInteger (value : Value) : Bool := value.raw &&& 1 == 1

/-- Null is the zero word. -/
def isNull (value : Value) : Bool := value.raw == 0

/-- An untagged word that is not null. -/
def isReference (value : Value) : Bool := !value.isInteger && !value.isNull

/-- The integer of a tagged word: its bits above the tag as a signed number. -/
def integer? (value : Value) : Option Int :=
  if value.isInteger then
    let half := value.raw.toNat / 2
    some (if half < 0x4000000000000000 then half else (half : Int) - 0x8000000000000000)
  else none

/-- The address a reference holds, if the word decodes to one. -/
def address? (value : Value) : Option Address := Address.ofRaw? value.raw

/-- The text of a value; a word that is no value in use shows its bits. -/
def text (value : Value) : String :=
  if value.isNull then "Null"
  else match value.integer? with
    | some n => s!"Int({n})"
    | none => match value.address? with
      | some addr => s!"Ref({addr.text})"
      | none => s!"Raw({hexText value.raw})"

/-- Values separated by commas, in brackets. -/
def listText (values : List Value) : String :=
  "[" ++ String.intercalate ", " (values.map text) ++ "]"

end Value

/-- What a value currently refers to. -/
inductive ValueKind where
  | null
  | integer (n : Int)
  /-- An object allocated since the last collection. -/
  | birth (addr : Address)
  /-- An allocated word of the current old semispace. -/
  | old (addr : Address)
  /-- The start or the inside of a live fixed object. -/
  | fixed (addr : Address)
  /-- Stale addresses, invented words and the semispace out of use. -/
  | foreign (raw : Word)
  deriving DecidableEq, Repr

/-- The text of a classification; foreign words are written in decimal. -/
def ValueKind.text : ValueKind → String
  | null => "Null"
  | integer n => s!"Integer({n})"
  | birth addr => s!"Birth({addr.text})"
  | old addr => s!"Old({addr.text})"
  | fixed addr => s!"Fixed({addr.text})"
  | foreign raw => s!"Foreign({raw})"

end MovingHeap
