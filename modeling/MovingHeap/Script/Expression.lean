import MovingHeap.Mutator.Access
import MovingHeap.Mutator.Frames
import MovingHeap.Record.Host
import MovingHeap.Text.Decimal

/-! Short texts that name values.
A text is a primary and perhaps a number of words to add to it; what is not understood is null.
-/

namespace MovingHeap.Script

/-- A named value. -/
inductive Expression where
  | word (raw : Word)
  /-- What a name is bound to. -/
  | bound (name : String)
  /-- What the slot at an address holds. -/
  | slotAt (place : Expression)
  /-- A slot of the frame that a name is bound to. -/
  | frameSlot (frame : String) (kind : SlotKind) (index : Nat)
  | constant (index : Nat)
  | module (rank : Nat)
  /-- A root of the host. -/
  | root (index : Nat)
  /-- So many words further. -/
  | plus (base : Expression) (words : Nat)
  deriving Repr, Inhabited

namespace Expression

/-- The expression of nothing. -/
def null : Expression := word 0

/-- The value of a hexadecimal digit. -/
def hexDigit? (c : Char) : Option Nat :=
  if '0' ≤ c ∧ c ≤ '9' then some (c.toNat - '0'.toNat)
  else if 'a' ≤ c ∧ c ≤ 'f' then some (c.toNat - 'a'.toNat + 10)
  else if 'A' ≤ c ∧ c ≤ 'F' then some (c.toNat - 'A'.toNat + 10)
  else none

/-- The word of a hexadecimal text, marked by `0x` or not. -/
def readHex (text : String) : Word :=
  let digits := if text.startsWith "0x" then text.toList.drop 2 else text.toList
  digits.foldl (fun word c => word * 16 + UInt64.ofNat ((hexDigit? c).getD 0)) 0

/-- A number in decimal, 0 if it is none. -/
def readNat (text : String) : Nat := (Text.nat? text).getD 0

/-- The space of a name. -/
def space? (name : String) : Option Space :=
  [Space.birth, .oldA, .oldB, .fixed].find? (·.text == name)

/-- Reads a primary that is not in brackets. -/
def ofPrimary (text : String) : Expression :=
  if text.startsWith "$" then bound (text.drop 1).toString
  else
    match text.splitOn ":" with
    | [name] => ((space? name).map fun space => word (Address.pack space 0).raw).getD null
    | ["int", number] => word (Value.tagged ((Text.int64? number).getD 0)).raw
    | ["raw", digits] => word (readHex digits)
    | ["local", frame, index] => frameSlot frame .local (readNat index)
    | ["param", frame, index] => frameSlot frame .param (readNat index)
    | ["const", index] => constant (readNat index)
    | ["module", rank] => module (readNat rank)
    | ["root", index] => root (readNat index)
    | _ => null

/-- Splits a text at the last place where a character stands, which belongs to neither part. -/
def splitLast? (separator : Char) (text : List Char) : Option (List Char × List Char) :=
  let reversed := text.reverse
  match reversed.dropWhile (· != separator) with
  | [] => none
  | _ :: before => some (before.reverse, (reversed.takeWhile (· != separator)).reverse)

/-- Adds the words that a text asks for, if it does. -/
def withOffset (base : Expression) (text : List Char) : Expression :=
  match text with
  | '+' :: digits => plus base (readNat (String.ofList digits))
  | _ => base

/-- Reads an expression in which brackets are nested less deeply than `depth`. -/
def ofChars : (depth : Nat) → List Char → Expression
  | depth + 1, '[' :: rest =>
      match splitLast? ']' rest with
      | some (inner, after) => withOffset (slotAt (ofChars depth inner)) after
      | none => null
  | _, text =>
      match splitLast? '+' text with
      | some (base, digits) => withOffset (ofPrimary (String.ofList base)) ('+' :: digits)
      | none => ofPrimary (String.ofList text)

/-- Reads an expression. -/
def ofText (text : String) : Expression := ofChars text.length text.toList

/-- What the parts of an expression mean that are not written in it. -/
structure Meaning (ω : Type) where
  bound : String → Option Value
  /-- What the slot at an address holds; also says what becomes of other values. -/
  slotAt : Value → Action ω Value
  frameSlot : String → SlotKind → Nat → Action ω Value
  constant : Nat → Action ω Value
  module : Nat → Action ω Value
  root : Nat → Action ω Value

/-- The meaning where there is no heap: everything that is not written out is null. -/
def Meaning.empty {ω : Type} : Meaning ω where
  bound := fun _ => none
  slotAt := fun _ => pure .null
  frameSlot := fun _ _ _ => pure .null
  constant := fun _ => pure .null
  module := fun _ => pure .null
  root := fun _ => pure .null

/-- The value of an expression. -/
def eval {ω : Type} (meaning : Meaning ω) : Expression → Action ω Value
  | word raw => return ⟨raw⟩
  | .bound name => return (meaning.bound name).getD .null
  | .slotAt place => do meaning.slotAt (← eval meaning place)
  | .frameSlot frame kind index => meaning.frameSlot frame kind index
  | .constant index => meaning.constant index
  | .module rank => meaning.module rank
  | .root index => meaning.root index
  | plus base words => do
      let value ← eval meaning base
      return ⟨value.raw + UInt64.ofNat words <<< 3⟩

/-- The value of an expression that names nothing outside of itself. -/
def written (expression : Expression) : Value :=
  match expression.eval (Meaning.empty (ω := Unit)) () with
  | .ok value _ => value
  | .error _ _ => .null

end Expression

end MovingHeap.Script
