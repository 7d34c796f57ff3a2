import MovingHeap.Collector.Forwarding

/-! Records, the objects of the hosts here: a tagged field count and then the fields. -/

namespace MovingHeap.Record

/-- The fields a header declares; what is no count declares none. -/
def fieldCount (header : Word) : Nat := ((Value.mk header).integer?.getD 0).toNat

/-- The words of the record with a header. -/
def words (header : Word) : Nat := max (fieldCount header + 1) minObjectWords

/-- The header that declares `fields` fields. -/
def header (fields : Nat) : Word := (Value.tagged fields).raw

/-- The bytes to ask for to hold `fields` fields. -/
def byteSize (fields : Nat) : Nat := (fields + 1) * wordBytes

/-- The slots of the fields of a record. -/
def slots (object : Address) (fields : Nat) : List Address :=
  (List.range' 1 fields).map object.add

end MovingHeap.Record
