import MovingHeap.Foreign.Callbacks
import MovingHeap.Record.Layout

/-! A host whose objects are records and which can be told to misbehave.
It logs every callback, keeps some roots of its own and counts the copies it makes.
-/

namespace MovingHeap.Record

/-- How the host copies a record. -/
inductive CopyMode where
  | faithful
  /-- Claims one word. -/
  | short
  /-- Claims nothing. -/
  | none
  /-- Claims more than there is room for. -/
  | over
  /-- Leaves the first word zero. -/
  | zero
  /-- Adds a field. -/
  | grow
  deriving DecidableEq, Repr

/-- How the host scans a record. -/
inductive ScanMode where
  | faithful
  /-- Reads the whole record first. -/
  | words
  /-- Reads far beyond the record first. -/
  | wordsOver
  /-- Visits a slot far beyond the record first. -/
  | dangle
  /-- Visits no field. -/
  | skip
  /-- Visits every field twice. -/
  | twice
  /-- Forwards copies of the fields and leaves the fields alone. -/
  | value
  /-- Answers the record itself. -/
  | stuck
  /-- Answers an address far beyond the record. -/
  | far
  /-- Answers an address of another space. -/
  | space
  /-- Answers no address. -/
  | null
  /-- Allocates first. -/
  | allocate
  /-- Collects first. -/
  | collect
  /-- Visits a word that is no address first. -/
  | badSlot
  deriving DecidableEq, Repr

/-- What the host does when a fixed object is destroyed. -/
inductive Destructor where
  | log
  /-- Logs and then overwrites the payload. -/
  | poke
  deriving DecidableEq, Repr

/-- What the host keeps between callbacks. -/
structure HostState where
  copyMode : CopyMode := .faithful
  scanMode : ScanMode := .faithful
  copies : Nat := 0
  roots : Array Value := #[]
  deriving DecidableEq, Repr

/-- How the host writes addresses in its lines. -/
abbrev Label := Address → String

/-- A distance, in words, that leads out of every record. -/
def farWords : Nat := 100000

/-- Where the host points when it answers an address of another space. -/
def elsewhere : Address := .pack .fixed 100

/-- What destructors overwrite payloads with. -/
def pokedWord : Word := (Value.tagged 777).raw

/-- The words of a copy with one field more: the fields that were copied, then those that the
destination holds in their place, then zeros.
-/
def grown (dst : Window) (body : List Word) (fields words : Nat) : List Word :=
  let copied := (body.drop 1).take fields
  let left := (List.range' (1 + copied.length) (fields - copied.length)).map fun index =>
    (dst.get? index).getD 0
  header words :: copied ++ left ++ List.replicate (words - fields) 0

/-- Copies the record at the start of `src`, as well as the mode allows. -/
def copy (dst src : Window) (host : HostState) : Reply HostState Copied :=
  let first := (src.get? 0).getD 0
  let words := words first
  let body := src.take (min words dst.length)
  let roomy := words < dst.length
  let copied : Copied :=
    match host.copyMode with
    | .faithful => ⟨body, words⟩
    | .short => ⟨body, 1⟩
    | .none => ⟨body, 0⟩
    | .over => ⟨body, dst.length + 1⟩
    | .zero => ⟨body.set 0 0, words⟩
    | .grow =>
        ⟨if roomy then grown dst body (fieldCount first) words else body, words + 1⟩
  { answer := copied
    host := { host with copies := host.copies + 1 }
    notes := [s!"copy src={src.length} dst={dst.length} -> {copied.words}"] }

/-- What the host does with a record before it visits the fields. -/
def prepare (mode : ScanMode) (object : Address) (words : Nat) : Visit HostState Unit :=
  match mode with
  | .words => do
      let list ← Visit.readMany object words
      Visit.log s!"words {Value.listText (list.map Value.mk)}"
  | .wordsOver => do
      let _ ← Visit.readMany object (words + farWords)
  | .dangle => Visit.slot (object.add farWords)
  | .allocate => Visit.allocate
  | .collect => Visit.collect
  | .badSlot => Foreign.visitSlot 3
  | _ => pure ()

/-- What the host does with one field. -/
def visitField (mode : ScanMode) (slot : Address) : Visit HostState Unit :=
  match mode with
  | .skip => pure ()
  | .twice => do
      Visit.slot slot
      Visit.slot slot
  | .value => do
      let kept := Value.mk (← Visit.read slot)
      let forwarded ← Visit.value kept
      Visit.log s!"value {forwarded.text}"
  | _ => Visit.slot slot

/-- The address the host answers for a record of as many words. -/
def behind (mode : ScanMode) (object : Address) (words : Nat) : Address :=
  match mode with
  | .stuck => object
  | .far => object.add farWords
  | .space => elsewhere
  | .null => ⟨Value.null.raw⟩
  | _ => object.add words

/-- Logs the start of a callback. -/
def announce (line : String) : Visit HostState Unit := .isFull fun full =>
  .log s!"{line} full={full}"

/-- Scans a record, as well as the mode allows. -/
def scan (label : Label) (callback : String) (object : Address) : Visit HostState Address := do
  announce s!"{callback} {label object}"
  let header ← Visit.read object
  let mode := (← Visit.host).scanMode
  prepare mode object (words header)
  (slots object (fieldCount header)).forM (visitField mode)
  return behind mode object (words header)

/-- Scans a fixed object, every word of which is a field. -/
def scanFixed (label : Label) (callback : String) (payload : Address) (words : Nat)
    : Visit HostState Unit := do
  announce s!"{callback} {label payload} {words}"
  ((List.range words).map payload.add).forM Visit.slot

/-- Forwards one root of the host, which is put back only if it changes. -/
def visitRoot (index : Nat) : Visit HostState Unit := do
  let root := ((← Visit.host).roots[index]?).getD .null
  let forwarded ← Visit.value root
  if forwarded ≠ root then
    let host ← Visit.host
    Visit.putHost { host with roots := host.roots.setIfInBounds index forwarded }

/-- Forwards the roots of the host, each put back before the next. -/
def visitRoots (callback : String) : Visit HostState Unit := do
  Visit.log callback
  (List.range (← Visit.host).roots.size).forM visitRoot

/-- Logs a hook. -/
def noteHook (callback : String) (host : HostState) : Reply HostState Unit :=
  { answer := (), host, notes := [callback] }

/-- Destroys a fixed object. -/
def destroy (label : Label) (destructor : Destructor) (payload : Address) (words : List Word)
    (host : HostState)
    : Reply HostState (List Word) :=
  { answer := match destructor with
      | .log => words
      | .poke => words.map fun _ => pokedWord
    host
    notes := [s!"destroy {label payload} {Value.listText (words.map Value.mk)}"] }

/-- The host with every callback. -/
def host : Host HostState Destructor where
  mapper := .standard
  copy := copy
  scanMinor := scan Address.text "scan_minor"
  scanFull := scan Address.text "scan_full"
  scanFixedMinor := scanFixed Address.text "scan_fixed_minor"
  scanFixedFull := scanFixed Address.text "scan_fixed_full"
  extraMinorRoots := visitRoots "extra_minor_roots"
  extraFullRoots := visitRoots "extra_full_roots"
  beforeFull := noteHook "before_full"
  afterFull := noteHook "after_full"
  destroy := destroy Address.text

/-- The host with the fewest callbacks. -/
def leastHost : Host HostState Destructor where
  mapper := .standard
  copy := copy
  scanMinor := scan Address.text "scan_minor"
  scanFixedMinor := scanFixed Address.text "scan_fixed_minor"
  destroy := destroy Address.text

/-- The callbacks that a foreign host may leave out. -/
inductive OptionalCallback where
  | scanFull
  | scanFixedFull
  | extraMinorRoots
  | extraFullRoots
  | beforeFull
  | afterFull
  deriving DecidableEq, Repr

/-- The host across the boundary of words, with some of the optional callbacks. -/
def foreignCallbacks (offered : List OptionalCallback) : Foreign.Callbacks HostState Destructor :=
  let label : Label := fun addr => addr.toValue.text
  let scanRaw (callback : String) (object : Word) : Visit HostState Word :=
    Address.raw <$> scan label callback ⟨object⟩
  let scanFixedRaw (callback : String) (payload : Word) (words : Nat) : Visit HostState Unit :=
    scanFixed label callback ⟨payload⟩ words
  let offer {α : Type} (callback : OptionalCallback) (behaviour : α) : Option α :=
    if offered.contains callback then some behaviour else none
  { copy := copy
    scanMinor := scanRaw "scan_minor"
    scanFull := offer .scanFull (scanRaw "scan_full")
    scanFixedMinor := scanFixedRaw "scan_fixed_minor"
    scanFixedFull := offer .scanFixedFull (scanFixedRaw "scan_fixed_full")
    extraMinorRoots := offer .extraMinorRoots (visitRoots "extra_minor_roots")
    extraFullRoots := offer .extraFullRoots (visitRoots "extra_full_roots")
    beforeFull := offer .beforeFull (noteHook "before_full")
    afterFull := offer .afterFull (noteHook "after_full")
    destroy := fun destructor payload words host =>
      destroy label destructor ⟨payload⟩ words host }

end MovingHeap.Record
