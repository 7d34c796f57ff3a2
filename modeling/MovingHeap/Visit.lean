import MovingHeap.Violation

/-! What a host may do while the collector lets it look at an object or at its own roots.
A visit is a finite program over the state `σ` of the host; it says what is done, the collector
decides what comes of it.
-/

namespace MovingHeap

/-- A program of visiting steps that ends with an `α`, stops for good or is refused. -/
inductive Visit (σ α : Type) : Type where
  | done (result : α)
  /-- Looks at the state of the host. -/
  | getHost (next : σ → Visit σ α)
  /-- Replaces the state of the host. -/
  | setHost (host : σ) (next : Visit σ α)
  /-- Logs a line. -/
  | note (line : String) (next : Visit σ α)
  /-- Asks whether a full collection is running. -/
  | isFull (next : Bool → Visit σ α)
  /-- Reads a word of managed memory. -/
  | load (addr : Address) (next : Word → Visit σ α)
  /-- Reads consecutive words of managed memory. -/
  | words (addr : Address) (count : Nat) (next : List Word → Visit σ α)
  /-- Forwards the reference in a slot and puts the result back. -/
  | visitSlot (slot : Address) (next : Visit σ α)
  /-- Forwards a reference that the host keeps. -/
  | visitValue (value : Value) (next : Value → Visit σ α)
  /-- Asks for memory, which is refused while a collection runs. -/
  | allocate
  /-- Asks for a collection, which is refused while one runs. -/
  | collect
  /-- Stops because the host broke a rule that its binding checks. -/
  | fail (violation : Violation)

namespace Visit

variable {σ α β : Type}

/-- Continues a program where it ends. -/
def bind : Visit σ α → (α → Visit σ β) → Visit σ β
  | done result, rest => rest result
  | getHost next, rest => getHost fun host => (next host).bind rest
  | setHost host next, rest => setHost host (next.bind rest)
  | note line next, rest => note line (next.bind rest)
  | isFull next, rest => isFull fun full => (next full).bind rest
  | load addr next, rest => load addr fun word => (next word).bind rest
  | words addr count next, rest => words addr count fun list => (next list).bind rest
  | visitSlot slot next, rest => visitSlot slot (next.bind rest)
  | visitValue value next, rest => visitValue value fun moved => (next moved).bind rest
  | allocate, _ => allocate
  | collect, _ => collect
  | fail violation, _ => fail violation

instance : Monad (Visit σ) where
  pure := done
  bind := bind

/-- A program that ends at once is continued at once. -/
@[simp] theorem pure_bind (result : α) (rest : α → Visit σ β)
    : (done result).bind rest = rest result := rfl

/-- Ending where a program ends changes nothing, by induction over its steps. -/
@[simp] theorem bind_pure (visit : Visit σ α) : visit.bind done = visit := by
  induction visit with
  | isFull next ih => exact congrArg isFull (funext ih)
  | _ => simp_all [bind]

/-- Continuations compose, by induction over the steps of the first program. -/
theorem bind_assoc {γ : Type} (visit : Visit σ α) (first : α → Visit σ β)
    (second : β → Visit σ γ)
    : (visit.bind first).bind second = visit.bind fun result => (first result).bind second := by
  induction visit with
  | isFull next ih => exact congrArg isFull (funext ih)
  | _ => simp_all [bind]

/-- Visits obey the laws of sequencing. -/
instance : LawfulMonad (Visit σ) :=
  LawfulMonad.mk' (Visit σ) bind_pure (fun _ _ => rfl) bind_assoc

/-- The state of the host. -/
def host : Visit σ σ := getHost done

/-- Puts the state of the host in place. -/
def putHost (state : σ) : Visit σ Unit := setHost state (done ())

/-- Logs a line. -/
def log (line : String) : Visit σ Unit := note line (done ())

/-- Reads a word. -/
def read (addr : Address) : Visit σ Word := load addr done

/-- Reads consecutive words. -/
def readMany (addr : Address) (count : Nat) : Visit σ (List Word) := words addr count done

/-- Forwards the reference in a slot. -/
def slot (addr : Address) : Visit σ Unit := visitSlot addr (done ())

/-- Forwards a value. -/
def value (kept : Value) : Visit σ Value := visitValue kept done

end Visit

end MovingHeap
