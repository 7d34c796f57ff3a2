import MovingHeap.Mutator.Queries
import MovingHeap.Proofs.Likeness
import MovingHeap.Proofs.Steadiness

/-! Programs of a mutator that keeps references in roots only.
A program names the places where it keeps values and never an address, so that it can be run on any heap,
with collections in between that it did not ask for.
-/

namespace MovingHeap

variable {σ δ α β : Type}

-----------------------------------------------------------------------------------------
-- Places
-----------------------------------------------------------------------------------------

/-- Where a mutator keeps a value. -/
inductive Place where
  | slot (frame : FrameId) (kind : SlotKind) (index : Nat)
  | module (rank : Nat)
  | constant (index : Nat)

/-- What a mutator hands on: a word of its own, or what it keeps at a place. -/
inductive Operand where
  | word (raw : Word)
  | place (place : Place)

namespace Place

/-- The root at the place; a declared slot of a live frame is one. -/
def root? (stack : FrameStack) : Place → Option Root
  | slot frame kind index => (stack.position frame kind index).toOption.map (.slot frame)
  | module rank => some (.module rank)
  | constant index => some (.constant index)

/-- What is kept at the place. -/
def value (world : World σ δ) (place : Place) : Value :=
  ((place.root? world.heap.frames).map world.heap.rootValue).getD .null

/-- Looks up what is kept at the place. -/
def read : Place → Action (World σ δ) Value
  | slot frame kind index => World.frameSlot frame kind index
  | module rank => return ((← World.heapNow).moduleConstant rank).toOption.getD .null
  | constant index => return (← World.heapNow).constant index

/-- Keeps a value at the place. -/
def write (place : Place) (value : Value) : Action (World σ δ) Unit :=
  match place with
  | slot frame kind index => World.setFrameSlot frame kind index value
  | module rank => (fun _ => ()) <$> World.setModuleConstant rank value
  | constant index => World.setConstant index value

/-- The object that is referred to at the place. -/
def referent (place : Place) : Action (World σ δ) Address := do
  let value ← place.read
  World.require value.address? (.danglingReference value.raw)

end Place

namespace Operand

/-- What is handed on. -/
def value (world : World σ δ) : Operand → Value
  | .word raw => ⟨raw⟩
  | .place there => there.value world

/-- Looks up what is handed on. -/
def read : Operand → Action (World σ δ) Value
  | .word raw => return ⟨raw⟩
  | .place there => there.read

/-- The operand is no reference that the mutator made up. -/
def IsHonest : Operand → Prop
  | .word raw => (Value.mk raw).address? = none
  | .place _ => True

/-- The places that the operand names. -/
def places : Operand → List Place
  | .word _ => []
  | .place there => [there]

end Operand

-----------------------------------------------------------------------------------------
-- Instructions
-----------------------------------------------------------------------------------------

/-- What a mutator does at a time. -/
inductive Instruction where
  | put (target : Place) (source : Operand)
  /-- Allocates an object, aligned perhaps, with the given words. -/
  | record (target : Place) (align : Option Nat) (words : List Operand)
  /-- Allocates a fixed object without destructor. -/
  | fixed (target : Place) (size : Nat) (executable : Bool)
  | read (target source : Place) (index : Nat)
  | write (target : Place) (index : Nat) (source : Operand)
  | enter (descriptor : FrameDescriptor) (params : List Operand)
  | exit (frame : FrameId)
  | integer (source : Place)
  /-- Reads a word that holds data. -/
  | datum (source : Place) (index : Nat)
  | isNull (source : Place)
  | equal (first second : Place)

/-- What a mutator learns from an instruction. -/
inductive Answer where
  | nothing
  | frame (id : FrameId)
  | integer (integer : Option Int)
  | datum (word : Word)
  | truth (holds : Bool)
  deriving DecidableEq, Repr

/-- Writes the words of a new object, one after another. -/
def initialise (object : Address) : (index : Nat) → List Operand → Action (World σ δ) Unit
  | _, [] => return ()
  | index, operand :: rest => do
      World.store (object.add index) (← operand.read).raw
      initialise object (index + 1) rest

/-- Looks up what is handed on, one after another. -/
def readAll : List Operand → Action (World σ δ) (List Value)
  | [] => return []
  | operand :: rest => do
      let value ← operand.read
      return value :: (← readAll rest)

namespace Instruction

/-- The memory of a record. -/
def claim (host : Host σ δ) (size : Nat) : (align : Option Nat) → Action (World σ δ) Address
  | none => World.allocate host size
  | some align => World.allocateAligned host size align

/-- What the instruction does. -/
def run (host : Host σ δ) : Instruction → Action (World σ δ) Answer
  | put target source => do
      target.write (← source.read)
      return .nothing
  | record target align words => do
      let object ← claim host (words.length * wordBytes) align
      initialise object 0 words
      target.write object.toValue
      return .nothing
  | fixed target size executable => do
      let object ← World.allocateFixed size none executable
      target.write object.toValue
      return .nothing
  | read target source index => do
      let object ← source.referent
      target.write (← World.read (object.add index))
      return .nothing
  | write target index source => do
      let object ← target.referent
      World.write host (object.add index) (← source.read)
      return .nothing
  | enter descriptor params => do
      return .frame (← World.enterFrame descriptor (← readAll params))
  | exit frame => do
      World.exitFrame frame
      return .nothing
  | integer source => return .integer (← source.read).integer?
  | datum source index => do
      let object ← source.referent
      return .datum (← World.load (object.add index))
  | isNull source => return .truth (← source.read).isNull
  | equal first second => return .truth ((← first.read) == (← second.read))

/-- The places that the instruction names. -/
def places : Instruction → List Place
  | put target source => target :: source.places
  | record target _ words => target :: words.flatMap Operand.places
  | fixed target _ _ => [target]
  | read target source _ => [target, source]
  | write target _ source => target :: source.places
  | enter _ params => params.flatMap Operand.places
  | exit _ => []
  | integer source | datum source _ | isNull source => [source]
  | equal first second => [first, second]

/-- The words that operands make, zero behind their end. -/
def template (world : World σ δ) (words : List Operand) (index : Nat) : Word :=
  ((words[index]?.map (Operand.value world)).getD .null).raw

/-- The words are those of an object, all of which are given. References are in its slots only, and the
mutator made up none of them.
-/
structure Describes (layout : Layout) (world : World σ δ) (words : List Operand) : Prop where
  isObject : layout.IsObject (template world words)
  size : layout.size (template world words) ≤ words.length
  honest
    : ∀ index operand,
        words[index]? = some operand →
        layout.IsSlot (template world words) index →
        operand.IsHonest
  data
    : ∀ index place,
        words[index]? = some (.place place) →
        layout.IsSlot (template world words) index ∨ (place.value world).address? = none

/-- The instruction does what can be done to the objects at the places: it reads and writes their fields
and reads their data, allocates objects with all of their words and makes up no reference. The first
word of a moving object is never made zero.
-/
def Proper (layout : Layout) (world : World σ δ) : Instruction → Prop
  | put _ source => source.IsHonest
  | record _ _ words => Describes layout world words
  | read _ source index =>
      ∀ object,
        (source.value world).address? = some object →
        world.heap.regions.IsField layout object index
  | write target index source =>
      source.IsHonest
      ∧ ∀ object,
          (target.value world).address? = some object →
          world.heap.regions.IsField layout object index
          ∧ (object.space ≠ .fixed → index = 0 → source.value world ≠ .null)
  | enter _ params => ∀ operand ∈ params, operand.IsHonest
  | datum source index =>
      ∀ object,
        (source.value world).address? = some object →
        world.heap.regions.IsDatum layout object index
  | fixed .. | exit _ | integer _ | isNull _ | equal .. => True

end Instruction

-----------------------------------------------------------------------------------------
-- Programs
-----------------------------------------------------------------------------------------

/-- A collection that the program did not ask for. -/
inductive Extra where
  | minor
  | full

/-- Runs the collection. -/
def Extra.run (host : Host σ δ) : Extra → Action (World σ δ) Unit
  | minor => World.collectMinor host
  | full => World.collectFull host

/-- Runs the collections, one after another. -/
def Extra.runAll (host : Host σ δ) : List Extra → Action (World σ δ) Unit
  | [] => return ()
  | extra :: rest => do
      extra.run host
      runAll host rest

/-- Instructions one after another. -/
abbrev Program := List Instruction

namespace Program

/-- Runs the program, with collections before each instruction as planned, and answers what it learns
step by step.
-/
def run (host : Host σ δ) : (plan : List (List Extra)) → Program → Action (World σ δ) (List Answer)
  | _, [] => return []
  | plan, instruction :: rest => do
      Extra.runAll host (plan.headD [])
      let answer ← instruction.run host
      return answer :: (← run host plan.tail rest)

/-- In the run, every instruction does what can be done to the objects at its places. -/
def Proper (layout : Layout) (host : Host σ δ)
    : (plan : List (List Extra)) → Program → World σ δ → Prop
  | _, [], _ => True
  | plan, instruction :: rest, world =>
      Runs (Extra.runAll host (plan.headD [])) world
        (fun _ ready =>
          instruction.Proper layout ready
          ∧ Runs (instruction.run host) ready
              (fun _ next => Proper layout host plan.tail rest next)
              fun _ _ => True)
        fun _ _ => True

/-- Modules that the program names are loaded. -/
def Links (program : Program) (world : World σ δ) : Prop :=
  ∀ instruction ∈ program, ∀ rank,
    .module rank ∈ instruction.places → (world.heap.modules.get? rank).isSome

end Program

end MovingHeap
