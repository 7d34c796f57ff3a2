import MovingHeap.Mutator.Allocation
import MovingHeap.Mutator.Exceptions
import MovingHeap.Mutator.Globals
import MovingHeap.Mutator.Queries
import MovingHeap.Script.Command
import MovingHeap.Script.Libraries

/-! A heap under the control of a script: the world, the names in use and what is reported.
Every step reports its outcome, where the heap stands afterwards and the lines logged on the way.
-/

namespace MovingHeap.Script

/-- The worlds of scripts. -/
abbrev ScriptWorld := World Record.HostState Record.Destructor

/-- Which log lines a report has. -/
inductive LogMode where
  | none
  | host
  | all
  deriving DecidableEq, Repr

/-- The lines of a log, newest first, that a report has, in the order they were written. -/
def LogMode.lines (mode : LogMode) (log : List Event) : List String :=
  let shown : List Event :=
    match mode with
    | .none => []
    | .host => log.filter Event.isNote
    | .all => log
  shown.reverse.map Event.text

/-- What a step answers. -/
inductive Outcome where
  | nothing
  | value (value : Value)
  | values (list : List Value)
  | address (addr : Address)
  | word (word : Word)
  | number (n : Nat)
  | flag (flag : Bool)
  | text (text : String)
  | frame (id : Option FrameId)
  | descriptor (descriptor : FrameDescriptor)
  | thrown (thrown : Thrown)
  | blockEnded (result : Except Thrown Unit)
  | symbolRanks (ranks : List Nat)
  | moduleInfo (entry : Option Module)
  | modules (table : ModuleTable)
  | constants (table : ConstantTable)
  | kind (kind : ValueKind)
  | bounds (birth old : RegionBounds)
  | contained (birth old : Bool)
  | statistics (statistics : Statistics)

/-- Why a step has no answer. -/
inductive Failure where
  | fatal (violation : Violation)
  | module (error : ModuleError)
  | notAddress (value : Value)
  | noFrame (name : String)
  | unknownCommand (word : String)
  deriving Repr

/-- What a step reports; a step with a body also reports on the steps of the body. -/
structure Report where
  outcome : Except Failure Outcome
  body : Option (List Report) := none
  summary : String
  log : List String

/-- A world under the control of a script, with the names it has given, the latest first. -/
structure Session where
  world : ScriptWorld
  host : Host Record.HostState Record.Destructor
  logMode : LogMode
  values : List (String × Value) := []
  frames : List (String × FrameId) := []
  exceptions : List (String × Thrown) := []

/-- The session in which a name, if there is one, is bound to a value. -/
def Session.nameValue (session : Session) (name : Option String) (value : Value) : Session :=
  { session with values := (name.toList.map (·, value)) ++ session.values }

/-- The session in which a name is bound to a frame. -/
def Session.nameFrame (session : Session) (name : String) (id : FrameId) : Session :=
  { session with frames := (name, id) :: session.frames }

/-- The session in which a name is bound to an exception. -/
def Session.nameThrown (session : Session) (name : String) (thrown : Thrown) : Session :=
  { session with exceptions := (name, thrown) :: session.exceptions }

/-- A computation within a session that may fail and keeps what it did. -/
abbrev Step := EStateM Failure Session

namespace Step

/-- Acts on the world. -/
def onWorld {α : Type} (action : Action ScriptWorld α) : Step α := fun session =>
  match action session.world with
  | .ok result world => .ok result { session with world }
  | .error violation world => .error (.fatal violation) { session with world }

/-- The heap as it is. -/
def heap : Step (Heap Record.Destructor) := (·.world.heap) <$> get

/-- Answers what an operation on modules answers. -/
def ofModules {α : Type} (action : Action ScriptWorld (Except ModuleError α)) : Step α := do
  match ← onWorld action with
  | .ok result => return result
  | .error error => throw (.module error)

/-- The frame of a name. -/
def frameOf (name : String) : Step FrameId := do
  match (← get).frames.lookup name with
  | some id => return id
  | none => throw (.noFrame name)

/-- What expressions mean in a session. A slot is looked up by `slotAt`. -/
def meaning (session : Session) (slotAt : Value → Action ScriptWorld Value)
    : Expression.Meaning ScriptWorld where
  bound := fun name => session.values.lookup name
  slotAt
  frameSlot := fun name kind index =>
    match session.frames.lookup name with
    | some id => World.frameSlot id kind index
    | none => pure .null
  constant := fun index => return (← World.heapNow).constant index
  module := fun rank => return (← World.heapNow).modules.constantAt rank
  root := fun index => return ((← get).host.roots[index]?).getD .null

/-- The value in the slot at a value, null if that is no address. -/
def readIfAddress (place : Value) : Action ScriptWorld Value :=
  match place.address? with
  | some addr => World.read addr
  | none => pure .null

/-- The value of an expression. -/
def valueOf (expression : Expression) : Step Value := do
  onWorld (expression.eval (meaning (← get) readIfAddress))

/-- The address an expression has to be. -/
def addressOf (expression : Expression) : Step Address := do
  let value ← valueOf expression
  match value.address? with
  | some addr => return addr
  | none => throw (.notAddress value)

/-- Gives new modes to the host. -/
def setModes (modes : Modes) : Step Unit := modify fun session =>
  let state := session.world.host
  { session with
    world.host :=
      { state with
        copyMode := modes.copyMode.getD state.copyMode
        scanMode := modes.scanMode.getD state.scanMode } }

/-- Gives new roots to the host. -/
def setRoots (roots : List Value) : Step Unit := modify fun session =>
  { session with world.host := { session.world.host with roots := roots.toArray } }

/-- Reads consecutive slots. -/
def readMany (place : Nat → Address) : (count start : Nat) → Step (List Value)
  | 0, _ => return []
  | count + 1, start => do
      let value ← onWorld (World.read (place start))
      return value :: (← readMany place count (start + 1))

/-- Answers an address and keeps it under a name, if there is one. -/
def answerAddress (name : Option String) (addr : Address) : Step Outcome := do
  modify (·.nameValue name addr.toValue)
  return .address addr

/-- Answers a value and keeps it under a name, if there is one. -/
def answerValue (name : Option String) (value : Value) : Step Outcome := do
  modify (·.nameValue name value)
  return .value value

/-- Answers nothing. -/
def done {α : Type} (step : Step α) : Step Outcome := do
  let _ ← step
  return .nothing

/-- Stores words behind one another. -/
def storeMany (object : Address) : List Word → Step Unit
  | [] => pure ()
  | word :: words => do
      onWorld (World.store object word)
      storeMany (object.add 1) words

/-- The values of expressions, in order. -/
def valuesOf (expressions : List Expression) : Step (List Value) := expressions.mapM valueOf

/-- Does a command. -/
def perform (host : Host Record.HostState Record.Destructor) : Command → Step Outcome
  | .allocate size name => do answerAddress name (← onWorld (World.allocate host size))
  | .allocateAligned size align name => do
      answerAddress name (← onWorld (World.allocateAligned host size align))
  | .allocateFixed size destructor executable name => do
      answerAddress name (← onWorld (World.allocateFixed size destructor executable))
  | .record fields name => do
      let object ← onWorld (World.allocate host (Record.byteSize fields.length))
      let values ← valuesOf fields
      storeMany object (Record.header values.length :: values.map Value.raw)
      answerAddress name object
  | .forget place => do done (onWorld (World.forgetFixed (← addressOf place)))
  | .fixedWords place => do
      let addr ← addressOf place
      return ((World.fixedWords (← get).world addr).map Outcome.number).getD .nothing
  | .requestFull => done (onWorld (World.requestFull .requestedByUser))
  | .load place => do return .word (← onWorld (World.load (← addressOf place)))
  | .read place name => do answerValue name (← onWorld (World.read (← addressOf place)))
  | .store place value => do
      let addr ← addressOf place
      done (onWorld (World.store addr (← valueOf value).raw))
  | .write place value => do
      let addr ← addressOf place
      done (onWorld (World.write host addr (← valueOf value)))
  | .notify place => do done (onWorld (World.notifyStore host (← addressOf place)))
  | .set name value => do answerValue name (← valueOf value)
  | .evaluate value => do return .value (← valueOf value)
  | .dump area start stop => do
      let regions := (← heap).regions
      let (space, limit) :=
        match area with
        | .birth => (Space.birth, regions.birth.cursor)
        | .old => (regions.old.space, regions.old.cursor)
        | .fixed => (Space.fixed, 0)
      return .values (← readMany (Address.pack space) (stop.getD limit - start) start)
  | .enter descriptor params name => do
      let id ← onWorld (World.enterFrame descriptor (← valuesOf params))
      modify (·.nameFrame name id)
      return .frame id
  | .exit frame => do done (onWorld (World.exitFrame (← frameOf frame)))
  | .current => do return .frame (← heap).frames.current
  | .descriptor frame => do
      return .descriptor (← onWorld (World.frameDescriptor (← frameOf frame)))
  | .slot kind frame index => do
      return .value (← onWorld (World.frameSlot (← frameOf frame) kind index))
  | .setSlot kind frame index value => do
      let id ← frameOf frame
      done (onWorld (World.setFrameSlot id kind index (← valueOf value)))
  | .throw code payload name => do
      let thrown ← onWorld (World.throwException code (← valueOf payload))
      modify (·.nameThrown name thrown)
      return .thrown thrown
  | .loadModule library searchPath rank => do
      return .number (← ofModules (World.loadModule Libraries.loader library searchPath rank))
  | .unloadModule rank => done (ofModules (World.unloadModule rank))
  | .symbol function rank => do
      let heap ← heap
      match heap.moduleSymbol function rank with
      | .ok symbol => return .symbolRanks (heap.modules.ranksOf function symbol)
      | .error error => throw (.module error)
  | .setModuleConstant rank value => do
      done (ofModules (World.setModuleConstant rank (← valueOf value)))
  | .moduleConstant rank => do
      match (← heap).moduleConstant rank with
      | .ok value => return .value value
      | .error error => throw (.module error)
  | .setModuleExtra rank extra => done (ofModules (World.setModuleExtra rank extra))
  | .moduleInfo rank => do return .moduleInfo ((← heap).module? rank)
  | .modules => do return .modules (← heap).modules
  | .setConstant index value => do done (onWorld (World.setConstant index (← valueOf value)))
  | .constant index => do return .value ((← heap).constant index)
  | .constants => do return .constants (← heap).constants
  | .host modes => done (setModes modes)
  | .roots values => do done (setRoots (← valuesOf values))
  | .copies => do return .number (← get).world.host.copies
  | .phase => do return .text (← heap).phase.text
  | .classify value => do
      let value ← valueOf value
      return .kind ((← heap).classify value)
  | .isYoung value => do
      let value ← valueOf value
      return .flag ((← heap).isYoung value)
  | .follow value => do
      let value ← valueOf value
      return .value ((← heap).followOn value)
  | .bounds => do
      let heap ← heap
      return .bounds heap.birthBounds heap.oldBounds
  | .contains place => do
      let addr ← addressOf place
      let heap ← heap
      return .contained (heap.birthBounds.contains addr) (heap.oldBounds.contains addr)
  | .statistics => do return .statistics (← heap).statistics
  | .statisticsText => do return .text (← heap).statistics.text
  | .collect size full => done (onWorld (World.collect host size full))
  | .minor => done (onWorld (World.collectMinor host))
  | .full => done (onWorld (World.collectFull host))
  | .unknown word => throw (.unknownCommand word)

/-- The result of a body that ends in the given way. -/
def endingOf : Ending → Step (Except Thrown Unit)
  | .success => return .ok ()
  | .named name => do
      match (← get).exceptions.lookup name with
      | some thrown => return .error thrown
      | none => return .ok ()
  | .madeUp code payload => do
      return .error { code, payload := ← valueOf payload }

/-- Ends a block and keeps the payload it hands back under a name, if there is one. -/
def leaveBlock (block : World.Block) (ending : Ending) (name : Option String)
    : Step Outcome := do
  let result ← onWorld (World.closeBlock block (← endingOf ending))
  if let .error thrown := result then modify (·.nameValue name thrown.payload)
  return .blockEnded result

end Step

namespace Session

/-- A session over a new heap. -/
def create (config : Config) (state : Record.HostState)
    (host : Host Record.HostState Record.Destructor) (logMode : LogMode)
    : Except SetupError Session :=
  (fun world => { world, host, logMode }) <$> World.create host.mapper config state

/-- What a step came to: an outcome, the reports of its body if it got there, the session. -/
structure Progress where
  outcome : Except Failure Outcome
  body : Option (List Report)
  session : Session

/-- The progress of a step without a body. -/
def advance (session : Session) (step : Step Outcome) (body : Option (List Report) := none)
    : Progress :=
  match step session with
  | .ok outcome session => ⟨.ok outcome, body, session⟩
  | .error failure session => ⟨.error failure, body, session⟩

/-- Reports on a step. Lines logged within the steps of its body belong to those. -/
def reporting (session : Session) (go : Session → Progress) : Report × Session :=
  let before := session.world.log
  let progress := go { session with world.log := [] }
  let world := progress.session.world
  ({ outcome := progress.outcome
     body := progress.body
     summary := world.heap.summary
     log := session.logMode.lines world.log },
    { progress.session with world.log := before })

/-- Reports success in what has been logged already. -/
def opening (session : Session) : Report × Session :=
  ({ outcome := .ok .nothing
     summary := session.world.heap.summary
     log := session.logMode.lines session.world.log },
    { session with world.log := [] })

mutual

/-- Runs a step. The steps of a body see what was done before them, and the step goes on where they
have led.
-/
def run (session : Session) : Statement → Report × Session
  | .command command =>
      session.reporting fun session => session.advance (Step.perform session.host command)
  | .withFrame descriptor params name body =>
      session.reporting fun session =>
        match Step.valuesOf params session with
        | .error failure session => ⟨.error failure, none, session⟩
        | .ok values session =>
            match Step.onWorld (World.enterFrame descriptor values) session with
            | .error failure session => ⟨.error failure, some [], session⟩
            | .ok id session =>
                let (reports, session) := (session.nameFrame name id).runAll body
                session.advance (do
                  Step.onWorld (World.exitFrame id)
                  return .frame id) reports
  | .except body ending name =>
      session.reporting fun session =>
        match Step.onWorld World.openBlock session with
        | .error failure session => ⟨.error failure, none, session⟩
        | .ok block session =>
            let (reports, session) := session.runAll body
            session.advance (Step.leaveBlock block ending name) reports

/-- Runs steps one after another; a failed one does not keep the next from running. -/
def runAll (session : Session) : List Statement → List Report × Session
  | [] => ([], session)
  | statement :: statements =>
      let (report, session) := session.run statement
      let (reports, session) := session.runAll statements
      (report :: reports, session)

end

end Session

end MovingHeap.Script
