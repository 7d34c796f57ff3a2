import MovingHeap.Foreign.Interface
import MovingHeap.Script.Session

/-! A heap under the control of a script that holds raw words.
There is nobody to hand a violation to, so the first one ends the session.
-/

namespace MovingHeap.Script

/-- What a step of a foreign session reports. -/
inductive ForeignReport where
  | completed (report : Report)
  /-- The session ended here; what the step logged is lost. -/
  | aborted (violation : Violation)

namespace ForeignSession

/-- The value of an expression, in which slots are looked up by raw words. -/
def valueOf (expression : Expression) : Step Value := do
  let meaning := Step.meaning (← get) fun place => Value.mk <$> Foreign.load place.raw
  Step.onWorld (expression.eval meaning)

/-- The word of an expression. -/
def wordOf (expression : Expression) : Step Word := Value.raw <$> valueOf expression

/-- Answers a word as a value and keeps it under a name, if there is one. -/
def answer (name : Option String) (word : Word) : Step Outcome := Step.answerValue name ⟨word⟩

/-- Stores words behind one another. -/
def storeMany (object : Word) : List Word → Step Unit
  | [] => pure ()
  | word :: words => do
      Step.onWorld (Foreign.store object word)
      storeMany (object + 8) words

/-- Does a command. -/
def perform (host : Host Record.HostState Record.Destructor) : ForeignCommand → Step Outcome
  | .allocate size name => do answer name (← Step.onWorld (Foreign.allocate host size))
  | .allocateAligned size align name => do
      answer name (← Step.onWorld (Foreign.allocateAligned host size align))
  | .record fields name => do
      let object ← Step.onWorld (Foreign.allocate host (Record.byteSize fields.length))
      let words ← fields.mapM wordOf
      storeMany object (Record.header words.length :: words)
      answer name object
  | .allocateFixed size destroyed executable name => do
      let destructor := if destroyed then some Record.Destructor.log else none
      answer name (← Step.onWorld (Foreign.allocateFixed size destructor executable))
  | .load place name => do answer name (← Step.onWorld (Foreign.load (← wordOf place)))
  | .constant index name => do answer name (Foreign.constant (← Step.heap) index)
  | .follow value name => do
      let word ← wordOf value
      answer name (Foreign.followForwards (← Step.heap) word)
  | .evaluate value name => do Step.answerValue name (← valueOf value)
  | .isYoung value => do
      let word ← wordOf value
      return .flag (Foreign.isYoung (← Step.heap) word)
  | .collect size full => Step.done (Step.onWorld (World.collect host size full))
  | .forget place => do Step.done (Step.onWorld (Foreign.forgetFixed (← wordOf place)))
  | .notify place => do Step.done (Step.onWorld (Foreign.notifyStore host (← wordOf place)))
  | .write place value => do
      let slot ← wordOf place
      Step.done (Step.onWorld (Foreign.write host slot (← wordOf value)))
  | .store place value => do
      let addr ← wordOf place
      Step.done (Step.onWorld (Foreign.store addr (← wordOf value)))
  | .setConstant index value => do
      Step.done (Step.onWorld (Foreign.setConstant index (← wordOf value)))
  | .host modes => Step.done (Step.setModes modes)
  | .roots values => do Step.done (Step.setRoots (← values.mapM valueOf))
  | .unknown word => throw (.unknownCommand word)

/-- A session over a new heap; what its creation logged belongs to the first step. -/
def create? (config : Config) (state : Record.HostState)
    (offered : List Record.OptionalCallback) (logMode : LogMode)
    : Option Session :=
  (Foreign.create? .standard config state).map fun world =>
    { world, host := (Record.foreignCallbacks offered).toHost .standard, logMode }

/-- Runs commands one after another until a violation ends the session. -/
def runAll (session : Session) : List ForeignCommand → List ForeignReport
  | [] => []
  | command :: commands =>
      let progress := session.advance (perform session.host command)
      match progress.outcome with
      | .error (.fatal violation) => [.aborted violation]
      | outcome =>
          let (report, session) := progress.session.opening
          .completed { report with outcome } :: runAll session commands

end ForeignSession

end MovingHeap.Script
