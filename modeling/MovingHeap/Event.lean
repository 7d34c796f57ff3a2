import MovingHeap.ByteSize
import MovingHeap.Text.Quoted
import MovingHeap.Violation

/-! What a heap and its host report as they run.
A report is a line; hosts write theirs themselves, those of the heap start with their level.
-/

namespace MovingHeap

/-- Something worth a line in the log. Sizes are in bytes. -/
inductive Event where
  /-- A line of the host. -/
  | note (line : String)
  | initialized (birthSize oldSize : Nat)
  | phaseChanged (before after : Phase)
  | slotRemembered (slot : Address)
  | minorFinished (id promoted : Nat)
  | fullFinished (id copied fixedReclaimed : Nat)
  | pausedYoung (id : Nat) (reason : Reason) (promoted oldUsed : Nat)
  | pausedFull (id : Nat) (reason : Reason) (before after fixedReclaimed fixedLive : Nat)
  | moduleLoaded (name : String) (rank : Nat)
  | moduleUnloaded (name : String) (rank : Nat)
  | moduleFailed (name searchPath : String)
  | fatal (violation : Violation)
  deriving DecidableEq, Repr

namespace Event

/-- Whether the line is one of the host. -/
def isNote : Event → Bool
  | note _ => true
  | _ => false

/-- The line of an event. -/
def text : Event → String
  | note line => line
  | initialized birthSize oldSize =>
      s!"DEBUG heap initialized birth={ByteSize.text birthSize} old={ByteSize.text oldSize}"
  | phaseChanged before after => s!"DEBUG gc phase from={before.text} to={after.text}"
  | slotRemembered slot => s!"TRACE slot remembered slot={slot.text}"
  | minorFinished id promoted => s!"DEBUG minor collection finished id={id} promoted={promoted}"
  | fullFinished id copied fixedReclaimed =>
      s!"DEBUG full collection finished id={id} copied={copied} fixed_reclaimed={fixedReclaimed}"
  | pausedYoung id reason promoted oldUsed =>
      s!"INFO [gc] GC({id}) Pause Young ({reason.text}) Promoted {ByteSize.text promoted} "
        ++ s!"(old space: {ByteSize.text oldUsed})"
  | pausedFull id reason before after fixedReclaimed fixedLive =>
      s!"INFO [gc] GC({id}) Pause Full ({reason.text}) "
        ++ s!"{ByteSize.text before}->{ByteSize.text after} "
        ++ s!"(fixed: {fixedReclaimed} reclaimed, {ByteSize.text fixedLive} live)"
  | moduleLoaded name rank => s!"DEBUG module loaded module={Text.quoted name} rank={rank}"
  | moduleUnloaded name rank => s!"DEBUG module unloaded module={Text.quoted name} rank={rank}"
  | moduleFailed name searchPath =>
      s!"WARN module load failed module={Text.quoted name} "
        ++ s!"search_path={Text.quoted searchPath}"
  | fatal violation => s!"ERROR fatal collector error: {violation.message}"

end Event

end MovingHeap
