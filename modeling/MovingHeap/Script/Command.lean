import MovingHeap.Script.Expression

/-! What a script can do with a heap, written out before it is done.
Commands name values, frames and exceptions that earlier commands were given names for.
-/

namespace MovingHeap.Script

/-- A part of memory to read out. -/
inductive Area where
  | birth
  | old
  | fixed
  deriving DecidableEq, Repr

/-- How the body of a block ends. -/
inductive Ending where
  | success
  /-- Fails with the exception of that name, or ends well if there is none. -/
  | named (name : String)
  /-- Fails with an exception that was not thrown before. -/
  | madeUp (code : Int) (payload : Expression)
  deriving Repr

/-- New modes for the host; what is absent stays. -/
structure Modes where
  copyMode : Option Record.CopyMode := none
  scanMode : Option Record.ScanMode := none
  deriving DecidableEq, Repr

/-- What a script does in one go. A value that results is kept only if the command names it; frames
and exceptions always have a name.
-/
inductive Command where
  | allocate (size : Nat) (name : Option String)
  | allocateAligned (size align : Nat) (name : Option String)
  | allocateFixed (size : Nat) (destructor : Option Record.Destructor) (executable : Bool)
      (name : Option String)
  | record (fields : List Expression) (name : Option String)
  | forget (place : Expression)
  | fixedWords (place : Expression)
  | requestFull
  | load (place : Expression)
  | read (place : Expression) (name : Option String)
  | store (place value : Expression)
  | write (place value : Expression)
  | notify (place : Expression)
  | set (name : Option String) (value : Expression)
  | evaluate (value : Expression)
  | dump (area : Area) (start : Nat) (stop : Option Nat)
  | enter (descriptor : FrameDescriptor) (params : List Expression) (name : String)
  | exit (frame : String)
  | current
  | descriptor (frame : String)
  | slot (kind : SlotKind) (frame : String) (index : Nat)
  | setSlot (kind : SlotKind) (frame : String) (index : Nat) (value : Expression)
  | throw (code : Int) (payload : Expression) (name : String)
  | loadModule (library searchPath : String) (rank : Option Nat)
  | unloadModule (rank : Nat)
  | symbol (function : String) (rank : Option Nat)
  | setModuleConstant (rank : Nat) (value : Expression)
  | moduleConstant (rank : Nat)
  | setModuleExtra (rank extra : Nat)
  | moduleInfo (rank : Nat)
  | modules
  | setConstant (index : Nat) (value : Expression)
  | constant (index : Nat)
  | constants
  | host (modes : Modes)
  | roots (values : List Expression)
  | copies
  | phase
  | classify (value : Expression)
  | isYoung (value : Expression)
  | follow (value : Expression)
  | bounds
  | contains (place : Expression)
  | statistics
  | statisticsText
  | collect (size : Nat) (full : Bool)
  | minor
  | full
  /-- A word that is no command. -/
  | unknown (word : String)
  deriving Repr, Inhabited

/-- A step of a script: a command, or a block with steps of its own. -/
inductive Statement where
  | command (command : Command)
  /-- Runs the body in a frame, which the name is bound to. -/
  | withFrame (descriptor : FrameDescriptor) (params : List Expression) (name : String)
      (body : List Statement)
  /-- Runs the body with a handler; the name, if there is one, is bound to the payload caught. -/
  | except (body : List Statement) (ending : Ending) (name : Option String)
  deriving Repr, Inhabited

/-- A step of a script that holds raw words. -/
inductive ForeignCommand where
  | allocate (size : Nat) (name : Option String)
  | allocateAligned (size align : Nat) (name : Option String)
  | record (fields : List Expression) (name : Option String)
  | allocateFixed (size : Nat) (destroyed executable : Bool) (name : Option String)
  | load (place : Expression) (name : Option String)
  | constant (index : Nat) (name : Option String)
  | follow (value : Expression) (name : Option String)
  | evaluate (value : Expression) (name : Option String)
  | isYoung (value : Expression)
  | collect (size : Nat) (full : Bool)
  | forget (place : Expression)
  | notify (place : Expression)
  | write (place value : Expression)
  | store (place value : Expression)
  | setConstant (index : Nat) (value : Expression)
  | host (modes : Modes)
  | roots (values : List Expression)
  /-- A word that is no command. -/
  | unknown (word : String)
  deriving Repr

end MovingHeap.Script
