import MovingHeap.Memory.Regions
import MovingHeap.Phase
import MovingHeap.Roots.ConstantTable
import MovingHeap.Roots.ExceptStack
import MovingHeap.Roots.FrameStack
import MovingHeap.Roots.ModuleTable
import MovingHeap.Statistics

/-! A heap: its memory, everything that keeps objects alive and what it counts.
Roots are named by where they are, so that a collection can update them one by one.
-/

namespace MovingHeap

/-- A generational heap whose destructors go by the names `δ`. -/
structure Heap (δ : Type) where
  config : Config
  regions : Regions δ
  frames : FrameStack := {}
  handlers : ExceptStack := {}
  modules : ModuleTable
  constants : ConstantTable
  phase : Phase := .idle
  /-- Why the next allocation begins with a full collection. -/
  pendingFull : Option Reason := none
  /-- Live fixed words above which a full collection becomes pending. -/
  fixedThreshold : Nat
  /-- Collections begun, which numbers the next one. -/
  collections : Nat := 0
  counters : Counters := {}

/-- Where a reference is kept outside of managed memory. -/
inductive Root where
  | slot (frame : FrameId) (position : Nat)
  /-- The payload thrown to a handler. -/
  | pending (handler : Nat)
  | module (rank : Nat)
  | constant (index : Nat)
  deriving DecidableEq, Repr

namespace Heap

variable {δ : Type}

/-- An empty heap, if the configuration has no fault and its regions can be had. -/
def create (mapper : Mapper) (config : Config) : Except SetupError (Heap δ) := do
  config.validate
  match mapper.map? config.birthWords, mapper.map? config.oldWords with
  | none, _ => throw (.unmapped "birth" config.birthSize)
  | _, none => throw (.unmapped "old" config.oldSize)
  | some birth, some old =>
      return {
        config
        regions :=
          { birth := .ofArena birth config.safetyMargin, old := { space := .oldA, words := old } }
        modules := { limit := config.maxModules }
        constants := .withCapacity config.constantCapacity
        fixedThreshold := config.fixedThresholdWords }

/-- The slots of the frames, innermost first. -/
def frameRoots (heap : Heap δ) : List Root :=
  heap.frames.roots.map fun (frame, position) => .slot frame position

/-- The payloads on their way to a handler, outermost first. -/
def pendingRoots (heap : Heap δ) : List Root := heap.handlers.roots.map .pending

/-- The constants of modules that may hold birth references. -/
def changedModuleRoots (heap : Heap δ) : List Root := heap.modules.changedRoots.map .module

/-- The constants of all modules. -/
def moduleRoots (heap : Heap δ) : List Root := heap.modules.roots.map .module

/-- The global constants that may hold birth references. -/
def dirtyConstantRoots (heap : Heap δ) : List Root := heap.constants.dirtyRoots.map .constant

/-- All global constants. -/
def constantRoots (heap : Heap δ) : List Root := heap.constants.roots.map .constant

/-- All roots a full collection starts from, in order. -/
def fullRoots (heap : Heap δ) : List Root :=
  heap.frameRoots ++ heap.pendingRoots ++ heap.moduleRoots ++ heap.constantRoots

/-- What a root holds. -/
def rootValue (heap : Heap δ) : Root → Value
  | .slot frame position => heap.frames.slotAt frame position
  | .pending handler => heap.handlers.payloadAt handler
  | .module rank => heap.modules.constantAt rank
  | .constant index => heap.constants.get index

/-- Replaces what a root holds; nothing is marked as changed. -/
def setRoot (heap : Heap δ) (root : Root) (value : Value) : Heap δ :=
  match root with
  | .slot frame position => { heap with frames := heap.frames.setSlotAt frame position value }
  | .pending handler => { heap with handlers := heap.handlers.setPayloadAt handler value }
  | .module rank => { heap with modules := heap.modules.replaceConstant rank value }
  | .constant index => { heap with constants := heap.constants.replace index value }

/-- The counters and what the regions hold at the moment. -/
def statistics (heap : Heap δ) : Statistics :=
  let regions := heap.regions
  { heap.counters with
    fixedLive := regions.fixed.liveObjects
    fixedLiveBytes := regions.fixed.liveWords * wordBytes
    birthUsed := regions.birth.cursor * wordBytes
    birthCapacity := regions.birth.capacity * wordBytes
    remembered := regions.birth.rememberedCount
    oldUsed := regions.old.cursor * wordBytes
    oldCapacity := regions.old.capacity * wordBytes }

/-- A line on where the heap stands. -/
def summary (heap : Heap δ) : String :=
  let regions := heap.regions
  let counters := heap.counters
  s!"{heap.phase.text} b{regions.birth.cursor} r{regions.birth.rememberedCount} "
    ++ s!"{regions.old.next.text}/{regions.old.capacity} "
    ++ s!"f{regions.fixed.liveObjects}/{regions.fixed.liveWords * wordBytes} "
    ++ s!"g{counters.minorCollections}/{counters.fullCollections} "
    ++ s!"d{heap.frames.depth} e{heap.handlers.depth}"

/-- Updating roots leaves memory alone, whichever root it is. -/
@[simp] theorem regions_setRoot (heap : Heap δ) (root : Root) (value : Value)
    : (heap.setRoot root value).regions = heap.regions := by
  cases root <;> rfl

/-- Updating roots leaves the collector's state alone, whichever root it is. -/
@[simp] theorem phase_setRoot (heap : Heap δ) (root : Root) (value : Value)
    : (heap.setRoot root value).phase = heap.phase := by
  cases root <;> rfl

end Heap

end MovingHeap
