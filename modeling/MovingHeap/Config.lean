import MovingHeap.Value

/-! The sizes a heap is built with and the reasons for which it cannot be built.
A configuration is checked once, before any memory is asked for; the first fault is reported.
-/

namespace MovingHeap

/-- A minor collection runs once this many words are left between cursor and remembered slots. -/
def storeBufferSlack : Nat := 4

/-- The smallest margin a configuration may ask for. -/
def minSafetyMargin : Nat := 2 * storeBufferSlack

/-- How a heap is set up. -/
structure Config where
  /-- Bytes of the birth region, remembered slots included. -/
  birthSize : Nat := 4 * 1024 * 1024
  /-- Bytes of an old semispace; a full collection takes a larger one if the survivors need it. -/
  oldSize : Nat := 32 * 1024 * 1024
  /-- Words kept free between the allocation cursor and the remembered slots. -/
  safetyMargin : Nat := 64
  /-- Global constant slots to begin with, a power of two. -/
  constantCapacity : Nat := 1024
  /-- Module ranks, rank 0 included. -/
  maxModules : Nat := 256
  /-- Live fixed bytes that make the heap schedule a full collection. -/
  fixedThreshold : Nat := 8 * 1024 * 1024
  /-- Whether slots among the last remembered ones are not recorded again. -/
  storeBufferDedup : Bool := true
  /-- Whether every collection is summed up in the log. -/
  verbose : Bool := false
  deriving DecidableEq, Repr, Inhabited

/-- What is wrong with a configuration. -/
inductive ConfigFault where
  | marginTooSmall (margin : Nat)
  | birthTooSmall (words : Nat)
  | oldBelowBirth (oldSize birthSize : Nat)
  | oldTooLarge (oldSize : Nat)
  | capacityNotPowerOfTwo (capacity : Nat)
  | noModuleRank
  deriving DecidableEq, Repr

/-- The wording of a configuration fault. -/
def ConfigFault.message : ConfigFault → String
  | marginTooSmall margin => s!"safety margin of {margin} words is below {minSafetyMargin}"
  | birthTooSmall words => s!"birth region of {words} words cannot hold twice the safety margin"
  | oldBelowBirth oldSize birthSize =>
      s!"old region ({oldSize} bytes) is smaller than the birth region ({birthSize} bytes)"
  | oldTooLarge oldSize => s!"old region of {oldSize} bytes is too large"
  | capacityNotPowerOfTwo capacity => s!"constant capacity {capacity} is not a power of two"
  | noModuleRank => "at least one module rank is required"

/-- Why no heap could be set up. -/
inductive SetupError where
  | invalidConfig (fault : ConfigFault)
  /-- Memory for a region, in bytes, cannot be had. -/
  | unmapped (region : String) (size : Nat)
  deriving DecidableEq, Repr

/-- The wording of a setup error. -/
def SetupError.message : SetupError → String
  | invalidConfig fault => s!"invalid heap configuration: {fault.message}"
  | unmapped region size => s!"failed to map the {region} region ({size} bytes)"

namespace Config

/-- Words of the birth region. -/
def birthWords (config : Config) : Nat := config.birthSize / wordBytes

/-- Words of an old semispace. -/
def oldWords (config : Config) : Nat := config.oldSize / wordBytes

/-- The fixed words below which no full collection is scheduled. -/
def fixedThresholdWords (config : Config) : Nat := config.fixedThreshold / wordBytes

/-- The first fault of a configuration. -/
def fault? (config : Config) : Option ConfigFault :=
  if config.safetyMargin < minSafetyMargin then some (.marginTooSmall config.safetyMargin)
  else if config.birthWords < 2 * config.safetyMargin then some (.birthTooSmall config.birthWords)
  else if config.oldSize < config.birthSize then
    some (.oldBelowBirth config.oldSize config.birthSize)
  else if maxOffsetWords / 4 < config.oldWords then some (.oldTooLarge config.oldSize)
  else if !isPowerOfTwo config.constantCapacity then
    some (.capacityNotPowerOfTwo config.constantCapacity)
  else if config.maxModules < 2 then some .noModuleRank
  else none

/-- Accepts a configuration without faults. -/
def validate (config : Config) : Except SetupError Unit :=
  match config.fault? with
  | some fault => .error (.invalidConfig fault)
  | none => .ok ()

end Config

end MovingHeap
