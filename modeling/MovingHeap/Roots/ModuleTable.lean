import MovingHeap.Roots.Library
import MovingHeap.Value
import Std.Data.TreeMap

/-! Loaded modules by rank; each owns one constant, which is a root.
A watermark remembers the lowest rank whose constant changed, so that minor collections look at no
module below it.
-/

namespace MovingHeap

/-- What a rank is in use by. -/
structure Module where
  name : String
  /-- The path its library was opened from. -/
  path : String
  library : Library
  constant : Value := .null
  /-- Data of the host, not looked at. -/
  extra : Nat := 0
  deriving DecidableEq, Repr

/-- Why an operation on modules was refused. -/
inductive ModuleError where
  | notFound (name searchPath : String)
  | unloadable (name : String)
  | rankInUse (rank : Nat)
  | invalidRank (rank limit : Nat)
  | noSuchRank (rank : Nat)
  | missingSymbol (name : String)
  | tableFull (limit : Nat)
  deriving DecidableEq, Repr

/-- The wording of a refusal. -/
def ModuleError.message : ModuleError → String
  | notFound name searchPath => s!"module `{name}` not found in search path `{searchPath}`"
  | unloadable name => s!"failed to load module `{name}`"
  | rankInUse rank => s!"module rank {rank} is already in use"
  | invalidRank rank limit => s!"module rank {rank} is out of range (1..{limit})"
  | noSuchRank rank => s!"no module loaded at rank {rank}"
  | missingSymbol name => s!"symbol `{name}` not found"
  | tableFull limit => s!"module table is full ({limit} modules)"

/-- Modules by rank. Ranks run from 1 to before `limit`; a watermark of 0 means that no constant
changed.
-/
structure ModuleTable where
  entries : Std.TreeMap Nat Module := ∅
  limit : Nat
  watermark : Nat := 0

namespace ModuleTable

/-- The module at a rank. -/
def get? (table : ModuleTable) (rank : Nat) : Option Module := table.entries[rank]?

/-- The module at a rank; a rank out of use is refused. -/
def get (table : ModuleTable) (rank : Nat) : Except ModuleError Module :=
  match table.get? rank with
  | some entry => .ok entry
  | none => .error (.noSuchRank rank)

/-- The number of loaded modules. -/
def size (table : ModuleTable) : Nat := table.entries.size

/-- Whether no module is loaded. -/
def isEmpty (table : ModuleTable) : Bool := table.size == 0

/-- The ranks in use, ascending. -/
def ranks (table : ModuleTable) : List Nat := table.entries.keys

/-- Lowers the watermark to `rank`. -/
def touch (table : ModuleTable) (rank : Nat) : ModuleTable :=
  if table.watermark = 0 ∨ rank < table.watermark then { table with watermark := rank } else table

/-- Puts a module at a rank. -/
def put (table : ModuleTable) (rank : Nat) (entry : Module) : ModuleTable :=
  { table with entries := table.entries.insert rank entry }

/-- The first unused one of the `count` ranks from `rank` on. -/
def firstUnused? (table : ModuleTable) : (count rank : Nat) → Option Nat
  | 0, _ => none
  | count + 1, rank =>
      if (table.get? rank).isNone then some rank else table.firstUnused? count (rank + 1)

/-- The rank a new module gets: the one asked for, or the lowest that is not in use. -/
def claim (table : ModuleTable) : (wanted : Option Nat) → Except ModuleError Nat
  | some rank =>
      if rank = 0 ∨ table.limit ≤ rank then .error (.invalidRank rank table.limit)
      else if (table.get? rank).isSome then .error (.rankInUse rank)
      else .ok rank
  | none =>
      match table.firstUnused? (table.limit - 1) 1 with
      | some rank => .ok rank
      | none => .error (.tableFull table.limit)

/-- The first candidate that the loader opens, with its path. -/
def openFirst? (loader : Loader) (name searchPath : String) : Option (String × Library) :=
  (loader.candidates name searchPath).findSome? fun path => (loader.open? path).map (path, ·)

/-- Registers a module under the rank it claimed, with a null constant. -/
def register (table : ModuleTable) (loader : Loader) (name searchPath : String) (rank : Nat)
    : Except ModuleError ModuleTable :=
  match openFirst? loader name searchPath with
  | some (path, library) => .ok ((table.put rank { name, path, library }).touch rank)
  | none =>
      if (loader.candidates name searchPath).isEmpty then .error (.notFound name searchPath)
      else .error (.unloadable name)

/-- Drops the module at a rank; the watermark stays. -/
def unload (table : ModuleTable) (rank : Nat) : Except ModuleError (Module × ModuleTable) :=
  (fun entry => (entry, { table with entries := table.entries.erase rank })) <$> table.get rank

/-- The function `name` of the module at a rank, or of the first module that has it. -/
def symbol (table : ModuleTable) (name : String) : (rank : Option Nat) → Except ModuleError Symbol
  | some rank => do
      match (← table.get rank).library.symbol? name with
      | some symbol => return symbol
      | none => throw (.missingSymbol name)
  | none =>
      match table.entries.values.findSome? (·.library.symbol? name) with
      | some symbol => .ok symbol
      | none => .error (.missingSymbol name)

/-- The ranks below the limit whose module has the given function. -/
def ranksOf (table : ModuleTable) (name : String) (symbol : Symbol) : List Nat :=
  table.ranks.filter fun rank =>
    rank < table.limit && (table.get? rank).any (·.library.symbol? name == some symbol)

/-- The constant of the module at a rank, null without one. -/
def constantAt (table : ModuleTable) (rank : Nat) : Value :=
  ((table.get? rank).map Module.constant).getD .null

/-- Replaces the constant of the module at a rank without touching the watermark. -/
def replaceConstant (table : ModuleTable) (rank : Nat) (constant : Value) : ModuleTable :=
  match table.get? rank with
  | some entry => table.put rank { entry with constant }
  | none => table

/-- The constant of the module at a rank. -/
def constant (table : ModuleTable) (rank : Nat) : Except ModuleError Value :=
  Module.constant <$> table.get rank

/-- Sets the constant of the module at a rank. -/
def setConstant (table : ModuleTable) (rank : Nat) (constant : Value)
    : Except ModuleError ModuleTable :=
  (fun entry => (table.put rank { entry with constant }).touch rank) <$> table.get rank

/-- Sets the host's data of the module at a rank. -/
def setExtra (table : ModuleTable) (rank extra : Nat) : Except ModuleError ModuleTable :=
  (fun entry => table.put rank { entry with extra }) <$> table.get rank

/-- The ranks a full collection looks at. -/
def roots (table : ModuleTable) : List Nat := table.ranks

/-- The ranks a minor collection looks at: those from the watermark on, if there is one. -/
def changedRoots (table : ModuleTable) : List Nat :=
  if table.watermark = 0 then [] else table.ranks.filter (table.watermark ≤ ·)

/-- Forgets which constants changed. -/
def clearChanged (table : ModuleTable) : ModuleTable := { table with watermark := 0 }

/-- A module put at a rank is found there and nowhere else. -/
theorem get?_put (table : ModuleTable) (rank other : Nat) (entry : Module)
    : (table.put rank entry).get? other
      = if rank = other then some entry else table.get? other := by
  simp [put, get?, Std.TreeMap.getElem?_insert]

/-- The rank found is unused, and every rank tried before it is in use. -/
theorem firstUnused?_eq_some {table : ModuleTable} {count rank found : Nat}
    (h : table.firstUnused? count rank = some found)
    : rank ≤ found ∧ found < rank + count ∧ table.get? found = none
      ∧ ∀ other, rank ≤ other → other < found → (table.get? other).isSome := by
  fun_induction firstUnused? table count rank with
  | case1 => cases h
  | case2 count rank unused =>
      cases h
      exact ⟨Nat.le_refl _, by omega, by simpa using unused, by omega⟩
  | case3 count rank used ih =>
      obtain ⟨lower, upper, unused, others⟩ := ih h
      refine ⟨by omega, by omega, unused, fun other above below => ?_⟩
      by_cases same : other = rank
      · subst same
        simpa [Option.isSome_iff_ne_none] using used
      · exact others other (by omega) below

end ModuleTable

end MovingHeap
