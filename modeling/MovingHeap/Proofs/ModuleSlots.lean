import Mathlib.Data.List.Sort
import MovingHeap.Mutator.Globals
import MovingHeap.Proofs.RootChanges
import MovingHeap.Proofs.RootWalks

/-! Loaded modules in a list with holes.
Ranks are places in the list, which grows when a place behind its end is taken, and the modules from the
watermark on are a slice of it. Such a list never reaches past its end, and does, step by step, what the
table of modules by rank does.
-/

namespace MovingHeap

variable {τ σ δ : Type}

/-- What can be asked of modules. Which files are libraries may change from one loading to the next. -/
inductive ModuleRequest where
  | load (loader : Loader) (name searchPath : String) (wanted : Option Nat)
  | unload (rank : Nat)
  | setConstant (rank : Nat) (value : Value)
  | setExtra (rank extra : Nat)

/-- What can be done to modules; visitors share what they know. A collection that a violation stops does
not end, and leaves the watermark where it is.
-/
inductive ModuleCommand (τ : Type) where
  | request (request : ModuleRequest)
  | collect (full ends : Bool) (visit : Value → τ → Value × τ)

/-- What a command is answered with: the rank of the module that was loaded, if one was. -/
abbrev ModuleAnswer := Except ModuleError (Option Nat)

-----------------------------------------------------------------------------------------
-- The commands of a table
-----------------------------------------------------------------------------------------

namespace ModuleTable

/-- How the constants of modules are read and replaced. -/
def access : PlaceAccess ModuleTable Nat where
  read := constantAt
  replace := replaceConstant

/-- The ranks a collection looks at. -/
def visited (table : ModuleTable) (full : Bool) : List Nat :=
  if full then table.roots else table.changedRoots

/-- Lets a visitor replace the constants a collection looks at. -/
def walk (table : ModuleTable) (full : Bool) (visit : Value → τ → Value × τ) (host : τ)
    : ModuleTable × τ :=
  access.walk visit (table.visited full) table host

/-- Serves a request, unless it is refused. -/
def serve (table : ModuleTable) : ModuleRequest → Except ModuleError (Option Nat × ModuleTable)
  | .load loader name searchPath wanted => do
      let rank ← table.claim wanted
      let loaded ← table.register loader name searchPath rank
      return (some rank, loaded)
  | .unload rank => (fun unloaded => (none, unloaded.2)) <$> table.unload rank
  | .setConstant rank value => (none, ·) <$> table.setConstant rank value
  | .setExtra rank extra => (none, ·) <$> table.setExtra rank extra

/-- Does what a command says; a request that is refused changes nothing. -/
def obey (table : ModuleTable) (host : τ) : ModuleCommand τ → ModuleAnswer × ModuleTable × τ
  | .request request =>
      match table.serve request with
      | .ok (rank, changed) => (.ok rank, changed, host)
      | .error error => (.error error, table, host)
  | .collect full ends visit =>
      let walked := table.walk full visit host
      (.ok none, if ends then walked.1.clearChanged else walked.1, walked.2)

end ModuleTable

/-- What a request asks of a world. -/
def ModuleRequest.action : ModuleRequest → Action (World σ δ) ModuleAnswer
  | .load loader name searchPath wanted =>
      Except.map some <$> World.loadModule loader name searchPath wanted
  | .unload rank => Except.map (fun _ => none) <$> World.unloadModule rank
  | .setConstant rank value => Except.map (fun _ => none) <$> World.setModuleConstant rank value
  | .setExtra rank extra => Except.map (fun _ => none) <$> World.setModuleExtra rank extra

-----------------------------------------------------------------------------------------
-- The list form
-----------------------------------------------------------------------------------------

/-- Modules in a list whose places are ranks; a place without a module is a hole. What would reach past the
end of the list has no result.
-/
structure ModuleSlots where
  entries : List (Option Module) := [none]
  limit : Nat
  watermark : Nat := 0

namespace ModuleSlots

/-- The module at a rank. -/
def get? (slots : ModuleSlots) (rank : Nat) : Option Module := slots.entries[rank]?.join

/-- Lowers the watermark to `rank`. -/
def touch (slots : ModuleSlots) (rank : Nat) : ModuleSlots :=
  if slots.watermark = 0 ∨ rank < slots.watermark then { slots with watermark := rank } else slots

/-- Puts a module at a place, or makes a hole of it. -/
def put (slots : ModuleSlots) (rank : Nat) (entry : Option Module) : ModuleSlots :=
  { slots with entries := slots.entries.set rank entry }

/-- Adds holes until there is a place for `rank`. -/
def grownFor (slots : ModuleSlots) (rank : Nat) : ModuleSlots :=
  { slots with entries := slots.entries ++ List.replicate (rank + 1 - slots.entries.length) none }

/-- The rank a new module gets: the one asked for, or the lowest that is not in use. -/
def claim (slots : ModuleSlots) : (wanted : Option Nat) → Except ModuleError Nat
  | some rank =>
      if rank = 0 ∨ slots.limit ≤ rank then .error (.invalidRank rank slots.limit)
      else if (slots.get? rank).isSome then .error (.rankInUse rank)
      else .ok rank
  | none =>
      match (List.range' 1 (slots.limit - 1)).find? fun rank => (slots.get? rank).isNone with
      | some rank => .ok rank
      | none => .error (.tableFull slots.limit)

/-- Tries some files, one after the other. Where the loader opens none, the answer is whether it failed to
open one.
-/
def tryEach (loader : Loader) : List String → (failed : Bool) → Except Bool (String × Library)
  | [], failed => .error failed
  | path :: paths, _ =>
      match loader.open? path with
      | some library => .ok (path, library)
      | none => tryEach loader paths true

/-- Loads a module at a rank of its own, with a null constant. -/
def load? (slots : ModuleSlots) (loader : Loader) (name searchPath : String) (wanted : Option Nat)
    : Option (ModuleAnswer × ModuleSlots) :=
  match slots.claim wanted with
  | .error error => some (.error error, slots)
  | .ok rank =>
      match tryEach loader (loader.candidates name searchPath) false with
      | .ok (path, library) =>
          let wide := slots.grownFor rank
          if rank < wide.entries.length then
            some (.ok (some rank), (wide.put rank (some { name, path, library })).touch rank)
          else none
      | .error true => some (.error (.unloadable name), slots)
      | .error false => some (.error (.notFound name searchPath), slots)

/-- Changes what is at a rank in use. -/
def change (slots : ModuleSlots) (rank : Nat) (changed : Module → ModuleSlots)
    : ModuleAnswer × ModuleSlots :=
  match slots.get? rank with
  | some entry => (.ok none, changed entry)
  | none => (.error (.noSuchRank rank), slots)

/-- Serves a request, unless it is refused. -/
def serve? (slots : ModuleSlots) : ModuleRequest → Option (ModuleAnswer × ModuleSlots)
  | .load loader name searchPath wanted => slots.load? loader name searchPath wanted
  | .unload rank => some (slots.change rank fun _ => slots.put rank none)
  | .setConstant rank value =>
      some (slots.change rank fun entry =>
        (slots.put rank (some { entry with constant := value })).touch rank)
  | .setExtra rank extra =>
      some (slots.change rank fun entry => slots.put rank (some { entry with extra }))

/-- Lets a visitor replace the constants of some modules; holes are passed over. -/
def visitEntries (visit : Value → τ → Value × τ)
    : List (Option Module) → τ → List (Option Module) × τ
  | [], host => ([], host)
  | none :: entries, host =>
      let rest := visitEntries visit entries host
      (none :: rest.1, rest.2)
  | some entry :: entries, host =>
      let answer := visit entry.constant host
      let rest := visitEntries visit entries answer.2
      (some { entry with constant := answer.1 } :: rest.1, rest.2)

/-- Lets a visitor replace the constants of the modules from a place on. -/
def visitFrom? (slots : ModuleSlots) (start : Nat) (visit : Value → τ → Value × τ) (host : τ)
    : Option (ModuleSlots × τ) :=
  if start ≤ slots.entries.length then
    let visited := visitEntries visit (slots.entries.drop start) host
    some ({ slots with entries := slots.entries.take start ++ visited.1 }, visited.2)
  else none

/-- Lets a visitor replace the constants a collection looks at. -/
def walk? (slots : ModuleSlots) (full : Bool) (visit : Value → τ → Value × τ) (host : τ)
    : Option (ModuleSlots × τ) :=
  if full then slots.visitFrom? 0 visit host
  else if slots.watermark = 0 then some (slots, host)
  else slots.visitFrom? slots.watermark visit host

/-- Does what a command says. -/
def obey? (slots : ModuleSlots) (host : τ)
    : ModuleCommand τ → Option (ModuleAnswer × ModuleSlots × τ)
  | .request request => (fun served => (served.1, served.2, host)) <$> slots.serve? request
  | .collect full ends visit =>
      (fun walked =>
        (.ok none, if ends then { walked.1 with watermark := 0 } else walked.1, walked.2))
        <$> slots.walk? full visit host

/-- Does what some commands say and collects the answers. -/
def obeyAll? (slots : ModuleSlots) (host : τ)
    : List (ModuleCommand τ) → Option (List ModuleAnswer × ModuleSlots × τ)
  | [] => some ([], slots, host)
  | command :: commands => do
      let (answer, slots, host) ← slots.obey? host command
      let (answers, final) ← slots.obeyAll? host commands
      return (answer :: answers, final)

end ModuleSlots

-----------------------------------------------------------------------------------------
-- Walks over a table
-----------------------------------------------------------------------------------------

namespace ModuleTable

variable {table : ModuleTable}

/-- Only the constant of the module at the rank changes. -/
theorem get?_replaceConstant (rank : Nat) (constant : Value) (other : Nat)
    : (table.replaceConstant rank constant).get? other
      = if other = rank then (table.get? rank).map fun entry => { entry with constant }
        else table.get? other := by
  unfold replaceConstant
  cases found : table.get? rank with
  | none =>
      split_ifs with same
      · rw [same, found]
        rfl
      · rfl
  | some entry => simp only [get?_put, eq_comm, Option.map_some]

theorem lawful_access : access.Lawful fun table rank => (table.get? rank).isSome where
  read_replace {table rank} used value other := by
    simp only [access, constantAt, get?_replaceConstant]
    obtain ⟨entry, found⟩ := Option.isSome_iff_exists.mp used
    split_ifs with same
    · rw [found]
      rfl
    · rfl
  present_replace {table} rank value {other} used := by
    change ((table.replaceConstant rank value).get? other).isSome
    rw [get?_replaceConstant]
    split_ifs with same
    · rw [same] at used
      rwa [Option.isSome_map]
    · exact used

/-- Walks change nothing but constants. -/
theorem walk_outline (visit : Value → τ → Value × τ) (keys : List Nat) (table : ModuleTable) (host : τ)
    : let walked := (access.walk visit keys table host).1
      (∀ rank,
        walked.get? rank
        = (table.get? rank).map fun entry => { entry with constant := walked.constantAt rank })
      ∧ walked.limit = table.limit
      ∧ walked.watermark = table.watermark := by
  refine PlaceAccess.walk_keeps access
    (fun walked => (∀ rank, walked.get? rank
        = (table.get? rank).map fun entry => { entry with constant := walked.constantAt rank })
      ∧ walked.limit = table.limit ∧ walked.watermark = table.watermark) ?_ visit keys ?_ host
  · intro walked rank value ⟨entries, limit, watermark⟩
    refine ⟨fun other => ?_, ?_, ?_⟩
    · change (walked.replaceConstant rank value).get? other = (table.get? other).map fun entry =>
        { entry with constant := (walked.replaceConstant rank value).constantAt other }
      rw [constantAt, get?_replaceConstant]
      split_ifs with same
      · rw [same, entries rank]
        cases table.get? rank <;> rfl
      · exact entries other
    · rw [← limit]
      simp only [access, replaceConstant]
      split <;> rfl
    · rw [← watermark]
      simp only [access, replaceConstant]
      split <;> rfl
  · refine ⟨fun rank => ?_, rfl, rfl⟩
    simp only [constantAt]
    cases table.get? rank <;> rfl

/-- The ranks in use are in order. -/
theorem pairwise_ranks (table : ModuleTable) : table.ranks.Pairwise (· < ·) :=
  Std.TreeMap.ordered_keys.imp fun less => Nat.compare_eq_lt.mp less

theorem mem_ranks_iff {rank : Nat} : rank ∈ table.ranks ↔ (table.get? rank).isSome := by
  rw [ranks, Std.TreeMap.mem_keys, Std.TreeMap.mem_iff_isSome_getElem?, get?]

/-- A collection looks at ranks in use, in order: at all of them, or at those from the watermark on. -/
theorem pairwise_visited (table : ModuleTable) (full : Bool)
    : (table.visited full).Pairwise (· < ·)
      ∧ ∀ rank,
          rank ∈ table.visited full
          ↔ (table.get? rank).isSome ∧ (full ∨ table.watermark ≠ 0 ∧ table.watermark ≤ rank) := by
  cases full with
  | true => exact ⟨table.pairwise_ranks, fun rank => by simp [visited, roots, mem_ranks_iff]⟩
  | false =>
      by_cases unchanged : table.watermark = 0
      · simp [visited, changedRoots, unchanged]
      · refine ⟨?_, fun rank => ?_⟩
        · simpa [visited, changedRoots, unchanged] using table.pairwise_ranks.filter _
        · simp [visited, changedRoots, unchanged, mem_ranks_iff]

end ModuleTable

namespace ModuleSlots

-----------------------------------------------------------------------------------------
-- Lists and tables of the same modules
-----------------------------------------------------------------------------------------

/-- A list holds the modules of a table at their ranks, and reaches up to the watermark. -/
structure Lists (slots : ModuleSlots) (table : ModuleTable) : Prop where
  reads : ∀ rank, slots.get? rank = table.get? rank
  limit : slots.limit = table.limit
  watermark : slots.watermark = table.watermark
  inside : slots.watermark ≤ slots.entries.length

variable {slots : ModuleSlots} {table : ModuleTable}

theorem lists_empty (limit : Nat) : Lists { limit } { limit } where
  reads rank := by
    cases rank with
    | zero => simp [get?, ModuleTable.get?]
    | succ rank => simp [get?, ModuleTable.get?]
  limit := rfl
  watermark := rfl
  inside := Nat.zero_le _

/-- A module is at a place of the list. -/
theorem lt_length {rank : Nat} (used : (slots.get? rank).isSome) : rank < slots.entries.length := by
  by_contra outside
  rw [get?, List.getElem?_eq_none (Nat.le_of_not_lt outside)] at used
  cases used

/-- What is put at a place of the list is found there, and nothing else changes. -/
theorem get?_put {rank : Nat} (there : rank < slots.entries.length) (entry : Option Module)
    (other : Nat)
    : (slots.put rank entry).get? other = if rank = other then entry else slots.get? other := by
  rw [put, get?, List.getElem?_set, get?]
  by_cases same : rank = other
  · subst same
    simp [there]
  · simp [same]

@[simp] theorem length_put (rank : Nat) (entry : Option Module)
    : (slots.put rank entry).entries.length = slots.entries.length :=
  List.length_set

/-- Holes behind the end hold nothing. -/
@[simp] theorem get?_grownFor (rank other : Nat)
    : (slots.grownFor rank).get? other = slots.get? other := by
  rw [get?, grownFor, get?, List.getElem?_append, List.getElem?_replicate]
  split_ifs with inside
  · rfl
  · rw [List.getElem?_eq_none (Nat.le_of_not_lt inside)]
    rfl
  · rw [List.getElem?_eq_none (Nat.le_of_not_lt inside)]

/-- Touching a place of the list keeps the watermark inside. -/
theorem Lists.touch (lists : slots.Lists table) {rank : Nat} (there : rank < slots.entries.length)
    : (slots.touch rank).Lists (table.touch rank) := by
  unfold ModuleSlots.touch ModuleTable.touch
  rw [lists.watermark]
  split_ifs
  · exact ⟨lists.reads, lists.limit, rfl, Nat.le_of_lt there⟩
  · exact lists

/-- Putting a module at a place of the list puts it at its rank. -/
theorem Lists.put (lists : slots.Lists table) {rank : Nat} (there : rank < slots.entries.length)
    (entry : Module)
    : (slots.put rank (some entry)).Lists (table.put rank entry) where
  reads other := by rw [get?_put there, ModuleTable.get?_put, lists.reads]
  limit := lists.limit
  watermark := lists.watermark
  inside := by
    rw [length_put]
    exact lists.inside

theorem Lists.grownFor (lists : slots.Lists table) (rank : Nat) : (slots.grownFor rank).Lists table where
  reads other := by rw [get?_grownFor, lists.reads]
  limit := lists.limit
  watermark := lists.watermark
  inside := lists.inside.trans (by simp [ModuleSlots.grownFor])

/-- The first hole is the first unused rank. -/
theorem Lists.find?_range' (lists : slots.Lists table) (count rank : Nat)
    : ((List.range' rank count).find? fun rank => (slots.get? rank).isNone)
      = table.firstUnused? count rank := by
  induction count generalizing rank with
  | zero => rfl
  | succ count ih =>
      rw [List.range'_succ, List.find?_cons, ModuleTable.firstUnused?, lists.reads, ih]
      cases (table.get? rank).isNone <;> rfl

/-- Both forms give a new module the same rank. -/
theorem Lists.claim_eq (lists : slots.Lists table) (wanted : Option Nat)
    : slots.claim wanted = table.claim wanted := by
  cases wanted with
  | some rank => simp only [claim, ModuleTable.claim, lists.limit, lists.reads]
  | none =>
      cases first : table.firstUnused? (table.limit - 1) 1 <;>
        simp [claim, ModuleTable.claim, lists.limit, lists.find?_range', first]

/-- Trying files one after the other finds the first one that opens. -/
theorem tryEach_eq (loader : Loader) (paths : List String) (failed : Bool)
    : tryEach loader paths failed
      = match paths.findSome? fun path => (loader.open? path).map (path, ·) with
        | some found => .ok found
        | none => .error (failed || !paths.isEmpty) := by
  induction paths generalizing failed with
  | nil => simp [tryEach]
  | cons path paths ih =>
      rw [tryEach, List.findSome?_cons]
      cases loader.open? path with
      | some library => rfl
      | none => simp [ih]

/-- What the list form answers, and the list it leaves, are what the table's are: a request that is refused
leaves the list as it was.
-/
def Agrees (slots : ModuleSlots) (answer : ModuleAnswer) (served : ModuleSlots)
    : Except ModuleError (Option Nat × ModuleTable) → Prop
  | .ok (rank, changed) => answer = .ok rank ∧ served.Lists changed
  | .error error => answer = .error error ∧ served = slots

/-- Changing what is at a rank is the same in the list form if the changes are. -/
theorem Lists.change (lists : slots.Lists table) (rank : Nat) {changed : Module → ModuleSlots}
    {other : Module → ModuleTable}
    (same
      : rank < slots.entries.length → ∀ entry, table.get? rank = some entry → (changed entry).Lists (other entry))
    : let answer := slots.change rank changed
      slots.Agrees answer.1 answer.2 ((fun entry => (none, other entry)) <$> table.get rank) := by
  rw [ModuleSlots.change, ModuleTable.get, lists.reads]
  cases found : table.get? rank with
  | none => exact ⟨rfl, rfl⟩
  | some entry =>
      have used : (slots.get? rank).isSome := by rw [lists.reads, found]; rfl
      exact ⟨rfl, same (lt_length used) entry found⟩

/-- Loading has a result in the list form, the same. -/
theorem Lists.load (lists : slots.Lists table) (loader : Loader) (name searchPath : String)
    (wanted : Option Nat)
    : ∃ answer served,
        slots.load? loader name searchPath wanted = some (answer, served)
        ∧ slots.Agrees answer served (table.serve (.load loader name searchPath wanted)) := by
  simp only [load?, ModuleTable.serve, lists.claim_eq]
  cases table.claim wanted with
  | error error => exact ⟨_, _, rfl, rfl, rfl⟩
  | ok rank =>
      simp only [tryEach_eq, ModuleTable.register, ModuleTable.openFirst?]
      cases List.findSome? _ (loader.candidates name searchPath) with
      | none =>
          cases empty : (loader.candidates name searchPath).isEmpty with
          | false => exact ⟨_, _, rfl, rfl, rfl⟩
          | true => exact ⟨_, _, rfl, rfl, rfl⟩
      | some found =>
          obtain ⟨path, library⟩ := found
          have there : rank < (slots.grownFor rank).entries.length := by
            simp only [ModuleSlots.grownFor, List.length_append, List.length_replicate]
            omega
          have put := (lists.grownFor rank).put there { name, path, library }
          refine ⟨.ok (some rank), _, if_pos there, rfl, put.touch ?_⟩
          rwa [length_put]

/-- A request has a result in the list form, the same. -/
theorem Lists.serve (lists : slots.Lists table) (request : ModuleRequest)
    : ∃ answer served,
        slots.serve? request = some (answer, served)
        ∧ slots.Agrees answer served (table.serve request) := by
  cases request with
  | load loader name searchPath wanted => exact lists.load loader name searchPath wanted
  | unload rank =>
      refine ⟨(slots.change rank _).1, (slots.change rank _).2, rfl, ?_⟩
      rw [ModuleTable.serve, ModuleTable.unload, Functor.map_map]
      refine lists.change rank fun there entry _ => ?_
      refine ⟨fun other => ?_, lists.limit, lists.watermark, ?_⟩
      · rw [get?_put there, ModuleTable.get?, Std.TreeMap.getElem?_erase, lists.reads, ModuleTable.get?]
        simp
      · rw [length_put]
        exact lists.inside
  | setConstant rank value =>
      refine ⟨(slots.change rank _).1, (slots.change rank _).2, rfl, ?_⟩
      rw [ModuleTable.serve, ModuleTable.setConstant, Functor.map_map]
      refine lists.change rank fun there entry _ => (lists.put there _).touch ?_
      rwa [length_put]
  | setExtra rank extra =>
      refine ⟨(slots.change rank _).1, (slots.change rank _).2, rfl, ?_⟩
      rw [ModuleTable.serve, ModuleTable.setExtra, Functor.map_map]
      exact lists.change rank fun there entry _ => lists.put there _

-----------------------------------------------------------------------------------------
-- Walks over a list
-----------------------------------------------------------------------------------------

/-- The ranks of the modules of a list whose first place has the rank `start`. -/
def ranksFrom : (start : Nat) → List (Option Module) → List Nat
  | _, [] => []
  | start, none :: entries => ranksFrom (start + 1) entries
  | start, some _ :: entries => start :: ranksFrom (start + 1) entries

theorem mem_ranksFrom {entries : List (Option Module)} {start rank : Nat}
    : rank ∈ ranksFrom start entries ↔ start ≤ rank ∧ (entries[rank - start]?.join).isSome := by
  induction entries generalizing start with
  | nil => simp [ranksFrom]
  | cons entry entries ih =>
      have later : start + 1 ≤ rank → (entry :: entries)[rank - start]? = entries[rank - (start + 1)]? := by
        intro above
        rw [show rank - start = rank - (start + 1) + 1 by omega, List.getElem?_cons_succ]
      have split : start ≤ rank ↔ rank = start ∨ start + 1 ≤ rank := by omega
      cases entry with
      | none =>
          rw [ranksFrom, ih, split]
          constructor
          · intro ⟨above, used⟩
            exact ⟨.inr above, by rwa [later above]⟩
          · rintro ⟨rfl | above, used⟩
            · simp at used
            · exact ⟨above, by rwa [← later above]⟩
      | some entry =>
          rw [ranksFrom, List.mem_cons, ih, split]
          constructor
          · rintro (rfl | ⟨above, used⟩)
            · exact ⟨.inl rfl, by simp⟩
            · exact ⟨.inr above, by rwa [later above]⟩
          · rintro ⟨rfl | above, used⟩
            · exact .inl rfl
            · exact .inr ⟨above, by rwa [← later above]⟩

theorem pairwise_ranksFrom (start : Nat) (entries : List (Option Module))
    : (ranksFrom start entries).Pairwise (· < ·) := by
  induction entries generalizing start with
  | nil => exact .nil
  | cons entry entries ih =>
      cases entry with
      | none => exact ih (start + 1)
      | some entry =>
          refine List.pairwise_cons.mpr ⟨fun rank member => ?_, ih (start + 1)⟩
          exact (mem_ranksFrom.mp member).1

@[simp] theorem length_visitEntries (visit : Value → τ → Value × τ) (entries : List (Option Module))
    (host : τ)
    : (visitEntries visit entries host).1.length = entries.length := by
  induction entries generalizing host with
  | nil => rfl
  | cons entry entries ih => cases entry <;> simp [visitEntries, ih]

/-- Visiting a list is visiting the constants of its modules, each of which is found by its rank. -/
theorem visitEntries_eq (visit : Value → τ → Value × τ) (constantAt : Nat → Value) (start : Nat)
    (entries : List (Option Module))
    (held
      : ∀ place entry, entries[place]? = some (some entry) → constantAt (start + place) = entry.constant)
    (host : τ)
    : let keys := ranksFrom start entries
      let answers := visitAll visit (keys.map constantAt) host
      (visitEntries visit entries host).2 = answers.2
      ∧ ∀ place : Nat,
          (visitEntries visit entries host).1[place]?
          = (entries[place]?).map fun entry =>
              entry.map fun entry =>
                { entry with
                  constant := ((keys.zip answers.1).lookup (start + place)).getD entry.constant } := by
  induction entries generalizing start host with
  | nil => exact ⟨rfl, fun place => rfl⟩
  | cons entry entries ih =>
      have rest : ∀ place entry, entries[place]? = some (some entry) →
          constantAt (start + 1 + place) = entry.constant := by
        intro place entry found
        rw [show start + 1 + place = start + (place + 1) by omega]
        exact held (place + 1) entry found
      cases entry with
      | none =>
          obtain ⟨known, answered⟩ := ih (start + 1) rest host
          refine ⟨known, fun place => ?_⟩
          cases place with
          | zero => rfl
          | succ place =>
              rw [show start + (place + 1) = start + 1 + place by omega]
              exact answered place
      | some entry =>
          have here : constantAt start = entry.constant := held 0 entry rfl
          obtain ⟨known, answered⟩ := ih (start + 1) rest (visit entry.constant host).2
          simp only [ranksFrom, List.map_cons, visitAll, here, visitEntries]
          refine ⟨known, fun place => ?_⟩
          cases place with
          | zero => simp
          | succ place =>
              have differs : (start + (place + 1) == start) = false := beq_false_of_ne (by omega)
              simp only [List.getElem?_cons_succ, List.zip_cons_cons, List.lookup_cons, differs]
              rw [show start + (place + 1) = start + 1 + place by omega]
              exact answered place

/-- Visiting the modules from a place on is the walk over their ranks. -/
theorem Lists.visitFrom? (lists : slots.Lists table) {start : Nat}
    (inside : start ≤ slots.entries.length) {keys : List Nat}
    (listed : keys = ranksFrom start (slots.entries.drop start)) (visit : Value → τ → Value × τ)
    (host : τ)
    : let walked := ModuleTable.access.walk visit keys table host
      ∃ visited,
        slots.visitFrom? start visit host = some (visited, walked.2)
        ∧ visited.Lists walked.1 := by
  intro walked
  have place : ∀ rank, start ≤ rank → (slots.entries.drop start)[rank - start]? = slots.entries[rank]? := by
    intro rank above
    rw [List.getElem?_drop, Nat.add_sub_cancel' above]
  have used : ∀ rank ∈ keys, start ≤ rank ∧ (table.get? rank).isSome := by
    intro rank member
    rw [listed] at member
    obtain ⟨above, used⟩ := mem_ranksFrom.mp member
    rw [place rank above, ← get?, lists.reads] at used
    exact ⟨above, used⟩
  obtain ⟨known, answered⟩ := visitEntries_eq visit table.constantAt start (slots.entries.drop start)
    (fun place entry found => by
      rw [List.getElem?_drop] at found
      rw [ModuleTable.constantAt, ← lists.reads, get?, found]
      rfl) host
  rw [← listed] at known answered
  have once : keys.Nodup := listed ▸ (pairwise_ranksFrom start (slots.entries.drop start)).nodup
  obtain ⟨known', held⟩ := ModuleTable.lawful_access.walk_eq visit once
    (fun rank member => (used rank member).2) host
  obtain ⟨outline, limit, watermark⟩ := ModuleTable.walk_outline visit keys table host
  refine ⟨_, (if_pos inside).trans (congrArg some (Prod.ext rfl (known.trans known'.symm))), fun rank => ?_,
    lists.limit.trans limit.symm, lists.watermark.trans watermark.symm, ?_⟩
  · have held : walked.1.constantAt rank
        = ((keys.zip (visitAll visit (keys.map table.constantAt) host).1).lookup rank).getD
          (table.constantAt rank) := held rank
    have before : (slots.entries.take start).length = start := List.length_take_of_le inside
    rw [outline, held, ModuleTable.constantAt, ← lists.reads, get?, get?, List.getElem?_append, before]
    split_ifs with early
    · have unlisted : (keys.zip (visitAll visit (keys.map table.constantAt) host).1).lookup rank = none := by
        rw [List.lookup_eq_none_iff]
        intro pair member
        have above := (used pair.1 (List.of_mem_zip member).1).1
        simp only [bne_iff_ne, ne_eq]
        omega
      rw [List.getElem?_take_of_lt early, unlisted]
      cases slots.entries[rank]?.join <;> rfl
    · have above := Nat.le_of_not_lt early
      rw [answered, place rank above, Nat.add_sub_cancel' above]
      cases slots.entries[rank]? with
      | none => rfl
      | some entry => cases entry <;> rfl
  · rw [List.length_append, List.length_take_of_le inside, length_visitEntries, List.length_drop]
    have bound := lists.inside
    change slots.watermark ≤ _
    omega

/-- A walk has a result in the list form, the same. -/
theorem Lists.walk (lists : slots.Lists table) (full : Bool) (visit : Value → τ → Value × τ) (host : τ)
    : ∃ walked,
        slots.walk? full visit host = some (walked, (table.walk full visit host).2)
        ∧ walked.Lists (table.walk full visit host).1 := by
  have same : ∀ start, (∀ rank, rank ∈ table.visited full ↔ (table.get? rank).isSome ∧ start ≤ rank) →
      table.visited full = ranksFrom start (slots.entries.drop start) := by
    intro start member
    refine (table.pairwise_visited full).1.eq_of_mem_iff (pairwise_ranksFrom _ _) fun rank => ?_
    rw [member, mem_ranksFrom, and_comm]
    refine and_congr_right fun above => ?_
    rw [List.getElem?_drop, Nat.add_sub_cancel' above, ← get?, lists.reads]
  have listed := (table.pairwise_visited full).2
  rw [walk?, ModuleTable.walk]
  cases full with
  | true => exact lists.visitFrom? (Nat.zero_le _) (same 0 fun rank => by simp [listed]) visit host
  | false =>
      rw [if_neg (by decide), lists.watermark]
      by_cases unchanged : table.watermark = 0
      · have nothing : table.visited false = [] :=
          List.eq_nil_iff_forall_not_mem.mpr fun rank => by simp [listed, unchanged]
        rw [nothing, if_pos unchanged]
        exact ⟨slots, rfl, lists⟩
      · rw [if_neg unchanged]
        exact lists.visitFrom? (lists.watermark ▸ lists.inside)
          (same table.watermark fun rank => by simp [listed, unchanged]) visit host

/-- A command has a result in the list form, the same. -/
theorem Lists.obey (lists : slots.Lists table) (host : τ) (command : ModuleCommand τ)
    : let obeyed := table.obey host command
      ∃ next,
        slots.obey? host command = some (obeyed.1, next, obeyed.2.2)
        ∧ next.Lists obeyed.2.1 := by
  intro obeyed
  cases command with
  | request request =>
      obtain ⟨answer, served, done, agrees⟩ := lists.serve request
      simp only [obeyed, ModuleTable.obey, obey?, done]
      cases served : table.serve request with
      | ok changed =>
          rw [served] at agrees
          exact ⟨_, by rw [agrees.1]; rfl, agrees.2⟩
      | error error =>
          rw [served] at agrees
          exact ⟨slots, by rw [agrees.1, agrees.2]; rfl, lists⟩
  | collect full ends visit =>
      obtain ⟨walked, done, same⟩ := lists.walk full visit host
      simp only [obeyed, ModuleTable.obey, obey?, done]
      cases ends with
      | false => exact ⟨walked, rfl, same⟩
      | true => exact ⟨_, rfl, same.reads, same.limit, rfl, Nat.zero_le _⟩

end ModuleSlots

end MovingHeap
