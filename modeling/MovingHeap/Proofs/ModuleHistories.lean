import MovingHeap.Proofs.ModuleSlots

/-! What modules tell of what was done to them.
Of everything that happened to modules a record is kept, without any table. Which ranks are in use and by
what, what constants hold and which ranks have changed can be read from that record, and the table agrees
with it after any commands.
-/

namespace MovingHeap

variable {τ σ δ : Type}

/-- Something that happened to modules. -/
inductive ModuleEvent where
  | loaded (rank : Nat) (name path : String) (library : Library)
  | unloaded (rank : Nat)
  | wrote (rank : Nat) (value : Value)
  | attached (rank extra : Nat)
  /-- What visitors answered for the ranks they were shown. -/
  | moved (answers : List (Nat × Value))
  | collected

namespace ModuleEvent

/-- The name, path and library of the module that was loaded last at a rank, unless it was unloaded. The
last event of a record is in front.
-/
def tenant : List ModuleEvent → Nat → Option (String × String × Library)
  | [], _ => none
  | .loaded taken name path library :: earlier, rank =>
      if rank = taken then some (name, path, library) else tenant earlier rank
  | .unloaded left :: earlier, rank => if rank = left then none else tenant earlier rank
  | _ :: earlier, rank => tenant earlier rank

/-- What was last written to the constant of the current module at a rank, or answered for it, else
null.
-/
def recalled : List ModuleEvent → Nat → Value
  | [], _ => .null
  | .loaded taken .. :: earlier, rank => if rank = taken then .null else recalled earlier rank
  | .wrote written value :: earlier, rank => if rank = written then value else recalled earlier rank
  | .moved answers :: earlier, rank => (answers.lookup rank).getD (recalled earlier rank)
  | _ :: earlier, rank => recalled earlier rank

/-- What was last attached to the current module at a rank, else nothing. -/
def extra : List ModuleEvent → Nat → Nat
  | [], _ => 0
  | .loaded taken .. :: earlier, rank => if rank = taken then 0 else extra earlier rank
  | .attached marked data :: earlier, rank => if rank = marked then data else extra earlier rank
  | _ :: earlier, rank => extra earlier rank

/-- What is known of the module at a rank. -/
def told (events : List ModuleEvent) (rank : Nat) : Option Module :=
  (tenant events rank).map fun (name, path, library) =>
    { name, path, library, constant := recalled events rank, extra := extra events rank }

/-- The ranks at which a module was loaded or a constant written since the last collection. -/
def changed : List ModuleEvent → List Nat
  | [] => []
  | .loaded rank .. :: earlier => rank :: changed earlier
  | .wrote rank _ :: earlier => rank :: changed earlier
  | .collected :: _ => []
  | _ :: earlier => changed earlier

/-- The lowest rank that changed, 0 if none did. -/
def lowest (events : List ModuleEvent) : Nat := (changed events).min?.getD 0

/-- The ranks that a collection looks at, ascending: all in use, or those from the lowest that changed
on.
-/
def shown (limit : Nat) (events : List ModuleEvent) (full : Bool) : List Nat :=
  (List.range limit).filter fun rank =>
    (tenant events rank).isSome && (full || (lowest events != 0 && lowest events ≤ rank))

/-- Records a command that was answered. -/
def noted (limit : Nat) (events : List ModuleEvent) (host : τ)
    : ModuleCommand τ → ModuleAnswer → List ModuleEvent
  | .request (.load loader name searchPath _), .ok (some rank) =>
      match ModuleTable.openFirst? loader name searchPath with
      | some (path, library) => .loaded rank name path library :: events
      | none => events
  | .request (.unload rank), .ok _ => .unloaded rank :: events
  | .request (.setConstant rank value), .ok _ => .wrote rank value :: events
  | .request (.setExtra rank data), .ok _ => .attached rank data :: events
  | .collect full ends visit, _ =>
      let keys := shown limit events full
      let moved := .moved (keys.zip (visitAll visit (keys.map (recalled events)) host).1) :: events
      if ends then .collected :: moved else moved
  | _, _ => events

end ModuleEvent

/-- A table of modules, what visitors know, what was answered and the record of what happened. -/
structure ModuleHistory (τ : Type) where
  table : ModuleTable
  host : τ
  answers : List ModuleAnswer := []
  events : List ModuleEvent := []

namespace ModuleHistory

/-- Does what a command says and records it. -/
def perform (limit : Nat) (history : ModuleHistory τ) (command : ModuleCommand τ) : ModuleHistory τ :=
  let obeyed := history.table.obey history.host command
  { table := obeyed.2.1
    host := obeyed.2.2
    answers := history.answers ++ [obeyed.1]
    events := ModuleEvent.noted limit history.events history.host command obeyed.1 }

/-- What some commands lead to, from no modules on. -/
def play (limit : Nat) (host : τ) (commands : List (ModuleCommand τ)) : ModuleHistory τ :=
  commands.foldl (perform limit) { table := { limit }, host }

end ModuleHistory

-----------------------------------------------------------------------------------------
-- Loading
-----------------------------------------------------------------------------------------

/-- Of some files, the loader opens the one at `path`, and none before it. -/
def Loader.Opens (loader : Loader) (paths : List String) (path : String) (library : Library) : Prop :=
  ∃ before after,
    paths = before ++ path :: after
    ∧ (∀ other ∈ before, loader.open? other = none)
    ∧ loader.open? path = some library

namespace ModuleTable

variable {table : ModuleTable}

/-- A rank is free for a module: the one wanted, or the lowest that is not in use. -/
def Grants (table : ModuleTable) (wanted : Option Nat) (rank : Nat) : Prop :=
  1 ≤ rank
  ∧ rank < table.limit
  ∧ table.get? rank = none
  ∧ (wanted = some rank
    ∨ wanted = none ∧ ∀ other, 1 ≤ other → other < rank → (table.get? other).isSome)

/-- The first file that opens is found. -/
theorem openFirst?_eq_some_iff (loader : Loader) (name searchPath path : String) (library : Library)
    : openFirst? loader name searchPath = some (path, library)
      ↔ loader.Opens (loader.candidates name searchPath) path library := by
  rw [openFirst?, List.findSome?_eq_some_iff]
  constructor
  · intro found
    obtain ⟨before, other, after, split, opened, unopened⟩ := found
    obtain ⟨library, opens, same⟩ := Option.map_eq_some_iff.mp opened
    cases same
    exact ⟨before, after, split, fun other member => by simpa using unopened other member, opens⟩
  · intro opens
    obtain ⟨before, after, split, unopened, opened⟩ := opens
    exact ⟨before, path, after, split, by simp [opened], fun other member => by
      simp [unopened other member]⟩

theorem openFirst?_eq_none_iff (loader : Loader) (name searchPath : String)
    : openFirst? loader name searchPath = none
      ↔ ∀ path ∈ loader.candidates name searchPath, loader.open? path = none := by
  simp [openFirst?, List.findSome?_eq_none_iff]

/-- No unused rank is found where every one is in use. -/
theorem firstUnused?_eq_none_iff {count rank : Nat}
    : table.firstUnused? count rank = none
      ↔ ∀ other, rank ≤ other → other < rank + count → (table.get? other).isSome := by
  induction count generalizing rank with
  | zero => exact ⟨fun _ other above below => by omega, fun _ => rfl⟩
  | succ count ih =>
      rw [firstUnused?]
      split_ifs with unused
      · constructor
        · intro found
          cases found
        · intro all
          have used := all rank (Nat.le_refl _) (by omega)
          rw [Option.isNone_iff_eq_none.mp unused] at used
          cases used
      · rw [ih]
        constructor
        · intro all other above below
          rcases Nat.eq_or_lt_of_le above with rfl | later
          · simpa [Option.isSome_iff_ne_none] using unused
          · exact all other later (by omega)
        · intro all other above below
          exact all other (by omega) (by omega)

/-- A module gets a rank exactly if the rank is free for it. -/
theorem claim_eq_ok_iff (wanted : Option Nat) (rank : Nat)
    : table.claim wanted = .ok rank ↔ table.Grants wanted rank := by
  cases wanted with
  | some wanted =>
      simp only [claim, Grants]
      constructor
      · intro claimed
        split_ifs at claimed with outside used
        cases claimed
        exact ⟨by omega, by omega, by simpa using used, .inl rfl⟩
      · rintro ⟨above, below, unused, same | ⟨other, -⟩⟩
        · cases same
          rw [if_neg (by omega), unused]
          rfl
        · cases other
  | none =>
      simp only [claim, Grants]
      constructor
      · intro claimed
        split at claimed
        · next found first =>
            cases claimed
            obtain ⟨above, below, unused, others⟩ := firstUnused?_eq_some first
            exact ⟨above, by omega, unused, .inr ⟨trivial, others⟩⟩
        · cases claimed
      · rintro ⟨above, below, unused, same | ⟨-, lowest⟩⟩
        · cases same
        · cases first : table.firstUnused? (table.limit - 1) 1 with
          | none =>
              have used := firstUnused?_eq_none_iff.mp first rank above (by omega)
              rw [unused] at used
              cases used
          | some found =>
              -- neither of the two ranks lies below the other, since both are unused
              obtain ⟨above', -, unused', others⟩ := firstUnused?_eq_some first
              rcases Nat.lt_trichotomy found rank with less | same | greater
              · have used := lowest found above' less
                rw [unused'] at used
                cases used
              · rw [same]
              · have used := others rank above greater
                rw [unused] at used
                cases used

/-- Loading ends exactly if a rank is free and a file opens, in a table with the module in it. -/
theorem serve_load (loader : Loader) (name searchPath : String) (wanted : Option Nat)
    : table.serve (.load loader name searchPath wanted)
      = match table.claim wanted with
        | .error error => .error error
        | .ok rank =>
            match openFirst? loader name searchPath with
            | some (path, library) =>
                .ok (some rank, (table.put rank { name, path, library }).touch rank)
            | none => .error (.unloadable name) := by
  have listed := loader.candidates_ne_nil name searchPath
  simp only [serve, register]
  cases table.claim wanted with
  | error error => rfl
  | ok rank =>
      cases openFirst? loader name searchPath with
      | none => simp [List.isEmpty_iff, listed]; rfl
      | some found => rfl

-----------------------------------------------------------------------------------------
-- Tables follow records
-----------------------------------------------------------------------------------------

open ModuleEvent

variable {limit : Nat} {events : List ModuleEvent}

/-- A table is what a record says. -/
structure Follows (table : ModuleTable) (limit : Nat) (events : List ModuleEvent) : Prop where
  bound : table.limit = limit
  reads : ∀ rank, table.get? rank = told events rank
  lowest : table.watermark = lowest events
  ranks : ∀ rank, (tenant events rank).isSome → 1 ≤ rank ∧ rank < limit
  marks : ∀ rank ∈ changed events, 1 ≤ rank

theorem isSome_told (events : List ModuleEvent) (rank : Nat)
    : (told events rank).isSome = (tenant events rank).isSome := by
  rw [told, Option.isSome_map]

theorem follows_empty (limit : Nat) : Follows { limit } limit [] where
  bound := rfl
  reads rank := by simp [get?, told, tenant]
  lowest := rfl
  ranks rank used := by cases used
  marks rank member := by cases member

/-- A rank that is touched counts as changed. -/
theorem watermark_touch_eq (rank : Nat) {changed : List Nat} (marks : ∀ rank ∈ changed, 1 ≤ rank)
    (lowest : table.watermark = changed.min?.getD 0)
    : (table.touch rank).watermark = (rank :: changed).min?.getD 0 := by
  rw [List.min?_cons, touch, lowest]
  cases least : changed.min? with
  | none => simp
  | some least' =>
      have positive := marks least' (List.min?_mem least)
      simp only [Option.getD_some, Option.elim_some]
      split_ifs <;> simp only [lowest, least, Option.getD_some] <;> omega

@[simp] theorem limit_touch (rank : Nat) : (table.touch rank).limit = table.limit := by
  unfold touch
  split_ifs <;> rfl

/-- Loading a module follows. -/
theorem Follows.load (follows : table.Follows limit events) {rank : Nat}
    (above : 1 ≤ rank) (below : rank < limit) (name path : String) (library : Library)
    : ((table.put rank { name, path, library }).touch rank).Follows limit
        (.loaded rank name path library :: events) where
  bound := (limit_touch rank).trans follows.bound
  reads other := by
    rw [get?_touch, get?_put, follows.reads]
    by_cases same : other = rank
    · simp [told, tenant, recalled, extra, same]
    · simp [told, tenant, recalled, extra, same, Ne.symm same]
  lowest := watermark_touch_eq rank follows.marks follows.lowest
  ranks other used := by
    by_cases same : other = rank
    · rw [same]
      exact ⟨above, below⟩
    · exact follows.ranks other (by simpa [tenant, same] using used)
  marks other member := by
    rcases List.mem_cons.mp member with rfl | member
    · exact above
    · exact follows.marks other member

/-- Unloading a module follows. -/
theorem Follows.unload (follows : table.Follows limit events) (rank : Nat)
    : Follows { table with entries := table.entries.erase rank } limit (.unloaded rank :: events) where
  bound := follows.bound
  reads other := by
    rw [get?, Std.TreeMap.getElem?_erase, ← get?, follows.reads]
    by_cases same : other = rank
    · simp [told, tenant, same]
    · simp [told, tenant, recalled, extra, same, Ne.symm same]
  lowest := follows.lowest
  ranks other used := by
    by_cases same : other = rank
    · simp [tenant, same] at used
    · exact follows.ranks other (by simpa [tenant, same] using used)
  marks := follows.marks

/-- Setting the constant of a module follows. -/
theorem Follows.setConstant (follows : table.Follows limit events) {rank : Nat} {entry : Module}
    (found : table.get? rank = some entry) (value : Value)
    : ((table.put rank { entry with constant := value }).touch rank).Follows limit
        (.wrote rank value :: events) where
  bound := (limit_touch rank).trans follows.bound
  reads other := by
    rw [get?_touch, get?_put]
    by_cases same : other = rank
    · have told' := follows.reads rank
      rw [found, told] at told'
      obtain ⟨⟨name, path, library⟩, taken, rfl⟩ := Option.map_eq_some_iff.mp told'.symm
      simp [told, tenant, recalled, extra, same, taken]
    · rw [if_neg (Ne.symm same), follows.reads]
      simp [told, tenant, recalled, extra, same]
  lowest := watermark_touch_eq rank follows.marks follows.lowest
  ranks other used := follows.ranks other used
  marks other member := by
    rcases List.mem_cons.mp member with rfl | member
    · have used : (tenant events other).isSome := by
        rw [← isSome_told, ← follows.reads, found]
        rfl
      exact (follows.ranks other used).1
    · exact follows.marks other member

/-- Setting the data of a module follows. -/
theorem Follows.setExtra (follows : table.Follows limit events) {rank : Nat} {entry : Module}
    (found : table.get? rank = some entry) (data : Nat)
    : (table.put rank { entry with extra := data }).Follows limit (.attached rank data :: events) where
  bound := follows.bound
  reads other := by
    rw [get?_put]
    by_cases same : other = rank
    · have told' := follows.reads rank
      rw [found, told] at told'
      obtain ⟨⟨name, path, library⟩, taken, rfl⟩ := Option.map_eq_some_iff.mp told'.symm
      simp [told, tenant, recalled, extra, same, taken]
    · rw [if_neg (Ne.symm same), follows.reads]
      simp [told, tenant, recalled, extra, same]
  lowest := follows.lowest
  ranks other used := follows.ranks other used
  marks := follows.marks

/-- A collection looks at what the record says it does. -/
theorem Follows.visited_eq (follows : table.Follows limit events) (full : Bool)
    : table.visited full = shown limit events full := by
  obtain ⟨sorted, member⟩ := table.pairwise_visited full
  refine sorted.eq_of_mem_iff (List.pairwise_lt_range.filter _) fun rank => ?_
  rw [member, shown, List.mem_filter, List.mem_range, follows.reads, isSome_told, follows.lowest]
  simp only [Bool.and_eq_true, Bool.or_eq_true, bne_iff_ne, decide_eq_true_eq]
  constructor
  · intro ⟨used, looked⟩
    exact ⟨(follows.ranks rank used).2, used, looked⟩
  · intro ⟨_, used, looked⟩
    exact ⟨used, looked⟩

/-- What a walk leaves follows, and the visitor is shown what is recalled. -/
theorem Follows.walk (follows : table.Follows limit events) (full : Bool)
    (visit : Value → τ → Value × τ) (host : τ)
    : let keys := shown limit events full
      let answers := visitAll visit (keys.map (recalled events)) host
      (table.walk full visit host).2 = answers.2
      ∧ (table.walk full visit host).1.Follows limit (.moved (keys.zip answers.1) :: events) := by
  intro keys answers
  have here : ∀ rank entry, table.get? rank = some entry → table.constantAt rank = recalled events rank := by
    intro rank entry found
    have known := follows.reads rank
    rw [constantAt, known]
    rw [known, told] at found
    obtain ⟨⟨name, path, library⟩, taken, rfl⟩ := Option.map_eq_some_iff.mp found
    simp [told, taken]
  obtain ⟨sorted, member⟩ := follows.visited_eq full ▸ table.pairwise_visited full
  have shown : keys.map (access.read table) = keys.map (recalled events) := by
    refine List.map_congr_left fun rank looked => ?_
    obtain ⟨entry, found⟩ := Option.isSome_iff_exists.mp ((member rank).mp looked).1
    exact here rank entry found
  obtain ⟨known, held⟩ := lawful_access.walk_eq visit sorted.nodup
    (fun rank looked => ((member rank).mp looked).1) host
  obtain ⟨outline, limit', watermark⟩ := walk_outline visit keys table host
  rw [shown] at known held
  rw [ModuleTable.walk, follows.visited_eq]
  refine ⟨known, limit'.trans follows.bound, fun rank => ?_, watermark.trans follows.lowest, follows.ranks,
    follows.marks⟩
  have held : (access.walk visit keys table host).1.constantAt rank
      = ((keys.zip answers.1).lookup rank).getD (table.constantAt rank) := held rank
  rw [outline, held]
  have known := follows.reads rank
  cases found : table.get? rank with
  | none =>
      have gone : tenant events rank = none := by simpa [found, told] using known.symm
      simp [told, tenant, gone]
  | some entry =>
      rw [here rank entry found]
      rw [found, told] at known
      obtain ⟨⟨name, path, library⟩, taken, rfl⟩ := Option.map_eq_some_iff.mp known.symm
      simp [told, tenant, recalled, extra, taken]

/-- Clearing the watermark follows. -/
theorem Follows.clearChanged (follows : table.Follows limit events)
    : table.clearChanged.Follows limit (.collected :: events) where
  bound := follows.bound
  reads := follows.reads
  lowest := rfl
  ranks := follows.ranks
  marks rank member := by cases member

/-- A change of a module in use is answered, any other is refused. -/
theorem map_get (table : ModuleTable) (rank : Nat) {α : Type} (change : Module → α)
    : change <$> table.get rank
      = match table.get? rank with
        | some entry => .ok (change entry)
        | none => .error (.noSuchRank rank) := by
  unfold get
  cases table.get? rank <;> rfl

end ModuleTable

namespace ModuleHistory

variable {limit : Nat} {history : ModuleHistory τ}

/-- Whatever a request does follows. -/
theorem follows_request (follows : history.table.Follows limit history.events) (request : ModuleRequest)
    : (history.perform limit (.request request)).table.Follows limit
        (history.perform limit (.request request)).events := by
  simp only [perform, ModuleTable.obey]
  cases request with
  | load loader name searchPath wanted =>
      rw [ModuleTable.serve_load]
      cases claimed : history.table.claim wanted with
      | error error => exact follows
      | ok rank =>
          obtain ⟨above, below, -, -⟩ := (ModuleTable.claim_eq_ok_iff wanted rank).mp claimed
          rw [follows.bound] at below
          cases opened : ModuleTable.openFirst? loader name searchPath with
          | none => exact follows
          | some found =>
              simp only [ModuleEvent.noted, opened]
              exact follows.load above below name found.1 found.2
  | unload rank =>
      simp only [ModuleTable.serve, ModuleTable.unload, ModuleTable.map_get]
      cases found : history.table.get? rank with
      | none => exact follows
      | some entry => exact follows.unload rank
  | setConstant rank value =>
      simp only [ModuleTable.serve, ModuleTable.setConstant, ModuleTable.map_get]
      cases found : history.table.get? rank with
      | none => exact follows
      | some entry => exact follows.setConstant found value
  | setExtra rank data =>
      simp only [ModuleTable.serve, ModuleTable.setExtra, ModuleTable.map_get]
      cases found : history.table.get? rank with
      | none => exact follows
      | some entry => exact follows.setExtra found data

/-- Whatever a command does follows. -/
theorem follows_perform (follows : history.table.Follows limit history.events)
    (command : ModuleCommand τ)
    : (history.perform limit command).table.Follows limit (history.perform limit command).events := by
  cases command with
  | request request => exact follows_request follows request
  | collect full ends visit =>
      have walked := (follows.walk full visit history.host).2
      cases ends with
      | false => exact walked
      | true => exact walked.clearChanged

/-- After any commands the table follows the record. -/
theorem follows_play (limit : Nat) (host : τ) (commands : List (ModuleCommand τ))
    : (play limit host commands).table.Follows limit (play limit host commands).events := by
  have kept : ∀ history : ModuleHistory τ, history.table.Follows limit history.events →
      (commands.foldl (perform limit) history).table.Follows limit
        (commands.foldl (perform limit) history).events := by
    induction commands with
    | nil => exact fun _ follows => follows
    | cons command commands ih => exact fun _ follows => ih _ (follows_perform follows command)
  exact kept _ (ModuleTable.follows_empty limit)

/-- The list form has a result after any commands, the same, and gave the same answers. -/
theorem obeyAll?_lists {slots : ModuleSlots} {history : ModuleHistory τ} (lists : slots.Lists history.table)
    (limit : Nat) (commands : List (ModuleCommand τ))
    : let final := commands.foldl (perform limit) history
      ∃ answers next,
        slots.obeyAll? history.host commands = some (answers, next, final.host)
        ∧ final.answers = history.answers ++ answers
        ∧ next.Lists final.table := by
  induction commands generalizing slots history with
  | nil => exact ⟨[], slots, rfl, (List.append_nil _).symm, lists⟩
  | cons command commands ih =>
      obtain ⟨middle, first, same⟩ := lists.obey history.host command
      obtain ⟨answers, next, rest, answered, final⟩ :=
        @ih middle (history.perform limit command) same
      refine ⟨(history.table.obey history.host command).1 :: answers, next, ?_, ?_, final⟩
      · simp only [ModuleSlots.obeyAll?, first, Option.bind_eq_bind, Option.bind_some]
        rw [show (history.table.obey history.host command).2.2 = (history.perform limit command).host from rfl,
          rest]
        rfl
      · rw [List.foldl_cons, answered]
        simp [perform]

end ModuleHistory

-----------------------------------------------------------------------------------------
-- The registry
-----------------------------------------------------------------------------------------

/-- In a world a request is answered as by its table of modules, and changes nothing if it is refused. -/
theorem ModuleRequest.ends_action (request : ModuleRequest) (world : World σ δ)
    : Ends request.action world fun answer final =>
        match world.heap.modules.serve request with
        | .ok (rank, changed) =>
            answer = .ok rank ∧ final.heap = { world.heap with modules := changed }
        | .error error => answer = .error error ∧ final.heap = world.heap := by
  cases request with
  | load loader name searchPath wanted =>
      simp only [action, World.loadModule, ModuleTable.serve, runs_map, runs_bind, World.runs_heapNow]
      cases world.heap.modules.claim wanted with
      | error error => exact And.intro rfl rfl
      | ok rank =>
          cases registered : world.heap.modules.register loader name searchPath rank with
          | error error =>
              simp only [registered, runs_bind, World.runs_report, runs_pure]
              simp only [bind, Except.bind, registered]
              exact And.intro rfl trivial
          | ok loaded =>
              simp only [registered, runs_bind, World.runs_report, World.runs_modifyHeap, runs_pure]
              simp only [bind, Except.bind, registered]
              exact And.intro rfl rfl
  | unload rank =>
      simp only [action, World.unloadModule, ModuleTable.serve, ModuleTable.unload, runs_map, runs_bind,
        World.runs_heapNow, ModuleTable.map_get]
      cases world.heap.modules.get? rank with
      | none => exact And.intro rfl rfl
      | some entry => exact And.intro rfl rfl
  | setConstant rank value =>
      simp only [action, World.setModuleConstant, World.updateModules, ModuleTable.serve,
        ModuleTable.setConstant, runs_map, runs_bind, World.runs_heapNow, ModuleTable.map_get]
      cases world.heap.modules.get? rank with
      | none => exact And.intro rfl rfl
      | some entry => exact And.intro rfl rfl
  | setExtra rank extra =>
      simp only [action, World.setModuleExtra, World.updateModules, ModuleTable.serve,
        ModuleTable.setExtra, runs_map, runs_bind, World.runs_heapNow, ModuleTable.map_get]
      cases world.heap.modules.get? rank with
      | none => exact And.intro rfl rfl
      | some entry => exact And.intro rfl rfl

/-- A table is a map from ranks to modules with a watermark below everything that changed. -/
structure ModuleTable.Registry (table : ModuleTable) (limit : Nat) (events : List ModuleEvent) : Prop where
  bound : table.limit = limit
  reads : ∀ rank, table.get? rank = ModuleEvent.told events rank
  ranks : ∀ rank, (table.get? rank).isSome → 1 ≤ rank ∧ rank < limit
  constants
    : ∀ rank,
        table.constant rank
        = if (ModuleEvent.tenant events rank).isSome then .ok (ModuleEvent.recalled events rank)
          else .error (.noSuchRank rank)
  /-- A rank that is wanted is refused if it is no rank, and else if it is in use. -/
  invalid
    : ∀ loader name searchPath rank,
        table.serve (.load loader name searchPath (some rank)) = .error (.invalidRank rank limit)
        ↔ rank = 0 ∨ limit ≤ rank
  occupied
    : ∀ loader name searchPath rank,
        ¬(rank = 0 ∨ limit ≤ rank) →
        (table.serve (.load loader name searchPath (some rank)) = .error (.rankInUse rank)
          ↔ (table.get? rank).isSome)
  full
    : ∀ loader name searchPath,
        table.serve (.load loader name searchPath none) = .error (.tableFull limit)
        ↔ ∀ rank, 1 ≤ rank → rank < limit → (table.get? rank).isSome
  /-- At a rank that is free the first file that opens is loaded, with a null constant and no data. -/
  loads
    : ∀ loader name searchPath wanted rank,
        table.Grants wanted rank →
        let answer := table.serve (.load loader name searchPath wanted)
        let paths := loader.candidates name searchPath
        (∀ path library,
          loader.Opens paths path library →
          ∃ loaded,
            answer = .ok (some rank, loaded)
            ∧ ∀ other,
                loaded.get? other
                = if other = rank then some { name, path, library, constant := .null, extra := 0 }
                  else table.get? other)
        ∧ ((∀ path ∈ paths, loader.open? path = none) → answer = .error (.unloadable name))
  /-- Nothing else is loaded. -/
  loaded
    : ∀ loader name searchPath wanted rank loaded,
        table.serve (.load loader name searchPath wanted) = .ok (rank, loaded) →
        ∃ taken path library,
          rank = some taken
          ∧ table.Grants wanted taken
          ∧ loader.Opens (loader.candidates name searchPath) path library
  /-- What is asked of a module is refused exactly if there is none. -/
  changes
    : ∀ rank value extra,
        ∀ request ∈ [.unload rank, .setConstant rank value, .setExtra rank extra],
          Prod.fst <$> table.serve request
          = if (table.get? rank).isSome then .ok none else .error (.noSuchRank rank)
  lowest : table.watermark = (ModuleEvent.changed events).min?.getD 0
  /-- A full collection looks at every module, a minor one at those from the watermark on, each once. -/
  visits
    : ∀ full,
        (table.visited full).Nodup
        ∧ ∀ rank,
            rank ∈ table.visited full
            ↔ (table.get? rank).isSome ∧ (full ∨ table.watermark ≠ 0 ∧ table.watermark ≤ rank)
  /-- Every module that changed and is still there is looked at. -/
  catches
    : ∀ rank ∈ ModuleEvent.changed events, (table.get? rank).isSome → rank ∈ table.visited false
  /-- A visitor is shown what the constants hold, in order, and what it answers is kept. -/
  walks
    : ∀ (τ : Type) (full : Bool) (visit : Value → τ → Value × τ) (host : τ),
        let walked := table.walk full visit host
        let answers := visitAll visit ((table.visited full).map table.constantAt) host
        walked.2 = answers.2
        ∧ walked.1.watermark = table.watermark
        ∧ ∀ rank,
            walked.1.get? rank
            = (table.get? rank).map fun entry =>
                { entry with
                  constant :=
                    (((table.visited full).zip answers.1).lookup rank).getD entry.constant }

namespace ModuleTable

variable {table : ModuleTable} {limit : Nat} {events : List ModuleEvent}

/-- No rank is found for a module exactly if all are in use. -/
theorem Follows.tableFull_iff (follows : table.Follows limit events) (loader : Loader)
    (name searchPath : String)
    : table.serve (.load loader name searchPath none) = .error (.tableFull limit)
      ↔ ∀ rank, 1 ≤ rank → rank < limit → (table.get? rank).isSome := by
  have none_iff : table.firstUnused? (limit - 1) 1 = none
      ↔ ∀ other, 1 ≤ other → other < 1 + (limit - 1) → (table.get? other).isSome :=
    firstUnused?_eq_none_iff
  have all : (∀ rank, 1 ≤ rank → rank < limit → (table.get? rank).isSome)
      ↔ table.firstUnused? (limit - 1) 1 = none := by
    rw [none_iff]
    refine forall_congr' fun rank => imp_congr_right fun above => ?_
    rw [show rank < limit ↔ rank < 1 + (limit - 1) by omega]
  rw [serve_load, claim, follows.bound, all]
  cases first : table.firstUnused? (limit - 1) 1 with
  | none => simp
  | some rank => cases openFirst? loader name searchPath <;> simp

/-- A module that is loaded was granted its rank, and its file opens. -/
theorem grants_of_serve_load {loader : Loader} {name searchPath : String} {wanted rank : Option Nat}
    {loaded : ModuleTable}
    (done : table.serve (.load loader name searchPath wanted) = .ok (rank, loaded))
    : ∃ taken path library,
        rank = some taken
        ∧ table.Grants wanted taken
        ∧ loader.Opens (loader.candidates name searchPath) path library := by
  rw [serve_load] at done
  cases claimed : table.claim wanted with
  | error error =>
      rw [claimed] at done
      cases done
  | ok taken =>
      rw [claimed] at done
      cases opened : openFirst? loader name searchPath with
      | none =>
          rw [opened] at done
          cases done
      | some found =>
          rw [opened] at done
          cases done
          exact ⟨taken, found.1, found.2, rfl, (claim_eq_ok_iff wanted taken).mp claimed,
            (openFirst?_eq_some_iff ..).mp opened⟩

/-- A module that changed is looked at, as the watermark is not above it. -/
theorem Follows.mem_visited_of_changed (follows : table.Follows limit events) {rank : Nat}
    (changed : rank ∈ ModuleEvent.changed events) (used : (table.get? rank).isSome)
    : rank ∈ table.visited false := by
  obtain ⟨-, member⟩ := table.pairwise_visited false
  refine (member rank).mpr ⟨used, .inr ?_⟩
  rw [follows.lowest, ModuleEvent.lowest]
  cases least : (ModuleEvent.changed events).min? with
  | none =>
      rw [List.min?_eq_none_iff.mp least] at changed
      cases changed
  | some least' =>
      obtain ⟨listed, below⟩ := List.min?_eq_some_iff.mp least
      have positive := follows.marks least' listed
      exact ⟨Nat.ne_of_gt positive, below rank changed⟩

/-- A walk keeps modules, but for the constants that it answers. -/
theorem walk_visited (table : ModuleTable) (full : Bool) (visit : Value → τ → Value × τ) (host : τ)
    : let walked := table.walk full visit host
      let answers := visitAll visit ((table.visited full).map table.constantAt) host
      walked.2 = answers.2
      ∧ walked.1.watermark = table.watermark
      ∧ ∀ rank,
          walked.1.get? rank
          = (table.get? rank).map fun entry =>
              { entry with
                constant :=
                  (((table.visited full).zip answers.1).lookup rank).getD entry.constant } := by
  obtain ⟨sorted, member⟩ := table.pairwise_visited full
  obtain ⟨known, held⟩ := lawful_access.walk_eq visit sorted.nodup
    (fun rank looked => ((member rank).mp looked).1) host
  obtain ⟨outline, -, watermark⟩ := walk_outline visit (table.visited full) table host
  refine ⟨known, watermark, fun rank => (outline rank).trans ?_⟩
  have held : (access.walk visit (table.visited full) table host).1.constantAt rank = _ := held rank
  rw [held]
  cases found : table.get? rank with
  | none => rfl
  | some entry => simp [access, constantAt, found]

end ModuleTable

/-- What follows a record is a registry. -/
theorem ModuleTable.Follows.describes {table : ModuleTable} {limit : Nat} {events : List ModuleEvent}
    (follows : table.Follows limit events)
    : table.Registry limit events where
  bound := follows.bound
  reads := follows.reads
  ranks rank used := by
    rw [follows.reads, isSome_told] at used
    exact follows.ranks rank used
  constants rank := by
    rw [constant, map_get, follows.reads, ModuleEvent.told]
    cases ModuleEvent.tenant events rank <;> rfl
  invalid loader name searchPath rank := by
    rw [serve_load, claim, follows.bound]
    split_ifs with outside used
    · simp [outside]
    · simp [outside]
    · cases openFirst? loader name searchPath <;> simp [outside]
  occupied loader name searchPath rank inside := by
    rw [serve_load, claim, follows.bound, if_neg inside]
    split_ifs with used
    · simp [used]
    · cases openFirst? loader name searchPath <;> simp [used]
  full := follows.tableFull_iff
  loads loader name searchPath wanted rank grants := by
    simp only [serve_load, (claim_eq_ok_iff wanted rank).mpr grants]
    constructor
    · intro path library opens
      rw [(openFirst?_eq_some_iff ..).mpr opens]
      refine ⟨_, rfl, fun other => ?_⟩
      rw [get?_touch, get?_put]
      simp only [eq_comm]
    · intro unopened
      rw [(openFirst?_eq_none_iff ..).mpr unopened]
  loaded _ _ _ _ _ _ := grants_of_serve_load
  changes rank value extra request member := by
    simp only [List.mem_cons, List.not_mem_nil, or_false] at member
    rcases member with rfl | rfl | rfl
    · simp only [serve, ModuleTable.unload, map_get]
      cases table.get? rank <;> rfl
    · simp only [serve, ModuleTable.setConstant, map_get]
      cases table.get? rank <;> rfl
    · simp only [serve, ModuleTable.setExtra, map_get]
      cases table.get? rank <;> rfl
  lowest := follows.lowest
  visits full := by
    obtain ⟨sorted, member⟩ := table.pairwise_visited full
    exact ⟨sorted.nodup, member⟩
  catches _ := follows.mem_visited_of_changed
  walks _ := table.walk_visited

/-- After any commands a table of modules is a registry, whatever the loaders open. Modules in a list with
holes gave the same answers, come to the same, and never reach past the end of the list. What is asked in
a world with such a table is answered as by the table and changes nothing where it is refused, and what a
collector does to the roots is a walk.
-/
theorem ModuleTable.registry (limit : Nat) (host : τ) (commands : List (ModuleCommand τ))
    : let history := ModuleHistory.play limit host commands
      let table := history.table
      table.Registry limit history.events
      ∧ (∃ slots,
        ModuleSlots.obeyAll? { limit } host commands = some (history.answers, slots, history.host)
        ∧ slots.Lists table)
      ∧ ∀ (σ δ : Type) (world : World σ δ),
          world.heap.modules = table →
          (∀ request : ModuleRequest, Ends request.action world fun answer final =>
            match table.serve request with
            | .ok (rank, changed) =>
                answer = .ok rank ∧ final.heap = { world.heap with modules := changed }
            | .error error => answer = .error error ∧ final.heap = world.heap)
          ∧ ∀ (collector : Host σ δ) (full : Bool),
              let roots := if full then world.heap.moduleRoots else world.heap.changedModuleRoots
              Runs (Collector.visitRoots collector roots) world
                (fun _ final =>
                  let walked := table.walk full (Collector.forwarding collector) world.site
                  final = { world with heap := { world.heap with modules := walked.1 } }.withSite walked.2)
                fun _ _ => True := by
  intro history table
  have follows := ModuleHistory.follows_play limit host commands
  refine ⟨follows.describes, ?_, fun σ δ world same => ⟨fun request => ?_, fun collector full => ?_⟩⟩
  · obtain ⟨answers, slots, obeyed, answered, lists⟩ := @ModuleHistory.obeyAll?_lists τ { limit }
      { table := { limit }, host } (ModuleSlots.lists_empty limit) limit commands
    rw [List.nil_append] at answered
    exact ⟨slots, by rw [obeyed, ← answered]; rfl, lists⟩
  · rw [← same]
    exact request.ends_action world
  · intro roots
    refine (Collector.runs_visitRoots collector roots world).mono (fun _ final ends => ?_) fun _ _ _ => trivial
    have named : roots = (table.visited full).map .module := by
      rw [← same]
      cases full <;> rfl
    have embedded := PlaceAccess.walk_embed access Heap.rootAccess
      (fun modules => { world.heap with modules }) Root.module (fun _ _ => rfl) (fun _ _ _ => rfl)
      (Collector.forwarding collector) (table.visited full) table world.site
    have whole : ({ world.heap with modules := table } : Heap δ) = world.heap := by rw [← same]
    rw [whole, ← named] at embedded
    simp only [embedded] at ends
    exact ends

/-- A rank that was left is given away again, and what its module held is forgotten. -/
theorem ModuleTable.registry_reused
    : let library : Library := { file := "/a/m", exports := [] }
      let loader : Loader := { open? := fun _ => some library, fileName := id }
      let commands : List (ModuleCommand Unit) :=
        [.request (.load loader "/a/m" "" none), .request (.setConstant 1 (.tagged 5)),
          .collect false true fun value known => (value, known), .request (.unload 1)]
      let table := (ModuleHistory.play 4 () commands).table
      table.Grants none 1
      ∧ ∃ loaded,
          table.serve (.load loader "/a/m" "" none) = .ok (some 1, loaded)
          ∧ loaded.get? 1 = some { name := "/a/m", path := "/a/m", library } := by
  intro library loader commands table
  obtain ⟨registry, -, -⟩ := ModuleTable.registry 4 () commands
  have opens : loader.Opens (loader.candidates "/a/m" "") "/a/m" library :=
    ⟨[], [], by simp [Loader.candidates], nofun, rfl⟩
  have unused : table.get? 1 = none := by
    have opened := (openFirst?_eq_some_iff loader "/a/m" "" "/a/m" library).mpr opens
    simp only [table, commands, ModuleHistory.play, List.foldl_cons, List.foldl_nil, ModuleHistory.perform,
      obey, serve_load, opened]
    decide +kernel
  have grants : table.Grants none 1 :=
    ⟨by decide, by rw [registry.bound]; decide, unused, .inr ⟨rfl, fun other above below => by omega⟩⟩
  obtain ⟨loaded, done, held⟩ := (registry.loads loader "/a/m" "" none 1 grants).1 _ _ opens
  exact ⟨grants, loaded, done, held 1⟩

end MovingHeap
