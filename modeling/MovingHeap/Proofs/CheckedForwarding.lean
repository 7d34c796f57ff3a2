import MovingHeap.Proofs.Evacuations
import MovingHeap.Proofs.Guarantees
import MovingHeap.Proofs.IdempotentForwarding
import MovingHeap.Proofs.PassageInvariants

/-! Forwarding with every index checked.
Memory answers any index, so that forwarding cannot tell by itself whether it keeps to what is there. Here
it asks first, and ends with a mishap where an index is out of range; in the middle of a collection it
never does, whatever word it is given.
-/

namespace MovingHeap

variable {ω σ δ α β : Type}

-----------------------------------------------------------------------------------------
-- Actions that check their indices
-----------------------------------------------------------------------------------------

/-- What ends an action that checks its indices. -/
inductive Mishap where
  | stopped (violation : Violation)
  /-- An index, or the end of a stretch, that is not within the size. -/
  | outOfRange (index size : Nat)

/-- An action that checks its indices. -/
abbrev Checked (ω : Type) := EStateM Mishap ω

namespace Checked

/-- An action that has none to check. -/
def ofAction (action : Action ω α) : Checked ω α := fun state =>
  match action state with
  | .ok result final => .ok result final
  | .error violation final => .error (.stopped violation) final

/-- The word at an index. -/
def read (arena : Arena) (index : Nat) : Checked ω Word :=
  if index < arena.size then pure (arena.get index) else throw (.outOfRange index arena.size)

/-- Memory with a word written at an index. -/
def write (arena : Arena) (index : Nat) (word : Word) : Checked ω Arena :=
  if index < arena.size then pure (arena.set index word) else throw (.outOfRange index arena.size)

/-- The view from one index up to another. -/
def slice (arena : Arena) (start stop : Nat) : Checked ω Window :=
  if start ≤ stop then
    if stop ≤ arena.size then pure (arena.window start (stop - start))
    else throw (.outOfRange stop arena.size)
  else throw (.outOfRange start stop)

end Checked

/-- Puts back the words of the region that objects of the age are copied out of. -/
def Regions.setOriginWords (regions : Regions δ) (young : Bool) (words : Arena) : Regions δ :=
  if young then { regions with birth := { regions.birth with words } }
  else { regions with old := { regions.old with words } }

namespace Checked

/-- Writes a word of the region that objects of the age are copied out of. -/
def writeOrigin (young : Bool) (index : Nat) (word : Word) : Checked (Site σ δ) Unit := do
  let words ← write ((← get).regions.origin young).1 index word
  ofAction (Site.modifyRegions (·.setOriginWords young words))

/-- Leaves a tombstone where an object of the age was. -/
def bury (young : Bool) (offset : Nat) (forwarded : Address) : Checked (Site σ δ) Unit := do
  writeOrigin young offset 0
  writeOrigin young (offset + 1) forwarded.raw

/-- Takes the words of a copy and leaves a tombstone where the object was. -/
def settle (young : Bool) (offset : Nat) (extended : Semispace) (count : Nat) (forwarded : Address)
    : Checked (Site σ δ) Unit := do
  ofAction (Site.modifyRegions (·.setDestination extended))
  bury young offset forwarded
  ofAction (Site.modifyRegions fun regions => { regions with copied := regions.copied + count })

/-- Copies an object and buries it. The first word of the copy is looked at only where the number of words
can be right.
-/
def relocate (host : Host σ δ) (object : Address) (young : Bool)
    : Checked (Site σ δ) Address := do
  let site ← get
  let (words, limit) := site.regions.origin young
  let available := site.regions.destination
  let free ← slice available.words available.cursor available.capacity
  let source ← slice words object.offset limit
  let copied ← ofAction (Site.accept (host.copy free source site.host))
  let filled := available.fillTail copied.written
  ofAction (Site.modifyRegions (·.setDestination filled))
  let violation := Violation.badCopy object copied.words available.free
  if copied.words < minObjectWords ∨ available.free < copied.words then
    ofAction (Site.stop violation)
  else if (← read filled.words filled.cursor) = 0 then ofAction (Site.stop violation)
  else
    let extended ← ofAction (Site.require (filled.bump? copied.words) violation)
    settle young object.offset extended copied.words available.next
    return available.next

/-- The new address of a moving object, which is copied unless a tombstone says that it was. -/
def evacuate (host : Host σ δ) (object : Address) (young : Bool)
    : Checked (Site σ δ) Address := do
  let (words, limit) := (← get).regions.origin young
  let offset := object.offset
  if limit ≤ offset + 1 then ofAction (Site.stop (.danglingReference object.raw))
  else if (← read words offset) = 0 then
    let forwarded ← read words (offset + 1)
    ofAction (Site.require (Address.ofRaw? forwarded) (.danglingReference object.raw))
  else relocate host object young

/-- What a reference becomes. Fixed objects are looked up, which needs no index. -/
def forward (host : Host σ δ) (value : Value) : Checked (Site σ δ) Value := do
  match value.address? with
  | none => return value
  | some addr =>
      let regions := (← get).regions
      match addr.space with
      | .birth => Address.toValue <$> evacuate host addr true
      | .fixed => if regions.isFull then ofAction (Collector.markFixed addr) else return value
      | space =>
          if regions.isFull ∧ space = regions.old.space then
            Address.toValue <$> evacuate host addr false
          else return value

-----------------------------------------------------------------------------------------
-- Where no check fails
-----------------------------------------------------------------------------------------

/-- The checked action does what the other one does, so that none of its checks fails. -/
def Mirrors (checked : Checked ω α) (action : Action ω α) (state : ω) : Prop :=
  checked state = ofAction action state

section Mirrors

variable {action : Action ω α} {state : ω}

theorem mirrors_ofAction : (ofAction action).Mirrors action state := rfl

/-- What mirrors another action is stopped by that action's violations only. -/
theorem Mirrors.inRange {checked : Checked ω α} (mirrors : checked.Mirrors action state)
    (index size : Nat) (final : ω)
    : checked state ≠ .error (.outOfRange index size) final := by
  rw [Mirrors, ofAction] at mirrors
  rw [mirrors]
  split <;> simp

/-- One action after another. -/
theorem mirrors_bind {first : Checked ω α} {next : α → Checked ω β} {rest : α → Action ω β}
    (before : first.Mirrors action state)
    (after
      : Runs action state (fun result middle => (next result).Mirrors (rest result) middle)
          fun _ _ => True)
    : (first >>= next : Checked ω β).Mirrors (action >>= rest) state := by
  change EStateM.bind first next state = ofAction (EStateM.bind action rest) state
  rw [Mirrors, ofAction] at before
  simp only [EStateM.bind, ofAction, before]
  cases run : action state with
  | ok result middle => exact after.of_ok run
  | error => rfl

theorem mirrors_map {checked : Checked ω α} (mirrors : checked.Mirrors action state) (change : α → β)
    : (change <$> checked : Checked ω β).Mirrors (change <$> action) state := by
  rw [map_eq_pure_bind, map_eq_pure_bind]
  exact mirrors_bind mirrors ((runs_anyhow _ _).mono (fun _ _ _ => rfl) fun _ _ => id)

/-- A step that the other action does not take, and that succeeds. -/
theorem mirrors_extra {first : Checked ω β} {next : β → Checked ω α} {result : β}
    (succeeds : first state = .ok result state) (after : (next result).Mirrors action state)
    : (first >>= next : Checked ω α).Mirrors action state := by
  change EStateM.bind first next state = ofAction action state
  simp only [EStateM.bind, succeeds]
  exact after

theorem read_eq {arena : Arena} {index : Nat} (inside : index < arena.size) (state : ω)
    : read arena index state = .ok (arena.get index) state := by
  rw [read, if_pos inside]
  rfl

theorem slice_eq {arena : Arena} {start stop : Nat} (order : start ≤ stop)
    (inside : stop ≤ arena.size) (state : ω)
    : slice arena start stop state = .ok (arena.window start (stop - start)) state := by
  rw [slice, if_pos order, if_pos inside]
  rfl

theorem write_eq {arena : Arena} {index : Nat} (inside : index < arena.size) (word : Word) (state : ω)
    : write arena index word state = .ok (arena.set index word) state := by
  rw [write, if_pos inside]
  rfl

/-- Both actions are stopped where nothing is found. -/
theorem mirrors_refusal {found : Option α} {violation : Violation} {rest : α → Action (Site σ δ) β}
    (missing : found = none) (site : Site σ δ)
    : (ofAction (Site.stop violation)).Mirrors (Site.require found violation >>= rest) site := by
  subst missing
  rfl

end Mirrors

section Forwarding

variable {site : Site σ δ} {young : Bool}

theorem mirrors_writeOrigin {index : Nat} (inside : index < (site.regions.origin young).1.size)
    (word : Word)
    : (writeOrigin young index word).Mirrors
        (Site.modifyRegions fun regions =>
          regions.setOriginWords young ((regions.origin young).1.set index word))
        site :=
  mirrors_extra rfl (mirrors_extra (write_eq inside word site) rfl)

/-- A tombstone is left where there are two words. -/
theorem mirrors_bury {offset : Nat} (inside : offset + 1 < (site.regions.origin young).1.size)
    (forwarded : Address)
    : (bury young offset forwarded).Mirrors (Site.modifyRegions (·.bury young offset forwarded))
        site := by
  let first := site.regions.setOriginWords young ((site.regions.origin young).1.set offset 0)
  have same : ofAction (Site.modifyRegions (·.bury young offset forwarded)) site
      = ofAction (do
          Site.modifyRegions fun regions =>
            regions.setOriginWords young ((regions.origin young).1.set offset 0)
          Site.modifyRegions fun regions =>
            regions.setOriginWords young
              ((regions.origin young).1.set (offset + 1) forwarded.raw)) site := by
    cases young <;> rfl
  rw [Mirrors, same]
  refine mirrors_bind (mirrors_writeOrigin (by omega) 0) (Site.runs_modifyRegions.mpr ?_)
  have size : (first.origin young).1.size = (site.regions.origin young).1.size := by
    cases young <;> rfl
  exact mirrors_writeOrigin (by rw [size]; exact inside) forwarded.raw

/-- A copy is settled where the object has two words. -/
theorem mirrors_settle {offset : Nat} {extended : Semispace}
    (inside : offset + 1 < ((site.regions.setDestination extended).origin young).1.size)
    (count : Nat) (forwarded : Address)
    : (settle young offset extended count forwarded).Mirrors
        (Site.modifyRegions fun regions =>
          let regions := (regions.setDestination extended).bury young offset forwarded
          { regions with copied := regions.copied + count })
        site := by
  have same : ofAction (Site.modifyRegions fun regions =>
        let regions := (regions.setDestination extended).bury young offset forwarded
        { regions with copied := regions.copied + count }) site
      = ofAction (do
          Site.modifyRegions (·.setDestination extended)
          Site.modifyRegions (·.bury young offset forwarded)
          Site.modifyRegions fun regions =>
            { regions with copied := regions.copied + count }) site := rfl
  rw [Mirrors, same]
  refine mirrors_bind mirrors_ofAction (Site.runs_modifyRegions.mpr ?_)
  exact mirrors_bind (mirrors_bury inside forwarded) (Site.runs_modifyRegions.mpr mirrors_ofAction)

variable (bounded : site.regions.Bounded)

include bounded

/-- An object is copied and buried where its first two words are allocated. -/
theorem mirrors_relocate (host : Host σ δ) (object : Address)
    (evacuates : site.regions.Evacuates young)
    (below : object.offset + 1 < (site.regions.origin young).2)
    : (relocate host object young).Mirrors (Collector.relocate host object young) site := by
  have inside := bounded.origin young
  have source := Regions.origin_refilled evacuates
  unfold relocate Collector.relocate
  refine mirrors_bind rfl (runs_get.mpr ?_)
  generalize site.regions.origin young = origin at *
  obtain ⟨words, limit⟩ := origin
  refine mirrors_extra (slice_eq bounded.destination (Nat.le_refl _) site) ?_
  refine mirrors_extra (slice_eq (by omega) inside site) ?_
  refine mirrors_bind mirrors_ofAction (Site.runs_accept.mpr ?_)
  dsimp only
  generalize host.copy _ _ _ = reply
  refine mirrors_bind mirrors_ofAction (Site.runs_modifyRegions.mpr ?_)
  -- what the host has filled in has the bounds of the destination, which decide from here on
  have fits : (site.regions.destination.fillTail reply.answer.written).cursor
      ≤ (site.regions.destination.fillTail reply.answer.written).capacity :=
    bounded.destination.trans_eq (Semispace.capacity_fillTail _ _).symm
  rw [← Semispace.free_fillTail _ reply.answer.written]
  generalize site.regions.destination.fillTail reply.answer.written = filled at *
  split_ifs with wrong
  · exact mirrors_refusal (Regions.admit?_eq_none fits wrong) _
  · have space : filled.cursor < filled.words.size := by
      simp only [minObjectWords, Semispace.free, Semispace.capacity] at wrong
      omega
    rw [Regions.admit?_eq_bump? wrong]
    refine mirrors_extra (read_eq space _) ?_
    split_ifs with tombstone
    · exact mirrors_refusal rfl _
    · refine mirrors_bind mirrors_ofAction (Site.runs_require.mpr ?_)
      split
      next extended bumped =>
        refine mirrors_bind (mirrors_settle ?_ _ _) (Site.runs_modifyRegions.mpr rfl)
        rw [source]
        exact below.trans_le inside
      next => trivial

/-- A tombstone is followed, and an object that has none is copied, where two words are allocated. -/
theorem mirrors_evacuate (host : Host σ δ) (object : Address)
    (evacuates : site.regions.Evacuates young)
    : (evacuate host object young).Mirrors (Collector.evacuate host object young) site := by
  have inside := bounded.origin young
  have relocates := mirrors_relocate bounded host object evacuates
  unfold evacuate Collector.evacuate
  refine mirrors_bind rfl (runs_get.mpr ?_)
  generalize site.regions.origin young = origin at *
  obtain ⟨words, limit⟩ := origin
  dsimp only at inside relocates ⊢
  split_ifs with outside buried
  · exact mirrors_ofAction
  · refine mirrors_extra (read_eq (by omega) site) ?_
    rw [if_pos buried]
    exact mirrors_extra (read_eq (by omega) site) mirrors_ofAction
  · refine mirrors_extra (read_eq (by omega) site) ?_
    rw [if_neg buried]
    exact relocates (by omega)

/-- Forwarding never comes to an index that is out of range, whatever the value is. -/
theorem mirrors_forward (host : Host σ δ) (value : Value)
    : (forward host value).Mirrors (Collector.forward host value) site := by
  have moves : ∀ (young : Bool) (addr : Address), site.regions.Evacuates young →
      (Address.toValue <$> evacuate host addr young : Checked (Site σ δ) Value).Mirrors
        (Address.toValue <$> Collector.evacuate host addr young) site := fun _ addr evacuates =>
    mirrors_map (mirrors_evacuate bounded host addr evacuates) _
  unfold forward Collector.forward
  cases value.address? with
  | none => rfl
  | some addr =>
      refine mirrors_bind rfl (runs_get.mpr ?_)
      cases addr.space with
      | birth => exact moves true addr (.inl rfl)
      | fixed =>
          dsimp only
          split_ifs
          · exact mirrors_ofAction
          · rfl
      | oldA | oldB =>
          dsimp only
          split_ifs with old
          · exact moves false addr (.inr old.1)
          · rfl

end Forwarding

end Checked

-----------------------------------------------------------------------------------------
-- In the middle of a collection
-----------------------------------------------------------------------------------------

/-- Forwarding the value keeps within bounds: every index is in range, so that checking them changes
nothing, and it ends with memory written as it may be or is stopped as it may be.
-/
structure Site.ForwardsWithin (host : Host σ δ) (site : Site σ δ) (value : Value) : Prop where
  inRange
    : ∀ index size final, Checked.forward host value site ≠ .error (.outOfRange index size) final
  unchecked : Checked.forward host value site = Checked.ofAction (Collector.forward host value) site
  ends
    : Runs (Collector.forward host value) site (fun _ final => site.regions.Forwards final.regions)
        fun violation final => site.regions.Stops value violation final.regions

/-- Forwarding keeps within bounds where memory does. -/
theorem Regions.Bounded.forwardsWithin {site : Site σ δ} (bounded : site.regions.Bounded)
    (host : Host σ δ) (value : Value)
    : site.ForwardsWithin host value :=
  have mirrors := Checked.mirrors_forward bounded host value
  ⟨mirrors.inRange, mirrors, Collector.forwards_forward bounded host value⟩

namespace World

/-- Memory is within its bounds wherever a collection of a regular heap comes through. -/
theorem bounded_passage {begun now : World σ δ} {errand : Option Errand}
    (regular : begun.heap.Regular) (collection : Collection) (host : Host σ δ) (reason : Reason)
    (through : (collection.passage host reason).Through begun now errand)
    : now.heap.regions.Bounded := by
  have resting := regular.toResting.bounded
  have invariant := Regions.invariant_bounded (δ := δ)
  cases collection with
  | minor =>
      have begins : (Collector.minorStart begun.heap).regions.Bounded :=
        ⟨resting.recorded, resting.birth, resting.old, resting.destination⟩
      have keeps := Collector.keeps_passMinor invariant host.keeps_true
        (fun _ bounded => ⟨bounded.recorded, bounded.birth, bounded.old, bounded.destination⟩) begins
        trivial reason
      exact (keeps now errand through).1
  | full =>
      have begins : ∀ words,
          host.mapper.map? (Collector.targetWords begun.heap) = some words →
          (Collector.fullStart begun.heap words).regions.Bounded := fun words _ =>
        ⟨resting.recorded, resting.birth, resting.old, Nat.zero_le _⟩
      have keeps := Collector.keeps_passFull invariant host.keeps_true begins trivial reason
      exact (keeps now errand through).1

end World

end MovingHeap
