import MovingHeap.Collector.Forwarding
import MovingHeap.Proofs.ArenaContents
import MovingHeap.Proofs.Packing

/-! All memory of a heap as one array of cells for each space.
Reading by address answers the cell of the address's space and offset, and each way of writing is
described by the cells it changes.
-/

namespace MovingHeap

variable {δ : Type}

/-- The other name of an old space is a different one. -/
theorem Space.flipped_ne {space : Space} (old : space.isOld) : space.flipped ≠ space := by
  cases space <;> simp_all [Space.isOld, Space.flipped]

/-- The other name of an old space is one of an old space. -/
theorem Space.isOld_flipped {space : Space} (old : space.isOld) : space.flipped.isOld := by
  cases space <;> simp_all [Space.isOld, Space.flipped]

namespace Regions

/-- The semispaces go by the names of old spaces, the target of a full collection by the name the
current one does not have.
-/
structure Apart (regions : Regions δ) : Prop where
  old : regions.old.space.isOld
  target : ∀ target, regions.target = some target → target.space = regions.old.space.flipped

/-- The word at an offset of a space, zero in a semispace that is not there. -/
def cell (regions : Regions δ) (space : Space) (offset : Nat) : Word :=
  match space with
  | .birth => regions.birth.words.get offset
  | .fixed => regions.fixed.arena.get offset
  | space => ((regions.oldSpace? space).map (·.words.get offset)).getD 0

/-- The word some words behind an address. -/
def field (regions : Regions δ) (addr : Address) (index : Nat) : Word :=
  regions.cell addr.space (addr.offset + index)

/-- Whether the cell can be read: it lies in its region, and in a semispace below the cursor. -/
def Readable (regions : Regions δ) (space : Space) (offset : Nat) : Prop :=
  match space with
  | .birth => offset < regions.birth.words.size
  | .fixed => offset < regions.fixed.arena.size
  | space => ∃ region, regions.oldSpace? space = some region
      ∧ offset < region.cursor ∧ offset < region.capacity

-----------------------------------------------------------------------------------------
-- Semispaces by name
-----------------------------------------------------------------------------------------

/-- A semispace is found by the name it goes by. -/
theorem space_of_oldSpace? {regions : Regions δ} {space : Space} {region : Semispace}
    (found : regions.oldSpace? space = some region)
    : region.space = space := by
  unfold oldSpace? at found
  split_ifs at found with here
  · cases found
    exact here
  · simpa using (Option.filter_eq_some_iff.mp found).2

/-- The current old semispace is found by its name. -/
@[simp] theorem oldSpace?_old (regions : Regions δ)
    : regions.oldSpace? regions.old.space = some regions.old := if_pos rfl

/-- The region that objects are copied to goes by the name of an old space. -/
theorem Apart.isOld_destination {regions : Regions δ} (apart : regions.Apart)
    : regions.destination.space.isOld := by
  cases target : regions.target with
  | none => simpa [destination, target] using apart.old
  | some region =>
      simp only [destination, target, Option.getD_some, apart.target region target]
      exact Space.isOld_flipped apart.old

/-- The region that objects are copied to is found by its name. -/
theorem Apart.oldSpace?_destination {regions : Regions δ} (apart : regions.Apart)
    : regions.oldSpace? regions.destination.space = some regions.destination := by
  cases target : regions.target with
  | none => simp [destination, target]
  | some region =>
      have differs : regions.old.space ≠ region.space := by
        rw [apart.target region target]
        exact Ne.symm (Space.flipped_ne apart.old)
      simp [destination, target, oldSpace?, differs, Option.filter]

/-- A semispace that is put back is found by its name and the other one as before. -/
theorem oldSpace?_setOldSpace {regions : Regions δ} {before after : Semispace}
    (found : regions.oldSpace? after.space = some before) (space : Space)
    : (regions.setOldSpace after).oldSpace? space
      = if space = after.space then some after else regions.oldSpace? space := by
  unfold setOldSpace
  split_ifs with current here here
  · simp [oldSpace?, here]
  · simp only [oldSpace?, current]
    rw [if_neg (Ne.symm here), if_neg (Ne.symm here)]
  · simp only [oldSpace?, here]
    rw [if_neg current]
    simp [Option.filter]
  · rw [oldSpace?, if_neg current] at found
    obtain ⟨target, same⟩ := Option.filter_eq_some_iff.mp found
    have other : ¬ before.space = space := by
      rintro rfl
      exact here (by simpa using same)
    simp only [oldSpace?, target]
    split_ifs with old
    · rfl
    · simp [Option.filter, other, Ne.symm here]

/-- Putting back the region that objects are copied to is putting it back under its name. -/
theorem Apart.setDestination_eq {regions : Regions δ} (apart : regions.Apart)
    {region : Semispace} (same : region.space = regions.destination.space)
    : regions.setDestination region = regions.setOldSpace region := by
  unfold setDestination setOldSpace isFull
  cases target : regions.target with
  | none =>
      have here : regions.old.space = region.space := by simp [same, destination, target]
      simp [here]
  | some other =>
      have differs : ¬ regions.old.space = region.space := by
        rw [same, destination, target, Option.getD_some, apart.target other target]
        exact Ne.symm (Space.flipped_ne apart.old)
      simp [differs]

-----------------------------------------------------------------------------------------
-- Reading
-----------------------------------------------------------------------------------------

/-- The cells of an old space are the words of the semispace that goes by its name. -/
theorem cell_of_isOld {regions : Regions δ} {space : Space} (old : space.isOld) (offset : Nat)
    : regions.cell space offset
      = ((regions.oldSpace? space).map (·.words.get offset)).getD 0 := by
  cases space <;> simp_all [Space.isOld, cell]

/-- The cells of the current old semispace are its words. -/
theorem Apart.cell_old {regions : Regions δ} (apart : regions.Apart) (offset : Nat)
    : regions.cell regions.old.space offset = regions.old.words.get offset := by
  rw [cell_of_isOld apart.old, oldSpace?_old]
  rfl

/-- The cells of the region that objects are copied to are its words. -/
theorem Apart.cell_destination {regions : Regions δ} (apart : regions.Apart) (offset : Nat)
    : regions.cell regions.destination.space offset = regions.destination.words.get offset := by
  rw [cell_of_isOld apart.isOld_destination, apart.oldSpace?_destination]
  rfl

/-- A cell that can be read is what reading its address answers. -/
theorem word?_eq {regions : Regions δ} {addr : Address}
    (readable : regions.Readable addr.space addr.offset)
    : regions.word? addr = some (regions.cell addr.space addr.offset) := by
  unfold word? cell
  unfold Readable at readable
  cases space : addr.space with
  | birth => simpa [space, Arena.get?] using readable
  | fixed => simpa [space, Arena.get?] using readable
  | oldA | oldB =>
      simp only [space] at readable ⊢
      obtain ⟨region, found, allocated, inside⟩ := readable
      simp only [Semispace.capacity] at inside
      simp [found, Semispace.word?, Arena.get?, allocated, inside]

/-- What reading an address answers is its cell. -/
theorem cell_of_word? {regions : Regions δ} {addr : Address} {word : Word}
    (found : regions.word? addr = some word)
    : regions.cell addr.space addr.offset = word := by
  unfold word? at found
  unfold cell
  cases space : addr.space with
  | birth =>
      simp only [space, Arena.get?] at found ⊢
      split_ifs at found
      exact Option.some.inj found
  | fixed =>
      simp only [space, Arena.get?] at found ⊢
      split_ifs at found
      exact Option.some.inj found
  | oldA | oldB =>
      simp only [space] at found ⊢
      obtain ⟨region, there, reads⟩ := Option.bind_eq_some_iff.mp found
      simp only [Semispace.word?, Arena.get?] at reads
      split_ifs at reads
      simpa [there] using reads

/-- Cells up to one that can be read are what reading them together answers. -/
theorem slice?_eq {regions : Regions δ} {addr : Address} {count last : Nat}
    (readable : regions.Readable addr.space last) (within : addr.offset + count ≤ last + 1)
    : ∃ words,
        regions.slice? addr count = some words
        ∧ words.length = count
        ∧ ∀ index (inside : index < words.length), words[index] = regions.field addr index := by
  unfold Readable at readable
  unfold slice? field cell
  cases space : addr.space with
  | birth =>
      simp only [space] at readable ⊢
      exact ⟨_, if_pos (by omega), by simp, fun index inside => by simp⟩
  | fixed =>
      simp only [space] at readable ⊢
      exact ⟨_, if_pos (by omega), by simp, fun index inside => by simp⟩
  | oldA | oldB =>
      simp only [space] at readable ⊢
      obtain ⟨region, found, allocated, inside⟩ := readable
      simp only [Semispace.capacity] at inside
      rw [found, Option.bind_some, Semispace.slice?, if_pos (by omega), Arena.slice?,
        if_pos (by omega)]
      exact ⟨_, rfl, by simp, fun index inside => by simp⟩

-----------------------------------------------------------------------------------------
-- Writing
-----------------------------------------------------------------------------------------

/-- Putting back a semispace changes the cells of its space and no others. -/
theorem cell_setOldSpace {regions : Regions δ} {before : Semispace} (after : Semispace)
    (old : after.space.isOld) (found : regions.oldSpace? after.space = some before)
    (space : Space) (offset : Nat)
    : (regions.setOldSpace after).cell space offset
      = if space = after.space then after.words.get offset else regions.cell space offset := by
  by_cases named : space.isOld
  · rw [cell_of_isOld named, cell_of_isOld named, oldSpace?_setOldSpace found]
    split_ifs <;> rfl
  · have differs : space ≠ after.space := by
      rintro rfl
      exact named old
    rw [if_neg differs]
    unfold setOldSpace
    cases space <;> split_ifs <;> simp_all [Space.isOld, cell]

/-- Putting back the region that objects are copied to changes its cells and no others. -/
theorem Apart.cell_setDestination {regions : Regions δ} (apart : regions.Apart)
    {region : Semispace} (same : region.space = regions.destination.space) (space : Space)
    (offset : Nat)
    : (regions.setDestination region).cell space offset
      = if space = region.space then region.words.get offset else regions.cell space offset := by
  rw [apart.setDestination_eq same]
  have found : regions.oldSpace? region.space = some regions.destination := by
    rw [same]
    exact apart.oldSpace?_destination
  refine cell_setOldSpace region ?_ found space offset
  rw [same]
  exact apart.isOld_destination

/-- A word that is written by address is seen in the cell of that address and in no other. -/
theorem cell_setWord? {regions next : Regions δ} {addr : Address} {word : Word}
    (done : regions.setWord? addr word = some next) (space : Space) (offset : Nat)
    : next.cell space offset
      = if space = addr.space ∧ offset = addr.offset then word
        else regions.cell space offset := by
  unfold setWord? at done
  cases here : addr.space with
  | birth =>
      simp only [here] at done
      split_ifs at done
      cases done
      cases space <;> simp [cell, Arena.get_set, eq_comm, oldSpace?]
  | fixed =>
      simp only [here] at done
      split_ifs at done
      cases done
      cases space <;> simp [cell, Arena.get_set, eq_comm, oldSpace?]
  | oldA | oldB =>
      simp only [here] at done
      obtain ⟨region, found, write⟩ := Option.bind_eq_some_iff.mp done
      split_ifs at write
      cases write
      have named := space_of_oldSpace? found
      have old : region.space.isOld := by rw [named]; rfl
      rw [cell_setOldSpace (region.setWord addr.offset word) old
        (by rw [show (region.setWord addr.offset word).space = region.space from rfl, named]
            exact found)]
      simp only [Semispace.setWord, named, Arena.get_set]
      have reads : space = region.space →
          regions.cell space offset = region.words.get offset := by
        rintro rfl
        rw [cell_of_isOld old, named, found]
        rfl
      rw [named] at reads
      grind

/-- Whether the cell can be written: it can be read and is no recorded slot. -/
def Writable (regions : Regions δ) (space : Space) (offset : Nat) : Prop :=
  match space with
  | .birth => offset < regions.birth.bufferStart
  | space => regions.Readable space offset

/-- A cell that can be written is written. -/
theorem exists_setWord? {regions : Regions δ} {addr : Address} (word : Word)
    (writable : regions.Writable addr.space addr.offset)
    : ∃ next, regions.setWord? addr word = some next := by
  unfold setWord?
  unfold Writable at writable
  cases space : addr.space with
  | birth =>
      simp only [space] at writable ⊢
      exact ⟨_, if_pos writable⟩
  | fixed =>
      simp only [space, Readable] at writable ⊢
      exact ⟨_, if_pos writable⟩
  | oldA | oldB =>
      simp only [space, Readable] at writable ⊢
      obtain ⟨region, found, allocated, inside⟩ := writable
      rw [found, Option.bind_some, if_pos ⟨allocated, inside⟩]
      exact ⟨_, rfl⟩

/-- The space a moving object is copied out of. -/
def source (regions : Regions δ) (young : Bool) : Space :=
  if young then .birth else regions.old.space

/-- The memory a moving object is copied out of is that of its space. -/
theorem Apart.cell_source {regions : Regions δ} (apart : regions.Apart) (young : Bool)
    (offset : Nat)
    : regions.cell (regions.source young) offset = (regions.origin young).1.get offset := by
  cases young with
  | true => rfl
  | false => exact apart.cell_old offset

/-- A tombstone takes the first two words of the object that it buries and no others. -/
theorem Apart.cell_bury {regions : Regions δ} (apart : regions.Apart) (young : Bool)
    (place : Nat) (forwarded : Address) (space : Space) (offset : Nat)
    : (regions.bury young place forwarded).cell space offset
      = if space = regions.source young ∧ offset = place then 0
        else if space = regions.source young ∧ offset = place + 1 then forwarded.raw
        else regions.cell space offset := by
  cases young with
  | true =>
      cases space <;>
        simp only [bury, source, if_true, cell, Arena.setMany, Arena.get_set, oldSpace?] <;> grind
  | false =>
      let buried : Semispace :=
        { regions.old with words := regions.old.words.setMany place [0, forwarded.raw] }
      have written : regions.bury false place forwarded = regions.setOldSpace buried := by
        simp [bury, setOldSpace, buried]
      rw [written, cell_setOldSpace buried apart.old (oldSpace?_old regions)]
      have reads : space = regions.old.space →
          regions.cell space offset = regions.old.words.get offset := by
        rintro rfl
        exact apart.cell_old offset
      simp only [source, Bool.false_eq_true, if_false, buried, Arena.setMany, Arena.get_set]
      grind

end Regions

end MovingHeap
