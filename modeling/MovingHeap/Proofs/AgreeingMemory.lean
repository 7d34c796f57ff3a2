import MovingHeap.Proofs.CollectionSteps
import MovingHeap.Proofs.Tracing

/-! Heaps that agree in all words that matter.
Words of the birth region and of the semispaces may differ elsewhere; everything else is the same. What is
read from words that matter is the same, and writing the same words to both lets them agree there, too.
-/

namespace MovingHeap

variable {σ δ : Type}

/-- A semispace without its words. -/
def Semispace.blank (region : Semispace) : Semispace :=
  { region with words := region.words.outline }

/-- A semispace with words filled in at the cursor and as many allocated as said. -/
def Semispace.appended (region : Semispace) (written : List Word) (count : Nat) : Semispace :=
  { region.fillTail written with cursor := region.cursor + count }

namespace Regions

/-- Memory without the words of the birth region and of the semispaces. -/
def blank (regions : Regions δ) : Regions δ :=
  { regions with
    birth := { regions.birth with words := regions.birth.words.outline }
    old := regions.old.blank
    target := regions.target.map Semispace.blank }

/-- Memory is the same but for words of the birth region and of the semispaces, and those that matter are
the same.
-/
structure AgreesOn (matters : Space → Nat → Prop) (first second : Regions δ) : Prop where
  blank : second.blank = first.blank
  cells : ∀ space offset, matters space offset → second.cell space offset = first.cell space offset

variable {matters : Space → Nat → Prop} {first second : Regions δ}

-----------------------------------------------------------------------------------------
-- What does not depend on words
-----------------------------------------------------------------------------------------

/-- There are no more words to leave out. -/
theorem blank_blank (regions : Regions δ) : regions.blank.blank = regions.blank := by
  have target : (regions.target.map Semispace.blank).map Semispace.blank
      = regions.target.map Semispace.blank := by
    rw [Option.map_map]
    rfl
  exact congrArg (fun target => { regions.blank with target }) target

/-- A region that is found by its name is found without its words. -/
theorem oldSpace?_blank (regions : Regions δ) (space : Space)
    : regions.blank.oldSpace? space = (regions.oldSpace? space).map Semispace.blank := by
  unfold oldSpace?
  by_cases here : regions.old.space = space
  · simp [blank, Semispace.blank, here]
  · simp only [blank, Semispace.blank, here, if_false]
    cases regions.target with
    | none => rfl
    | some target =>
        by_cases there : target.space = space <;> simp [Option.filter, there, Semispace.blank]

/-- The region that is copied to goes without its words. -/
theorem destination_blank (regions : Regions δ)
    : regions.blank.destination = regions.destination.blank := by
  cases target : regions.target <;> simp [blank, destination, target]

/-- A semispace is put back without its words. -/
theorem blank_setOldSpace (regions : Regions δ) (region : Semispace)
    : (regions.setOldSpace region).blank = regions.blank.setOldSpace region.blank := by
  by_cases here : regions.old.space = region.space <;>
    simp [setOldSpace, blank, Semispace.blank, here]

/-- Tombstones are words only. -/
theorem blank_bury (regions : Regions δ) (young : Bool) (offset : Nat) (forwarded : Address)
    : (regions.bury young offset forwarded).blank = regions.blank := by
  cases young <;> simp [bury, blank, Semispace.blank, Arena.outline]

/-- An object that is copied and buried leaves words only, but for the cursor and the count. -/
theorem blank_relocated (regions : Regions δ) (filled extended : Semispace) (object : Address)
    (young : Bool) (count : Nat)
    : (Collector.relocated regions filled extended object young count).blank
      = { regions.blank.setDestination extended.blank with copied := regions.copied + count } := by
  let moved := (regions.setDestination filled).setDestination extended
  have twice : moved.blank = regions.blank.setDestination extended.blank := by
    cases target : regions.target <;> simp [moved, setDestination, isFull, blank, target]
  have copied : (moved.bury young object.offset regions.destination.next).copied
      = regions.copied := by
    cases young <;> cases target : regions.target <;>
      simp [moved, bury, setDestination, isFull, target]
  have buried := blank_bury moved young object.offset regions.destination.next
  rw [← twice, ← buried, ← copied]
  rfl

/-- Whether a word can be written does not depend on words. -/
theorem blank_setWord? (regions : Regions δ) (addr : Address) (word : Word)
    : (regions.setWord? addr word).map blank = (regions.blank.setWord? addr word).map blank := by
  have again := blank_blank regions
  have semispace : ∀ space,
      ((regions.oldSpace? space).bind fun region =>
        if addr.offset < region.cursor ∧ addr.offset < region.capacity then
          some (regions.setOldSpace (region.setWord addr.offset word))
        else none).map blank
      = ((regions.blank.oldSpace? space).bind fun region =>
        if addr.offset < region.cursor ∧ addr.offset < region.capacity then
          some (regions.blank.setOldSpace (region.setWord addr.offset word))
        else none).map blank := by
    intro space
    rw [oldSpace?_blank]
    cases regions.oldSpace? space with
    | none => rfl
    | some region =>
        have size : region.blank.capacity = region.capacity := rfl
        by_cases inside : addr.offset < region.cursor ∧ addr.offset < region.capacity
        · have written : (region.blank.setWord addr.offset word).blank
              = (region.setWord addr.offset word).blank := rfl
          simp only [Option.map_some, Option.bind_some, size, if_pos inside,
            show region.blank.cursor = region.cursor from rfl, blank_setOldSpace, written, again]
        · simp only [Option.map_some, Option.bind_some, size, if_neg inside,
            show region.blank.cursor = region.cursor from rfl]
  unfold setWord?
  cases addr.space with
  | birth =>
      by_cases inside : addr.offset < regions.birth.writable
      · simp only [if_pos inside, if_pos (show addr.offset < regions.blank.birth.writable from inside)]
        exact congrArg some again.symm
      · simp only [if_neg inside, if_neg (show ¬ addr.offset < regions.blank.birth.writable from inside)]
  | fixed =>
      let written (regions : Regions δ) : Regions δ :=
        { regions with
          fixed := { regions.fixed with arena := regions.fixed.arena.set addr.offset word } }
      by_cases inside : addr.offset < regions.fixed.arena.size
      · simp only [if_pos inside, if_pos (show addr.offset < regions.blank.fixed.arena.size from inside)]
        exact congrArg (fun blank => some (written blank)) again.symm
      · simp only [if_neg inside,
          if_neg (show ¬ addr.offset < regions.blank.fixed.arena.size from inside)]
  | oldA => exact semispace .oldA
  | oldB => exact semispace .oldB

namespace AgreesOn

/-- Memory agrees where fewer words matter. -/
theorem mono (agrees : first.AgreesOn matters second) {fewer : Space → Nat → Prop}
    (subset : ∀ space offset, fewer space offset → matters space offset)
    : first.AgreesOn fewer second :=
  ⟨agrees.blank, fun space offset here => agrees.cells space offset (subset space offset here)⟩

section Shape

variable (agrees : first.AgreesOn matters second)

include agrees

theorem fixed : second.fixed = first.fixed :=
  congrArg (fun regions => regions.fixed) agrees.blank

theorem unscanned : second.unscanned = first.unscanned :=
  congrArg (fun regions => regions.unscanned) agrees.blank

theorem copied : second.copied = first.copied :=
  congrArg (fun regions => regions.copied) agrees.blank

theorem birthCursor : second.birth.cursor = first.birth.cursor :=
  congrArg (fun regions => regions.birth.cursor) agrees.blank

theorem bufferStart : second.birth.bufferStart = first.birth.bufferStart :=
  congrArg (fun regions => regions.birth.bufferStart) agrees.blank

theorem birthSize : second.birth.words.size = first.birth.words.size :=
  congrArg (fun regions => regions.birth.words.size) agrees.blank

theorem oldSpace : second.old.space = first.old.space :=
  congrArg (fun regions => regions.old.space) agrees.blank

theorem oldCursor : second.old.cursor = first.old.cursor :=
  congrArg (fun regions => regions.old.cursor) agrees.blank

theorem oldSize : second.old.words.size = first.old.words.size :=
  congrArg (fun regions => regions.old.words.size) agrees.blank

theorem target : second.target.map Semispace.blank = first.target.map Semispace.blank :=
  congrArg (fun regions => regions.target) agrees.blank

/-- The same kind of collection is running. -/
theorem isFull : second.isFull = first.isFull := by
  have same := congrArg Option.isSome agrees.target
  simpa [Regions.isFull] using same

/-- The regions that are copied to differ in words only. -/
theorem destination : second.destination.blank = first.destination.blank := by
  rw [← destination_blank, ← destination_blank, agrees.blank]

theorem destinationSpace : second.destination.space = first.destination.space :=
  (congrArg Semispace.space agrees.destination :)

theorem destinationCursor : second.destination.cursor = first.destination.cursor :=
  (congrArg Semispace.cursor agrees.destination :)

theorem destinationSize : second.destination.words.size = first.destination.words.size :=
  (congrArg (fun region => region.words.size) agrees.destination :)

theorem destinationFree : second.destination.free = first.destination.free := by
  simp only [Semispace.free, Semispace.capacity, agrees.destinationSize, agrees.destinationCursor]

theorem next : second.destination.next = first.destination.next := by
  simp only [Semispace.next, agrees.destinationSpace, agrees.destinationCursor]

/-- What moves is copied out of regions that end in the same place. -/
theorem limit (young : Bool) : (second.origin young).2 = (first.origin young).2 := by
  cases young with
  | true => exact agrees.birthCursor
  | false => exact agrees.oldCursor

theorem source (young : Bool) : second.source young = first.source young := by
  simp only [Regions.source, agrees.oldSpace]

/-- A region that is found by a name in one memory is found in the other. -/
theorem oldSpace? (space : Space)
    : (second.oldSpace? space).map Semispace.blank = (first.oldSpace? space).map Semispace.blank := by
  rw [← oldSpace?_blank, ← oldSpace?_blank, agrees.blank]

/-- The semispaces go by the same names. -/
theorem apart (apart : first.Apart) : second.Apart where
  old := by
    rw [agrees.oldSpace]
    exact apart.old
  target := by
    intro region found
    have same := agrees.target
    rw [found, Option.map_some, eq_comm, Option.map_eq_some_iff] at same
    obtain ⟨other, there, equal⟩ := same
    have spaces : other.space = region.space := (congrArg Semispace.space equal :)
    rw [← spaces, agrees.oldSpace]
    exact apart.target other there

-----------------------------------------------------------------------------------------
-- Reading
-----------------------------------------------------------------------------------------

/-- What can be read from one memory can be read from the other. -/
theorem readable {space : Space} {offset : Nat} (readable : first.Readable space offset)
    : second.Readable space offset := by
  have semispace : ∀ space,
      (∃ region, first.oldSpace? space = some region
        ∧ offset < region.cursor ∧ offset < region.capacity) →
      ∃ region, second.oldSpace? space = some region
        ∧ offset < region.cursor ∧ offset < region.capacity := by
    rintro space ⟨region, found, allocated, inside⟩
    have same := agrees.oldSpace? space
    rw [found, Option.map_some, Option.map_eq_some_iff] at same
    obtain ⟨other, there, equal⟩ := same
    have cursor : other.cursor = region.cursor := (congrArg Semispace.cursor equal :)
    have size : other.capacity = region.capacity :=
      (congrArg (fun region => region.words.size) equal :)
    exact ⟨other, there, by rwa [cursor], by rwa [size]⟩
  cases space with
  | birth =>
      simp only [Readable] at readable ⊢
      rwa [agrees.birthSize]
  | fixed =>
      simp only [Readable] at readable ⊢
      rwa [agrees.fixed]
  | oldA => exact semispace .oldA readable
  | oldB => exact semispace .oldB readable

/-- Words of the fixed space are the same. -/
theorem cell_fixed (offset : Nat) : second.cell .fixed offset = first.cell .fixed offset := by
  simp only [cell, agrees.fixed]

/-- A word that is the same is read the same. -/
theorem word? {addr : Address} (readable : first.Readable addr.space addr.offset)
    (same : second.cell addr.space addr.offset = first.cell addr.space addr.offset)
    : second.word? addr = first.word? addr := by
  rw [word?_eq readable, word?_eq (agrees.readable readable), same]

/-- Consecutive words that are the same are read the same. -/
theorem slice? {addr : Address} {count last : Nat} (readable : first.Readable addr.space last)
    (within : addr.offset + count ≤ last + 1)
    (same : ∀ index < count, second.field addr index = first.field addr index)
    : second.slice? addr count = first.slice? addr count := by
  obtain ⟨words, read, length, fields⟩ := slice?_eq readable within
  obtain ⟨others, read', length', fields'⟩ := slice?_eq (agrees.readable readable) within
  have equal : others = words := by
    refine List.ext_getElem (length'.trans length.symm) fun index left right => ?_
    rw [fields index right, fields' index left]
    exact same index (by omega)
  rw [read, read', equal]

/-- The recorded slots are the same if they matter. -/
theorem remembered (here : ∀ offset, first.birth.bufferStart ≤ offset → matters .birth offset)
    : second.birth.remembered = first.birth.remembered := by
  simp only [BirthRegion.remembered, BirthRegion.rememberedCount, BirthRegion.capacity,
    agrees.bufferStart, agrees.birthSize]
  exact Arena.words_congr fun index above _ => agrees.cells .birth index (here index above)

-----------------------------------------------------------------------------------------
-- Writing
-----------------------------------------------------------------------------------------

/-- Writing a word to both lets them agree. -/
theorem setWord? {addr : Address} {word : Word} {next : Regions δ}
    (done : first.setWord? addr word = some next)
    : ∃ next', second.setWord? addr word = some next' ∧ next.AgreesOn matters next' := by
  have blanks : (second.setWord? addr word).map Regions.blank = some next.blank := by
    rw [blank_setWord?, agrees.blank, ← blank_setWord?, done]
    rfl
  obtain ⟨next', done', same⟩ := Option.map_eq_some_iff.mp blanks
  refine ⟨next', done', same, fun space offset here => ?_⟩
  rw [cell_setWord? done, cell_setWord? done', agrees.cells space offset here]

/-- Changing the fixed space in the same way lets both agree. -/
theorem changeFixed (change : FixedSpace δ → FixedSpace δ)
    : Regions.AgreesOn matters { first with fixed := change first.fixed }
        { second with fixed := change second.fixed } where
  blank :=
    congrArg (fun regions : Regions δ => { regions with fixed := change regions.fixed }) agrees.blank
  cells space offset here := by
    cases space with
    | fixed => simp only [cell, agrees.fixed]
    | birth => exact agrees.cells .birth offset here
    | oldA => exact agrees.cells .oldA offset here
    | oldB => exact agrees.cells .oldB offset here

/-- Changing what is to be scanned in the same way lets both agree. -/
theorem changeUnscanned (change : List Nat → List Nat)
    : Regions.AgreesOn matters { first with unscanned := change first.unscanned }
        { second with unscanned := change second.unscanned } where
  blank :=
    congrArg (fun regions : Regions δ => { regions with unscanned := change regions.unscanned })
      agrees.blank
  cells space offset here := by
    have same := agrees.cells space offset here
    cases space <;> exact same

/-- A copy that begins with a word of its own is admitted by both. -/
theorem admit? {written : List Word} {count : Nat} {extended : Semispace}
    (begins : 0 < written.length) (fits : written.length ≤ first.destination.free)
    (admitted : Regions.admit? (first.destination.fillTail written) count = some extended)
    : extended = first.destination.appended written count
      ∧ Regions.admit? (second.destination.fillTail written) count
        = some (second.destination.appended written count) := by
  have word := Semispace.get_fillTail_filled first.destination fits begins
  have word' := Semispace.get_fillTail_filled second.destination
    (agrees.destinationFree ▸ fits) begins
  have cursor : (first.destination.fillTail written).cursor = first.destination.cursor := rfl
  have cursor' : (second.destination.fillTail written).cursor = second.destination.cursor := rfl
  rw [Nat.add_zero] at word word'
  unfold Regions.admit? Semispace.bump? at admitted ⊢
  rw [cursor, word, Semispace.capacity_fillTail] at admitted
  rw [cursor', word', Semispace.capacity_fillTail, Semispace.capacity, agrees.destinationCursor,
    agrees.destinationSize]
  split_ifs at admitted with large room
  cases admitted
  refine ⟨rfl, ?_⟩
  rw [if_pos large, if_pos (show first.destination.cursor + count
    ≤ first.destination.words.size from room), ← agrees.destinationCursor]
  rfl

/-- Where words were filled in, or agreed before, the regions that are copied to agree. -/
theorem get_fillTail (apart : first.Apart) {written : List Word}
    (fits : written.length ≤ first.destination.free) {offset : Nat}
    (here
      : matters first.destination.space offset
        ∨ first.destination.cursor ≤ offset
          ∧ offset < first.destination.cursor + written.length)
    : (second.destination.fillTail written).words.get offset
      = (first.destination.fillTail written).words.get offset := by
  have fits' : written.length ≤ second.destination.free := agrees.destinationFree ▸ fits
  by_cases inside
      : first.destination.cursor ≤ offset ∧ offset < first.destination.cursor + written.length
  · obtain ⟨index, rfl⟩ := Nat.exists_eq_add_of_le inside.1
    have within : index < written.length := by omega
    have filled := Semispace.get_fillTail_filled second.destination fits' within
    rw [agrees.destinationCursor] at filled
    rw [filled, Semispace.get_fillTail_filled first.destination fits within]
  · have whole : written.take first.destination.free = written := List.take_of_length_le fits
    have outside : offset < first.destination.cursor
        ∨ first.destination.cursor + written.length ≤ offset := by omega
    simp only [Semispace.fillTail, agrees.destinationFree, agrees.destinationCursor, whole,
      Arena.get_setMany_outside _ outside]
    rw [← apart.cell_destination, ← (agrees.apart apart).cell_destination, agrees.destinationSpace]
    exact agrees.cells _ _ (here.resolve_right inside)

/-- Copying the same words for an object and burying it lets both agree on the copy, too. -/
theorem relocated (apart : first.Apart) {written : List Word}
    (fits : written.length ≤ first.destination.free) (object : Address) (young : Bool) (count : Nat)
    : (Collector.relocated first (first.destination.fillTail written)
          (first.destination.appended written count) object young count).AgreesOn
        (fun space offset =>
          matters space offset
          ∨ space = first.destination.space
            ∧ first.destination.cursor ≤ offset
            ∧ offset < first.destination.cursor + written.length)
        (Collector.relocated second (second.destination.fillTail written)
          (second.destination.appended written count) object young count) where
  blank := by
    simp only [blank_relocated, agrees.blank, agrees.copied, Semispace.blank, Semispace.appended,
      Semispace.fillTail, Arena.outline, Arena.size_setMany, agrees.destinationSpace, agrees.destinationCursor,
      agrees.destinationSize]
  cells space offset here := by
    rw [apart.cell_relocated (first.destination.fillTail written)
        (first.destination.appended written count) rfl rfl rfl,
      (agrees.apart apart).cell_relocated (second.destination.fillTail written)
        (second.destination.appended written count) rfl rfl rfl, agrees.source, agrees.next, agrees.destinationSpace]
    split_ifs with first second destination
    · rfl
    · rfl
    · subst destination
      exact agrees.get_fillTail apart fits (here.imp_right And.right)
    · exact agrees.cells space offset (here.resolve_right fun copied => destination copied.1)

-----------------------------------------------------------------------------------------
-- Beginning and ending a collection
-----------------------------------------------------------------------------------------

/-- Counting copied words afresh lets both agree. -/
theorem recounted (count : Nat)
    : Regions.AgreesOn matters { first with copied := count } { second with copied := count } where
  blank := congrArg (fun regions : Regions δ => { regions with copied := count }) agrees.blank
  cells space offset here := by
    have same := agrees.cells space offset here
    cases space <;> exact same

/-- Opening the same semispace to copy to lets both agree. -/
theorem opened (target : Semispace)
    : Regions.AgreesOn matters { first with target := some target }
        { second with target := some target } where
  blank :=
    congrArg (fun regions : Regions δ => { regions with target := some target.blank }) agrees.blank
  cells space offset here := by
    have same := agrees.cells space offset here
    cases space with
    | birth | fixed => exact same
    | oldA | oldB =>
        simp only [cell, Regions.oldSpace?, agrees.oldSpace] at same ⊢
        split_ifs at same ⊢ with current
        · exact same
        · rfl

/-- Emptying both birth regions lets both agree. -/
theorem reset
    : Regions.AgreesOn matters { first with birth := first.birth.reset }
        { second with birth := second.birth.reset } where
  blank :=
    congrArg (fun regions : Regions δ => { regions with birth := regions.birth.reset }) agrees.blank
  cells space offset here := by
    have same := agrees.cells space offset here
    cases space <;> exact same

/-- Going on in what was copied to lets both agree. -/
theorem adopted (apart : first.Apart)
    : (Collector.adoptTarget first).AgreesOn matters (Collector.adoptTarget second) where
  blank := by
    have adopts : ∀ regions : Regions δ,
        (Collector.adoptTarget regions).blank
          = { regions.blank with
              old := regions.destination.blank
              target := none
              fixed := regions.fixed.clearFresh } := fun _ => rfl
    rw [adopts, adopts, agrees.blank, agrees.destination, agrees.fixed]
  cells space offset here := by
    have same := agrees.cells space offset here
    have semispace : ∀ space, space.isOld → second.cell space offset = first.cell space offset →
        (Collector.adoptTarget second).cell space offset
          = (Collector.adoptTarget first).cell space offset := by
      intro space isOld same
      simp only [cell_of_isOld isOld, Regions.oldSpace?, Collector.adoptTarget,
        agrees.destinationSpace]
      split_ifs with current
      · subst current
        rw [apart.cell_destination, ← agrees.destinationSpace,
          (agrees.apart apart).cell_destination] at same
        exact congrArg (some · |>.getD 0) same
      · rfl
    cases space with
    | birth | fixed => exact same
    | oldA => exact semispace .oldA rfl same
    | oldB => exact semispace .oldB rfl same

end Shape

end AgreesOn

end Regions

-----------------------------------------------------------------------------------------
-- Worlds
-----------------------------------------------------------------------------------------

/-- What callbacks see of two worlds is the same but for words that do not matter. -/
structure Site.AgreesOn (matters : Space → Nat → Prop) (first second : Site σ δ) : Prop where
  regions : first.regions.AgreesOn matters second.regions
  host : second.host = first.host
  log : second.log = first.log

/-- Two worlds are the same but for words that do not matter, of the birth region and of the semispaces. -/
structure World.AgreesOn (matters : Space → Nat → Prop) (first second : World σ δ) : Prop where
  regions : first.heap.regions.AgreesOn matters second.heap.regions
  rest : second.heap = { first.heap with regions := second.heap.regions }
  host : second.host = first.host
  log : second.log = first.log

namespace World.AgreesOn

variable {matters : Space → Nat → Prop} {first second : World σ δ}
  (agrees : first.AgreesOn matters second)

include agrees

/-- The worlds agree in what callbacks see of them. -/
theorem site : first.site.AgreesOn matters second.site :=
  ⟨agrees.regions, agrees.host, agrees.log⟩

/-- Where callbacks let both sites agree, the worlds do. -/
theorem withSite {others : Space → Nat → Prop} {site site' : Site σ δ}
    (sites : site.AgreesOn others site')
    : (first.withSite site).AgreesOn others (second.withSite site') where
  regions := sites.regions
  rest :=
    congrArg (fun heap : Heap δ => { heap with regions := site'.regions }) agrees.rest
  host := sites.host
  log := sites.log

/-- Changing both heaps in the same way, but for words, lets them agree. -/
theorem heap {others : Space → Nat → Prop} {next next' : Heap δ}
    (regions : next.regions.AgreesOn others next'.regions)
    (rest : next' = { next with regions := next'.regions })
    : World.AgreesOn others { first with heap := next } { second with heap := next' } :=
  ⟨regions, rest, agrees.host, agrees.log⟩

/-- Where fewer words matter, the worlds agree. -/
theorem mono {fewer : Space → Nat → Prop}
    (subset : ∀ space offset, fewer space offset → matters space offset)
    : first.AgreesOn fewer second :=
  ⟨agrees.regions.mono subset, agrees.rest, agrees.host, agrees.log⟩

/-- What does not depend on memory is the same of both heaps. -/
theorem table {α : Type} (read : Heap δ → α)
    (outside : ∀ heap regions, read { heap with regions } = read heap)
    : read second.heap = read first.heap := by
  rw [agrees.rest, outside]

/-- Every root holds the same in both. -/
theorem rootValue (root : Root) : second.heap.rootValue root = first.heap.rootValue root :=
  agrees.table (·.rootValue root) fun _ _ => by cases root <;> rfl

/-- Updating the same root in both lets the worlds agree. -/
theorem setRoot (root : Root) (value : Value)
    : World.AgreesOn matters { first with heap := first.heap.setRoot root value }
        { second with heap := second.heap.setRoot root value } := by
  refine agrees.heap ?_ ?_
  · rw [Heap.regions_setRoot, Heap.regions_setRoot]
    exact agrees.regions
  · rw [Heap.regions_setRoot, agrees.rest]
    cases root <;> rfl

end World.AgreesOn

end MovingHeap
