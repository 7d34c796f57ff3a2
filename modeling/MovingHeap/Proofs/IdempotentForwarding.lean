import MovingHeap.Proofs.Guarantees
import MovingHeap.Proofs.Midway
import MovingHeap.Proofs.RepeatedVisits

/-! Forwarding twice.
What a value becomes leads to nothing that has yet to move or to be marked, so forwarding that again
changes nothing. In the middle of a collection this holds of all that is held there, and a collection
does not tell a host that visits everything once from one that does so more often.
-/

namespace MovingHeap

variable {σ δ : Type}

-----------------------------------------------------------------------------------------
-- Values that forwarding settles
-----------------------------------------------------------------------------------------

/-- Forwarding the value ends; forwarding what comes of it gives the same and leaves everything as it is,
whatever the host would do if it was called.
-/
def Site.Settles (host : Host σ δ) (site : Site σ δ) (value : Value) : Prop :=
  Ends (Collector.forward host value) site fun result final =>
    ∀ other : Host σ δ, Collector.forward other result final = .ok result final

/-- What a value that is settled becomes is settled. -/
theorem Site.Settles.became {host : Host σ δ} {site : Site σ δ} {value moved : Value}
    (settles : site.Settles host value)
    (forwards : Collector.forward host value site = .ok moved site)
    : site.Settles host moved := by
  have rests := settles.of_ok forwards
  unfold Site.Settles Ends Runs
  rw [rests host]
  exact rests

/-- Where an object is by now: where its tombstone leads, if it has moved. -/
def Regions.residence (regions : Regions δ) (object : Address) : Address :=
  if regions.moves regions.isFull object.space ∧ regions.field object 0 = 0 then
    ⟨regions.field object 1⟩
  else object

/-- What an errand forwards. -/
def Errand.held (regions : Regions δ) : Errand → Value
  | .slot addr => ⟨regions.cell addr.space addr.offset⟩
  | .value kept => kept

/-- The value is held in the middle of a collection that began in the first world: by a root of the heap,
by a root of the host as it was or, where that is decided, as it became, by a slot of a moving object
that could be reached, wherever that is by now, or by a word of a fixed object that could be reached and
was not forgotten; where old objects stay, by a slot of any of them or of a fixed object; or it is about
to be forwarded.
-/
inductive World.Held (contract : Contract σ) (began now : World σ δ) (errand : Option Errand)
    : Value → Prop where
  | root (root : Root) : Held contract began now errand (now.heap.rootValue root)
  | kept {value : Value} (member : value ∈ contract.roots began.host)
      : Held contract began now errand value
  | became {root value : Value} (member : root ∈ contract.roots began.host)
      (decided : ∀ host : Host σ δ, Collector.forward host root now.site = .ok value now.site)
      : Held contract began now errand value
  | slot {object : Address} {index : Nat} (valid : object.Decodes)
      (reached : began.Reached contract object.toValue) (notFixed : object.space ≠ .fixed)
      (slot : contract.layout.IsSlot (began.heap.regions.field object) index)
      : Held contract began now errand
          ⟨now.heap.regions.field (now.heap.regions.residence object) index⟩
  | payload {addr : Address} {begin index : Nat} {occupant : Occupant δ} (valid : addr.Decodes)
      (reached : began.Reached contract addr.toValue) (fixed : addr.space = .fixed)
      (covers : began.heap.regions.fixed.containing? addr.offset = some begin)
      (found : began.heap.regions.fixed.occupant? begin = some occupant)
      (known : occupant.forgotten = false) (inside : index < occupant.words)
      : Held contract began now errand ⟨now.heap.regions.cell .fixed (begin + index)⟩
  | outside {space : Space} {offset : Nat} (minor : now.heap.regions.isFull = false)
      (slot : began.heap.regions.Slot contract.layout space offset)
      : Held contract began now errand ⟨now.heap.regions.cell space offset⟩
  | asked {asked : Errand} (asks : errand = some asked)
      : Held contract began now errand (asked.held now.heap.regions)

namespace Pass

/-- The value needs no forwarding, or was carried over from one that was met. -/
def Follows (pass : Pass σ δ) (trail : Trail) (value : Value) : Prop :=
  pass.Still trail value
  ∨ ∃ original, pass.Traced original ∧ pass.Carried trail original value.raw

section Ready

variable {pass : Pass σ δ} {origin : Heap δ} {kept : List Value} {trail : Trail} {site : Site σ δ}
  {now : Regions δ} {world : World σ δ} {host : Host σ δ} {value : Value}

theorem follows_of_traced (traced : pass.Traced value) : pass.Follows trail value :=
  Or.inr ⟨value, traced, Or.inl rfl⟩

variable (ready : pass.Ready)

include ready

/-- Forwarding a value that needs none leaves everything as it is, without a call to the host. -/
theorem forward_eq_of_still (moment : pass.Moment kept trail site) (host : Host σ δ)
    (still : pass.Still trail value)
    : Collector.forward host value site = .ok value site := by
  obtain ⟨result, final, run, rfl, rfl⟩ := (forward_still ready moment host still).exists_ok
  exact run

/-- What a value that was met became, or a value that needs no forwarding, is settled by forwarding. -/
theorem Follows.settles (follows : pass.Follows trail value)
    (moment : pass.Moment kept trail site) (faithful : host.Traces pass.contract)
    : site.Settles host value := by
  rcases follows with still | ⟨original, traced, carried⟩
  · refine (forward_still ready moment host still).mono ?_
    rintro _ _ ⟨rfl, rfl⟩ other
    exact forward_eq_of_still ready moment other still
  · refine (forward_carried ready moment faithful traced carried).mono ?_
    rintro _ final ⟨later, meets, rfl⟩ other
    have still := meets.moment.progress.still_relocated ready traced meets.settled
    exact forward_eq_of_still ready meets.moment other still

-----------------------------------------------------------------------------------------
-- What is held
-----------------------------------------------------------------------------------------

theorem Progress.follows_of_holds (progress : pass.Progress trail now) {space : Space}
    {offset : Nat} (holds : pass.Holds trail space offset value)
    : pass.Follows trail ⟨now.cell space offset⟩ :=
  Or.inr ⟨value, progress.traced_of_holds ready holds, progress.slots space offset value holds⟩

/-- A slot of an object that moves, wherever the object is by now. -/
theorem Progress.follows_slot (progress : pass.Progress trail now) {object : Address}
    (valid : object.Decodes) (traced : pass.Traced object.toValue) (moves : pass.moves object.space)
    {index : Nat} (slot : pass.layout.IsSlot (pass.before.field object) index)
    : pass.Follows trail ⟨now.field (now.residence object) index⟩ := by
  have moves' : now.moves now.isFull object.space := by
    rw [Regions.moves, progress.evolves.isFull, progress.evolves.oldSpace]
    exact moves
  by_cases moved : object ∈ trail.moved
  · obtain ⟨first, second⟩ := progress.buried object moved
    obtain ⟨-, space, offset⟩ := progress.copyOf_eq ready moved
    have place : now.residence object = pass.copyOf trail object := by
      rw [Regions.residence, if_pos ⟨moves', first⟩, second]
    rw [place, Regions.field, space, offset]
    exact progress.follows_of_holds ready (.copied moved slot)
  · have same := progress.intact object valid traced moves moved
    have isObject := (ready.object object valid traced moves).1
    have positive : 0 < pass.size object := by
      have least := pass.layout.two_le_size isObject
      rw [Pass.size]
      omega
    have stays : now.residence object = object := by
      rw [Regions.residence, if_neg]
      rw [same 0 positive]
      exact fun buried => pass.layout.first_ne_zero isObject buried.2
    rw [stays, same index (ready.slot_lt valid traced moves slot)]
    exact follows_of_traced (.field valid traced moves slot)

/-- What is about to be forwarded. -/
theorem Progress.follows_asked (progress : pass.Progress trail now) {errand : Errand}
    (asks : pass.Asks trail (some errand))
    : pass.Follows trail (errand.held now) := by
  cases errand with
  | slot slot =>
      obtain ⟨value, holds⟩ := asks
      exact progress.follows_of_holds ready holds
  | value value =>
      rcases asks with traced | ⟨root, became⟩
      · exact follows_of_traced traced
      · exact Or.inl became.still

omit ready in
/-- What a root holds. -/
theorem Standing.follows_root (standing : pass.Standing origin kept trail world) (root : Root)
    (traced : pass.Traced (origin.rootValue root))
    : pass.Follows trail (world.heap.rootValue root) :=
  Or.inr ⟨origin.rootValue root, traced, standing.carried root⟩

/-- A second visit to a slot right behind the first one changes nothing. -/
theorem visitSlot_calm (moment : pass.Moment kept trail site) (faithful : host.Traces pass.contract)
    {slot : Address} (holds : pass.Holds trail slot.space slot.offset value)
    : Ends (Collector.visitSlot host slot) site fun _ after =>
        Collector.visitSlot host slot after = .ok () after := by
  refine (visitSlot_holds ready moment faithful holds).mono ?_
  rintro _ after ⟨later, visits, ⟨settled, same⟩, -⟩
  have progress := visits.moment.progress
  have held := holds.grows visits.grows
  have still : pass.Still later ⟨after.regions.cell slot.space slot.offset⟩ := by
    rw [same]
    exact progress.still_relocated ready (progress.traced_of_holds ready held) settled
  have rests : Ends (Collector.visitSlot host slot) after fun _ final => final = after := by
    simp only [Collector.visitSlot, Collector.loadWord, runs_bind, runs_get,
      Regions.word?_eq (progress.readable_of_holds ready held), Site.runs_require_some]
    refine (forward_still ready visits.moment host still).mono ?_
    rintro _ _ ⟨rfl, rfl⟩
    rw [if_neg (not_not.mpr rfl)]
    rfl
  obtain ⟨_, _, run, rfl⟩ := rests.exists_ok
  exact run

/-- Whatever is about to be forwarded in the middle of a collection may be forwarded again. -/
theorem Amid.calm {errand : Option Errand} (amid : pass.Amid origin world errand)
    (faithful : host.Traces pass.contract)
    : Errand.Calm host world.site errand := by
  obtain ⟨kept, trail, standing, asks⟩ := amid
  cases errand with
  | none => trivial
  | some errand =>
      cases errand with
      | slot slot =>
          obtain ⟨value, holds⟩ := asks
          exact Runs.mono (visitSlot_calm ready standing.moment faithful holds) (fun _ _ => id)
            fun _ _ => False.elim
      | value value =>
          have follows := standing.moment.progress.follows_asked ready asks
          exact Runs.mono (follows.settles ready standing.moment faithful)
            (fun _ _ rests => rests host) fun _ _ => False.elim

end Ready

-----------------------------------------------------------------------------------------
-- Minor collections
-----------------------------------------------------------------------------------------

section Minor

variable {contract : Contract σ} {world : World σ δ} (sound : world.Sound contract)

include sound

/-- A birth reference that is met by following all references is met by a minor collection, by induction
over the path: where the path leaves the old region or a fixed object for the birth region, the slot is
noted.
-/
theorem traced_of_birth {value : Value} (met : world.Met contract [] value)
    (birth : value.isBirth)
    : (ofMinor contract world).Traced value := by
  have noted : ∀ {space offset}, world.heap.regions.Slot contract.layout space offset →
      (Value.mk (world.heap.regions.cell space offset)).isBirth →
      (ofMinor contract world).Traced ⟨world.heap.regions.cell space offset⟩ :=
    fun slot birth => .start (.noted (sound.generational.slots _ _ slot birth))
  induction met with
  | start start => exact .start start
  | @field object index valid met moves slot ih =>
      by_cases young : object.space = .birth
      · refine .field valid (ih ?_) ((moves_ofMinor sound).mpr young) slot
        simp [Value.isBirth, Value.address?_toValue valid, young]
      · have old : object.space = world.heap.regions.old.space := by
          simpa [Regions.moves, young] using moves
        exact noted (slot_of_old sound valid met old slot) birth
  | payload valid _ _ fixed covers found known inside ih => exact noted (.fixed found inside) birth

section Progress

variable {trail : Trail} {now : Regions δ}
  (progress : (ofMinor contract world).Progress trail now) (ready : (ofMinor contract world).Ready)

include progress ready

/-- A slot outside of the birth region is noted or leads elsewhere. -/
theorem follows_outside {space : Space} {offset : Nat}
    (slot : world.heap.regions.Slot contract.layout space offset)
    : (ofMinor contract world).Follows trail ⟨now.cell space offset⟩ := by
  by_cases noted : world.heap.regions.Noted space offset
  · exact progress.follows_of_holds ready (.stayed noted)
  · rw [progress.stays space offset (stays_of_slot sound slot) noted]
    exact Or.inl (still_of_unnoted sound slot noted)

/-- A slot of a moving object that could be reached, by whether the object is young. -/
theorem follows_reached {object : Address} (valid : object.Decodes)
    (reached : world.Reached contract object.toValue) (notFixed : object.space ≠ .fixed)
    {index : Nat} (slot : contract.layout.IsSlot (world.heap.regions.field object) index)
    : (ofMinor contract world).Follows trail ⟨now.field (now.residence object) index⟩ := by
  have met : world.Met contract [] object.toValue := reached.mono fun _ root => .rooted root
  by_cases young : object.space = .birth
  · have traced : (ofMinor contract world).Traced object.toValue :=
      traced_of_birth sound met (by simp [Value.isBirth, Value.address?_toValue valid, young])
    exact progress.follows_slot ready valid traced ((moves_ofMinor sound).mpr young) slot
  · have old : object.space = world.heap.regions.old.space := by
      have moves := (sound.wellFormed.coherent.object object valid met notFixed).1
      simpa [Regions.moves, young] using moves
    have stays : now.residence object = object := by
      rw [Regions.residence, if_neg]
      rw [Regions.moves, progress.evolves.isFull]
      have minor : world.heap.regions.isFull = false := full_ofMinor sound
      simp [ofMinor, minor, young]
    rw [stays]
    exact follows_outside sound progress ready (slot_of_old sound valid met old slot)

end Progress

/-- Whatever is held in the middle of a minor collection is settled by forwarding. -/
theorem Amid.settles_ofMinor {now : World σ δ} {errand : Option Errand} {host : Host σ δ}
    (ready : (ofMinor contract world).Ready) (faithful : host.Traces contract)
    (amid : (ofMinor contract world).Amid world.heap now errand) {value : Value}
    (held : world.Held contract now errand value)
    : now.site.Settles host value := by
  obtain ⟨_, trail, standing, asks⟩ := amid
  have progress := standing.moment.progress
  have settles : ∀ {value}, (ofMinor contract world).Follows trail value →
      now.site.Settles host value := fun follows =>
    follows.settles ready standing.moment faithful
  have kept : ∀ root ∈ contract.roots world.host, now.site.Settles host root := fun root member =>
    settles (follows_of_traced (.start (.rooted (.kept member))))
  cases held with
  | root root => exact settles (standing.follows_root root (.start (.rooted (.root root))))
  | kept member => exact kept _ member
  | became member decided => exact (kept _ member).became (decided host)
  | slot valid reached notFixed slot =>
      exact settles (follows_reached sound progress ready valid reached notFixed slot)
  | payload _ _ _ _ found _ inside =>
      exact settles (follows_outside sound progress ready (.fixed found inside))
  | outside _ slot => exact settles (follows_outside sound progress ready slot)
  | asked same =>
      rw [same] at asks
      exact settles (progress.follows_asked ready asks)

end Minor

-----------------------------------------------------------------------------------------
-- Full collections
-----------------------------------------------------------------------------------------

/-- Whatever is held in the middle of a full collection is settled by forwarding. -/
theorem Amid.settles_ofFull {contract : Contract σ} {world now : World σ δ} {words : Arena}
    (collectable : world.Collectable contract) {errand : Option Errand} {host : Host σ δ}
    (ready : (ofFull contract world words).Ready) (faithful : host.Traces contract)
    (amid : (ofFull contract world words).Amid world.heap now errand) {value : Value}
    (held : world.Held contract now errand value)
    : now.site.Settles host value := by
  obtain ⟨_, trail, standing, asks⟩ := amid
  have progress := standing.moment.progress
  have settles : ∀ {value}, (ofFull contract world words).Follows trail value →
      now.site.Settles host value := fun follows =>
    follows.settles ready standing.moment faithful
  have kept : ∀ root ∈ contract.roots world.host, now.site.Settles host root := fun root member =>
    settles (follows_of_traced (.start (.kept member)))
  cases held with
  | root root => exact settles (standing.follows_root root (.start (.root root)))
  | kept member => exact kept _ member
  | became member decided => exact (kept _ member).became (decided host)
  | @slot object index valid reached notFixed slot =>
      have moves := (collectable.coherent.object object valid reached notFixed).1
      refine settles (progress.follows_slot ready valid (traced_ofFull.mpr reached)
        (moves_ofFull.trans moves) ?_)
      rw [field_ofFull moves]
      exact slot
  | payload valid reached fixed covers found known inside =>
      refine settles (progress.follows_of_holds ready
        (.stayed ⟨rfl, _, _, _, ?_, found, inside, rfl⟩))
      exact ⟨_, valid, reached, fixed, covers, (forgets_eq covers found).trans known⟩
  | outside minor slot =>
      have isFull : now.heap.regions.isFull = true := standing.moment.isFull
      rw [isFull] at minor
      cases minor
  | asked same =>
      rw [same] at asks
      exact settles (progress.follows_asked ready asks)

end Pass

-----------------------------------------------------------------------------------------
-- Collections
-----------------------------------------------------------------------------------------

/-- The two kinds of collections. -/
inductive Collection where
  | minor
  | full

namespace Collection

/-- A collection of the kind. -/
def run (host : Host σ δ) (reason : Reason) : Collection → Action (World σ δ) Unit
  | .minor => Collector.minor host reason
  | .full => Collector.full host reason

/-- How such a collection passes from its first visit until its sweep. -/
def passage (host : Host σ δ) (reason : Reason)
    : (collection : Collection) → Passage (collection.run host reason)
  | .minor => Collector.passMinor host reason
  | .full => Collector.passFull host reason

/-- The heap is as such a collection needs it. -/
def Suits (contract : Contract σ) (world : World σ δ) : Collection → Prop
  | .minor => world.Sound contract
  | .full => world.Collectable contract

section Suits

variable (collection : Collection) {contract : Contract σ} {world : World σ δ} {host : Host σ δ}
  (suits : collection.Suits contract world) (addressable : world.Addressable)
  (faithful : host.Traces contract)

include suits addressable faithful

/-- Wherever such a collection comes through, forwarding settles what is held there. -/
theorem settles (reason : Reason)
    : (collection.passage host reason).Keeps world fun now errand =>
        ∀ value, world.Held contract now errand value → now.site.Settles host value := by
  cases collection with
  | minor =>
      have ready := Pass.ready_ofMinor suits addressable
      exact (Pass.keeps_minor suits addressable faithful reason).mono fun _ _ amid _ held =>
        amid.settles_ofMinor suits ready faithful held
  | full =>
      refine (Pass.keeps_full suits addressable faithful reason).mono fun _ _ amid _ held => ?_
      obtain ⟨words, mapped, amid⟩ := amid
      exact amid.settles_ofFull suits (Pass.ready_ofFull suits addressable mapped) faithful held

/-- Such a collection does not tell a host that visits once from one that visits more often. -/
theorem run_repeats {often : Host σ δ} (repeats : host.Repeats often) (reason : Reason)
    : collection.run often reason world = collection.run host reason world := by
  cases collection with
  | minor =>
      have ready := Pass.ready_ofMinor suits addressable
      exact Collector.minor_repeats repeats reason
        ((Pass.keeps_minor suits addressable faithful reason).mono fun _ _ amid =>
          amid.calm ready faithful)
  | full =>
      refine Collector.full_repeats repeats reason
        ((Pass.keeps_full suits addressable faithful reason).mono fun _ _ amid => ?_)
      obtain ⟨words, mapped, amid⟩ := amid
      exact amid.calm (Pass.ready_ofFull suits addressable mapped) faithful

end Suits

end Collection

namespace World

variable {contract : Contract σ} {world : World σ δ} {host often : Host σ δ}

/-- Collecting on demand does not tell a host that visits once from one that visits more often: neither
does the minor collection nor the full one that may follow.
-/
theorem Sound.collectFor_repeats (sound : world.Sound contract) (addressable : world.Addressable)
    (faithful : host.Traces contract) (repeats : host.Repeats often) (words : Nat) (wantsFull : Bool)
    (reason : Reason)
    : Collector.collectFor often words wantsFull reason world
      = Collector.collectFor host words wantsFull reason world := by
  have full : ∀ {world : World σ δ} (reason : Reason), world.Orderly contract → world.Addressable →
      Collector.full often reason world = Collector.full host reason world :=
    fun reason orderly addressable =>
      Collection.full.run_repeats orderly.collectable addressable faithful repeats reason
  have minor : Collector.minor often reason world = Collector.minor host reason world :=
    Collection.minor.run_repeats sound addressable faithful repeats reason
  refine Runs.bind_congr (World.runs_heapNow.mpr ?_)
  split_ifs
  · rfl
  · rfl
  · exact full reason sound.toOrderly addressable
  · cases world.heap.pendingFull with
    | some pending => exact full pending sound.toOrderly addressable
    | none =>
        change EStateM.bind (Collector.minor often reason) _ world = EStateM.bind _ _ world
        rw [EStateM.bind, minor]
        refine Runs.bind_congr (Runs.mono (sound.minor addressable faithful reason) ?_
          fun _ _ => False.elim)
        intro _ middle reached
        obtain ⟨collects, orderly, -⟩ := reached
        have addressable' : middle.Addressable := by
          rw [World.Addressable, collects.arena]
          exact addressable
        refine Runs.bind_congr (World.runs_heapNow.mpr ?_)
        split_ifs
        · exact full .oldSpaceFull orderly addressable'
        · rfl

/-- Forwarding is idempotent wherever a collection of a well-formed heap comes through from its first
visit until its sweep: whatever is held there, forwarding it ends, and forwarding what comes of it gives
the same without a call to the host and without a change to anything. So a host that visits slots and
values more often in a row than once leaves the same world, also where memory is collected on demand
and a full collection follows a minor one.
-/
theorem forwarding_idempotent (collection : Collection) (suits : collection.Suits contract world)
    (addressable : world.Addressable) (faithful : host.Traces contract) (reason : Reason)
    : (∀ now errand,
        (collection.passage host reason).Through world now errand →
        ∀ value, world.Held contract now errand value → now.site.Settles host value)
      ∧ ∀ often : Host σ δ,
          host.Repeats often →
          collection.run often reason world = collection.run host reason world
          ∧ (world.Sound contract →
              ∀ words wantsFull,
                Collector.collectFor often words wantsFull reason world
                = Collector.collectFor host words wantsFull reason world) :=
  ⟨collection.settles suits addressable faithful reason, fun _ repeats =>
    ⟨collection.run_repeats suits addressable faithful repeats reason, fun sound words wantsFull =>
      sound.collectFor_repeats addressable faithful repeats words wantsFull reason⟩⟩

theorem forwarding_idempotent_young
    : Record.youngWorld.Sound Record.contract
      ∧ (∃ now,
          (Collection.minor.passage Record.host .requestedByUser).Through Record.youngWorld now none
          ∧ now.site.Settles Record.host (Address.pack .birth 0).toValue)
      ∧ Collection.full.run (Record.host.often 1) .requestedByUser Record.youngWorld
        = Collection.full.run Record.host .requestedByUser Record.youngWorld := by
  have minor := forwarding_idempotent .minor Record.sound_young Record.addressable_young
    Record.host_faithful.toTraces .requestedByUser
  have full := forwarding_idempotent .full Record.sound_young.toOrderly.collectable
    Record.addressable_young Record.host_faithful.toTraces .requestedByUser
  let now : World Record.HostState Record.Destructor :=
    { heap := Collector.minorStart Record.youngWorld.heap
      host := Record.youngWorld.host
      log := .phaseChanged Record.youngWorld.heap.phase .scanningRoots :: Record.youngWorld.log }
  have through
      : (Collection.minor.passage Record.host .requestedByUser).Through Record.youngWorld now none :=
    .inr ⟨_, _, rfl, .inr ⟨_, _, rfl, .inr ⟨_, _, rfl, .inr ⟨_, now, rfl,
      .inl (.inl (.inl ⟨rfl, rfl⟩))⟩⟩⟩⟩
  have root : now.heap.rootValue (.constant 0) = (Address.pack .birth 0).toValue := Record.rooted_young
  refine ⟨Record.sound_young, ⟨now, through, ?_⟩, (full.2 _ (Host.repeats_often _ 1)).1⟩
  rw [← root]
  exact minor.1 now none through _ (.root (.constant 0))

end World

end MovingHeap
