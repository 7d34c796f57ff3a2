import MovingHeap.Proofs.Settlement

/-! What a collection has made of the graph once it traced everything.
Where an object lies afterwards is told from where it lay and from the order in which objects were
moved; two objects never end up in the same place.
-/

namespace MovingHeap

variable {σ δ : Type}

namespace Pass

/-- The memory that a collection traces is the given one, but for the semispace that was opened and the
words that were counted.
-/
structure Opens (pass : Pass σ δ) (regions : Regions δ) : Prop where
  birth : pass.before.birth = regions.birth
  old : pass.before.old = regions.old
  fixed : pass.before.fixed = regions.fixed

/-- The world that a collection leaves holds what was traced. -/
structure Leaves (pass : Pass σ δ) (traced after : World σ δ) : Prop where
  upholds : pass.contract.Upholds after.host
  kept : pass.contract.roots after.host = pass.contract.roots traced.host
  roots : ∀ root, after.heap.rootValue root = traced.heap.rootValue root
  tables : traced.heap.SameTables after.heap
  space : after.heap.regions.old.space = pass.space
  cursor : after.heap.regions.old.cursor = traced.heap.regions.destination.cursor
  cells
    : ∀ offset,
        after.heap.regions.cell pass.space offset = traced.heap.regions.cell pass.space offset
  birth
    : ∀ offset, after.heap.regions.cell .birth offset = traced.heap.regions.cell .birth offset

/-- Where an object lies once it has moved, if it moves. -/
def image (pass : Pass σ δ) (trail : Trail) (addr : Address) : Address :=
  if pass.moves addr.space then pass.copyOf trail addr else addr

variable {pass : Pass σ δ} {regions : Regions δ} {trail : Trail} {met : Value → Prop}

-----------------------------------------------------------------------------------------
-- Memory as a collection begins with it
-----------------------------------------------------------------------------------------

theorem Opens.cell (opens : pass.Opens regions) {space : Space}
    (from' : regions.moves true space ∨ space = .fixed) (offset : Nat)
    : pass.before.cell space offset = regions.cell space offset := by
  cases space with
  | birth => simp only [Regions.cell, opens.birth]
  | fixed => simp only [Regions.cell, opens.fixed]
  | oldA | oldB =>
      simp only [Regions.moves, Bool.true_and, Bool.or_eq_true, beq_iff_eq, reduceCtorEq, false_or,
        or_false] at from'
      simp [Regions.cell, Regions.oldSpace?, opens.old, ← from']

theorem Opens.field (opens : pass.Opens regions) {object : Address}
    (moves : regions.moves true object.space)
    : pass.before.field object = regions.field object := by
  funext index
  exact opens.cell (.inl moves) _

theorem Opens.moves (opens : pass.Opens regions) (full : Bool) (space : Space)
    : pass.before.moves full space = regions.moves full space := by
  simp only [Regions.moves, opens.old]

theorem Opens.forgets (opens : pass.Opens regions) (addr : Address)
    : pass.before.forgets addr = regions.forgets addr := by
  simp only [Regions.forgets, Regions.occupantAt?, opens.fixed]

/-- Following references leads to the same values, by induction over the path. -/
theorem Opens.traced_iff (opens : pass.Opens regions) {layout : Layout} {full : Bool}
    {start : Value → Prop} {value : Value}
    : pass.before.Traced layout full start value ↔ regions.Traced layout full start value := by
  have whole : ∀ {space}, regions.moves full space → regions.moves true space := by
    intro space moves
    simp only [Regions.moves, Bool.or_eq_true, Bool.and_eq_true] at moves ⊢
    exact moves.imp id fun both => ⟨trivial, both.2⟩
  constructor
  · intro traced
    induction traced with
    | start root => exact .start root
    | field valid _ moves slot ih =>
        rw [opens.moves] at moves
        rw [opens.field (whole moves)] at slot ⊢
        exact .field valid ih moves slot
    | payload valid _ follows fixed covers found known inside ih =>
        rw [opens.fixed] at covers found
        rw [opens.cell (.inr rfl)]
        exact .payload valid ih follows fixed covers found known inside
  · intro traced
    induction traced with
    | start root => exact .start root
    | field valid _ moves slot ih =>
        rw [← opens.field (whole moves)] at slot ⊢
        rw [← opens.moves] at moves
        exact .field valid ih moves slot
    | payload valid _ follows fixed covers found known inside ih =>
        rw [← opens.fixed] at covers found
        rw [← opens.cell (.inr rfl)]
        exact .payload valid ih follows fixed covers found known inside

-----------------------------------------------------------------------------------------
-- Where objects lie afterwards
-----------------------------------------------------------------------------------------

/-- What a reference becomes leads to where its object lies, unless it is cleared. -/
theorem relocated_eq_image {addr : Address} (valid : addr.Decodes)
    (stays : pass.full → addr.space = .fixed → pass.before.forgets addr = false)
    : pass.relocated trail addr.toValue = (pass.image trail addr).toValue := by
  simp only [relocated, Value.address?_toValue valid, image]
  split_ifs with moves forgotten
  · rfl
  · simp only [Bool.and_eq_true, beq_iff_eq] at forgotten
    obtain ⟨⟨full, fixed⟩, gave⟩ := forgotten
    rw [stays full fixed] at gave
    cases gave
  · rfl

/-- What becomes of a settled reference leads into the birth region from nowhere. -/
theorem isBirth_relocated (ready : pass.Ready) {now : Regions δ}
    (progress : pass.Progress trail now) {value : Value} (settled : pass.Settled trail value)
    : (pass.relocated trail value).isBirth = false := by
  unfold relocated
  cases found : value.address? with
  | none => simp [Value.isBirth, found]
  | some addr =>
      dsimp only
      split_ifs with moves
      · obtain ⟨decodes, space, -⟩ := progress.copyOf_eq ready ((settled addr found).1 moves)
        have old := ready.isOld_space
        rw [Value.isBirth, Value.address?_toValue decodes, Option.any_some, space]
        cases here : pass.space <;> simp_all [Space.isOld]
      · rfl
      · have rests : addr.space ≠ .birth := fun birth => moves (moves_iff.mpr (.inl birth))
        simp [Value.isBirth, found, rests]

/-- An object that stays ends where copying begins, or before. -/
theorem end_le_base (opens : pass.Opens regions) (coherent : regions.Coherent pass.layout met)
    {addr : Address} (valid : addr.Decodes) (there : met addr.toValue)
    (notFixed : addr.space ≠ .fixed) (rests : pass.moves addr.space = false)
    : addr.space = pass.space
      ∧ addr.offset + pass.layout.size (regions.field addr) ≤ pass.base := by
  obtain ⟨moves, -, inside⟩ := coherent.object addr valid there notFixed
  have minor : pass.full = false := by
    rw [Bool.eq_false_iff]
    intro full
    have gone : pass.moves addr.space := by rwa [Pass.moves, opens.moves, full]
    rw [rests] at gone
    cases gone
  have later : addr.space ≠ .birth := fun birth => by
    have gone : pass.moves addr.space := moves_iff.mpr (.inl birth)
    rw [rests] at gone
    cases gone
  have old : addr.space = regions.old.space := by
    simpa [Regions.moves, later] using moves
  rw [Regions.limit, if_neg later] at inside
  have destination : pass.before.destination = regions.old := by
    have none : pass.before.target = none := by simpa [full, Regions.isFull] using minor
    rw [Regions.destination, none, Option.getD_none, opens.old]
  exact ⟨by rw [space_of_minor minor, opens.old, old], by rwa [base, destination]⟩

/-- A copy begins where copying began, or later. -/
theorem base_le_copyOffset (trail : Trail) (object : Address)
    : pass.base ≤ pass.copyOffset trail object := by
  simp only [copyOffset]
  omega

/-- Addresses that are the same as values are the same. -/
theorem eq_of_toValue {first second : Address} (left : first.Decodes) (right : second.Decodes)
    (same : first.toValue = second.toValue)
    : first = second := by
  have found := Value.address?_toValue left
  rw [same, Value.address?_toValue right, Option.some.injEq] at found
  exact found.symm

section Image

variable (ready : pass.Ready) {now : Regions δ} (progress : pass.Progress trail now)

include ready progress

/-- Where a settled object lies is told by an address that decodes. -/
theorem decodes_image {addr : Address} (valid : addr.Decodes)
    (settled : pass.Settled trail addr.toValue)
    : (pass.image trail addr).Decodes := by
  unfold image
  split_ifs with moves
  · exact (progress.copyOf_eq ready ((settled addr (Value.address?_toValue valid)).1 moves)).1
  · exact valid

/-- What a settled object is copied to is where it lies afterwards. -/
theorem eq_image {before after : Regions δ} {object copy : Address} (valid : object.Decodes)
    (notFixed : object.space ≠ .fixed) (settled : pass.Settled trail object.toValue)
    (copied : Regions.Copied pass.layout (pass.relocated trail) before after object copy)
    : copy = pass.image trail object := by
  have became : pass.relocated trail object.toValue = (pass.image trail object).toValue :=
    relocated_eq_image valid fun _ fixed => absurd fixed notFixed
  exact eq_of_toValue copied.valid (decodes_image ready progress valid settled)
    (copied.same.symm.trans became)

variable (opens : pass.Opens regions) (coherent : regions.Coherent pass.layout met)

include opens coherent

/-- Different objects do not end up in the same place. -/
theorem image_inj {first second : Address} (left : first.Decodes) (right : second.Decodes)
    (there : met first.toValue) (there' : met second.toValue)
    (settled : pass.Settled trail first.toValue) (settled' : pass.Settled trail second.toValue)
    (same : pass.image trail first = pass.image trail second)
    : first = second := by
  have moved := fun moves => (settled first (Value.address?_toValue left)).1 moves
  have moved' := fun moves => (settled' second (Value.address?_toValue right)).1 moves
  -- A copy lies behind everything that stays.
  have differs : ∀ {object other : Address}, object ∈ trail.moved → other.Decodes →
      met other.toValue → pass.moves other.space = false → pass.copyOf trail object ≠ other := by
    intro object other member valid there rests equal
    obtain ⟨-, space, offset⟩ := progress.copyOf_eq ready member
    rw [equal] at space offset
    have notFixed : other.space ≠ .fixed := by
      intro fixed
      have old := ready.isOld_space
      rw [← space, fixed] at old
      cases old
    obtain ⟨-, inside⟩ := end_le_base opens coherent valid there notFixed rests
    have large := pass.layout.two_le_size (coherent.object other valid there notFixed).2.1
    have behind : pass.base ≤ pass.copyOffset trail object := base_le_copyOffset trail object
    omega
  unfold image at same
  split_ifs at same with moves moves' moves'
  · obtain ⟨-, -, offset⟩ := progress.copyOf_eq ready (moved moves)
    obtain ⟨-, -, offset'⟩ := progress.copyOf_eq ready (moved' moves')
    have places : pass.copyOffset trail first = pass.copyOffset trail second := by
      rw [← offset, ← offset', same]
    simp only [copyOffset] at places
    exact (offsetIn_inj (moved moves) (moved' moves') (progress.size_pos ready (moved moves))
      (progress.size_pos ready (moved' moves')) (by omega)).1
  · exact absurd same (differs (moved moves) right there' (by simpa using moves'))
  · exact absurd same.symm (differs (moved' moves') left there (by simpa using moves))
  · exact same

/-- Where different objects end up, they lie apart. -/
theorem image_apart {first second : Address} (left : first.Decodes) (right : second.Decodes)
    (there : met first.toValue) (there' : met second.toValue)
    (settled : pass.Settled trail first.toValue) (settled' : pass.Settled trail second.toValue)
    (notFixed : first.space ≠ .fixed) (notFixed' : second.space ≠ .fixed)
    (differs : first ≠ second)
    : (pass.image trail first).offset + pass.layout.size (regions.field first)
        ≤ (pass.image trail second).offset
      ∨ (pass.image trail second).offset + pass.layout.size (regions.field second)
        ≤ (pass.image trail first).offset := by
  have moved := fun moves => (settled first (Value.address?_toValue left)).1 moves
  have moved' := fun moves => (settled' second (Value.address?_toValue right)).1 moves
  have behind : ∀ object, pass.base ≤ pass.copyOffset trail object := base_le_copyOffset trail
  unfold image
  split_ifs with moves moves' moves'
  · obtain ⟨-, -, offset⟩ := progress.copyOf_eq ready (moved moves)
    obtain ⟨-, -, offset'⟩ := progress.copyOf_eq ready (moved' moves')
    rw [offset, offset', ← opens.field (coherent.object first left there notFixed).1,
      ← opens.field (coherent.object second right there' notFixed').1]
    exact copyOffset_apart (moved moves) (moved' moves') differs
  · obtain ⟨-, -, offset⟩ := progress.copyOf_eq ready (moved moves)
    obtain ⟨-, inside⟩ :=
      end_le_base opens coherent right there' notFixed' (by simpa using moves')
    have above := behind first
    omega
  · obtain ⟨-, -, offset⟩ := progress.copyOf_eq ready (moved' moves')
    obtain ⟨-, inside⟩ :=
      end_le_base opens coherent left there notFixed (by simpa using moves)
    have above := behind second
    omega
  · obtain ⟨space, -⟩ :=
      end_le_base opens coherent left there notFixed (by simpa using moves)
    obtain ⟨space', -⟩ :=
      end_le_base opens coherent right there' notFixed' (by simpa using moves')
    exact coherent.apart first second left right there there' (space.trans space'.symm) notFixed
      differs

end Image

/-- A minor collection clears nothing. -/
theorem relocated_ne_zero (ready : pass.Ready) {now : Regions δ}
    (progress : pass.Progress trail now) (minor : pass.full = false) {word : Word}
    (settled : pass.Settled trail ⟨word⟩) (present : word ≠ 0)
    : (pass.relocated trail ⟨word⟩).raw ≠ 0 := by
  cases found : (Value.mk word).address? with
  | none => rwa [relocated_of_plain found]
  | some addr =>
      have valid := Value.decodes_of_address? found
      rw [← Value.toValue_of_address? found] at settled ⊢
      rw [relocated_eq_image valid fun full => by simp [minor] at full]
      exact (decodes_image ready progress valid settled).raw_ne_zero

-----------------------------------------------------------------------------------------
-- The graph afterwards
-----------------------------------------------------------------------------------------

/-- What differed still differs, unless it led to a forgotten object. -/
theorem relocated_inj (ready : pass.Ready) {now : Regions δ} (progress : pass.Progress trail now)
    (opens : pass.Opens regions) (coherent : regions.Coherent pass.layout met)
    (settled : ∀ value, met value → pass.Settled trail value) {first second : Value}
    (there : met first) (there' : met second) (stays : regions.clears first = false)
    (stays' : regions.clears second = false)
    (same : pass.relocated trail first = pass.relocated trail second)
    : first = second := by
  have keeps : ∀ {addr : Address}, addr.Decodes → met addr.toValue →
      regions.clears addr.toValue = false →
      pass.relocated trail addr.toValue = (pass.image trail addr).toValue
        ∧ (pass.image trail addr).Decodes := by
    intro addr valid there stays
    refine ⟨relocated_eq_image valid fun _ fixed => ?_,
      decodes_image ready progress valid (settled _ there)⟩
    rw [opens.forgets]
    simpa [Regions.clears, Value.address?_toValue valid, fixed] using stays
  cases found : first.address? with
  | none =>
      rw [relocated_of_plain found] at same
      cases found' : second.address? with
      | none => rwa [relocated_of_plain found'] at same
      | some other =>
          have right := Value.decodes_of_address? found'
          obtain rfl : other.toValue = second := Value.toValue_of_address? found'
          obtain ⟨became, decodes⟩ := keeps right there' stays'
          rw [same, became, Value.address?_toValue decodes] at found
          cases found
  | some addr =>
      have left := Value.decodes_of_address? found
      obtain rfl : addr.toValue = first := Value.toValue_of_address? found
      obtain ⟨became, decodes⟩ := keeps left there stays
      cases found' : second.address? with
      | none =>
          rw [relocated_of_plain found', became] at same
          rw [← same, Value.address?_toValue decodes] at found'
          cases found'
      | some other =>
          have right := Value.decodes_of_address? found'
          obtain rfl : other.toValue = second := Value.toValue_of_address? found'
          obtain ⟨became', decodes'⟩ := keeps right there' stays'
          rw [became, became'] at same
          rw [image_inj ready progress opens coherent left right there there' (settled _ there)
            (settled _ there') (eq_of_toValue decodes decodes' same)]

/-- Once everything was traced, what was met has been relocated. -/
theorem Visited.relocates (ready : pass.Ready) {before traced after : World σ δ}
    (visited : pass.Visited before.heap (pass.contract.roots before.host) trail traced)
    (opens : pass.Opens before.heap.regions)
    (coherent : before.heap.regions.Coherent pass.layout met)
    (settled : ∀ value, met value → pass.Settled trail value)
    (scanned : ∀ object ∈ trail.moved, pass.Scanned trail traced.heap.regions object)
    (tables : before.heap.SameTables traced.heap) (leaves : pass.Leaves traced after)
    (stays
      : ∀ object : Address,
          object.Decodes →
          met object.toValue →
          object.space ≠ .fixed →
          pass.moves object.space = false →
          Regions.Copied pass.layout (pass.relocated trail) before.heap.regions
            after.heap.regions object object)
    (fixed
      : ∀ addr : Address,
          addr.Decodes →
          met addr.toValue →
          addr.space = .fixed →
          before.heap.regions.forgets addr ∧ pass.relocated trail addr.toValue = .null
          ∨ Regions.Kept (pass.relocated trail) before.heap.regions after.heap.regions addr)
    : World.Relocates pass.contract met (pass.relocated trail) before after := by
  have progress := visited.standing.moment.progress
  refine ⟨leaves.upholds, ?_, fun root => ?_, tables.trans leaves.tables, ?_,
    fun value => relocated_of_plain, fun object valid there notFixed => ?_, fixed,
    fun first second => relocated_inj ready progress opens coherent settled, ?_,
    fun object copy valid there birth copied => ?_⟩
  · rw [leaves.kept]
    exact visited.roots_eq.1
  · rw [leaves.roots]
    exact congrArg Value.mk (visited.forwarded root).2
  · rw [leaves.space]
    exact ready.isOld_space
  · cases moves : pass.moves object.space with
    | false => exact ⟨object, stays object valid there notFixed moves⟩
    | true =>
        have moved := (settled _ there object (Value.address?_toValue valid)).1 moves
        refine ⟨_, progress.copied ready (fun other gone => ?_) leaves.cells leaves.space
          leaves.cursor moved (scanned object moved)⟩
        refine (opens.field ?_).symm
        rw [Pass.moves, opens.moves] at gone
        simp only [Regions.moves, Bool.or_eq_true, Bool.and_eq_true] at gone ⊢
        exact gone.imp id fun both => ⟨trivial, both.2⟩
  · intro first second copy other left right there there' notFixed notFixed' differs copied copied'
    rw [eq_image ready progress left notFixed (settled _ there) copied,
      eq_image ready progress right notFixed' (settled _ there') copied']
    exact image_apart ready progress opens coherent left right there there' (settled _ there)
      (settled _ there') notFixed notFixed' differs
  · have moves : pass.moves object.space := moves_iff.mpr (Or.inl birth)
    have moved := (settled _ there object (Value.address?_toValue valid)).1 moves
    obtain ⟨first, second⟩ := progress.buried object moved
    rw [Regions.field, birth] at first second
    rw [eq_image ready progress valid (by simp [birth]) (settled _ there) copied, image, if_pos moves,
      Regions.Buried, Regions.field, Regions.field, birth, leaves.birth, leaves.birth]
    exact ⟨first, second⟩

/-- The copy of an object that was moved is an object of its size, and none of its slots leads into the
birth region.
-/
theorem copy_afterwards (ready : pass.Ready) {now : Regions δ} (progress : pass.Progress trail now)
    {before traced after : World σ δ} {start : Value → Prop}
    (opens : pass.Opens before.heap.regions)
    (relocates
      : World.Relocates pass.contract
          (before.heap.regions.Traced pass.layout true start) (pass.relocated trail) before after)
    (coherent
      : before.heap.regions.Coherent pass.layout
          (before.heap.regions.Traced pass.layout true start))
    (heads
      : ∀ addr : Address,
          addr.Decodes →
          before.heap.regions.Traced pass.layout true start addr.toValue →
          addr.space ≠ .fixed →
          pass.layout.IsSlot (before.heap.regions.field addr) 0 →
          before.heap.regions.clears ⟨before.heap.regions.field addr 0⟩ = false)
    (met
      : ∀ value, pass.Traced value → before.heap.regions.Traced pass.layout true start value)
    (leaves : pass.Leaves traced after) {object : Address} (moved : object ∈ trail.moved)
    : pass.layout.IsObject
          (after.heap.regions.wordsAt after.heap.regions.old.space (pass.copyOffset trail object))
      ∧ pass.layout.size
          (after.heap.regions.wordsAt after.heap.regions.old.space (pass.copyOffset trail object))
        = pass.size object
      ∧ ∀ index,
          pass.layout.IsSlot
            (after.heap.regions.wordsAt after.heap.regions.old.space (pass.copyOffset trail object))
            index →
          (Value.mk
            (after.heap.regions.cell after.heap.regions.old.space
              (pass.copyOffset trail object + index))).isBirth = false := by
  obtain ⟨valid, traced', moves⟩ := progress.met object moved
  obtain ⟨-, space, offset⟩ := progress.copyOf_eq ready moved
  have there := met _ traced'
  have notFixed : object.space ≠ .fixed := fun fixed => by
    rw [fixed, ready.not_moves_fixed] at moves
    cases moves
  have settled : pass.Settled trail object.toValue := by
    intro addr found
    rw [Value.address?_toValue valid, Option.some.injEq] at found
    subst found
    exact ⟨fun _ => moved, fun _ fixed => absurd fixed notFixed⟩
  obtain ⟨copy, copied⟩ := relocates.moving object valid there notFixed
  have place := eq_image ready progress valid notFixed settled copied
  rw [image, if_pos moves] at place
  have words : after.heap.regions.field copy
      = after.heap.regions.wordsAt after.heap.regions.old.space (pass.copyOffset trail object) := by
    rw [leaves.space, ← space, ← offset, place]
    rfl
  obtain ⟨isObject, size, slots⟩ :=
    relocates.layout_copied coherent heads valid there notFixed copied
  rw [words] at isObject size slots
  have field := opens.field (coherent.object object valid there notFixed).1
  refine ⟨isObject, ?_, fun index slot => ?_⟩
  · rw [Pass.size, field]
    exact size
  · have slot' := (slots index).mp slot
    have holds := copied.slots index slot'
    rw [words] at holds
    simp only [Regions.wordsAt] at holds
    rw [holds]
    exact relocates.isBirth_move (coherent.met_slot valid there notFixed slot')

end Pass

end MovingHeap
