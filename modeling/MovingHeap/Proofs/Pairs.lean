import MovingHeap.Proofs.Births

/-! Two heaps that a program cannot tell apart.
Both serve the mutator, have the same frames and look alike. Putting paired values into a place,
entering and leaving frames and whatever goes unnoticed keeps it like that.
-/

namespace MovingHeap

variable {σ τ δ ε ω κ α β α' β' : Type}

-----------------------------------------------------------------------------------------
-- Two actions
-----------------------------------------------------------------------------------------

/-- If both actions come to an end, it holds of the results and of the states they end in. -/
def Both (action : Action ω α) (state : ω) (other : Action κ β) (state' : κ)
    (ended : α → ω → β → κ → Prop)
    : Prop :=
  ∀ result final result' final',
    action state = .ok result final →
    other state' = .ok result' final' →
    ended result final result' final'

section Both

variable {action : Action ω α} {state : ω} {other : Action κ β} {state' : κ}
  {ended : α → ω → β → κ → Prop}

/-- What holds where both actions end may be weakened. -/
theorem Both.mono (both : Both action state other state' ended)
    {weaker : α → ω → β → κ → Prop}
    (weaken
      : ∀ result final result' final',
          ended result final result' final' → weaker result final result' final')
    : Both action state other state' weaker :=
  fun _ _ _ _ run run' => weaken _ _ _ _ (both _ _ _ _ run run')

/-- What holds where the one ends and what holds where the other does hold where both do. -/
theorem Both.of_runs {holds : α → ω → Prop} {holds' : β → κ → Prop}
    (runs : Runs action state holds fun _ _ => True)
    (runs' : Runs other state' holds' fun _ _ => True)
    (both
      : ∀ result final result' final',
          holds result final → holds' result' final' → ended result final result' final')
    : Both action state other state' ended :=
  fun _ _ _ _ run run' => both _ _ _ _ (runs.of_ok run) (runs'.of_ok run')

/-- Two actions that answer at once. -/
theorem Both.pure {result : α} {result' : β} (holds : ended result state result' state')
    : Both (Pure.pure result) state (Pure.pure result') state' ended := by
  intro _ _ _ _ run run'
  cases run
  cases run'
  exact holds

/-- An action after another that ended has seen it end. -/
theorem ok_of_bind {next : α → Action ω β} {result : β} {final : ω}
    (run : (action >>= next) state = .ok result final)
    : ∃ first middle, action state = .ok first middle ∧ next first middle = .ok result final := by
  simp only [bind, EStateM.bind] at run
  split at run
  next first middle done => exact ⟨first, middle, done, run⟩
  next => cases run

/-- Two actions after two others. -/
theorem Both.bind {next : α → Action ω α'} {next' : β → Action κ β'}
    {middle : α → ω → β → κ → Prop} {ended : α' → ω → β' → κ → Prop}
    (both : Both action state other state' middle)
    (further
      : ∀ result there result' there',
          middle result there result' there' →
          Both (next result) there (next' result') there' ended)
    : Both (action >>= next) state (other >>= next') state' ended := by
  intro _ _ _ _ run run'
  obtain ⟨result, there, first, rest⟩ := ok_of_bind run
  obtain ⟨result', there', first', rest'⟩ := ok_of_bind run'
  exact further _ _ _ _ (both _ _ _ _ first first') _ _ _ _ rest rest'

end Both

namespace World

-----------------------------------------------------------------------------------------
-- Heaps on a level
-----------------------------------------------------------------------------------------

/-- Both heaps serve the mutator, have the same frames, and of the ranks that matter the same ones are
in use.
-/
structure Level (contract : Contract σ) (contract' : Contract τ) (loaded : Nat → Prop)
    (first : World σ δ) (second : World τ ε)
    : Prop where
  serves : first.Serving contract
  serves' : second.Serving contract'
  frames : second.heap.frames.outline = first.heap.frames.outline
  modules
    : ∀ rank,
        loaded rank →
        (second.heap.modules.get? rank).isSome = (first.heap.modules.get? rank).isSome

/-- The heaps look alike, too. -/
structure Abreast (contract : Contract σ) (contract' : Contract τ) (loaded : Nat → Prop)
    (first : World σ δ) (second : World τ ε)
    : Prop extends Level contract contract' loaded first second where
  looks : ∃ pairs, first.Matches contract.layout second pairs

/-- The heaps look alike where values are paired that may be used, and every value that is no reference
is paired with itself.
-/
structure Pairing (contract : Contract σ) (contract' : Contract τ) (first : World σ δ)
    (second : World τ ε) (pairs : Value → Value → Prop)
    : Prop extends first.Matches contract.layout second pairs where
  plain : ∀ value : Value, value.address? = none → pairs value value
  usable
    : ∀ value other,
        pairs value other → first.Usable contract value ∧ second.Usable contract' other

variable {contract : Contract σ} {contract' : Contract τ} {loaded : Nat → Prop}
  {first first' : World σ δ} {second second' : World τ ε} {pairs : Value → Value → Prop}

/-- Heaps on a level that look alike do so with values that may be used. -/
theorem Level.pairing (level : Level contract contract' loaded first second)
    (layout : contract'.layout = contract.layout)
    (agrees : first.Matches contract.layout second pairs)
    : ∃ pairs, Pairing contract contract' first second pairs := by
  have plainly : first.Matches contract.layout second fun value other =>
      pairs value other ∨ value = other ∧ value.address? = none :=
    ⟨agrees.alike.plainly, fun root => Or.inl (agrees.roots root)⟩
  exact ⟨_, plainly.usable layout level.serves level.serves',
    fun value none => ⟨⟨Or.inr ⟨rfl, none⟩, Or.inl none⟩, Or.inl none⟩,
    fun value other paired => ⟨paired.1.2, paired.2⟩⟩

/-- What goes unnoticed in either heap leaves them looking alike. -/
theorem Matches.unnoticed {layout : Layout} (agrees : first.Matches layout second pairs)
    (unnoticed : first.Unnoticed layout first') (unnoticed' : second.Unnoticed layout second')
    : ∃ later, first'.Matches layout second' later := by
  obtain ⟨_, middle⟩ := unnoticed.looks agrees
  obtain ⟨_, later⟩ := unnoticed'.looks middle.symm
  exact ⟨_, later.symm⟩

/-- Heaps stay on a level while they keep their tables. -/
theorem Level.tables (level : Level contract contract' loaded first second)
    (serves : first'.Serving contract) (serves' : second'.Serving contract')
    (same : first.heap.SameTables first'.heap) (same' : second.heap.SameTables second'.heap)
    : Level contract contract' loaded first' second' where
  serves := serves
  serves' := serves'
  frames := same'.frames.trans (level.frames.trans same.frames.symm)
  modules rank used := by
    rw [same.isSome_get?, same'.isSome_get?]
    exact level.modules rank used

/-- What goes unnoticed in either heap keeps them abreast. -/
theorem Abreast.unnoticed (abreast : Abreast contract contract' loaded first second)
    (layout : contract'.layout = contract.layout)
    (unnoticed : first.Unnoticed contract.layout first') (serves : first'.Serving contract)
    (unnoticed' : second.Unnoticed contract'.layout second') (serves' : second'.Serving contract')
    : Abreast contract contract' loaded first' second' where
  toLevel := abreast.tables serves serves' unnoticed.tables unnoticed'.tables
  looks := by
    obtain ⟨_, agrees⟩ := abreast.looks
    rw [layout] at unnoticed'
    exact agrees.unnoticed unnoticed unnoticed'

-----------------------------------------------------------------------------------------
-- What is kept at places
-----------------------------------------------------------------------------------------

/-- Places hold the same if one of them holds no reference. -/
theorem Matches.place {layout : Layout} (agrees : first.Matches layout second pairs)
    (frames : second.heap.frames.outline = first.heap.frames.outline) {place : Place}
    (plain : (place.value first).address? = none ∨ (place.value second).address? = none)
    : place.value first = place.value second := by
  rw [Place.value, Place.value, Place.root?_congr frames] at plain ⊢
  cases found : place.root? first.heap.frames with
  | none => rfl
  | some root =>
      rw [found] at plain
      exact agrees.alike.plain (agrees.roots root) plain

/-- Places hold the same as before what went unnoticed if they hold no reference. -/
theorem Unnoticed.place {layout : Layout} (unnoticed : first.Unnoticed layout first')
    {place : Place}
    (plain : (place.value first).address? = none ∨ (place.value first').address? = none)
    : place.value first = place.value first' := by
  have itself : first.Matches layout first (· = ·) := by
    refine ⟨⟨fun same _ => same, fun valid valid' same => ?_, fun valid valid' same _ => ?_,
      fun same same' => by rw [same, same']⟩, fun _ => rfl⟩
    · obtain rfl := Address.toValue_inj same
      exact ⟨Iff.rfl, fun _ => Iff.rfl, fun _ => Iff.rfl, fun _ _ => rfl⟩
    · obtain rfl := Address.toValue_inj same
      rfl
  obtain ⟨later, agrees⟩ := unnoticed.looks itself
  exact (agrees.place unnoticed.tables.frames.symm plain.symm).symm

section Pairing

variable (pairing : Pairing contract contract' first second pairs)
  (frames : second.heap.frames.outline = first.heap.frames.outline)
include pairing frames

/-- What is kept at a place is paired. -/
theorem Pairing.place (place : Place) : pairs (place.value first) (place.value second) := by
  rw [Place.value, Place.value, Place.root?_congr frames]
  cases place.root? first.heap.frames with
  | none => exact pairing.plain .null rfl
  | some root => exact pairing.roots root

/-- What is handed on is paired. -/
theorem Pairing.operand {operand : Operand} (honest : operand.IsHonest)
    : pairs (operand.value first) (operand.value second) := by
  cases operand with
  | word raw => exact pairing.plain ⟨raw⟩ honest
  | place place => exact pairing.place frames place

/-- References at a place lead to paired objects. -/
theorem Pairing.referent {place : Place} {object other : Address}
    (found : (place.value first).address? = some object)
    (found' : (place.value second).address? = some other)
    : object.Decodes ∧ other.Decodes ∧ pairs object.toValue other.toValue := by
  have paired := pairing.place frames place
  rw [← Value.toValue_of_address? found, ← Value.toValue_of_address? found'] at paired
  exact ⟨Value.decodes_of_address? found, Value.decodes_of_address? found', paired⟩

end Pairing

/-- Paired values that are put into a place keep heaps abreast. -/
theorem Level.put (level : Level contract contract' loaded first second)
    (agrees : first.Matches contract.layout second pairs) {value other : Value}
    (paired : pairs value other) (wellFormed : first.WellFormed contract [value])
    (wellFormed' : second.WellFormed contract' [other]) {place : Place}
    (links : ∀ rank, place = .module rank → loaded rank)
    : Both (place.write value) first (place.write other) second fun _ final _ final' =>
        Abreast contract contract' loaded final final'
        ∧ final.heap.regions = first.heap.regions
        ∧ final'.heap.regions = second.heap.regions := by
  refine .of_runs (level.serves.placeWrite wellFormed place) (level.serves'.placeWrite wellFormed' place)
    fun _ final _ final' ends ends' => ?_
  obtain ⟨serving, puts⟩ := ends
  obtain ⟨serving', puts'⟩ := ends'
  obtain ⟨root, here, roots⟩ := puts.roots
  obtain ⟨root', here', roots'⟩ := puts'.roots
  rw [Place.root?_congr level.frames, here, Option.some.injEq] at here'
  subst here'
  have has : second.heap.has root = first.heap.has root := by
    cases place with
    | slot id kind index =>
        obtain ⟨position, -, rfl⟩ := Option.map_eq_some_iff.mp here
        rw [Heap.has, Heap.has, ← FrameStack.slot?_outline, level.frames, FrameStack.slot?_outline]
    | module rank =>
        cases here
        exact level.modules rank (links rank rfl)
    | constant index =>
        cases here
        rfl
  refine ⟨⟨⟨serving, serving', puts'.frames.trans (level.frames.trans puts.frames.symm),
    fun rank used => ?_⟩, pairs, ?_, fun other => ?_⟩, puts.regions, puts'.regions⟩
  · rw [puts.modules, puts'.modules]
    exact level.modules rank used
  · rw [puts.regions, puts'.regions]
    exact agrees.alike
  · rw [roots, roots', has]
    split_ifs
    · exact paired
    · exact agrees.roots other

end World

end MovingHeap
