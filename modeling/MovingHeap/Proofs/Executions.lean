import MovingHeap.Proofs.PairedObjects
import MovingHeap.Proofs.Resumption

/-! One program in two heaps, from its first instruction to its last.
Each instruction answers the same in heaps that cannot be told apart, and leaves heaps that cannot be told
apart. The collections in between change nothing about that.
-/

namespace MovingHeap

variable {σ τ δ ε : Type}

namespace World

variable {contract : Contract σ} {contract' : Contract τ} {loaded : Nat → Prop}
  {first : World σ δ} {second : World τ ε} {pairs : Value → Value → Prop}

-----------------------------------------------------------------------------------------
-- What a program learns of values
-----------------------------------------------------------------------------------------

/-- Paired values are the same integer or both none. -/
theorem Matches.integer? {layout : Layout} (agrees : first.Matches layout second pairs)
    {value other : Value} (paired : pairs value other)
    : value.integer? = other.integer? := by
  cases found : value.address? with
  | none => rw [agrees.alike.plain paired (Or.inl found)]
  | some object =>
      have valid := Value.decodes_of_address? found
      rw [← Value.toValue_of_address? found] at paired ⊢
      obtain ⟨addr, valid', rfl⟩ := agrees.alike.exists_address valid paired
      rw [Value.integer?_toValue valid, Value.integer?_toValue valid']

/-- Paired values are both null or both not. -/
theorem Matches.isNull {layout : Layout} (agrees : first.Matches layout second pairs)
    {value other : Value} (paired : pairs value other)
    : value.isNull = other.isNull := by
  cases found : value.address? with
  | none => rw [agrees.alike.plain paired (Or.inl found)]
  | some object =>
      have valid := Value.decodes_of_address? found
      rw [← Value.toValue_of_address? found] at paired ⊢
      obtain ⟨addr, valid', rfl⟩ := agrees.alike.exists_address valid paired
      rw [Value.isNull, Value.isNull, Address.toValue, Address.toValue,
        beq_eq_false_iff_ne.mpr valid.raw_ne_zero, beq_eq_false_iff_ne.mpr valid'.raw_ne_zero]

-----------------------------------------------------------------------------------------
-- What a program keeps
-----------------------------------------------------------------------------------------

/-- Paired values may be put into roots. -/
theorem Level.wellFormed (level : Level contract contract' loaded first second)
    (pairing : Pairing contract contract' first second pairs) {value other : Value}
    (paired : pairs value other)
    : first.WellFormed contract [value] ∧ second.WellFormed contract' [other] := by
  obtain ⟨usable, usable'⟩ := pairing.usable value other paired
  exact ⟨level.serves.wellFormed_usable (List.forall_mem_singleton.mpr usable),
    level.serves'.wellFormed_usable (List.forall_mem_singleton.mpr usable')⟩

/-- An instruction that ends by keeping paired values at a place tells nothing. -/
theorem Level.keep (level : Level contract contract' loaded first second)
    (agrees : first.Matches contract.layout second pairs) {value other : Value}
    (paired : pairs value other)
    (wellFormed : first.WellFormed contract [value] ∧ second.WellFormed contract' [other])
    {target : Place} (links : ∀ rank, target = .module rank → loaded rank)
    : Both
        (do
          target.write value
          return Answer.nothing)
        first
        (do
          target.write other
          return Answer.nothing)
        second fun answer final answer' final' =>
          answer = answer' ∧ Abreast contract contract' loaded final final' :=
  .bind (level.put agrees paired wellFormed.1 wellFormed.2 links)
    fun _ _ _ _ put => .pure ⟨rfl, put.1⟩

-----------------------------------------------------------------------------------------
-- Instructions
-----------------------------------------------------------------------------------------

/-- What the two runs are allowed: layouts are the same, hosts are faithful, and addresses can tell every
word of either fixed space.
-/
structure Allowed (contract : Contract σ) (contract' : Contract τ) (host : Host σ δ)
    (host' : Host τ ε) (first : World σ δ) (second : World τ ε)
    : Prop where
  layout : contract'.layout = contract.layout
  faithful : host.Faithful contract
  faithful' : host'.Faithful contract'
  addressable : first.Addressable
  addressable' : second.Addressable

section Instructions

variable {host : Host σ δ} {host' : Host τ ε}
  (abreast : Abreast contract contract' loaded first second)
  (allowed : Allowed contract contract' host host' first second)
include abreast allowed

/-- A record is allocated in both heaps. -/
theorem Abreast.record {target : Place} {align : Option Nat} {words : List Operand}
    (describes : Instruction.Describes contract.layout first words)
    (links : ∀ rank, target = .module rank → loaded rank)
    : Both ((Instruction.record target align words).run host) first
        ((Instruction.record target align words).run host') second
        fun answer final answer' final' =>
          answer = answer' ∧ Abreast contract contract' loaded final final' := by
  refine .bind (.of_runs (abreast.serves.bears allowed.addressable allowed.faithful align words)
    (abreast.serves'.bears allowed.addressable' allowed.faithful' align words)
    fun _ _ _ _ => And.intro) fun object middle object' middle' initialises => ?_
  refine .bind (.of_runs initialises.1 initialises.2 fun _ _ _ _ => And.intro)
    fun _ there _ there' born => ?_
  obtain ⟨level, wellFormed, wellFormed', pairs, agrees, paired⟩ :=
    abreast.bears allowed.layout describes born.1 born.2
  exact level.keep agrees paired ⟨wellFormed, wellFormed'⟩ links

/-- A fixed object is allocated in both heaps. -/
theorem Abreast.fixed {target : Place} {size : Nat} {executable : Bool}
    (links : ∀ rank, target = .module rank → loaded rank)
    : Both ((Instruction.fixed target size executable).run host) first
        ((Instruction.fixed target size executable).run host') second
        fun answer final answer' final' =>
          final.Addressable →
          final'.Addressable →
          answer = answer' ∧ Abreast contract contract' loaded final final' := by
  refine .bind (.of_runs (abreast.serves.allocateFixed size executable)
    (abreast.serves'.allocateFixed size executable) fun _ _ _ _ => And.intro)
    fun object middle object' middle' lodges => ?_
  -- putting the reference into the place leaves the fixed space as it is
  have regions : ∀ {α ω : Type} (world : World α ω) (value : Value),
      Runs (do target.write value; return Answer.nothing) world
        (fun _ final => final.heap.regions = world.heap.regions) fun _ _ => True := by
    intro α ω world value
    rw [runs_bind]
    exact (puts_placeWrite target value world).mono (fun _ _ puts => puts.regions) fun _ _ => id
  intro answer final answer' final' run run' addressable addressable'
  rw [Addressable, (regions _ _).of_ok run] at addressable
  rw [Addressable, (regions _ _).of_ok run'] at addressable'
  obtain ⟨serves, unnoticed, lodging⟩ := lodges.1 addressable
  obtain ⟨serves', unnoticed', lodging'⟩ := lodges.2 addressable'
  obtain ⟨level, pairs, agrees, paired⟩ :=
    abreast.lodges allowed.layout serves unnoticed lodging serves' unnoticed' lodging'
  exact level.keep agrees paired ⟨lodging.wellFormed, lodging'.wellFormed⟩ links _ _ _ _ run run'

/-- What a place refers to is looked up in both heaps. -/
theorem Abreast.referent (place : Place)
    : ∃ pairs,
        Pairing contract contract' first second pairs
        ∧ Both place.referent first place.referent second fun object final other final' =>
            final = first
            ∧ final' = second
            ∧ (place.value first).address? = some object
            ∧ object.Decodes
            ∧ other.Decodes
            ∧ pairs object.toValue other.toValue := by
  obtain ⟨_, agrees⟩ := abreast.looks
  obtain ⟨pairs, pairing⟩ := abreast.pairing allowed.layout agrees
  refine ⟨pairs, pairing, .of_runs (runs_referent place first) (runs_referent place second) ?_⟩
  rintro object first other second ⟨rfl, found⟩ ⟨rfl, found'⟩
  exact ⟨rfl, rfl, found, pairing.referent abreast.frames found found'⟩

/-- A field is read in both heaps. -/
theorem Abreast.read {target source : Place} {index : Nat}
    (proper : (Instruction.read target source index).Proper contract.layout first)
    (links : ∀ rank, target = .module rank → loaded rank)
    : Both ((Instruction.read target source index).run host) first
        ((Instruction.read target source index).run host') second
        fun answer final answer' final' =>
          answer = answer' ∧ Abreast contract contract' loaded final final' := by
  obtain ⟨pairs, pairing, referent⟩ := abreast.referent allowed source
  refine .bind referent ?_
  rintro object first other second ⟨rfl, rfl, found, valid, valid', paired⟩
  have isField := proper object found
  have mirrors := pairing.alike.objects valid valid' paired
  obtain ⟨usable, usable'⟩ := pairing.usable _ _ paired
  have isField' := (mirrors.fields index).mpr isField
  rw [← allowed.layout] at isField'
  refine .bind (.of_runs
    (abreast.serves.read allowed.addressable valid (usable.met valid) isField)
    (abreast.serves'.read allowed.addressable' valid' (usable'.met valid') isField')
    fun _ _ _ _ => And.intro) ?_
  rintro _ first _ second ⟨⟨rfl, rfl⟩, rfl, rfl⟩
  have fields := pairing.alike.fields valid valid' paired isField
  exact abreast.keep pairing.toMatches fields (abreast.wellFormed pairing fields) links

/-- A field is written in both heaps. -/
theorem Abreast.write {target : Place} {source : Operand} {index : Nat}
    (proper : (Instruction.write target index source).Proper contract.layout first)
    : Both ((Instruction.write target index source).run host) first
        ((Instruction.write target index source).run host') second
        fun answer final answer' final' =>
          answer = answer' ∧ Abreast contract contract' loaded final final' := by
  obtain ⟨pairs, pairing, referent⟩ := abreast.referent allowed target
  refine .bind referent ?_
  rintro object first other second ⟨rfl, rfl, found, valid, valid', paired⟩
  obtain ⟨honest, inside⟩ := proper
  obtain ⟨isField, head⟩ := inside object found
  refine .bind (.of_runs (runs_operandRead source first) (runs_operandRead source second)
    fun _ _ _ _ => And.intro) ?_
  rintro _ first _ second ⟨⟨rfl, rfl⟩, rfl, rfl⟩
  have mirrors := pairing.alike.objects valid valid' paired
  have values := pairing.operand abreast.frames honest
  obtain ⟨usable, usable'⟩ := pairing.usable _ _ paired
  obtain ⟨given, given'⟩ := pairing.usable _ _ values
  have isField' := (mirrors.fields index).mpr isField
  rw [← allowed.layout] at isField'
  have fits : first.Fits contract object index (source.value first) :=
    ⟨valid, usable.met valid, isField, given, head⟩
  have fits' : second.Fits contract' other index (source.value second) := by
    refine ⟨valid', usable'.met valid', isField', given', fun moves first null => ?_⟩
    rw [null] at values
    exact head (fun fixed => moves (mirrors.kind.mpr fixed)) first
      (pairing.alike.plain values (Or.inr rfl))
  refine .bind (.of_runs (fits.write abreast.serves allowed.addressable allowed.faithful)
    (fits'.write abreast.serves' allowed.addressable' allowed.faithful')
    fun _ _ _ _ => And.intro) ?_
  rintro _ final _ final' ⟨⟨serves, regions, done, unnoticed⟩, serves', regions', done', unnoticed'⟩
  obtain ⟨_, stored⟩ := pairing.toMatches.store allowed.layout abreast.serves abreast.serves'
    allowed.addressable allowed.addressable' fits fits' paired values done done'
  refine .pure ⟨rfl, abreast.tables serves serves'
    ((tables_withRegions first regions).trans unnoticed.tables)
    ((tables_withRegions second regions').trans unnoticed'.tables), ?_⟩
  rw [allowed.layout] at unnoticed'
  exact stored.unnoticed unnoticed unnoticed'

/-- A frame is entered in both heaps. -/
theorem Abreast.enter {descriptor : FrameDescriptor} {params : List Operand}
    (honest : ∀ operand ∈ params, operand.IsHonest)
    : Both ((Instruction.enter descriptor params).run host) first
        ((Instruction.enter descriptor params).run host') second
        fun answer final answer' final' =>
          answer = answer' ∧ Abreast contract contract' loaded final final' := by
  obtain ⟨_, agrees⟩ := abreast.looks
  obtain ⟨pairs, pairing⟩ := abreast.pairing allowed.layout agrees
  refine .bind (.of_runs (runs_readAll params first) (runs_readAll params second)
    fun _ _ _ _ => And.intro) ?_
  rintro _ first _ second ⟨⟨rfl, rfl⟩, rfl, rfl⟩
  have paired : List.Forall₂ pairs (params.map (Operand.value first))
      (params.map (Operand.value second)) :=
    List.forall₂_map_left_iff.mpr (List.forall₂_map_right_iff.mpr
      (List.forall₂_same.mpr fun operand member =>
        pairing.operand abreast.frames (honest operand member)))
  refine .bind (abreast.enter pairing paired descriptor) ?_
  rintro id final _ final' ⟨rfl, later⟩
  exact .pure ⟨rfl, later⟩

/-- A word of data is read in both heaps. -/
theorem Abreast.datum {source : Place} {index : Nat}
    (proper : (Instruction.datum source index).Proper contract.layout first)
    : Both ((Instruction.datum source index).run host) first
        ((Instruction.datum source index).run host') second
        fun answer final answer' final' =>
          answer = answer' ∧ Abreast contract contract' loaded final final' := by
  obtain ⟨pairs, pairing, referent⟩ := abreast.referent allowed source
  refine .bind referent ?_
  rintro object first other second ⟨rfl, rfl, found, valid, valid', paired⟩
  have datum := proper object found
  have mirrors := pairing.alike.objects valid valid' paired
  obtain ⟨usable, usable'⟩ := pairing.usable _ _ paired
  have datum' := (mirrors.data index).mpr datum
  rw [← allowed.layout] at datum'
  refine .bind (.of_runs
    (abreast.serves.load allowed.addressable valid (usable.met valid) (Or.inr datum))
    (abreast.serves'.load allowed.addressable' valid' (usable'.met valid') (Or.inr datum'))
    fun _ _ _ _ => And.intro) ?_
  rintro _ first _ second ⟨⟨rfl, rfl⟩, rfl, rfl⟩
  exact .pure ⟨congrArg Answer.datum (mirrors.same index datum).symm, abreast⟩

/-- Every instruction answers the same in both heaps, and leaves them abreast. -/
theorem Abreast.instruction {instruction : Instruction}
    (proper : instruction.Proper contract.layout first)
    (links : ∀ rank, .module rank ∈ instruction.places → loaded rank)
    : Both (instruction.run host) first (instruction.run host') second
        fun answer final answer' final' =>
          final.Addressable →
          final'.Addressable →
          answer = answer' ∧ Abreast contract contract' loaded final final' := by
  obtain ⟨_, agrees⟩ := abreast.looks
  obtain ⟨pairs, pairing⟩ := abreast.pairing allowed.layout agrees
  have reads : ∀ place : Place,
      Both place.read first place.read second fun value final value' final' =>
        (final = first ∧ value = place.value first) ∧ final' = second ∧ value' = place.value second :=
    fun place => .of_runs (runs_placeRead place first) (runs_placeRead place second)
      fun _ _ _ _ => And.intro
  cases instruction with
  | put target source =>
      refine Both.mono (.bind (.of_runs (runs_operandRead source first)
        (runs_operandRead source second) fun _ _ _ _ => And.intro) ?_) fun _ _ _ _ same _ _ => same
      rintro _ first _ second ⟨⟨rfl, rfl⟩, rfl, rfl⟩
      have paired := pairing.operand abreast.frames proper
      exact abreast.keep pairing.toMatches paired (abreast.wellFormed pairing paired)
        fun rank here => links rank (by simp [Instruction.places, here])
  | record target align words =>
      exact (abreast.record allowed proper fun rank here =>
        links rank (by simp [Instruction.places, here])).mono fun _ _ _ _ same _ _ => same
  | fixed target size executable =>
      exact abreast.fixed allowed fun rank here => links rank (by simp [Instruction.places, here])
  | read target source index =>
      exact (abreast.read allowed proper fun rank here =>
        links rank (by simp [Instruction.places, here])).mono fun _ _ _ _ same _ _ => same
  | write target index source =>
      exact (abreast.write allowed proper).mono fun _ _ _ _ same _ _ => same
  | enter descriptor params =>
      exact (abreast.enter allowed proper).mono fun _ _ _ _ same _ _ => same
  | exit frame =>
      exact .bind (abreast.exit pairing frame) fun _ _ _ _ later => .pure fun _ _ => ⟨rfl, later⟩
  | integer source =>
      refine .bind (reads source) ?_
      rintro _ first _ second ⟨⟨rfl, rfl⟩, rfl, rfl⟩
      exact .pure fun _ _ =>
        ⟨congrArg Answer.integer (pairing.integer? (pairing.place abreast.frames source)), abreast⟩
  | datum source index =>
      exact (abreast.datum allowed proper).mono fun _ _ _ _ same _ _ => same
  | isNull source =>
      refine .bind (reads source) ?_
      rintro _ first _ second ⟨⟨rfl, rfl⟩, rfl, rfl⟩
      exact .pure fun _ _ =>
        ⟨congrArg Answer.truth (pairing.isNull (pairing.place abreast.frames source)), abreast⟩
  | equal left right =>
      refine .bind (reads left) ?_
      rintro _ first _ second ⟨⟨rfl, rfl⟩, rfl, rfl⟩
      refine .bind (.of_runs (runs_placeRead right first) (runs_placeRead right second)
        fun _ _ _ _ => And.intro) ?_
      rintro _ first _ second ⟨⟨rfl, rfl⟩, rfl, rfl⟩
      have single := pairing.alike.single (pairing.place abreast.frames left)
        (pairing.place abreast.frames right)
      exact .pure fun _ _ => ⟨congrArg Answer.truth (by rwa [Bool.eq_iff_iff, beq_iff_eq, beq_iff_eq]),
        abreast⟩

end Instructions

end World

end MovingHeap
