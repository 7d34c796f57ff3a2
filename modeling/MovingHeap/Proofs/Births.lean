import MovingHeap.Proofs.Places

/-! Objects that a program allocates, in one heap.
The words of a record are looked up once its memory is there, and written before anything refers to it.
-/

namespace MovingHeap

variable {σ τ δ ε : Type}

namespace World

variable {contract : Contract σ} {world : World σ δ}

/-- What is handed on is told by the roots. -/
theorem SameOutside.operand {before after : World σ δ} (same : before.SameOutside after)
    (operand : Operand)
    : operand.value after = operand.value before := by
  cases operand with
  | word raw => rfl
  | place place =>
      have roots : after.heap.rootValue = before.heap.rootValue := funext same.rootValue
      rw [Operand.value, Operand.value, Place.value, Place.value, same.frames, roots]

/-- The memory of a record is handed out unnoticed. -/
theorem Serving.claim (serving : world.Serving contract) (addressable : world.Addressable)
    {host : Host σ δ} (faithful : host.Faithful contract) (size : Nat) (align : Option Nat)
    : Runs (Instruction.claim host size align) world
        (fun object final =>
          final.Serving contract
          ∧ world.Unnoticed contract.layout final
          ∧ final.Blank contract object (max (wordsFor size) minObjectWords))
        fun _ _ => True := by
  cases align with
  | none =>
      rw [Instruction.claim, allocate, runs_bind, runs_ensureIdle serving.idle]
      exact serving.reserve addressable faithful size 1
  | some align =>
      rw [Instruction.claim, allocateAligned, runs_bind, runs_ensureIdle serving.idle, runs_ite]
      split_ifs
      · exact serving.reserve addressable faithful size _
      · rw [runs_stop]
        trivial

/-- The words of a new object become what the operands hand on, by one operand after another. -/
theorem Blank.initialise {object : Address} {words : Nat} {operands : List Operand} {start : Nat}
    (blank : world.Blank contract object words) (serving : world.Serving contract)
    (inside : start + operands.length ≤ words)
    : Runs (initialise object start operands) world
        (fun _ final =>
          final.Serving contract
          ∧ world.Unnoticed contract.layout final
          ∧ final.Blank contract object words
          ∧ world.SameOutside final
          ∧ (∀ index < start,
              final.heap.regions.field object index = world.heap.regions.field object index)
          ∧ ∀ index operand,
              operands[index]? = some operand →
              final.heap.regions.field object (start + index) = (operand.value world).raw)
        fun _ _ => True := by
  induction operands generalizing world start with
  | nil => exact ⟨serving, .refl world, blank, .refl world, fun _ _ => rfl, nofun⟩
  | cons operand rest ih =>
      rw [List.length_cons] at inside
      rw [MovingHeap.initialise, runs_bind]
      refine (runs_operandRead operand world).mono ?_ fun _ _ => id
      rintro value _ ⟨rfl, rfl⟩
      rw [runs_bind]
      refine (blank.store serving (by omega : start < words) _).mono ?_ fun _ _ => id
      rintro _ middle ⟨serving', unnoticed, blank', same, fields⟩
      refine (ih blank' serving' (by omega)).mono ?_ fun _ _ => id
      rintro _ final ⟨ends, further, still, alike, before, words⟩
      refine ⟨ends, unnoticed.trans further, still, same.trans alike, fun index below => ?_,
        fun index other here => ?_⟩
      · rw [before index (by omega), fields, if_neg (by omega)]
      · cases index with
        | zero =>
            obtain rfl : operand = other := by simpa using here
            rw [Nat.add_zero, before start (Nat.lt_succ_self _), fields, if_pos rfl]
        | succ index =>
            rw [List.getElem?_cons_succ] at here
            rw [← Nat.add_assoc, Nat.add_right_comm, words index other here, same.operand]

end World

end MovingHeap
