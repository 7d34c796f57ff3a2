import MovingHeap.Proofs.Destructors

/-! Hosts that keep a record beside their state.
Whatever host is given, it can be made to record the calls of its destructors without doing anything
else differently, so what is shown of hosts that record is shown of all.
-/

namespace MovingHeap

variable {σ δ α β : Type}

/-- The visit with something beside the state of the host, which it leaves alone. -/
def Visit.beside : Visit σ α → Visit (σ × β) α
  | done result => done result
  | getHost next => getHost fun state => (next state.1).beside
  | setHost host next => getHost fun state => setHost (host, state.2) next.beside
  | note line next => note line next.beside
  | isFull next => isFull fun full => (next full).beside
  | load addr next => load addr fun word => (next word).beside
  | words addr count next => words addr count fun list => (next list).beside
  | visitSlot slot next => visitSlot slot next.beside
  | visitValue value next => visitValue value fun moved => (next moved).beside
  | allocate => allocate
  | collect => collect
  | fail violation => fail violation

/-- The reply with something beside the state of the host. -/
def Reply.beside (reply : Reply σ α) (kept : β) : Reply (σ × β) α where
  answer := reply.answer
  host := (reply.host, kept)
  notes := reply.notes

/-- The host with a record of the calls of its destructors beside its state. -/
def Host.recording (host : Host σ δ) : Host (σ × List (Call δ)) δ where
  mapper := host.mapper
  copy destination source state := (host.copy destination source state.1).beside state.2
  scanMinor object := (host.scanMinor object).beside
  scanFull object := (host.scanFull object).beside
  scanFixedMinor object words := (host.scanFixedMinor object words).beside
  scanFixedFull object words := (host.scanFixedFull object words).beside
  extraMinorRoots := host.extraMinorRoots.beside
  extraFullRoots := host.extraFullRoots.beside
  beforeFull state := (host.beforeFull state.1).beside state.2
  afterFull state := (host.afterFull state.1).beside state.2
  destroy destructor object words state :=
    (host.destroy destructor object words state.1).beside
      (state.2 ++ [.mk destructor object words])

/-- The promise of a host with something beside its state that satisfies a condition. -/
def Contract.beside (contract : Contract σ) (holds : β → Prop) : Contract (σ × β) where
  layout := contract.layout
  roots state := contract.roots state.1
  Upholds state := contract.Upholds state.1 ∧ holds state.2

section Beside

variable {contract : Contract σ} {holds : β → Prop} {kept : List Value} {full : Bool}

/-- A visit that scans an item does so with something beside the state, by one step after another. -/
theorem Visit.scans_beside {item : Item} {accepted : α → Prop} {visit : Visit σ α}
    {handled : Nat → Prop} (scans : visit.Scans contract kept full item accepted handled)
    : (visit.beside (β := β)).Scans (contract.beside holds) kept full item accepted handled := by
  induction visit generalizing handled with
  | done result => exact scans
  | getHost next ih => exact fun state upholds roots => ih _ (scans state.1 upholds.1 roots)
  | setHost host next ih =>
      obtain ⟨upholds, roots, rest⟩ := scans
      exact fun state before _ => ⟨⟨upholds, before.2⟩, roots, ih rest⟩
  | note line next ih => exact ih scans
  | isFull next ih => exact ih _ scans
  | load addr next ih =>
      obtain ⟨index, inside, here, rest⟩ := scans
      exact ⟨index, inside, here, fun word same => ih _ (rest word same)⟩
  | words addr count next ih =>
      obtain ⟨first, here, inside, rest⟩ := scans
      exact ⟨first, here, inside, fun list length same => ih _ (rest list length same)⟩
  | visitSlot slot next ih =>
      obtain ⟨index, isSlot, here, rest⟩ := scans
      exact ⟨index, isSlot, here, ih rest⟩
  | visitValue | allocate | collect | fail => exact scans

/-- A visit that forwards roots does so with something beside the state, by one step after another. -/
theorem Visit.forwardsRoots_beside {initial current : List Value}
    {answers : List (Value × Value)} {visit : Visit σ Unit}
    (forwards : visit.ForwardsRoots contract full initial current answers)
    : (visit.beside (β := β)).ForwardsRoots (contract.beside holds) full initial current
        answers := by
  induction visit generalizing current answers with
  | done result => exact forwards
  | getHost next ih => exact fun state upholds roots => ih _ (forwards state.1 upholds.1 roots)
  | setHost host next ih =>
      exact fun state before _ => ⟨⟨forwards.1, before.2⟩, ih forwards.2⟩
  | note line next ih => exact ih forwards
  | isFull next ih => exact ih _ forwards
  | visitValue value next ih =>
      exact ⟨forwards.1, fun moved known again => ih _ (forwards.2 moved known again)⟩
  | load | words | visitSlot | allocate | collect | fail => exact forwards

/-- A host that traces does so with a record beside its state. -/
theorem Host.Traces.beside {host : Host σ δ} (traces : host.Traces contract)
    (holds : List (Call δ) → Prop)
    : host.recording.Traces (contract.beside holds) where
  copy destination source state upholds isObject small large := by
    obtain ⟨answer, keeps⟩ := traces.copy destination source state.1 upholds.1 isObject small large
    exact ⟨answer, ⟨keeps.1, upholds.2⟩, keeps.2⟩
  scanMinor object words kept valid inside isObject :=
    Visit.scans_beside (traces.scanMinor object words kept valid inside isObject)
  scanFull object words kept valid inside isObject :=
    Visit.scans_beside (traces.scanFull object words kept valid inside isObject)
  scanFixedMinor object words kept valid inside :=
    Visit.scans_beside (traces.scanFixedMinor object words kept valid inside)
  scanFixedFull object words kept valid inside :=
    Visit.scans_beside (traces.scanFixedFull object words kept valid inside)
  extraMinorRoots roots := Visit.forwardsRoots_beside (traces.extraMinorRoots roots)
  extraFullRoots roots := Visit.forwardsRoots_beside (traces.extraFullRoots roots)
  beforeFull state upholds := by
    obtain ⟨still, roots⟩ := traces.beforeFull state.1 upholds.1
    exact ⟨⟨still, upholds.2⟩, roots⟩
  afterFull state upholds := by
    obtain ⟨still, roots⟩ := traces.afterFull state.1 upholds.1
    exact ⟨⟨still, upholds.2⟩, roots⟩

/-- The promise with any record beside the state. -/
def Contract.recording (contract : Contract σ) : Contract (σ × List (Call δ)) :=
  contract.beside fun _ => True

/-- Whatever faithful host is made to record its calls records them. -/
theorem Host.Faithful.recording {host : Host σ δ} (faithful : host.Faithful contract)
    : host.recording.Records contract.recording Prod.snd where
  faithful :=
    { toTraces := faithful.toTraces.beside _
      destroy destructor object words state upholds := by
        obtain ⟨still, roots⟩ := faithful.destroy destructor object words state.1 upholds.1
        exact ⟨⟨still, trivial⟩, roots⟩ }
  traces made := by
    have same : contract.recording.having Prod.snd made = contract.beside (· = made) := by
      simp [Contract.having, Contract.recording, Contract.beside]
    rw [same]
    exact faithful.toTraces.beside _
  destroy _ _ _ _ _ := rfl

end Beside

end MovingHeap
