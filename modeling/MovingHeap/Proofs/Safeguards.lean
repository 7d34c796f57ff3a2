import MovingHeap.Proofs.Guarantees
import MovingHeap.Proofs.IntactSlots
import MovingHeap.Proofs.LinkedSweeps
import MovingHeap.Proofs.MinorBeforeFull
import MovingHeap.Proofs.OrderedHosts
import MovingHeap.Proofs.RecordedSlots
import MovingHeap.Proofs.Termination

/-! What every run can rely on, whatever its host does.
Records of slots and objects never get into each other's way, though they share one memory and nobody
checks what is stored in it.
-/

namespace MovingHeap

variable {σ δ : Type}

-----------------------------------------------------------------------------------------
-- Recorded slots
-----------------------------------------------------------------------------------------

namespace World

end World

namespace Record

/-- A slot of the fixed space was recorded beside a young record. -/
def notedWorld : World HostState Destructor :=
  youngWorld.after ((Operation.notifyStore (.pack .fixed 0)).run host)

theorem reachable_noted : notedWorld.Reachable := conforming_young.reachable.operate host _

theorem idle_noted : notedWorld.heap.phase = .idle := by decide +kernel

end Record

namespace World

end World

-----------------------------------------------------------------------------------------
-- Minor collections before full ones
-----------------------------------------------------------------------------------------

namespace World

variable {contract : Contract σ} {world : World σ δ}

/-- A minor collection before a full one changes nothing where the host plays by the rules and visits
objects and its roots in an order. Where the full collection ends, the two end as well and leave the same
roots, the same words in the same semispace and the same fixed objects, and the same destructors are
called. So collecting on demand leaves the same where the minor collection left too little room.
-/
theorem minor_before_full_unnoticed (conforming : world.Conforming contract)
    (idle : world.heap.phase = .idle) (addressable : world.Addressable) {host : Host σ δ}
    (faithful : host.Faithful contract) {order : VisitingOrder contract.layout}
    (follows : host.Follows contract order) (first second alone : Reason)
    : Runs (Collector.full host alone) world
        (fun _ direct =>
          Ends (do Collector.minor host first; Collector.full host second) world
            (fun _ final => direct.Concurs contract host final)
          ∧ (world.heap.pendingFull = none →
              ∀ words ≤ world.heap.regions.birth.maxObjectWords,
                Ends (Collector.collectFor host words false first) world fun _ final =>
                  ∃ middle,
                    Collector.minor host first world = .ok () middle
                    ∧ if middle.heap.regions.old.free < middle.heap.regions.birth.capacity then
                        direct.Concurs contract host final
                      else final = middle))
        fun violation _ =>
          host.mapper.map? (Collector.targetWords world.heap) = none
          ∧ violation = .regionMap (Collector.targetWords world.heap * wordBytes) := by
  have sound := conforming.sound idle addressable
  have runs := sound.toOrderly.collectable.full_inOrder addressable faithful follows alone
  obtain ⟨_, middle, minor, -⟩ := (sound.minor addressable faithful.toTraces first).exists_ok
  have starts : ∀ {ended : Unit → World σ δ → Prop}, ended () middle →
      Ends (Collector.minor host first) world ended := by
    intro ended holds
    rwa [Ends, Runs, minor]
  unfold Runs
  cases ran : Collector.full host alone world with
  | error violation final => exact runs.of_error ran
  | ok _ direct =>
      have after := sound.full_after_minor addressable faithful follows ran minor
      refine ⟨?_, fun pending words small => ?_⟩
      · exact runs_bind.mpr (starts (after second))
      · refine (Collector.runs_collectFor_minor idle small pending).mpr (starts ?_)
        split_ifs with short
        · exact (after .oldSpaceFull).mono fun _ _ same => ⟨middle, minor, by rwa [if_pos short]⟩
        · exact ⟨middle, minor, by rw [if_neg short]⟩

/-- The copy of a record takes two words, and the only fixed object is destroyed, with a minor collection
before or without.
-/
theorem minor_before_full_unnoticed_noted
    : Record.youngWorld.Conforming Record.contract
      ∧ Record.host.Follows Record.contract Record.order
      ∧ Ends (Collector.full Record.host .requestedByUser) Record.youngWorld (fun _ direct =>
          direct.heap.regions.old.cursor = 2
          ∧ Ends
              (do
                Collector.minor Record.host .allocationFailure
                Collector.full Record.host .oldSpaceFull)
              Record.youngWorld fun _ final => direct.Agrees Record.contract final)
      ∧ Record.lodgedWorld.Conforming Record.contract.recording
      ∧ Ends (Collector.full Record.host.recording .requestedByUser) Record.lodgedWorld
          fun _ direct =>
            direct.host.2.map Call.target = [(.log, .pack .fixed 0)]
            ∧ Ends
                (do
                  Collector.minor Record.host.recording .allocationFailure
                  Collector.full Record.host.recording .oldSpaceFull)
                Record.lodgedWorld fun _ final =>
                  final.host.2.map Call.target = [(.log, .pack .fixed 0)] := by
  have moves : Ends (Collector.full Record.host .requestedByUser) Record.youngWorld fun _ direct =>
      direct.heap.regions.old.cursor = 2 := by
    decide +kernel
  have destroys : Ends (Collector.full Record.host.recording .requestedByUser) Record.lodgedWorld
      fun _ direct => direct.host.2.map Call.target = [(.log, .pack .fixed 0)] := by
    decide +kernel
  refine ⟨Record.conforming_young, Record.host_follows, ?_, Record.conforming_lodged, ?_⟩
  · refine (moves.and (minor_before_full_unnoticed Record.conforming_young Record.idle_young
      Record.addressable_young Record.host_faithful Record.host_follows .allocationFailure .oldSpaceFull
      .requestedByUser)).mono ?_ fun _ _ never => never.1
    rintro _ direct ⟨cursor, same, -⟩
    exact ⟨cursor, same.mono fun _ _ => Concurs.toAgrees⟩
  · refine (destroys.and (minor_before_full_unnoticed Record.conforming_lodged Record.idle_lodged
      Record.addressable_lodged Record.host_faithful.recording.faithful
      Record.host_follows.recording .allocationFailure .oldSpaceFull .requestedByUser)).mono ?_
      fun _ _ never => never.1
    rintro _ direct ⟨called, same, -⟩
    refine ⟨called, same.mono fun _ final concurs => ?_⟩
    exact (concurs.called Prod.snd Record.host_faithful.recording).trans called

end World

-----------------------------------------------------------------------------------------
-- Fixed slots
-----------------------------------------------------------------------------------------

namespace Record

/-- No visit of the host of records reports a corrupt slot. -/
theorem trusts_host : host.Trusts := by
  have announces : ∀ line, (announce line).Trusts := fun _ _ => trivial
  have scans : ∀ label callback object, (scan label callback object).Trusts := by
    intro label callback object
    refine (announces _).bind fun _ => Visit.Trusts.bind (fun _ => trivial) fun header => ?_
    refine Visit.Trusts.bind (fun _ => trivial) fun state => Visit.Trusts.bind ?_ fun _ => ?_
    · cases state.scanMode <;> first | trivial | exact fun _ => trivial
    · refine (Visit.trusts_forM fun slot => ?_).bind fun _ => trivial
      cases state.scanMode <;> first | trivial | exact fun _ => trivial | exact fun _ _ => trivial
  have payloads : ∀ label callback payload words, (scanFixed label callback payload words).Trusts := by
    intro label callback payload words
    exact (announces _).bind fun _ => Visit.trusts_forM fun slot => trivial
  have roots : ∀ callback, (visitRoots callback).Trusts := by
    intro callback
    refine Visit.Trusts.bind trivial fun _ => Visit.Trusts.bind (fun _ => trivial) fun state => ?_
    refine Visit.trusts_forM fun index => Visit.Trusts.bind (fun _ => trivial) fun state => ?_
    refine Visit.Trusts.bind (fun _ => trivial) fun moved => ?_
    split_ifs
    · exact fun _ => trivial
    · trivial
  exact ⟨scans _ _, scans _ _, payloads _ _, payloads _ _, roots _, roots _⟩

/-- Two small objects, of which the first is swept, and then a reused slot and a larger object. -/
def slotChanges : List (FixedSpace.Change HostState Destructor) :=
  [.allocate 3 (by decide) (some .poke) false, .allocate 3 (by decide) none false, .mark 5,
    .sweep host.destroy {}, .allocate 4 (by decide) none false, .allocate 70 (by decide) none true,
    .forget 4, .overwrite 1 9, .clearFresh]

end Record

end MovingHeap
