import Mathlib.Data.List.Forall2
import Mathlib.Tactic.Common
import MovingHeap.Proofs.Contract
import MovingHeap.Record.Host

/-! Records keep a promise.
The header of a record tells its size and its slots, so the host that copies and scans records as they
are is a faithful one, whatever roots of its own it keeps.
-/

namespace MovingHeap

variable {σ α : Type}

namespace Address

/-- No word behind an address is the address. -/
@[simp] theorem add_zero (addr : Address) : addr.add 0 = addr := by
  simp [add]

end Address

namespace Visit

variable {contract : Contract σ} {kept : List Value} {full : Bool} {item : Item}
  {accepted : α → Prop}

/-- Visiting some slots one after another handles them, by induction along them. -/
theorem scans_forM {next : Visit σ α} {indices : List Nat} {handled : Nat → Prop}
    (slots : ∀ index ∈ indices, item.IsSlot index)
    (rest
      : next.Scans contract kept full item accepted fun other =>
          handled other ∨ other ∈ indices)
    : (((indices.map item.object.add).forM slot).bind fun _ => next).Scans contract kept full item
        accepted handled := by
  induction indices generalizing handled with
  | nil =>
      have same : (fun other => handled other ∨ other ∈ ([] : List Nat)) = handled := by simp
      rwa [same] at rest
  | cons index indices ih =>
      refine ⟨index, slots index List.mem_cons_self, rfl, ?_⟩
      refine ih (fun other member => slots other (List.mem_cons_of_mem index member)) ?_
      simpa only [List.mem_cons, or_assoc] using rest

end Visit

namespace Record

/-- Records: the header is the first word, and the fields it declares are slots. -/
def layout : Layout where
  IsObject words := words 0 ≠ 0
  size words := Record.words (words 0)
  IsSlot words index := 0 < index ∧ index ≤ fieldCount (words 0)
  two_le_size _ := Nat.le_max_right _ _
  first_ne_zero present := present
  slot_lt := by
    intro words index _ slot
    have header : fieldCount (words 0) + 1 ≤ Record.words (words 0) := Nat.le_max_left _ _
    omega
  agree := by
    intro words other _ same present
    have two : minObjectWords ≤ Record.words (words 0) := Nat.le_max_right _ _
    have header : other 0 = words 0 :=
      same 0 (Nat.lt_of_lt_of_le (by decide) two) fun slot => absurd slot.1 (Nat.lt_irrefl 0)
    exact ⟨present, by rw [header], fun index => by rw [header]⟩

/-- A host that was not told to misbehave keeps the promise. -/
def contract : Contract HostState where
  layout := layout
  roots host := host.roots.toList
  Upholds host := host.copyMode = .faithful ∧ host.scanMode = .faithful

/-- Copying answers the words of the record. -/
theorem copy_faithful {destination source : Window} {state : HostState}
    (upholds : contract.Upholds state) (fits : layout.size source.field ≤ destination.length)
    : (copy destination source state).answer
        = ⟨source.take (layout.size source.field), layout.size source.field⟩
      ∧ contract.Keeps state (copy destination source state).host := by
  have mode : state.copyMode = .faithful := upholds.1
  have whole : min (Record.words ((source.get? 0).getD 0)) destination.length
      = Record.words ((source.get? 0).getD 0) := Nat.min_eq_left fits
  refine ⟨?_, upholds, rfl⟩
  simp only [copy, mode, whole]
  rfl

/-- Scanning a record visits its fields and answers the address behind it. -/
theorem scan_faithful (label : Label) (callback : String) {object : Address}
    {words : Nat → Word} {kept : List Value} (full : Bool)
    : (scan label callback object).Scans contract kept full (layout.item object words)
        (· = object.add (layout.size words)) fun _ => False := by
  have header : ¬ (layout.item object words).IsSlot 0 := fun slot => Nat.lt_irrefl 0 slot.1
  refine ⟨0, Nat.lt_of_lt_of_le (by decide) (Nat.le_max_right _ _), object.add_zero.symm,
    fun first same state upholds _ => ?_⟩
  obtain ⟨copyMode, scanMode, copies, roots⟩ := state
  obtain ⟨-, rfl : scanMode = .faithful⟩ := upholds
  have told : first = words 0 := same header
  subst told
  have visits : ∀ handled : Nat → Prop,
      ((((List.range' 1 (fieldCount (words 0))).map (layout.item object words).object.add).forM
            Visit.slot).bind
          fun _ => .done (object.add (Record.words (words 0)))).Scans contract kept full
        (layout.item object words) (· = object.add (layout.size words)) handled := by
    intro handled
    refine Visit.scans_forM (fun index member => ?_) ?_
    · obtain ⟨above, below⟩ := List.mem_range'_1.mp member
      exact ⟨by omega, by omega⟩
    · refine ⟨rfl, fun index slot => ?_⟩
      obtain ⟨above, below⟩ := slot
      exact Or.inr (List.mem_range'_1.mpr ⟨by omega, by omega⟩)
  exact visits _

/-- Scanning a fixed object visits all of its words. -/
theorem scanFixed_faithful (label : Label) (callback : String) {payload : Address} {words : Nat}
    {kept : List Value} (full : Bool)
    : (scanFixed label callback payload words).Scans contract kept full (.payload payload words)
        (fun _ => True) fun _ => False := by
  have visits
      : ((((List.range words).map (Item.payload payload words).object.add).forM Visit.slot).bind
          fun _ => .done ()).Scans contract kept full (.payload payload words) (fun _ => True)
          fun _ => False := by
    refine Visit.scans_forM ?_ ?_
    · exact fun index member => List.mem_range.mp member
    exact ⟨trivial, fun index inside => Or.inr (List.mem_range.mpr inside)⟩
  exact (Visit.bind_pure _ ▸ visits :)

section Roots

variable {state : HostState} {front waiting : List Value} {root : Value}
  (kept : contract.roots state = front ++ root :: waiting)

include kept

/-- The root at a place is read. -/
theorem root_eq : (state.roots[front.length]?).getD .null = root := by
  have listed : state.roots.toList = front ++ root :: waiting := kept
  rw [← Array.getElem?_toList, listed]
  simp

/-- The root at a place is replaced. -/
theorem roots_put (moved : Value)
    : contract.roots { state with roots := state.roots.setIfInBounds front.length moved }
      = front ++ moved :: waiting := by
  have listed : state.roots.toList = front ++ root :: waiting := kept
  simp [contract, listed]

end Roots

/-- Forwarding one root of the host and then going on. -/
theorem visitRoot_bind (index : Nat) (next : Visit HostState Unit)
    : ((visitRoot index).bind fun _ => next)
      = .getHost fun state =>
          .visitValue ((state.roots[index]?).getD .null) fun moved =>
            if moved ≠ (state.roots[index]?).getD .null then
              .getHost fun host => .setHost
                { host with roots := host.roots.setIfInBounds index moved } next
            else next := by
  change Visit.getHost (fun state =>
    .visitValue ((state.roots[index]?).getD .null) fun moved =>
      Visit.bind
        (if moved ≠ (state.roots[index]?).getD .null then
          .getHost fun host => .setHost
            { host with roots := host.roots.setIfInBounds index moved } (.done ())
        else .done ())
        fun _ => next) = _
  congr 1
  funext state
  congr 1
  funext moved
  split_ifs <;> rfl

/-- Forwarding one root of the host leaves it with what came of it in the root's place. -/
theorem visitRoot_forwards {full : Bool} {initial front waiting : List Value} {root : Value}
    {answers : List (Value × Value)} {next : Visit HostState Unit} (member : root ∈ initial)
    (rest
      : ∀ moved,
          next.ForwardsRoots contract full initial (front ++ moved :: waiting)
            ((root, moved) :: answers))
    : ((visitRoot front.length).bind fun _ => next).ForwardsRoots contract full initial
        (front ++ root :: waiting) answers := by
  rw [visitRoot_bind]
  intro state upholds kept
  simp only [root_eq kept]
  refine ⟨Or.inl member, fun moved _ _ => ?_⟩
  beta_reduce
  split_ifs with changed
  · intro host upholds' kept'
    refine ⟨upholds', ?_⟩
    rw [roots_put kept' moved]
    exact rest moved
  · rw [ne_eq, not_not] at changed
    subst changed
    exact rest moved

/-- Some of the roots of a host were forwarded, each put back before the next, and the others wait. -/
theorem visitRoots_forM {full : Bool} {initial front before waiting : List Value}
    {answers : List (Value × Value)} (split : initial = before ++ waiting)
    (done
      : List.Forall₂ (fun root moved =>
          (root, moved) ∈ answers ∨ moved = root ∧ root.address? = none) before front)
    : ((List.range' front.length waiting.length).forM visitRoot).ForwardsRoots contract full initial
        (front ++ waiting) answers := by
  induction waiting generalizing front before answers with
  | nil =>
      rw [List.append_nil] at split
      subst split
      rw [List.append_nil]
      exact done
  | cons root waiting ih =>
      refine visitRoot_forwards (by simp [split]) fun moved => ?_
      have split' : initial = (before ++ [root]) ++ waiting := by simp [split]
      have done' : List.Forall₂ (fun root' moved' =>
          (root', moved') ∈ (root, moved) :: answers ∨ moved' = root' ∧ root'.address? = none)
          (before ++ [root]) (front ++ [moved]) := by
        refine List.rel_append (done.imp fun _ _ known => ?_)
          (.cons (Or.inl List.mem_cons_self) .nil)
        exact known.imp_left (List.mem_cons_of_mem _)
      have onward := ih split' done'
      simpa using onward

/-- Forwarding the roots of the host forwards each of them. -/
theorem visitRoots_faithful (callback : String) (full : Bool) (roots : List Value)
    : (visitRoots callback).ForwardsRoots contract full roots roots [] := by
  intro state upholds kept
  have size : state.roots.size = roots.length := by
    rw [← kept]
    rfl
  have visits : ((List.range' 0 roots.length).forM visitRoot).ForwardsRoots contract full roots
      roots [] := @visitRoots_forM full roots [] [] roots [] rfl .nil
  rw [← size, ← List.range_eq_range'] at visits
  exact visits

/-- The record host is faithful. -/
theorem host_faithful : host.Faithful contract where
  copy _ _ _ upholds _ _ fits := copy_faithful upholds fits
  scanMinor _ _ _ _ _ _ := scan_faithful Address.text "scan_minor" false
  scanFull _ _ _ _ _ _ := scan_faithful Address.text "scan_full" true
  scanFixedMinor _ _ _ _ _ := scanFixed_faithful Address.text "scan_fixed_minor" false
  scanFixedFull _ _ _ _ _ := scanFixed_faithful Address.text "scan_fixed_full" true
  extraMinorRoots := visitRoots_faithful "extra_minor_roots" false
  extraFullRoots := visitRoots_faithful "extra_full_roots" true
  beforeFull _ upholds := ⟨upholds, rfl⟩
  afterFull _ upholds := ⟨upholds, rfl⟩
  destroy _ _ _ _ upholds := ⟨upholds, rfl⟩

end Record

end MovingHeap
