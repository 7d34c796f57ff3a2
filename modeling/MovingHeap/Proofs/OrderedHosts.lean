import MovingHeap.Proofs.RecordContract
import MovingHeap.Proofs.Recording
import MovingHeap.Proofs.VisitingOrder

/-! Hosts that visit in an order.
Records are visited field by field, and a host that follows an order still does when it is made to record
the calls of its destructors.
-/

namespace MovingHeap

variable {σ δ α β : Type}

namespace Visit

variable {contract : Contract σ} {kept : List Value} {item : Item}

/-- Visiting some slots one after another takes them in order, by induction along them. -/
theorem inOrder_forM {indices : List Nat} {known : Nat → Prop}
    (slots : ∀ index ∈ indices, item.IsSlot index) (result : α)
    : (((indices.map item.object.add).forM slot).bind fun _ => .done result).InOrder contract kept
        item known indices := by
  induction indices generalizing known with
  | nil => exact nofun
  | cons index indices ih =>
      refine ⟨index, slots index List.mem_cons_self, rfl, Or.inr ⟨[], indices, rfl, nofun, ?_⟩⟩
      exact ih fun other member => slots other (List.mem_cons_of_mem index member)

section Beside

variable {holds : β → Prop}

/-- A visit takes slots in order with something beside the state, by one step after another. -/
theorem inOrder_beside {visit : Visit σ α} {known : Nat → Prop} {order : List Nat}
    (follows : visit.InOrder contract kept item known order)
    : (visit.beside (β := β)).InOrder (contract.beside holds) kept item known order := by
  induction visit generalizing known order with
  | done result => exact follows
  | getHost next ih => exact fun state upholds roots => ih _ (follows state.1 upholds.1 roots)
  | setHost host next ih =>
      obtain ⟨upholds, roots, rest⟩ := follows
      exact fun state before _ => ⟨⟨upholds, before.2⟩, roots, ih rest⟩
  | note line next ih => exact ih follows
  | isFull next ih => exact ih _ follows
  | load addr next ih =>
      obtain ⟨index, inside, here, rest⟩ := follows
      exact ⟨index, inside, here, fun word same => ih _ (rest word same)⟩
  | words addr count next ih =>
      obtain ⟨first, here, inside, rest⟩ := follows
      exact ⟨first, here, inside, fun list length same => ih _ (rest list length same)⟩
  | visitSlot slot next ih =>
      obtain ⟨index, isSlot, here, again | ⟨skipped, rest, split, known', onward⟩⟩ := follows
      · exact ⟨index, isSlot, here, Or.inl ⟨again.1, ih again.2⟩⟩
      · exact ⟨index, isSlot, here, Or.inr ⟨skipped, rest, split, known', ih onward⟩⟩
  | visitValue | allocate | collect | fail => exact follows

/-- A visit takes roots in order with something beside the state, by one step after another. -/
theorem rootsInOrder_beside {visit : Visit σ Unit} {current order : List Value}
    {answers : List (Value × Value)}
    (follows : visit.RootsInOrder contract current answers order)
    : (visit.beside (β := β)).RootsInOrder (contract.beside holds) current answers order := by
  induction visit generalizing current answers order with
  | done result => exact follows
  | getHost next ih => exact fun state upholds roots => ih _ (follows state.1 upholds.1 roots)
  | setHost host next ih =>
      exact fun state before _ => ⟨⟨follows.1, before.2⟩, ih follows.2⟩
  | note line next ih => exact ih follows
  | isFull next ih => exact ih _ follows
  | visitValue value next ih =>
      rcases follows with ⟨known, onward⟩ | ⟨skipped, rest, split, answered, onward⟩
      · exact Or.inl ⟨known, fun moved same again => ih _ (onward moved same again)⟩
      · exact Or.inr
          ⟨skipped, rest, split, answered, fun moved same again => ih _ (onward moved same again)⟩
  | load | words | visitSlot | allocate | collect | fail => exact follows

end Beside

end Visit

/-- A host that follows an order does so with a record beside its state. -/
theorem Host.Follows.recording {contract : Contract σ} {host : Host σ δ}
    {order : VisitingOrder contract.layout} (follows : host.Follows contract order)
    : host.recording.Follows contract.recording order where
  scanFull object words kept valid inside isObject :=
    Visit.inOrder_beside (follows.scanFull object words kept valid inside isObject)
  scanFixedFull object words kept valid inside :=
    Visit.inOrder_beside (follows.scanFixedFull object words kept valid inside)
  extraFullRoots roots := Visit.rootsInOrder_beside (follows.extraFullRoots roots)

namespace Record

/-- Fields are visited from the first on, and so are the words of fixed objects. -/
def order : VisitingOrder layout where
  slots words := List.range' 1 (fieldCount (words 0))
  payload _ words := List.range words
  isSlot := by
    intro words index _ member
    obtain ⟨above, below⟩ := List.mem_range'_1.mp member
    exact ⟨by omega, by omega⟩
  inside member := List.mem_range.mp member
  agree := by
    intro words other _ same _
    have header : other 0 = words 0 :=
      same 0 (Nat.lt_of_lt_of_le (by decide) (Nat.le_max_right _ _)) fun slot =>
        absurd slot.1 (Nat.lt_irrefl 0)
    rw [header]

/-- Scanning a record visits its fields from the first on. -/
theorem scan_inOrder (label : Label) (callback : String) {object : Address}
    {words : Nat → Word} {kept : List Value} (isObject : layout.IsObject words)
    : (scan label callback object).InOrder contract kept (layout.item object words)
        (fun _ => False) (order.slots words) := by
  have header : ¬ (layout.item object words).IsSlot 0 := fun slot => Nat.lt_irrefl 0 slot.1
  refine ⟨0, Nat.lt_of_lt_of_le (by decide) (Nat.le_max_right _ _), object.add_zero.symm,
    fun first same state upholds _ => ?_⟩
  obtain ⟨copyMode, scanMode, copies, roots⟩ := state
  obtain ⟨-, rfl : scanMode = .faithful⟩ := upholds
  have told : first = words 0 := same header
  subst told
  have visits : ∀ known : Nat → Prop,
      ((((List.range' 1 (fieldCount (words 0))).map (layout.item object words).object.add).forM
            Visit.slot).bind
          fun _ => .done (object.add (Record.words (words 0)))).InOrder contract kept
        (layout.item object words) known (order.slots words) :=
    fun _ => Visit.inOrder_forM (fun _ member => order.isSlot isObject member) _
  exact visits _

/-- Scanning a fixed object visits all of its words, from the first on. -/
theorem scanFixed_inOrder (label : Label) (callback : String) {payload : Address} {words : Nat}
    {kept : List Value}
    : (scanFixed label callback payload words).InOrder contract kept (.payload payload words)
        (fun _ => False) (order.payload payload words) := by
  have visits
      : ((((List.range words).map (Item.payload payload words).object.add).forM Visit.slot).bind
          fun _ => .done ()).InOrder contract kept (.payload payload words) (fun _ => False)
          (List.range words) :=
    Visit.inOrder_forM (fun index member => List.mem_range.mp member) ()
  exact (Visit.bind_pure _ ▸ visits :)

/-- Forwarding one root of the host goes on to the next. -/
theorem visitRoot_inOrder {front waiting : List Value} {root : Value}
    {answers : List (Value × Value)} {next : Visit HostState Unit}
    (rest
      : ∀ moved,
          next.RootsInOrder contract (front ++ moved :: waiting) ((root, moved) :: answers) waiting)
    : ((visitRoot front.length).bind fun _ => next).RootsInOrder contract (front ++ root :: waiting)
        answers (root :: waiting) := by
  rw [visitRoot_bind]
  intro state upholds kept
  simp only [root_eq kept]
  refine Or.inr ⟨[], waiting, rfl, nofun, fun moved _ _ => ?_⟩
  beta_reduce
  split_ifs with changed
  · intro host upholds' kept'
    refine ⟨upholds', ?_⟩
    rw [roots_put kept' moved]
    exact rest moved
  · rw [ne_eq, not_not] at changed
    subst changed
    exact rest moved

/-- The roots of the host that wait are forwarded one after another, by induction along them. -/
theorem visitRoots_forM_inOrder {front waiting : List Value} {answers : List (Value × Value)}
    : ((List.range' front.length waiting.length).forM visitRoot).RootsInOrder contract
        (front ++ waiting) answers waiting := by
  induction waiting generalizing front answers with
  | nil => exact nofun
  | cons root waiting ih =>
      refine visitRoot_inOrder fun moved => ?_
      have onward := @ih (front ++ [moved]) ((root, moved) :: answers)
      simpa using onward

/-- The roots of the host are forwarded in the order in which it keeps them. -/
theorem visitRoots_inOrder (callback : String) (roots : List Value)
    : (visitRoots callback).RootsInOrder contract roots [] roots := by
  intro state upholds kept
  have size : state.roots.size = roots.length := by
    rw [← kept]
    rfl
  have visits : ((List.range' 0 roots.length).forM visitRoot).RootsInOrder contract roots []
      roots := @visitRoots_forM_inOrder [] roots []
  rw [← size, ← List.range_eq_range'] at visits
  exact visits

/-- The record host visits in order. -/
theorem host_follows : host.Follows contract order where
  scanFull _ _ _ _ _ isObject := scan_inOrder Address.text "scan_full" isObject
  scanFixedFull _ _ _ _ _ := scanFixed_inOrder Address.text "scan_fixed_full"
  extraFullRoots := visitRoots_inOrder "extra_full_roots"

end Record

end MovingHeap
