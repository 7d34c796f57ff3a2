import MovingHeap.Proofs.RootVisits
import MovingHeap.Proofs.VisitingOrder

/-! Visits that come upon values in an order.
A host that follows an order meets the values that the slots of an object held, and its own roots, one
after another, however often it goes back to what it knows.
-/

namespace MovingHeap

variable {σ δ α : Type}

namespace Pass

/-- Tracing came on by visits that came upon these values, one after another. -/
structure Tours (pass : Pass σ δ) (kept : List Value) (trail : Trail) (now : Regions δ)
    (values : List Value) (later : Trail) (final : Site σ δ)
    : Prop extends pass.Visits kept trail now later final where
  tour : later.tour final.regions = values.foldl pass.meet (trail.tour now)

variable {pass : Pass σ δ} {kept : List Value} {trail : Trail} {site : Site σ δ}

/-- Coming upon settled values does nothing, by one after another. -/
theorem foldl_meet_settled {tour : Tour} {values : List Value}
    (settled : ∀ value ∈ values, pass.Settled tour.toTrail value)
    : values.foldl pass.meet tour = tour := by
  induction values with
  | nil => rfl
  | cons value values ih =>
      rw [List.foldl_cons, Settled.meet (settled value List.mem_cons_self)]
      exact ih fun other member => settled other (List.mem_cons_of_mem _ member)

/-- Where nothing is left to be done about some values, nothing happened. -/
theorem Tours.still {values : List Value} (moment : pass.Moment kept trail site)
    (settled : ∀ value ∈ values, pass.Settled trail value)
    : pass.Tours kept trail site.regions values trail site where
  toVisits := (Extends.refl moment).visits
  tour :=
    (show values.foldl pass.meet (trail.tour site.regions) = _ from
      foldl_meet_settled settled).symm

/-- Visits in two steps come upon the values of one step and then of the other. -/
theorem Tours.trans {kept' : List Value} {now : Regions δ} {values others : List Value}
    {middle later : Trail} {between final : Site σ δ}
    (first : pass.Tours kept trail now values middle between)
    (second : pass.Tours kept' middle between.regions others later final)
    : pass.Tours kept' trail now (values ++ others) later final where
  toVisits := first.toVisits.trans second.toVisits
  tour := by rw [second.tour, first.tour, List.foldl_append]

/-- A visit that comes upon settled values before others does nothing about them. -/
theorem Tours.after {kept' : List Value} {values others : List Value} {later : Trail}
    {final : Site σ δ} (moment : pass.Moment kept trail site)
    (settled : ∀ value ∈ values, pass.Settled trail value)
    (tours : pass.Tours kept' trail site.regions others later final)
    : pass.Tours kept' trail site.regions (values ++ others) later final :=
  (Tours.still moment settled).trans tours

-----------------------------------------------------------------------------------------
-- Slots in order
-----------------------------------------------------------------------------------------

section Items

variable {item : Item} {space : Space} {offset : Nat} {original : Nat → Word}

/-- A visit in order comes upon the values that the slots held, by induction over its steps. What it
knows are slots whose values are settled.
-/
theorem runVisit_inOrder (ready : pass.Ready) (full : pass.full) {host : Host σ δ}
    (faithful : host.Traces pass.contract) (phase : Phase) {program : Visit σ α}
    {known : Nat → Prop} {order : List Nat}
    (inOrder : program.InOrder pass.contract kept item known order)
    (views : pass.Views trail item space offset original)
    (moment : pass.Moment kept trail site)
    (slots : ∀ index ∈ order, item.IsSlot index)
    (settled : ∀ index, item.IsSlot index → known index → pass.Settled trail ⟨original index⟩)
    : Ends (Collector.runVisit host phase program) site fun _ final =>
        ∃ later,
          pass.Tours kept trail site.regions (order.map fun index => ⟨original index⟩) later
            final := by
  induction program generalizing trail site known order with
  | done result =>
      refine runs_pure.mpr ⟨trail, .still moment fun value member => ?_⟩
      obtain ⟨index, listed, rfl⟩ := List.mem_map.mp member
      exact settled index (slots index listed) (inOrder index listed)
  | getHost next ih =>
      exact ih site.host (inOrder site.host moment.upholds moment.roots) views moment slots settled
  | setHost state next ih =>
      obtain ⟨upholds, roots, rest⟩ := inOrder
      have set : pass.Moment kept trail { site with host := state } :=
        ⟨moment.progress, upholds, roots⟩
      exact ih rest views set slots settled
  | note line next ih =>
      have logged : pass.Moment kept trail { site with log := .note line :: site.log } :=
        ⟨moment.progress, moment.upholds, moment.roots⟩
      exact ih inOrder views logged slots settled
  | isFull next ih =>
      refine ih site.regions.isFull ?_ views moment slots settled
      rwa [moment.isFull, full]
  | load addr next ih =>
      obtain ⟨index, inside, rfl, rest⟩ := inOrder
      have progress := moment.progress
      simp only [Collector.runVisit, Collector.loadWord, runs_bind, runs_get,
        views.word?_eq ready progress inside, Site.runs_require_some]
      refine ih _ (rest _ (views.word progress inside)) views moment slots ?_
      rintro other isSlot (earlier | ⟨rfl, plain⟩)
      · exact settled other isSlot earlier
      · exact (views.forwarded_of_plain progress isSlot plain).1
  | words addr count next ih =>
      obtain ⟨first, rfl, inside, rest⟩ := inOrder
      have progress := moment.progress
      obtain ⟨list, read, length, cells⟩ := views.slice?_eq ready progress inside
      simp only [Collector.runVisit, runs_bind, runs_get, read, Site.runs_require_some]
      refine ih _ (rest list length fun index within plain => ?_) views moment slots ?_
      · rw [cells index within]
        exact views.word progress (by omega) plain
      · rintro other isSlot (earlier | ⟨index, word, rfl, found, plain⟩)
        · exact settled other isSlot earlier
        · obtain ⟨within, same⟩ := List.getElem?_eq_some_iff.mp found
          rw [← same, cells index within] at plain
          exact (views.forwarded_of_plain progress isSlot plain).1
  | visitSlot slot next ih =>
      obtain ⟨index, isSlot, rfl, either⟩ := inOrder
      simp only [Collector.runVisit, runs_bind]
      refine (views.visitSlot ready moment faithful isSlot).mono ?_
      rintro _ middle ⟨later, visits, forwarded, tour⟩
      have step : pass.Tours kept trail site.regions [⟨original index⟩] later middle :=
        ⟨visits, tour⟩
      have before : ∀ other, item.IsSlot other → known other →
          pass.Settled later ⟨original other⟩ := fun other isSlot' knows =>
        (settled other isSlot' knows).grows visits.grows
      rcases either with ⟨knows, rest⟩ | ⟨skipped, rest, rfl, passed, onward⟩
      · -- the slot is one to go back to, and nothing is done about it
        refine (ih rest (views.grows visits.grows) visits.moment slots before).mono ?_
        rintro result final ⟨last, further⟩
        have same : later.tour middle.regions = trail.tour site.regions := by
          rw [tour]
          exact Settled.meet (settled index isSlot knows)
        exact ⟨last, visits.trans further.toVisits, by rw [further.tour, same]⟩
      · refine (ih onward (views.grows visits.grows) visits.moment
          (fun other member => slots other (by simp [member])) ?_).mono ?_
        · rintro other isSlot' (earlier | rfl)
          · exact before other isSlot' earlier
          · exact forwarded.1
        · rintro result final ⟨last, further⟩
          refine ⟨last, ?_⟩
          rw [List.map_append, List.map_cons]
          refine .after moment (fun value member => ?_) (step.trans further)
          obtain ⟨other, listed, rfl⟩ := List.mem_map.mp member
          exact settled other (slots other (by simp [listed])) (passed other listed)
  | visitValue value next ih => exact inOrder.elim
  | allocate => exact inOrder.elim
  | collect => exact inOrder.elim
  | fail violation => exact inOrder.elim

end Items

-----------------------------------------------------------------------------------------
-- Roots in order
-----------------------------------------------------------------------------------------

/-- A root that was answered is settled. -/
theorem settled_of_answered {answers : List (Value × Value)} {root : Value}
    (became : ∀ root moved, (root, moved) ∈ answers → pass.Became trail root moved)
    (answered : Visit.Answered answers root)
    : pass.Settled trail root := by
  rcases answered with plain | ⟨moved, member⟩
  · exact settled_of_plain plain
  · exact (became root moved member).settled

/-- A host that forwards its roots in order comes upon them in that order, by induction over the steps
of its visit.
-/
theorem runVisit_rootsInOrder (ready : pass.Ready) (full : pass.full) {host : Host σ δ}
    (faithful : host.Traces pass.contract) (phase : Phase) {program : Visit σ Unit}
    {current : List Value} {answers : List (Value × Value)} {order : List Value}
    (inOrder : program.RootsInOrder pass.contract current answers order)
    (traced : ∀ root ∈ order, pass.Traced root)
    (moment : pass.Moment current trail site)
    (became
      : ∀ root moved, (root, moved) ∈ answers →
          pass.Traced root ∧ pass.Became trail root moved)
    : Ends (Collector.runVisit host phase program) site fun _ final =>
        ∃ later,
          pass.Tours (pass.contract.roots final.host) trail site.regions order later final := by
  induction program generalizing trail site current answers order with
  | done result =>
      refine runs_pure.mpr ⟨trail, ?_⟩
      rw [moment.roots]
      exact .still moment fun root member =>
        settled_of_answered (fun root moved there => (became root moved there).2)
          (inOrder root member)
  | getHost next ih =>
      exact ih site.host (inOrder site.host moment.upholds moment.roots) traced moment became
  | setHost state next ih =>
      obtain ⟨upholds, rest⟩ := inOrder
      have set : pass.Moment (pass.contract.roots state) trail { site with host := state } :=
        ⟨moment.progress, upholds, rfl⟩
      exact ih rest traced set became
  | note line next ih =>
      have logged : pass.Moment current trail { site with log := .note line :: site.log } :=
        ⟨moment.progress, moment.upholds, moment.roots⟩
      exact ih inOrder traced logged became
  | isFull next ih =>
      refine ih site.regions.isFull ?_ traced moment became
      rwa [moment.isFull, full]
  | visitValue value next ih =>
      have knows : pass.Traced value ∨ ∃ root, pass.Became trail root value := by
        rcases inOrder with ⟨⟨moved, answered⟩ | ⟨root, answered⟩, -⟩ | ⟨skipped, rest, rfl, -, -⟩
        · exact Or.inl (became value moved answered).1
        · exact Or.inr ⟨root, (became root value answered).2⟩
        · exact Or.inl (traced value (by simp))
      simp only [Collector.runVisit, runs_bind]
      refine (forward_became ready moment faithful knows).mono ?_
      rintro moved middle ⟨later, visits, result, tour⟩
      have step : pass.Tours current trail site.regions [value] later middle := ⟨visits, tour⟩
      have before : ∀ root other, (root, other) ∈ answers →
          pass.Traced root ∧ pass.Became later root other := fun root other member =>
        ⟨(became root other member).1, (became root other member).2.grows visits.grows⟩
      have same : ∀ known, (value, known) ∈ answers → moved = known := by
        intro known answered
        exact (before value known answered).2.unique result
      have rests : (∃ root, (root, value) ∈ answers) → moved = value := by
        rintro ⟨root, answered⟩
        exact (before root value answered).2.stays result
      rcases inOrder with ⟨either, rest⟩ | ⟨skipped, rest, rfl, passed, onward⟩
      · -- the value is one to go back to, and nothing is done about it
        refine (ih moved (rest moved same rests) traced visits.moment before).mono ?_
        rintro _ final ⟨last, further⟩
        have settled : pass.Settled trail value := by
          rcases either with ⟨known, answered⟩ | ⟨root, answered⟩
          · exact (became value known answered).2.settled
          · exact (became root value answered).2.still.settled.1
        have unmoved : later.tour middle.regions = trail.tour site.regions := by
          rw [tour]
          exact Settled.meet settled
        exact ⟨last, visits.trans further.toVisits, by rw [further.tour, unmoved]⟩
      · have isTraced := traced value (by simp)
        refine (ih moved (onward moved same rests)
          (fun root member => traced root (by simp [member])) visits.moment ?_).mono ?_
        · rintro root other member
          rcases List.mem_cons.mp member with here | earlier
          · obtain ⟨rfl, rfl⟩ := Prod.mk.inj here
            exact ⟨isTraced, result⟩
          · exact before root other earlier
        · rintro _ final ⟨last, further⟩
          exact ⟨last, .after moment (fun root member => settled_of_answered
            (fun root moved there => (became root moved there).2) (passed root member))
            (step.trans further)⟩
  | load addr next ih => exact inOrder.elim
  | words addr count next ih => exact inOrder.elim
  | visitSlot slot next ih => exact inOrder.elim
  | allocate => exact inOrder.elim
  | collect => exact inOrder.elim
  | fail violation => exact inOrder.elim

end Pass

end MovingHeap
