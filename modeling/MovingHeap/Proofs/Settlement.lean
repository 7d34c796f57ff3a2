import MovingHeap.Proofs.RootVisits
import MovingHeap.Proofs.Tiling
import MovingHeap.Proofs.Transport

/-! A collection that has traced everything.
Once every place that tracing starts from is forwarded and every copy and marked object was scanned,
everything that can be met is settled, so each of the places holds what its value became for good.
-/

namespace MovingHeap

variable {σ δ : Type}

namespace Pass

/-- How far visiting the roots has come since tracing began: the roots of some kinds and some of the
handled cells hold what their values became, as many fixed objects count as fresh, and all that were
marked wait to be scanned.
-/
structure Gathers (pass : Pass σ δ) (origin : Heap δ) (begun : World σ δ) (kept : List Value)
    (fresh : List Nat) (kinds : List RootKind) (cells : Space → Nat → Prop) (trail : Trail)
    (now : World σ δ)
    : Prop where
  standing : pass.Standing origin kept trail now
  comes : begun.Comes now
  recent : now.heap.regions.fixed.recent = fresh
  waiting : ∀ begin ∈ trail.marked, begin ∈ now.heap.regions.unscanned
  roots
    : ∀ root,
        root.kind ∈ kinds →
        pass.Forwarded trail (origin.rootValue root) (now.heap.rootValue root).raw
  cells
    : ∀ space offset,
        cells space offset →
        pass.handles space offset
        ∧ pass.Forwarded trail ⟨pass.before.cell space offset⟩
            (now.heap.regions.cell space offset)

/-- All roots were visited: those of the heap and those of the host hold what their values became. -/
structure Visited (pass : Pass σ δ) (origin : Heap δ) (roots : List Value) (trail : Trail)
    (traced : World σ δ)
    : Prop where
  standing : pass.Standing origin (pass.contract.roots traced.host) trail traced
  forwarded
    : ∀ root,
        pass.Forwarded trail (origin.rootValue root) (traced.heap.rootValue root).raw
  kept
    : List.Forall₂
        (fun root moved => pass.Settled trail root ∧ moved = pass.relocated trail root) roots
        (pass.contract.roots traced.host)

/-- Tracing has come to its end in a world: besides the roots, the handled cells and the slots of all
copies hold what their values became.
-/
structure Done (pass : Pass σ δ) (origin : Heap δ) (roots : List Value) (trail : Trail)
    (traced : World σ δ)
    : Prop extends pass.Visited origin roots trail traced where
  handled
    : ∀ space offset,
        pass.handles space offset →
        pass.Forwarded trail ⟨pass.before.cell space offset⟩
          (traced.heap.regions.cell space offset)
  scanned : ∀ object ∈ trail.moved, pass.Scanned trail traced.heap.regions object

variable {pass : Pass σ δ} {origin : Heap δ} {roots : List Value} {trail : Trail}
  {traced : World σ δ}

section Gathers

variable {begun now final : World σ δ} {kept kept' : List Value} {fresh later' : List Nat}
  {kinds : List RootKind} {cells : Space → Nat → Prop} {later : Trail}

/-- What was gathered stays so where tracing comes on by visits. -/
theorem Gathers.passes
    (gathers : pass.Gathers origin begun kept fresh kinds cells trail now)
    (passes : pass.Passes origin kept' trail now later final)
    (visits : pass.Visits kept' trail now.heap.regions later final.site)
    (recent : final.heap.regions.fixed.recent = later')
    : pass.Gathers origin begun kept' later' kinds cells later final where
  standing := passes.standing
  comes := gathers.comes.trans passes.comes
  recent := recent
  waiting begin marked := by
    rcases visits.waiting begin marked with waits | ⟨earlier, gone⟩
    · exact waits
    · exact absurd (gathers.waiting begin earlier) gone
  roots root visited := passes.forwarded root (gathers.roots root visited)
  cells space offset inside := by
    obtain ⟨handled, forwarded⟩ := gathers.cells space offset inside
    exact ⟨handled, passes.onward.forwarded _ _ _ (.stayed handled) forwarded⟩

/-- Visiting the roots of one more kind. -/
theorem Gathers.visitKind (ready : pass.Ready)
    (gathers : pass.Gathers origin begun kept fresh kinds cells trail now)
    {host : Host σ δ} (faithful : host.Traces pass.contract) {listed : List Root}
    (kind : RootKind) (traced : ∀ root, pass.Traced (origin.rootValue root))
    (covers
      : ∀ root,
          root.kind = kind →
          now.heap.rootValue root ≠ .null →
          root ∈ listed ∨ ∀ later, pass.Still later (origin.rootValue root))
    : Ends (Collector.visitRoots host listed) now fun _ final =>
        ∃ later, pass.Gathers origin begun kept fresh (kind :: kinds) cells later final := by
  refine (visitRoots_kind ready gathers.standing faithful traced covers).mono ?_
  intro _ final reached
  obtain ⟨later, proceeds, visited⟩ := reached
  have before := gathers.passes proceeds.toPasses proceeds.visits (proceeds.recent.trans gathers.recent)
  refine ⟨later, { before with roots := fun root member => ?_ }⟩
  rcases List.mem_cons.mp member with here | earlier
  · exact visited root here
  · exact before.roots root earlier

/-- Visiting the roots that the host keeps itself. -/
theorem Gathers.visitHost (ready : pass.Ready)
    (gathers : pass.Gathers origin begun kept fresh kinds cells trail now)
    {host : Host σ δ} (faithful : host.Traces pass.contract) (phase : Phase)
    {program : Visit σ Unit}
    (forwards : program.ForwardsRoots pass.contract pass.full kept kept [])
    (traced : ∀ root ∈ kept, pass.Traced root)
    : Ends (World.onSite (Collector.runVisit host phase program)) now fun _ final =>
        ∃ later,
          pass.Gathers origin begun (pass.contract.roots final.host) fresh kinds cells later final
          ∧ List.Forall₂
              (fun root moved => pass.Settled later root ∧ moved = pass.relocated later root) kept
              (pass.contract.roots final.host) := by
  have standing := gathers.standing
  have visits := runVisit_forwardsRoots ready faithful phase traced forwards standing.moment nofun
  refine (standing.onSite (Collector.tends_runVisit host phase program) visits).mono ?_
  intro _ final reached
  obtain ⟨later, proceeds, -, became⟩ := reached
  exact ⟨later, gathers.passes proceeds.toPasses proceeds.visits (proceeds.recent.trans gathers.recent), became⟩

/-- Once the roots of every kind and those of the host were visited, all roots were. -/
theorem Gathers.visited
    (gathers
      : pass.Gathers origin begun (pass.contract.roots now.host) fresh kinds cells trail now)
    (all : ∀ kind, kind ∈ kinds)
    (became
      : List.Forall₂
          (fun root moved => pass.Settled trail root ∧ moved = pass.relocated trail root) kept
          (pass.contract.roots now.host))
    : pass.Visited origin kept trail now :=
  ⟨gathers.standing, fun root => gathers.roots root (all root.kind), became⟩

end Gathers

/-- Everything met is settled once all that was moved or marked was scanned, by induction over the
path.
-/
theorem settled_of_traced {now : Regions δ}
    (starts : ∀ value, pass.start value → pass.Settled trail value)
    (scanned : ∀ object ∈ trail.moved, pass.Scanned trail now object)
    (filled : pass.full → ∀ begin ∈ trail.marked, pass.Filled trail now begin) {value : Value}
    (met : pass.Traced value)
    : pass.Settled trail value := by
  induction met with
  | start root => exact starts _ root
  | @field addr index valid _ moves slot ih =>
      have moved := (ih addr (Value.address?_toValue valid)).1 moves
      exact (scanned addr moved index slot).1
  | @payload addr begin index occupant valid _ follows fixed covers found known inside ih =>
      have remembered : pass.before.forgets addr = false := by
        simp [Regions.forgets, Regions.occupantAt?, covers, found, known]
      have marked := (ih addr (Value.address?_toValue valid)).2 follows fixed remembered begin covers
      exact (filled follows begin marked occupant found index inside).1

/-- Where tracing came on after all roots were visited, they still hold what their values became. -/
theorem Visited.onward (visited : pass.Visited origin roots trail traced) {later : Trail}
    {final : World σ δ}
    (passes
      : pass.Passes origin (pass.contract.roots traced.host) trail traced later final)
    : pass.Visited origin roots later final := by
  have same : pass.contract.roots final.host = pass.contract.roots traced.host :=
    passes.onward.moment.roots
  refine ⟨?_, fun root => passes.forwarded root (visited.forwarded root), ?_⟩
  · rw [same]
    exact passes.standing
  · rw [same]
    refine visited.kept.imp fun root moved became => ?_
    obtain ⟨settled, equal⟩ := became
    exact ⟨settled.grows passes.onward.grows,
      equal.trans (settled.relocated_grows passes.onward.grows).symm⟩

/-- The roots of the host are settled, and they became what they became. -/
theorem Visited.roots_eq (visited : pass.Visited origin roots trail traced)
    : pass.contract.roots traced.host = roots.map (pass.relocated trail)
      ∧ ∀ root ∈ roots, pass.Settled trail root := by
  have kept := visited.kept
  generalize pass.contract.roots traced.host = moved at kept
  clear visited
  induction kept with
  | nil => exact ⟨rfl, nofun⟩
  | cons first _ ih =>
      refine ⟨by rw [List.map_cons, ← first.2, ih.1], fun root member => ?_⟩
      rcases List.mem_cons.mp member with rfl | later
      · exact first.1
      · exact ih.2 root later

/-- Different objects that have moved have copies that lie apart. -/
theorem copyOffset_apart {first second : Address} (moved : first ∈ trail.moved)
    (moved' : second ∈ trail.moved) (differs : first ≠ second)
    : pass.copyOffset trail first + pass.size first ≤ pass.copyOffset trail second
      ∨ pass.copyOffset trail second + pass.size second ≤ pass.copyOffset trail first := by
  have apart : offsetIn pass.size trail.moved first + pass.size first
        ≤ offsetIn pass.size trail.moved second
      ∨ offsetIn pass.size trail.moved second + pass.size second
        ≤ offsetIn pass.size trail.moved first := offsetIn_apart moved moved' differs
  simp only [copyOffset]
  omega

/-- A moved object was copied as a whole, if its slots were scanned since. -/
theorem Progress.copied (ready : pass.Ready) {now after before : Regions δ}
    (progress : pass.Progress trail now)
    (same : ∀ object, pass.moves object.space → before.field object = pass.before.field object)
    (cells : ∀ offset, after.cell pass.space offset = now.cell pass.space offset)
    (space : after.old.space = pass.space)
    (cursor : after.old.cursor = now.destination.cursor) {object : Address}
    (moved : object ∈ trail.moved) (scanned : pass.Scanned trail now object)
    : Regions.Copied pass.layout (pass.relocated trail) before after object
        (pass.copyOf trail object) := by
  obtain ⟨valid, met, moves⟩ := progress.met object moved
  obtain ⟨decodes, there, offset⟩ := progress.copyOf_eq ready moved
  have fields : ∀ index, after.field (pass.copyOf trail object) index
      = now.cell pass.space (pass.copyOffset trail object + index) := by
    intro index
    rw [Regions.field, there, offset, cells]
  refine ⟨decodes, ?_, there.trans space.symm, ?_, fun index slot => ?_, fun index inside plain => ?_⟩
  · exact relocated_of_moves (Value.address?_toValue valid) moves
  · rw [offset, cursor, same object moves]
    exact progress.copy_le moved
  · rw [same object moves] at slot ⊢
    rw [fields]
    exact (scanned index slot).2
  · rw [same object moves] at plain inside ⊢
    rw [fields]
    exact progress.copies object moved index inside plain

end Pass

end MovingHeap
