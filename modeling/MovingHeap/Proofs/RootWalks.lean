import MovingHeap.Collector.Visiting
import MovingHeap.Proofs.Outcome

/-! Walks over places that hold references.
A visitor sees what one place after the other holds, with whatever it has come to know, and answers what
the place holds from then on. What the collector does to roots is such a walk, made by a visitor that
forwards.
-/

namespace MovingHeap

variable {ω ξ κ ι τ σ δ : Type}

/-- What a visitor makes of some values, one after the other. -/
def visitAll (visit : Value → τ → Value × τ) : List Value → τ → List Value × τ
  | [], host => ([], host)
  | value :: values, host =>
      let answer := visit value host
      let rest := visitAll visit values answer.2
      (answer.1 :: rest.1, rest.2)

@[simp] theorem length_visitAll (visit : Value → τ → Value × τ) (values : List Value) (host : τ)
    : (visitAll visit values host).1.length = values.length := by
  induction values generalizing host with
  | nil => rfl
  | cons value values ih => simp [visitAll, ih]

/-- What is found for a place among the answers is an answer to what it held. -/
theorem exists_of_lookup_visitAll [BEq κ] [LawfulBEq κ] (read : κ → Value)
    (visit : Value → τ → Value × τ) {keys : List κ} {host : τ} {key : κ} {value : Value}
    (found : (keys.zip (visitAll visit (keys.map read) host).1).lookup key = some value)
    : ∃ known, value = (visit (read key) known).1 := by
  induction keys generalizing host with
  | nil => cases found
  | cons first keys ih =>
      simp only [List.map_cons, visitAll, List.zip_cons_cons, List.lookup_cons] at found
      split at found
      · next same =>
          cases found
          exact ⟨host, by rw [eq_of_beq same]⟩
      · exact ih found

/-- How what the places of a table hold is read and replaced. -/
structure PlaceAccess (ω κ : Type) where
  read : ω → κ → Value
  replace : ω → κ → Value → ω

namespace PlaceAccess

/-- Lets a visitor replace what some places hold, in order; a place is written only if its value
changes.
-/
def walk (access : PlaceAccess ω κ) (visit : Value → τ → Value × τ) : List κ → ω → τ → ω × τ
  | [], table, host => (table, host)
  | key :: keys, table, host =>
      let value := access.read table key
      let answer := visit value host
      let table := if answer.1 = value then table else access.replace table key answer.1
      access.walk visit keys table answer.2

/-- A place that is present is read back where it was replaced, and no other place changes. -/
structure Lawful (access : PlaceAccess ω κ) (present : ω → κ → Prop) [DecidableEq κ] : Prop where
  read_replace
    : ∀ {table key},
        present table key →
        ∀ value other,
          access.read (access.replace table key value) other
          = if other = key then value else access.read table other
  present_replace
    : ∀ {table} key value {other},
        present table other → present (access.replace table key value) other

variable {access : PlaceAccess ω κ}

/-- A walk over two lists of places is a walk over one and then over the other. -/
theorem walk_append (visit : Value → τ → Value × τ) (first second : List κ) (table : ω) (host : τ)
    : access.walk visit (first ++ second) table host
      = access.walk visit second (access.walk visit first table host).1
        (access.walk visit first table host).2 := by
  induction first generalizing table host with
  | nil => rfl
  | cons key first ih => exact ih _ _

/-- What replacing keeps is kept by walks. -/
theorem walk_keeps (access : PlaceAccess ω κ) (holds : ω → Prop)
    (kept : ∀ {table} key value, holds table → holds (access.replace table key value))
    (visit : Value → τ → Value × τ) (keys : List κ) {table : ω} (before : holds table) (host : τ)
    : holds (access.walk visit keys table host).1 := by
  induction keys generalizing table host with
  | nil => exact before
  | cons key keys ih =>
      refine ih ?_ _
      split_ifs
      · exact before
      · exact kept key _ before

/-- A walk over places, none of them twice, shows the visitor what each held before the walk, and
replaces it by the answer.
-/
theorem Lawful.walk_eq [DecidableEq κ] {present : ω → κ → Prop} (lawful : access.Lawful present)
    (visit : Value → τ → Value × τ) {keys : List κ} (once : keys.Nodup) {table : ω}
    (inside : ∀ key ∈ keys, present table key) (host : τ)
    : let walked := access.walk visit keys table host
      let visited := visitAll visit (keys.map (access.read table)) host
      walked.2 = visited.2
      ∧ ∀ other,
          access.read walked.1 other
          = ((keys.zip visited.1).lookup other).getD (access.read table other) := by
  induction keys generalizing table host with
  | nil => exact ⟨rfl, fun _ => rfl⟩
  | cons key keys ih =>
      obtain ⟨absent, once⟩ := List.nodup_cons.mp once
      intro walked visited
      let answer := visit (access.read table key) host
      let next := if answer.1 = access.read table key then table
        else access.replace table key answer.1
      have reads : ∀ other, access.read next other
          = if other = key then answer.1 else access.read table other := by
        intro other
        by_cases same : answer.1 = access.read table key
        · by_cases here : other = key
          · subst here
            simp [next, same]
          · simp [next, same, here]
        · simpa [next, same] using
            lawful.read_replace (inside key List.mem_cons_self) answer.1 other
      have stays : ∀ other ∈ keys, present next other := by
        intro other member
        have before := inside other (List.mem_cons_of_mem key member)
        by_cases same : answer.1 = access.read table key
        · simpa [next, same] using before
        · simpa [next, same] using lawful.present_replace key answer.1 before
      have unchanged : keys.map (access.read next) = keys.map (access.read table) := by
        refine List.map_congr_left fun other member => ?_
        rw [reads, if_neg (ne_of_mem_of_not_mem member absent)]
      obtain ⟨host', rest⟩ := ih once stays answer.2
      rw [unchanged] at host' rest
      refine ⟨host', fun other => (rest other).trans ?_⟩
      simp only [visited, List.map_cons, visitAll, List.zip_cons_cons, List.lookup_cons]
      by_cases here : other = key
      · subst here
        have later : (keys.zip (visitAll visit (keys.map (access.read table)) answer.2).1).lookup
            other = none := by
          rw [List.lookup_eq_none_iff]
          intro pair member
          have listed := (List.of_mem_zip member).1
          simpa using (ne_of_mem_of_not_mem listed absent).symm
        simp [reads, later, answer]
      · simp [reads, here, beq_false_of_ne here, answer]

/-- A walk over a part of something is the walk over its places there. -/
theorem walk_embed (inner : PlaceAccess ω κ) (outer : PlaceAccess ξ ι) (embed : ω → ξ) (name : κ → ι)
    (reads : ∀ table key, outer.read (embed table) (name key) = inner.read table key)
    (replaces
      : ∀ table key value,
          outer.replace (embed table) (name key) value = embed (inner.replace table key value))
    (visit : Value → τ → Value × τ) (keys : List κ) (table : ω) (host : τ)
    : outer.walk visit (keys.map name) (embed table) host
      = (embed (inner.walk visit keys table host).1, (inner.walk visit keys table host).2) := by
  induction keys generalizing table host with
  | nil => rfl
  | cons key keys ih =>
      simp only [List.map_cons, walk, reads]
      split_ifs
      · exact ih table _
      · rw [replaces]
        exact ih _ _

end PlaceAccess

-----------------------------------------------------------------------------------------
-- The roots of a heap
-----------------------------------------------------------------------------------------

/-- How the roots of a heap are read and replaced. -/
def Heap.rootAccess : PlaceAccess (Heap δ) Root where
  read := Heap.rootValue
  replace := Heap.setRoot

namespace Collector

/-- The visitor that forwards. It knows memory, the host and the log, and leaves a value for which it is
stopped.
-/
def forwarding (host : Host σ δ) (value : Value) (site : Site σ δ) : Value × Site σ δ :=
  match forward host value site with
  | .ok forwarded next => (forwarded, next)
  | .error _ next => (value, next)

/-- What memory holds is nothing to a walk over roots. -/
theorem walk_regions (visit : Value → τ → Value × τ) (roots : List Root) (heap : Heap δ)
    (regions : Regions δ) (host : τ)
    : Heap.rootAccess.walk visit roots { heap with regions } host
      = ({ (Heap.rootAccess.walk visit roots heap host).1 with regions },
        (Heap.rootAccess.walk visit roots heap host).2) := by
  have embedded := PlaceAccess.walk_embed Heap.rootAccess Heap.rootAccess
    (fun heap : Heap δ => { heap with regions }) id (fun _ root => by cases root <;> rfl)
    (fun _ root _ => by cases root <;> rfl) visit roots heap host
  rwa [List.map_id] at embedded

/-- If no violation stops it, visiting roots is the walk over them by the visitor that forwards. -/
theorem runs_visitRoots (host : Host σ δ) (roots : List Root) (world : World σ δ)
    : Runs (visitRoots host roots) world
        (fun _ final =>
          let walked := Heap.rootAccess.walk (forwarding host) roots world.heap world.site
          final = { world with heap := walked.1 }.withSite walked.2)
        fun _ _ => True := by
  induction roots generalizing world with
  | nil => exact rfl
  | cons root roots ih =>
      simp only [visitRoots, visitRoot, runs_bind, World.runs_heapNow, World.runs_onSite]
      cases forwards : forward host (world.heap.rootValue root) world.site with
      | error =>
          rw [Runs, forwards]
          trivial
      | ok forwarded next =>
          have answer : forwarding host (world.heap.rootValue root) world.site = (forwarded, next) := by
            rw [forwarding, forwards]
          have first : Heap.rootAccess.walk (forwarding host) (root :: roots) world.heap world.site
              = Heap.rootAccess.walk (forwarding host) roots
                (if forwarded = world.heap.rootValue root then world.heap
                  else world.heap.setRoot root forwarded) next := by
            simp only [PlaceAccess.walk, Heap.rootAccess, answer]
          have onward : ∀ heap : Heap δ, Runs (visitRoots host roots) ({ world with heap }.withSite next)
              (fun _ final =>
                let walked := Heap.rootAccess.walk (forwarding host) roots heap next
                final = { world with heap := walked.1 }.withSite walked.2)
              fun _ _ => True := by
            refine fun heap => (ih _).mono (fun _ final ends => ?_) fun _ _ _ => trivial
            simp only [World.withSite, World.site, walk_regions] at ends ⊢
            exact ends
          rw [Runs, forwards]
          simp only [first, runs_ite, runs_pure, World.runs_modifyHeap]
          by_cases same : forwarded = world.heap.rootValue root
          · simpa only [same, ne_eq, not_true_eq_false, if_false, if_true] using onward world.heap
          · simp only [same, ne_eq, not_false_eq_true, if_false, if_true]
            have written : { world.withSite next with
                  heap := (world.withSite next).heap.setRoot root forwarded }
                = { world with heap := world.heap.setRoot root forwarded }.withSite next := by
              cases root <;> rfl
            rw [written]
            exact onward _

end Collector

end MovingHeap
