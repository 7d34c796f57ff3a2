import MovingHeap.Proofs.CollectionSteps

/-! The states that a collection comes through while it traces.
The passage of an action is put together from the passages of its parts, as the action is from its parts;
whoever wants to know what holds in the middle of a collection follows it from one visit to the next.
-/

namespace MovingHeap

variable {ω σ δ α β : Type}

/-- What is about to be forwarded: what a slot of managed memory holds, or a value. -/
inductive Errand where
  | slot (slot : Address)
  | value (value : Value)

-----------------------------------------------------------------------------------------
-- Passages
-----------------------------------------------------------------------------------------

/-- How an action passes from each state in which it may begin: the states it comes through, each with the
errand it is about to do there, if there is one.
-/
structure Passage (action : Action ω α) where
  Through : ω → ω → Option Errand → Prop

namespace Passage

/-- Nothing is told of the action. -/
def hidden (action : Action ω α) : Passage action := ⟨fun _ _ _ => False⟩

/-- One step, told by the states before and behind it. -/
def step (action : Action ω α) (errand : Option Errand) : Passage action where
  Through start state doing :=
    state = start ∧ doing = errand
    ∨ (∃ result, action start = .ok result state) ∧ doing = none

/-- One action after another. -/
def bind {action : Action ω α} {next : α → Action ω β} (first : Passage action)
    (second : ∀ result, Passage (next result))
    : Passage (action >>= next) where
  Through start state errand :=
    first.Through start state errand
    ∨ ∃ result middle, action start = .ok result middle ∧ (second result).Through middle state errand

/-- The passage of the action that is chosen. -/
def ite {condition : Prop} [Decidable condition] {action other : Action ω α}
    (yes : Passage action) (no : Passage other)
    : Passage (if condition then action else other) where
  Through := if condition then yes.Through else no.Through

/-- What is done to the part of a world that callbacks see, as something done to the world. -/
def onSite {action : Action (Site σ δ) α} (passage : Passage action)
    : Passage (World.onSite action) where
  Through start state errand :=
    ∃ site, passage.Through start.site site errand ∧ state = start.withSite site

end Passage

-----------------------------------------------------------------------------------------
-- What holds on the way
-----------------------------------------------------------------------------------------

namespace Passage

section Keeps

variable {action : Action ω α} {start : ω} {holds : ω → Option Errand → Prop}

/-- Wherever the action comes through from a state, something holds. -/
def Keeps (passage : Passage action) (start : ω) (holds : ω → Option Errand → Prop) : Prop :=
  ∀ state errand, passage.Through start state errand → holds state errand

theorem Keeps.mono {passage : Passage action} (keeps : passage.Keeps start holds)
    {weaker : ω → Option Errand → Prop}
    (weaken : ∀ state errand, holds state errand → weaker state errand)
    : passage.Keeps start weaker :=
  fun state errand through => weaken state errand (keeps state errand through)

theorem keeps_hidden : (hidden action).Keeps start holds := fun _ _ => False.elim

/-- What holds before a step and behind it holds on the way. -/
theorem keeps_step {errand : Option Errand} (here : holds start errand)
    (behind : Runs action start (fun _ final => holds final none) fun _ _ => True)
    : (step action errand).Keeps start holds := by
  intro state doing through
  cases through with
  | inl same =>
      rw [same.1, same.2]
      exact here
  | inr ended =>
      obtain ⟨⟨result, run⟩, rfl⟩ := ended
      exact behind.of_ok run

/-- What holds on the way of one action, and of the next one from wherever that ends. -/
theorem keeps_bind {next : α → Action ω β} {first : Passage action}
    {second : ∀ result, Passage (next result)} (before : first.Keeps start holds)
    (after
      : Runs action start (fun result middle => (second result).Keeps middle holds) fun _ _ => True)
    : (first.bind second).Keeps start holds := by
  intro state errand through
  cases through with
  | inl early => exact before state errand early
  | inr late =>
      obtain ⟨result, middle, run, late⟩ := late
      exact after.of_ok run state errand late

/-- A step first, and then another action. -/
theorem keeps_step_bind {next : α → Action ω β} {second : ∀ result, Passage (next result)}
    {errand : Option Errand} (here : holds start errand)
    (after
      : Runs action start
          (fun result middle => holds middle none ∧ (second result).Keeps middle holds)
          fun _ _ => True)
    : ((step action errand).bind second).Keeps start holds :=
  keeps_bind (keeps_step here (after.mono (fun _ _ => And.left) fun _ _ => id))
    (after.mono (fun _ _ => And.right) fun _ _ => id)

theorem keeps_ite {condition : Prop} [Decidable condition] {other : Action ω α}
    {yes : Passage action} {no : Passage other} (holding : condition → yes.Keeps start holds)
    (failing : ¬ condition → no.Keeps start holds)
    : (ite yes no : Passage (if condition then action else other)).Keeps start holds := by
  intro state errand through
  simp only [ite] at through
  split_ifs at through with chosen
  · exact holding chosen state errand through
  · exact failing chosen state errand through

end Keeps

/-- What callbacks come through, as the world comes through it. -/
theorem keeps_onSite {action : Action (Site σ δ) α} {passage : Passage action} {start : World σ δ}
    {holds : World σ δ → Option Errand → Prop}
    (keeps : passage.Keeps start.site fun site errand => holds (start.withSite site) errand)
    : passage.onSite.Keeps start holds := by
  intro state errand through
  obtain ⟨site, through, rfl⟩ := through
  exact keeps site errand through

end Passage

-----------------------------------------------------------------------------------------
-- Collections
-----------------------------------------------------------------------------------------

namespace Collector

variable (host : Host σ δ)

/-- Visiting a slot: it is loaded and forwarded. What was written is told by whatever comes next. -/
def passVisitSlot (slot : Address) : Passage (visitSlot host slot) :=
  .bind (.step _ (some (.slot slot))) fun _ =>
    .bind (.step _ none) fun _ => .hidden _

/-- A visit of the host, step by step. -/
def passRunVisit (phase : Phase) : (program : Visit σ α) → Passage (runVisit host phase program)
  | .done _ => .step _ none
  | .getHost next => .bind (.step _ none) fun site => passRunVisit phase (next site.host)
  | .setHost _ next => .bind (.step _ none) fun _ => passRunVisit phase next
  | .note _ next => .bind (.step _ none) fun _ => passRunVisit phase next
  | .isFull next =>
      .bind (.step _ none) fun site => passRunVisit phase (next site.regions.isFull)
  | .load _ next => .bind (.step _ none) fun word => passRunVisit phase (next word)
  | .words _ _ next =>
      .bind (.step _ none) fun _ => .bind (.step _ none) fun words => passRunVisit phase (next words)
  | .visitSlot slot next => .bind (passVisitSlot host slot) fun _ => passRunVisit phase next
  | .visitValue value next =>
      .bind (.step _ (some (.value value))) fun moved => passRunVisit phase (next moved)
  | .allocate => .step _ none
  | .collect => .step _ none
  | .fail _ => .step _ none

/-- A visit of the host in the current phase. -/
def passVisit (program : Visit σ α) : Passage (visit host program) :=
  .bind (.step _ none) fun heap => .onSite (passRunVisit host heap.phase program)

/-- Visiting a root: it is forwarded. What was written is told by whatever comes next. -/
def passVisitRoot (root : Root) : Passage (visitRoot host root) :=
  .bind (.step _ none) fun _ => .bind (.step _ none) fun _ => .hidden _

/-- Visiting roots, one after another. -/
def passVisitRoots : (roots : List Root) → Passage (visitRoots host roots)
  | [] => .step _ none
  | root :: roots => .bind (passVisitRoot host root) fun _ => passVisitRoots roots

/-- Visiting recorded slots, one after another. -/
def passVisitRemembered : (words : List Word) → Passage (visitRemembered host words)
  | [] => .step _ none
  | _ :: words =>
      .bind (.step _ none) fun slot =>
        .bind (passVisitSlot host slot) fun _ => passVisitRemembered words

/-- Scanning a fixed object, if there is one. -/
def passScanFixed (phase : Phase) (scan : Address → Nat → Visit σ Unit) (start : Nat)
    : Passage (scanFixed host phase scan start) :=
  .bind (.step _ none) fun site =>
    match site.regions.fixed.occupant? start with
    | some occupant => passRunVisit host phase (scan (.pack .fixed start) occupant.words)
    | none => .step _ none

/-- Scanning fixed objects, one after another. -/
def passScanFixedList (phase : Phase) (scan : Address → Nat → Visit σ Unit)
    : (starts : List Nat) → Passage (scanFixedList host phase scan starts)
  | [] => .step _ none
  | start :: starts =>
      .bind (passScanFixed host phase scan start) fun _ => passScanFixedList phase scan starts

/-- Scanning promoted objects, one after another. -/
def passScanPromoted (phase : Phase) (space : Space)
    : (objects scan : Nat) → Passage (scanPromoted host phase space objects scan)
  | 0, _ => .step _ none
  | objects + 1, scan =>
      .bind (.step _ none) fun _ =>
        .ite
          (.bind (passRunVisit host phase (host.scanMinor (.pack space scan))) fun _ =>
            .bind (.step _ none) fun _ =>
              .bind (.step _ none) fun scan => passScanPromoted phase space objects scan)
          (.step _ none)

/-- Scanning survivors, one after another. -/
def passScanSurvivors (phase : Phase) (space : Space)
    : (steps scan : Nat) → Passage (scanSurvivors host phase space steps scan)
  | 0, _ => .step _ none
  | steps + 1, scan =>
      .bind (.step _ none) fun site =>
        .ite
          (.bind (passRunVisit host phase (host.scanFull (.pack space scan))) fun _ =>
            .bind (.step _ none) fun _ =>
              .bind (.step _ none) fun scan => passScanSurvivors phase space steps scan)
          (match site.regions.unscanned with
            | [] => .step _ none
            | start :: _ =>
                .bind (.step _ none) fun _ =>
                  .bind (passScanFixed host phase host.scanFixedFull start) fun _ =>
                    passScanSurvivors phase space steps scan)

/-- Visiting what a minor collection starts from. -/
def passVisitMinorRoots : Passage (visitMinorRoots host) :=
  .bind (.step _ none) fun heap => .bind (passVisitRoots host heap.frameRoots) fun _ =>
  .bind (.step _ none) fun heap => .bind (passVisitRoots host heap.pendingRoots) fun _ =>
  .bind (.step _ none) fun heap =>
    .bind (.onSite (passVisitRemembered host heap.regions.birth.remembered)) fun _ =>
  .bind (.step _ none) fun heap => .bind (passVisitRoots host heap.changedModuleRoots) fun _ =>
  .bind (.step _ none) fun heap => .bind (passVisitRoots host heap.dirtyConstantRoots) fun _ =>
  .bind (.step _ none) fun fresh => .bind (.step _ none) fun _ => .bind (.step _ none) fun heap =>
    .bind (.onSite (passScanFixedList host heap.phase host.scanFixedMinor
      fresh.regions.fixed.freshObjects)) fun _ =>
  passVisit host host.extraMinorRoots

/-- Visiting what a full collection starts from. -/
def passVisitFullRoots : Passage (visitFullRoots host) :=
  .bind (.step _ none) fun heap => .bind (passVisitRoots host heap.frameRoots) fun _ =>
  .bind (.step _ none) fun heap => .bind (passVisitRoots host heap.pendingRoots) fun _ =>
  .bind (.step _ none) fun heap => .bind (passVisitRoots host heap.moduleRoots) fun _ =>
  .bind (.step _ none) fun heap => .bind (passVisitRoots host heap.constantRoots) fun _ =>
  passVisit host host.extraFullRoots

/-- How a minor collection passes from its first visit until it leaves what it traced for the sweep. -/
def passMinor (reason : Reason) : Passage (minor host reason) :=
  .bind (.hidden _) fun _ => .bind (.hidden _) fun _ => .bind (.hidden _) fun _ =>
  .bind (.hidden _) fun _ => .bind (passVisitMinorRoots host) fun _ =>
  .bind (.step _ none) fun _ =>
    .bind (.onSite (passScanPromoted host _ _ _ _)) fun _ =>
  .bind (.step _ none) fun _ => .hidden _

/-- How a full collection passes from its first visit until it leaves what it traced for the sweep. -/
def passFull (reason : Reason) : Passage (full host reason) :=
  .bind (.hidden _) fun _ => .bind (.hidden _) fun _ => .bind (.hidden _) fun _ =>
  .bind (.hidden _) fun _ => .bind (.hidden _) fun _ => .bind (passVisitFullRoots host) fun _ =>
  .bind (.step _ none) fun _ =>
    .bind (.onSite (passScanSurvivors host _ _ _ _)) fun _ =>
  .bind (.step _ none) fun _ => .hidden _

end Collector

end MovingHeap
