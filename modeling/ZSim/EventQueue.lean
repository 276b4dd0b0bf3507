import Mathlib.Tactic

/-! The event queue, ticked at the end of every phase, and events that adapt their period. -/

namespace ZSim

/-- A `g_multimap` with numbers as keys, in the order of its iterator. -/
abbrev Multimap (V : Type) := List (Nat × V)

namespace Multimap

variable {V : Type} {key phase : Nat} {value : V} {m : Multimap V}

def insert (key : Nat) (value : V) : Multimap V → Multimap V
  | [] => [(key, value)]
  | e :: m => if e.1 ≤ key then e :: insert key value m else (key, value) :: e :: m

def Sorted (m : Multimap V) : Prop := m.Pairwise fun e e' => e.1 ≤ e'.1

theorem insert_perm : (insert key value m).Perm ((key, value) :: m) := by
  induction m with
  | nil => exact .refl _
  | cons e m ih =>
    rw [insert]
    split
    · exact (ih.cons e).trans (.swap ..)
    · exact .refl _

theorem mem_insert {e : Nat × V} : e ∈ insert key value m ↔ e = (key, value) ∨ e ∈ m := by
  rw [insert_perm.mem_iff, List.mem_cons]

theorem sorted_insert (h : Sorted m) : Sorted (insert key value m) := by
  induction m with
  | nil => simp [insert, Sorted]
  | cons e m ih =>
    obtain ⟨he, hm⟩ := List.pairwise_cons.mp h
    rw [insert]
    split
    · next hle =>
      refine List.pairwise_cons.mpr ⟨fun e' he' => ?_, ih hm⟩
      rcases mem_insert.mp he' with rfl | hmem
      · exact hle
      · exact he e' hmem
    · next hlt =>
      refine List.pairwise_cons.mpr ⟨fun e' he' => ?_, h⟩
      rcases List.mem_cons.mp he' with rfl | hmem
      · exact (Nat.lt_of_not_le hlt).le
      · exact (Nat.lt_of_not_le hlt).le.trans (he e' hmem)

theorem insert_of_lt (h : ∀ e ∈ m, key < e.1) : insert key value m = (key, value) :: m := by
  cases m with
  | nil => rfl
  | cons e m => exact if_neg (Nat.not_le.mpr (h e (by simp)))

/-- The entries up to `phase`. -/
def due (phase : Nat) (m : Multimap V) : Nat := m.countP fun e => decide (e.1 ≤ phase)

theorem due_insert (h : phase < key) : due phase (insert key value m) = due phase m := by
  rw [due, insert_perm.countP_eq, List.countP_cons_of_neg (by simpa using h), due]

theorem due_cons (h : key ≤ phase) : due phase ((key, value) :: m) = due phase m + 1 :=
  List.countP_cons_of_pos (by simpa using h)

end Multimap

structure AdaptiveEvent where
  period : Nat
  target : Nat
  maxRate : Nat

/-- Phases that the counter needs at least for `distance`, and at least one. -/
def checkPeriod (distance maxRate : Nat) : Nat :=
  if distance / maxRate = 0 then 1 else distance / maxRate

/-- The constructor asserts that the target is at least `start`. -/
def makeAdaptiveEvent (start target maxRate : Nat) : Option AdaptiveEvent :=
  if start ≤ target then some ⟨checkPeriod (target - start) maxRate, target, maxRate⟩ else none

/-- The callback, where `get` returns `cur`: the event, and whether it called `fire`. It is `none`
where `maxRate` was wrong. -/
def AdaptiveEvent.callback (e : AdaptiveEvent) (cur : Nat) : Option (AdaptiveEvent × Bool) :=
  if e.target ≤ cur then
    if cur - e.target ≤ e.maxRate then some ({ e with period := 0 }, true) else none
  else some ({ e with period := checkPeriod (e.target - cur) e.maxRate }, false)

/-- For the other events it only matters which period they have. -/
inductive EventQueue.Event where
  | adaptive (e : AdaptiveEvent)
  | other (id period : Nat)

def EventQueue.Event.getPeriod : EventQueue.Event → Nat
  | .adaptive e => e.period
  | .other _ period => period

/-- `get phase` is the counter at the tick of `phase`, and `period id phase` the period of another
event after its callback there. -/
structure Callbacks where
  get : Nat → Nat
  period : Nat → Nat → Nat
  period_fits : ∀ id phase, phase < 2 ^ 64 → phase + period id phase < 2 ^ 64

def EventQueue.Event.callback (C : Callbacks) (phase : Nat) :
    EventQueue.Event → Option (EventQueue.Event × Bool)
  | .adaptive e => (e.callback (C.get phase)).map fun r => (.adaptive r.1, r.2)
  | .other id _ => some (.other id (C.period id phase), false)

/-- `fires` are the phases in which the adaptive event called `fire`. -/
structure EventQueue where
  evMap : Multimap EventQueue.Event
  numPhases : Nat
  fires : List Nat

/-- `unfinished` stands for a loop that goes on. -/
inductive Fault where
  | missedPhase
  | assertion
  | unfinished

namespace EventQueue

def init : EventQueue := ⟨[], 0, []⟩

/-- The event goes back unless its period is zero. -/
def requeue (phase : Nat) (ev : Event) (evMap : Multimap Event) : Multimap Event :=
  if ev.getPeriod = 0 then evMap
  else Multimap.insert ((phase + ev.getPeriod) % 2 ^ 64) ev evMap

/-- The loop of `tick`, for at most `fuel` turns. -/
def drain (C : Callbacks) : Nat → EventQueue → Except Fault EventQueue
  | 0, _ => .error .unfinished
  | fuel + 1, q =>
    match q.evMap with
    | [] => .ok q
    | (phase, ev) :: evMap =>
      if q.numPhases < phase then .ok q
      else if phase ≠ q.numPhases then .error .missedPhase
      else
        match ev.callback C q.numPhases with
        | none => .error .assertion
        | some (ev, fired) =>
          drain C fuel
            { q with
              evMap := requeue q.numPhases ev evMap
              fires := if fired then q.fires ++ [q.numPhases] else q.fires }

def tick (C : Callbacks) (q : EventQueue) : Except Fault EventQueue :=
  q.drain C (q.evMap.length + 1)

def endPhase (C : Callbacks) (q : EventQueue) : Except Fault EventQueue :=
  (q.tick C).map fun q => { q with numPhases := (q.numPhases + 1) % 2 ^ 64 }

def eventPhase (q : EventQueue) (ev : Event) (startDelay : Int) : Nat :=
  if startDelay = -1 then (q.numPhases + ev.getPeriod) % 2 ^ 64
  else ((q.numPhases + startDelay) % 2 ^ 64).toNat

def insert (q : EventQueue) (ev : Event) (startDelay : Int) : Except Fault EventQueue :=
  if q.numPhases ≤ q.eventPhase ev startDelay then
    .ok { q with evMap := Multimap.insert (q.eventPhase ev startDelay) ev q.evMap }
  else .error .assertion

/-- What happens around the adaptive event: inserts of other ones, and ends of phases. -/
inductive Op where
  | insert (id period : Nat) (startDelay : Int)
  | endPhase

def step (C : Callbacks) (q : EventQueue) : Op → Except Fault EventQueue
  | .insert id period startDelay => q.insert (.other id period) startDelay
  | .endPhase => q.endPhase C

def run (C : Callbacks) : List Op → EventQueue → Except Fault EventQueue
  | [], q => .ok q
  | op :: ops, q => (q.step C op).bind (run C ops)

/-- What callers promise from phase `phase` on: other events go to phases from the current one on,
and phases fit into 64 bits. -/
def Legal : List Op → Nat → Prop
  | [], _ => True
  | .insert _ period startDelay :: ops, phase =>
    (startDelay = -1 ∧ phase + period < 2 ^ 64 ∨
      0 ≤ startDelay ∧ phase + startDelay < 2 ^ 64) ∧ Legal ops phase
  | .endPhase :: ops, phase => phase + 1 < 2 ^ 64 ∧ Legal ops (phase + 1)

end EventQueue

end ZSim
