import ZSim.WeaveTurns
import Mathlib.Data.List.Range

/-! The weave phase over many domains. The domains are shared out among simulation
threads: a thread with one domain runs a loop of its own, a thread with several picks
domains from a priority queue. No event has children in another domain, so each domain
has its own events, and `setPrio`, which only crossings call, is left out. An event of a
DAG is simulated once: `requeue` is left out. -/

namespace ZSim

/-- `weave` holds `pq` and `curCycle`. -/
structure DomainData (E : Type) where
  weave : Weave E
  prio : Nat
  queuePrio : Nat

structure SimThreadData where
  firstDomain : Nat
  supDomain : Nat

/-- The domains a thread with several of them has at hand. The back of a vector is the
head of its list. -/
structure DomainQueues where
  domPq : List Nat
  stalledQueue : List Nat
  nextStalledQueue : List Nat
  numFinished : Nat

/-- Where a thread is in `simulatePhaseThread`: in the loop of a single domain, in the
first or in the second of the two inner loops, or at its end. -/
inductive SimThread
  | single
  | domLoop (q : DomainQueues)
  | stalledLoop (q : DomainQueues)
  | finished

namespace SimThreadData

def thDomains (r : SimThreadData) : Nat := r.supDomain - r.firstDomain

/-- The test of the outer loop. -/
def nextRound (r : SimThreadData) (q : DomainQueues) : SimThread :=
  if q.numFinished < r.thDomains then .domLoop q else .finished

/-- The way from the second inner loop to the outer one. -/
def leaveStalled (r : SimThreadData) (q : DomainQueues) : SimThread :=
  if q.stalledQueue = [] then
    r.nextRound { q with
      stalledQueue := q.nextStalledQueue
      nextStalledQueue := q.stalledQueue }
  else r.nextRound q

/-- The `break` at the end of a turn of the second inner loop, and the test before the
next. -/
def afterStalled (r : SimThreadData) (q : DomainQueues) : SimThread :=
  if q.domPq ≠ [] ∨ q.stalledQueue = [] then r.leaveStalled q else .stalledLoop q

def start (r : SimThreadData) : SimThread :=
  if r.thDomains = 1 then .single
  else r.nextRound ⟨List.range' r.firstDomain r.thDomains, [], [], 0⟩

end SimThreadData

namespace DomainQueues

/-- `domPq.push` of a domain of priority 0, and `push_back` of others. -/
def pushFromDom (q : DomainQueues) (prio d : Nat) : DomainQueues :=
  if prio = 0 then { q with domPq := d :: q.domPq }
  else { q with stalledQueue := d :: q.stalledQueue }

def pushFromStalled (q : DomainQueues) (prio d : Nat) : DomainQueues :=
  if prio = 0 then { q with domPq := d :: q.domPq }
  else { q with nextStalledQueue := d :: q.nextStalledQueue }

end DomainQueues

namespace DomainData

variable {E : Type}

def finish (limit : Nat) (d : DomainData E) : DomainData E :=
  { d with weave := d.weave.setCycle limit }

/-- The domain after a turn of a thread with several domains. -/
def turned (d : DomainData E) (w : Weave E) : DomainData E :=
  { d with weave := w, queuePrio := w.curCycle }

end DomainData

/-- What `domPq.top` may return. Domains of equal `queuePrio` come in any order. -/
def IsTop {E : Type} (D : Nat → DomainData E) (domPq : List Nat) (d : Nat) : Prop :=
  d ∈ domPq ∧ ∀ d' ∈ domPq, (D d).queuePrio ≤ (D d').queuePrio

section Steps

variable {E : Type} [DecidableEq E]

/-- One step of the thread that has the domains of `r`. A turn is labelled with its domain
and the first cycle of the queue. A failed assert leaves the thread without a step. -/
inductive ThreadStep (limit : Nat) (r : SimThreadData) (D : Nat → DomainData E) :
    SimThread → Option (Nat × Nat) → (Nat → DomainData E) → SimThread → Prop
  | singleTurn {e : E} {c : Nat} {w : Weave E} (hlt : c < limit)
      (hcycle : (D r.firstDomain).weave.curCycle ≤ c)
      (ht : Weave.Turn Weave.run limit (D r.firstDomain).weave e c w) (hnew : c ≤ w.curCycle) :
      ThreadStep limit r D .single (some (r.firstDomain, c))
        (Function.update D r.firstDomain { D r.firstDomain with weave := w }) .single
  | singleEnd (hend : WithTop.some limit ≤ (D r.firstDomain).weave.firstCycle) :
      ThreadStep limit r D .single none
        (Function.update D r.firstDomain ((D r.firstDomain).finish limit)) .finished
  | domFinish {q : DomainQueues} {d : Nat} (htop : IsTop D q.domPq d)
      (hend : WithTop.some limit < (D d).weave.firstCycle) :
      ThreadStep limit r D (.domLoop q) none (Function.update D d ((D d).finish limit))
        (.domLoop { q with domPq := q.domPq.erase d, numFinished := q.numFinished + 1 })
  | domTurn {q : DomainQueues} {d : Nat} {e : E} {c : Nat} {w : Weave E}
      (htop : IsTop D q.domPq d) (hle : c ≤ limit)
      (ht : Weave.Turn Weave.run limit (D d).weave e c w) :
      ThreadStep limit r D (.domLoop q) (some (d, c))
        (Function.update D d ((D d).turned w))
        (.domLoop ({ q with domPq := q.domPq.erase d }.pushFromDom (D d).prio d))
  | domEmpty {q : DomainQueues} (hempty : q.domPq = []) :
      ThreadStep limit r D (.domLoop q) none D (r.afterStalled q)
  | stalledFinish {q : DomainQueues} {d : Nat} {rest : List Nat}
      (hback : q.stalledQueue = d :: rest)
      (hend : WithTop.some limit < (D d).weave.firstCycle) :
      ThreadStep limit r D (.stalledLoop q) none (Function.update D d ((D d).finish limit))
        (r.afterStalled { q with stalledQueue := rest, numFinished := q.numFinished + 1 })
  | stalledTurn {q : DomainQueues} {d : Nat} {rest : List Nat} {e : E} {c : Nat} {w : Weave E}
      (hback : q.stalledQueue = d :: rest) (hle : c ≤ limit)
      (ht : Weave.Turn Weave.simulate limit (D d).weave e c w) :
      ThreadStep limit r D (.stalledLoop q) (some (d, c))
        (Function.update D d ((D d).turned w))
        (r.afterStalled ({ q with stalledQueue := rest }.pushFromStalled (D d).prio d))

/-- An assignment of the domains to simulation threads. -/
structure SimThreads (numDomains : Nat) where
  numSimThreads : Nat
  simThreads : Nat → SimThreadData
  owned : ∀ d < numDomains, ∃ t < numSimThreads,
    (simThreads t).firstDomain ≤ d ∧ d < (simThreads t).supDomain
  disjoint : ∀ t < numSimThreads, ∀ t' < numSimThreads, ∀ d,
    (simThreads t).firstDomain ≤ d → d < (simThreads t).supDomain →
    (simThreads t').firstDomain ≤ d → d < (simThreads t').supDomain → t = t'
  within : ∀ t < numSimThreads, (simThreads t).supDomain ≤ numDomains

/-- The division of the constructor, which panics unless it leaves no remainder. The
products fit 32 bits. -/
def SimThreadData.ofDivision (numDomains numSimThreads t : Nat) : SimThreadData :=
  ⟨t * numDomains / numSimThreads, (t + 1) * numDomains / numSimThreads⟩

theorem SimThreadData.ofDivision_eq {numDomains numSimThreads : Nat}
    (hmod : numDomains % numSimThreads = 0) (t : Nat) :
    ofDivision numDomains numSimThreads t =
      ⟨t * (numDomains / numSimThreads), (t + 1) * (numDomains / numSimThreads)⟩ := by
  have hdiv : ∀ n, n * numDomains / numSimThreads = n * (numDomains / numSimThreads) :=
    fun n => Nat.mul_div_assoc n (Nat.dvd_of_mod_eq_zero hmod)
  rw [ofDivision, hdiv, hdiv]

theorem SimThreadData.ofDivision_owned {numDomains numSimThreads d : Nat}
    (hmod : numDomains % numSimThreads = 0) (hd : d < numDomains) :
    ∃ t < numSimThreads, (ofDivision numDomains numSimThreads t).firstDomain ≤ d ∧
      d < (ofDivision numDomains numSimThreads t).supDomain := by
  have hm : 0 < numDomains / numSimThreads := by
    have := Nat.div_add_mod numDomains numSimThreads
    rcases Nat.eq_zero_or_pos (numDomains / numSimThreads) with h0 | h
    · rw [h0, Nat.mul_zero] at this
      omega
    · exact h
  have hprod : numSimThreads * (numDomains / numSimThreads) = numDomains :=
    Nat.mul_div_cancel' (Nat.dvd_of_mod_eq_zero hmod)
  refine ⟨d / (numDomains / numSimThreads), ?_, ?_, ?_⟩
  · rw [Nat.div_lt_iff_lt_mul hm, hprod]
    exact hd
  · rw [ofDivision_eq hmod]
    exact Nat.div_mul_le_self _ _
  · rw [ofDivision_eq hmod]
    exact (Nat.div_lt_iff_lt_mul hm).mp (Nat.lt_succ_self _)

theorem SimThreadData.ofDivision_disjoint {numDomains numSimThreads t t' d : Nat}
    (hmod : numDomains % numSimThreads = 0)
    (hle : (ofDivision numDomains numSimThreads t).firstDomain ≤ d)
    (hlt : d < (ofDivision numDomains numSimThreads t).supDomain)
    (hle' : (ofDivision numDomains numSimThreads t').firstDomain ≤ d)
    (hlt' : d < (ofDivision numDomains numSimThreads t').supDomain) : t = t' := by
  rw [ofDivision_eq hmod] at hle hlt hle' hlt'
  have h₁ := Nat.lt_of_mul_lt_mul_right (hle.trans_lt hlt')
  have h₂ := Nat.lt_of_mul_lt_mul_right (hle'.trans_lt hlt)
  omega

theorem SimThreadData.ofDivision_within {numDomains numSimThreads t : Nat}
    (hmod : numDomains % numSimThreads = 0) (ht : t < numSimThreads) :
    (ofDivision numDomains numSimThreads t).supDomain ≤ numDomains := by
  rw [ofDivision_eq hmod]
  calc (t + 1) * (numDomains / numSimThreads)
      ≤ numSimThreads * (numDomains / numSimThreads) := Nat.mul_le_mul_right _ ht
    _ = numDomains := Nat.mul_div_cancel' (Nat.dvd_of_mod_eq_zero hmod)

/-- The assignment the constructor makes. -/
def SimThreads.init (numDomains numSimThreads : Nat) (hmod : numDomains % numSimThreads = 0) :
    SimThreads numDomains where
  numSimThreads := numSimThreads
  simThreads := SimThreadData.ofDivision numDomains numSimThreads
  owned _ hd := SimThreadData.ofDivision_owned hmod hd
  disjoint _ _ _ _ _ := SimThreadData.ofDivision_disjoint hmod
  within _ ht := SimThreadData.ofDivision_within hmod ht

/-- The state of a phase. -/
structure ContentionSim (E : Type) where
  domains : Nat → DomainData E
  threads : Nat → SimThread

namespace ContentionSim

variable {numDomains : Nat}

def start (A : SimThreads numDomains) (D : Nat → DomainData E) : ContentionSim E :=
  ⟨D, fun t => (A.simThreads t).start⟩

/-- The threads take their steps in any order. -/
inductive Step (limit : Nat) (A : SimThreads numDomains) (S : ContentionSim E) :
    Option (Nat × Nat) → ContentionSim E → Prop
  | step {t : Nat} {a : Option (Nat × Nat)} {D : Nat → DomainData E} {th : SimThread}
      (ht : t < A.numSimThreads)
      (hs : ThreadStep limit (A.simThreads t) S.domains (S.threads t) a D th) :
      Step limit A S a ⟨D, Function.update S.threads t th⟩

/-- The step is no turn, or one that `may` allows the domain. -/
def Allowed (may : Nat → Weave E → Weave E → Prop) (a : Option (Nat × Nat))
    (S S' : ContentionSim E) : Prop :=
  ∀ d c, a = some (d, c) → may d (S.domains d).weave (S'.domains d).weave

/-- `n` steps, with their turns, the last one first. -/
inductive Run (may : Nat → Weave E → Weave E → Prop) (limit : Nat) (A : SimThreads numDomains)
    (S : ContentionSim E) : Nat → List (Nat × Nat) → ContentionSim E → Prop
  | refl : Run may limit A S 0 [] S
  | step {n : Nat} {tr : List (Nat × Nat)} {a : Option (Nat × Nat)} {S₁ S₂ : ContentionSim E}
      (hr : Run may limit A S n tr S₁) (hs : Step limit A S₁ a S₂) (hmay : Allowed may a S₁ S₂) :
      Run may limit A S (n + 1) (a.toList ++ tr) S₂

/-- Any turn is allowed. -/
def free (_ : Nat) (_ _ : Weave E) : Prop := True

/-- `act d` is what the events of the domain `d` do: the events of a domain see nothing of
the other domains. -/
def doing (act : Nat → Weave E → Weave E) (d : Nat) : Weave E → Weave E → Prop :=
  Weave.Does (act d)

def Finished (A : SimThreads numDomains) (S : ContentionSim E) : Prop :=
  ∀ t < A.numSimThreads, S.threads t = .finished

/-- `simulatePhase`, as what it may turn the domains into. `postInit` sets
`skipContention` when there are no cores to simulate. -/
def SimulatePhase (skipContention : Bool) (act : Nat → Weave E → Weave E) (limit : Nat)
    (A : SimThreads numDomains) (D D' : Nat → DomainData E) : Prop :=
  if skipContention then D' = D
  else ∃ n tr S, Run (doing act) limit A (start A D) n tr S ∧ Finished A S ∧ S.domains = D'

/-- The domains between two phases, with the last limit. `rank` says that the events of a
domain form a DAG. Events are created and queued between phases. A phase that is skipped
leaves everything, the last limit too. -/
inductive Reachable (numDomains : Nat) (rank : Nat → E → Nat) : Nat → (Nat → DomainData E) → Prop
  | init (D : Nat → DomainData E)
      (hnew : ∀ d < numDomains, ∃ events : E → TimingEvent E, (D d).weave = Weave.init events 0 ∧
        ∀ e, ∃ isDelay start pre post, events e = .init isDelay start pre post) :
      Reachable numDomains rank 0 D
  | addChild {lastLimit : Nat} {D : Nat → DomainData E} {w : Weave E} (d : Nat) (p c : E)
      (hr : Reachable numDomains rank lastLimit D) (hrank : rank d p < rank d c)
      (hs : (D d).weave.addChild p c = some w) :
      Reachable numDomains rank lastLimit (Function.update D d { D d with weave := w })
  | queueRoot {lastLimit : Nat} {D : Nat → DomainData E} {w : Weave E} (d : Nat) (e : E)
      (qCycle : Nat) (hr : Reachable numDomains rank lastLimit D)
      (hs : (D d).weave.queueRoot e qCycle = some w) :
      Reachable numDomains rank lastLimit (Function.update D d { D d with weave := w })
  | phase {lastLimit limit : Nat} {D D' : Nat → DomainData E} (A : SimThreads numDomains)
      (act : Nat → Weave E → Weave E) (hr : Reachable numDomains rank lastLimit D)
      (hlimit : lastLimit ≤ limit) (hp : SimulatePhase false act limit A D D') :
      Reachable numDomains rank limit D'

end ContentionSim

end Steps

end ZSim
