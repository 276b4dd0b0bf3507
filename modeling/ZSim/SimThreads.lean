import ZSim.FutexProgress

/-! The threads of the contention simulation. The caller of `simulatePhase` wakes every
simulation thread through a lock of its own and sleeps on `waitLock`; each thread simulates its
domains once, and the last one to be done wakes the caller. All of these locks start taken, and
each is given back by another thread than the one that takes it. What a thread does in
`simulatePhaseThread` is one step here, which notes the limit it works to; nothing calls
`finish`, so `terminate` is left out. `postInit` sets `skipContention` once, when there are no
cores to simulate. -/

namespace ZSim

open LockProgram

inductive SimLock (n : Nat)
  | wakeLock (thid : Fin n) | waitLock
  deriving DecidableEq

/-- `phases` are the limits of the phases so far that were not skipped, `log` those that a
thread has simulated. -/
structure SimData (n : Nat) where
  skipContention : Bool
  limit : Nat
  lastLimit : Nat
  inCSim : Bool
  threadsDone : BitVec 32
  phases : List Nat
  log : Fin n → List Nat

inductive SimPlace
  | idle | wake (thid : Nat) | wait | waited
  | loop | simulate | count | last | signal
  deriving DecidableEq

variable {n : Nat}

/-- `simulatePhase`, run by the thread `none`. -/
def simulatePhase : SimPlace → Instr (SimLock n) (SimData n) SimPlace
  | .idle => .act fun d d' next =>
      if d.skipContention then next = .idle ∧ d' = d
      else next = .wake 0 ∧ ∃ limit, d.lastLimit ≤ limit ∧
        d' = { d with limit, inCSim := true, phases := d.phases ++ [limit] }
  | .wake thid =>
    if h : thid < n then .unlock (.wakeLock ⟨thid, h⟩) (.wake (thid + 1))
    else .act fun d d' next => next = .wait ∧ d' = d
  | .wait => .lock .waitLock .waited
  | .waited => .act fun d d' next => next = .idle ∧
      d' = { d with inCSim := false, lastLimit := d.limit }
  | _ => .act fun _ _ _ => False

/-- `simThreadLoop` of thread `thid`. -/
def simThreadLoop (thid : Fin n) : SimPlace → Instr (SimLock n) (SimData n) SimPlace
  | .loop => .lock (.wakeLock thid) .simulate
  | .simulate => .act fun d d' next => next = .count ∧
      d' = { d with log := Function.update d.log thid (d.log thid ++ [d.limit]) }
  | .count => .act fun d d' next =>
      next = (if d.threadsDone + 1#32 = BitVec.ofNat 32 n then .last else .loop) ∧
      d' = { d with threadsDone := d.threadsDone + 1#32 }
  | .last => .act fun d d' next => next = .signal ∧ d' = { d with threadsDone := 0#32 }
  | .signal => .unlock .waitLock .loop
  | _ => .act fun _ _ _ => False

def contentionSim : Option (Fin n) → SimPlace → Instr (SimLock n) (SimData n) SimPlace
  | none => simulatePhase
  | some thid => simThreadLoop thid

abbrev SimState (n : Nat) := State (Option (Fin n)) (SimLock n) (SimData n) SimPlace

def SimState.init (n : Nat) (skipContention : Bool) : SimState n where
  data := ⟨skipContention, 0, 0, false, 0#32, [], fun _ => []⟩
  place := fun t => if t = none then .idle else .loop
  taken := fun _ => true

/-- How far a thread is with the phase. -/
inductive SimStage
  | asleep | woken | simulating | counting | counted | last | signalling
  deriving DecidableEq

namespace SimStage

def place : SimStage → SimPlace
  | asleep | woken | counted => .loop
  | simulating => .simulate
  | counting => .count
  | last => .last
  | signalling => .signal

def Todo (stage : SimStage) : Prop :=
  stage = asleep ∨ stage = woken ∨ stage = simulating

instance (stage : SimStage) : Decidable stage.Todo :=
  inferInstanceAs (Decidable (_ ∨ _ ∨ _))

theorem forall_iff {P : SimStage → Prop} : (∀ k, P k) ↔ P asleep ∧ P woken ∧ P simulating ∧
    P counting ∧ P counted ∧ P last ∧ P signalling := by
  constructor
  · intro h
    exact ⟨h _, h _, h _, h _, h _, h _, h _⟩
  · rintro ⟨h₁, h₂, h₃, h₄, h₅, h₆, h₇⟩ k
    cases k <;> assumption

end SimStage

/-- The number of threads at a stage. -/
def simCount (stage : Fin n → SimStage) (k : SimStage) : Nat :=
  (Finset.univ.filter fun i => stage i = k).card

structure ThreadAt (s : SimState n) (i : Fin n) (stage : SimStage) : Prop where
  place : s.place (some i) = stage.place
  taken : s.taken (.wakeLock i) = decide (stage ≠ .woken)
  log : s.data.log i ++ (if stage.Todo then [s.data.limit] else []) = s.data.phases

/-- The caller, and whom it has woken in the phase. -/
inductive CallerAt (stage : Fin n → SimStage) : SimPlace → Prop
  | idle : (∀ i, stage i = .counted) → CallerAt stage .idle
  | wake {thid : Nat} : thid ≤ n → (∀ i, stage i = .asleep ↔ thid ≤ i) →
      CallerAt stage (.wake thid)
  | wait : (∀ i, stage i ≠ .asleep) → CallerAt stage .wait
  | waited : (∀ i, stage i = .counted) → CallerAt stage .waited

def SimPlace.InPhase (p : SimPlace) : Prop :=
  p ≠ .idle ∧ p ≠ .waited

/-- The count of threads that are done, and the lock that the caller sleeps on. -/
structure JoinAt (n done : Nat) (inPhase : Prop) (waiting : Bool) (num : SimStage → Nat) :
    Prop where
  total : num .asleep + num .woken + num .simulating + num .counting + num .counted + num .last +
    num .signalling = n
  done_eq : num .counted + num .signalling < n ∧ done = num .counted + num .last ∨
    num .counted + num .signalling = n ∧ done = 0
  one : num .last + num .signalling ≤ 1
  all : num .last + num .signalling = 1 → num .counted + 1 = n
  between : ¬ inPhase → num .counted = n ∧ waiting.toNat = 1
  phase : inPhase → (num .counted = n ↔ waiting.toNat = 0)

structure SimInv (s : SimState n) (stage : Fin n → SimStage) : Prop where
  thread : ∀ i, ThreadAt s i (stage i)
  caller : CallerAt stage (s.place none)
  join : JoinAt n s.data.threadsDone.toNat (s.place none).InPhase (s.taken .waitLock)
    (simCount stage)
  inCSim : s.data.inCSim = true ↔ s.place none ≠ .idle
  limit : s.place none = .idle → s.data.lastLimit = s.data.limit
  sorted : s.data.phases.Pairwise (· ≤ ·) ∧ ∀ limit ∈ s.data.phases, limit ≤ s.data.limit
  skipped : s.data.skipContention = true → s.place none = .idle ∧ s.data.phases = []

/-- What a thread that goes on to another stage does to the count and to `waitLock`. -/
inductive SimMove (n : Nat) : Nat → Bool → SimStage → Nat → Bool → SimStage → Prop
  | wake {d w} : SimMove n d w .asleep d w .woken
  | start {d w} : SimMove n d w .woken d w .simulating
  | simulate {d w} : SimMove n d w .simulating d w .counting
  | count {d w} : d + 1 ≠ n → SimMove n d w .counting (d + 1) w .counted
  | last {d w} : d + 1 = n → SimMove n d w .counting (d + 1) w .last
  | reset {d w} : SimMove n d w .last 0 w .signalling
  | signal {d} : SimMove n d true .signalling d false .counted

section moves

variable {done done' : Nat} {inPhase : Prop} {waiting waiting' : Bool} {k k' : SimStage}
variable {num num' : SimStage → Nat} {stage : Fin n → SimStage} {p : SimPlace} {i : Fin n}

theorem SimMove.total (hmove : SimMove n done waiting k done' waiting' k')
    (hnum : ∀ j, num' j + (if k = j then 1 else 0) = num j + if k' = j then 1 else 0) :
    num' .asleep + num' .woken + num' .simulating + num' .counting + num' .counted + num' .last +
      num' .signalling = num .asleep + num .woken + num .simulating + num .counting +
        num .counted + num .last + num .signalling := by
  rw [SimStage.forall_iff] at hnum
  cases hmove <;> simp only [reduceCtorEq, if_true, if_false, add_zero] at hnum <;> omega

theorem SimMove.done_eq (hmove : SimMove n done waiting k done' waiting' k')
    (hnum : ∀ j, num' j + (if k = j then 1 else 0) = num j + if k' = j then 1 else 0)
    (hroom : num .counting + num .counted + num .last + num .signalling ≤ n)
    (hdone : num .counted + num .signalling < n ∧ done = num .counted + num .last ∨
      num .counted + num .signalling = n ∧ done = 0)
    (hone : num .last + num .signalling ≤ 1)
    (hall : num .last + num .signalling = 1 → num .counted + 1 = n) :
    (num' .counted + num' .signalling < n ∧ done' = num' .counted + num' .last ∨
      num' .counted + num' .signalling = n ∧ done' = 0) ∧
    num' .last + num' .signalling ≤ 1 ∧
    (num' .last + num' .signalling = 1 → num' .counted + 1 = n) := by
  obtain ⟨-, -, -, hnum⟩ := SimStage.forall_iff.mp hnum
  cases hmove <;> simp only [reduceCtorEq, if_true, if_false, add_zero] at hnum <;>
    obtain ⟨hcounting, hcounted, hlast, hsignalling⟩ := hnum
  case wake | start | simulate =>
    rw [hcounted, hlast, hsignalling]
    exact ⟨hdone, hone, hall⟩
  all_goals exact ⟨by omega, by omega, by omega⟩

theorem SimMove.join (hmove : SimMove n done waiting k done' waiting' k')
    (h : JoinAt n done inPhase waiting num)
    (hnum : ∀ j, num' j + (if k = j then 1 else 0) = num j + if k' = j then 1 else 0) :
    JoinAt n done' inPhase waiting' num' := by
  obtain ⟨htotal, hdone, hone, hall, hbetween, hphase⟩ := h
  have hroom : num .counting + num .counted + num .last + num .signalling ≤ n := by omega
  obtain ⟨hdone', hone', hall'⟩ := hmove.done_eq hnum hroom hdone hone hall
  refine ⟨(hmove.total hnum).trans htotal, hdone', hone', hall', fun hout => ?_, fun hin => ?_⟩
  · -- all threads are counted, so none of them moves
    have hcounted := (hbetween hout).1
    have hk := SimStage.forall_iff.mp hnum
    cases hmove <;> simp only [reduceCtorEq, if_true, if_false, add_zero] at hk <;> omega
  · have hiff := hphase hin
    obtain ⟨-, -, -, hnum⟩ := SimStage.forall_iff.mp hnum
    clear hbetween hphase hdone' hone' hall' htotal
    cases hmove <;> simp only [reduceCtorEq, if_true, if_false, add_zero] at hnum <;>
      obtain ⟨hcounting, hcounted, hlast, hsignalling⟩ := hnum
    case signal => exact ⟨fun _ => rfl, fun _ => by omega⟩
    all_goals rw [← hiff]; omega

theorem simCount_update (stage : Fin n → SimStage) (i : Fin n) (k' : SimStage) (j : SimStage) :
    simCount (Function.update stage i k') j + (if stage i = j then 1 else 0) =
      simCount stage j + if k' = j then 1 else 0 :=
  card_filter_update rfl j

theorem simCount_const (k : SimStage) :
    simCount (fun _ : Fin n => k) = fun j => if j = k then n else 0 := by
  funext j
  by_cases hj : j = k
  · subst hj
    simp [simCount]
  · simp [simCount, hj, Ne.symm hj]

theorem simCount_eq_iff : simCount stage k = n ↔ ∀ i, stage i = k := by
  have hcard := Finset.card_filter_eq_iff (s := Finset.univ) (p := fun i => stage i = k)
  simpa [simCount] using hcard

theorem simCount_pos (h : stage i = k) : 0 < simCount stage k :=
  Finset.card_pos.mpr ⟨i, by simpa using h⟩

theorem CallerAt.counted (h : CallerAt stage p) (hp : ¬ p.InPhase) : stage i = .counted := by
  cases h with
  | idle hall | waited hall => exact hall i
  | wake | wait => simp [SimPlace.InPhase] at hp

theorem CallerAt.move (h : CallerAt stage p) (hasleep : stage i ≠ .asleep)
    (hcounted : stage i ≠ .counted) (hk : k' ≠ .asleep) :
    CallerAt (Function.update stage i k') p := by
  have hsame : ∀ j, Function.update stage i k' j = .asleep ↔ stage j = .asleep := by
    intro j
    by_cases hj : j = i
    · subst hj
      simp [hasleep, hk]
    · simp [hj]
  cases h with
  | idle hall => exact (hcounted (hall i)).elim
  | wake hle hall => exact .wake hle fun j => (hsame j).trans (hall j)
  | wait hall => exact .wait fun j => mt (hsame j).mp (hall j)
  | waited hall => exact (hcounted (hall i)).elim

end moves

section inv

variable {s s' : SimState n} {i j : Fin n} {k k' : SimStage} {stage : Fin n → SimStage}

theorem ThreadAt.frame (h : ThreadAt s i k) (hplace : s'.place (some i) = s.place (some i))
    (htaken : s'.taken (.wakeLock i) = s.taken (.wakeLock i))
    (hlog : s'.data.log i = s.data.log i) (hlimit : s'.data.limit = s.data.limit)
    (hphases : s'.data.phases = s.data.phases) : ThreadAt s' i k where
  place := hplace.trans h.place
  taken := htaken.trans h.taken
  log := by rw [hlog, hlimit, hphases, h.log]

/-- Thread `i` goes on to stage `k'`. -/
theorem SimInv.move (h : SimInv s stage) (hthread : ThreadAt s' i k')
    (hother : ∀ j, j ≠ i → ThreadAt s' j (stage j))
    (hmove : SimMove n s.data.threadsDone.toNat (s.taken .waitLock) (stage i)
      s'.data.threadsDone.toNat (s'.taken .waitLock) k')
    (hcaller : CallerAt (Function.update stage i k') (s'.place none))
    (hin : (s'.place none).InPhase ↔ (s.place none).InPhase)
    (hidle : s'.place none = .idle ↔ s.place none = .idle)
    (hinCSim : s'.data.inCSim = s.data.inCSim) (hlastLimit : s'.data.lastLimit = s.data.lastLimit)
    (hlimit : s'.data.limit = s.data.limit) (hphases : s'.data.phases = s.data.phases)
    (hskip : s'.data.skipContention = s.data.skipContention) :
    SimInv s' (Function.update stage i k') where
  thread j := by
    by_cases hj : j = i
    · subst hj
      simpa using hthread
    · simpa [hj] using hother j hj
  caller := hcaller
  join := by
    rw [hin]
    exact hmove.join h.join (simCount_update _ i k')
  inCSim := by rw [hinCSim, h.inCSim, ne_eq, ne_eq, hidle]
  limit := by
    rw [hidle, hlastLimit, hlimit]
    exact h.limit
  sorted := by
    rw [hphases, hlimit]
    exact h.sorted
  skipped := by
    rw [hidle, hphases, hskip]
    exact h.skipped

theorem SimInv.init {skipContention : Bool} :
    SimInv (.init n skipContention) fun _ => .counted := by
  constructor
  · intro i
    constructor <;> simp [SimState.init, SimStage.place, SimStage.Todo]
  · exact .idle fun _ => rfl
  · rw [simCount_const]
    constructor <;> simp [SimState.init, SimPlace.InPhase]
  all_goals simp [SimState.init]

theorem SimMove.ne {d d' : Nat} {w w' : Bool} (h : SimMove n d w k d' w' k') :
    k ≠ .counted ∧ k' ≠ .asleep := by
  cases h <;> simp

/-- What a step of thread `i` from stage `k` to stage `k'` does. -/
structure SimThreadStep (s s' : SimState n) (i : Fin n) (k k' : SimStage) : Prop where
  awake : k ≠ .asleep
  move : SimMove n s.data.threadsDone.toNat (s.taken .waitLock) k
    s'.data.threadsDone.toNat (s'.taken .waitLock) k'
  thread : ThreadAt s' i k'
  place : ∀ t, t ≠ some i → s'.place t = s.place t
  taken : ∀ j, j ≠ i → s'.taken (.wakeLock j) = s.taken (.wakeLock j)
  log : ∀ j, j ≠ i → s'.data.log j = s.data.log j
  frame : ∃ threadsDone log, s'.data = { s.data with threadsDone, log }

theorem SimThreadStep.inv (hs : SimThreadStep s s' i (stage i) k') (h : SimInv s stage) :
    SimInv s' (Function.update stage i k') := by
  obtain ⟨hawake, hmove, hthread, hplace, htaken, hlog, threadsDone, log, hdata⟩ := hs
  obtain ⟨hcounted, hk'⟩ := hmove.ne
  have hnone := hplace none (by simp)
  refine h.move hthread ?_ hmove ?_ (by rw [hnone]) (by rw [hnone]) ?_ ?_ ?_ ?_ ?_
  · intro j hj
    exact (h.thread j).frame (hplace _ (by simpa using hj)) (htaken j hj) (hlog j hj)
      (by rw [hdata]) (by rw [hdata])
  · rw [hnone]
    exact h.caller.move hawake hcounted hk'
  all_goals rw [hdata]

theorem ThreadAt.prog (h : ThreadAt s i k) :
    contentionSim (some i) (s.place (some i)) = simThreadLoop i k.place := by
  rw [contentionSim, h.place]

/-- One step of a thread takes it on to the next stage. -/
theorem ThreadAt.step (h : ThreadAt s i k) (hs : Step contentionSim (some i) s s')
    (hcard : n < 2 ^ 32) (hdone : k = .counting → s.data.threadsDone.toNat < n) :
    ∃ k', SimThreadStep s s' i k k' := by
  have hprog := h.prog
  obtain ⟨_, htaken, hlog⟩ := h
  have hplace : ∀ t, t ≠ some i → s'.place t = s.place t := fun t => hs.place_of_ne
  cases k with
  | asleep | counted =>
    obtain ⟨hfree, _⟩ := hs.lock_inv hprog
    rw [hfree] at htaken
    simp at htaken
  | woken =>
    obtain ⟨_, rfl⟩ := hs.lock_inv hprog
    refine ⟨.simulating, by simp, .start, ⟨?_, ?_, hlog⟩, hplace, ?_, fun _ _ => rfl, _, _, rfl⟩
    · simp [SimStage.place]
    · simp
    · intro j hj
      simp [hj]
  | simulating =>
    obtain ⟨_, _, ⟨rfl, rfl⟩, rfl⟩ := hs.act_inv hprog
    refine ⟨.counting, by simp, .simulate, ⟨?_, htaken, ?_⟩, hplace, fun _ _ => rfl, ?_, _, _, rfl⟩
    · simp [SimStage.place]
    · simpa [SimStage.Todo] using hlog
    · intro j hj
      simp [hj]
  | counting =>
    obtain ⟨_, _, ⟨rfl, rfl⟩, rfl⟩ := hs.act_inv hprog
    have hlt := hdone rfl
    have hadd : (s.data.threadsDone + 1#32).toNat = s.data.threadsDone.toNat + 1 := by
      rw [BitVec.toNat_add, BitVec.toNat_ofNat, Nat.mod_eq_of_lt (by omega)]
    have hall : s.data.threadsDone + 1#32 = BitVec.ofNat 32 n ↔
        s.data.threadsDone.toNat + 1 = n := by
      rw [← BitVec.toNat_inj, hadd, BitVec.toNat_ofNat, Nat.mod_eq_of_lt hcard]
    by_cases hlast : s.data.threadsDone + 1#32 = BitVec.ofNat 32 n
    · refine ⟨.last, by simp, ?_, ⟨?_, htaken, hlog⟩, hplace, fun _ _ => rfl, fun _ _ => rfl, _, _,
        rfl⟩
      · simpa [hadd] using SimMove.last (hall.mp hlast)
      · simp [hlast, SimStage.place]
    · refine ⟨.counted, by simp, ?_, ⟨?_, htaken, hlog⟩, hplace, fun _ _ => rfl, fun _ _ => rfl,
        _, _, rfl⟩
      · simpa [hadd] using SimMove.count (mt hall.mpr hlast)
      · simp [hlast, SimStage.place]
  | last =>
    obtain ⟨_, _, ⟨rfl, rfl⟩, rfl⟩ := hs.act_inv hprog
    refine ⟨.signalling, by simp, .reset, ⟨?_, htaken, hlog⟩, hplace, fun _ _ => rfl,
      fun _ _ => rfl, _, _, rfl⟩
    simp [SimStage.place]
  | signalling =>
    obtain ⟨hwait, rfl⟩ := hs.unlock_inv hprog
    refine ⟨.counted, by simp, ?_, ⟨?_, ?_, hlog⟩, hplace, ?_, fun _ _ => rfl, _, _, rfl⟩
    · simpa [hwait] using SimMove.signal
    · simp [SimStage.place]
    · simpa using htaken
    · intro j hj
      simp

theorem SimInv.counting_lt (h : SimInv s stage) (hk : stage i = .counting) :
    s.data.threadsDone.toNat < n := by
  have hpos := simCount_pos hk
  have hdone := h.join.done_eq
  have htotal := h.join.total
  have hone := h.join.one
  have hall := h.join.all
  omega

theorem SimInv.thread_step (h : SimInv s stage) (hs : Step contentionSim (some i) s s')
    (hcard : n < 2 ^ 32) : ∃ k', SimThreadStep s s' i (stage i) k' ∧
      SimInv s' (Function.update stage i k') := by
  obtain ⟨k', hk'⟩ := (h.thread i).step hs hcard h.counting_lt
  exact ⟨k', hk', hk'.inv h⟩

theorem caller_prog {p : SimPlace} (hp : s.place none = p) :
    contentionSim none (s.place none) =
      (simulatePhase p : Instr (SimLock n) (SimData n) SimPlace) :=
  congrArg simulatePhase hp

/-- A phase that is skipped changes nothing. -/
theorem skip_step (hidle : s.place none = .idle) (hskip : s.data.skipContention = true)
    (hs : Step contentionSim none s s') : s' = s := by
  obtain ⟨d, p, hact, rfl⟩ := hs.act_inv (caller_prog hidle)
  rw [if_pos hskip] at hact
  obtain ⟨rfl, rfl⟩ := hact
  cases s
  simp only [State.goto, State.setData, State.mk.injEq, true_and, and_true]
  rw [← hidle]
  exact Function.update_eq_self _ _

/-- The caller starts a phase. -/
theorem SimInv.idle_step (hn : 0 < n) (h : SimInv s stage) (hidle : s.place none = .idle)
    (hskip : s.data.skipContention = false) (hs : Step contentionSim none s s') :
    s'.place none = .wake 0 ∧ SimInv s' fun _ => .asleep := by
  obtain ⟨_, _, hact, rfl⟩ := hs.act_inv (caller_prog hidle)
  rw [if_neg (by simp [hskip])] at hact
  obtain ⟨rfl, limit, hle, rfl⟩ := hact
  have hout : ¬ (s.place none).InPhase := by simp [hidle, SimPlace.InPhase]
  refine ⟨by simp, ?_, ?_, ?_, by simp, by simp, ?_, by simp [hskip]⟩
  · intro i
    obtain ⟨hplace, htaken, hlog⟩ := h.thread i
    rw [h.caller.counted hout] at hplace htaken hlog
    refine ⟨by simpa [SimStage.place] using hplace, htaken, ?_⟩
    simpa [SimStage.Todo] using hlog
  · simpa using CallerAt.wake (Nat.zero_le n) (by simp)
  · obtain ⟨_, hdone, _, _, hbetween, _⟩ := h.join
    obtain ⟨hall, hwait⟩ := hbetween hout
    have hzero : s.data.threadsDone.toNat = 0 := by omega
    rw [simCount_const]
    constructor <;> simp [SimPlace.InPhase, hzero, hwait] <;> omega
  · obtain ⟨hsorted, hmax⟩ := h.sorted
    rw [← h.limit hidle] at hmax
    have hlimit : ∀ l ∈ s.data.phases, l ≤ limit := fun l hl => (hmax l hl).trans hle
    simp only [State.goto_data, State.setData_data, List.pairwise_append, List.mem_append,
      List.mem_singleton]
    refine ⟨⟨hsorted, List.pairwise_singleton _ _, ?_⟩, ?_⟩
    · rintro l hl _ rfl
      exact hlimit l hl
    · rintro l (hl | rfl)
      · exact hlimit l hl
      · exact le_rfl

/-- The steps that the caller has still to take. -/
def callerWork (n : Nat) : SimPlace → Nat
  | .wake thid => n - thid + 3
  | .wait => 2
  | .waited => 1
  | _ => 0

/-- The steps that the threads have still to take, of which the last one takes two more than
the others. -/
def threadWork (n : Nat) (num : SimStage → Nat) : Nat :=
  3 * (num .asleep + num .woken) + 2 * num .simulating + num .counting + 2 * num .last +
    num .signalling + if num .counted + num .last + num .signalling < n then 2 else 0

def simWork (stage : Fin n → SimStage) (p : SimPlace) : Nat :=
  callerWork n p + threadWork n (simCount stage)

/-- A wakeup leaves the threads as much to do, and every other move takes one step of it. -/
theorem SimMove.work {d d' : Nat} {w w' : Bool} {inPhase : Prop}
    (hmove : SimMove n d w k d' w' k') (h : JoinAt n d inPhase w (simCount stage))
    (hk : stage i = k) :
    threadWork n (simCount (Function.update stage i k')) + (if k = .asleep then 0 else 1) =
      threadWork n (simCount stage) := by
  have hnum := simCount_update stage i k'
  obtain ⟨htotal, hdone, hone, hall, -, -⟩ := h
  have hroom : simCount stage .counting + simCount stage .counted + simCount stage .last +
      simCount stage .signalling ≤ n := by omega
  clear htotal
  rw [hk, SimStage.forall_iff] at hnum
  unfold threadWork
  generalize simCount (Function.update stage i k') = num' at *
  generalize simCount stage = num at *
  cases hmove <;> simp only [reduceCtorEq, if_true, if_false, add_zero] at hnum ⊢ <;>
    obtain ⟨hasleep, hwoken, hsimulating, hcounting, hcounted, hlast, hsignalling⟩ := hnum
  case count => rw [if_pos (by omega), if_pos (by omega)]; omega
  case last => rw [if_neg (by omega), if_pos (by omega)]; omega
  all_goals
    have hsame : num' .counted + num' .last + num' .signalling =
      num .counted + num .last + num .signalling := by omega
    clear hdone hone hall hroom
    rw [hsame]
    generalize (if num .counted + num .last + num .signalling < n then 2 else 0) = rest
    omega

theorem threadWork_eq_zero {num : SimStage → Nat} (h : num .counted = n)
    (htotal : num .asleep + num .woken + num .simulating + num .counting + num .counted +
      num .last + num .signalling = n) : threadWork n num = 0 := by
  rw [threadWork, if_neg] <;> omega

/-- The caller wakes a thread. -/
theorem SimInv.wake_step (h : SimInv s stage) {thid : Nat} (hlt : thid < n)
    (hp : s.place none = .wake thid) (hs : Step contentionSim none s s') :
    SimMove n s.data.threadsDone.toNat (s.taken .waitLock) (stage ⟨thid, hlt⟩)
        s'.data.threadsDone.toNat (s'.taken .waitLock) .woken ∧
      s'.place none = .wake (thid + 1) ∧ SimInv s' (Function.update stage ⟨thid, hlt⟩ .woken) := by
  have hprog := caller_prog hp
  rw [simulatePhase, dif_pos hlt] at hprog
  obtain ⟨_, rfl⟩ := hs.unlock_inv hprog
  have hasleep : ∀ i, stage i = .asleep ↔ thid ≤ i := by
    have hcaller := h.caller
    rw [hp] at hcaller
    cases hcaller with
    | wake _ hasleep => exact hasleep
  have hk := (hasleep ⟨thid, hlt⟩).mpr le_rfl
  obtain ⟨hplace, _, hlog⟩ := h.thread ⟨thid, hlt⟩
  rw [hk] at hplace hlog
  have hmove : SimMove n s.data.threadsDone.toNat (s.taken .waitLock) (stage ⟨thid, hlt⟩)
      s.data.threadsDone.toNat (s.taken .waitLock) .woken := by
    rw [hk]
    exact .wake
  refine ⟨by simpa using hmove, by simp, h.move ⟨?_, by simp, hlog⟩ ?_ (by simpa using hmove)
    ?_ ?_ ?_ rfl rfl rfl rfl rfl⟩
  · simpa [SimStage.place] using hplace
  · intro j hj
    exact (h.thread j).frame (by simp) (by simp [hj]) rfl rfl rfl
  · simp only [State.goto_place, Function.update_self]
    refine .wake hlt fun j => ?_
    by_cases hj : j = ⟨thid, hlt⟩
    · simp [hj]
    · have hne : (j : Nat) ≠ thid := fun hj' => hj (Fin.ext hj')
      rw [Function.update_of_ne hj, hasleep]
      omega
  · simp [hp, SimPlace.InPhase]
  · simp [hp]

/-- The caller goes on by itself. -/
theorem SimInv.caller_move (h : SimInv s stage)
    (hplace : ∀ i, s'.place (some i) = s.place (some i))
    (htaken : ∀ i, s'.taken (.wakeLock i) = s.taken (.wakeLock i))
    (hcaller : CallerAt stage (s'.place none))
    (hjoin : JoinAt n s'.data.threadsDone.toNat (s'.place none).InPhase (s'.taken .waitLock)
      (simCount stage))
    (hinCSim : s'.data.inCSim = true ↔ s'.place none ≠ .idle)
    (hlastLimit : s'.place none = .idle → s'.data.lastLimit = s'.data.limit)
    (hlog : s'.data.log = s.data.log)
    (hlimit : s'.data.limit = s.data.limit) (hphases : s'.data.phases = s.data.phases)
    (hskip : s'.data.skipContention = false) : SimInv s' stage where
  thread i := (h.thread i).frame (hplace i) (htaken i) (by rw [hlog]) hlimit hphases
  caller := hcaller
  join := hjoin
  inCSim := hinCSim
  limit := hlastLimit
  sorted := by
    rw [hphases, hlimit]
    exact h.sorted
  skipped := by simp [hskip]

theorem SimInv.not_skipped (h : SimInv s stage) (hidle : s.place none ≠ .idle) :
    s.data.skipContention = false := by
  rw [← Bool.not_eq_true]
  exact fun hskip => hidle (h.skipped hskip).1

/-- The caller goes on with a phase. -/
theorem SimInv.caller_step (h : SimInv s stage) (hidle : s.place none ≠ .idle)
    (hs : Step contentionSim none s s') : ∃ stage', SimInv s' stage' ∧
      simWork stage' (s'.place none) + 1 = simWork stage (s.place none) := by
  obtain ⟨p, hp⟩ : ∃ p, s.place none = p := ⟨_, rfl⟩
  have hprog := caller_prog hp
  have hcaller := h.caller
  have hinCSim := h.inCSim.mpr hidle
  have hskip := h.not_skipped hidle
  obtain ⟨htotal, hdone, hone, hall, hbetween, hphase⟩ := h.join
  rw [hp] at hcaller hidle hbetween hphase
  cases hcaller with
  | idle => exact (hidle rfl).elim
  | @wake thid hle hasleep =>
    by_cases hlt : thid < n
    · obtain ⟨hmove, hnext, hinv⟩ := h.wake_step hlt hp hs
      have hk := (hasleep ⟨thid, hlt⟩).mpr le_rfl
      have hwork := hmove.work h.join rfl
      rw [if_pos hk] at hwork
      refine ⟨_, hinv, ?_⟩
      rw [simWork, simWork, hnext, hp, callerWork, callerWork]
      omega
    · rw [simulatePhase, dif_neg hlt] at hprog
      obtain ⟨_, _, ⟨rfl, rfl⟩, rfl⟩ := hs.act_inv hprog
      refine ⟨stage, h.caller_move (by simp) (by simp) ?_ ?_ ?_ ?_ rfl rfl rfl hskip, ?_⟩
      · simpa using CallerAt.wait fun i hi => hlt (((hasleep i).mp hi).trans_lt i.isLt)
      · exact ⟨htotal, hdone, hone, hall, by simp [SimPlace.InPhase],
          fun _ => hphase (by simp [SimPlace.InPhase])⟩
      · simpa using hinCSim
      · simp
      · rw [hp, State.goto_place, Function.update_self]
        simp only [simWork, callerWork]
        omega
  | wait hawake =>
    obtain ⟨hfree, rfl⟩ := hs.lock_inv hprog
    have hcount : simCount stage .counted = n :=
      (hphase (by simp [SimPlace.InPhase])).mpr (by simp [hfree])
    refine ⟨stage, h.caller_move (by simp) (by simp) ?_ ?_ ?_ ?_ rfl rfl rfl hskip, ?_⟩
    · simpa using CallerAt.waited (simCount_eq_iff.mp hcount)
    · exact ⟨htotal, hdone, hone, hall, fun _ => ⟨hcount, by simp⟩, by simp [SimPlace.InPhase]⟩
    · simpa using hinCSim
    · simp
    · rw [hp, State.goto_place, Function.update_self]
      simp only [simWork, callerWork]
      omega
  | waited hall' =>
    obtain ⟨_, _, ⟨rfl, rfl⟩, rfl⟩ := hs.act_inv hprog
    refine ⟨stage, h.caller_move (by simp) (by simp) ?_ ?_ ?_ ?_ rfl rfl rfl hskip, ?_⟩
    · simpa using CallerAt.idle hall'
    · exact ⟨htotal, hdone, hone, hall, fun _ => hbetween (by simp [SimPlace.InPhase]),
        by simp [SimPlace.InPhase]⟩
    · simp
    · simp
    · rw [hp, State.goto_place, Function.update_self]
      simp only [simWork, callerWork]
      omega

theorem SimInv.step (hn : 0 < n) (hcard : n < 2 ^ 32) (h : SimInv s stage)
    {t : Option (Fin n)} (hs : Step contentionSim t s s') : ∃ stage', SimInv s' stage' := by
  cases t with
  | none =>
    by_cases hidle : s.place none = .idle
    · cases hskip : s.data.skipContention with
      | true =>
        rw [skip_step hidle hskip hs]
        exact ⟨_, h⟩
      | false => exact ⟨_, (h.idle_step hn hidle hskip hs).2⟩
    · obtain ⟨stage', hinv, _⟩ := h.caller_step hidle hs
      exact ⟨stage', hinv⟩
  | some i =>
    obtain ⟨k', _, hinv⟩ := h.thread_step hs hcard
    exact ⟨_, hinv⟩

theorem contentionSim_inv {skipContention : Bool} (hn : 0 < n) (hcard : n < 2 ^ 32)
    (h : Reachable contentionSim (SimState.init n skipContention) s) : ∃ stage, SimInv s stage :=
  h.inv (I := fun s => ∃ stage, SimInv s stage) ⟨_, .init⟩
    fun _ _ _ ⟨_, hinv⟩ hs => hinv.step hn hcard hs

theorem SimInv.waitLock_taken (h : SimInv s stage) (hk : stage i = .signalling) :
    s.taken .waitLock = true := by
  have hpos := simCount_pos hk
  obtain ⟨_, _, hone, hall, hbetween, hphase⟩ := h.join
  have hcount : simCount stage .counted ≠ n := by omega
  have hin := (em (s.place none).InPhase).resolve_right fun hout => hcount (hbetween hout).1
  cases hw : s.taken .waitLock with
  | true => rfl
  | false => exact (hcount ((hphase hin).mpr (by simp [hw]))).elim

theorem CallerAt.asleep {thid : Nat} (h : CallerAt stage (.wake thid)) (hlt : thid < n) :
    stage ⟨thid, hlt⟩ = .asleep := by
  cases h with
  | wake _ hasleep => exact (hasleep ⟨thid, hlt⟩).mpr le_rfl

theorem SimInv.wakeLock_taken (h : SimInv s stage) {thid : Nat} (hlt : thid < n)
    (hp : s.place none = .wake thid) : s.taken (.wakeLock ⟨thid, hlt⟩) = true := by
  have hcaller := h.caller
  rw [hp] at hcaller
  simp [(h.thread ⟨thid, hlt⟩).taken, hcaller.asleep hlt]

theorem contentionSim_sound {skipContention : Bool} (hn : 0 < n) (hcard : n < 2 ^ 32) :
    Sound contentionSim (SimState.init n skipContention) := by
  intro s hs t i p hprog
  obtain ⟨stage, h⟩ := contentionSim_inv hn hcard hs
  cases t with
  | none =>
    cases hp : s.place none <;>
      simp only [contentionSim, simulatePhase, hp, reduceCtorEq] at hprog
    split at hprog
    · obtain ⟨rfl, rfl⟩ := Instr.unlock.inj hprog
      exact h.wakeLock_taken _ hp
    · simp at hprog
  | some j =>
    rw [(h.thread j).prog] at hprog
    cases hk : stage j <;> rw [hk] at hprog <;>
      simp only [simThreadLoop, SimStage.place, reduceCtorEq] at hprog
    obtain ⟨rfl, rfl⟩ := Instr.unlock.inj hprog
    exact h.waitLock_taken hk

/-- While a phase lasts, the caller or a thread can go on. -/
theorem SimInv.canStep (h : SimInv s stage) (hidle : s.place none ≠ .idle) :
    ∃ t, CanStep contentionSim s t := by
  obtain ⟨p, hp⟩ : ∃ p, s.place none = p := ⟨_, rfl⟩
  have hprog := caller_prog hp
  have hcaller := h.caller
  rw [hp] at hcaller hidle
  cases hcaller with
  | idle => exact (hidle rfl).elim
  | @wake thid =>
    by_cases hlt : thid < n
    · rw [simulatePhase, dif_pos hlt] at hprog
      exact ⟨none, canStep_unlock hprog (h.wakeLock_taken hlt hp)⟩
    · rw [simulatePhase, dif_neg hlt] at hprog
      exact ⟨none, canStep_act hprog ⟨rfl, rfl⟩⟩
  | wait hawake =>
    by_cases hall : ∀ i, stage i = .counted
    · have hin : (s.place none).InPhase := by simp [hp, SimPlace.InPhase]
      have hfree := (h.join.phase hin).mp (simCount_eq_iff.mpr hall)
      exact ⟨none, canStep_lock hprog (by simpa using hfree)⟩
    · obtain ⟨i, hi⟩ := not_forall.mp hall
      refine ⟨some i, ?_⟩
      have hprog := (h.thread i).prog
      have htaken := (h.thread i).taken
      cases hk : stage i <;> rw [hk] at hprog htaken
      case asleep => exact (hawake i hk).elim
      case counted => exact (hi hk).elim
      case woken => exact canStep_lock hprog (by simpa using htaken)
      case signalling => exact canStep_unlock hprog (h.waitLock_taken hk)
      all_goals exact canStep_act hprog ⟨rfl, rfl⟩
  | waited => exact ⟨none, canStep_act hprog ⟨rfl, rfl⟩⟩

/-- `m` steps of one phase. -/
inductive PhaseRun (s : SimState n) : Nat → SimState n → Prop
  | refl : PhaseRun s 0 s
  | tail {m : Nat} {t : Option (Fin n)} {s' s'' : SimState n} : PhaseRun s m s' →
      s'.place none ≠ .idle → Step contentionSim t s' s'' → PhaseRun s (m + 1) s''

/-- Every step of a phase takes one step of its work. -/
theorem SimInv.phase_step (hcard : n < 2 ^ 32) (h : SimInv s stage) (hidle : s.place none ≠ .idle)
    {t : Option (Fin n)} (hs : Step contentionSim t s s') : ∃ stage', SimInv s' stage' ∧
      simWork stage' (s'.place none) + 1 = simWork stage (s.place none) := by
  cases t with
  | none => exact h.caller_step hidle hs
  | some i =>
    obtain ⟨k', hstep, hinv⟩ := h.thread_step hs hcard
    have hwork := hstep.move.work h.join rfl
    rw [if_neg hstep.awake] at hwork
    refine ⟨_, hinv, ?_⟩
    rw [hstep.place none (by simp), simWork, simWork]
    omega

theorem PhaseRun.work {m : Nat} (hrun : PhaseRun s m s') (hcard : n < 2 ^ 32)
    (h : SimInv s stage) : ∃ stage', SimInv s' stage' ∧
      simWork stage' (s'.place none) + m = simWork stage (s.place none) := by
  induction hrun with
  | refl => exact ⟨stage, h, rfl⟩
  | tail _ hidle hs ih =>
    obtain ⟨stage', hinv, hwork⟩ := ih
    obtain ⟨stage'', hinv', hwork'⟩ := hinv.phase_step hcard hidle hs
    exact ⟨stage'', hinv', by omega⟩

theorem SimInv.work_eq_zero_iff (h : SimInv s stage) :
    simWork stage (s.place none) = 0 ↔ s.place none = .idle := by
  have hcaller := h.caller
  constructor
  · intro hwork
    cases hp : s.place none <;> rw [hp] at hcaller hwork
    case mp.wake => simp [simWork, callerWork] at hwork
    case mp.wait => simp [simWork, callerWork] at hwork
    case mp.waited => simp [simWork, callerWork] at hwork
    all_goals first | rfl | cases hcaller
  · intro hidle
    have hcount : simCount stage .counted = n :=
      (h.join.between (by simp [hidle, SimPlace.InPhase])).1
    rw [hidle, simWork, threadWork_eq_zero hcount h.join.total]
    rfl

theorem PhaseRun.head {m : Nat} (hidle : s.place none ≠ .idle) {t : Option (Fin n)}
    {s'' : SimState n} (hs : Step contentionSim t s s') (h : PhaseRun s' m s'') :
    PhaseRun s (m + 1) s'' := by
  induction h with
  | refl => exact .tail .refl hidle hs
  | tail _ hidle' hs' ih => exact .tail ih hidle' hs'

theorem SimInv.phase_ends (hcard : n < 2 ^ 32) (h : SimInv s stage) :
    ∃ m s', PhaseRun s m s' ∧ s'.place none = .idle := by
  induction hw : simWork stage (s.place none) using Nat.strongRecOn generalizing s stage with
  | _ w ih =>
    by_cases hidle : s.place none = .idle
    · exact ⟨0, s, .refl, hidle⟩
    · obtain ⟨t, s', hs⟩ := h.canStep hidle
      obtain ⟨stage', hinv, hwork⟩ := h.phase_step hcard hidle hs
      obtain ⟨m, s'', hrun, hdone⟩ := ih _ (by omega) hinv rfl
      exact ⟨m + 1, s'', hrun.head hidle hs, hdone⟩

/-- In whatever order its threads run, a phase that is not skipped ends after `4 * n + 5`
steps. One that is skipped ends at once and changes nothing. -/
theorem simulatePhase_ends {skipContention : Bool} (hn : 0 < n) (hcard : n < 2 ^ 32)
    (h : Reachable contentionSim (SimState.init n skipContention) s) (hidle : s.place none = .idle)
    (hs : Step contentionSim none s s') :
    (s.data.skipContention = true → s' = s) ∧
      (s.data.skipContention = false → ∀ m s'', PhaseRun s' m s'' →
        (s''.place none = .idle ↔ m = 4 * n + 5) ∧
          ∃ s₃, PhaseRun s'' (4 * n + 5 - m) s₃ ∧ s₃.place none = .idle) := by
  refine ⟨fun hskip => skip_step hidle hskip hs, fun hskip m s'' hrun => ?_⟩
  obtain ⟨stage, hinv⟩ := contentionSim_inv hn hcard h
  obtain ⟨hnext, hinv'⟩ := hinv.idle_step hn hidle hskip hs
  obtain ⟨stage'', hinv'', hwork⟩ := hrun.work hcard hinv'
  have htotal : simWork (fun _ : Fin n => .asleep) (s'.place none) = 4 * n + 5 := by
    rw [hnext, simWork, simCount_const]
    simp [callerWork, threadWork, hn]
    omega
  rw [htotal] at hwork
  refine ⟨by rw [← hinv''.work_eq_zero_iff]; omega, ?_⟩
  obtain ⟨m', s₃, hrun', hdone⟩ := hinv''.phase_ends hcard
  obtain ⟨stage₃, hinv₃, hwork'⟩ := hrun'.work hcard hinv''
  rw [hinv₃.work_eq_zero_iff.mpr hdone] at hwork'
  obtain rfl : m' = 4 * n + 5 - m := by omega
  exact ⟨s₃, hrun', hdone⟩

/-- The caller has started a phase. -/
def SimState.started (n limit : Nat) : SimState n :=
  let s := SimState.init n false
  (s.setData { s.data with limit, inCSim := true, phases := [limit] }).goto none (.wake 0)

theorem SimState.started_step (n limit : Nat) :
    Step contentionSim none (SimState.init n false) (started n limit) :=
  .act (p := SimPlace.wake 0) rfl ⟨rfl, limit, Nat.zero_le limit, rfl⟩

/-- Two threads, the first of which the caller has woken. -/
theorem simulatePhase_ends_two : ∃ s'' : SimState 2, PhaseRun (SimState.started 2 100) 2 s'' ∧
    s''.place (some 0) = .simulate ∧
    (s''.place none = .idle ↔ 2 = 4 * 2 + 5) ∧
      ∃ s₃, PhaseRun s'' (4 * 2 + 5 - 2) s₃ ∧ s₃.place none = .idle := by
  have h₁ : PhaseRun (SimState.started 2 100) 1 _ :=
    .tail (t := none) .refl (by decide) (.unlock (i := .wakeLock 0) (p := .wake 1) rfl rfl)
  have h₂ := h₁.tail (t := some 0) (by decide) (.lock (i := .wakeLock 0) (p := .simulate) rfl rfl)
  exact ⟨_, h₂, rfl, (simulatePhase_ends (by decide) (by decide) .refl rfl
    (SimState.started_step 2 100)).2 rfl 2 _ h₂⟩

theorem SimInv.done (h : SimInv s stage) (hidle : s.place none = .idle) :
    s.data.threadsDone = 0#32 ∧ ∀ i, s.data.log i = s.data.phases := by
  have hout : ¬ (s.place none).InPhase := by simp [hidle, SimPlace.InPhase]
  obtain ⟨_, hdone, _, _, hbetween, _⟩ := h.join
  obtain ⟨hcount, _⟩ := hbetween hout
  constructor
  · apply BitVec.eq_of_toNat_eq
    rw [BitVec.toNat_ofNat, Nat.zero_mod]
    omega
  · intro i
    simpa [h.caller.counted hout, SimStage.Todo] using (h.thread i).log

theorem SimInv.simulating (h : SimInv s stage) (hi : s.place (some i) = .simulate) :
    s.data.inCSim = true ∧ s.data.log i ++ [s.data.limit] = s.data.phases := by
  obtain ⟨hplace, _, hlog⟩ := h.thread i
  rw [hi] at hplace
  cases hk : stage i <;> rw [hk] at hplace hlog <;>
    simp only [SimStage.place, reduceCtorEq] at hplace
  refine ⟨h.inCSim.mpr fun hidle => ?_, hlog⟩
  have hcounted := h.caller.counted (i := i) (by simp [hidle, SimPlace.InPhase])
  simp [hk] at hcounted

theorem SimInv.log_eq (h : SimInv s stage) (i : Fin n) :
    s.data.log i = s.data.phases ∨ s.data.log i ++ [s.data.limit] = s.data.phases := by
  have hlog := (h.thread i).log
  split at hlog
  · exact .inr hlog
  · exact .inl (by simpa using hlog)

end inv

section futex

variable {c : FutexConf (Option (Fin n)) (SimLock n) (SimData n) SimPlace}

/-- Over the futex locks: each thread simulates every phase that is not skipped once and in
order, while the caller waits in it, and all are done with it when the caller goes on. With
`skipContention` there are no others. -/
theorem simulatePhase_once {skipContention : Bool} (hn : 0 < n) (hcard : n < 2 ^ 32)
    (h : FutexReachable contentionSim (SimState.init n skipContention) c) :
    (c.place none = .idle → c.data.threadsDone = 0#32 ∧ ∀ i, c.data.log i = c.data.phases) ∧
      (∀ i, c.place (some i) = .simulate →
        c.data.inCSim = true ∧ c.data.log i ++ [c.data.limit] = c.data.phases) ∧
      (∀ i, c.data.log i = c.data.phases ∨ c.data.log i ++ [c.data.limit] = c.data.phases) ∧
      c.data.phases.Pairwise (· ≤ ·) ∧
      (c.data.skipContention = true → c.place none = .idle ∧ c.data.phases = []) := by
  obtain ⟨stage, hinv⟩ := contentionSim_inv hn hcard (h.inv (contentionSim_sound hn hcard)).1
  exact ⟨hinv.done, fun i => hinv.simulating, hinv.log_eq, hinv.sorted.1, hinv.skipped⟩

theorem SimState.started_reachable (n limit : Nat) :
    FutexReachable contentionSim (SimState.init n false) (.init (started n limit)) :=
  .single ⟨none, FutexStep.act (p := SimPlace.wake 0) rfl rfl ⟨rfl, limit, Nat.zero_le limit, rfl⟩⟩

/-- The first of two threads has simulated the phase, and the caller sleeps. -/
theorem simulatePhase_once_started :
    ∃ c : FutexConf (Option (Fin 2)) (SimLock 2) (SimData 2) SimPlace,
      c.place none = .wait ∧ c.place (some 1) = .simulate ∧ c.data.log 0 = [100] ∧
      (c.place none = .idle → c.data.threadsDone = 0#32 ∧ ∀ i, c.data.log i = c.data.phases) ∧
      (∀ i, c.place (some i) = .simulate →
        c.data.inCSim = true ∧ c.data.log i ++ [c.data.limit] = c.data.phases) ∧
      (∀ i, c.data.log i = c.data.phases ∨ c.data.log i ++ [c.data.limit] = c.data.phases) ∧
      c.data.phases.Pairwise (· ≤ ·) ∧
      (c.data.skipContention = true → c.place none = .idle ∧ c.data.phases = []) := by
  have h₀ := SimState.started_reachable 2 100
  have h₁ := h₀.unlock (t := none) (i := .wakeLock 0) (p := .wake 1) rfl rfl
  have h₂ := h₁.lock (t := some 0) (i := .wakeLock 0) (p := .simulate) rfl rfl
  have h₃ := h₂.act (t := some 0) rfl ⟨rfl, rfl⟩
  have h₄ := h₃.unlock (t := none) (i := .wakeLock 1) (p := .wake 2) rfl rfl
  have h₅ := h₄.act (t := none) rfl ⟨rfl, rfl⟩
  have h₆ := h₅.lock (t := some 1) (i := .wakeLock 1) (p := .simulate) rfl rfl
  exact ⟨_, rfl, rfl, rfl, simulatePhase_once (by decide) (by decide) h₆⟩

/-- The one thread that takes a lock. -/
def SimLock.taker : SimLock n → Option (Fin n)
  | wakeLock thid => some thid
  | waitLock => none

theorem Attempts.eq_taker {t : Option (Fin n)} {i : SimLock n} (h : Attempts contentionSim c t i) :
    t = i.taker := by
  rcases h with ⟨p, hp⟩ | ⟨p, q, hp⟩
  · cases t with
    | none =>
      cases hc : c.place none <;>
        simp only [contentionSim, simulatePhase, hc, reduceCtorEq] at hp
      · split at hp <;> simp at hp
      · obtain ⟨rfl, _⟩ := Instr.lock.inj hp
        rfl
    | some j =>
      cases hc : c.place (some j) <;>
        simp only [contentionSim, simThreadLoop, hc, reduceCtorEq] at hp
      obtain ⟨rfl, _⟩ := Instr.lock.inj hp
      rfl
  · cases t with
    | none =>
      cases hc : c.place none <;> simp only [contentionSim, simulatePhase, hc, reduceCtorEq] at hp
      split at hp <;> simp at hp
    | some j =>
      cases hc : c.place (some j) <;>
        simp only [contentionSim, simThreadLoop, hc, reduceCtorEq] at hp

/-- While a phase lasts, some thread goes on with it, once the wakeup it is owed has come. -/
theorem simulatePhase_progress {skipContention : Bool} (hn : 0 < n) (hcard : n < 2 ^ 32)
    (h : FutexReachable contentionSim (SimState.init n skipContention) c)
    (hidle : c.place none ≠ .idle) : ∃ t, Progress contentionSim (fun u => u = t) c := by
  have hsound : Sound contentionSim (SimState.init n skipContention) :=
    contentionSim_sound hn hcard
  obtain ⟨stage, hinv⟩ := contentionSim_inv hn hcard (h.inv hsound).1
  obtain ⟨t, hcan⟩ := hinv.canStep hidle
  refine ⟨t, (futex_progress hsound h hcan).mono ?_⟩
  rintro u (rfl | ⟨i, ht, hu⟩)
  · rfl
  · rw [hu.eq_taker, ht.eq_taker]

theorem simulatePhase_progress_started :
    ∃ t, Progress contentionSim (fun u => u = t) (.init (SimState.started 2 100)) :=
  simulatePhase_progress (by decide) (by decide) (SimState.started_reachable 2 100) (by decide)

end futex

end ZSim
