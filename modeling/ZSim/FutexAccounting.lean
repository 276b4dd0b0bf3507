import ZSim.Futex
import ZSim.SumUpdate
import Mathlib.Algebra.BigOperators.Group.Finset.Piecewise
import Mathlib.Algebra.Order.BigOperators.Group.Finset

/-! The accounting of futex wakes over all runs in which no wake call fails, asks for a
negative count, or makes the allowance wrap. -/

namespace ZSim

open Finset

namespace FutexThread

/-- What a waker adds to the allowed wakeups: its maximum until its join takes over the
count, and the count after. -/
def allowance (th : FutexThread) : Nat :=
  match th.stage with
  | .waking _ => th.futexJoin.maxWakes
  | .wakeReturn _ _ => th.futexJoin.maxWakes
  | .wakeJoin _ => th.futexJoin.maxWakes
  | .matching _ => th.futexJoin.wokenUp
  | _ => 0

/-- The waiters that the kernel woke for a waker in flight. -/
def woken (th : FutexThread) : Nat :=
  match th.stage with
  | .wakeReturn _ woken => woken
  | .wakeJoin woken => woken
  | .matching woken => woken
  | _ => 0

def pending (th : FutexThread) : Nat :=
  match th.stage with
  | .wokenUp => 1
  | .waitJoin => 1
  | _ => 0

/-- The record of the thread fits its stage. -/
def Coherent (th : FutexThread) : Prop :=
  match th.stage with
  | .idle => th.futexJoin.action = .NONE
  | .waiting => th.futexJoin.action = .NONE
  | .wokenUp => th.futexJoin.action = .NONE
  | .waitJoin => th.futexJoin.action = .WAIT
  | .waking val => th.futexJoin.action = .NONE ∧
      th.futexJoin.maxWakes = FutexState.capWakes (toUint32 val) ∧ val < 2 ^ 31
  | .wakeReturn val woken => th.futexJoin.action = .NONE ∧
      th.futexJoin.maxWakes = FutexState.capWakes (toUint32 val) ∧ val < 2 ^ 31 ∧
      woken ≤ th.futexJoin.maxWakes
  | .wakeJoin woken => th.futexJoin.action = .WAKE ∧ th.futexJoin.wokenUp = woken ∧
      woken ≤ th.futexJoin.maxWakes
  | .matching woken => th.futexJoin.action = .WAKE ∧ th.futexJoin.wokenUp = woken

theorem woken_le_allowance {th : FutexThread} (h : th.Coherent) : th.woken ≤ th.allowance := by
  rw [Coherent] at h
  rw [woken, allowance]
  match hs : th.stage with
  | .idle => exact Nat.le_refl _
  | .waiting => exact Nat.le_refl _
  | .wokenUp => exact Nat.le_refl _
  | .waitJoin => exact Nat.le_refl _
  | .waking _ => exact Nat.zero_le _
  | .wakeReturn _ _ =>
    rw [hs] at h
    exact h.2.2.2
  | .wakeJoin _ =>
    rw [hs] at h
    exact h.2.2
  | .matching _ =>
    rw [hs] at h
    exact Nat.le_of_eq h.2.symm

end FutexThread

namespace FutexState

open FutexThread

variable {n t : Nat} {s s' : FutexState}

/-- The counters against the stages of the threads. -/
structure Inv (n : Nat) (s : FutexState) : Prop where
  threads : n ≤ MAX_THREADS
  coherent : ∀ x < n, (s.threads x).Coherent
  lt : s.maxAllowedFutexWakeups < 2 ^ 32
  allowed : s.maxAllowedFutexWakeups = ∑ x ∈ range n, (s.threads x).allowance
  balance : ∑ x ∈ range n, (s.threads x).woken =
    s.unmatchedFutexWakeups + ∑ x ∈ range n, (s.threads x).pending
  joined : s.joined = s.matched + s.unmatchedFutexWakeups

theorem Inv.unmatched_le (h : Inv n s) :
    s.unmatchedFutexWakeups + ∑ x ∈ range n, (s.threads x).pending ≤
      s.maxAllowedFutexWakeups := by
  rw [← h.balance, h.allowed]
  apply sum_le_sum
  intro x hx
  exact woken_le_allowance (h.coherent x (mem_range.mp hx))

theorem sub32_of_le {a b : Nat} (ha : a < 2 ^ 32) (hb : b ≤ a) : sub32 a b = a - b := by
  rw [sub32, Nat.add_comm, Nat.add_sub_assoc hb, Nat.add_mod_left]
  exact Nat.mod_eq_of_lt (by omega)

/-- A step of one thread, when the counters follow what changes for it. -/
theorem Inv.update (h : Inv n s) (ht : t < n) {th : FutexThread} (hth : th.Coherent)
    {maxAllowed unmatched joined matched : Nat} (hlt : maxAllowed < 2 ^ 32)
    (hallowed : maxAllowed + (s.threads t).allowance = s.maxAllowedFutexWakeups + th.allowance)
    (hbalance : th.woken + s.unmatchedFutexWakeups + (s.threads t).pending =
      (s.threads t).woken + unmatched + th.pending)
    (hjoined : joined = matched + unmatched) :
    Inv n ⟨maxAllowed, unmatched, Function.update s.threads t th, joined, matched⟩ := by
  have hsum := fun f => sum_update ht f s.threads th
  constructor
  · exact h.threads
  · intro x hx
    show (Function.update s.threads t th x).Coherent
    by_cases hxt : x = t
    · rw [hxt, Function.update_self]
      exact hth
    · rw [Function.update_of_ne hxt]
      exact h.coherent x hx
  · exact hlt
  · have ha := hsum allowance
    rw [← h.allowed] at ha
    show maxAllowed = ∑ x ∈ range n, (Function.update s.threads t th x).allowance
    omega
  · have hw := hsum woken
    have hp := hsum pending
    have hb := h.balance
    show ∑ x ∈ range n, (Function.update s.threads t th x).woken =
      unmatched + ∑ x ∈ range n, (Function.update s.threads t th x).pending
    omega
  · exact hjoined

theorem setJoin_setStage (s : FutexState) (t : Nat) (info : FutexJoinInfo) (stage : FutexStage) :
    (s.setJoin t info).setStage t stage = s.setThread t ⟨info, stage⟩ := by
  have hself : (s.setJoin t info).threads t = ⟨info, (s.threads t).stage⟩ :=
    Function.update_self ..
  show (s.setJoin t info).setThread t ⟨((s.setJoin t info).threads t).futexJoin, stage⟩ = _
  rw [hself]
  exact congrArg (fun threads => ({ s with threads := threads } : FutexState))
    (Function.update_idem ..)

theorem setStage_eq (s : FutexState) (t : Nat) (stage : FutexStage) :
    s.setStage t stage = s.setThread t ⟨(s.threads t).futexJoin, stage⟩ := rfl

/-- The calls that keep the counters right: the allowance does not wrap, no call that asked
for a wake fails, and none asked for a negative count succeeds. -/
def Sound (s : FutexState) : Event → Prop
  | .wake _ val => s.maxAllowedFutexWakeups + capWakes (toUint32 val) < 2 ^ 32
  | .wakeReturns tid res =>
    match (s.threads tid).stage with
    | .wakeReturn val _ => 0 ≤ res ∧ 0 ≤ val ∨ res < 0 ∧ val = 0
    | _ => True
  | _ => True

theorem Inv.restage (h : Inv n s) (ht : t < n) {stage : FutexStage}
    (hth : Coherent ⟨(s.threads t).futexJoin, stage⟩)
    (hallowance : allowance ⟨(s.threads t).futexJoin, stage⟩ = (s.threads t).allowance)
    (hwoken : woken ⟨(s.threads t).futexJoin, stage⟩ = (s.threads t).woken)
    (hpending : pending ⟨(s.threads t).futexJoin, stage⟩ = (s.threads t).pending) :
    Inv n (s.setStage t stage) := by
  rw [setStage_eq]
  apply h.update ht hth h.lt
  · omega
  · omega
  · exact h.joined

theorem Inv.wait (h : Inv n s) (ht : t < n) (hst : (s.threads t).stage = .idle) :
    Inv n (s.setStage t .waiting) := by
  have hc := h.coherent t ht
  rw [Coherent, hst] at hc
  apply h.restage ht
  · exact hc
  · rw [allowance, allowance, hst]
  · rw [woken, woken, hst]
  · rw [pending, pending, hst]

theorem Inv.waitFails (h : Inv n s) (ht : t < n) (hst : (s.threads t).stage = .waiting) :
    Inv n (s.setStage t .idle) := by
  have hc := h.coherent t ht
  rw [Coherent, hst] at hc
  apply h.restage ht
  · exact hc
  · rw [allowance, allowance, hst]
  · rw [woken, woken, hst]
  · rw [pending, pending, hst]

theorem Inv.waitReturns (h : Inv n s) (ht : t < n) (hst : (s.threads t).stage = .wokenUp) :
    Inv n ((s.notifyFutexWaitWoken t).setStage t .waitJoin) := by
  have hth : Coherent ⟨⟨.WAIT, 0, 0⟩, .waitJoin⟩ := rfl
  rw [notifyFutexWaitWoken, setJoin_setStage]
  apply h.update ht hth h.lt
  · rw [allowance, allowance, hst]
  · rw [woken, woken, pending, pending, hst]
  · exact h.joined

/-- A waiter that was woken has a waker in flight, so it is counted. -/
theorem Inv.waitJoin (h : Inv n s) (ht : t < n) (hst : (s.threads t).stage = .waitJoin) :
    ∃ s', (s.futexWaitJoin t).map (·.setStage t .idle) = some s' ∧ Inv n s' := by
  have hc := h.coherent t ht
  rw [Coherent, hst] at hc
  have hpend : (s.threads t).pending = 1 := by rw [pending, hst]
  have hone : (s.threads t).pending ≤ ∑ x ∈ range n, (s.threads x).pending :=
    single_le_sum (f := fun x => (s.threads x).pending) (fun _ _ => Nat.zero_le _)
      (mem_range.mpr ht)
  have hle := h.unmatched_le
  have hlt := h.lt
  have hcounted : ¬ s.maxAllowedFutexWakeups ≤ s.unmatchedFutexWakeups := by omega
  have hth : Coherent ⟨{ (s.threads t).futexJoin with action := .NONE }, .idle⟩ := rfl
  have hjoined := h.joined
  rw [futexWaitJoin, if_pos hc, if_neg hcounted, Option.map_some, setJoin_setStage,
    Nat.mod_eq_of_lt (by omega)]
  refine ⟨_, rfl, h.update ht hth h.lt ?_ ?_ ?_⟩
  · rw [allowance, allowance, hst]
  · rw [hpend, woken, woken, hst]
    show 0 + s.unmatchedFutexWakeups + 1 = 0 + (s.unmatchedFutexWakeups + 1) + 0
    omega
  · show s.joined + 1 = s.matched + (s.unmatchedFutexWakeups + 1)
    omega

theorem Inv.wake (h : Inv n s) (ht : t < n) (hst : (s.threads t).stage = .idle) {val : Int}
    (hval : val < 2 ^ 31) (hwrap : s.maxAllowedFutexWakeups + capWakes (toUint32 val) < 2 ^ 32) :
    ∃ s', (s.prePatchFutex t val).map (·.setStage t (.waking val)) = some s' ∧ Inv n s' := by
  have hc := h.coherent t ht
  rw [Coherent, hst] at hc
  rw [prePatchFutex, notifyFutexWakeStart, if_pos hc, Option.map_some, setJoin_setStage,
    Nat.mod_eq_of_lt hwrap]
  have hth : Coherent ⟨{ (s.threads t).futexJoin with maxWakes := capWakes (toUint32 val) },
      .waking val⟩ := ⟨hc, rfl, hval⟩
  refine ⟨_, rfl, h.update ht hth hwrap ?_ ?_ h.joined⟩
  · rw [allowance, allowance, hst]
    rfl
  · rw [woken, woken, pending, pending, hst]

theorem toUint32_of_nonneg {m : Int} (h0 : 0 ≤ m) (hlt : m < 2 ^ 31) : (toUint32 m : Int) = m := by
  rw [toUint32]
  omega

theorem Inv.kernelWake (h : Inv n s) (ht : t < n) {val : Int} {waiters : Finset Nat}
    (hst : (s.threads t).stage = .waking val) (hcard : waiters.card ≤ toUint32 val)
    (hwait : ∀ x ∈ waiters, x < n ∧ (s.threads x).stage = .waiting) :
    Inv n ((s.wakeAll waiters).setStage t (.wakeReturn val waiters.card)) := by
  have hout : t ∉ waiters := by
    intro hm
    rw [(hwait t hm).2] at hst
    cases hst
  have hself : (s.wakeAll waiters).threads t = s.threads t := if_neg hout
  have hsub : waiters ⊆ range n := fun x hx => mem_range.mpr (hwait x hx).1
  have hcases : ∀ x, (s.wakeAll waiters).threads x = s.threads x ∨
      (x ∈ waiters ∧ (s.threads x).stage = .waiting ∧
        (s.wakeAll waiters).threads x = ⟨(s.threads x).futexJoin, .wokenUp⟩) := by
    intro x
    by_cases hx : x ∈ waiters
    · exact .inr ⟨hx, (hwait x hx).2, if_pos hx⟩
    · exact .inl (if_neg hx)
  have hallow : ∑ x ∈ range n, ((s.wakeAll waiters).threads x).allowance =
      ∑ x ∈ range n, (s.threads x).allowance := by
    apply sum_congr rfl
    intro x _
    rcases hcases x with he | ⟨-, hw, he⟩
    · rw [he]
    · rw [he, allowance, allowance, hw]
  have hwoken : ∑ x ∈ range n, ((s.wakeAll waiters).threads x).woken =
      ∑ x ∈ range n, (s.threads x).woken := by
    apply sum_congr rfl
    intro x _
    rcases hcases x with he | ⟨-, hw, he⟩
    · rw [he]
    · rw [he, woken, woken, hw]
  have hpending : ∑ x ∈ range n, ((s.wakeAll waiters).threads x).pending =
      ∑ x ∈ range n, (s.threads x).pending + waiters.card := by
    have hcount : waiters.card = ∑ x ∈ range n, if x ∈ waiters then 1 else 0 := by
      rw [← card_filter, filter_mem_eq_inter, inter_eq_right.mpr hsub]
    rw [hcount, ← sum_add_distrib]
    apply sum_congr rfl
    intro x _
    by_cases hx : x ∈ waiters
    · rw [if_pos hx, show (s.wakeAll waiters).threads x = _ from if_pos hx, pending, pending,
        (hwait x hx).2]
    · rw [if_neg hx, show (s.wakeAll waiters).threads x = _ from if_neg hx, Nat.add_zero]
  have hc := h.coherent t ht
  rw [Coherent, hst] at hc
  obtain ⟨hact, hmax, hval⟩ := hc
  have hle : waiters.card ≤ (s.threads t).futexJoin.maxWakes := by
    have hn : waiters.card ≤ n := by
      have := card_le_card hsub
      rwa [card_range] at this
    have hmaxthreads : n ≤ 2048 := h.threads
    rw [hmax, capWakes]
    omega
  rw [setStage_eq, hself]
  set th : FutexThread := ⟨(s.threads t).futexJoin, .wakeReturn val waiters.card⟩ with hth
  have hsum := fun f => sum_update ht f (s.wakeAll waiters).threads th
  constructor
  · exact h.threads
  · intro x hx
    show (Function.update (s.wakeAll waiters).threads t th x).Coherent
    by_cases hxt : x = t
    · rw [hxt, Function.update_self]
      exact ⟨hact, hmax, hval, hle⟩
    · rw [Function.update_of_ne hxt]
      have hcx := h.coherent x hx
      rcases hcases x with he | ⟨-, hw, he⟩
      · rwa [he]
      · rw [Coherent, hw] at hcx
        rw [he]
        exact hcx
  · exact h.lt
  · have ha := hsum allowance
    have hsame : allowance th = ((s.wakeAll waiters).threads t).allowance := by
      rw [hself, allowance, allowance, hst]
    have hold := h.allowed
    show s.maxAllowedFutexWakeups =
      ∑ x ∈ range n, (Function.update (s.wakeAll waiters).threads t th x).allowance
    omega
  · have hw := hsum woken
    have hp := hsum pending
    have hw0 : ((s.wakeAll waiters).threads t).woken = 0 := by rw [hself, woken, hst]
    have hp0 : ((s.wakeAll waiters).threads t).pending = 0 := by rw [hself, pending, hst]
    have hw1 : woken th = waiters.card := rfl
    have hp1 : pending th = 0 := rfl
    have hb := h.balance
    show ∑ x ∈ range n, (Function.update (s.wakeAll waiters).threads t th x).woken =
      s.unmatchedFutexWakeups +
        ∑ x ∈ range n, (Function.update (s.wakeAll waiters).threads t th x).pending
    omega
  · exact h.joined

/-- A call that asked for a count that is not negative reports the waiters it woke. -/
theorem Inv.wakeReturns (h : Inv n s) (ht : t < n) {val res : Int} {k : Nat}
    (hst : (s.threads t).stage = .wakeReturn val k) (hfail : res < 0 → k = 0)
    (hres : 0 ≤ res → k ≤ res ∧ (res = k ∨ k = toUint32 val))
    (hok : 0 ≤ res ∧ 0 ≤ val ∨ res < 0 ∧ val = 0) :
    Inv n ((s.postPatchFutex t val res).setStage t
      (if 0 ≤ res then .wakeJoin k else .idle)) := by
  have hc := h.coherent t ht
  rw [Coherent, hst] at hc
  obtain ⟨hact, hmax, hval, hk⟩ := hc
  have hcap : capWakes (toUint32 val) ≤ toUint32 val ∧ capWakes (toUint32 val) ≤ 2 ^ 24 :=
    ⟨Nat.min_le_left _ _, Nat.min_le_right _ _⟩
  rcases hok with ⟨h0, hval0⟩ | ⟨hneg, hval0⟩
  · have hu := toUint32_of_nonneg hval0 hval
    obtain ⟨hle, hor⟩ := hres h0
    have hmin : min res val = k := by omega
    have hconv : toUint32 (min res val) = k := by
      rw [hmin, toUint32]
      omega
    rw [postPatchFutex, if_pos h0, if_pos h0, hconv, notifyFutexWakeEnd, setJoin_setStage]
    have hth : Coherent ⟨{ (s.threads t).futexJoin with action := .WAKE, wokenUp := k },
        .wakeJoin k⟩ := ⟨rfl, rfl, hk⟩
    apply h.update ht hth h.lt
    · rw [allowance, allowance, hst]
    · rw [woken, woken, pending, pending, hst]
    · exact h.joined
  · have hn : ¬ 0 ≤ res := by omega
    have hk0 := hfail hneg
    rw [postPatchFutex, if_neg hn, if_neg hn, setStage_eq]
    have hth : Coherent ⟨(s.threads t).futexJoin, .idle⟩ := hact
    have hmax0 : (s.threads t).futexJoin.maxWakes = 0 := by
      rw [hmax, hval0]
      rfl
    apply h.update ht hth h.lt
    · rw [allowance, allowance, hst]
      show _ + (s.threads t).futexJoin.maxWakes = _ + 0
      rw [hmax0]
    · rw [woken, woken, pending, pending, hst, hk0]
    · exact h.joined

/-- The join of a waker gives back what it did not use, and fails no assert. -/
theorem Inv.wakeJoin (h : Inv n s) (ht : t < n) {k : Nat}
    (hst : (s.threads t).stage = .wakeJoin k) :
    ∃ s', (s.futexWakeJoin t).map (·.setStage t (.matching k)) = some s' ∧ Inv n s' := by
  have hc := h.coherent t ht
  rw [Coherent, hst] at hc
  obtain ⟨hact, hwoken, hle⟩ := hc
  have hallow : (s.threads t).allowance = (s.threads t).futexJoin.maxWakes := by
    rw [allowance, hst]
  have hmax : (s.threads t).allowance ≤ ∑ x ∈ range n, (s.threads x).allowance :=
    single_le_sum (f := fun x => (s.threads x).allowance) (fun _ _ => Nat.zero_le _)
      (mem_range.mpr ht)
  rw [← h.allowed, hallow] at hmax
  have hlt := h.lt
  have hsub : sub32 s.maxAllowedFutexWakeups
      ((s.threads t).futexJoin.maxWakes - (s.threads t).futexJoin.wokenUp) =
        s.maxAllowedFutexWakeups - ((s.threads t).futexJoin.maxWakes - k) := by
    rw [hwoken]
    exact sub32_of_le hlt (by omega)
  have hth : Coherent ⟨(s.threads t).futexJoin, .matching k⟩ := ⟨hact, hwoken⟩
  have hinv : Inv n ⟨s.maxAllowedFutexWakeups - ((s.threads t).futexJoin.maxWakes - k),
      s.unmatchedFutexWakeups, Function.update s.threads t ⟨(s.threads t).futexJoin, .matching k⟩,
      s.joined, s.matched⟩ := by
    apply h.update ht hth
    · omega
    · have hnew : allowance ⟨(s.threads t).futexJoin, .matching k⟩ = k := hwoken
      omega
    · rw [woken, woken, pending, pending, hst]
    · exact h.joined
  have hun := hinv.unmatched_le
  have hle' : s.unmatchedFutexWakeups ≤
      s.maxAllowedFutexWakeups - ((s.threads t).futexJoin.maxWakes - k) :=
    Nat.le_trans (Nat.le_add_right _ _) hun
  refine ⟨_, ?_, hinv⟩
  rw [futexWakeJoin, if_pos ⟨hact, hmax, hwoken ▸ hle⟩, hsub, if_pos hle', Option.map_some]
  rfl

/-- A waker is done once as many waiters as it woke have joined and are matched with it. -/
theorem Inv.wakeMatch (h : Inv n s) (ht : t < n) {k : Nat}
    (hst : (s.threads t).stage = .matching k) : Inv n (s.futexWakeMatch t) := by
  have hc := h.coherent t ht
  rw [Coherent, hst] at hc
  obtain ⟨hact, hwoken⟩ := hc
  have hallow : (s.threads t).allowance = k := by
    rw [allowance, hst]
    exact hwoken
  have hmax : (s.threads t).allowance ≤ ∑ x ∈ range n, (s.threads x).allowance :=
    single_le_sum (f := fun x => (s.threads x).allowance) (fun _ _ => Nat.zero_le _)
      (mem_range.mpr ht)
  rw [← h.allowed, hallow] at hmax
  have hlt := h.lt
  have hjoined := h.joined
  rw [futexWakeMatch]
  by_cases hle : (s.threads t).futexJoin.wokenUp ≤ s.unmatchedFutexWakeups
  · rw [if_pos hle, setJoin_setStage, sub32_of_le hlt (by omega)]
    have hth : Coherent ⟨{ (s.threads t).futexJoin with action := .NONE }, .idle⟩ := rfl
    apply h.update ht hth
    · show s.maxAllowedFutexWakeups - (s.threads t).futexJoin.wokenUp < 2 ^ 32
      omega
    · show s.maxAllowedFutexWakeups - (s.threads t).futexJoin.wokenUp + (s.threads t).allowance =
        s.maxAllowedFutexWakeups + 0
      omega
    · rw [woken, woken, pending, pending, hst]
      show 0 + s.unmatchedFutexWakeups + 0 =
        k + (s.unmatchedFutexWakeups - (s.threads t).futexJoin.wokenUp) + 0
      omega
    · show s.joined = s.matched + (s.threads t).futexJoin.wokenUp +
        (s.unmatchedFutexWakeups - (s.threads t).futexJoin.wokenUp)
      omega
  · rw [if_neg hle]
    exact h

theorem inv_init (hn : n ≤ MAX_THREADS) : Inv n init where
  threads := hn
  coherent := fun _ _ => rfl
  lt := by decide
  allowed := (sum_eq_zero fun _ _ => rfl).symm
  balance := by
    have hwoken : ∑ x ∈ range n, (init.threads x).woken = 0 := sum_eq_zero fun _ _ => rfl
    have hpending : ∑ x ∈ range n, (init.threads x).pending = 0 := sum_eq_zero fun _ _ => rfl
    rw [hwoken, hpending]
    rfl
  joined := rfl

/-- No allowed and sound event fails an assert, and the counters stay right. -/
theorem Inv.step (h : Inv n s) {e : Event} (ha : s.Allowed n e) (hok : s.Sound e) :
    ∃ s', s.step e = some s' ∧ Inv n s' := by
  cases e with
  | wait t => exact ⟨_, rfl, h.wait ha.1 ha.2⟩
  | waitFails t => exact ⟨_, rfl, h.waitFails ha.1 ha.2⟩
  | waitReturns t => exact ⟨_, rfl, h.waitReturns ha.1 ha.2⟩
  | waitJoin t => exact h.waitJoin ha.1 ha.2
  | wake t val => exact h.wake ha.1 ha.2.1 ha.2.2.2 hok
  | kernelWake t waiters =>
    obtain ⟨ht, ⟨val, hst, hcard⟩, hwait⟩ := ha
    refine ⟨_, ?_, h.kernelWake ht hst hcard hwait⟩
    rw [FutexState.step, hst]
  | wakeReturns t res =>
    obtain ⟨ht, val, k, hst, -, -, hfail, hres⟩ := ha
    rw [Sound, hst] at hok
    refine ⟨_, ?_, h.wakeReturns ht hst hfail hres hok⟩
    rw [FutexState.step, hst]
  | wakeJoin t =>
    obtain ⟨ht, k, hst⟩ := ha
    obtain ⟨s', hs', hinv⟩ := h.wakeJoin ht hst
    refine ⟨s', ?_, hinv⟩
    rw [FutexState.step, hst]
    exact hs'
  | wakeMatch t =>
    obtain ⟨ht, k, hst⟩ := ha
    exact ⟨_, rfl, h.wakeMatch ht hst⟩

theorem Reachable.inv (hn : n ≤ MAX_THREADS) (h : Reachable Sound n s) : Inv n s := by
  induction h with
  | init => exact inv_init hn
  | step _ e ha hok hs ih =>
    obtain ⟨s', hs', hinv⟩ := ih.step ha hok
    rw [hs] at hs'
    cases hs'
    exact hinv

/-- No waker is between the entry of its call and the end of its join, and every waiter that
was woken has joined. -/
def Quiet (n : Nat) (s : FutexState) : Prop :=
  ∀ x < n, (s.threads x).stage = .idle ∨ (s.threads x).stage = .waiting

structure Accounted (n : Nat) (s : FutexState) : Prop where
  allowed : s.maxAllowedFutexWakeups = ∑ x ∈ range n, (s.threads x).allowance
  unmatched : s.unmatchedFutexWakeups ≤ s.maxAllowedFutexWakeups
  matched : s.matched ≤ s.joined
  drained : Quiet n s → s.maxAllowedFutexWakeups = 0 ∧ s.unmatchedFutexWakeups = 0

theorem Inv.accounted (h : Inv n s) : Accounted n s where
  allowed := h.allowed
  unmatched := Nat.le_trans (Nat.le_add_right _ _) h.unmatched_le
  matched := by
    rw [h.joined]
    exact Nat.le_add_right _ _
  drained := by
    intro hquiet
    have hzero : ∀ x ∈ range n, (s.threads x).allowance = 0 := by
      intro x hx
      rcases hquiet x (mem_range.mp hx) with hst | hst
      · rw [allowance, hst]
      · rw [allowance, hst]
    have hallowed := h.allowed
    rw [sum_eq_zero hzero] at hallowed
    have hle := h.unmatched_le
    omega

/-- A waker leaves its join only when as many waiters as it woke are counted for it. -/
theorem futexWakeMatch_completes {k : Nat} (h : Inv n s) (ht : t < n)
    (hst : (s.threads t).stage = .matching k)
    (hdone : ((s.futexWakeMatch t).threads t).stage ≠ .matching k) :
    (s.futexWakeMatch t).matched = s.matched + k ∧ s.matched + k ≤ s.joined := by
  have hc := h.coherent t ht
  rw [Coherent, hst] at hc
  have hj := h.joined
  rw [futexWakeMatch] at hdone ⊢
  by_cases hle : (s.threads t).futexJoin.wokenUp ≤ s.unmatchedFutexWakeups
  · rw [if_pos hle]
    constructor
    · exact congrArg (s.matched + ·) hc.2
    · omega
  · rw [if_neg hle] at hdone
    exact absurd hst hdone

theorem exists_wake_one : ∃ s, Reachable Sound 2 s ∧ s.maxAllowedFutexWakeups = 1 ∧
    (s.threads 0).stage = .waking 1 ∧ (s.threads 1).stage = .waiting := by
  have hwait : ∃ s, Reachable Sound 2 s ∧ s.maxAllowedFutexWakeups = 0 ∧
      s.threads 0 = ⟨⟨.NONE, 0, 0⟩, .idle⟩ ∧ (s.threads 1).stage = .waiting :=
    ⟨_, .step .init (.wait 1) ⟨by decide, rfl⟩ trivial rfl, rfl, rfl, rfl⟩
  obtain ⟨s, hs, hmax, h0, h1⟩ := hwait
  have hsound : s.Sound (.wake 0 1) := by
    show s.maxAllowedFutexWakeups + 1 < 2 ^ 32
    rw [hmax]
    decide
  have hallowed : s.Allowed 2 (.wake 0 1) := by
    refine ⟨by decide, ?_, by decide, by decide⟩
    rw [h0]
  obtain ⟨s', hs', -⟩ := (hs.inv (by decide)).step hallowed hsound
  have hstep := hs'
  rw [step, prePatchFutex, notifyFutexWakeStart, if_pos (by rw [h0]), Option.map_some,
    setJoin_setStage, Option.some.injEq] at hstep
  refine ⟨s', .step hs _ hallowed hsound hs', ?_, ?_, ?_⟩
  · rw [← hstep]
    show (s.maxAllowedFutexWakeups + 1) % 2 ^ 32 = 1
    rw [hmax]
    rfl
  · rw [← hstep]
    rfl
  · rw [← hstep]
    exact h1

end FutexState

end ZSim
