import ZSim.Barrier
import Mathlib.Data.List.Nodup
import Mathlib.Data.List.Count
import Mathlib.Data.List.Perm.Basic

/-! The invariant of the barrier: what its list and counters say of the threads, and what
the place of the scan says of the phase. -/

namespace ZSim

/-- A list of distinct threads counts one more or one less when one changes its state. -/
theorem countP_update {S : Type} [DecidableEq S] {l : List Nat} {t : Nat} (hnd : l.Nodup)
    (ht : t ∈ l) (f : Nat → S) (v c : S) :
    l.countP (fun x => Function.update f t v x = c) + (if f t = c then 1 else 0) =
      l.countP (fun x => f x = c) + if v = c then 1 else 0 := by
  induction l with
  | nil => cases ht
  | cons x l ih =>
    rw [List.nodup_cons] at hnd
    rw [List.countP_cons, List.countP_cons]
    rcases List.mem_cons.mp ht with rfl | ht
    · have hrest : l.countP (fun x => Function.update f t v x = c) =
          l.countP (fun x => f x = c) := by
        apply List.countP_congr
        intro y hy
        have hne : y ≠ t := fun he => hnd.1 (he ▸ hy)
        rw [Function.update_of_ne hne]
      rw [hrest, Function.update_self]
      simp only [decide_eq_true_eq]
      omega
    · have hne : x ≠ t := fun he => hnd.1 (he ▸ ht)
      have hih := ih hnd.2 ht
      rw [Function.update_of_ne hne]
      omega

namespace Barrier

variable {b b' : Barrier} {t : Nat} {v : BarrierState}

/-- What a phase ends on: every listed thread that has not left has run and synced. -/
def Complete (runList : List Nat) (state : Nat → BarrierState) (synced : List Nat) : Prop :=
  (∃ t ∈ runList, state t ≠ .LEFT) ∧ ∀ t ∈ runList, state t = .LEFT ∨ t ∈ synced

/-- The thread joined and has not left since. -/
def Joined (state : Nat → BarrierState) (t : Nat) : Prop :=
  state t = .WAITING ∨ state t = .RUNNING

structure Lists (b : Barrier) : Prop where
  nodup : b.runList.Nodup
  listed : ∀ t, t ∈ b.runList ↔ b.state t ≠ .OFFLINE
  running : b.runningThreads = b.runList.countP fun t => b.state t = .RUNNING
  left : b.leftThreads = b.runList.countP fun t => b.state t = .LEFT
  le : b.runningThreads ≤ b.parallelThreads
  futex : ∀ t, b.state t = .WAITING → b.futexWord t = 1
  placed : ∀ t ∈ b.runList, b.woken t = true → b.runList[b.lastIdx t]? = some t

/-- The scan of this phase, and the ends of those before. -/
structure Phase (b : Barrier) : Prop where
  cur_le : b.curThreadIdx ≤ b.runList.length
  before : ∀ i t, i < b.curThreadIdx → b.runList[i]? = some t →
    b.state t = .LEFT ∨ b.state t = .RUNNING ∨ t ∈ b.synced
  after : ∀ i t, b.curThreadIdx ≤ i → b.runList[i]? = some t →
    b.state t ≠ .RUNNING ∧ t ∉ b.synced
  synced : ∀ t ∈ b.synced, b.state t ≠ .RUNNING
  parallel : b.synced ≠ [] → 0 < b.parallelThreads
  ends : ∀ e ∈ b.phaseEnds, Complete e.runList e.state e.synced

structure Inv (b : Barrier) : Prop where
  lists : Lists b
  phase : Phase b

/-- Nothing is left to wake, and the phase does not wait to be ended. -/
structure Settled (b : Barrier) : Prop where
  woken : b.runningThreads = b.parallelThreads ∨ b.curThreadIdx = b.runList.length
  ended : b.curThreadIdx = b.runList.length → b.runningThreads = 0 →
    ∀ t ∈ b.runList, b.state t = .LEFT

theorem Lists.update (h : Lists b) (ht : t ∈ b.runList) (hv : v ≠ .OFFLINE) {running left : Nat}
    {lastIdx futexWord : Nat → Nat} {woken : Nat → Bool}
    (hrun : running + (if b.state t = .RUNNING then 1 else 0) =
      b.runningThreads + if v = .RUNNING then 1 else 0)
    (hleft : left + (if b.state t = .LEFT then 1 else 0) =
      b.leftThreads + if v = .LEFT then 1 else 0)
    (hle : running ≤ b.parallelThreads)
    (hfutex : ∀ x, Function.update b.state t v x = .WAITING → futexWord x = 1)
    (hplaced : ∀ x ∈ b.runList, woken x = true → b.runList[lastIdx x]? = some x) :
    Lists { b with
      state := Function.update b.state t v
      runningThreads := running
      leftThreads := left
      lastIdx := lastIdx
      futexWord := futexWord
      woken := woken } := by
  constructor
  · exact h.nodup
  · intro x
    show x ∈ b.runList ↔ Function.update b.state t v x ≠ .OFFLINE
    by_cases hx : x = t
    · rw [hx, Function.update_self]
      exact ⟨fun _ => hv, fun _ => ht⟩
    · rw [Function.update_of_ne hx]
      exact h.listed x
  · have hcount := countP_update h.nodup ht b.state v .RUNNING
    rw [← h.running] at hcount
    show running = b.runList.countP fun x => Function.update b.state t v x = .RUNNING
    omega
  · have hcount := countP_update h.nodup ht b.state v .LEFT
    rw [← h.left] at hcount
    show left = b.runList.countP fun x => Function.update b.state t v x = .LEFT
    omega
  · exact hle
  · exact hfutex
  · exact hplaced

theorem Lists.congr (h : Lists b) (hp : b'.parallelThreads = b.parallelThreads)
    (hs : b'.state = b.state) (hf : b'.futexWord = b.futexWord) (hi : b'.lastIdx = b.lastIdx)
    (hl : b'.runList = b.runList) (hr : b'.runningThreads = b.runningThreads)
    (hleft : b'.leftThreads = b.leftThreads) (hw : b'.woken = b.woken) : Lists b' := by
  obtain ⟨h1, h2, h3, h4, h5, h6, h7⟩ := h
  constructor
  · rw [hl]
    exact h1
  · rw [hl, hs]
    exact h2
  · rw [hr, hl, hs]
    exact h3
  · rw [hleft, hl, hs]
    exact h4
  · rw [hr, hp]
    exact h5
  · rw [hs, hf]
    exact h6
  · rw [hl, hw, hi]
    exact h7

theorem eq_of_getElem? {l : List Nat} (hnd : l.Nodup) {i j : Nat} (hi : l[i]? = some t)
    (hj : l[j]? = some t) : i = j := by
  obtain ⟨hi', hi⟩ := List.getElem?_eq_some_iff.mp hi
  obtain ⟨hj', hj⟩ := List.getElem?_eq_some_iff.mp hj
  exact (hnd.getElem_inj_iff).mp (hi.trans hj.symm)

theorem getElem?_swap {l : List Nat} {i j x y : Nat} (hi : l[i]? = some x) (hj : l[j]? = some y)
    (k : Nat) : ((l.set i y).set j x)[k]? =
      if k = j then some x else if k = i then some y else l[k]? := by
  obtain ⟨hi', -⟩ := List.getElem?_eq_some_iff.mp hi
  obtain ⟨hj', -⟩ := List.getElem?_eq_some_iff.mp hj
  rw [List.getElem?_set, List.getElem?_set, List.length_set]
  by_cases hkj : j = k
  · rw [if_pos hkj, if_pos hj', if_pos hkj.symm]
  · rw [if_neg hkj, if_neg (Ne.symm hkj)]
    by_cases hki : i = k
    · rw [if_pos hki, if_pos hi', if_pos hki.symm]
    · rw [if_neg hki, if_neg (Ne.symm hki)]

theorem perm_swap {l : List Nat} {i j x y : Nat} (hi : l[i]? = some x) (hj : l[j]? = some y) :
    ((l.set i y).set j x).Perm l := by
  obtain ⟨hi', rfl⟩ := List.getElem?_eq_some_iff.mp hi
  obtain ⟨hj', rfl⟩ := List.getElem?_eq_some_iff.mp hj
  exact List.set_set_perm hi' hj'

theorem Lists.swap (h : Lists b) {i j : Nat} (hi : i < b.runList.length)
    (hj : j < b.runList.length) : ∃ b', b.swap i j = some b' ∧ Lists b' ∧
      (∃ x y, b.runList[i]? = some x ∧ b.runList[j]? = some y ∧
        ∀ k, b'.runList[k]? = if k = j then some x else if k = i then some y else b.runList[k]?) ∧
      b'.runList.Perm b.runList ∧
      ∃ runList lastIdx, b' = { b with runList := runList, lastIdx := lastIdx } := by
  have hx := List.getElem?_eq_getElem hi
  have hy := List.getElem?_eq_getElem hj
  set x := b.runList[i]
  set y := b.runList[j]
  have hget := getElem?_swap hx hy
  have hperm := perm_swap hx hy
  refine ⟨_, by rw [Barrier.swap, hx, Option.bind_some, hy, Option.bind_some], ?_,
    ⟨x, y, hx, hy, hget⟩, hperm, _, _, rfl⟩
  constructor
  · exact hperm.nodup_iff.mpr h.nodup
  · intro t
    exact hperm.mem_iff.trans (h.listed t)
  · exact h.running.trans (hperm.countP_eq _).symm
  · exact h.left.trans (hperm.countP_eq _).symm
  · exact h.le
  · exact h.futex
  · intro t ht hw
    show ((b.runList.set i y).set j x)[Function.update (Function.update b.lastIdx x j) y i t]? = _
    rw [hget]
    by_cases hty : t = y
    · rw [hty, Function.update_self]
      by_cases hij : i = j
      · rw [if_pos hij]
        exact congrArg some (by
          have := hx.symm.trans ((congrArg (b.runList[·]?) hij).trans hy)
          exact Option.some.inj this)
      · rw [if_neg hij, if_pos rfl]
    · rw [Function.update_of_ne hty]
      by_cases htx : t = x
      · rw [htx, Function.update_self, if_pos rfl]
      · rw [Function.update_of_ne htx]
        have hold := h.placed t (hperm.mem_iff.mp ht) hw
        rw [if_neg, if_neg, hold]
        · intro he
          rw [he, hx] at hold
          exact htx (Option.some.inj hold).symm
        · intro he
          rw [he, hy] at hold
          exact hty (Option.some.inj hold).symm

end Barrier

end ZSim
