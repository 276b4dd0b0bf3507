import ZSim.BarrierPhase
import Mathlib.Logic.Relation

/-! Threads join, leave and sync in any order. A thread that leaves before it was ever
woken has no place recorded, and may rejoin only where that does no harm. -/

namespace ZSim

namespace Barrier

variable {b b' : Barrier} {t : Nat}

/-- Thread `t` starts to wait, and the threads at either side of the scan stay there. -/
theorem Phase.join (h : Phase b) (hs : b'.state = Function.update b.state t .WAITING)
    (hsynced : b'.synced = b.synced.filter (· ≠ t))
    (hp : b'.parallelThreads = b.parallelThreads) (hends : b'.phaseEnds = b.phaseEnds)
    (hcur : b'.curThreadIdx ≤ b'.runList.length)
    (hbefore : ∀ i x, i < b'.curThreadIdx → b'.runList[i]? = some x →
      x ≠ t ∧ ∃ j < b.curThreadIdx, b.runList[j]? = some x)
    (hafter : ∀ i x, b'.curThreadIdx ≤ i → b'.runList[i]? = some x →
      x = t ∨ ∃ j, b.curThreadIdx ≤ j ∧ b.runList[j]? = some x) : Phase b' := by
  constructor
  · exact hcur
  · intro i x hi hx
    obtain ⟨hne, j, hj, hx⟩ := hbefore i x hi hx
    rw [hs, Function.update_of_ne hne, hsynced, List.mem_filter]
    refine (h.before j x hj hx).imp_right (Or.imp_right fun hm => ⟨hm, ?_⟩)
    simpa using hne
  · intro i x hi hx
    rw [hs, hsynced, List.mem_filter]
    by_cases hxt : x = t
    · rw [hxt, Function.update_self]
      simp
    · obtain ⟨j, hj, hx⟩ := (hafter i x hi hx).resolve_left hxt
      obtain ⟨hrun, hnot⟩ := h.after j x hj hx
      rw [Function.update_of_ne hxt]
      exact ⟨hrun, fun hm => hnot hm.1⟩
  · intro x hx
    rw [hsynced, List.mem_filter] at hx
    have hxt : x ≠ t := by simpa using hx.2
    rw [hs, Function.update_of_ne hxt]
    exact h.synced x hx.1
  · intro hne
    rw [hp]
    apply h.parallel
    intro he
    rw [hsynced, he] at hne
    exact hne rfl
  · rw [hends]
    exact h.ends

theorem Phase.leave (h : Phase b) (running left : Nat) :
    Phase { b.setState t .LEFT with leftThreads := left, runningThreads := running } := by
  constructor
  · exact h.cur_le
  · intro i x hi hx
    show Function.update b.state t .LEFT x = .LEFT ∨ Function.update b.state t .LEFT x = .RUNNING ∨
      x ∈ b.synced
    by_cases hxt : x = t
    · rw [hxt, Function.update_self]
      exact .inl rfl
    · rw [Function.update_of_ne hxt]
      exact h.before i x hi hx
  · intro i x hi hx
    show Function.update b.state t .LEFT x ≠ .RUNNING ∧ x ∉ b.synced
    obtain ⟨hrun, hnot⟩ := h.after i x hi hx
    by_cases hxt : x = t
    · rw [hxt, Function.update_self]
      exact ⟨by decide, hxt ▸ hnot⟩
    · rw [Function.update_of_ne hxt]
      exact ⟨hrun, hnot⟩
  · intro x hx
    show Function.update b.state t .LEFT x ≠ .RUNNING
    by_cases hxt : x = t
    · rw [hxt, Function.update_self]
      decide
    · rw [Function.update_of_ne hxt]
      exact h.synced x hx
  · exact h.parallel
  · exact h.ends

theorem Inv.sync_phase (h : Inv b) (ht : b.state t = .RUNNING) (running : Nat)
    (futexWord : Nat → Nat) :
    Phase { b.setState t .WAITING with
      futexWord := futexWord, runningThreads := running, synced := t :: b.synced } := by
  constructor
  · exact h.phase.cur_le
  · intro i x hi hx
    show Function.update b.state t .WAITING x = .LEFT ∨
      Function.update b.state t .WAITING x = .RUNNING ∨ x ∈ t :: b.synced
    by_cases hxt : x = t
    · exact .inr (.inr (hxt ▸ List.mem_cons_self))
    · rw [Function.update_of_ne hxt]
      exact (h.phase.before i x hi hx).imp_right (Or.imp_right (List.mem_cons_of_mem _))
  · intro i x hi hx
    show Function.update b.state t .WAITING x ≠ .RUNNING ∧ x ∉ t :: b.synced
    obtain ⟨hrun, hnot⟩ := h.phase.after i x hi hx
    have hxt : x ≠ t := fun he => hrun (he ▸ ht)
    rw [Function.update_of_ne hxt, List.mem_cons]
    exact ⟨hrun, fun hm => hm.elim hxt hnot⟩
  · intro x hx
    show Function.update b.state t .WAITING x ≠ .RUNNING
    by_cases hxt : x = t
    · rw [hxt, Function.update_self]
      decide
    · rw [Function.update_of_ne hxt]
      exact h.phase.synced x ((List.mem_cons.mp hx).resolve_left hxt)
  · intro _
    have hmem := (h.lists.listed t).mpr (by rw [ht]; decide)
    have hpos : 0 < b.runningThreads := by
      rw [h.lists.running, List.countP_pos_iff]
      exact ⟨t, hmem, by simpa using ht⟩
    exact Nat.lt_of_lt_of_le hpos h.lists.le
  · exact h.phase.ends

theorem Lists.futex_waiting (h : Lists b) (x : Nat)
    (hx : Function.update b.state t .WAITING x = .WAITING) :
    Function.update b.futexWord t 1 x = 1 := by
  by_cases hxt : x = t
  · rw [hxt, Function.update_self]
  · rw [Function.update_of_ne hxt] at hx ⊢
    exact h.futex x hx

theorem Lists.wait (h : Lists b) (ht : t ∈ b.runList) (hst : b.state t = .LEFT)
    (synced : List Nat) (cur : Nat) :
    Lists { b with
      state := Function.update b.state t .WAITING
      leftThreads := b.leftThreads - 1
      futexWord := Function.update b.futexWord t 1
      synced := synced
      curThreadIdx := cur } := by
  have hpos : 0 < b.leftThreads := by
    rw [h.left, List.countP_pos_iff]
    exact ⟨t, ht, by simpa using hst⟩
  have hrun : b.runningThreads + (if b.state t = .RUNNING then 1 else 0) =
      b.runningThreads + if BarrierState.WAITING = .RUNNING then 1 else 0 := by
    rw [hst]
    rfl
  have hleft : b.leftThreads - 1 + (if b.state t = .LEFT then 1 else 0) =
      b.leftThreads + if BarrierState.WAITING = .LEFT then 1 else 0 := by
    rw [if_pos hst, if_neg (by decide)]
    omega
  exact (h.update ht (by decide) hrun hleft h.le h.futex_waiting h.placed).congr rfl rfl rfl rfl
    rfl rfl rfl rfl

theorem Lists.append (h : Lists b) (hst : b.state t = .OFFLINE) (synced : List Nat) :
    Lists { b with
      runList := b.runList ++ [t]
      woken := Function.update b.woken t false
      state := Function.update b.state t .WAITING
      futexWord := Function.update b.futexWord t 1
      synced := synced } := by
  have hout : t ∉ b.runList := fun hm => (h.listed t).mp hm hst
  have hcount : ∀ c, c ≠ .WAITING →
      (b.runList ++ [t]).countP (fun x => Function.update b.state t .WAITING x = c) =
        b.runList.countP fun x => b.state x = c := by
    intro c hc
    rw [List.countP_append, List.countP_singleton, Function.update_self,
      if_neg (by simpa using Ne.symm hc), Nat.add_zero]
    apply List.countP_congr
    intro x hx
    have hxt : x ≠ t := fun he => hout (he ▸ hx)
    rw [Function.update_of_ne hxt]
  constructor
  · show (b.runList ++ [t]).Nodup
    rw [List.nodup_append]
    refine ⟨h.nodup, List.nodup_singleton t, fun x hx y hy he => ?_⟩
    rw [List.mem_singleton] at hy
    exact hout (hy ▸ he ▸ hx)
  · intro x
    show x ∈ b.runList ++ [t] ↔ Function.update b.state t .WAITING x ≠ .OFFLINE
    rw [List.mem_append, List.mem_singleton]
    by_cases hxt : x = t
    · rw [hxt, Function.update_self]
      simp
    · rw [Function.update_of_ne hxt, h.listed]
      exact or_iff_left hxt
  · exact h.running.trans (hcount .RUNNING (by decide)).symm
  · exact h.left.trans (hcount .LEFT (by decide)).symm
  · exact h.le
  · exact h.futex_waiting
  · intro x hx hw
    change Function.update b.woken t false x = true at hw
    have hxt : x ≠ t := by
      rintro rfl
      rw [Function.update_self] at hw
      cases hw
    rw [Function.update_of_ne hxt] at hw
    have hx' : x ∈ b.runList ++ [t] := hx
    rw [List.mem_append, List.mem_singleton, or_iff_left hxt] at hx'
    have hold := h.placed x hx' hw
    obtain ⟨hlt, -⟩ := List.getElem?_eq_some_iff.mp hold
    show (b.runList ++ [t])[b.lastIdx x]? = some x
    rw [List.getElem?_append_left hlt, hold]

/-- The state in which `tryWakeNext` is called by a thread that joins. -/
def startWait (b : Barrier) (t : Nat) : Barrier :=
  { b.setState t .WAITING with
    futexWord := Function.update b.futexWord t 1
    synced := b.synced.filter (· ≠ t) }

theorem Inv.append (h : Inv b) (hst : b.state t = .OFFLINE) :
    Inv (startWait { b with
      runList := b.runList ++ [t]
      woken := Function.update b.woken t false } t) := by
  have hout : t ∉ b.runList := fun hm => (h.lists.listed t).mp hm hst
  have hcur := h.phase.cur_le
  refine ⟨h.lists.append hst _, h.phase.join rfl rfl rfl rfl ?_ ?_ ?_⟩
  · show b.curThreadIdx ≤ (b.runList ++ [t]).length
    rw [List.length_append]
    omega
  · intro i x hi hx
    have hi' : i < b.curThreadIdx := hi
    have hx' : (b.runList ++ [t])[i]? = some x := hx
    rw [List.getElem?_append_left (by omega)] at hx'
    exact ⟨fun he => hout (he ▸ List.mem_of_getElem? hx'), i, hi', hx'⟩
  · intro i x hi hx
    have hx' : (b.runList ++ [t])[i]? = some x := hx
    by_cases hlt : i < b.runList.length
    · rw [List.getElem?_append_left hlt] at hx'
      exact .inr ⟨i, hi, hx'⟩
    · rw [List.getElem?_append_right (by omega), List.getElem?_singleton] at hx'
      split at hx'
      · exact .inl (Option.some.inj hx').symm
      · cases hx'

theorem swap_frame (left cur : Nat) {i j : Nat} {l : List Nat} {f : Nat → Nat}
    (h : b.swap i j = some { b with runList := l, lastIdx := f }) :
    ({ b with leftThreads := left, curThreadIdx := cur } : Barrier).swap i j =
      some { b with leftThreads := left, curThreadIdx := cur, runList := l, lastIdx := f } := by
  rw [Barrier.swap] at h ⊢
  cases hi : b.runList[i]? with
  | none =>
    rw [hi] at h
    cases h
  | some x =>
    rw [hi, Option.bind_some] at h
    cases hj : b.runList[j]? with
    | none =>
      rw [hj] at h
      cases h
    | some y =>
      rw [hj, Option.bind_some] at h
      have hl : (b.runList.set i y).set j x = l := congrArg Barrier.runList (Option.some.inj h)
      have hf : Function.update (Function.update b.lastIdx x j) y i = f :=
        congrArg Barrier.lastIdx (Option.some.inj h)
      rw [Option.bind_some, Option.bind_some, hl, hf]

/-- The recorded place of a thread that left does no harm when it rejoins. -/
def Rejoinable (b : Barrier) (t : Nat) : Prop :=
  b.runList[b.lastIdx t]? = some t ∨
    b.curThreadIdx ≤ b.lastIdx t ∧ b.curThreadIdx ≤ b.runList.idxOf t

instance : Decidable (Rejoinable b t) :=
  inferInstanceAs (Decidable (_ ∨ _))

/-- The thread rejoins at its place past the scan, or is put where the scan looks next. -/
theorem Inv.rejoin (h : Inv b) (hst : b.state t = .LEFT) (hr : Rejoinable b t) :
    ∃ b', b.rejoin t = some b' ∧ Inv (startWait b' t) ∧ b'.state = b.state := by
  have ht : t ∈ b.runList := (h.lists.listed t).mpr (by rw [hst]; decide)
  have hnd := h.lists.nodup
  rw [Barrier.rejoin]
  by_cases hlt : b.lastIdx t < b.curThreadIdx
  · have hplace : b.runList[b.lastIdx t]? = some t := hr.resolve_right (fun hge => by omega)
    have hcur := h.phase.cur_le
    obtain ⟨b', hb', hl, ⟨x, y, hx, hy, hget⟩, hperm, l, f, rfl⟩ :=
      h.lists.swap (show b.lastIdx t < b.runList.length by omega)
        (show b.curThreadIdx - 1 < b.runList.length by omega)
    obtain rfl : t = x := Option.some.inj (hplace.symm.trans hx)
    have hlast : l[b.curThreadIdx - 1]? = some t := by
      rw [show l[b.curThreadIdx - 1]? = _ from hget _, if_pos rfl]
    have hlen : l.length = b.runList.length := hperm.length_eq
    refine ⟨{ b with
      leftThreads := b.leftThreads - 1
      curThreadIdx := b.curThreadIdx - 1
      runList := l
      lastIdx := f }, ?_, ⟨hl.wait (hperm.mem_iff.mpr ht) hst _ (b.curThreadIdx - 1), ?_⟩, rfl⟩
    · have hswap := swap_frame (b.leftThreads - 1) (b.curThreadIdx - 1) hb'
      exact (if_pos hlt).trans ((if_pos hplace).trans hswap)
    · refine h.phase.join rfl rfl rfl rfl ?_ ?_ ?_
      · show b.curThreadIdx - 1 ≤ l.length
        omega
      · intro i z hi hz
        have hi' : i < b.curThreadIdx - 1 := hi
        have hz' : l[i]? = some z := hz
        refine ⟨?_, ?_⟩
        · rintro rfl
          have := eq_of_getElem? hl.nodup hz' hlast
          omega
        · rw [show l[i]? = _ from hget i, if_neg (by omega)] at hz'
          split at hz'
          · exact ⟨b.curThreadIdx - 1, by omega, hy.trans hz'⟩
          · exact ⟨i, by omega, hz'⟩
      · intro i z hi hz
        have hi' : b.curThreadIdx - 1 ≤ i := hi
        have hz' : l[i]? = some z := hz
        rw [show l[i]? = _ from hget i] at hz'
        split at hz'
        · exact .inl (Option.some.inj hz').symm
        · rw [if_neg (by omega)] at hz'
          exact .inr ⟨i, by omega, hz'⟩
  · have hfar : ∀ i, b.runList[i]? = some t → b.curThreadIdx ≤ i := by
      intro i hi
      rcases hr with hplace | ⟨-, hidx⟩
      · have := eq_of_getElem? hnd hi hplace
        omega
      · have hat : b.runList[b.runList.idxOf t]? = some t := List.getElem?_idxOf ht
        have := eq_of_getElem? hnd hi hat
        omega
    refine ⟨{ b with leftThreads := b.leftThreads - 1 }, if_neg hlt,
      ⟨h.lists.wait ht hst _ b.curThreadIdx, ?_⟩, rfl⟩
    refine h.phase.join rfl rfl rfl rfl ?_ ?_ ?_
    · exact h.phase.cur_le
    · intro i x hi hx
      refine ⟨?_, i, hi, hx⟩
      rintro rfl
      exact absurd (hfar i hx) (Nat.not_le.mpr hi)
    · intro i x hi hx
      exact .inr ⟨i, hi, hx⟩

inductive Op
  | join (tid : Nat)
  | leave (tid : Nat)
  | sync (tid : Nat)
  deriving DecidableEq

def step (rand : Nat → Nat) (b : Barrier) : Op → Option Barrier
  | .join tid => b.join rand tid
  | .leave tid => b.leave rand tid
  | .sync tid => b.sync rand tid

/-- The state preconditions of the operations. -/
def Allowed (b : Barrier) : Op → Prop
  | .join tid => b.state tid = .LEFT ∨ b.state tid = .OFFLINE
  | .leave tid => b.state tid = .RUNNING ∨ b.state tid = .WAITING
  | .sync tid => b.state tid = .RUNNING

/-- A thread that was not woken since it was put in the list rejoins only where it may. -/
def Placed (b : Barrier) : Op → Prop
  | .join tid => b.state tid = .LEFT → b.woken tid = false → Rejoinable b tid
  | _ => True

theorem joined_wait (state : Nat → BarrierState) (t x : Nat) :
    Joined (Function.update state t .WAITING) x ↔ x = t ∨ Joined state x := by
  by_cases hxt : x = t
  · rw [Joined, hxt, Function.update_self]
    simp
  · rw [Joined, Function.update_of_ne hxt]
    exact (or_iff_right hxt).symm

theorem joined_leave (state : Nat → BarrierState) (t x : Nat) :
    Joined (Function.update state t .LEFT) x ↔ Joined state x ∧ t ≠ x := by
  by_cases hxt : x = t
  · rw [Joined, hxt, Function.update_self]
    simp
  · rw [Joined, Function.update_of_ne hxt]
    exact (and_iff_left (Ne.symm hxt)).symm

theorem Inv.join (rand : Nat → Nat) (h : Inv b) (ha : Allowed b (.join t))
    (hp : Placed b (.join t)) :
    ∃ b', b.join rand t = some b' ∧ Inv b' ∧ Settled b' ∧
      ∀ x, Joined b'.state x ↔ x = t ∨ Joined b.state x := by
  rw [Barrier.join]
  rcases ha with hst | hst
  · have hr : Rejoinable b t := by
      cases hw : b.woken t with
      | false => exact hp hst hw
      | true => exact .inl (h.lists.placed t ((h.lists.listed t).mpr (by rw [hst]; decide)) hw)
    obtain ⟨b₁, hb₁, h₁, hstate⟩ := h.rejoin hst hr
    obtain ⟨b', hb', h', hs', hjoined⟩ := h₁.tryWakeNext rand
    rw [hst]
    refine ⟨b', ?_, h', hs', fun x => (hjoined x).trans ?_⟩
    · show (b.rejoin t).bind _ = some b'
      rw [hb₁]
      exact hb'
    · show Joined (Function.update b₁.state t .WAITING) x ↔ _
      rw [joined_wait, hstate]
  · obtain ⟨b', hb', h', hs', hjoined⟩ := (h.append hst).tryWakeNext rand
    rw [hst]
    exact ⟨b', hb', h', hs', fun x => (hjoined x).trans (joined_wait b.state t x)⟩

theorem Lists.stop (h : Lists b) (hst : b.state t = .RUNNING) :
    b.runningThreads - 1 + 1 = b.runningThreads ∧ t ∈ b.runList := by
  have ht : t ∈ b.runList := (h.listed t).mpr (by rw [hst]; decide)
  have hpos : 0 < b.runningThreads := by
    rw [h.running, List.countP_pos_iff]
    exact ⟨t, ht, by simpa using hst⟩
  exact ⟨by omega, ht⟩

theorem Lists.futex_leave (h : Lists b) (x : Nat)
    (hx : Function.update b.state t .LEFT x = .WAITING) : b.futexWord x = 1 := by
  by_cases hxt : x = t
  · rw [hxt, Function.update_self] at hx
    cases hx
  · rw [Function.update_of_ne hxt] at hx
    exact h.futex x hx

theorem Inv.leave (rand : Nat → Nat) (h : Inv b) (hs : Settled b) (ha : Allowed b (.leave t)) :
    ∃ b', b.leave rand t = some b' ∧ Inv b' ∧ Settled b' ∧
      ∀ x, Joined b'.state x ↔ Joined b.state x ∧ t ≠ x := by
  rw [Barrier.leave]
  rcases ha with hst | hst
  · obtain ⟨hone, ht⟩ := h.lists.stop hst
    have hrun : b.runningThreads - 1 + (if b.state t = .RUNNING then 1 else 0) =
        b.runningThreads + if BarrierState.LEFT = .RUNNING then 1 else 0 := by
      rw [if_pos hst, if_neg (by decide), hone]
      rfl
    have hleft : b.leftThreads + 1 + (if b.state t = .LEFT then 1 else 0) =
        b.leftThreads + if BarrierState.LEFT = .LEFT then 1 else 0 := by
      rw [hst]
      rfl
    have hle : b.runningThreads - 1 ≤ b.parallelThreads := by
      have := h.lists.le
      omega
    have hl := h.lists.update ht (by decide) hrun hleft hle h.lists.futex_leave h.lists.placed
    obtain ⟨b', hb', h', hs', hjoined⟩ := Inv.tryWakeNext rand ⟨hl, h.phase.leave _ _⟩
    rw [hst]
    exact ⟨b', hb', h', hs', fun x => (hjoined x).trans (joined_leave b.state t x)⟩
  · have ht : t ∈ b.runList := (h.lists.listed t).mpr (by rw [hst]; decide)
    have hrun : b.runningThreads + (if b.state t = .RUNNING then 1 else 0) =
        b.runningThreads + if BarrierState.LEFT = .RUNNING then 1 else 0 := by
      rw [hst]
      rfl
    have hleft : b.leftThreads + 1 + (if b.state t = .LEFT then 1 else 0) =
        b.leftThreads + if BarrierState.LEFT = .LEFT then 1 else 0 := by
      rw [hst]
      rfl
    have hl := h.lists.update ht (by decide) hrun hleft h.lists.le h.lists.futex_leave
      h.lists.placed
    rw [hst]
    refine ⟨_, rfl, ⟨hl, h.phase.leave _ _⟩, ⟨hs.woken, ?_⟩, joined_leave b.state t⟩
    intro hcur hzero x hx
    show Function.update b.state t .LEFT x = .LEFT
    by_cases hxt : x = t
    · rw [hxt, Function.update_self]
    · rw [Function.update_of_ne hxt]
      exact hs.ended hcur hzero x hx

theorem Inv.sync (rand : Nat → Nat) (h : Inv b) (ha : Allowed b (.sync t)) :
    ∃ b', b.sync rand t = some b' ∧ Inv b' ∧ Settled b' ∧
      ∀ x, Joined b'.state x ↔ Joined b.state x := by
  have hst : b.state t = .RUNNING := ha
  obtain ⟨hone, ht⟩ := h.lists.stop hst
  have hrun : b.runningThreads - 1 + (if b.state t = .RUNNING then 1 else 0) =
      b.runningThreads + if BarrierState.WAITING = .RUNNING then 1 else 0 := by
    rw [if_pos hst, if_neg (by decide), hone]
    rfl
  have hleft : b.leftThreads + (if b.state t = .LEFT then 1 else 0) =
      b.leftThreads + if BarrierState.WAITING = .LEFT then 1 else 0 := by
    rw [hst]
    rfl
  have hle : b.runningThreads - 1 ≤ b.parallelThreads := by
    have := h.lists.le
    omega
  have hl := h.lists.update ht (by decide) hrun hleft hle h.lists.futex_waiting h.lists.placed
  have hinv : Inv { b.setState t .WAITING with
      futexWord := Function.update b.futexWord t 1
      runningThreads := b.runningThreads - 1
      synced := t :: b.synced } :=
    ⟨hl.congr rfl rfl rfl rfl rfl rfl rfl rfl, h.sync_phase hst _ _⟩
  obtain ⟨b', hb', h', hs', hjoined⟩ := hinv.tryWakeNext rand
  rw [Barrier.sync, hst]
  refine ⟨b', hb', h', hs', fun x => (hjoined x).trans ?_⟩
  show Joined (Function.update b.state t .WAITING) x ↔ _
  rw [joined_wait, or_iff_right_of_imp]
  rintro rfl
  exact .inr hst

/-- No operation that its precondition allows fails an assert; it changes who takes part in
the barrier as its name says, and in no other way. -/
theorem Inv.step (rand : Nat → Nat) (h : Inv b) (hs : Settled b) {op : Op} (ha : Allowed b op)
    (hp : Placed b op) :
    ∃ b', b.step rand op = some b' ∧ Inv b' ∧ Settled b' ∧
      ∀ x, Joined b'.state x ↔ op = .join x ∨ Joined b.state x ∧ op ≠ .leave x := by
  cases op with
  | join tid =>
    obtain ⟨b', hb', h', hs', hjoined⟩ := h.join rand ha hp
    refine ⟨b', hb', h', hs', fun x => (hjoined x).trans ?_⟩
    simp [eq_comm]
  | leave tid =>
    obtain ⟨b', hb', h', hs', hjoined⟩ := h.leave rand hs ha
    refine ⟨b', hb', h', hs', fun x => (hjoined x).trans ?_⟩
    simp
  | sync tid =>
    obtain ⟨b', hb', h', hs', hjoined⟩ := h.sync rand ha
    refine ⟨b', hb', h', hs', fun x => (hjoined x).trans ?_⟩
    simp

/-- The barriers reached by runs whose operations all meet `ok`. -/
inductive Reachable (ok : Barrier → Op → Prop) (parallelThreads : Nat) : Barrier → Prop
  | init (lastIdx : Nat → Nat) : Reachable ok parallelThreads (init parallelThreads lastIdx)
  | step {b b' : Barrier} (h : Reachable ok parallelThreads b) (rand : Nat → Nat) (op : Op)
      (ha : Allowed b op) (hok : ok b op) (hstep : b.step rand op = some b') :
      Reachable ok parallelThreads b'

theorem Reachable.inv {parallelThreads : Nat} (h : Reachable Placed parallelThreads b) :
    Inv b ∧ Settled b := by
  induction h with
  | init lastIdx =>
    refine ⟨⟨?_, ?_⟩, .inr rfl, ?_⟩
    · constructor <;> simp [Barrier.init]
    · constructor <;> simp [Barrier.init]
    · simp [Barrier.init]
  | step _ _ _ ha hok hstep ih =>
    obtain ⟨b₁, hb₁, h₁, hs₁, -⟩ := ih.1.step _ ih.2 ha hok
    rw [hstep] at hb₁
    cases hb₁
    exact ⟨h₁, hs₁⟩

/-- The coherence of the list, the counters and the phase. -/
structure Coherent (b : Barrier) : Prop where
  distinct : b.runList.Nodup
  live : ∀ t, t ∈ b.runList ↔ b.state t ≠ .OFFLINE
  running : b.runningThreads = b.runList.countP fun t => b.state t = .RUNNING
  running_le : b.runningThreads ≤ b.parallelThreads
  left : b.leftThreads = b.runList.countP fun t => b.state t = .LEFT
  located : ∀ t ∈ b.runList, b.woken t = true → b.runList[b.lastIdx t]? = some t
  ended_complete : ∀ e ∈ b.phaseEnds, Complete e.runList e.state e.synced
  complete_ended : ¬ Complete b.runList b.state b.synced

theorem Inv.not_complete (h : Inv b) (hs : Settled b) :
    ¬ Complete b.runList b.state b.synced := by
  rintro ⟨⟨t, ht, hstay⟩, hall⟩
  have hsynced := (hall t ht).resolve_left hstay
  have hpar := h.phase.parallel (List.ne_nil_of_mem hsynced)
  have hzero : b.runningThreads = 0 := by
    rw [h.lists.running, List.countP_eq_zero]
    intro x hx
    rcases hall x hx with hleft | hin
    · simp [hleft]
    · simpa using h.phase.synced x hin
  rcases hs.woken with hrun | hcur
  · omega
  · exact hstay (hs.ended hcur hzero t ht)

/-- In every run, the barrier is coherent and no assert fails, if no thread rejoins after it
left unwoken from a place that its stale record does not fit. -/
theorem reachable_coherent {parallelThreads : Nat} (h : Reachable Placed parallelThreads b) :
    Coherent b ∧ ∀ rand op, Allowed b op → Placed b op → ∃ b', b.step rand op = some b' ∧
      ∀ t, Joined b'.state t ↔ op = .join t ∨ Joined b.state t ∧ op ≠ .leave t := by
  obtain ⟨hinv, hs⟩ := h.inv
  constructor
  · exact ⟨hinv.lists.nodup, hinv.lists.listed, hinv.lists.running, hinv.lists.le,
      hinv.lists.left, hinv.lists.placed, hinv.phase.ends, hinv.not_complete hs⟩
  · intro rand op ha hp
    obtain ⟨b', hb', -, -, hjoined⟩ := hinv.step rand hs ha hp
    exact ⟨b', hb', hjoined⟩

/-- Thread 0 joins and runs, and ends two phases; thread 1 comes and goes. -/
theorem reachable_coherent_leave : ∃ b, Reachable Placed 1 b ∧ b.phaseEnds.length = 2 ∧
    b.state 1 = .WAITING ∧ Coherent b := by
  have h₀ : Reachable Placed 1 (init 1 fun _ => 0) := .init _
  have h₁ := h₀.step id (.join 0) (.inr rfl) (fun h => by cases h) rfl
  have h₂ := h₁.step id (.join 1) (.inr rfl) (fun h => by cases h) rfl
  have h₃ := h₂.step id (.leave 1) (.inr rfl) trivial rfl
  have h₄ := h₃.step id (.sync 0) rfl trivial rfl
  have h₅ := h₄.step id (.join 1) (.inr rfl) (fun h => by cases h) rfl
  have h₆ := h₅.step id (.sync 0) rfl trivial rfl
  have h₇ := h₆.step id (.sync 1) rfl trivial rfl
  exact ⟨_, h₇, by decide, by decide, (reachable_coherent h₇).1⟩

/-- Thread 0 joins and runs. Thread 1 joins, leaves before it was woken, and joins again. -/
theorem reachable_join_fails :
    ∃ b, Reachable (fun _ _ => True) 1 b ∧ Allowed b (.join 1) ∧
      ∀ rand, b.step rand (.join 1) = none := by
  have h₀ : Reachable (fun _ _ => True) 1 (init 1 fun _ => 0) := .init _
  have h₁ := h₀.step id (.join 0) (.inr rfl) trivial rfl
  have h₂ := h₁.step id (.join 1) (.inr rfl) trivial rfl
  have h₃ := h₂.step id (.leave 1) (.inr rfl) trivial rfl
  exact ⟨_, h₃, .inl rfl, fun _ => rfl⟩

end Barrier

end ZSim
