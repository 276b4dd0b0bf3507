import Mathlib.Algebra.Ring.Nat
import ZSim.CacheLockOrder

/-! Runs of many threads through the memory hierarchy: no lock is held twice, no thread blocks
another for good, and every access and every invalidation comes to an end. -/

namespace ZSim

open LockProgram

namespace MemGraph

variable {N : Type} (g : MemGraph N)

/-- A bound on the steps of an invalidation of `n`. -/
def invCost (n : N) : Nat :=
  5 + ((g.children n).attach.map fun k => 1 + invCost k.1).sum
termination_by g.height n
decreasing_by exact g.child_lt k.2

/-- A bound on the steps of `sendInvalidates` to `ks`. -/
def sendCost (ks : List N) : Nat :=
  (ks.map fun k => 1 + g.invCost k).sum

/-- A bound on the steps of an access to `n`. A prefetcher calls its parent three times. -/
def accessCost (n : N) : Nat :=
  11 + 2 * g.sendCost (g.children n) +
    3 * (1 + ((g.parents n).attach.map fun p => accessCost p.1).sum)
termination_by g.depth - g.height n
decreasing_by
  have hlt := g.parent_lt p.2
  have hle := g.height_le p.1
  omega

/-- A bound on the steps of a call of the parent. -/
def upCost (n : N) : Nat :=
  1 + ((g.parents n).map g.accessCost).sum

def accessPtCost (n : N) : AccessPt N → Nat
  | .unlockChild => 11 + 2 * g.sendCost (g.children n) + 2 * g.upCost n
  | .lockTcc => 10 + 2 * g.sendCost (g.children n) + 2 * g.upCost n
  | .lockBcc => 9 + 2 * g.sendCost (g.children n) + 2 * g.upCost n
  | .lookup => 8 + 2 * g.sendCost (g.children n) + 2 * g.upCost n
  | .evictInv ks => 7 + g.sendCost ks + g.sendCost (g.children n) + 2 * g.upCost n
  | .evictPut => 6 + g.sendCost (g.children n) + 2 * g.upCost n
  | .get | .putting => 6 + g.sendCost (g.children n) + g.upCost n
  | .getting => 6 + g.sendCost (g.children n)
  | .accessInv ks => 6 + g.sendCost ks
  | .relockChild => 5
  | .unlockBcc => 4
  | .unlockTcc => 3
  | .lockTrace => 2
  | .unlockTrace => 1

def invPtCost (n : N) : InvPt N → Nat
  | .lockBcc => 5 + g.sendCost (g.children n)
  | .lockFilter => 4 + g.sendCost (g.children n)
  | .send ks => 3 + g.sendCost ks
  | .unlockBcc => 2
  | .unlockFilter => 1

def frameCost : MemFrame N → Nat
  | .replace n .lock => 3 + g.accessCost n
  | .replace n .call => 2 + g.accessCost n
  | .replace _ .calling | .replace _ .unlock => 1
  | .contextSwitch _ .unlock => 1
  | .contextSwitch _ _ => 2
  | .access n _ pt => g.accessPtCost n pt
  | .prefetch n _ left _ => left * g.upCost n + 1
  | .memory _ _ .start => 3
  | .memory _ _ .lock => 2
  | .memory _ _ .unlock => 1
  | .invalidate n pt => g.invPtCost n pt

/-- A bound on the steps that a thread with these calls has still to do. -/
def stackCost (fs : MemStack N) : Nat :=
  (fs.map g.frameCost).sum

variable {g} {n k p : N} {ks : List N} {l : Option (MemLock N)} {fs fs' : MemStack N}

theorem invCost_eq (n : N) : g.invCost n = 5 + g.sendCost (g.children n) := by
  rw [invCost, sendCost]
  congr 2
  exact List.attach_map_val (f := fun k => 1 + g.invCost k)

theorem accessCost_eq (n : N) :
    g.accessCost n = 11 + 2 * g.sendCost (g.children n) + 3 * g.upCost n := by
  rw [accessCost, upCost]
  congr 4
  exact List.attach_map_val (f := fun p => g.accessCost p)

@[simp] theorem sendCost_cons : g.sendCost (k :: ks) = 1 + g.invCost k + g.sendCost ks := rfl

@[simp] theorem sendCost_nil : g.sendCost [] = 0 := rfl

@[simp] theorem stackCost_cons (f : MemFrame N) :
    g.stackCost (f :: fs) = g.frameCost f + g.stackCost fs := rfl

theorem invCost_lt_sendCost (hk : k ∈ ks) : g.invCost k < g.sendCost ks := by
  have hle := List.single_le_sum (by simp) _
    (List.mem_map_of_mem (f := fun k => 1 + g.invCost k) hk)
  simp only [sendCost]
  omega

theorem accessCost_lt_upCost (hp : p ∈ g.parents n) : g.accessCost p < g.upCost n := by
  have hle := List.single_le_sum (by simp) _ (List.mem_map_of_mem (f := g.accessCost) hp)
  simp only [upCost]
  omega

theorem frameCost_access_le (n : N) (l : Option (MemLock N)) :
    g.frameCost (g.access n l) ≤ g.accessCost n := by
  rw [accessCost_eq]
  unfold access
  split <;> simp only [frameCost, accessPtCost] <;> omega

theorem stackCost_returned (fs : MemStack N) : g.stackCost (g.returned fs) = g.stackCost fs := by
  fun_cases returned g fs <;> simp [frameCost, accessPtCost]

@[simp] theorem next_goes {P : MemStack N → Prop} : (goes P).Next fs' ↔ P fs' := by
  simp [goes]

theorem frameCost_invalidate (k : N) : g.frameCost (.invalidate k .lockBcc) = g.invCost k :=
  (invCost_eq k).symm

theorem frameCost_up_lt (hp : p ∈ g.parents n) (l : Option (MemLock N)) :
    g.frameCost (g.access p l) < g.upCost n :=
  (frameCost_access_le p l).trans_lt (accessCost_lt_upCost hp)

theorem upCost_pos (g : MemGraph N) (n : N) : 0 < g.upCost n := by
  simp only [upCost]
  omega

theorem accessInstr_cost_lt {pt : AccessPt N} (h : (g.accessInstr n l fs pt).Next fs') :
    g.stackCost fs' < g.stackCost (.access n l pt :: fs) := by
  have hup := g.upCost_pos n
  have hcall : ∀ p ∈ g.parents n, g.frameCost (g.access p (some (.bcc n))) < g.upCost n :=
    fun p hp => frameCost_up_lt hp _
  revert h
  fun_cases accessInstr g n l fs pt <;> simp only [next_goes, Instr.next_lock, Instr.next_unlock] <;>
    grind [stackCost_cons, stackCost_returned, sendCost_nil, sendCost_cons, frameCost, accessPtCost,
      frameCost_invalidate]

theorem invalidateInstr_cost_lt {pt : InvPt N} (h : (g.invalidateInstr n fs pt).Next fs') :
    g.stackCost fs' < g.stackCost (.invalidate n pt :: fs) := by
  have hcall : ∀ k ∈ g.children n, g.invCost k < g.sendCost (g.children n) :=
    fun k hk => invCost_lt_sendCost hk
  revert h
  fun_cases invalidateInstr g n fs pt <;>
    simp only [next_goes, Instr.next_lock, Instr.next_unlock] <;>
    grind [stackCost_cons, sendCost_nil, sendCost_cons, frameCost, invPtCost, frameCost_invalidate]

/-- Every step of a call takes some of the work that is left. -/
theorem instr_cost_lt (hbusy : fs ≠ []) (h : (g.instr fs).Next fs') :
    g.stackCost fs' < g.stackCost fs := by
  cases fs with
  | nil => exact (hbusy rfl).elim
  | cons f fs =>
    cases f with
    | replace n pt =>
      have hcost := accessCost_eq (g := g) n
      cases pt <;> simp only [instr, next_goes, Instr.next_lock, Instr.next_unlock] at h <;>
        subst h <;> simp only [stackCost_cons, frameCost, accessPtCost] <;> omega
    | contextSwitch n pt =>
      cases pt <;> simp only [instr, next_goes, Instr.next_lock, Instr.next_unlock] at h <;>
        subst h <;> simp [frameCost]
    | access n l pt => exact accessInstr_cost_lt h
    | prefetch n l left calling =>
      cases calling with
      | true => exact (next_goes.mp h).elim
      | false =>
        rcases next_goes.mp h with ⟨_, rfl⟩ | ⟨left', p, rfl, hp, rfl⟩
        · simp [stackCost_returned, frameCost]
        · have hlt := frameCost_up_lt hp l
          have hcost : ∀ m b, g.frameCost (.prefetch n l m b) = m * g.upCost n + 1 :=
            fun _ _ => rfl
          rw [stackCost_cons, stackCost_cons, stackCost_cons, hcost, hcost, Nat.succ_mul]
          omega
    | memory n l pt =>
      cases pt with
      | start => rcases next_goes.mp h with rfl | rfl <;> simp [stackCost_returned, frameCost]
      | lock =>
        cases h
        simp [frameCost]
      | unlock =>
        cases h
        simp [stackCost_returned, frameCost]
    | invalidate n pt => exact invalidateInstr_cost_lt h

variable {T : Type}

abbrev LockState (T N : Type) := State T (MemLock N) Unit (MemStack N)

/-- No thread is in a call. -/
def LockState.init (T N : Type) : LockState T N where
  data := ()
  place := fun _ => []
  taken := fun _ => false

theorem inv_init (g : MemGraph N) : (g.lockOrder T).Inv (LockState.init T N) :=
  .init (fun _ => .nil) (fun _ => rfl) (fun _ => rfl)

theorem costs (g : MemGraph N) : (g.lockOrder T).Costs g.stackCost :=
  fun _ _ _ hbusy hnext => instr_cost_lt hbusy hnext

variable [DecidableEq T] [DecidableEq N]

/-- One object of each kind, from a core to a memory. -/
def chain : MemGraph MemKind where
  kind n := n
  children
    | .filterCache => []
    | .cache => [.filterCache]
    | .prefetcher => [.cache]
    | .tracingCache => [.prefetcher]
    | .memory => [.tracingCache]
  parents
    | .filterCache => [.cache]
    | .cache => [.prefetcher]
    | .prefetcher => [.tracingCache]
    | .tracingCache => [.memory]
    | .memory => []
  height
    | .filterCache => 0
    | .cache => 1
    | .prefetcher => 2
    | .tracingCache => 3
    | .memory => 4
  depth := 4
  height_le n := by cases n <;> decide
  child_lt {n k} h := by cases n <;> simp_all
  parent_lt {n p} h := by cases n <;> simp_all
  terminal {n} h := by cases n <;> simp_all
  prefetcher_parent {n} h := by cases n <;> simp_all
  prefetcher_child {n} h := by cases n <;> simp_all

/-- A core whose miss in the filter cache has got to the cache above. -/
def missing : MemStack MemKind :=
  [.access .cache (some (.bcc .filterCache)) .lockBcc,
    .access .filterCache (some (.filter .filterCache)) .getting, .replace .filterCache .calling]

/-- Another core that switches the filter cache to another context. -/
def switching : MemStack MemKind := [.contextSwitch .filterCache .unlock]

theorem chain_run : ∃ s, FutexReachable (fun _ : Bool => chain.instr) (LockState.init Bool MemKind)
    (.init s) ∧ s.place true = missing ∧ s.place false = switching := by
  have h₀ : FutexReachable (fun _ : Bool => chain.instr) (LockState.init Bool MemKind)
    (.init (LockState.init Bool MemKind)) := .refl
  have h₁ := h₀.act (t := true) (d := ()) (p := [.replace .filterCache .lock]) rfl
    (.inl ⟨.filterCache, rfl, .inl rfl⟩)
  have h₂ := h₁.lock (t := true) rfl rfl
  have h₃ := h₂.act (t := true) (d := ()) rfl rfl
  have h₄ := h₃.unlock (t := true) rfl rfl
  have h₅ := h₄.act (t := true) (d := ()) rfl rfl
  have h₆ := h₅.lock (t := true) rfl rfl
  have h₇ := h₆.act (t := true) (d := ()) rfl (.inr (.inl rfl))
  have h₈ := h₇.act (t := true) (d := ()) rfl (.inr ⟨.cache, List.mem_singleton_self _, rfl⟩)
  have h₉ := h₈.unlock (t := true) rfl rfl
  have h₁₀ := h₉.lock (t := true) rfl rfl
  have h₁₁ := h₁₀.act (t := false) (d := ()) (p := [.contextSwitch .filterCache .lock]) rfl
    (.inl ⟨.filterCache, rfl, .inr rfl⟩)
  have h₁₂ := h₁₁.lock (t := false) rfl rfl
  exact ⟨_, h₁₂, rfl, rfl⟩

/-- In every run over the futex locks, a lock word is other than 0 exactly while some call holds
the lock, and no two threads hold one lock. -/
theorem hierarchy_locks_exclusive {c : FutexConf T (MemLock N) Unit (MemStack N)}
    (h : FutexReachable (fun _ => g.instr) (LockState.init T N) c) :
    (∀ i, c.word i ≠ 0#32 ↔ ∃ t, i ∈ g.held (c.place t)) ∧
      ∀ t u i, i ∈ g.held (c.place t) → i ∈ g.held (c.place u) → t = u := by
  have hreach := (h.inv (LockOrder.sound (inv_init g))).1
  have hinv := LockOrder.Inv.reachable (inv_init g) hreach
  refine ⟨fun i => ?_, hinv.unique⟩
  have htaken : c.abs.taken i = true ↔ ∃ t, i ∈ g.held (c.place t) := hinv.taken i
  simpa [FutexConf.abs] using htaken

theorem hierarchy_locks_exclusive_chain : ∃ c : FutexConf Bool (MemLock MemKind) Unit _,
    c.place true = missing ∧ c.place false = switching ∧
    (∀ i, c.word i ≠ 0#32 ↔ ∃ t, i ∈ chain.held (c.place t)) ∧
      ∀ t u i, i ∈ chain.held (c.place t) → i ∈ chain.held (c.place u) → t = u := by
  obtain ⟨s, h, hmiss, hswitch⟩ := chain_run
  exact ⟨_, hmiss, hswitch, hierarchy_locks_exclusive h⟩

/-- In every run over the futex locks, as long as some thread is in a call, a call goes on. -/
theorem hierarchy_locks_deadlock_free {c : FutexConf T (MemLock N) Unit (MemStack N)} {t : T}
    (h : FutexReachable (fun _ => g.instr) (LockState.init T N) c) (ht : c.place t ≠ []) :
    Progress (fun _ => g.instr) (fun u => c.place u ≠ []) c := by
  have hsound := LockOrder.sound (inv_init (T := T) g)
  have hreach := (h.inv hsound).1
  have hinv := LockOrder.Inv.reachable (inv_init g) hreach
  obtain ⟨u, hu, hcan⟩ := hinv.deadlock_free ht
  refine (futex_progress hsound h hcan).mono ?_
  rintro v (rfl | ⟨i, _, hv⟩)
  · exact hu
  · rcases hv with ⟨p, hp⟩ | ⟨p, q, hp⟩
    · exact (g.lockOrder T).not_idle (t := v) hp
    · exact (instr_ne_tryLock _ _ _ hp).elim

theorem hierarchy_locks_deadlock_free_chain : ∃ c : FutexConf Bool (MemLock MemKind) Unit _,
    c.place true = missing ∧ c.place false = switching ∧
    Progress (fun _ => chain.instr) (fun u => c.place u ≠ []) c := by
  obtain ⟨s, h, hmiss, hswitch⟩ := chain_run
  refine ⟨_, hmiss, hswitch, hierarchy_locks_deadlock_free (t := true) h ?_⟩
  show s.place true ≠ []
  rw [hmiss]
  exact List.cons_ne_nil _ _

/-- Every access and every invalidation comes to an end: while no thread starts anew, no run is
longer than the work that is left, and a run that does all of it is always there. -/
theorem hierarchy_drains [Fintype T] {s : LockState T N}
    (h : Reachable (fun _ => g.instr) (LockState.init T N) s) :
    (∀ n s', (g.lockOrder T).BusyRun s n s' → n ≤ ∑ t, g.stackCost (s.place t)) ∧
      ∃ n s', (g.lockOrder T).BusyRun s n s' ∧ ∀ t, s'.place t = [] :=
  (LockOrder.Inv.reachable (inv_init g) h).drains (costs g)

theorem hierarchy_drains_chain : ∃ s : LockState Bool MemKind,
    s.place true = missing ∧ s.place false = switching ∧
    (∀ n s', (chain.lockOrder Bool).BusyRun s n s' → n ≤ ∑ t, chain.stackCost (s.place t)) ∧
      ∃ n s', (chain.lockOrder Bool).BusyRun s n s' ∧ ∀ t, s'.place t = [] := by
  obtain ⟨s, h, hmiss, hswitch⟩ := chain_run
  have hreach := (h.inv (LockOrder.sound (inv_init chain))).1
  rw [FutexConf.abs_init] at hreach
  exact ⟨s, hmiss, hswitch, hierarchy_drains hreach⟩

end MemGraph

end ZSim
