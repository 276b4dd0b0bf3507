import ZSim.FutexLock

/-! The futex locks against atomic ones: a program that never gives back a free lock is in the
states that it can be in with atomic locks. -/

namespace ZSim

open LockProgram

variable {T ι σ π : Type} {prog : T → π → Instr ι σ π} {s₀ : State T ι σ π}
variable {c c' : FutexConf T ι σ π} {t u : T} {i : ι} {p q : π}

/-- In `futex_lock` or one of its variants. -/
def FutexPc.Locking : FutexPc → Prop
  | .add | .store | .wake => False
  | _ => True

/-- What a call is at work on, from the place of its thread. Only the wakeup comes after the
lock has been given back. -/
inductive FutexCallOk (prog : T → π → Instr ι σ π) (t : T) (at_ : π) : FutexCall ι → Prop
  | lock {fn : FutexFn} {i : ι} {pc : FutexPc} {p : π} : fn.IsLock → pc.Locking →
      prog t at_ = .lock i p → FutexCallOk prog t at_ ⟨fn, i, pc⟩
  | tryLock {i : ι} {pc : FutexPc} {p q : π} : pc.Locking → prog t at_ = .tryLock i p q →
      FutexCallOk prog t at_ ⟨.futex_trylock_nospin_timeout, i, pc⟩
  | unlock {i : ι} {pc : FutexPc} {p : π} : pc = .add ∨ pc = .store →
      prog t at_ = .unlock i p → FutexCallOk prog t at_ ⟨.futex_unlock, i, pc⟩
  | wake {i : ι} : FutexCallOk prog t at_ ⟨.futex_unlock, i, .wake⟩

def FutexCallsOk (prog : T → π → Instr ι σ π) (c : FutexConf T ι σ π) : Prop :=
  ∀ t k, c.call t = some k → FutexCallOk prog t (c.place t) k

theorem FutexPc.retry_locking (n : Nat) : (FutexPc.retry n).Locking := by
  cases n <;> trivial

section exec

variable {fn : FutexFn} {w w' : BitVec 32} {pc pc' : FutexPc} {o : Option FutexPc}

/-- A step that stays in the call leaves the lock as it is, taken or free. -/
theorem futexExec_go (h : futexExec fn w pc = (w', .go pc')) (hadd : pc = .add → w ≠ 0#32) :
    w' = 0#32 ↔ w = 0#32 := by
  cases pc <;> grind [futexExec]

theorem futexExec_acquired (h : futexExec fn w pc = (w', .acquired)) :
    w = 0#32 ∧ (w' = 1#32 ∨ w' = 2#32) := by
  cases pc <;> grind [futexExec]

theorem futexExec_failed (h : futexExec fn w pc = (w', .failed)) :
    pc = .swapAgain ∧ w ≠ 0#32 ∧ w' = 2#32 := by
  cases pc <;> grind [futexExec]

theorem futexExec_released (h : futexExec fn w pc = (w', .released o)) :
    w' = 0#32 ∧ ((pc = .add ∧ w = 1#32 ∧ o = none) ∨ (pc = .store ∧ o = some .wake)) := by
  cases pc <;> grind [futexExec]

/-- The code of a lock goes on in itself, that of an unlock from the addition to the store. -/
theorem futexExec_go_pc (h : futexExec fn w pc = (w', .go pc')) :
    (pc.Locking → pc'.Locking) ∧ (pc = .add → pc' = .store) ∧ pc ≠ .store ∧ pc ≠ .wake := by
  cases pc <;> grind [futexExec, FutexPc.Locking, FutexPc.retry_locking]

end exec

theorem FutexCallOk.go {k : FutexCall ι} {w : BitVec 32} {pc : FutexPc}
    (h : FutexCallOk prog t p k) (hk : futexExec k.fn (c.word k.lock) k.pc = (w, .go pc)) :
    FutexCallOk prog t p { k with pc } := by
  obtain ⟨hlocking, hadd, hstore, hwake⟩ := futexExec_go_pc hk
  cases h with
  | lock hfn hpc hprog => exact .lock hfn (hlocking hpc) hprog
  | tryLock hpc hprog => exact .tryLock (hlocking hpc) hprog
  | unlock hpc hprog => exact .unlock (.inr (hadd (hpc.resolve_right hstore))) hprog
  | wake => exact (hwake rfl).elim

theorem FutexCallsOk.init : FutexCallsOk prog (.init s₀) := by
  intro t k h
  simp [FutexConf.init] at h

/-- A thread that has not yet given the lock back is at the instruction that does. -/
theorem FutexCallsOk.unlock (h : FutexCallsOk prog c) {k : FutexCall ι} (hk : c.call t = some k)
    (hpc : k.pc = .add ∨ k.pc = .store) : ∃ p, prog t (c.place t) = .unlock k.lock p := by
  have hok := h t k hk
  cases hok with
  | lock _ hl => rcases hpc with rfl | rfl <;> exact hl.elim
  | tryLock hl => rcases hpc with rfl | rfl <;> exact hl.elim
  | unlock _ hprog => exact ⟨_, hprog⟩
  | wake => simp at hpc

section calls

variable [DecidableEq T] {k : Option (FutexCall ι)}

theorem FutexCallsOk.goto (h : FutexCallsOk prog c)
    (hplace : c'.place = Function.update c.place t p)
    (hcall : c'.call = Function.update c.call t k)
    (hk : ∀ k', k = some k' → FutexCallOk prog t p k') : FutexCallsOk prog c' := by
  intro u k' hu
  by_cases hut : u = t
  · subst hut
    simp only [hcall, hplace, Function.update_self] at hu ⊢
    exact hk k' hu
  · simp only [hcall, hplace, Function.update_of_ne hut] at hu ⊢
    exact h u k' hu

theorem FutexCallsOk.setCall (h : FutexCallsOk prog c) (hplace : c'.place = c.place)
    (hcall : c'.call = Function.update c.call t k)
    (hk : ∀ k', k = some k' → FutexCallOk prog t (c.place t) k') : FutexCallsOk prog c' := by
  exact h.goto (p := c.place t) (by simp [hplace]) hcall hk

end calls

variable [DecidableEq T] [DecidableEq ι]

theorem FutexCallsOk.step (h : FutexCallsOk prog c) (hs : FutexStep prog t c c') :
    FutexCallsOk prog c' := by
  cases hs with
  | lock hcall hprog hfn =>
    refine h.setCall rfl rfl ?_
    rintro k' ⟨⟩
    exact .lock hfn (FutexPc.retry_locking _) hprog
  | tryLock hcall hprog =>
    refine h.setCall rfl rfl ?_
    rintro k' ⟨⟩
    exact .tryLock trivial hprog
  | unlock hcall hprog =>
    refine h.setCall rfl rfl ?_
    rintro k' ⟨⟩
    exact .unlock (.inl rfl) hprog
  | act hcall hprog hr => exact h.goto (k := none) rfl (by simp [← hcall]) (by simp)
  | go hcall hexec =>
    refine h.setCall rfl rfl ?_
    rintro k' ⟨⟩
    exact (h t _ hcall).go hexec
  | acquired hcall hexec hprog => exact h.goto rfl rfl (by simp)
  | failed hcall hexec hprog => exact h.goto rfl rfl (by simp)
  | @released k w pc p hcall hexec hprog =>
    refine h.goto rfl rfl ?_
    intro k' hk'
    obtain ⟨_, ⟨_, _, hpc⟩ | ⟨hstore, hpc⟩⟩ := futexExec_released hexec
    · simp [hpc] at hk'
    · have hok := h t k hcall
      obtain ⟨fn, i, pc'⟩ := k
      subst hpc
      cases hstore
      simp only [Option.map_some, Option.some.injEq] at hk'
      subst hk'
      cases hok with
      | lock _ hpc => exact hpc.elim
      | tryLock hpc => exact hpc.elim
      | unlock => exact .wake
  | @woken k fn u hcall hpc hu =>
    have hok : FutexCallsOk prog (c.setCall u (some ⟨fn, k.lock, .swapAgain⟩)) := by
      refine h.setCall rfl rfl ?_
      rintro k' ⟨⟩
      cases h u _ hu with
      | lock hfn _ hprog => exact .lock hfn trivial hprog
      | tryLock _ hprog => exact .tryLock trivial hprog
      | unlock hpc => simp at hpc
    exact hok.setCall rfl rfl (by simp)
  | none_woken hcall hpc hu => exact h.setCall rfl rfl (by simp)

section visible

variable {k : FutexCall ι} {w : BitVec 32} {o : Option FutexPc}

theorem abs_go {pc : FutexPc} (hexec : futexExec k.fn (c.word k.lock) k.pc = (w, .go pc))
    (hadd : k.pc = .add → c.word k.lock ≠ 0#32) :
    ((c.setWord k.lock w).setCall t (some { k with pc })).abs = c.abs := by
  have hiff := futexExec_go hexec hadd
  rw [FutexConf.abs_setCall, FutexConf.abs_setWord]
  apply State.setTaken_self
  simp [FutexConf.abs, hiff]

theorem step_acquired (hexec : futexExec k.fn (c.word k.lock) k.pc = (w, .acquired))
    (hprog : prog t (c.place t) = .lock k.lock p ∨ ∃ q, prog t (c.place t) = .tryLock k.lock p q) :
    Step prog t c.abs (((c.setWord k.lock w).setCall t none).goto t p).abs := by
  obtain ⟨hfree, hw⟩ := futexExec_acquired hexec
  have htaken : w ≠ 0#32 := by rcases hw with rfl | rfl <;> decide
  have hs : c.abs.taken k.lock = false := by simp [FutexConf.abs, hfree]
  rw [FutexConf.abs_goto, FutexConf.abs_setCall, FutexConf.abs_setWord, decide_eq_true htaken]
  rcases hprog with hprog | ⟨q, hprog⟩
  · exact .lock hprog hs
  · exact .won hprog hs

theorem step_failed (hexec : futexExec k.fn (c.word k.lock) k.pc = (w, .failed))
    (hprog : prog t (c.place t) = .tryLock k.lock p q) :
    Step prog t c.abs (((c.setWord k.lock w).setCall t none).goto t q).abs := by
  obtain ⟨_, hw, hw'⟩ := futexExec_failed hexec
  have hs : c.abs.setTaken k.lock (decide (w ≠ 0#32)) = c.abs := by
    apply State.setTaken_self
    simp [FutexConf.abs, hw, hw']
  rw [FutexConf.abs_goto, FutexConf.abs_setCall, FutexConf.abs_setWord, hs]
  exact .lost hprog

theorem step_released {k' : Option (FutexCall ι)}
    (hexec : futexExec k.fn (c.word k.lock) k.pc = (w, .released o))
    (hprog : prog t (c.place t) = .unlock k.lock p) (htaken : c.abs.taken k.lock = true) :
    Step prog t c.abs (((c.setWord k.lock w).setCall t k').goto t p).abs := by
  obtain ⟨hw, _⟩ := futexExec_released hexec
  rw [FutexConf.abs_goto, FutexConf.abs_setCall, FutexConf.abs_setWord, hw]
  exact .unlock hprog htaken

end visible

theorem FutexCallsOk.word_ne_zero (hok : FutexCallsOk prog c) (hsound : Sound prog s₀)
    (hreach : Reachable prog s₀ c.abs) {k : FutexCall ι} (hk : c.call t = some k)
    (hpc : k.pc = .add ∨ k.pc = .store) : c.word k.lock ≠ 0#32 := by
  obtain ⟨p, hp⟩ := hok.unlock hk hpc
  have htaken := hsound _ hreach t k.lock p hp
  simpa [FutexConf.abs] using htaken

/-- A step of a thread in its code is a step with atomic locks, or nothing. -/
theorem FutexStep.abs (hsound : Sound prog s₀) (hreach : Reachable prog s₀ c.abs)
    (hok : FutexCallsOk prog c) (h : FutexStep prog t c c') :
    c'.abs = c.abs ∨ Step prog t c.abs c'.abs := by
  cases h with
  | lock | tryLock | unlock | woken | none_woken => exact .inl rfl
  | act hcall hprog hr => exact .inr (.act hprog hr)
  | go hcall hexec =>
    exact .inl (abs_go hexec fun hpc => hok.word_ne_zero hsound hreach hcall (.inl hpc))
  | acquired hcall hexec hprog => exact .inr (step_acquired hexec hprog)
  | failed hcall hexec hprog => exact .inr (step_failed hexec hprog)
  | released hcall hexec hprog =>
    exact .inr (step_released hexec hprog (hsound _ hreach _ _ _ hprog))

theorem FutexReachable.inv (hsound : Sound prog s₀) (h : FutexReachable prog s₀ c) :
    Reachable prog s₀ c.abs ∧ FutexCallsOk prog c := by
  induction h with
  | refl => exact ⟨by rw [FutexConf.abs_init], .init⟩
  | tail _ hstep ih =>
    obtain ⟨t, hstep⟩ := hstep
    refine ⟨?_, ih.2.step hstep⟩
    rcases hstep.abs hsound ih.1 ih.2 with heq | hs
    · rw [heq]
      exact ih.1
    · exact hs.reachable ih.1

section quiet

variable {s : State T ι σ π}

theorem FutexReachable.act {r : σ → σ → π → Prop} {d : σ} (h : FutexReachable prog s₀ (.init s))
    (hprog : prog t (s.place t) = .act r) (hr : r s.data d p) :
    FutexReachable prog s₀ (.init ((s.setData d).goto t p)) :=
  h.tail ⟨t, FutexStep.act rfl hprog hr⟩

/-- While no thread is in a call, the code of a free lock takes it. -/
theorem FutexReachable.lock (h : FutexReachable prog s₀ (.init s))
    (hprog : prog t (s.place t) = .lock i p) (hfree : s.taken i = false) :
    FutexReachable prog s₀ (.init ((s.setTaken i true).goto t p)) := by
  have hword : (FutexConf.init s).word i = 0#32 := by simp [FutexConf.init, hfree]
  have h₁ := h.tail ⟨t, FutexStep.lock (f := .futex_lock_nospin) rfl hprog (.inr rfl)⟩
  have htest : futexExec .futex_lock_nospin ((FutexConf.init s).word i) (.test 0) =
      (0#32, .go (.cas 0)) := by simp [futexExec, hword]
  have h₂ := h₁.tail ⟨t, FutexStep.go (k := ⟨.futex_lock_nospin, i, .test 0⟩)
    (by simp [FutexPc.retry, FutexFn.tries]) htest⟩
  have h₃ := h₂.tail ⟨t, FutexStep.acquired (w := 1#32) (p := p)
    (k := ⟨.futex_lock_nospin, i, .cas 0⟩) (by simp) (by simp [futexExec]) (.inl hprog)⟩
  refine cast (congrArg _ ?_) h₃
  simp only [FutexConf.init, FutexConf.goto, FutexConf.setCall, FutexConf.setWord, State.goto,
    State.setTaken, FutexConf.mk.injEq, true_and, Function.update_idem]
  refine ⟨Function.update_eq_self _ _, ?_⟩
  funext j
  by_cases hj : j = i
  · simp [hj]
  · simp [hj]

/-- The code gives back a lock that nobody waits for. -/
theorem FutexReachable.unlock (h : FutexReachable prog s₀ (.init s))
    (hprog : prog t (s.place t) = .unlock i p) (htaken : s.taken i = true) :
    FutexReachable prog s₀ (.init ((s.setTaken i false).goto t p)) := by
  have hword : (FutexConf.init s).word i = 1#32 := by simp [FutexConf.init, htaken]
  have h₁ := h.tail ⟨t, FutexStep.unlock rfl hprog⟩
  have hadd : futexExec .futex_unlock ((FutexConf.init s).word i) .add =
      (0#32, .released none) := by simp [futexExec, hword]
  have h₂ := h₁.tail ⟨t, FutexStep.released (p := p) (k := ⟨.futex_unlock, i, .add⟩) (by simp)
    hadd hprog⟩
  refine cast (congrArg _ ?_) h₂
  simp only [FutexConf.init, FutexConf.goto, FutexConf.setCall, FutexConf.setWord, State.goto,
    State.setTaken, FutexConf.mk.injEq, true_and, Function.update_idem, Option.map_none]
  refine ⟨Function.update_eq_self _ _, ?_⟩
  funext j
  by_cases hj : j = i
  · simp [hj]
  · simp [hj]

end quiet

/-- The futex locks refine atomic ones: in every run of a program that never gives back a free
lock, each step of the code is a step of the same thread with atomic locks, or none. -/
theorem futex_refines_atomic (hsound : Sound prog s₀) (h : FutexReachable prog s₀ c) :
    Reachable prog s₀ c.abs ∧
      ∀ t c', FutexStep prog t c c' → c'.abs = c.abs ∨ Step prog t c.abs c'.abs := by
  obtain ⟨hreach, hok⟩ := h.inv hsound
  exact ⟨hreach, fun t c' hstep => hstep.abs hsound hreach hok⟩

section mutex

inductive MutexPlace
  | outside | inside
  deriving DecidableEq

/-- Threads that go through a section that a `scoped_mutex` guards, again and again. -/
def scoped_mutex : MutexPlace → Instr Unit Unit MutexPlace
  | .outside => .lock () .inside
  | .inside => .unlock () .outside

def MutexInv (s : State T Unit Unit MutexPlace) : Prop :=
  ∀ t, s.place t = .inside → s.taken () = true ∧ ∀ u, s.place u = .inside → u = t

def MutexState.init (T : Type) : State T Unit Unit MutexPlace where
  data := ()
  place := fun _ => .outside
  taken := fun _ => false

theorem MutexInv.step {s s' : State T Unit Unit MutexPlace} (h : MutexInv s)
    (hs : Step (fun _ => scoped_mutex) t s s') : MutexInv s' := by
  intro u hu
  cases hs with
  | lock hprog hfree =>
    cases hp : s.place t <;> simp only [scoped_mutex, hp, Instr.lock.injEq, reduceCtorEq] at hprog
    obtain ⟨_, rfl⟩ := hprog
    have hnone : ∀ v, s.place v ≠ .inside := by
      intro v hv
      simp [(h v hv).1] at hfree
    have hin : ∀ v, Function.update s.place t .inside v = .inside → v = t := by
      intro v hv
      by_contra hvt
      rw [Function.update_of_ne hvt] at hv
      exact hnone v hv
    refine ⟨by simp, fun v hv => ?_⟩
    rw [hin v hv, hin u hu]
  | unlock hprog htaken =>
    cases hp : s.place t <;> simp only [scoped_mutex, hp, Instr.unlock.injEq, reduceCtorEq] at hprog
    obtain ⟨_, rfl⟩ := hprog
    have hut : u ≠ t := by
      rintro rfl
      simp at hu
    simp only [State.goto_place, State.setTaken_place, Function.update_of_ne hut] at hu
    exact absurd ((h t hp).2 u hu) hut
  | won hprog => cases hp : s.place t <;> simp [scoped_mutex, hp] at hprog
  | lost hprog => cases hp : s.place t <;> simp [scoped_mutex, hp] at hprog
  | act hprog => cases hp : s.place t <;> simp [scoped_mutex, hp] at hprog

theorem scoped_mutex_sound : Sound (fun _ : T => scoped_mutex) (MutexState.init T) := by
  intro s hs t i p hprog
  have hinv : MutexInv s :=
    hs.inv (by intro t ht; simp [MutexState.init] at ht) fun _ _ _ h hs => h.step hs
  cases hp : s.place t with
  | outside => simp [scoped_mutex, hp] at hprog
  | inside => exact (hinv t hp).1

/-- A thread in `futex_lock`, and one that has not called it. -/
theorem futex_refines_atomic_scoped_mutex :
    let c : FutexConf Bool Unit Unit MutexPlace :=
      (FutexConf.init (MutexState.init Bool)).setCall true (some ⟨.futex_lock, (), .test 4⟩)
    Reachable (fun _ => scoped_mutex) (MutexState.init Bool) c.abs ∧
      ∀ t c', FutexStep (fun _ => scoped_mutex) t c c' →
        c'.abs = c.abs ∨ Step (fun _ => scoped_mutex) t c.abs c'.abs :=
  futex_refines_atomic scoped_mutex_sound
    (.single ⟨true, .lock (f := .futex_lock) (p := .inside) rfl rfl (.inl rfl)⟩)

end mutex

end ZSim
