import ZSim.FutexRefinement

/-! No wakeup is lost: a thread that sleeps on a lock is owed one, and as long as a program
could go on with atomic locks it can go on with futexes, whatever the threads in the kernel
do. -/

namespace ZSim

open LockProgram

variable {T ι σ π : Type} {prog : T → π → Instr ι σ π} {s₀ : State T ι σ π}
variable {c c' : FutexConf T ι σ π} {t u : T} {i : ι} {p q : π}

/-- About to wake a sleeper, or to leave the word at 2. -/
def FutexPc.Owes (pc : FutexPc) : Prop :=
  pc = .store ∨ pc = .wake ∨ pc = .swapAgain

def FutexConf.OwedBy (c : FutexConf T ι σ π) (u : T) (i : ι) : Prop :=
  ∃ k, c.call u = some k ∧ k.lock = i ∧ k.pc.Owes

/-- A thread that sleeps on a lock is still owed a wakeup: the word says so to whoever gives
the lock back, or some thread is about to wake one, or to write the word again. -/
def NoLost (c : FutexConf T ι σ π) : Prop :=
  ∀ t i, c.Asleep t i → c.word i = 2#32 ∨ ∃ u, c.OwedBy u i

section wakeups

variable {fn : FutexFn} {w w' : BitVec 32} {pc pc' : FutexPc} {k : FutexCall ι}

theorem not_owedBy_of_none (h : c.call t = none) : ¬ c.OwedBy t i := by
  rintro ⟨k, hk, _⟩
  simp [h] at hk

theorem not_owedBy (h : c.call t = some k) (hi : k.lock = i → ¬ k.pc.Owes) :
    ¬ c.OwedBy t i := by
  rintro ⟨k', hk', hlock, howes⟩
  rw [h, Option.some.injEq] at hk'
  subst hk'
  exact hi hlock howes

/-- What a step of thread `t` must do for the sleepers. -/
theorem NoLost.frame (h : NoLost c) (hcall : ∀ u, u ≠ t → c'.call u = c.call u)
    (hself : ∀ i, c'.Asleep t i → c'.word i = 2#32)
    (hstep : ∀ i, (∃ v, c'.Asleep v i) → c'.word i = 2#32 ∨ (∃ u, c'.OwedBy u i) ∨
      (c'.word i = c.word i ∨ c.word i ≠ 2#32) ∧ ¬ c.OwedBy t i) : NoLost c' := by
  intro v i hv
  by_cases hvt : v = t
  · subst hvt
    exact .inl (hself i hv)
  · rcases hstep i ⟨v, hv⟩ with hw | howed | ⟨hword, hnot⟩
    · exact .inl hw
    · exact .inr howed
    · obtain ⟨fn, hfn⟩ := hv
      rcases h v i ⟨fn, hcall v hvt ▸ hfn⟩ with hw | ⟨u, hu⟩
      · exact .inl ((hword.resolve_right (not_not_intro hw)).trans hw)
      · have hut : u ≠ t := by
          rintro rfl
          exact hnot hu
        obtain ⟨k, hk⟩ := hu
        exact .inr ⟨u, k, (hcall u hut).symm ▸ hk.1, hk.2⟩

theorem FutexPc.retry_ne_asleep (n : Nat) : FutexPc.retry n ≠ .asleep := by
  cases n <;> simp [FutexPc.retry]

theorem futexExec_go_owes (h : futexExec fn w pc = (w', .go pc')) :
    (pc' = .asleep → w' = 2#32) ∧
      (w' = 2#32 ∨ pc'.Owes ∨ (w' = w ∨ w ≠ 2#32) ∧ ¬ pc.Owes) := by
  cases pc <;> grind [futexExec, FutexPc.Owes, FutexPc.retry_ne_asleep]

theorem futexExec_acquired_owes (h : futexExec fn w pc = (w', .acquired)) :
    w' = 2#32 ∨ w ≠ 2#32 ∧ ¬ pc.Owes := by
  cases pc <;> grind [futexExec, FutexPc.Owes]

theorem NoLost.init : NoLost (.init s₀) := by
  rintro t i ⟨fn, hfn⟩
  simp [FutexConf.init] at hfn

variable [DecidableEq T]

/-- A thread that was in no call. -/
theorem NoLost.enter (h : NoLost c) (hk : c.call t = none) {m : Option (FutexCall ι)}
    (hcall : c'.call = Function.update c.call t m) (hword : c'.word = c.word)
    (hpc : ∀ k₁, m = some k₁ → k₁.pc ≠ .asleep) : NoLost c' := by
  apply h.frame (t := t)
  · intro u hu
    simp [hcall, hu]
  · rintro i ⟨fn, hfn⟩
    simp only [hcall, Function.update_self] at hfn
    exact (hpc _ hfn rfl).elim
  · intro i _
    exact .inr (.inr ⟨.inl (by rw [hword]), not_owedBy_of_none hk⟩)

variable [DecidableEq ι]

/-- A change of the call of thread `t` and of the word of its lock. -/
theorem NoLost.call (h : NoLost c) (hk : c.call t = some k) {m : Option (FutexCall ι)}
    {v : BitVec 32} (hcall : c'.call = Function.update c.call t m)
    (hword : c'.word = Function.update c.word k.lock v)
    (hlock : ∀ k₁, m = some k₁ → k₁.lock = k.lock ∧ (k₁.pc = .asleep → v = 2#32))
    (hstep : v = 2#32 ∨ (∃ k₁, m = some k₁ ∧ k₁.pc.Owes) ∨
      (v = c.word k.lock ∨ c.word k.lock ≠ 2#32) ∧ ¬ k.pc.Owes) : NoLost c' := by
  have hself : c'.call t = m := by simp [hcall]
  apply h.frame (t := t)
  · intro u hu
    simp [hcall, hu]
  · rintro i ⟨fn, hfn⟩
    obtain ⟨hi, hw⟩ := hlock _ (hself ▸ hfn)
    simp only at hi
    simp [hword, hi, hw rfl]
  · intro i _
    by_cases hi : i = k.lock
    · subst hi
      simp only [hword, Function.update_self]
      rcases hstep with hw | ⟨k₁, rfl, howes⟩ | ⟨hw, hnot⟩
      · exact .inl hw
      · exact .inr (.inl ⟨t, k₁, hself, (hlock k₁ rfl).1, howes⟩)
      · exact .inr (.inr ⟨hw, not_owedBy hk fun _ => hnot⟩)
    · refine .inr (.inr ⟨.inl ?_, not_owedBy hk fun hlock => absurd hlock.symm hi⟩)
      simp [hword, hi]

theorem NoLost.step (h : NoLost c) (hs : FutexStep prog t c c') : NoLost c' := by
  cases hs with
  | lock hcall hprog hfn =>
    refine h.enter hcall rfl rfl ?_
    rintro k ⟨⟩
    rcases hfn with rfl | rfl <;> simp [FutexFn.tries, FutexPc.retry]
  | tryLock hcall hprog =>
    refine h.enter hcall rfl rfl ?_
    rintro k ⟨⟩
    simp
  | unlock hcall hprog =>
    refine h.enter hcall rfl rfl ?_
    rintro k ⟨⟩
    simp
  | act hcall hprog hr => exact h.enter (m := none) hcall (by simp [← hcall]) rfl (by simp)
  | go hcall hexec =>
    obtain ⟨hasleep, howes⟩ := futexExec_go_owes hexec
    refine h.call hcall rfl rfl ?_ ?_
    · rintro k₁ ⟨⟩
      exact ⟨rfl, hasleep⟩
    · simpa using howes
  | acquired hcall hexec hprog =>
    refine h.call hcall rfl rfl (by simp) ?_
    rcases futexExec_acquired_owes hexec with hw | ⟨hw, hnot⟩
    · exact .inl hw
    · exact .inr (.inr ⟨.inr hw, hnot⟩)
  | failed hcall hexec hprog =>
    obtain ⟨_, _, hw⟩ := futexExec_failed hexec
    exact h.call hcall rfl rfl (by simp) (.inl hw)
  | released hcall hexec hprog =>
    obtain ⟨_, ⟨hpc, hw, rfl⟩ | ⟨hpc, rfl⟩⟩ := futexExec_released hexec
    · refine h.call hcall rfl rfl (by simp) (.inr (.inr ⟨.inr (by rw [hw]; decide), ?_⟩))
      simp [hpc, FutexPc.Owes]
    · refine h.call hcall rfl rfl ?_ (.inr (.inl ⟨_, rfl, .inr (.inl rfl)⟩))
      rintro k₁ ⟨⟩
      simp
  | @woken k fn u hcall hpc hu =>
    have hne : u ≠ t := by
      rintro rfl
      rw [hcall, Option.some.injEq] at hu
      have hasleep := congrArg FutexCall.pc hu
      simp [hpc] at hasleep
    -- the thread that is woken writes the word again, whatever the waker does
    have hwoken : NoLost (c.setCall u (some ⟨fn, k.lock, .swapAgain⟩)) := by
      refine h.call (v := c.word k.lock) hu rfl (by simp) ?_ (.inr (.inl ⟨_, rfl, .inr (.inr rfl)⟩))
      rintro k₁ ⟨⟩
      simp
    apply hwoken.frame (t := t)
    · intro v hv
      simp [hv]
    · rintro i ⟨fn, hfn⟩
      simp at hfn
    · intro i _
      by_cases hi : i = k.lock
      · refine .inr (.inl ⟨u, ⟨fn, k.lock, .swapAgain⟩, ?_, hi.symm, .inr (.inr rfl)⟩)
        simp [hne]
      · refine .inr (.inr ⟨.inl rfl, not_owedBy (k := k) ?_ fun hlock => absurd hlock.symm hi⟩)
        simp [hne.symm, hcall]
  | @none_woken k hcall hpc hu =>
    apply h.frame (t := t)
    · intro v hv
      simp [hv]
    · rintro i ⟨fn, hfn⟩
      simp at hfn
    · rintro i ⟨v, fn, hfn⟩
      by_cases hi : i = k.lock
      · subst hi
        by_cases hv : v = t
        · simp [hv] at hfn
        · simp only [FutexConf.setCall_call, Function.update_of_ne hv] at hfn
          exact (hu v ⟨fn, hfn⟩).elim
      · exact .inr (.inr ⟨.inl rfl, not_owedBy hcall fun hlock => absurd hlock.symm hi⟩)

theorem FutexReachable.noLost (h : FutexReachable prog s₀ c) : NoLost c := by
  induction h with
  | refl => exact .init
  | tail _ hstep ih =>
    obtain ⟨t, hstep⟩ := hstep
    exact ih.step hstep

end wakeups

section solo

/-- On its own, a thread at `pc` comes to the end of its call, and nobody has to wake it. -/
inductive Solo (fn : FutexFn) : BitVec 32 → FutexPc → Prop
  | acquired {w v : BitVec 32} {pc : FutexPc} : futexExec fn w pc = (v, .acquired) → Solo fn w pc
  | failed {w v : BitVec 32} {pc : FutexPc} : futexExec fn w pc = (v, .failed) →
      fn = .futex_trylock_nospin_timeout → Solo fn w pc
  | released {w v : BitVec 32} {pc : FutexPc} {o : Option FutexPc} :
      futexExec fn w pc = (v, .released o) → Solo fn w pc
  | go {w v : BitVec 32} {pc q : FutexPc} : futexExec fn w pc = (v, .go q) →
      (pc = .asleep → fn = .futex_trylock_nospin_timeout) → Solo fn v q → Solo fn w pc

variable {fn : FutexFn} {w : BitVec 32} {pc : FutexPc}

theorem Solo.swap_free : Solo fn 0#32 .swap := by
  apply Solo.acquired (v := 2#32)
  simp [futexExec]

theorem Solo.swapAgain_free : Solo fn 0#32 .swapAgain := by
  apply Solo.acquired (v := 2#32)
  simp [futexExec]

theorem Solo.cas_free {n : Nat} : Solo fn 0#32 (.cas n) := by
  apply Solo.acquired (v := 1#32)
  simp [futexExec]

/-- A thread that is awake takes a free lock. -/
theorem Solo.of_free (hpc : pc.Locking) (hawake : pc ≠ .asleep) : Solo fn 0#32 pc := by
  cases pc with
  | test n => exact .go (v := 0#32) (q := .cas n) (by simp [futexExec]) (by simp) .cas_free
  | cas n => exact .cas_free
  | swap => exact .swap_free
  | wait =>
    exact .go (v := 0#32) (q := .swapAgain) (by simp [futexExec]) (by simp) .swapAgain_free
  | asleep => exact (hawake rfl).elim
  | swapAgain => exact .swapAgain_free
  | add | store | wake => exact hpc.elim

theorem Solo.swapAgain_timeout : Solo .futex_trylock_nospin_timeout w .swapAgain := by
  by_cases hw : w = 0#32
  · subst hw
    exact .swapAgain_free
  · exact .failed (v := 2#32) (by simp [futexExec, hw]) rfl

theorem Solo.asleep_timeout : Solo .futex_trylock_nospin_timeout w .asleep :=
  .go rfl (fun _ => rfl) .swapAgain_timeout

theorem Solo.wait_timeout : Solo .futex_trylock_nospin_timeout w .wait := by
  by_cases hw : w = 2#32
  · exact .go (v := w) (q := .asleep) (by simp [futexExec, hw]) (by simp) .asleep_timeout
  · exact .go (v := w) (q := .swapAgain) (by simp [futexExec, hw]) (by simp) .swapAgain_timeout

theorem Solo.swap_timeout : Solo .futex_trylock_nospin_timeout w .swap := by
  by_cases hw : w = 0#32
  · subst hw
    exact .swap_free
  · exact .go (v := 2#32) (q := .wait) (by simp [futexExec, hw]) (by simp) .wait_timeout

theorem Solo.retry_timeout (hw : w ≠ 0#32) (n : Nat) :
    Solo .futex_trylock_nospin_timeout w (FutexPc.retry n) := by
  induction n with
  | zero => exact .swap_timeout
  | succ n ih =>
    exact .go (v := w) (q := FutexPc.retry n) (by simp [futexExec, FutexPc.retry, hw])
      (by simp [FutexPc.retry]) ih

/-- An attempt with a timeout ends, whether or not the lock is free. -/
theorem Solo.timeout (hpc : pc.Locking) : Solo .futex_trylock_nospin_timeout w pc := by
  by_cases hw : w = 0#32
  · subst hw
    by_cases hawake : pc = .asleep
    · subst hawake
      exact .asleep_timeout
    · exact .of_free hpc hawake
  · cases pc with
    | test n => exact .retry_timeout hw (n + 1)
    | cas n =>
      exact .go (v := w) (q := FutexPc.retry n) (by simp [futexExec, hw]) (by simp)
        (.retry_timeout hw n)
    | swap => exact .swap_timeout
    | wait => exact .wait_timeout
    | asleep => exact .asleep_timeout
    | swapAgain => exact .swapAgain_timeout
    | add | store | wake => exact hpc.elim

theorem Solo.unlock (hpc : pc = .add ∨ pc = .store) : Solo fn w pc := by
  have hstore : ∀ w, Solo fn w .store := fun w => .released rfl
  rcases hpc with rfl | rfl
  · by_cases hw : w = 1#32
    · exact .released (v := 0#32) (o := none) (by simp [futexExec, hw])
    · exact .go (v := w - 1#32) (q := .store) (by simp [futexExec, hw]) (by simp) (hstore _)
  · exact hstore w

end solo

section progress

variable [DecidableEq T] [DecidableEq ι]

/-- A step of thread `t` that is not a return from a sleep in `futex_lock` that nobody woke. -/
def AwakeStep (prog : T → π → Instr ι σ π) (t : T) (c c' : FutexConf T ι σ π) : Prop :=
  FutexStep prog t c c' ∧
    ∀ k, c.call t = some k → k.pc = .asleep → k.fn = .futex_trylock_nospin_timeout

/-- The threads that are awake can get to a step with atomic locks of a thread in `who`. -/
inductive Progress (prog : T → π → Instr ι σ π) (who : T → Prop) : FutexConf T ι σ π → Prop
  | step {t : T} {c c' : FutexConf T ι σ π} : who t → AwakeStep prog t c c' →
      Step prog t c.abs c'.abs → Progress prog who c
  | silent {t : T} {c c' : FutexConf T ι σ π} : AwakeStep prog t c c' → c'.abs = c.abs →
      Progress prog who c' → Progress prog who c

theorem Progress.mono {who who' : T → Prop} (h : Progress prog who c)
    (hwho : ∀ u, who u → who' u) : Progress prog who' c := by
  induction h with
  | step hu hawake hstep => exact .step (hwho _ hu) hawake hstep
  | silent hawake habs _ ih => exact .silent hawake habs ih

/-- Thread `t` is about to take lock `i`, or to try it. -/
def Attempts (prog : T → π → Instr ι σ π) (c : FutexConf T ι σ π) (t : T) (i : ι) : Prop :=
  (∃ p, prog t (c.place t) = .lock i p) ∨ ∃ p q, prog t (c.place t) = .tryLock i p q

/-- Thread `u` is thread `t`, or is after the same lock. -/
def Competes (prog : T → π → Instr ι σ π) (c : FutexConf T ι σ π) (t u : T) : Prop :=
  u = t ∨ ∃ i, Attempts prog c t i ∧ Attempts prog c u i

variable {fn : FutexFn} {w : BitVec 32} {pc : FutexPc} {k : FutexCall ι} {who : T → Prop}

theorem AwakeStep.of_none (hk : c.call t = none) (h : FutexStep prog t c c') :
    AwakeStep prog t c c' :=
  ⟨h, fun k hk' => by simp [hk] at hk'⟩

theorem AwakeStep.of_some (hk : c.call t = some k) (h : FutexStep prog t c c')
    (hawake : k.pc = .asleep → k.fn = .futex_trylock_nospin_timeout) : AwakeStep prog t c c' := by
  refine ⟨h, fun k' hk' => ?_⟩
  rw [hk, Option.some.injEq] at hk'
  subst hk'
  exact hawake

theorem Solo.progress (hsolo : Solo fn w pc) (hwho : who t) (hsound : Sound prog s₀)
    (hreach : Reachable prog s₀ c.abs) (hok : FutexCallsOk prog c)
    (hk : c.call t = some ⟨fn, i, pc⟩) (hw : c.word i = w) : Progress prog who c := by
  induction hsolo generalizing c with
  | acquired hexec =>
    subst hw
    have hprog : ∃ p, prog t (c.place t) = .lock i p ∨
        ∃ q, prog t (c.place t) = .tryLock i p q := by
      cases hok t _ hk with
      | lock _ _ hprog => exact ⟨_, .inl hprog⟩
      | tryLock _ hprog => exact ⟨_, .inr ⟨_, hprog⟩⟩
      | unlock hpc => rcases hpc with rfl | rfl <;> grind [futexExec]
      | wake => simp [futexExec] at hexec
    obtain ⟨p, hprog⟩ := hprog
    refine .step hwho (.of_some hk (.acquired hk hexec hprog) ?_) (step_acquired hexec hprog)
    rintro rfl
    simp [futexExec] at hexec
  | failed hexec hfn =>
    subst hw hfn
    have hprog : ∃ p q, prog t (c.place t) = .tryLock i p q := by
      cases hok t _ hk with
      | lock hfn => simp [FutexFn.IsLock] at hfn
      | tryLock _ hprog => exact ⟨_, _, hprog⟩
    obtain ⟨p, q, hprog⟩ := hprog
    exact .step hwho (.of_some hk (.failed hk hexec hprog) fun _ => rfl) (step_failed hexec hprog)
  | released hexec =>
    subst hw
    have hpc := (futexExec_released hexec).2
    obtain ⟨p, hprog⟩ := hok.unlock hk (hpc.imp And.left And.left)
    refine .step hwho (.of_some hk (.released hk hexec hprog) ?_)
      (step_released hexec hprog (hsound _ hreach _ _ _ hprog))
    rintro rfl
    simp at hpc
  | go hexec hawake _ ih =>
    subst hw
    have hadd := fun hpc => hok.word_ne_zero hsound hreach hk (.inl hpc)
    have hstep : FutexStep prog t c _ := .go hk hexec
    have habs := abs_go (t := t) (k := ⟨fn, i, _⟩) hexec hadd
    refine .silent (.of_some hk hstep hawake) habs (ih ?_ (hok.step hstep) ?_ ?_)
    · rw [habs]
      exact hreach
    · simp
    · simp

/-- A thread between two calls that could go on with atomic locks. -/
theorem progress_of_none (hsound : Sound prog s₀) (hreach : Reachable prog s₀ c.abs)
    (hok : FutexCallsOk prog c) (hk : c.call t = none) (hcan : CanStep prog c.abs t)
    (hwho : who t) : Progress prog who c := by
  obtain ⟨s', hs⟩ := hcan
  cases hs with
  | @lock i p hprog hfree =>
    have hstep : FutexStep prog t c _ := .lock hk hprog (f := .futex_lock) (.inl rfl)
    have hw : c.word i = 0#32 := by simpa [FutexConf.abs] using hfree
    have hsolo : Solo .futex_lock 0#32 (FutexPc.retry 5) :=
      .of_free (FutexPc.retry_locking _) (FutexPc.retry_ne_asleep _)
    exact .silent (.of_none hk hstep) rfl
      (hsolo.progress hwho hsound hreach (hok.step hstep) (by simp [FutexFn.tries]) hw)
  | @won i p q hprog | @lost i p q hprog =>
    have hstep : FutexStep prog t c _ := .tryLock hk hprog
    have hsolo : Solo .futex_trylock_nospin_timeout (c.word i) (.test 0) := .timeout trivial
    exact .silent (.of_none hk hstep) rfl
      (hsolo.progress hwho hsound hreach (hok.step hstep) (by simp) rfl)
  | @unlock i p hprog htaken =>
    have hstep : FutexStep prog t c _ := .unlock hk hprog
    have hsolo : Solo .futex_unlock (c.word i) .add := .unlock (.inl rfl)
    exact .silent (.of_none hk hstep) rfl
      (hsolo.progress hwho hsound hreach (hok.step hstep) (by simp) rfl)
  | act hprog hr => exact .step hwho (.of_none hk (.act hk hprog hr)) (.act hprog hr)

/-- A thread that sleeps on a lock that is free. -/
theorem progress_of_asleep (hsound : Sound prog s₀) (hreach : Reachable prog s₀ c.abs)
    (hok : FutexCallsOk prog c) (hlost : NoLost c) (hk : c.call t = some ⟨fn, i, .asleep⟩)
    (hprog : prog t (c.place t) = .lock i p) (hfree : c.word i = 0#32) :
    Progress prog (Competes prog c t) c := by
  have howed : ∃ u, c.OwedBy u i := by
    apply (hlost t i ⟨fn, hk⟩).resolve_left
    rw [hfree]
    decide
  obtain ⟨u, ⟨fn', j, pc⟩, hu, rfl, hpc⟩ := howed
  rcases hpc with rfl | rfl | rfl
  · exact (hok.word_ne_zero hsound hreach hu (.inr rfl) hfree).elim
  · have hstep : FutexStep prog u c _ := .woken hu rfl hk
    have hne : t ≠ u := by
      rintro rfl
      simp [hk] at hu
    have hsolo : Solo fn 0#32 .swapAgain := .swapAgain_free
    exact .silent (.of_some hu hstep (by simp)) rfl
      (hsolo.progress (t := t) (.inl rfl) hsound hreach (hok.step hstep)
        (by simp [hne]) hfree)
  · have hattempts : Attempts prog c u j := by
      cases hok u _ hu with
      | lock _ _ hprog => exact .inl ⟨_, hprog⟩
      | tryLock _ hprog => exact .inr ⟨_, _, hprog⟩
      | unlock hpc => simp at hpc
    exact Solo.swapAgain_free.progress (.inr ⟨j, .inl ⟨p, hprog⟩, hattempts⟩) hsound hreach hok hu
      hfree

/-- A thread that could go on with atomic locks can go on with futexes, or another one takes the
lock it is after, and no thread has to leave the kernel for it that was not woken. -/
theorem futex_progress (hsound : Sound prog s₀) (h : FutexReachable prog s₀ c)
    (hcan : CanStep prog c.abs t) : Progress prog (Competes prog c t) c := by
  have hself : Competes prog c t t := .inl rfl
  obtain ⟨hreach, hok⟩ := h.inv hsound
  cases hk : c.call t with
  | none => exact progress_of_none hsound hreach hok hk hcan hself
  | some k =>
    cases hok t k hk with
    | @lock fn i pc p _ hpc hprog =>
      have hfree : c.word i = 0#32 := by
        obtain ⟨s', hs⟩ := hcan
        cases hs <;> grind [FutexConf.abs]
      by_cases hawake : pc = .asleep
      · subst hawake
        exact progress_of_asleep hsound hreach hok h.noLost hk hprog hfree
      · exact (Solo.of_free hpc hawake).progress hself hsound hreach hok hk hfree
    | tryLock hpc => exact (Solo.timeout hpc).progress hself hsound hreach hok hk rfl
    | unlock hpc => exact (Solo.unlock hpc).progress hself hsound hreach hok hk rfl
    | @wake i =>
      -- the wakeup is of no use to the thread itself: it goes on after it
      by_cases hsleep : ∃ u, c.Asleep u i
      · obtain ⟨u, fn, hu⟩ := hsleep
        have hstep : FutexStep prog t c _ := .woken hk rfl hu
        exact .silent (.of_some hk hstep (by simp)) rfl
          (progress_of_none hsound hreach (hok.step hstep) (by simp) hcan hself)
      · have hstep : FutexStep prog t c _ :=
          .none_woken hk rfl fun u hu => hsleep ⟨u, hu⟩
        exact .silent (.of_some hk hstep (by simp)) rfl
          (progress_of_none hsound hreach (hok.step hstep) (by simp) hcan hself)

/-- A thread in `futex_lock` that finds the lock free. -/
theorem futex_progress_scoped_mutex :
    let c : FutexConf Bool Unit Unit MutexPlace :=
      (FutexConf.init (MutexState.init Bool)).setCall true (some ⟨.futex_lock, (), .test 4⟩)
    Progress (fun _ => scoped_mutex) (Competes (fun _ => scoped_mutex) c true) c :=
  futex_progress scoped_mutex_sound
    (.single ⟨true, .lock (f := .futex_lock) (p := .inside) rfl rfl (.inl rfl)⟩)
    ⟨_, .lock (i := ()) (p := .inside) rfl rfl⟩

end progress

end ZSim
