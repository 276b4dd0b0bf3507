import ZSim.SchedulerCoherent
import ZSim.SleepDeadline

/-! Sleeping threads over runs of the scheduler: no operation of another thread changes the
phase a thread is marked with, and the callback wakes a thread in that phase only. -/

namespace ZSim

namespace Scheduler

open TimedCall

variable {s s' : Scheduler} {t u c : Nat}

/-- The wakeup phase of a thread stays, and phases go on. -/
structure Keeps (t : Nat) (s s' : Scheduler) : Prop where
  wakeupPhase : (s'.threads t).wakeupPhase = (s.threads t).wakeupPhase
  curPhase : s.curPhase ≤ s'.curPhase

namespace Keeps

theorem refl (t : Nat) (s : Scheduler) : Keeps t s s := ⟨rfl, Nat.le_refl _⟩

theorem trans {s₁ : Scheduler} (h : Keeps t s s₁) (h' : Keeps t s₁ s') : Keeps t s s' :=
  ⟨h'.wakeupPhase.trans h.wakeupPhase, Nat.le_trans h.curPhase h'.curPhase⟩

theorem bind {o : Option Scheduler} {f : Scheduler → Option Scheduler} (h : o.bind f = some s')
    (ho : ∀ s₁, o = some s₁ → Keeps t s s₁) (hf : ∀ s₁, f s₁ = some s' → Keeps t s₁ s') :
    Keeps t s s' := by
  obtain ⟨s₁, hs₁, hs'⟩ := Option.bind_eq_some_iff.mp h
  exact (ho s₁ hs₁).trans (hf s₁ hs')

theorem of_then {p : Prop} [Decidable p] {r : Scheduler}
    (h : (if p then some r else none) = some s') (hr : Keeps t s r) : Keeps t s s' := by
  split at h
  · exact Option.some.inj h ▸ hr
  · cases h

theorem of_else {p : Prop} [Decidable p] {r : Scheduler}
    (h : (if p then none else some r) = some s') (hr : Keeps t s r) : Keeps t s s' := by
  split at h
  · cases h
  · exact Option.some.inj h ▸ hr

/-- An operation that puts down one thread anew. -/
theorem of_update {th : ThreadInfo} (hthreads : s'.threads = Function.update s.threads u th)
    (hphase : s'.curPhase = s.curPhase)
    (h : u = t → th.wakeupPhase = (s.threads u).wakeupPhase) : Keeps t s s' := by
  refine ⟨?_, Nat.le_of_eq hphase.symm⟩
  rw [hthreads]
  by_cases hu : u = t
  · subst hu
    simpa using h rfl
  · simp [Ne.symm hu]

theorem of_setThread {th : ThreadInfo} (h : Keeps t (s.setThread u th) s')
    (hth : th.wakeupPhase = (s.threads u).wakeupPhase) : Keeps t s s' := by
  have hset : Keeps t s (s.setThread u th) := of_update rfl rfl fun _ => hth
  exact hset.trans h

end Keeps

/-! The lists and the contexts. -/

theorem pushRun_keeps (h : pushRun u s = some s') : Keeps t s s' :=
  .of_else h ⟨rfl, Nat.le_refl _⟩

theorem pushOut_keeps (h : pushOut u s = some s') : Keeps t s s' :=
  .of_else h ⟨rfl, Nat.le_refl _⟩

theorem pushFree_keeps (h : pushFree c s = some s') : Keeps t s s' :=
  .of_else h ⟨rfl, Nat.le_refl _⟩

theorem pushSleep_keeps (h : pushSleep u s = some s') : Keeps t s s' :=
  .of_else h ⟨rfl, Nat.le_refl _⟩

theorem removeRun_keeps (h : removeRun u s = some s') : Keeps t s s' :=
  .of_then h ⟨rfl, Nat.le_refl _⟩

theorem removeOut_keeps (h : removeOut u s = some s') : Keeps t s s' :=
  .of_then h ⟨rfl, Nat.le_refl _⟩

theorem removeSleep_keeps (h : removeSleep u s = some s') : Keeps t s s' :=
  .of_then h ⟨rfl, Nat.le_refl _⟩

theorem removeFree_keeps (h : removeFree c s = some s') : Keeps t s s' :=
  .of_then h ⟨rfl, Nat.le_refl _⟩

theorem schedule_keeps (h : schedule u c s = some s') : Keeps t s s' :=
  .of_then h (.of_update rfl rfl fun _ => rfl)

theorem deschedule_keeps {target : ThreadState} (h : deschedule u c target s = some s') :
    Keeps t s s' :=
  .of_then h (.of_update rfl rfl fun _ => rfl)

theorem wakeup_keeps (h : wakeup u s = some s') : Keeps t s s' :=
  .of_then h (.of_update rfl rfl fun _ => rfl)

theorem waitForContext_keeps : Keeps t s (waitForContext u s) := .of_update rfl rfl fun _ => rfl

theorem steal_keeps {ctx : Option Nat} (h : steal u s = some (ctx, s')) : Keeps t s s' := by
  rw [steal] at h
  split at h
  · cases h
    exact .refl t _
  · obtain ⟨s₁, hs₁, hs'⟩ := Option.map_eq_some_iff.mp h
    cases hs'
    exact .bind hs₁ (fun _ => removeOut_keeps) (fun _ => deschedule_keeps)

theorem schedThread_keeps {ctx : Option Nat} (h : schedThread u s = some (ctx, s')) :
    Keeps t s s' := by
  simp only [schedThread] at h
  split at h
  · cases h
  · split at h
    · obtain ⟨s₁, hs₁, hs'⟩ := Option.map_eq_some_iff.mp h
      cases hs'
      exact removeFree_keeps hs₁
    · split at h
      · obtain ⟨s₁, hs₁, hs'⟩ := Option.map_eq_some_iff.mp h
        cases hs'
        exact removeFree_keeps hs₁
      · exact steal_keeps h

theorem schedContext_keeps {inTh : Option Nat} (h : schedContext c s = some (inTh, s')) :
    Keeps t s s' := by
  rw [schedContext] at h
  split at h
  · cases h
    exact .refl t _
  · obtain ⟨s₁, hs₁, hs'⟩ := Option.map_eq_some_iff.mp h
    cases hs'
    exact removeRun_keeps hs₁

theorem scheduleOrWait_keeps (h : scheduleOrWait u s = some s') : Keeps t s s' := by
  obtain ⟨⟨ctx, s₁⟩, hs₁, hs'⟩ := Option.bind_eq_some_iff.mp h
  refine (schedThread_keeps hs₁).trans ?_
  cases ctx with
  | some c => exact schedule_keeps hs'
  | none =>
    obtain ⟨s₂, hs₂, rfl⟩ := Option.map_eq_some_iff.mp hs'
    exact (Keeps.of_setThread (pushRun_keeps hs₂) rfl).trans waitForContext_keeps

/-! The operations. -/

theorem joinAwake_keeps (h : joinAwake u s = some s') : Keeps t s s' := by
  simp only [joinAwake] at h
  split at h
  · exact .of_setThread (removeOut_keeps h) rfl
  · split at h
    · exact scheduleOrWait_keeps h
    · cases h

theorem finishFakeLeave_keeps (h : finishFakeLeave u s = some s') : Keeps t s s' :=
  .of_then h (.of_update rfl rfl fun _ => rfl)

theorem endSleep_keeps (h : endSleep u s = some s') : Keeps t s s' :=
  .of_setThread (removeSleep_keeps h) rfl

theorem join_keeps (h : join u s = some s') : Keeps t s s' := by
  simp only [join] at h
  split at h
  · cases h
  · split at h
    · exact finishFakeLeave_keeps h
    · split at h
      · cases h
      · refine .bind h (fun s₁ hs₁ => ?_) (fun _ => joinAwake_keeps)
        split at hs₁
        · exact endSleep_keeps hs₁
        · exact Option.some.inj hs₁ ▸ .refl t s

theorem handOver_keeps (h : handOver u c s = some s') : Keeps t s s' :=
  .bind h (fun _ => schedule_keeps) (fun _ => wakeup_keeps)

theorem leave_keeps (h : leave u c s = some s') : Keeps t s s' := by
  simp only [leave] at h
  split at h
  · split at h
    · refine .bind h (fun _ hs₁ => .of_setThread (deschedule_keeps hs₁) rfl) fun s₁ hs₁ =>
        .bind hs₁ (fun _ => pushSleep_keeps) fun s₂ hs₂ => ?_
      obtain ⟨⟨inTh, s₃⟩, hs₃, hs'⟩ := Option.bind_eq_some_iff.mp hs₂
      refine (schedContext_keeps hs₃).trans ?_
      cases inTh with
      | some inTh => exact handOver_keeps hs'
      | none => exact pushFree_keeps hs'
    · obtain ⟨⟨inTh, s₁⟩, hs₁, hs'⟩ := Option.bind_eq_some_iff.mp h
      refine (schedContext_keeps hs₁).trans ?_
      cases inTh with
      | some inTh => exact .bind hs' (fun _ => deschedule_keeps) (fun _ => handOver_keeps)
      | none => exact .of_setThread (pushOut_keeps hs') rfl
  · cases h

theorem syscallLeave_keeps {blacklisted : Bool} (h : syscallLeave u c blacklisted s = some s') :
    Keeps t s s' := by
  simp only [syscallLeave] at h
  split at h
  · split at h
    · exact leave_keeps h
    · exact .of_else h (.of_update rfl rfl fun _ => rfl)
  · cases h

theorem breakFakeLeave_keeps (h : breakFakeLeave u s = some s') : Keeps t s s' :=
  .bind h (fun _ => finishFakeLeave_keeps) (fun _ => leave_keeps)

theorem syncStart_keeps (h : syncStart u c s = some s') : Keeps t s s' :=
  .of_then h (.of_update rfl rfl fun _ => rfl)

theorem handOff_keeps {d : Nat} (h : handOff u d s = some s') : Keeps t s s' := by
  refine .bind h (fun _ hs₁ => .of_setThread (deschedule_keeps hs₁) rfl) ?_
  exact fun _ hs₁ => .bind hs₁ (fun _ => handOver_keeps) (fun _ => scheduleOrWait_keeps)

theorem syncEnd_keeps (h : syncEnd u s = some s') : Keeps t s s' := by
  rw [syncEnd] at h
  split at h
  · exact handOff_keeps h
  · exact .of_then h (.of_update rfl rfl fun _ => rfl)

theorem notifySleepEnd_keeps (h : notifySleepEnd u s = some s') : Keeps t s s' := by
  simp only [notifySleepEnd] at h
  split at h
  · split at h
    · exact Option.some.inj h ▸ .refl t s
    · split at h
      · exact endSleep_keeps h
      · cases h
  · cases h

theorem start_keeps {mask : Nat → Bool} (hu : u ≠ t) (h : start u mask s = some s') :
    Keeps t s s' :=
  .of_then h (.of_update rfl rfl fun he => absurd he hu)

theorem markForSleep_keeps {w : Nat} (hu : u ≠ t) (h : markForSleep u w s = some s') :
    Keeps t s s' :=
  .of_then h (.of_update rfl rfl fun he => absurd he hu)

theorem delete_keeps (hu : u ≠ t) : Keeps t s (delete u s) :=
  .of_update rfl rfl fun he => absurd he hu

theorem finishThread_keeps (hu : u ≠ t) (h : finishThread u s = some s') : Keeps t s s' := by
  simp only [finishThread] at h
  split at h
  · obtain ⟨s₁, hs₁, rfl⟩ := Option.map_eq_some_iff.mp h
    exact (removeRun_keeps hs₁).trans (delete_keeps hu)
  · split at h
    · split at h
      · refine .bind h (fun s₁ hs₁ => .bind hs₁ (fun _ => removeOut_keeps)
          (fun _ => deschedule_keeps)) fun s₁ hs₁ => ?_
        obtain ⟨s₂, hs₂, rfl⟩ := Option.map_eq_some_iff.mp hs₁
        exact (pushFree_keeps hs₂).trans (delete_keeps hu)
      · exact Option.some.inj h ▸ delete_keeps hu
    · cases h

theorem finish_keeps (hu : u ≠ t) (h : finish u s = some s') : Keeps t s s' := by
  rw [finish] at h
  split at h
  · cases h
  · refine .bind h (fun s₁ hs₁ => ?_) fun s₁ hs₁ =>
      .bind hs₁ (fun s₂ hs₂ => ?_) fun _ => finishThread_keeps hu
    · split at hs₁
      · exact breakFakeLeave_keeps hs₁
      · exact Option.some.inj hs₁ ▸ .refl t s
    · split at hs₂
      · exact leave_keeps hs₂
      · exact Option.some.inj hs₂ ▸ .refl t s₁

/-! The end of a phase. -/

/-- Within a phase: the wakeup phase of a thread stays, and it wakes in that phase only. -/
structure Wakes (t : Nat) (s s' : Scheduler) : Prop where
  wakeupPhase : (s'.threads t).wakeupPhase = (s.threads t).wakeupPhase
  curPhase : s'.curPhase = s.curPhase
  state : (s.threads t).state = .SLEEPING → (s'.threads t).state ≠ .SLEEPING →
    (s.threads t).wakeupPhase = s.curPhase

namespace Wakes

theorem of_eq (hthreads : (s'.threads t).wakeupPhase = (s.threads t).wakeupPhase)
    (hstate : (s'.threads t).state = (s.threads t).state) (hphase : s'.curPhase = s.curPhase) :
    Wakes t s s' :=
  ⟨hthreads, hphase, fun hs hs' => absurd (hstate.trans hs) hs'⟩

theorem trans {s₁ : Scheduler} (h : Wakes t s s₁) (h' : Wakes t s₁ s') : Wakes t s s' where
  wakeupPhase := h'.wakeupPhase.trans h.wakeupPhase
  curPhase := h'.curPhase.trans h.curPhase
  state hs hs' := by
    by_cases hmid : (s₁.threads t).state = .SLEEPING
    · rw [← h.wakeupPhase, ← h.curPhase]
      exact h'.state hmid hs'
    · exact h.state hs hmid

end Wakes

theorem wakeOne_wakes (hu : (s.threads u).wakeupPhase = s.curPhase)
    (h : (wakeup u (s.setThread u { s.threads u with state := .BLOCKED })).bind
      (removeSleep u) = some s') : Wakes t s s' := by
  obtain ⟨s₁, hs₁, hs'⟩ := Option.bind_eq_some_iff.mp h
  have hphase : s'.curPhase = s.curPhase := by
    simp only [wakeup, removeSleep, Option.ite_none_right_eq_some, Option.some.injEq] at hs₁ hs'
    rw [← hs'.2, ← hs₁.2]
    rfl
  have hkeeps : Keeps t s s' :=
    .of_setThread ((wakeup_keeps hs₁).trans (removeSleep_keeps hs')) rfl
  by_cases hut : u = t
  · exact ⟨hkeeps.wakeupPhase, hphase, fun _ _ => hut ▸ hu⟩
  · refine .of_eq hkeeps.wakeupPhase ?_ hphase
    simp only [wakeup, removeSleep, Option.ite_none_right_eq_some, Option.some.injEq] at hs₁ hs'
    rw [← hs'.2, ← hs₁.2]
    simp [setThread, Ne.symm hut]

theorem wakeSleepers_wakes (ts : List Nat) (h : wakeSleepers ts s = some s') : Wakes t s s' := by
  induction ts generalizing s with
  | nil =>
    cases h
    exact .of_eq rfl rfl rfl
  | cons u ts ih =>
    rw [wakeSleepers] at h
    split at h
    · split at h
      · next hu =>
        obtain ⟨s₁, hs₁, hs'⟩ := Option.bind_eq_some_iff.mp h
        exact (wakeOne_wakes hu hs₁).trans (ih hs')
      · cases h
    · cases h
      exact .of_eq rfl rfl rfl

theorem tickFrom_wakes (ts : List Nat) {avail : List Nat} (h : tickFrom ts avail s = some s') :
    Wakes t s s' := by
  induction ts generalizing s avail with
  | nil =>
    cases h
    exact .of_eq rfl rfl rfl
  | cons u ts ih =>
    rw [tickFrom] at h
    split at h
    · cases h
      exact .of_eq rfl rfl rfl
    · split at h
      · exact ih h
      · split at h
        · cases h
        · next v _ =>
          obtain ⟨s₁, hs₁, hs'⟩ := Option.bind_eq_some_iff.mp h
          refine Wakes.trans ?_ (ih hs')
          simp only [removeRun, Option.ite_none_right_eq_some, Option.some.injEq] at hs₁
          rw [← hs₁.2]
          by_cases hv : t = v
          · subst hv
            exact .of_eq (by simp [setThread]) (by simp [setThread]) rfl
          · exact .of_eq (by simp [setThread, hv]) (by simp [setThread, hv]) rfl

/-- The callback wakes a thread in its wakeup phase. -/
theorem callback_wakes {avail : List Nat} (h : callback avail s = some s') :
    Wakes t { s with curPhase := s.curPhase + 1 } s' := by
  have hbarrier : Wakes t { s with curPhase := s.curPhase + 1 }
      { s.passBarrier with curPhase := s.curPhase + 1 } := by
    refine .of_eq ?_ ?_ rfl <;> simp only [passBarrier] <;> split_ifs <;> rfl
  simp only [callback] at h
  split at h
  · obtain ⟨s₁, hs₁, hs'⟩ := Option.bind_eq_some_iff.mp h
    refine hbarrier.trans ((wakeSleepers_wakes _ hs₁).trans ?_)
    split at hs'
    · obtain ⟨s₂, hs₂, hs'⟩ := Option.bind_eq_some_iff.mp hs'
      obtain ⟨-, -, rfl⟩ := Option.map_eq_some_iff.mp hs'
      exact tickFrom_wakes _ hs₂
    · cases hs'
      exact .of_eq rfl rfl rfl
  · cases h

theorem callback_keeps {avail : List Nat} (h : callback avail s = some s') : Keeps t s s' := by
  have hwakes := callback_wakes (t := t) h
  exact ⟨hwakes.wakeupPhase, by rw [hwakes.curPhase]; exact Nat.le_succ _⟩

/-! Runs from a mark on. -/

/-- The thread is neither started, nor finished, nor marked again. -/
def Op.Spares (t : Nat) : Op → Prop
  | .start tid _ | .finish tid | .markForSleep tid _ => tid ≠ t
  | .join _ | .leave _ _ | .syscallLeave _ _ _ | .breakFakeLeave _ | .syncStart _ _
  | .syncEnd _ | .notifySleepEnd _ | .callback _ => True

theorem step_keeps {op : Op} (hop : op.Spares t) (h : s.step op = some s') : Keeps t s s' := by
  cases op with
  | start tid mask => exact start_keeps hop h
  | join tid => exact join_keeps h
  | leave tid cid => exact leave_keeps h
  | syscallLeave tid cid blacklisted => exact syscallLeave_keeps h
  | breakFakeLeave tid => exact breakFakeLeave_keeps h
  | syncStart tid cid => exact syncStart_keeps h
  | syncEnd tid => exact syncEnd_keeps h
  | finish tid => exact finish_keeps hop h
  | markForSleep tid wakeupPhase => exact markForSleep_keeps hop h
  | notifySleepEnd tid => exact notifySleepEnd_keeps h
  | callback avail => exact callback_keeps h

/-- The schedulers in the life of a mark. -/
inductive SleepRun (t : Nat) (s₁ : Scheduler) : Scheduler → Prop
  | marked : SleepRun t s₁ s₁
  | step {s s' : Scheduler} (h : SleepRun t s₁ s) (op : Op) (hop : op.Spares t)
      (hstep : s.step op = some s') : SleepRun t s₁ s'

theorem SleepRun.keeps {s₁ : Scheduler} (h : SleepRun t s₁ s) : Keeps t s₁ s := by
  induction h with
  | marked => exact .refl t s₁
  | step _ op hop hstep ih => exact ih.trans (step_keeps hop hstep)

theorem markForSleep_wakeupPhase {w : Nat} (h : markForSleep t w s = some s') :
    (s'.threads t).wakeupPhase = w ∧ s'.curPhase = s.curPhase := by
  simp only [markForSleep, Option.ite_none_right_eq_some, Option.some.injEq] at h
  rw [← h.2]
  simp [setThread]

variable {z : VirtTime} {call : TimedCall} {s₀ s₁ : Scheduler} {w : Nat}

/-- A thread that sleeps for a call is woken when the time is over, and `rem` is what is
left of it at an interrupt, if no integer wraps, the clocks agree and the phases add up. -/
theorem sleep_not_early (hwake : z.wakeupPhase s₀.curPhase call = some w)
    (hmark : s₀.markForSleep t w = some s₁) (hrun : SleepRun t s₁ s)
    (hnarrow : call.Narrow z s₀.curPhase) :
    (call.Timely z s₀.curPhase → ∀ avail s', s.callback avail = some s' →
      (s.threads t).state = .SLEEPING → (s'.threads t).state ≠ .SLEEPING →
        call.Over z s₀.curPhase s'.curPhase) ∧
    (call.RemTimely z s₀.curPhase s.curPhase → ∀ rem, z.remaining w s.curPhase = some rem →
      call.RemWithin z s₀.curPhase s.curPhase rem) := by
  obtain ⟨hw, hphase⟩ := markForSleep_wakeupPhase hmark
  have hkeeps := hrun.keeps
  have hend := hnarrow.wakeupPhase_eq hwake
  refine ⟨fun htimely avail s' hcall hsleep hawake => ?_, fun hrem rem hr => ?_⟩
  · have hwakes := callback_wakes (t := t) hcall
    have hcur : s'.curPhase = w := by
      rw [hwakes.curPhase, ← hwakes.state hsleep hawake, ← hw]
      exact hkeeps.wakeupPhase
    rw [hcur, hend]
    exact hnarrow.over_of_timely htimely
  · rw [hend] at hr
    exact hnarrow.remWithin hrem (hphase ▸ hkeeps.curPhase) hr

/-- Phases of 10000 cycles at 2 GHz, so that a phase takes 5000 ns. -/
def twoGHz : VirtTime := ⟨2000, 10000, 0, 0, 0, by decide, by decide⟩

/-- The only thread is marked for phase 2 and leaves, and a phase ends. -/
theorem twoPhases_run : ∃ s₀ s₁ s s', Reachable Orderly 1 1 s₀ ∧ s₀.curPhase = 0 ∧
    s₀.markForSleep 1 2 = some s₁ ∧ SleepRun 1 s₁ s ∧ s.curPhase = 1 ∧
    s.callback [0] = some s' ∧ (s.threads 1).state = .SLEEPING ∧
    (s'.threads 1).state = .BLOCKED ∧ s'.curPhase = 2 := by
  have h₀ : Reachable Orderly 1 1 (init 1 1) := .init
  have h₁ := h₀.step (.start 1 fun _ => true) ⟨rfl, rfl⟩ trivial rfl
  have h₂ := h₁.step (.join 1) ⟨rfl, .inr (.inl rfl)⟩ trivial rfl
  exact ⟨_, _, _, _, h₂, rfl, rfl,
    (SleepRun.marked.step (.leave 1 0) trivial rfl).step (.callback [0]) trivial rfl,
    rfl, rfl, rfl, rfl, rfl⟩

/-- A futex wait with a timeout of two whole phases. -/
theorem sleep_not_early_wholePhases : ∃ s₀ s₁ s s' : Scheduler, s₀.markForSleep 1 2 = some s₁ ∧
    SleepRun 1 s₁ s ∧ s.callback [0] = some s' ∧ (s'.threads 1).state = .BLOCKED ∧
    (futex FUTEX_WAIT ⟨0, 10000, by decide⟩).Over twoGHz s₀.curPhase s'.curPhase := by
  obtain ⟨s₀, s₁, s, s', -, hphase, hmark, hrun, -, hcall, hsleep, hblocked, -⟩ := twoPhases_run
  have hwake : twoGHz.wakeupPhase s₀.curPhase (.futex FUTEX_WAIT ⟨0, 10000, by decide⟩) =
      some 2 := by
    rw [hphase]
    decide
  have hnarrow : (futex FUTEX_WAIT ⟨0, 10000, by decide⟩).Narrow twoGHz s₀.curPhase := by
    rw [hphase]
    exact ⟨by decide, by decide, by decide, ⟨by decide, by decide⟩⟩
  have htimely : (futex FUTEX_WAIT ⟨0, 10000, by decide⟩).Timely twoGHz s₀.curPhase := by
    rw [hphase]
    exact ⟨by decide, .inl (.inl (by decide))⟩
  exact ⟨s₀, s₁, s, s', hmark, hrun, hcall, hblocked,
    (sleep_not_early hwake hmark hrun hnarrow).1 htimely [0] s' hcall hsleep (by simp [hblocked])⟩

/-- A futex wait of 12345 ns sleeps for two phases, which take 10000 ns. A `nanosleep` of as
long that is interrupted in the first of its three phases is left a nanosecond. -/
theorem futex_wakes_early : (∃ s₀ s₁ s s', Reachable Orderly 1 1 s₀ ∧
      twoGHz.wakeupPhase s₀.curPhase (.futex FUTEX_WAIT ⟨0, 12345, by decide⟩) = some 2 ∧
      s₀.markForSleep 1 2 = some s₁ ∧ SleepRun 1 s₁ s ∧ s.callback [0] = some s' ∧
      (s.threads 1).state = .SLEEPING ∧ (s'.threads 1).state = .BLOCKED ∧
      ¬ (futex FUTEX_WAIT ⟨0, 12345, by decide⟩).Over twoGHz s₀.curPhase s'.curPhase) ∧
    twoGHz.wakeupPhase 0 (.nanosleep ⟨0, 12345, by decide⟩) = some 3 ∧
    ∃ rem, twoGHz.remaining 3 0 = some rem ∧ rem.ns = 1 ∧
      ¬ (nanosleep ⟨0, 12345, by decide⟩).RemWithin twoGHz 0 0 rem := by
  refine ⟨?_, by decide, _, rfl, by decide, ?_⟩
  · obtain ⟨s₀, s₁, s, s', hreach, hphase, hmark, hrun, -, hcall, hsleep, hblocked, hcur⟩ :=
      twoPhases_run
    refine ⟨s₀, s₁, s, s', hreach, ?_, hmark, hrun, hcall, hsleep, hblocked, ?_⟩
    · rw [hphase]
      decide
    · rw [hphase, hcur]
      unfold Over
      decide
  · unfold RemWithin
    decide

end Scheduler

end ZSim
