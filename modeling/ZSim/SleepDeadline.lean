import ZSim.VirtSleep

/-! Deadlines of sleeping threads: what a call asks for, when the phases it sleeps add up to
it, and what is left of it at an interrupt. -/

namespace ZSim

namespace TimedCall

/-- The time that a call names. -/
def ns : TimedCall → Nat
  | .nanosleep ts | .clock_nanosleep _ _ ts | .futex _ ts => ts.ns
  | .poll timeout => timeout.toNat * 1000 * 1000

/-- The clock that a call refers to. -/
def clock : TimedCall → ClockId
  | .nanosleep _ | .poll _ => .MONOTONIC
  | .clock_nanosleep clock _ _ => clock
  | .futex op _ => if op &&& FUTEX_CLOCK_REALTIME ≠ 0 then .REALTIME else .MONOTONIC

/-- The time is a deadline on the clock, and not a time to wait. -/
def Absolute : TimedCall → Prop
  | .nanosleep _ | .poll _ => False
  | .clock_nanosleep _ flags _ => flags &&& TIMER_ABSTIME ≠ 0
  | .futex op _ => op &&& FUTEX_CMD_MASK ≠ FUTEX_WAIT

instance : DecidablePred Absolute
  | .nanosleep _ | .poll _ => inferInstanceAs (Decidable False)
  | .clock_nanosleep _ flags _ => inferInstanceAs (Decidable (flags &&& TIMER_ABSTIME ≠ 0))
  | .futex op _ => inferInstanceAs (Decidable (op &&& FUTEX_CMD_MASK ≠ FUTEX_WAIT))

/-- The code takes the time for a deadline on the realtime clock. -/
def Offset : TimedCall → Prop
  | .nanosleep _ | .poll _ => False
  | .clock_nanosleep _ flags _ => flags = TIMER_ABSTIME
  | .futex op _ => op &&& FUTEX_CLOCK_REALTIME ≠ 0

instance : DecidablePred Offset
  | .nanosleep _ | .poll _ => inferInstanceAs (Decidable False)
  | .clock_nanosleep _ flags _ => inferInstanceAs (Decidable (flags = TIMER_ABSTIME))
  | .futex op _ => inferInstanceAs (Decidable (op &&& FUTEX_CLOCK_REALTIME ≠ 0))

def IsNanosleep : TimedCall → Prop
  | .nanosleep _ | .clock_nanosleep _ _ _ => True
  | .futex _ _ | .poll _ => False

instance : DecidablePred IsNanosleep
  | .nanosleep _ | .clock_nanosleep _ _ _ => inferInstanceAs (Decidable True)
  | .futex _ _ | .poll _ => inferInstanceAs (Decidable False)

/-- `nanosleep` counts in `uint64_t`, and the timeouts in `int64_t`. -/
def limit (call : TimedCall) : Nat := if call.IsNanosleep then 2 ^ 64 else 2 ^ 63

variable (call : TimedCall) (z : VirtTime) (numPhases : Nat)

/-- What the clock reads when the time of a call made in `numPhases` is over. -/
def deadline : Nat :=
  if call.Absolute then call.ns else z.virtClockGettime call.clock numPhases + call.ns

/-- The time is over in phase `p`. -/
def Over (p : Nat) : Prop := call.deadline z numPhases ≤ z.virtClockGettime call.clock p

/-- What is left of the time in phase `p`. -/
def left (p : Nat) : Nat := call.deadline z numPhases - z.virtClockGettime call.clock p

/-- The time that the thread is to sleep. -/
def waitNs : Nat :=
  if call.Offset then call.ns - z.virtClockGettime .REALTIME numPhases else call.ns

def waitPhases : Nat :=
  if call.IsNanosleep then z.fullPhases (call.waitNs z numPhases) + 1
  else max 2 (z.fullPhases (call.waitNs z numPhases))

/-- No integer and no clock wraps before the thread wakes. -/
structure Narrow : Prop where
  ns_lt : call.ns < call.limit
  cycles_lt : call.waitNs z numPhases * z.freqMHz < call.limit
  realtime_lt : call.Offset → z.virtClockGettime .REALTIME numPhases < call.limit
  runs : z.ClockRuns call.clock numPhases (call.waitPhases z numPhases)

variable {call z numPhases} {W : Nat}

theorem fullPhases_eq (x : Nat) : x * z.freqMHz / 1000 / z.phaseLength = z.fullPhases x :=
  Nat.div_div_eq_div_mul _ _ _

theorem Narrow.phases_lt (h : call.Narrow z numPhases) :
    numPhases + call.waitPhases z numPhases < 2 ^ 64 := by
  have hle := Nat.le_mul_of_pos_right (numPhases + call.waitPhases z numPhases) z.phase_pos
  have hlt := h.runs.cycles_lt
  exact Nat.lt_of_le_of_lt (Nat.le_trans hle (Nat.le_mul_of_pos_right _ (by omega))) hlt

/-- The wakeup phase of `nanosleep` and `clock_nanosleep`. -/
theorem patchNanosleep_eq {flags : Option (BitVec 32)} {ts : Timespec} {x : Nat}
    (hns : ts.ns < 2 ^ 64)
    (hx : x = if flags = some TIMER_ABSTIME then ts.ns - z.virtClockGettime .REALTIME numPhases
      else ts.ns) (hcycles : x * z.freqMHz < 2 ^ 64) :
    z.patchNanosleep numPhases flags ts = (numPhases + (z.fullPhases x + 1)) % 2 ^ 64 := by
  have hclock : (z.cyclesToNs (z.globPhaseCycles numPhases) + z.realtimeOffsetNs) % 2 ^ 64 =
      z.virtClockGettime .REALTIME numPhases := by
    rw [VirtTime.virtClockGettime, VirtTime.clockOffset, Nat.add_comm]
  have hwait : (if (if flags = some TIMER_ABSTIME then z.virtClockGettime .REALTIME numPhases
      else 0) ≤ ts.ns then ts.ns - (if flags = some TIMER_ABSTIME then
        z.virtClockGettime .REALTIME numPhases else 0) else 0) = x := by
    rw [hx]
    split_ifs <;> omega
  rw [VirtTime.patchNanosleep, hclock, ts.toNs_eq hns]
  rw [hwait, VirtTime.nsToCycles, Nat.mod_eq_of_lt hcycles, fullPhases_eq]

theorem toInt64_natCast {n : Nat} (h : n < 2 ^ 63) : toInt64 n = n := by
  rw [toInt64, Int.bmod_eq_of_le (by omega) (by omega)]

/-- The wakeup phase of the calls with a timeout. -/
theorem timeoutWakeup_eq {x : Nat} (hcycles : x * z.freqMHz < 2 ^ 63) :
    z.timeoutWakeup numPhases x = (numPhases + max 2 (z.fullPhases x)) % 2 ^ 64 := by
  have hmul : toInt64 ((x : Int) * z.freqMHz) = (x * z.freqMHz : Nat) := by
    rw [← Int.natCast_mul]
    exact toInt64_natCast hcycles
  have hdiv : ((x * z.freqMHz : Nat) : Int).tdiv 1000 = (x * z.freqMHz / 1000 : Nat) := rfl
  have hlt : x * z.freqMHz / 1000 < 2 ^ 64 := by omega
  have hmod : (((x * z.freqMHz / 1000 : Nat) : Int) % 2 ^ 64).toNat = x * z.freqMHz / 1000 := by
    omega
  rw [VirtTime.timeoutWakeup, hmul, hdiv, hmod]
  have hmax : (if z.fullPhases x < 2 then 2 else z.fullPhases x) = max 2 (z.fullPhases x) := by
    split_ifs <;> omega
  rw [fullPhases_eq, hmax]

theorem futexWaitNsec_eq {op : BitVec 32} {ts : Timespec}
    (h : (futex op ts).Narrow z numPhases) :
    z.futexWaitNsec numPhases op ts = ((futex op ts).waitNs z numPhases : Nat) := by
  have hns : ts.ns < 2 ^ 63 := h.ns_lt
  have hcast : ((ts.tv_sec * NSPS + ts.tv_nsec : Nat) : Int) =
      (ts.tv_sec : Int) * (NSPS : Nat) + ts.tv_nsec := by push_cast; ring
  have hint : toInt64 ((ts.tv_sec : Int) * (NSPS : Nat) + ts.tv_nsec) = (ts.ns : Nat) := by
    rw [← hcast]
    exact toInt64_natCast hns
  have hclock : (z.cyclesToNs (z.globPhaseCycles numPhases) + z.realtimeOffsetNs) % 2 ^ 64 =
      z.virtClockGettime .REALTIME numPhases := by
    rw [VirtTime.virtClockGettime, VirtTime.clockOffset, Nat.add_comm]
  rw [VirtTime.futexWaitNsec, hint, waitNs]
  simp only [hclock]
  by_cases hreal : op &&& FUTEX_CLOCK_REALTIME ≠ 0
  · have hlt : z.virtClockGettime .REALTIME numPhases < 2 ^ 63 := h.realtime_lt hreal
    have hoff : (futex op ts).Offset := hreal
    rw [if_pos hreal, if_pos hoff, toInt64_natCast hlt]
    change (if _ then _ else _) = ((ts.ns - z.virtClockGettime .REALTIME numPhases : Nat) : Int)
    split_ifs with hsub
    · rw [← Int.natCast_sub (by omega)]
      exact toInt64_natCast (by omega)
    · omega
  · have hoff : ¬ (futex op ts).Offset := hreal
    rw [if_neg hreal, if_neg hoff]
    rfl

/-- Without a wrap the thread sleeps for `waitPhases`. -/
theorem Narrow.wakeupPhase_eq (h : call.Narrow z numPhases)
    (hwake : z.wakeupPhase numPhases call = some W) :
    W = numPhases + call.waitPhases z numPhases := by
  have hmod := Nat.mod_eq_of_lt h.phases_lt
  cases call with
  | nanosleep ts =>
    rw [← hmod, ← Option.some.inj hwake]
    exact patchNanosleep_eq h.ns_lt rfl h.cycles_lt
  | clock_nanosleep clock flags ts =>
    rw [← hmod, ← Option.some.inj hwake]
    refine patchNanosleep_eq h.ns_lt ?_ h.cycles_lt
    simp only [waitNs, Offset, ns, Option.some.injEq]
    congr
  | futex op ts =>
    rw [VirtTime.wakeupPhase] at hwake
    split at hwake
    · rw [futexWaitNsec_eq h] at hwake
      dsimp only at hwake
      split at hwake
      · cases hwake
      · rw [← hmod, ← Option.some.inj hwake]
        exact timeoutWakeup_eq h.cycles_lt
    · cases hwake
  | poll timeout =>
    rw [VirtTime.wakeupPhase] at hwake
    split at hwake
    · cases hwake
    · have hns : (poll timeout).ns < 2 ^ 63 := h.ns_lt
      have hcast : timeout * 1000 * 1000 = ((poll timeout).ns : Nat) := by
        simp only [ns]
        omega
      rw [hcast, toInt64_natCast hns] at hwake
      rw [← hmod, ← Option.some.inj hwake]
      exact timeoutWakeup_eq h.cycles_lt

variable (z numPhases) in
/-- The phases of a timeout add up to it: it ends with a phase, or within the two phases
that every timeout takes. -/
def Whole (x : Nat) : Prop :=
  1000 * z.phaseLength ∣ x * z.freqMHz ∨ x * z.freqMHz ≤ 2 * (1000 * z.phaseLength)

variable (z numPhases) in
/-- `clock_nanosleep` measures an absolute time on the realtime clock, whatever the clock
asked for; a deadline may be in the past on both. The futex calls take the flag of the realtime clock
for an absolute time, and an absolute time on the monotonic clock for a relative one. Their
timeouts and that of `poll` lose what does not fill a phase. -/
def Timely : TimedCall → Prop
  | .nanosleep _ => True
  | .clock_nanosleep clock flags ts => flags = TIMER_ABSTIME →
      z.virtClockGettime .REALTIME numPhases ≤ z.virtClockGettime clock numPhases ∨
        ts.ns ≤ z.virtClockGettime clock numPhases
  | .futex op ts =>
      (op &&& FUTEX_CLOCK_REALTIME ≠ 0 → op &&& FUTEX_CMD_MASK = FUTEX_WAIT →
        z.virtClockGettime .REALTIME numPhases = 0) ∧
      (Whole z ((futex op ts).waitNs z numPhases) ∨
        op &&& FUTEX_CLOCK_REALTIME = 0 ∧ op &&& FUTEX_CMD_MASK ≠ FUTEX_WAIT ∧
          z.phaseNs ≤ z.virtClockGettime .MONOTONIC numPhases)
  | .poll timeout => Whole z (poll timeout).ns

theorem Whole.le {x : Nat} (h : Whole z x) :
    x * z.freqMHz ≤ max 2 (z.fullPhases x) * z.phaseLength * 1000 := by
  have hassoc : max 2 (z.fullPhases x) * z.phaseLength * 1000 =
      max 2 (z.fullPhases x) * (1000 * z.phaseLength) := by ring
  rw [hassoc]
  rcases h with h | h
  · rw [← Nat.div_mul_cancel h]
    exact Nat.mul_le_mul_right _ (Nat.le_max_right _ _)
  · exact Nat.le_trans h (Nat.mul_le_mul_right _ (Nat.le_max_left _ _))

/-- The deadline has come when the phases of a wait have gone by. -/
theorem Narrow.over (h : call.Narrow z numPhases)
    (hwait : call.waitNs z numPhases * z.freqMHz ≤
      call.waitPhases z numPhases * z.phaseLength * 1000)
    (hneed : call.deadline z numPhases ≤
      z.virtClockGettime call.clock numPhases + call.waitNs z numPhases) :
    call.Over z numPhases (numPhases + call.waitPhases z numPhases) :=
  Nat.le_trans hneed (h.runs.add_le_clock (Nat.le_refl _) hwait)

theorem waitNs_of_not_offset (h : ¬ call.Offset) : call.waitNs z numPhases = call.ns := if_neg h

theorem deadline_le (h : ¬ call.Offset) : call.deadline z numPhases ≤
    z.virtClockGettime call.clock numPhases + call.waitNs z numPhases := by
  rw [waitNs_of_not_offset h, deadline]
  split_ifs <;> omega

/-- A phase lost is made up for by a clock that is a phase ahead. -/
theorem Narrow.over_of_phase (h : call.Narrow z numPhases) (habs : call.Absolute)
    (hn : z.fullPhases call.ns ≤ call.waitPhases z numPhases)
    (hphase : z.phaseNs ≤ z.virtClockGettime call.clock numPhases) :
    call.Over z numPhases (numPhases + call.waitPhases z numPhases) := by
  have hfloor := VirtTime.lt_fullPhases (z := z) call.ns
  have hceil := VirtTime.le_phaseNs (z := z)
  have hx : (call.ns - z.phaseNs) * z.freqMHz ≤
      call.waitPhases z numPhases * z.phaseLength * 1000 := by
    have hle : z.fullPhases call.ns * z.phaseLength * 1000 ≤
        call.waitPhases z numPhases * z.phaseLength * 1000 :=
      Nat.mul_le_mul_right _ (Nat.mul_le_mul_right _ hn)
    have hsucc : (z.fullPhases call.ns + 1) * z.phaseLength * 1000 =
        z.fullPhases call.ns * z.phaseLength * 1000 + z.phaseLength * 1000 := by ring
    rw [Nat.sub_mul]
    omega
  have hadd := h.runs.add_le_clock (Nat.le_refl _) hx
  rw [Over, deadline, if_pos habs]
  omega

/-- A thread does not wake early. -/
theorem Narrow.over_of_timely (h : call.Narrow z numPhases) (ht : call.Timely z numPhases) :
    call.Over z numPhases (numPhases + call.waitPhases z numPhases) := by
  cases call with
  | nanosleep ts =>
    exact h.over (Nat.le_of_lt (VirtTime.lt_fullPhases _)) (deadline_le id)
  | clock_nanosleep clock flags ts =>
    refine h.over (Nat.le_of_lt (VirtTime.lt_fullPhases _)) ?_
    by_cases hoff : (clock_nanosleep clock flags ts).Offset
    · have habs : (clock_nanosleep clock flags ts).Absolute := by
        change flags &&& TIMER_ABSTIME ≠ 0
        rw [show flags = TIMER_ABSTIME from hoff]
        decide
      have htime := ht hoff
      rw [deadline, if_pos habs, waitNs, if_pos hoff]
      change ts.ns ≤ z.virtClockGettime clock numPhases +
        (ts.ns - z.virtClockGettime .REALTIME numPhases)
      omega
    · exact deadline_le hoff
  | futex op ts =>
    obtain ⟨hflag, hwhole | ⟨hmono, hcmd, hphase⟩⟩ := ht
    · refine h.over hwhole.le ?_
      by_cases hoff : (futex op ts).Offset
      · have hclock : (futex op ts).clock = .REALTIME := if_pos hoff
        rw [deadline, waitNs, if_pos hoff, hclock]
        split_ifs with habs
        · omega
        · rw [hflag hoff (not_not.mp habs)]
          omega
      · exact deadline_le hoff
    · have hoff : ¬ (futex op ts).Offset := not_not.mpr hmono
      have hclock : (futex op ts).clock = .MONOTONIC := if_neg (not_not.mpr hmono)
      refine h.over_of_phase hcmd ?_ (by rw [hclock]; exact hphase)
      rw [← waitNs_of_not_offset hoff]
      exact Nat.le_max_right _ _
  | poll timeout => exact h.over ht.le (deadline_le id)

/-! The time left at an interrupt. -/

/-- `rem` is what is left of the time in phase `p`, up to the length of a phase. -/
def RemWithin (call : TimedCall) (z : VirtTime) (numPhases p : Nat) (rem : Timespec) : Prop :=
  rem.ns ≤ call.left z numPhases p + z.phaseNs ∧ call.left z numPhases p ≤ rem.ns + z.phaseNs

/-- The call sleeps on the clock it asked for, as a relative time or up to a deadline. -/
def OwnClock (z : VirtTime) (numPhases : Nat) : TimedCall → Prop
  | .nanosleep _ => True
  | .clock_nanosleep clock flags _ => flags &&& TIMER_ABSTIME ≠ 0 → flags = TIMER_ABSTIME ∧
      z.virtClockGettime .REALTIME numPhases = z.virtClockGettime clock numPhases
  | .futex _ _ | .poll _ => False

/-- `rem` counts the phases left as cycles, which they are when a phase is a cycle; in the
last phase it does not matter. -/
def RemTimely (call : TimedCall) (z : VirtTime) (numPhases p : Nat) : Prop :=
  call.OwnClock z numPhases ∧
    (z.phaseLength = 1 ∨ numPhases + call.waitPhases z numPhases ≤ p + 1)

theorem OwnClock.isNanosleep (h : call.OwnClock z numPhases) : call.IsNanosleep := by
  cases call with
  | nanosleep => trivial
  | clock_nanosleep => trivial
  | futex => exact h
  | poll => exact h

theorem OwnClock.left_eq (h : call.OwnClock z numPhases) {p : Nat}
    (hp : z.virtClockGettime call.clock numPhases ≤ z.virtClockGettime call.clock p) :
    call.left z numPhases p = call.waitNs z numPhases -
      (z.virtClockGettime call.clock p - z.virtClockGettime call.clock numPhases) := by
  cases call with
  | nanosleep ts =>
    have habs : ¬ (nanosleep ts).Absolute := id
    have hoff : ¬ (nanosleep ts).Offset := id
    rw [left, deadline, if_neg habs, waitNs_of_not_offset hoff]
    omega
  | clock_nanosleep clock flags ts =>
    rw [left, deadline]
    split_ifs with habs
    · obtain ⟨hflags, hclock⟩ := h habs
      have hoff : (clock_nanosleep clock flags ts).Offset := hflags
      rw [waitNs, if_pos hoff, hclock]
      change _ = _ - z.virtClockGettime clock numPhases -
        (z.virtClockGettime clock p - z.virtClockGettime clock numPhases)
      change z.virtClockGettime clock numPhases ≤ z.virtClockGettime clock p at hp
      change _ - z.virtClockGettime clock p = _
      omega
    · have hoff : ¬ (clock_nanosleep clock flags ts).Offset := by
        intro hoff
        refine habs ?_
        change flags &&& TIMER_ABSTIME ≠ 0
        rw [show flags = TIMER_ABSTIME from hoff]
        decide
      rw [waitNs_of_not_offset hoff]
      omega
  | futex => exact h.elim
  | poll => exact h.elim

theorem le_of_mul_lt {a b k : Nat} (h : a * k < b * k + k) : a ≤ b := by
  have hlt : a * k < (b + 1) * k := by rwa [Nat.add_one_mul]
  exact Nat.lt_succ_iff.mp (Nat.lt_of_mul_lt_mul_right hlt)

/-- A sleep of `v` is `n` cycles long and a phase of `s`, of which `m` have gone by in `e`
and `k` are left. The phases left are `r`. -/
theorem rem_between {n s m k v e r r' c f : Nat} (hk : n + s = m + k) (hlo : n ≤ v)
    (hhi : v < n + s) (he : e < m + f) (he' : m < e + f) (hr : r ≤ r') (hr' : r' < r + f)
    (hs : s ≤ c) (hf : f ≤ c) (hlast : k = r' ∨ r' ≤ s ∧ k ≤ s) :
    r < v - e + c + f ∧ v - e < r + c + f := by
  omega

theorem remaining_ns {W p : Nat} {rem : Timespec} (hlt : W * 1000 < 2 ^ 64)
    (hrem : z.remaining W p = some rem) : p ≤ W ∧ rem.ns = (W - p) * 1000 / z.freqMHz := by
  rw [VirtTime.remaining] at hrem
  split at hrem
  · next hle =>
    have hmod : (W - p) * 1000 % 2 ^ 64 = (W - p) * 1000 :=
      Nat.mod_eq_of_lt (Nat.lt_of_le_of_lt (Nat.mul_le_mul_right _ (Nat.sub_le _ _)) hlt)
    dsimp only at hrem
    rw [hmod] at hrem
    exact ⟨hle, by rw [← Option.some.inj hrem, Timespec.ns_ofNs]⟩
  · cases hrem

/-- `rem` of a sleep that is interrupted in phase `p`. -/
theorem Narrow.remWithin (h : call.Narrow z numPhases) {p : Nat} (ht : call.RemTimely z numPhases p)
    (hp : numPhases ≤ p) {rem : Timespec}
    (hrem : z.remaining (numPhases + call.waitPhases z numPhases) p = some rem) :
    call.RemWithin z numPhases p rem := by
  obtain ⟨m, rfl⟩ := Nat.exists_eq_add_of_le hp
  obtain ⟨hown, hlast⟩ := ht
  have hphases : call.waitPhases z numPhases = z.fullPhases (call.waitNs z numPhases) + 1 :=
    if_pos hown.isNanosleep
  have hcycles := Nat.le_mul_of_pos_right (numPhases + call.waitPhases z numPhases) z.phase_pos
  obtain ⟨hle, hns⟩ := remaining_ns
    (Nat.lt_of_le_of_lt (Nat.mul_le_mul_right _ hcycles) h.runs.cycles_lt) hrem
  have hm : m ≤ call.waitPhases z numPhases := by omega
  obtain ⟨k, hk⟩ := Nat.exists_eq_add_of_le hm
  have hleft : numPhases + call.waitPhases z numPhases - (numPhases + m) = k := by omega
  rw [hleft] at hns
  obtain ⟨hclock, he, he'⟩ := h.runs.elapsed hm rfl
  have hsum : z.fullPhases (call.waitNs z numPhases) * z.phaseLength * 1000 +
      z.phaseLength * 1000 = m * z.phaseLength * 1000 + k * z.phaseLength * 1000 := by
    rw [← Nat.add_mul, ← Nat.add_mul, ← Nat.add_mul, ← hk, hphases]
    ring
  have hceil := VirtTime.le_phaseNs (z := z)
  have hone : z.freqMHz ≤ z.phaseNs * z.freqMHz :=
    Nat.le_mul_of_pos_left _ (Nat.pos_of_mul_pos_right (Nat.lt_of_lt_of_le
      (Nat.mul_pos z.phase_pos (by omega)) hceil))
  have hlast' : k * z.phaseLength * 1000 = k * 1000 ∨
      k * 1000 ≤ z.phaseLength * 1000 ∧ k * z.phaseLength * 1000 ≤ z.phaseLength * 1000 := by
    rcases hlast with hlast | hlast
    · rw [hlast, Nat.mul_one]
      exact .inl rfl
    · have hk1 : k ≤ 1 := by omega
      have hpos := z.phase_pos
      exact .inr ⟨Nat.mul_le_mul_right _ (by omega),
        Nat.mul_le_mul_right _ (by simpa using Nat.mul_le_mul_right z.phaseLength hk1)⟩
  have hhi := VirtTime.lt_fullPhases (z := z) (call.waitNs z numPhases)
  rw [Nat.add_one_mul, Nat.add_mul] at hhi
  have hmain := rem_between hsum (VirtTime.fullPhases_le _) hhi he he'
    (Nat.div_mul_le_self (k * 1000) z.freqMHz) (Nat.lt_div_mul_add z.freq_pos) hceil hone hlast'
  rw [← hns, ← Nat.sub_mul, ← Nat.add_mul, ← Nat.add_mul, ← hown.left_eq hclock] at hmain
  exact ⟨le_of_mul_lt hmain.1, le_of_mul_lt hmain.2⟩

end TimedCall

end ZSim
