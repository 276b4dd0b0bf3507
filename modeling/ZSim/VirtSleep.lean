import Mathlib.Tactic

/-! Virtual time: the clocks of a process, and the phase at which the scheduler is asked to
wake a thread that sleeps or waits with a timeout. 64-bit integers wrap. The offsets of the
clock domain stay as they are while a thread sleeps, and a null pointer, an invalid
`timespec` and the fast-forwarding of a process are left out. -/

namespace ZSim

def NSPS : Nat := 1000 * 1000 * 1000

/-- A `timespec` that passes the check for `EINVAL`. -/
structure Timespec where
  tv_sec : Nat
  tv_nsec : Nat
  nsec_lt : tv_nsec < NSPS

namespace Timespec

def toNs (ts : Timespec) : Nat := (ts.tv_sec * NSPS + ts.tv_nsec) % 2 ^ 64

/-- The time itself, without the wrap. -/
def ns (ts : Timespec) : Nat := ts.tv_sec * NSPS + ts.tv_nsec

def ofNs (ns : Nat) : Timespec := ⟨ns / NSPS, ns % NSPS, Nat.mod_lt _ (by decide)⟩

theorem ns_ofNs (n : Nat) : (ofNs n).ns = n := Nat.div_add_mod' n NSPS

theorem toNs_eq (ts : Timespec) (h : ts.ns < 2 ^ 64) : ts.toNs = ts.ns := Nat.mod_eq_of_lt h

end Timespec

inductive ClockId
  | REALTIME | MONOTONIC | PROCESS_CPUTIME_ID | THREAD_CPUTIME_ID
  deriving DecidableEq

def TIMER_ABSTIME : BitVec 32 := 1

def FUTEX_WAIT : BitVec 32 := 0
def FUTEX_WAIT_BITSET : BitVec 32 := 9
def FUTEX_WAIT_REQUEUE_PI : BitVec 32 := 11
def FUTEX_CLOCK_REALTIME : BitVec 32 := 256

/-- All bits but `FUTEX_PRIVATE_FLAG` and `FUTEX_CLOCK_REALTIME`. -/
def FUTEX_CMD_MASK : BitVec 32 := ~~~(128 ||| 256)

def isFutexWaitOp (op : BitVec 32) : Bool :=
  let cmd := op &&& FUTEX_CMD_MASK
  cmd == FUTEX_WAIT || cmd == FUTEX_WAIT_BITSET || cmd == FUTEX_WAIT_REQUEUE_PI

/-- The calls whose time is virtual. `poll` stands for `epoll_wait` and `epoll_pwait` too,
and its timeout is in milliseconds. -/
inductive TimedCall
  | nanosleep (ts : Timespec)
  | clock_nanosleep (clock : ClockId) (flags : BitVec 32) (ts : Timespec)
  | futex (op : BitVec 32) (timeout : Timespec)
  | poll (timeout : Int)

/-- `zinfo->freqMHz`, `zinfo->phaseLength` and the offsets of the clock domain. -/
structure VirtTime where
  freqMHz : Nat
  phaseLength : Nat
  realtimeOffsetNs : Nat
  monotonicOffsetNs : Nat
  processOffsetNs : Nat
  freq_pos : 0 < freqMHz
  phase_pos : 0 < phaseLength

/-- The conversion to `int64_t`. -/
def toInt64 (n : Int) : Int := n.bmod (2 ^ 64)

namespace VirtTime

variable (z : VirtTime)

def cyclesToNs (cycles : Nat) : Nat := cycles * 1000 % 2 ^ 64 / z.freqMHz

def nsToCycles (ns : Nat) : Nat := ns * z.freqMHz % 2 ^ 64 / 1000

/-- The phases are added up one by one. -/
def globPhaseCycles (numPhases : Nat) : Nat := numPhases * z.phaseLength % 2 ^ 64

def clockOffset : ClockId → Nat
  | .MONOTONIC => z.monotonicOffsetNs
  | .REALTIME => z.realtimeOffsetNs
  | .PROCESS_CPUTIME_ID => z.processOffsetNs
  | .THREAD_CPUTIME_ID => z.processOffsetNs

/-- The clock that a thread reads in a phase. -/
def virtClockGettime (clock : ClockId) (numPhases : Nat) : Nat :=
  (z.clockOffset clock + z.cyclesToNs (z.globPhaseCycles numPhases)) % 2 ^ 64

/-- `PatchNanosleep` up to the mark, for the flags of `clock_nanosleep`. -/
def patchNanosleep (numPhases : Nat) (flags : Option (BitVec 32)) (ts : Timespec) : Nat :=
  let offsetNsec :=
    if flags = some TIMER_ABSTIME then
      (z.cyclesToNs (z.globPhaseCycles numPhases) + z.realtimeOffsetNs) % 2 ^ 64
    else 0
  let waitNsec := ts.toNs
  let waitNsec := if offsetNsec ≤ waitNsec then waitNsec - offsetNsec else 0
  let waitCycles := z.nsToCycles waitNsec
  let waitPhases := waitCycles / z.phaseLength + 1
  (numPhases + waitPhases) % 2 ^ 64

def futexWaitNsec (numPhases : Nat) (op : BitVec 32) (timeout : Timespec) : Int :=
  let waitNsec := toInt64 (timeout.tv_sec * NSPS + timeout.tv_nsec)
  if op &&& FUTEX_CLOCK_REALTIME ≠ 0 then
    let simNs := z.cyclesToNs (z.globPhaseCycles numPhases)
    let offsetNs : Nat := (simNs + z.realtimeOffsetNs) % 2 ^ 64
    if toInt64 offsetNs < waitNsec then toInt64 (waitNsec - offsetNs) else 0
  else waitNsec

/-- The end of `PrePatchTimeoutSyscall`. -/
def timeoutWakeup (numPhases : Nat) (waitNsec : Int) : Nat :=
  let waitCycles := ((toInt64 (waitNsec * z.freqMHz)).tdiv 1000 % 2 ^ 64).toNat
  let waitPhases := waitCycles / z.phaseLength
  let waitPhases := if waitPhases < 2 then 2 else waitPhases
  (numPhases + waitPhases) % 2 ^ 64

/-- The phase a thread is marked with, if the call is made a sleep. -/
def wakeupPhase (numPhases : Nat) : TimedCall → Option Nat
  | .nanosleep ts => some (z.patchNanosleep numPhases none ts)
  | .clock_nanosleep _ flags ts => some (z.patchNanosleep numPhases (some flags) ts)
  | .futex op timeout =>
    if isFutexWaitOp op then
      let waitNsec := z.futexWaitNsec numPhases op timeout
      if waitNsec ≤ 0 then none else some (z.timeoutWakeup numPhases waitNsec)
    else none
  | .poll timeout =>
    if timeout ≤ 0 then none
    else some (z.timeoutWakeup numPhases (toInt64 (timeout * 1000 * 1000)))

/-- `rem` after `EINTR`, with the assert before it. -/
def remaining (wakeupPhase numPhases : Nat) : Option Timespec :=
  if numPhases ≤ wakeupPhase then
    let remainingCycles := wakeupPhase - numPhases
    let remainingNsecs := remainingCycles * 1000 % 2 ^ 64 / z.freqMHz
    some (.ofNs remainingNsecs)
  else none

/-- The time at the start of a phase, without the wrap. -/
def simNs (numPhases : Nat) : Nat := numPhases * z.phaseLength * 1000 / z.freqMHz

/-- The length of a phase, rounded up. -/
def phaseNs : Nat := (z.phaseLength * 1000 + z.freqMHz - 1) / z.freqMHz

/-- The full phases in a time. -/
def fullPhases (ns : Nat) : Nat := ns * z.freqMHz / (1000 * z.phaseLength)

/-- A clock does not wrap in the `n` phases after `numPhases`. -/
structure ClockRuns (clock : ClockId) (numPhases n : Nat) : Prop where
  cycles_lt : (numPhases + n) * z.phaseLength * 1000 < 2 ^ 64
  reading_lt : z.virtClockGettime clock numPhases +
    (z.simNs (numPhases + n) - z.simNs numPhases) < 2 ^ 64

variable {z} {clock : ClockId} {numPhases n m : Nat}

theorem simNs_mono {p q : Nat} (h : p ≤ q) : z.simNs p ≤ z.simNs q :=
  Nat.div_le_div_right (Nat.mul_le_mul_right _ (Nat.mul_le_mul_right _ h))

theorem cyclesToNs_glob {p : Nat} (h : p * z.phaseLength * 1000 < 2 ^ 64) :
    z.cyclesToNs (z.globPhaseCycles p) = z.simNs p := by
  have hlt : p * z.phaseLength < 2 ^ 64 := by omega
  rw [cyclesToNs, globPhaseCycles, simNs, Nat.mod_eq_of_lt hlt, Nat.mod_eq_of_lt h]

theorem ClockRuns.cycles_le (h : z.ClockRuns clock numPhases n) (hm : m ≤ n) :
    (numPhases + m) * z.phaseLength * 1000 < 2 ^ 64 := by
  have hle : (numPhases + m) * z.phaseLength ≤ (numPhases + n) * z.phaseLength :=
    Nat.mul_le_mul_right _ (by omega)
  exact Nat.lt_of_le_of_lt (Nat.mul_le_mul_right _ hle) h.cycles_lt

/-- A clock runs with the phases. -/
theorem ClockRuns.clock_eq (h : z.ClockRuns clock numPhases n) (hm : m ≤ n) :
    z.virtClockGettime clock (numPhases + m) =
      z.virtClockGettime clock numPhases + (z.simNs (numPhases + m) - z.simNs numPhases) := by
  have hP : z.cyclesToNs (z.globPhaseCycles numPhases) = z.simNs numPhases :=
    cyclesToNs_glob (h.cycles_le (m := 0) (by omega))
  have hmono : z.simNs numPhases ≤ z.simNs (numPhases + m) := simNs_mono (by omega)
  have hend : z.simNs (numPhases + m) ≤ z.simNs (numPhases + n) := simNs_mono (by omega)
  have hlt := h.reading_lt
  rw [virtClockGettime, cyclesToNs_glob (h.cycles_le hm)]
  rw [virtClockGettime, hP] at hlt ⊢
  omega

/-- A time goes by in as many phases as it has cycles. -/
theorem ClockRuns.add_le_clock (h : z.ClockRuns clock numPhases n) (hm : m ≤ n) {x : Nat}
    (hx : x * z.freqMHz ≤ m * z.phaseLength * 1000) :
    z.virtClockGettime clock numPhases + x ≤ z.virtClockGettime clock (numPhases + m) := by
  have hsim : z.simNs numPhases + x ≤ z.simNs (numPhases + m) := by
    rw [simNs, simNs, ← Nat.add_mul_div_right _ _ z.freq_pos]
    refine Nat.div_le_div_right ?_
    calc numPhases * z.phaseLength * 1000 + x * z.freqMHz
        ≤ numPhases * z.phaseLength * 1000 + m * z.phaseLength * 1000 := by omega
      _ = (numPhases + m) * z.phaseLength * 1000 := by ring
  rw [h.clock_eq hm]
  omega

theorem lt_fullPhases (x : Nat) :
    x * z.freqMHz < (z.fullPhases x + 1) * z.phaseLength * 1000 := by
  have hpos : 0 < 1000 * z.phaseLength := by have := z.phase_pos; omega
  have hlt := Nat.lt_mul_div_succ (x * z.freqMHz) hpos
  calc x * z.freqMHz < 1000 * z.phaseLength * (z.fullPhases x + 1) := hlt
    _ = (z.fullPhases x + 1) * z.phaseLength * 1000 := by ring

theorem fullPhases_le (x : Nat) : z.fullPhases x * z.phaseLength * 1000 ≤ x * z.freqMHz := by
  have hle := Nat.mul_div_le (x * z.freqMHz) (1000 * z.phaseLength)
  calc z.fullPhases x * z.phaseLength * 1000 = 1000 * z.phaseLength * z.fullPhases x := by ring
    _ ≤ x * z.freqMHz := hle

theorem le_phaseNs : z.phaseLength * 1000 ≤ z.phaseNs * z.freqMHz := by
  have hlt := Nat.lt_mul_div_succ (z.phaseLength * 1000 + z.freqMHz - 1) z.freq_pos
  have hmul : z.freqMHz * (z.phaseNs + 1) = z.phaseNs * z.freqMHz + z.freqMHz := by ring
  have hpos := z.freq_pos
  change _ < z.freqMHz * (z.phaseNs + 1) at hlt
  omega

theorem simNs_mul_le (p : Nat) : z.simNs p * z.freqMHz ≤ p * z.phaseLength * 1000 :=
  Nat.div_mul_le_self _ _

theorem lt_simNs_mul (p : Nat) :
    p * z.phaseLength * 1000 < z.simNs p * z.freqMHz + z.freqMHz := by
  have hlt := Nat.lt_mul_div_succ (p * z.phaseLength * 1000) z.freq_pos
  have hmul : z.freqMHz * (z.simNs p + 1) = z.simNs p * z.freqMHz + z.freqMHz := by ring
  exact hmul ▸ hlt

theorem sub_between {a b x y k : Nat} (hlo : a ≤ x) (hlo' : x < a + k) (hhi : b ≤ x + y)
    (hhi' : x + y < b + k) : b - a < y + k ∧ y < b - a + k := by
  omega

/-- The time that a clock shows to have gone by is off by less than a nanosecond. -/
theorem ClockRuns.elapsed (h : z.ClockRuns clock numPhases n) (hm : m ≤ n) {e : Nat}
    (he : e = z.virtClockGettime clock (numPhases + m) - z.virtClockGettime clock numPhases) :
    z.virtClockGettime clock numPhases ≤ z.virtClockGettime clock (numPhases + m) ∧
      e * z.freqMHz < m * z.phaseLength * 1000 + z.freqMHz ∧
      m * z.phaseLength * 1000 < e * z.freqMHz + z.freqMHz := by
  have hlo := simNs_mul_le (z := z) numPhases
  have hlo' := lt_simNs_mul (z := z) numPhases
  have hhi := simNs_mul_le (z := z) (numPhases + m)
  have hhi' := lt_simNs_mul (z := z) (numPhases + m)
  rw [h.clock_eq hm, Nat.add_sub_cancel_left] at he
  rw [h.clock_eq hm, he, Nat.sub_mul]
  rw [Nat.add_mul, Nat.add_mul] at hhi hhi'
  exact ⟨Nat.le_add_right _ _, sub_between hlo hlo' hhi hhi'⟩

end VirtTime

end ZSim
