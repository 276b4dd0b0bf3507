import Mathlib.Algebra.Order.Ring.Nat
import Mathlib.Logic.Function.Basic
import Mathlib.Tactic

/-! The instruction window of the out-of-order core and its in-order buffers. The window keeps
the ports taken in each of its next cycles, near ones in two arrays of `H` cycles that are
swapped as time passes and far ones in a sorted map. -/

namespace ZSim.OOO

structure WinCycle where
  occUnits : BitVec 8
  count : Nat

def WinCycle.empty : WinCycle := ⟨0, 0⟩

structure WindowStructure (H : Nat) where
  curWin : Nat → WinCycle
  nextWin : Nat → WinCycle
  ubWin : List (Nat × WinCycle)
  occupancy : Nat
  curPos : Fin H
  lastPort : Nat

def firstPort (mask : BitVec 8) : Nat := ((List.range 8).find? fun i => mask.getLsbD i).getD 0

/-- Takes the first port of the mask that is free, or all of it for a shadow request. -/
def trySchedule (touchOccupancy : Bool) (wc : WinCycle) (portMask : BitVec 8) :
    Option (WinCycle × Nat) :=
  let availMask := ~~~wc.occUnits &&& portMask
  if availMask = 0 then none
  else if touchOccupancy then
    let firstAvail := firstPort availMask
    some (⟨wc.occUnits ||| (1 <<< firstAvail), wc.count + 1⟩, firstAvail)
  else some (⟨wc.occUnits ||| portMask, wc.count⟩, 0)

/-- The walk over the map from `schedCycle` on, to the first cycle with a free port. -/
def scheduleUB (touchOccupancy : Bool) (portMask : BitVec 8) :
    List (Nat × WinCycle) → Nat → Option (List (Nat × WinCycle) × Nat × Nat)
  | [], schedCycle =>
    match trySchedule touchOccupancy .empty portMask with
    | some (wc, port) => some ([(schedCycle, wc)], schedCycle, port)
    | none => none
  | (cycle, wc) :: ub, schedCycle =>
    if cycle < schedCycle then
      match scheduleUB touchOccupancy portMask ub schedCycle with
      | some (ub, found) => some ((cycle, wc) :: ub, found)
      | none => none
    else if cycle ≠ schedCycle then
      match trySchedule touchOccupancy .empty portMask with
      | some (wc', port) => some ((schedCycle, wc') :: (cycle, wc) :: ub, schedCycle, port)
      | none => none
    else
      match trySchedule touchOccupancy wc portMask with
      | some (wc, port) => some ((cycle, wc) :: ub, schedCycle, port)
      | none =>
        match scheduleUB touchOccupancy portMask ub (schedCycle + 1) with
        | some (ub, found) => some ((cycle, wc) :: ub, found)
        | none => none

namespace WindowStructure

variable {H : Nat} (WSZ : Nat) (w : WindowStructure H)

def init (h : 0 < H) : WindowStructure H where
  curWin := fun _ => .empty
  nextWin := fun _ => .empty
  ubWin := []
  occupancy := 0
  curPos := ⟨0, h⟩
  lastPort := 0

/-- The position in `nextWin` of a cycle of the map, in 32 bits. -/
def nextWinPos (H curCycle cycle : Nat) : Nat := (((cycle : Int) - H - curCycle) % 2 ^ 32).toNat

/-- The swap of the arrays, with the cycles that came near moved from the map. -/
def rebase (h : 0 < H) (curCycle : Nat) : Option (WindowStructure H) :=
  let moved := w.ubWin.takeWhile fun e => e.1 < curCycle + 2 * H
  if ∀ e ∈ moved, nextWinPos H curCycle e.1 < H then
    some { w with
      curWin := w.nextWin
      nextWin := moved.foldl
        (fun win e => Function.update win (nextWinPos H curCycle e.1) e.2) w.curWin
      ubWin := w.ubWin.dropWhile fun e => e.1 < curCycle + 2 * H
      curPos := ⟨0, h⟩ }
  else none

def advancePos (curCycle : Nat) : Option (WindowStructure H × Nat) :=
  let w' : WindowStructure H := { w with
    occupancy := w.occupancy - (w.curWin w.curPos).count
    curWin := Function.update w.curWin w.curPos .empty }
  if h : w.curPos.val + 1 < H then some ({ w' with curPos := ⟨w.curPos.val + 1, h⟩ }, curCycle + 1)
  else
    match w'.rebase (Nat.zero_lt_of_lt w.curPos.isLt) (curCycle + 1) with
    | some w' => some (w', curCycle + 1)
    | none => none

def advanceBy : Nat → WindowStructure H → Nat → Option (WindowStructure H × Nat)
  | 0, w, curCycle => some (w, curCycle)
  | n + 1, w, curCycle =>
    match w.advancePos curCycle with
    | some (w, curCycle) => advanceBy n w curCycle
    | none => none

/-- The loop that waits for room in a full window. -/
def drain : Nat → WindowStructure H → Nat → Option (WindowStructure H × Nat)
  | 0, w, curCycle => if w.occupancy = WSZ then none else some (w, curCycle)
  | fuel + 1, w, curCycle =>
    if w.occupancy = WSZ then
      match w.advancePos curCycle with
      | some (w, curCycle) => drain fuel w curCycle
      | none => none
    else some (w, curCycle)

/-- The first position from `pos` on with a free port. -/
def findCycle (H : Nat) (win : Nat → WinCycle) (portMask : BitVec 8) (pos : Nat) : Option Nat :=
  (List.range' pos (H - pos)).find? fun i => ~~~(win i).occUnits &&& portMask ≠ 0

/-- `scheduleInternal` after the wait, on `uint32_t` positions: the window, the cycle found and
the port. -/
def place (touchOccupancy : Bool) (curCycle schedCycle : Nat) (portMask : BitVec 8) :
    Option (WindowStructure H × Nat × Nat) :=
  let delay := (schedCycle - curCycle) % 2 ^ 32
  let curWinPos := (w.curPos.val + delay) % 2 ^ 32
  let occupancy := if touchOccupancy then w.occupancy + 1 else w.occupancy
  match findCycle H w.curWin portMask curWinPos with
  | some pos =>
    match trySchedule touchOccupancy (w.curWin pos) portMask with
    | some (wc, port) =>
      some ({ w with curWin := Function.update w.curWin pos wc, occupancy := occupancy },
        curCycle + (pos + 2 ^ 32 - w.curPos.val) % 2 ^ 32, port)
    | none => none
  | none =>
    let nextWinPos := max curWinPos H - H
    match findCycle H w.nextWin portMask nextWinPos with
    | some pos =>
      match trySchedule touchOccupancy (w.nextWin pos) portMask with
      | some (wc, port) =>
        some ({ w with nextWin := Function.update w.nextWin pos wc, occupancy := occupancy },
          curCycle + (pos + H - w.curPos.val), port)
      | none => none
    | none =>
      let schedCycle := curCycle + (max nextWinPos H + H - w.curPos.val)
      match scheduleUB touchOccupancy portMask w.ubWin schedCycle with
      | some (ub, schedCycle, port) =>
        some ({ w with ubWin := ub, occupancy := occupancy }, schedCycle, port)
      | none => none

/-- The extra slots of a uop, on the port it took. -/
def placeExtra (curCycle : Nat) (portMask : BitVec 8) :
    Nat → Nat → WindowStructure H → Option (WindowStructure H)
  | 0, _, w => some w
  | n + 1, extraSlotCycle, w =>
    match w.place false curCycle extraSlotCycle portMask with
    | some (w, extraSlotCycle, _) => placeExtra curCycle portMask n (extraSlotCycle + 1) w
    | none => none

/-- `schedule`: the window, the current cycle and the cycle of the uop. -/
def schedule (fuel curCycle schedCycle : Nat) (portMask : BitVec 8) (extraSlots : Nat) :
    Option (WindowStructure H × Nat × Nat) := do
  let (w, curCycle) ← drain WSZ fuel w curCycle
  let (w, schedCycle, port) ← w.place true curCycle schedCycle portMask
  let w := if extraSlots = 0 then w else { w with lastPort := port }
  let w ← placeExtra curCycle (1 <<< w.lastPort) extraSlots (schedCycle + 1) w
  guard (w.occupancy ≤ WSZ)
  some (w, curCycle, schedCycle)

/-- The loop of `poisonRange`, from `poisonCycle` on. -/
def poisonFrom (curCycle targetCycle : Nat) (portMask : BitVec 8) :
    Nat → Nat → WindowStructure H → Option (WindowStructure H)
  | 0, poisonCycle, w => if poisonCycle < targetCycle then none else some w
  | fuel + 1, poisonCycle, w =>
    if poisonCycle < targetCycle then
      match w.place false curCycle poisonCycle portMask with
      | some (w, poisonCycle, _) => poisonFrom curCycle targetCycle portMask fuel poisonCycle w
      | none => none
    else some w

def poisonRange (fuel curCycle targetCycle : Nat) (portMask : BitVec 8) :
    Option (WindowStructure H) :=
  poisonFrom curCycle targetCycle portMask fuel curCycle w

/-- The loop of `longAdvance`, for at most the cycles to its target. -/
def drainTo : Nat → WindowStructure H → Nat → Option (WindowStructure H × Nat)
  | 0, w, curCycle => some (w, curCycle)
  | n + 1, w, curCycle =>
    if w.occupancy = 0 then some (w, curCycle)
    else
      match w.advancePos curCycle with
      | some (w, curCycle) => drainTo n w curCycle
      | none => none

def longAdvance (curCycle targetCycle : Nat) : Option (WindowStructure H × Nat) := do
  guard (curCycle ≤ targetCycle)
  let (w, curCycle) ← drainTo (targetCycle - curCycle) w curCycle
  if w.occupancy ≠ 0 then
    guard (curCycle = targetCycle)
    some (w, curCycle)
  else
    guard (curCycle ≤ targetCycle)
    some (w, targetCycle)

variable {WSZ w} {w' : WindowStructure H} {curCycle cur schedCycle sched port : Nat}
variable {portMask : BitVec 8}

theorem advancePos_cycle (h : w.advancePos curCycle = some (w', cur)) : cur = curCycle + 1 := by
  unfold advancePos at h
  dsimp only at h
  split at h
  · cases h
    rfl
  · split at h
    · cases h
      rfl
    · cases h

theorem advanceBy_cycle {n : Nat} (h : advanceBy n w curCycle = some (w', cur)) :
    cur = curCycle + n := by
  induction n generalizing w curCycle with
  | zero =>
    cases h
    rfl
  | succ n ih =>
    rw [advanceBy] at h
    split at h
    · rename_i w₁ cur₁ hadv
      have := advancePos_cycle hadv
      have := ih h
      omega
    · cases h

theorem drain_cycle {fuel : Nat} (h : drain WSZ fuel w curCycle = some (w', cur)) :
    curCycle ≤ cur := by
  induction fuel generalizing w curCycle with
  | zero =>
    rw [drain] at h
    split at h
    · cases h
    · cases h
      exact Nat.le_refl _
  | succ fuel ih =>
    rw [drain] at h
    split at h
    · split at h
      · rename_i w₁ cur₁ hadv
        have := advancePos_cycle hadv
        have := ih h
        omega
      · cases h
    · cases h
      exact Nat.le_refl _

theorem drain_of_ne {fuel : Nat} (hroom : w.occupancy ≠ WSZ) :
    drain WSZ fuel w curCycle = some (w, curCycle) := by
  cases fuel with
  | zero => rw [drain, if_neg hroom]
  | succ fuel => rw [drain, if_neg hroom]

theorem findCycle_ge {win : Nat → WinCycle} {pos found : Nat}
    (h : findCycle H win portMask pos = some found) : pos ≤ found ∧ found < H := by
  have := List.mem_range'_1.mp (List.mem_of_find?_eq_some h)
  omega

theorem scheduleUB_ge {touch : Bool} {ub ub' : List (Nat × WinCycle)}
    (h : scheduleUB touch portMask ub schedCycle = some (ub', sched, port)) :
    schedCycle ≤ sched := by
  induction ub generalizing schedCycle ub' with
  | nil =>
    rw [scheduleUB] at h
    split at h
    · cases h
      exact Nat.le_refl _
    · cases h
  | cons e ub ih =>
    obtain ⟨cycle, wc⟩ := e
    rw [scheduleUB] at h
    split_ifs at h with hlt hne
    · split at h
      · rename_i hrec
        cases h
        exact ih hrec
      · cases h
    · split at h
      · cases h
        exact Nat.le_refl _
      · cases h
    · split at h
      · cases h
        exact Nat.le_refl _
      · split at h
        · rename_i hrec
          cases h
          exact Nat.le_of_succ_le (ih hrec)
        · cases h

/-- A place within the range of the positions is not before the cycle asked for. -/
theorem place_ge {touch : Bool} (hrange : w.curPos.val + (schedCycle - curCycle) < 2 ^ 32)
    (hH : H ≤ 2 ^ 32)
    (h : w.place touch curCycle schedCycle portMask = some (w', sched, port)) :
    schedCycle ≤ sched := by
  have hpos := w.curPos.isLt
  unfold place at h
  dsimp only at h
  rw [Nat.mod_eq_of_lt (show schedCycle - curCycle < 2 ^ 32 by omega),
    Nat.mod_eq_of_lt hrange] at h
  split at h
  · rename_i pos hfind
    have := findCycle_ge hfind
    split at h
    · cases h
      omega
    · cases h
  · split at h
    · rename_i pos hfind
      have := findCycle_ge hfind
      split at h
      · cases h
        omega
      · cases h
    · split at h
      · rename_i hub
        cases h
        have := scheduleUB_ge hub
        omega
      · cases h

/-- A uop is scheduled no earlier than asked, and a window with room does not wait. -/
theorem schedule_spec {fuel extraSlots : Nat} (hrange : schedCycle + H ≤ curCycle + 2 ^ 32)
    (hH : H ≤ 2 ^ 32)
    (h : w.schedule WSZ fuel curCycle schedCycle portMask extraSlots = some (w', cur, sched)) :
    curCycle ≤ cur ∧ schedCycle ≤ sched ∧ (w.occupancy ≠ WSZ → cur = curCycle) := by
  simp only [schedule, Option.bind_eq_bind, Option.bind_eq_some_iff, Prod.exists] at h
  obtain ⟨w₁, cur₁, hdrain, w₂, sched₂, port, hplace, w₃, -, -, -, heq⟩ := h
  cases heq
  have hle := drain_cycle hdrain
  have hpos := w₁.curPos.isLt
  refine ⟨hle, place_ge (by omega) hH hplace, ?_⟩
  intro hroom
  rw [drain_of_ne hroom] at hdrain
  cases hdrain
  rfl

end WindowStructure

/-- A buffer of `SZ` entries, whose entries leave in order, `W` a cycle. -/
structure ReorderBuffer where
  buf : Nat → Nat
  curRetireCycle : Nat
  curCycleRetires : Nat
  idx : Nat

namespace ReorderBuffer

def init : ReorderBuffer := ⟨fun _ => 0, 0, 1, 0⟩

def minAllocCycle (b : ReorderBuffer) : Nat := b.buf b.idx

def markRetire (SZ W : Nat) (b : ReorderBuffer) (minRetireCycle : Nat) : ReorderBuffer :=
  let (curRetireCycle, curCycleRetires) :=
    if minRetireCycle ≤ b.curRetireCycle then
      if b.curCycleRetires = W then (b.curRetireCycle + 1, 0)
      else (b.curRetireCycle, b.curCycleRetires + 1)
    else (minRetireCycle, 1)
  ⟨Function.update b.buf b.idx curRetireCycle, curRetireCycle, curCycleRetires,
    if b.idx + 1 = SZ then 0 else b.idx + 1⟩

end ReorderBuffer

/-- A buffer of `SZ` entries that are allocated and leave in order. -/
structure CycleQueue where
  buf : Nat → Nat
  idx : Nat

namespace CycleQueue

def init : CycleQueue := ⟨fun _ => 0, 0⟩

def minAllocCycle (q : CycleQueue) : Nat := q.buf q.idx

def markLeave (SZ : Nat) (q : CycleQueue) (leaveCycle : Nat) : CycleQueue :=
  ⟨Function.update q.buf q.idx leaveCycle, if q.idx + 1 = SZ then 0 else q.idx + 1⟩

end CycleQueue

end ZSim.OOO
