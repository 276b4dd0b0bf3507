import ZSim.Tokenize
import Mathlib.Algebra.Order.Ring.Int
import Mathlib.Algebra.Order.Ring.Nat
import Mathlib.Data.Fin.VecNotation

/-! Core masks: the ranges of a mask string and the mask they fill. -/

namespace ZSim

def isspace (c : Char) : Bool := c = ' ' || ('\t' ≤ c && c ≤ '\r')

/-- The number written by decimal digits. -/
def decimal (digits : List Char) : Nat :=
  digits.foldl (fun n c => 10 * n + (c.toNat - 48)) 0

/-- What may stand before the digits of a number. -/
def extractSign : List Char → Bool × List Char
  | '-' :: s => (true, s)
  | '+' :: s => (false, s)
  | s => (false, s)

/-- `ss >> x` for a `uint32_t x`, which stops at the first character after the digits. The stream
fails without digits and on overflow. -/
def extractUInt32 (s : List Char) : Option (BitVec 32) :=
  let (negative, s) := extractSign (s.dropWhile isspace)
  let digits := s.takeWhile Char.isDigit
  if digits = [] then none
  else if 2 ^ 32 ≤ decimal digits then none
  else some (if negative then -BitVec.ofNat 32 (decimal digits) else BitVec.ofNat 32 (decimal digits))

/-- A range that passed the constructor's checks. -/
structure Range where
  min : BitVec 32
  sup : BitVec 32
  step : BitVec 32
  min_nonneg : 0 ≤ min.toInt
  step_pos : 0 < step.toInt
  min_lt_sup : min.toInt < sup.toInt

namespace Range

/-- The three fields for the numbers given. -/
def fields : List (BitVec 32) → Option (BitVec 32 × BitVec 32 × BitVec 32)
  | [min] => some (min, min + 1, 1)
  | [min, sup] => some (min, sup, 1)
  | [min, sup, step] => some (min, sup, step)
  | _ => none

/-- The constructor's final error checking. -/
def check (min sup step : BitVec 32) : Option Range :=
  if hneg : min.toInt < 0 ∨ step.toInt < 0 ∨ sup.toInt < 0 then none
  else if hstep : step.toInt = 0 then none
  else if hle : min.toInt ≥ sup.toInt then none
  else some ⟨min, sup, step, by omega, by omega, by omega⟩

/-- The constructor; a panic is `none`. -/
def new (r : List Char) : Option Range :=
  ((tokenize (· == ':') r).mapM extractUInt32).bind fun n =>
    (fields n).bind fun (min, sup, step) => check min sup step

/-- The next index overflows to a negative one or is the sum. -/
theorem next_index (i step : BitVec 32) (hi : 0 ≤ i.toInt) (hstep : 0 < step.toInt) :
    (i + step).toInt < 0 ∧ 2 ^ 31 ≤ i.toInt + step.toInt ∨
      (i + step).toInt = i.toInt + step.toInt := by
  have hadd := BitVec.toInt_add i step
  have hilt := BitVec.toInt_lt (x := i)
  have hslt := BitVec.toInt_lt (x := step)
  rw [Int.bmod_def] at hadd
  split at hadd <;> omega

/-- The loop of `fill` from `i` on. An index that overflows is negative, and panics. -/
def fillFrom (r : Range) (i : BitVec 32) (mask : List Bool) : Option (List Bool) :=
  if i.toInt < r.sup.toInt then
    if i.toInt ≥ (BitVec.ofNat 32 mask.length).toInt ∨ i.toInt < 0 then none
    else r.fillFrom (i + r.step) (mask.set i.toNat true)
  else some mask
termination_by if i.toInt < 0 then 0 else (r.sup.toInt - i.toInt).toNat + 1
decreasing_by
  have hstep := r.step_pos
  rcases next_index i r.step (by omega) hstep with hneg | hadd <;> split <;> split <;> omega

def fill (r : Range) (mask : List Bool) : Option (List Bool) := r.fillFrom r.min mask

end Range

/-- A panic is `none`. -/
def parseMask (maskStr : List Char) (maskSize : BitVec 32) : Option (List Bool) :=
  (tokenize (· == ' ') maskStr).foldlM (fun mask r =>
    if r.length = 0 then some mask else (Range.new r).bind fun range => range.fill mask)
    (List.replicate maskSize.toNat false)

end ZSim
