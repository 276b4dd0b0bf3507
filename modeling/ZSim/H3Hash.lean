import Mathlib

/-! The H3 family of hash functions: its unrolled loop and the loop of its comment. -/

namespace ZSim

open Finset

section Bits

variable {w : Nat}

/-- Bits of a word as numbers modulo 2, and their places modulo its width. -/
def bitAt (v : BitVec w) (n : Nat) : ZMod 2 := if v.getLsbD (n % w) then 1 else 0

theorem bitAt_zero (n : Nat) : bitAt (0 : BitVec w) n = 0 := by
  simp [bitAt]

theorem bitAt_xor (u v : BitVec w) (n : Nat) : bitAt (u ^^^ v) n = bitAt u n + bitAt v n := by
  rw [bitAt, bitAt, bitAt, BitVec.getLsbD_xor]
  cases u.getLsbD (n % w) <;> cases v.getLsbD (n % w) <;> decide

theorem bitAt_and (u v : BitVec w) (n : Nat) : bitAt (u &&& v) n = bitAt u n * bitAt v n := by
  rw [bitAt, bitAt, bitAt, BitVec.getLsbD_and]
  cases u.getLsbD (n % w) <;> cases v.getLsbD (n % w) <;> decide

theorem bitAt_add_width (v : BitVec w) (n : Nat) : bitAt v (n + w) = bitAt v n := by
  rw [bitAt, bitAt, Nat.add_mod_right]

theorem bitAt_mod (v : BitVec w) (n : Nat) : bitAt v (n % w) = bitAt v n := by
  rw [bitAt, bitAt, Nat.mod_mod]

theorem bitAt_rotateLeft (v : BitVec w) (hw : 0 < w) {k : Nat} (hk : k < w) (n : Nat) :
    bitAt (v.rotateLeft k) (n + k) = bitAt v n := by
  have hn := Nat.mod_lt n hw
  rw [bitAt, bitAt, BitVec.getLsbD_rotateLeft, Nat.mod_eq_of_lt hk]
  by_cases hwrap : n % w + k < w
  · have hmod : (n + k) % w = n % w + k := by
      rw [Nat.add_mod, Nat.mod_eq_of_lt hk, Nat.mod_eq_of_lt hwrap]
    have hlt : ¬ n % w + k < k := by omega
    simp [hmod, hlt, hwrap]
  · have hmod : (n + k) % w = n % w + k - w := by
      rw [Nat.add_mod, Nat.mod_eq_of_lt hk, Nat.mod_eq_sub_mod (by omega), Nat.mod_eq_of_lt (by omega)]
    have hlt : n % w + k - w < k := by omega
    have hback : w - k + (n % w + k - w) = n % w := by omega
    simp [hmod, hlt, hback]

theorem bitAt_ext {u v : BitVec w} (h : ∀ n, bitAt u n = bitAt v n) : u = v := by
  apply BitVec.eq_of_getLsbD_eq
  intro i hi
  have hbit := h i
  rw [bitAt, bitAt, Nat.mod_eq_of_lt hi] at hbit
  revert hbit
  cases u.getLsbD i <;> cases v.getLsbD i <;> decide

end Bits

structure H3HashFamily where
  numFuncs : Nat
  resShift : Nat
  hMatrix : Nat → BitVec 64

namespace H3HashFamily

/-- `(v << k) | (v >> (64 - k))`. -/
def rotl (v : BitVec 64) (k : Nat) : BitVec 64 := (v <<< k) ||| (v >>> (64 - k))

/-- Eight rows of the matrix from `base`, an unsigned 32-bit integer. -/
def rows (h : H3HashFamily) (base : Nat) (val res : BitVec 64) : BitVec 64 :=
  let row (i : Nat) : BitVec 64 := val &&& h.hMatrix ((base + i) % 2 ^ 32)
  let res := res ^^^ (row 0 ^^^ rotl (row 1) 1 ^^^ rotl (row 2) 2 ^^^ rotl (row 3) 3)
  let res := res ^^^ (rotl (row 4) 4 ^^^ rotl (row 5) 5 ^^^ rotl (row 6) 6 ^^^ rotl (row 7) 7)
  rotl res 8

/-- The fold of the result to fewer bits. -/
def fold (resShift : Nat) (res : BitVec 64) : BitVec 64 :=
  match resShift with
  | 1 => (res >>> 32) ^^^ res
  | 2 =>
    let res := (res >>> 32) ^^^ res
    (res >>> 16) ^^^ res
  | 3 =>
    let res := (res >>> 32) ^^^ res
    let res := (res >>> 16) ^^^ res
    (res >>> 8) ^^^ res
  | _ => res

def unrolled (h : H3HashFamily) (id : Nat) (val : BitVec 64) : Nat → BitVec 64
  | 0 => 0
  | n + 1 => h.rows ((id <<< (6 - h.resShift) + 8 * n) % 2 ^ 32) val (h.unrolled id val n)

def hash (h : H3HashFamily) (id : Nat) (val : BitVec 64) : Option (BitVec 64) :=
  if id < h.numFuncs then some (fold h.resShift (h.unrolled id val (64 >>> h.resShift / 8)))
  else none

def row (h : H3HashFamily) (id x : Nat) : BitVec 64 := h.hMatrix ((id * 64 + x) % 2 ^ 32)

/-- The first `n` rounds of the loop of the comment. -/
def rounds (h : H3HashFamily) (id : Nat) (val : BitVec 64) : Nat → BitVec 64
  | 0 => 0
  | n + 1 =>
    let res := h.rounds id val n ^^^ (val &&& h.row id n)
    (res <<< 1) ||| (res >>> 63)

/-- The loop of the comment. -/
def reference (h : H3HashFamily) (id : Nat) (val : BitVec 64) : BitVec 64 := h.rounds id val 64

/-- The row that lies as far before the first row of its block of eight as `x` lies after
it. -/
def mirror (x : Nat) : Nat := (8 * (x / 8) + 64 - x % 8) % 64

variable (h : H3HashFamily) (id : Nat) (val : BitVec 64)

theorem rotl_eq (v : BitVec 64) {k : Nat} (hk : k < 64) : rotl v k = v.rotateLeft k := by
  rw [rotl, BitVec.rotateLeft_def, Nat.mod_eq_of_lt hk]

theorem bitAt_rotl (v : BitVec 64) {k : Nat} (hk : k < 64) (n : Nat) :
    bitAt (rotl v k) n = bitAt v (n + (64 - k)) := by
  rw [rotl_eq v hk, ← bitAt_add_width, show n + 64 = n + (64 - k) + k by omega,
    bitAt_rotateLeft v (by decide) hk]

/-- The bit that row `x` gives to the place `n`. -/
def rowBit (x n : Nat) : ZMod 2 := bitAt val n * bitAt (h.row id x) n

theorem bitAt_row (x n : Nat) : bitAt (val &&& h.row id x) n = h.rowBit id val x n := bitAt_and ..

theorem bitAt_rounds (n p : Nat) :
    bitAt (h.rounds id val n) (p + n) = ∑ x ∈ range n, h.rowBit id val x (p + x) := by
  induction n with
  | zero => exact bitAt_zero p
  | succ n ih =>
    have hround : h.rounds id val (n + 1) =
        rotl (h.rounds id val n ^^^ (val &&& h.row id n)) 1 := rfl
    rw [sum_range_succ, ← ih, hround, bitAt_rotl _ (by decide),
      show p + (n + 1) + (64 - 1) = p + n + 64 by omega, bitAt_add_width, bitAt_xor, bitAt_row]

/-- The rows of one block, each turned by its place in it. -/
theorem bitAt_rows (res : BitVec 64) (n p : Nat) :
    bitAt (h.rows ((id * 64 + 8 * n) % 2 ^ 32) val res) (p + 8) =
      bitAt res p + ∑ j ∈ range 8, h.rowBit id val (8 * n + j) (p + 64 - j) := by
  have hrow : ∀ i, h.hMatrix (((id * 64 + 8 * n) % 2 ^ 32 + i) % 2 ^ 32) = h.row id (8 * n + i) := by
    intro i
    rw [row, Nat.mod_add_mod, Nat.add_assoc]
  have hturn : ∀ j, j < 8 → bitAt (rotl (val &&& h.row id (8 * n + j)) j) p =
      h.rowBit id val (8 * n + j) (p + 64 - j) := by
    intro j hj
    rw [bitAt_rotl _ (by omega), bitAt_row, show p + (64 - j) = p + 64 - j by omega]
  have hzero : bitAt (val &&& h.row id (8 * n)) p = h.rowBit id val (8 * n) (p + 64) := by
    rw [bitAt_row, rowBit, rowBit, bitAt_add_width, bitAt_add_width]
  rw [rows]
  simp only [hrow]
  rw [bitAt_rotl _ (by decide), show p + 8 + (64 - 8) = p + 64 by omega, bitAt_add_width]
  simp only [bitAt_xor, Nat.add_zero, hzero, sum_range_succ, sum_range_zero, Nat.sub_zero]
  rw [hturn 1 (by decide), hturn 2 (by decide), hturn 3 (by decide), hturn 4 (by decide),
    hturn 5 (by decide), hturn 6 (by decide), hturn 7 (by decide)]
  ring

theorem bitAt_unrolled (hout : h.resShift = 0) (n p : Nat) :
    bitAt (h.unrolled id val n) (p + 8 * n) =
      ∑ b ∈ range n, ∑ j ∈ range 8, h.rowBit id val (8 * b + j) (p + 8 * b + 64 - j) := by
  induction n with
  | zero => exact bitAt_zero p
  | succ n ih =>
    have hblock : h.unrolled id val (n + 1) =
        h.rows ((id * 64 + 8 * n) % 2 ^ 32) val (h.unrolled id val n) := by
      rw [unrolled, hout, Nat.shiftLeft_eq]
    rw [sum_range_succ, ← ih, hblock, show p + 8 * (n + 1) = p + 8 * n + 8 by omega, bitAt_rows]

theorem rowBit_congr {x m n : Nat} (hmn : m % 64 = n % 64) :
    h.rowBit id val x m = h.rowBit id val x n := by
  rw [rowBit, rowBit, ← bitAt_mod, ← bitAt_mod (h.row id x), hmn, bitAt_mod, bitAt_mod]

theorem sum_blocks (f : Nat → ZMod 2) (n : Nat) :
    ∑ b ∈ range n, ∑ j ∈ range 8, f (8 * b + j) = ∑ x ∈ range (8 * n), f x := by
  induction n with
  | zero => rfl
  | succ n ih => rw [sum_range_succ, ih, Nat.mul_succ, sum_range_add]

theorem bitAt_hash (hout : h.resShift = 0) (p : Nat) :
    bitAt (h.unrolled id val 8) p = ∑ x ∈ range 64, h.rowBit id val x (p + mirror x) := by
  rw [← bitAt_add_width, show p + 64 = p + 8 * 8 by omega, bitAt_unrolled h id val hout,
    ← sum_blocks _ 8]
  refine sum_congr rfl fun b _ => sum_congr rfl fun j hj => ?_
  rw [mem_range] at hj
  apply rowBit_congr
  rw [mirror]
  omega

theorem mirror_lt (x : Nat) : mirror x < 64 := Nat.mod_lt _ (by decide)

theorem image_mirror : (range 64).image mirror = range 64 := by decide

theorem mirror_injOn : Set.InjOn mirror (range 64) :=
  injOn_of_card_image_eq (by rw [image_mirror])

/-- The loop of the comment, with its rows in the order of their turns in `hash`. -/
theorem bitAt_reference (p : Nat) :
    bitAt (h.reference id val) p =
      ∑ x ∈ range 64, h.rowBit id val (mirror x) (p + mirror x) := by
  have hsum := sum_image (f := fun x => h.rowBit id val x (p + x)) mirror_injOn
  rw [image_mirror] at hsum
  rw [reference, ← bitAt_add_width, bitAt_rounds, hsum]

/-- The bits that row `x` and its mirror image give to the place `p` of the results differ. -/
def Differs (p x : Nat) : Prop :=
  (val &&& (h.row id x ^^^ h.row id (mirror x))).getLsbD ((p + mirror x) % 64) = true

instance (p x : Nat) : Decidable (h.Differs id val p x) := inferInstanceAs (Decidable (_ = _))

/-- At every place of the result the rows and their mirror images differ an even number of
times, for the value `val`. -/
def Balanced : Prop := ∀ p < 64, Even ((range 64).filter (h.Differs id val p)).card

theorem differs_eq (p x : Nat) : (if h.Differs id val p x then (1 : ZMod 2) else 0) =
    h.rowBit id val x (p + mirror x) + h.rowBit id val (mirror x) (p + mirror x) := by
  have hbit : (if h.Differs id val p x then (1 : ZMod 2) else 0) =
      bitAt (val &&& (h.row id x ^^^ h.row id (mirror x))) (p + mirror x) := rfl
  rw [hbit, bitAt_and, bitAt_xor, mul_add, rowBit, rowBit]

theorem bitAt_hash_add (hout : h.resShift = 0) (p : Nat) :
    bitAt (h.unrolled id val 8) p + bitAt (h.reference id val) p =
      (((range 64).filter (h.Differs id val p)).card : ZMod 2) := by
  rw [bitAt_hash h id val hout, bitAt_reference, ← sum_add_distrib, natCast_card_filter]
  exact sum_congr rfl fun x _ => (differs_eq h id val p x).symm

theorem unrolled_eq_iff (hout : h.resShift = 0) :
    h.unrolled id val 8 = h.reference id val ↔ h.Balanced id val := by
  have heven : ∀ p, bitAt (h.unrolled id val 8) p = bitAt (h.reference id val) p ↔
      Even ((range 64).filter (h.Differs id val p)).card := by
    intro p
    rw [← ZMod.natCast_eq_zero_iff_even, ← bitAt_hash_add h id val hout, CharTwo.add_eq_zero]
  constructor
  · intro heq p _
    rw [← heven, heq]
  · intro hbal
    refine bitAt_ext fun p => ?_
    rw [← bitAt_mod, ← bitAt_mod (h.reference id val)]
    exact (heven (p % 64)).mpr (hbal _ (Nat.mod_lt p (by decide)))

theorem differs_twoPow {i x : Nat} (hi : i < 64) (hx : x < 64) {y : Nat} (hy : y < 64)
    (hd : h.Differs id (BitVec.twoPow 64 i) ((i + 64 - mirror x) % 64) y) : y = x := by
  rw [Differs, BitVec.getLsbD_and, BitVec.getLsbD_twoPow] at hd
  simp only [Bool.and_eq_true, decide_eq_true_eq] at hd
  have hplace := hd.1.2
  have hmx := mirror_lt x
  have hmy := mirror_lt y
  exact mirror_injOn (by simpa using hy) (by simpa using hx) (by omega)

/-- A value with one bit set shows each row that is not its mirror image. -/
theorem row_eq_of_balanced (hbal : ∀ val, h.Balanced id val) {x : Nat} (hx : x < 64) :
    h.row id x = h.row id (mirror x) := by
  apply BitVec.eq_of_getLsbD_eq
  intro i hi
  by_contra hne
  have hmx := mirror_lt x
  have hplace : ((i + 64 - mirror x) % 64 + mirror x) % 64 = i := by omega
  have hd : h.Differs id (BitVec.twoPow 64 i) ((i + 64 - mirror x) % 64) x := by
    rw [Differs, hplace, BitVec.getLsbD_and, BitVec.getLsbD_twoPow, BitVec.getLsbD_xor]
    simpa [hi] using hne
  have hone : (range 64).filter
      (h.Differs id (BitVec.twoPow 64 i) ((i + 64 - mirror x) % 64)) = {x} := by
    ext y
    rw [mem_filter, mem_range, mem_singleton]
    constructor
    · exact fun hy => differs_twoPow h id hi hx hy.1 hy.2
    · rintro rfl
      exact ⟨hx, hd⟩
  have heven := hbal (BitVec.twoPow 64 i) _ (Nat.mod_lt (i + 64 - mirror x) (by decide))
  rw [hone, card_singleton] at heven
  exact absurd heven (by decide)

theorem balanced_of_rows (hrows : ∀ x < 64, h.row id x = h.row id (mirror x)) :
    h.Balanced id val := by
  intro p _
  have hnone : (range 64).filter (h.Differs id val p) = ∅ := by
    refine filter_eq_empty_iff.mpr fun x hx hd => ?_
    rw [Differs, ← hrows x (mem_range.mp hx), BitVec.xor_self] at hd
    simp at hd
  rw [hnone]
  exact ⟨0, rfl⟩

/-- `hash` gives each row another turn than its comment does: that of its mirror image. -/
theorem hash_eq_reference_iff (hid : id < h.numFuncs) (hout : h.resShift = 0) :
    (∀ val, h.hash id val = some (h.reference id val) ↔ h.Balanced id val) ∧
      ((∀ val, h.hash id val = some (h.reference id val)) ↔
        ∀ x < 64, h.row id x = h.row id (mirror x)) := by
  have hvalue : ∀ val, h.hash id val = some (h.reference id val) ↔ h.Balanced id val := by
    intro val
    rw [hash, if_pos hid, hout, Option.some_inj]
    exact unrolled_eq_iff h id val hout
  refine ⟨hvalue, fun hall x hx => ?_, fun hrows val => ?_⟩
  · exact row_eq_of_balanced h id (fun val => (hvalue val).mp (hall val)) hx
  · exact (hvalue val).mpr (balanced_of_rows h id val hrows)

/-- One function, whose matrix has one row that is not zero. -/
def oneRow (x : Nat) : H3HashFamily := ⟨1, 0, fun i => if i = x then 1 else 0⟩

theorem hash_eq_reference_iff_oneRow :
    0 < (oneRow 0).numFuncs ∧ (oneRow 0).resShift = 0 ∧
      ((oneRow 0).hash 0 5 = some ((oneRow 0).reference 0 5) ↔ (oneRow 0).Balanced 0 5) :=
  ⟨by decide, rfl, (hash_eq_reference_iff (oneRow 0) 0 (by decide) rfl).1 5⟩

theorem second_row_turns : ¬ ∀ (h : H3HashFamily) (id : Nat) (val : BitVec 64),
    id < h.numFuncs → h.resShift = 0 → h.hash id val = some (h.reference id val) := by
  intro hall
  have heq := hall (oneRow 1) 0 1 (by decide) rfl
  exact absurd heq (by decide +kernel)

end H3HashFamily

end ZSim
