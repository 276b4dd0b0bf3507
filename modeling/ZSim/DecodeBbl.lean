import Mathlib.Algebra.Order.Ring.Nat
import Mathlib.Tactic

/-! The front end of a basic block: the cycles in which its instructions are predecoded, and the
4-1-1-1 decoder that gives each uop its decode cycle. Blocks and logs have the last instruction
first. -/

namespace ZSim

/-- What the entries of a log that fell in cycle `c` add up to. -/
def cycleLoad {α : Type} (f : α → Nat) (c : Nat) : List (Nat × α) → Nat
  | [] => 0
  | e :: log => (if e.1 = c then f e.2 else 0) + cycleLoad f c log

theorem cycleLoad_eq_zero {α : Type} {f : α → Nat} {c : Nat} {log : List (Nat × α)}
    (h : ∀ e ∈ log, e.1 < c) : cycleLoad f c log = 0 := by
  induction log with
  | nil => rfl
  | cons e log ih =>
    have he := h e List.mem_cons_self
    rw [cycleLoad, if_neg (by omega), ih fun e he => h e (List.mem_cons_of_mem _ he)]

theorem cycleLoad_cons_le {α : Type} {f : α → Nat} {cyc bound : Nat} {x : α}
    {log : List (Nat × α)} (h : ∀ c, cycleLoad f c log ≤ bound)
    (hcyc : f x + cycleLoad f cyc log ≤ bound) (c : Nat) :
    cycleLoad f c ((cyc, x) :: log) ≤ bound := by
  have := h c
  rw [cycleLoad]
  split
  · rename_i hc
    rw [← hc]
    exact hcyc
  · omega

theorem cycleLoad_tail_le {α : Type} (f : α → Nat) (c : Nat) (e : Nat × α)
    (log : List (Nat × α)) : cycleLoad f c log ≤ cycleLoad f c (e :: log) := by
  rw [cycleLoad]
  omega

namespace DecodeBbl

/-- An instruction with its bytes and uops; a fused branch has none of its own. -/
structure Instr where
  bytes : Nat
  uops : Nat

structure DecodedIns where
  bytes : Nat
  uops : Nat
  short : bytes ≤ 15
  pos : 0 < uops

/-- What the block is made of: instructions, and pairs that fuse. -/
inductive Ins where
  | single (ins : DecodedIns)
  | fused (ins : DecodedIns) (branchBytes : Fin 16)

def collect : List Ins → List Instr
  | [] => []
  | .single ins :: block => ⟨ins.bytes, ins.uops⟩ :: collect block
  | .fused ins branchBytes :: block =>
    ⟨branchBytes, 0⟩ :: ⟨ins.bytes, ins.uops⟩ :: collect block

structure Predecoder where
  pcyc : Nat
  psz : Nat
  pcnt : Nat
  pblk : Nat

def predecode (startAddr addr bytes : Nat) (p : Predecoder) : Predecoder :=
  let block := ((addr - startAddr) >>> 4) % 2 ^ 32
  if p.psz + bytes > 16 ∨ p.pcnt + 1 > 6 ∨ block > p.pblk then ⟨p.pcyc + 1, bytes, 1, block⟩
  else ⟨p.pcyc, p.psz + bytes, p.pcnt + 1, p.pblk⟩

structure Decoder where
  uopIdx : Nat
  dcyc : Nat
  dsimple : Nat
  dcomplex : Nat

/-- Small decoders take instructions of one uop and at most 7 bytes. -/
def simple (i : Instr) : Bool := i.uops = 1 && i.bytes < 8

/-- No instruction is decoded before it is predecoded. -/
def catchUp (pcyc : Nat) (d : Decoder) : Decoder :=
  if pcyc > d.dcyc then { d with dcyc := pcyc, dsimple := 0, dcomplex := 0 } else d

def stalls (i : Instr) (d : Decoder) : Bool :=
  (simple i && d.dsimple + d.dcomplex = 4) || (!simple i && d.dcomplex = 1)

def decode (pcyc : Nat) (i : Instr) (d : Decoder) : Decoder :=
  if i.uops = 0 then d
  else
    let d := catchUp pcyc d
    let d := if stalls i d then { d with dcyc := d.dcyc + 1, dsimple := 0, dcomplex := 0 } else d
    { d with
      dsimple := if simple i then d.dsimple + 1 else d.dsimple
      dcomplex := if simple i then d.dcomplex else d.dcomplex + 1
      uopIdx := d.uopIdx + i.uops }

variable (start : Nat)

def nextAddr : List Instr → Nat
  | [] => start
  | i :: past => nextAddr past + i.bytes

def predecoder : List Instr → Predecoder
  | [] => ⟨0, 0, 0, 0⟩
  | i :: past => predecode (start >>> 4 <<< 4) (nextAddr start past) i.bytes (predecoder past)

def decoder : List Instr → Decoder
  | [] => ⟨0, 0, 0, 0⟩
  | i :: past => decode (predecoder start (i :: past)).pcyc i (decoder past)

def predecoded : List Instr → List (Nat × Instr)
  | [] => []
  | i :: past => ((predecoder start (i :: past)).pcyc, i) :: predecoded past

/-- The instructions that have uops, with the cycle their uops keep in 16 bits. -/
def decoded : List Instr → List (Nat × Instr)
  | [] => []
  | i :: past =>
    if i.uops = 0 then decoded past
    else ((decoder start (i :: past)).dcyc % 2 ^ 16, i) :: decoded past

/-- The writes of `decCycle`, in order. -/
def decCycles : List Instr → List (Nat × Nat)
  | [] => []
  | i :: past => decCycles past ++
      (List.range i.uops).map fun j =>
        ((decoder start past).uopIdx + j, (decoder start (i :: past)).dcyc % 2 ^ 16)

def uopCount : List Instr → Nat
  | [] => 0
  | i :: past => uopCount past + i.uops

def complexity (i : Instr) : Nat := if simple i then 0 else 1

structure DecodesInWidth (is : List Instr) : Prop where
  /-- Each uop gets one cycle. -/
  once : (decCycles start is).map Prod.fst = List.range (uopCount is)
  shared : ∀ i past, i :: past <:+ is → ∀ j < i.uops,
    (uopCount past + j, (decoder start (i :: past)).dcyc % 2 ^ 16) ∈ decCycles start is
  ordered : (decoded start is).Pairwise fun e e' => e'.1 ≤ e.1
  predecodedFirst : ∀ i past, i :: past <:+ is → i.uops ≠ 0 →
    (predecoder start (i :: past)).pcyc ≤ (decoder start (i :: past)).dcyc % 2 ^ 16
  predecodedInstrs : ∀ c, cycleLoad (fun _ => 1) c (predecoded start is) ≤ 6
  predecodedBytes : ∀ c, cycleLoad Instr.bytes c (predecoded start is) ≤ 16
  instrs : ∀ c, cycleLoad (fun _ => 1) c (decoded start is) ≤ 4
  complex : ∀ c, cycleLoad complexity c (decoded start is) ≤ 1

/-- The decoder when the instruction comes. -/
def caughtUp (i : Instr) (past : List Instr) : Decoder :=
  catchUp (predecoder start (i :: past)).pcyc (decoder start past)

/-- No complex instruction comes when all four decoders have a simple one, and the cycles fit the
16 bits of `decCycle`. -/
def ComplexFirst (is : List Instr) : Prop :=
  ∀ i past, i :: past <:+ is → i.uops ≠ 0 →
    (simple i = false →
      ¬ ((caughtUp start i past).dsimple = 4 ∧ (caughtUp start i past).dcomplex = 0)) ∧
    (decoder start (i :: past)).dcyc < 2 ^ 16

variable {start} {i : Instr} {past is : List Instr} {d : Decoder}

/-- What the predecoder counts of the current cycle. -/
structure PredecodesInWidth (start : Nat) (is : List Instr) : Prop where
  le : ∀ e ∈ predecoded start is, e.1 ≤ (predecoder start is).pcyc
  pcnt : cycleLoad (fun _ => 1) (predecoder start is).pcyc (predecoded start is) =
    (predecoder start is).pcnt
  psz : cycleLoad Instr.bytes (predecoder start is).pcyc (predecoded start is) =
    (predecoder start is).psz
  instrs : ∀ c, cycleLoad (fun _ => 1) c (predecoded start is) ≤ 6
  bytes : ∀ c, cycleLoad Instr.bytes c (predecoded start is) ≤ 16

variable (start) in
theorem predecoder_cons (i : Instr) (past : List Instr) :
    (∃ pblk, predecoder start (i :: past) =
      ⟨(predecoder start past).pcyc + 1, i.bytes, 1, pblk⟩) ∨
    ((predecoder start past).psz + i.bytes ≤ 16 ∧ (predecoder start past).pcnt + 1 ≤ 6 ∧
      predecoder start (i :: past) = ⟨(predecoder start past).pcyc,
        (predecoder start past).psz + i.bytes, (predecoder start past).pcnt + 1,
        (predecoder start past).pblk⟩) := by
  rw [predecoder, predecode]
  split
  · exact Or.inl ⟨_, rfl⟩
  · rename_i h
    exact Or.inr ⟨by omega, by omega, rfl⟩

variable (start) in
theorem predecodesInWidth (h : ∀ i ∈ is, i.bytes ≤ 15) : PredecodesInWidth start is := by
  induction is with
  | nil => exact ⟨fun e he => absurd he List.not_mem_nil, rfl, rfl, fun _ => Nat.zero_le 6,
      fun _ => Nat.zero_le 16⟩
  | cons i past ih =>
    have hp := ih fun x hx => h x (List.mem_cons_of_mem _ hx)
    have hbytes := h i List.mem_cons_self
    have hcnt := hp.pcnt
    have hsz := hp.psz
    have hnew : ∀ f : Instr → Nat,
        cycleLoad f ((predecoder start past).pcyc + 1) (predecoded start past) = 0 :=
      fun f => cycleLoad_eq_zero fun e he => Nat.lt_succ_of_le (hp.le e he)
    have hle : (predecoder start past).pcyc ≤ (predecoder start (i :: past)).pcyc := by
      rcases predecoder_cons start i past with ⟨pblk, heq⟩ | ⟨-, -, heq⟩
      · rw [heq]
        exact Nat.le_succ _
      · rw [heq]
    have hall : ∀ e ∈ predecoded start (i :: past),
        e.1 ≤ (predecoder start (i :: past)).pcyc := by
      intro e he
      rcases List.mem_cons.mp he with rfl | he
      · exact Nat.le_refl _
      · exact Nat.le_trans (hp.le e he) hle
    rcases predecoder_cons start i past with ⟨pblk, heq⟩ | ⟨hpsz, hpcnt, heq⟩
    · refine ⟨hall, ?_, ?_, cycleLoad_cons_le hp.instrs ?_, cycleLoad_cons_le hp.bytes ?_⟩
      · simp only [predecoded, cycleLoad, heq, hnew, if_true]
      · simp only [predecoded, cycleLoad, heq, hnew, if_true, Nat.add_zero]
      · rw [heq]
        simp only [hnew]
        omega
      · rw [heq]
        simp only [hnew]
        omega
    · refine ⟨hall, ?_, ?_, cycleLoad_cons_le hp.instrs ?_, cycleLoad_cons_le hp.bytes ?_⟩
      · simp only [predecoded, cycleLoad, heq, if_true]
        omega
      · simp only [predecoded, cycleLoad, heq, if_true]
        omega
      · rw [heq]
        dsimp only
        omega
      · rw [heq]
        dsimp only
        omega

theorem uopIdx_eq (is : List Instr) : (decoder start is).uopIdx = uopCount is := by
  induction is with
  | nil => rfl
  | cons i past ih =>
    rw [decoder, decode, uopCount, ← ih]
    by_cases hz : i.uops = 0
    · rw [if_pos hz, hz]
      rfl
    · rw [if_neg hz]
      dsimp only
      unfold catchUp
      split_ifs <;> rfl

theorem decCycles_once (is : List Instr) :
    (decCycles start is).map Prod.fst = List.range (uopCount is) := by
  induction is with
  | nil => rfl
  | cons i past ih =>
    rw [decCycles, List.map_append, ih, uopCount, uopIdx_eq, List.range_add, List.map_map]
    rfl

theorem decCycles_shared (h : i :: past <:+ is) {j : Nat} (hj : j < i.uops) :
    (uopCount past + j, (decoder start (i :: past)).dcyc % 2 ^ 16) ∈ decCycles start is := by
  induction is with
  | nil => exact absurd (List.suffix_nil.mp h) (List.cons_ne_nil i past)
  | cons x xs ih =>
    rw [decCycles]
    rcases List.suffix_cons_iff.mp h with heq | h
    · cases heq
      apply List.mem_append_right
      rw [uopIdx_eq]
      exact List.mem_map_of_mem (List.mem_range.mpr hj)
    · exact List.mem_append_left _ (ih h)

/-- The log before its cycles are cut to 16 bits. -/
def decodedIn (start : Nat) : List Instr → List (Nat × Instr)
  | [] => []
  | i :: past =>
    if i.uops = 0 then decodedIn start past
    else ((decoder start (i :: past)).dcyc, i) :: decodedIn start past

structure Counts (d : Decoder) (log : List (Nat × Instr)) : Prop where
  le : ∀ e ∈ log, e.1 ≤ d.dcyc
  count : cycleLoad (fun _ => 1) d.dcyc log = d.dsimple + d.dcomplex
  complex : cycleLoad complexity d.dcyc log = d.dcomplex

theorem Counts.catchUp {d : Decoder} {log : List (Nat × Instr)} (h : Counts d log) (pcyc : Nat) :
    Counts (catchUp pcyc d) log := by
  unfold DecodeBbl.catchUp
  split
  · rename_i hlt
    have hnew : ∀ f : Instr → Nat, cycleLoad f pcyc log = 0 :=
      fun f => cycleLoad_eq_zero fun e he => Nat.lt_of_le_of_lt (h.le e he) hlt
    exact ⟨fun e he => Nat.le_of_lt (Nat.lt_of_le_of_lt (h.le e he) hlt), hnew _, hnew _⟩
  · exact h

theorem decoder_fused (hz : i.uops = 0) : decoder start (i :: past) = decoder start past := by
  rw [decoder, decode, if_pos hz]

theorem decoder_stalls (hz : i.uops ≠ 0) (h : stalls i (caughtUp start i past) = true) :
    (decoder start (i :: past)).dcyc = (caughtUp start i past).dcyc + 1 ∧
    (decoder start (i :: past)).dsimple + (decoder start (i :: past)).dcomplex = 1 ∧
    (decoder start (i :: past)).dcomplex = complexity i := by
  unfold caughtUp at h ⊢
  rw [decoder, decode, if_neg hz, complexity]
  dsimp only
  rw [if_pos h]
  cases simple i <;> exact ⟨rfl, rfl, rfl⟩

theorem decoder_joins (hz : i.uops ≠ 0) (h : stalls i (caughtUp start i past) = false) :
    (decoder start (i :: past)).dcyc = (caughtUp start i past).dcyc ∧
    (decoder start (i :: past)).dsimple + (decoder start (i :: past)).dcomplex =
      (caughtUp start i past).dsimple + (caughtUp start i past).dcomplex + 1 ∧
    (decoder start (i :: past)).dcomplex =
      (caughtUp start i past).dcomplex + complexity i := by
  have hn : ¬ stalls i (caughtUp start i past) = true := by simp [h]
  unfold caughtUp at hn ⊢
  rw [decoder, decode, if_neg hz, complexity]
  dsimp only
  rw [if_neg hn]
  cases simple i
  · exact ⟨rfl, by simp only [Bool.false_eq_true, if_false]; omega, rfl⟩
  · exact ⟨rfl, by simp only [if_true]; omega, rfl⟩

variable (start) in
theorem counts (is : List Instr) : Counts (decoder start is) (decodedIn start is) := by
  induction is with
  | nil => exact ⟨fun e he => absurd he List.not_mem_nil, rfl, rfl⟩
  | cons i past ih =>
    by_cases hz : i.uops = 0
    · rw [decoder_fused hz, decodedIn, if_pos hz]
      exact ih
    · have hc : Counts (caughtUp start i past) (decodedIn start past) := ih.catchUp _
      have hcnt := hc.count
      have hcpx := hc.complex
      rw [decodedIn, if_neg hz]
      cases hs : stalls i (caughtUp start i past)
      · obtain ⟨hdcyc, hsum, hcomplex⟩ := decoder_joins hz hs
        refine ⟨fun e he => ?_, ?_, ?_⟩
        · rcases List.mem_cons.mp he with rfl | he
          · exact Nat.le_refl _
          · rw [hdcyc]
            exact hc.le e he
        · rw [cycleLoad, if_pos rfl, hdcyc, hsum]
          omega
        · rw [cycleLoad, if_pos rfl, hdcyc, hcomplex, hcpx, Nat.add_comm]
      · obtain ⟨hdcyc, hsum, hcomplex⟩ := decoder_stalls hz hs
        have hnew : ∀ f : Instr → Nat,
            cycleLoad f ((caughtUp start i past).dcyc + 1) (decodedIn start past) = 0 :=
          fun f => cycleLoad_eq_zero fun e he => Nat.lt_succ_of_le (hc.le e he)
        refine ⟨fun e he => ?_, ?_, ?_⟩
        · rcases List.mem_cons.mp he with rfl | he
          · exact Nat.le_refl _
          · rw [hdcyc]
            exact Nat.le_succ_of_le (hc.le e he)
        · rw [cycleLoad, if_pos rfl, hdcyc, hsum, hnew]
        · rw [cycleLoad, if_pos rfl, hdcyc, hcomplex, hnew, Nat.add_zero]

theorem stalls_true : stalls i d = true ↔
    simple i = true ∧ d.dsimple + d.dcomplex = 4 ∨ simple i = false ∧ d.dcomplex = 1 := by
  simp [stalls]

variable (start) in
theorem decodedIn_complex (is : List Instr) (c : Nat) :
    cycleLoad complexity c (decodedIn start is) ≤ 1 := by
  induction is generalizing c with
  | nil => exact Nat.zero_le 1
  | cons i past ih =>
    by_cases hz : i.uops = 0
    · rw [decodedIn, if_pos hz]
      exact ih c
    · have hcounts := (counts start (i :: past)).complex
      rw [decodedIn, if_neg hz, cycleLoad, if_pos rfl] at hcounts
      rw [decodedIn, if_neg hz]
      apply cycleLoad_cons_le ih
      dsimp only at hcounts ⊢
      rw [hcounts]
      cases hs : stalls i (caughtUp start i past)
      · have hc : Counts (caughtUp start i past) (decodedIn start past) :=
          (counts start past).catchUp _
        have hle := ih (caughtUp start i past).dcyc
        rw [hc.complex] at hle
        rw [(decoder_joins hz hs).2.2, complexity]
        split
        · exact hle
        · rename_i hsimple
          have hone : (caughtUp start i past).dcomplex ≠ 1 := by
            intro hone
            rw [stalls_true.mpr (Or.inr ⟨by simpa using hsimple, hone⟩)] at hs
            cases hs
          omega
      · rw [(decoder_stalls hz hs).2.2, complexity]
        split <;> omega

theorem ComplexFirst.tail (h : ComplexFirst start (i :: past)) : ComplexFirst start past :=
  fun x xs hx => h x xs (hx.trans (List.suffix_cons i past))

theorem decodedIn_instrs (h : ComplexFirst start is) (c : Nat) :
    cycleLoad (fun _ => 1) c (decodedIn start is) ≤ 4 := by
  induction is generalizing c with
  | nil => exact Nat.zero_le 4
  | cons i past ih =>
    have ih := ih h.tail
    by_cases hz : i.uops = 0
    · rw [decodedIn, if_pos hz]
      exact ih c
    · have hcounts := (counts start (i :: past)).count
      rw [decodedIn, if_neg hz, cycleLoad, if_pos rfl] at hcounts
      rw [decodedIn, if_neg hz]
      apply cycleLoad_cons_le ih
      rw [hcounts]
      cases hs : stalls i (caughtUp start i past)
      · have hc : Counts (caughtUp start i past) (decodedIn start past) :=
          (counts start past).catchUp _
        have hle := ih (caughtUp start i past).dcyc
        have hone := decodedIn_complex start past (caughtUp start i past).dcyc
        rw [hc.count] at hle
        rw [hc.complex] at hone
        rw [(decoder_joins hz hs).2.1]
        have hnot : ¬ stalls i (caughtUp start i past) = true := by simp [hs]
        rw [stalls_true] at hnot
        have hfirst := (h i past (List.suffix_refl _) hz).1
        cases hsimple : simple i
        · have := hfirst hsimple
          have : (caughtUp start i past).dcomplex ≠ 1 := fun hd => hnot (Or.inr ⟨hsimple, hd⟩)
          omega
        · have : (caughtUp start i past).dsimple + (caughtUp start i past).dcomplex ≠ 4 :=
            fun hd => hnot (Or.inl ⟨hsimple, hd⟩)
          omega
      · rw [(decoder_stalls hz hs).2.1]
        omega

theorem dcyc_le (i : Instr) (past : List Instr) :
    (decoder start past).dcyc ≤ (decoder start (i :: past)).dcyc := by
  by_cases hz : i.uops = 0
  · rw [decoder_fused hz]
  · have hcatch : (decoder start past).dcyc ≤ (caughtUp start i past).dcyc := by
      unfold caughtUp catchUp
      split
      · rename_i hlt
        exact Nat.le_of_lt hlt
      · exact Nat.le_refl _
    cases hs : stalls i (caughtUp start i past)
    · rw [(decoder_joins hz hs).1]
      exact hcatch
    · rw [(decoder_stalls hz hs).1]
      omega

variable (start past) in
theorem pcyc_le_dcyc (hz : i.uops ≠ 0) :
    (predecoder start (i :: past)).pcyc ≤ (decoder start (i :: past)).dcyc := by
  have hcatch : (predecoder start (i :: past)).pcyc ≤ (caughtUp start i past).dcyc := by
    unfold caughtUp catchUp
    split
    · exact Nat.le_refl _
    · omega
  cases hs : stalls i (caughtUp start i past)
  · rw [(decoder_joins hz hs).1]
    exact hcatch
  · rw [(decoder_stalls hz hs).1]
    omega

theorem decodedIn_pairwise (is : List Instr) :
    (decodedIn start is).Pairwise fun e e' => e'.1 ≤ e.1 := by
  induction is with
  | nil => exact List.Pairwise.nil
  | cons i past ih =>
    rw [decodedIn]
    split
    · exact ih
    · apply List.Pairwise.cons _ ih
      intro e he
      exact Nat.le_trans ((counts start past).le e he) (dcyc_le i past)

theorem decoded_eq (h : ∀ e ∈ decodedIn start is, e.1 < 2 ^ 16) :
    decoded start is = decodedIn start is := by
  induction is with
  | nil => rfl
  | cons i past ih =>
    rw [decoded, decodedIn]
    by_cases hz : i.uops = 0
    · rw [decodedIn, if_pos hz] at h
      rw [if_pos hz, if_pos hz, ih h]
    · rw [decodedIn, if_neg hz] at h
      rw [if_neg hz, if_neg hz, ih fun e he => h e (List.mem_cons_of_mem _ he),
        Nat.mod_eq_of_lt (h _ List.mem_cons_self)]

theorem ComplexFirst.lt (h : ComplexFirst start is) : ∀ e ∈ decodedIn start is, e.1 < 2 ^ 16 := by
  induction is with
  | nil => exact fun e he => absurd he List.not_mem_nil
  | cons i past ih =>
    intro e he
    rw [decodedIn] at he
    split at he
    · exact ih h.tail e he
    · rename_i hz
      rcases List.mem_cons.mp he with rfl | he
      · exact (h i past (List.suffix_refl _) hz).2
      · exact ih h.tail e he

/-- As the block is collected: no instruction is longer than 15 bytes, and a fused branch follows
its instruction. -/
structure Collected (is : List Instr) : Prop where
  bytes : ∀ i ∈ is, i.bytes ≤ 15
  fused : ∀ i past, i :: past <:+ is → i.uops = 0 → ∃ x rest, past = x :: rest ∧ x.uops ≠ 0

theorem Collected.tail (h : Collected (i :: past)) : Collected past :=
  ⟨fun x hx => h.bytes x (List.mem_cons_of_mem i hx),
    fun x xs hx => h.fused x xs (hx.trans (List.suffix_cons i past))⟩

theorem Collected.cons (h : Collected past) (hbytes : i.bytes ≤ 15)
    (hfused : i.uops = 0 → ∃ x rest, past = x :: rest ∧ x.uops ≠ 0) :
    Collected (i :: past) := by
  refine ⟨fun x hx => ?_, fun x xs hx => ?_⟩
  · rcases List.mem_cons.mp hx with rfl | hx
    · exact hbytes
    · exact h.bytes x hx
  · rcases List.suffix_cons_iff.mp hx with heq | hx
    · cases heq
      exact hfused
    · exact h.fused x xs hx

theorem collected (block : List Ins) : Collected (collect block) := by
  induction block with
  | nil => exact ⟨fun i hi => absurd hi List.not_mem_nil,
      fun i past h => absurd (List.suffix_nil.mp h) (List.cons_ne_nil i past)⟩
  | cons ins block ih =>
    cases ins with
    | single ins => exact ih.cons ins.short fun hz => absurd hz ins.pos.ne'
    | fused ins branchBytes =>
      have hins : Collected (⟨ins.bytes, ins.uops⟩ :: collect block) :=
        ih.cons ins.short fun hz => absurd hz ins.pos.ne'
      exact hins.cons (Nat.le_of_lt_succ branchBytes.isLt) fun _ => ⟨_, _, rfl, ins.pos.ne'⟩

variable (start) in
theorem pcyc_le_succ (i : Instr) (past : List Instr) :
    (predecoder start (i :: past)).pcyc ≤ (predecoder start past).pcyc + 1 := by
  rcases predecoder_cons start i past with ⟨pblk, heq⟩ | ⟨-, -, heq⟩
  · rw [heq]
  · rw [heq]
    exact Nat.le_succ _

variable (start) in
/-- The decoder falls behind by one cycle at most, over a fused branch. -/
theorem pcyc_le (h : Collected is) :
    (predecoder start is).pcyc ≤ (decoder start is).dcyc + 1 := by
  cases is with
  | nil => exact Nat.zero_le 1
  | cons i past =>
    by_cases hz : i.uops = 0
    · obtain ⟨x, rest, rfl, hx⟩ := h.fused i past (List.suffix_refl _) hz
      have := pcyc_le_succ start i (x :: rest)
      have := pcyc_le_dcyc start rest hx
      rw [decoder_fused hz]
      omega
    · exact Nat.le_succ_of_le (pcyc_le_dcyc start past hz)

variable (start) in
theorem dcyc_le_add (h : Collected (i :: past)) :
    (decoder start (i :: past)).dcyc ≤ (decoder start past).dcyc + 2 := by
  by_cases hz : i.uops = 0
  · rw [decoder_fused hz]
    omega
  · have hpast := pcyc_le start h.tail
    have hpcyc := pcyc_le_succ start i past
    by_cases hlt : (predecoder start (i :: past)).pcyc > (decoder start past).dcyc
    · have hcaught : caughtUp start i past = { (decoder start past) with
          dcyc := (predecoder start (i :: past)).pcyc, dsimple := 0, dcomplex := 0 } := by
        rw [caughtUp, catchUp, if_pos hlt]
      have hs : stalls i (caughtUp start i past) = false := by
        rw [hcaught]
        simp [stalls]
      rw [(decoder_joins hz hs).1, hcaught]
      dsimp only
      omega
    · have hcaught : caughtUp start i past = decoder start past := by
        rw [caughtUp, catchUp, if_neg hlt]
      cases hs : stalls i (caughtUp start i past)
      · rw [(decoder_joins hz hs).1, hcaught]
        omega
      · rw [(decoder_stalls hz hs).1, hcaught]
        omega

variable (start) in
theorem dcyc_mem (is : List Instr) :
    (decoder start is).dcyc = 0 ∨ ∃ e ∈ decodedIn start is, e.1 = (decoder start is).dcyc := by
  induction is with
  | nil => exact Or.inl rfl
  | cons i past ih =>
    rw [decodedIn]
    split
    · rename_i hz
      rw [decoder_fused hz]
      exact ih
    · exact Or.inr ⟨_, List.mem_cons_self, rfl⟩

theorem complexFirst_cons (hc : Collected (i :: past)) (hpast : ComplexFirst start past)
    (hord : (decoded start (i :: past)).Pairwise fun e e' => e'.1 ≤ e.1)
    (hinstrs : ∀ c, cycleLoad (fun _ => 1) c (decoded start (i :: past)) ≤ 4) :
    ComplexFirst start (i :: past) := by
  have heq := decoded_eq hpast.lt
  by_cases hz : i.uops = 0
  · intro x xs hx hxz
    rcases List.suffix_cons_iff.mp hx with hxeq | hx
    · cases hxeq
      exact absurd hz hxz
    · exact hpast x xs hx hxz
  · rw [decoded, if_neg hz, heq] at hord hinstrs
    -- an instruction whose cycle wraps around comes before the one it follows
    have hlt : (decoder start (i :: past)).dcyc < 2 ^ 16 := by
      by_contra hge
      have hstep := dcyc_le_add start hc
      rcases dcyc_mem start past with hzero | ⟨e, he, hecyc⟩
      · omega
      · have helt := hpast.lt e he
        have hle := (List.pairwise_cons.mp hord).1 e he
        dsimp only at hle
        omega
    intro x xs hx hxz
    rcases List.suffix_cons_iff.mp hx with hxeq | hx
    · cases hxeq
      refine ⟨fun hsimple hfull => ?_, hlt⟩
      have hs : stalls i (caughtUp start i past) = false := by
        simp [stalls, hsimple, hfull.2]
      have hcounts := (counts start (i :: past)).count
      rw [(decoder_joins hz hs).2.1, hfull.1, hfull.2, decodedIn, if_neg hz] at hcounts
      have hle := hinstrs (decoder start (i :: past)).dcyc
      rw [Nat.mod_eq_of_lt hlt, hcounts] at hle
      omega
    · exact hpast x xs hx hxz

theorem complexFirst_of_inWidth (hc : Collected is)
    (hord : (decoded start is).Pairwise fun e e' => e'.1 ≤ e.1)
    (hinstrs : ∀ c, cycleLoad (fun _ => 1) c (decoded start is) ≤ 4) : ComplexFirst start is := by
  induction is with
  | nil => exact fun i past h => absurd (List.suffix_nil.mp h) (List.cons_ne_nil i past)
  | cons i past ih =>
    apply complexFirst_cons hc _ hord hinstrs
    by_cases hz : i.uops = 0
    · rw [decoded, if_pos hz] at hord hinstrs
      exact ih hc.tail hord hinstrs
    · rw [decoded, if_neg hz] at hord hinstrs
      exact ih hc.tail (List.pairwise_cons.mp hord).2 fun c =>
        Nat.le_trans (cycleLoad_tail_le _ c _ _) (hinstrs c)

theorem ComplexFirst.inWidth (h : ComplexFirst start is) (hc : Collected is) :
    DecodesInWidth start is := by
  have hp := predecodesInWidth start hc.bytes
  have heq := decoded_eq h.lt
  refine ⟨decCycles_once is, fun i past hs j hj => decCycles_shared hs hj, ?_, ?_, hp.instrs,
    hp.bytes, ?_, ?_⟩
  · rw [heq]
    exact decodedIn_pairwise is
  · intro i past hs hz
    rw [Nat.mod_eq_of_lt (h i past hs hz).2]
    exact pcyc_le_dcyc start past hz
  · rw [heq]
    exact decodedIn_instrs h
  · rw [heq]
    exact decodedIn_complex start is

/-- Blocks decode in width just when no complex instruction comes after four simple ones in a
cycle (and their cycles fit 16 bits). -/
theorem decodes_in_width (start : Nat) (block : List Ins) :
    DecodesInWidth start (collect block) ↔ ComplexFirst start (collect block) := by
  constructor
  · intro h
    exact complexFirst_of_inWidth (collected block) h.ordered h.instrs
  · intro h
    exact h.inWidth (collected block)

/-- Four moves and a division of four uops, all in cycle 0. -/
theorem five_in_cycle : ¬ DecodesInWidth 0x400000 (collect
    [.single ⟨2, 4, by decide, by decide⟩, .single ⟨3, 1, by decide, by decide⟩,
      .single ⟨3, 1, by decide, by decide⟩, .single ⟨3, 1, by decide, by decide⟩,
      .single ⟨3, 1, by decide, by decide⟩]) := by
  intro h
  exact absurd (h.instrs 0) (by decide)

end DecodeBbl

end ZSim
