import ZSim.OOOWindow

/-! The in-order buffers of the out-of-order core over whole sequences of calls: which retire
cycles they give out, and how many of their entries are in flight. -/

namespace ZSim.OOO.ReorderBuffer

variable (SZ W : Nat)

/-- The buffer after calls of `markRetire`, the last one first. -/
def after : List Nat → ReorderBuffer
  | [] => init
  | m :: ms => (after ms).markRetire SZ W m

/-- The cycles given out, the last one first. -/
def retires : List Nat → List Nat
  | [] => []
  | m :: ms => (after SZ W (m :: ms)).curRetireCycle :: retires ms

/-- The call gets the earliest cycle in order and not before its own that has room. -/
def Earliest (m : Nat) (past : List Nat) : Prop :=
  IsLeast {c | m ≤ c ∧ (∀ r ∈ retires SZ W past, r ≤ c) ∧ (retires SZ W past).count c < W}
    (after SZ W (m :: past)).curRetireCycle

def RetiresEarliest (ms : List Nat) : Prop :=
  (∀ m past, m :: past <:+ ms → Earliest SZ W m past) ∧ ∀ c, (retires SZ W ms).count c ≤ W

/-- Entries that the current cycle already has. -/
def bundled (past : List Nat) : Nat :=
  (retires SZ W past).count (after SZ W past).curRetireCycle

/-- A call that joins the current cycle finds the counter at the width just when the cycle is
full. -/
def CountsBundle (m : Nat) (past : List Nat) : Prop :=
  if m ≤ (after SZ W past).curRetireCycle then
    (after SZ W past).curCycleRetires = W ↔ bundled SZ W past = W
  else 0 < W

/-- Entries with the cycle they are allocated in and the one they may retire from, the last one
first: none is allocated before the buffer has a place. -/
def Admitted : List (Nat × Nat) → Prop
  | [] => True
  | e :: es => (after SZ W (es.map Prod.snd)).minAllocCycle ≤ e.1 ∧ Admitted es

/-- The entries in the buffer in cycle `c`. -/
def inFlight (c : Nat) : List (Nat × Nat) → Nat
  | [] => 0
  | e :: es => inFlight c es +
      if e.1 ≤ c ∧ c < (after SZ W ((e :: es).map Prod.snd)).curRetireCycle then 1 else 0

variable {SZ W} {m c : Nat} {ms past : List Nat}

theorem curRetireCycle_ge (b : ReorderBuffer) :
    b.curRetireCycle ≤ (b.markRetire SZ W m).curRetireCycle ∧
      m ≤ (b.markRetire SZ W m).curRetireCycle := by
  unfold markRetire
  split_ifs <;> dsimp only <;> omega

theorem le_curRetireCycle (ms : List Nat) :
    ∀ r ∈ retires SZ W ms, r ≤ (after SZ W ms).curRetireCycle := by
  induction ms with
  | nil =>
    intro r hr
    cases hr
  | cons m ms ih =>
    intro r hr
    rcases List.mem_cons.mp hr with rfl | hr
    · exact Nat.le_refl _
    · exact Nat.le_trans (ih r hr) (curRetireCycle_ge _).1

theorem retires_le_iff (ms : List Nat) :
    (∀ r ∈ retires SZ W ms, r ≤ c) ↔ (after SZ W ms).curRetireCycle ≤ c := by
  constructor
  · intro h
    cases ms with
    | nil => exact Nat.zero_le c
    | cons m ms => exact h _ List.mem_cons_self
  · intro h r hr
    exact Nat.le_trans (le_curRetireCycle ms r hr) h

theorem retires_pairwise (ms : List Nat) : (retires SZ W ms).Pairwise fun r r' => r' ≤ r := by
  induction ms with
  | nil => exact List.Pairwise.nil
  | cons m ms ih =>
    apply List.Pairwise.cons _ ih
    intro r hr
    exact Nat.le_trans (le_curRetireCycle ms r hr) (curRetireCycle_ge _).1

theorem retires_ge (ms : List Nat) : List.Forall₂ (fun m r => m ≤ r) ms (retires SZ W ms) := by
  induction ms with
  | nil => exact List.Forall₂.nil
  | cons m ms ih => exact List.Forall₂.cons (curRetireCycle_ge _).2 ih

theorem count_eq_zero (h : (after SZ W ms).curRetireCycle < c) : (retires SZ W ms).count c = 0 := by
  apply List.count_eq_zero.mpr
  intro hmem
  have := le_curRetireCycle ms c hmem
  omega

theorem width_pos (h : ∀ c, (retires SZ W past).count c ≤ W)
    (hfull : (after SZ W past).curCycleRetires = W) : 0 < W := by
  cases past with
  | nil =>
    have hone : 1 = W := hfull
    omega
  | cons m past =>
    have hle := h (after SZ W (m :: past)).curRetireCycle
    rw [retires, List.count_cons_self] at hle
    omega

theorem earliest_iff (m : Nat) (h : ∀ c, (retires SZ W past).count c ≤ W) :
    Earliest SZ W m past ↔ CountsBundle SZ W m past := by
  have hcur := h (after SZ W past).curRetireCycle
  have hlater : ∀ c, (after SZ W past).curRetireCycle < c → (retires SZ W past).count c = 0 :=
    fun c hc => count_eq_zero hc
  unfold Earliest CountsBundle bundled
  simp only [retires_le_iff]
  by_cases hm : m ≤ (after SZ W past).curRetireCycle
  · rw [if_pos hm]
    by_cases hfull : (after SZ W past).curCycleRetires = W
    · -- the call opens the next cycle
      have hW := width_pos h hfull
      have hnext : (after SZ W (m :: past)).curRetireCycle =
          (after SZ W past).curRetireCycle + 1 := by
        simp only [after, markRetire, if_pos hm, if_pos hfull]
      rw [hnext]
      constructor
      · intro hleast
        refine ⟨fun _ => ?_, fun _ => hfull⟩
        by_contra hroom
        have := hleast.2 ⟨hm, Nat.le_refl _, by omega⟩
        omega
      · intro hcount
        have hbundled := hcount.mp hfull
        refine ⟨⟨by omega, by omega, ?_⟩, fun c hc => ?_⟩
        · rw [hlater _ (by omega)]
          exact hW
        · obtain ⟨-, hle, hlt⟩ := hc
          rcases Nat.eq_or_lt_of_le hle with rfl | hgt
          · omega
          · exact hgt
    · have hsame : (after SZ W (m :: past)).curRetireCycle =
          (after SZ W past).curRetireCycle := by
        simp only [after, markRetire, if_pos hm, if_neg hfull]
      rw [hsame]
      constructor
      · intro hleast
        have hroom := hleast.1.2.2
        exact ⟨fun heq => absurd heq hfull, fun heq => by omega⟩
      · intro hcount
        have hroom : (retires SZ W past).count (after SZ W past).curRetireCycle ≠ W :=
          fun heq => hfull (hcount.mpr heq)
        exact ⟨⟨hm, Nat.le_refl _, by omega⟩, fun c hc => hc.2.1⟩
  · rw [if_neg hm]
    have hnext : (after SZ W (m :: past)).curRetireCycle = m := by
      simp only [after, markRetire, if_neg hm]
    have hzero := hlater m (by omega)
    rw [hnext]
    constructor
    · intro hleast
      have := hleast.1.2.2
      omega
    · intro hW
      exact ⟨⟨Nat.le_refl _, by omega, by omega⟩, fun c hc => hc.1⟩

theorem count_cons_le (h : ∀ c, (retires SZ W past).count c ≤ W) (hm : Earliest SZ W m past)
    (c : Nat) : (retires SZ W (m :: past)).count c ≤ W := by
  rw [retires, List.count_cons]
  have hle := h c
  split
  · rename_i heq
    have hlt := hm.1.2.2
    rw [beq_iff_eq.mp heq] at hlt
    omega
  · exact hle

theorem retiresEarliest_cons : RetiresEarliest SZ W (m :: past) ↔
    Earliest SZ W m past ∧ RetiresEarliest SZ W past := by
  constructor
  · rintro ⟨hall, hcount⟩
    refine ⟨hall m past (List.suffix_refl _), fun x xs hx => ?_, fun c => ?_⟩
    · exact hall x xs (hx.trans (List.suffix_cons m past))
    · exact Nat.le_trans (List.count_le_count_cons) (hcount c)
  · rintro ⟨hm, hall, hcount⟩
    refine ⟨fun x xs hx => ?_, count_cons_le hcount hm⟩
    rcases List.suffix_cons_iff.mp hx with heq | hx
    · cases heq
      exact hm
    · exact hall x xs hx

theorem retiresEarliest_iff (ms : List Nat) : RetiresEarliest SZ W ms ↔
    ∀ m past, m :: past <:+ ms → CountsBundle SZ W m past := by
  induction ms with
  | nil => simp [RetiresEarliest, retires]
  | cons m ms ih =>
    rw [retiresEarliest_cons, ih]
    constructor
    · rintro ⟨hm, hall⟩ x xs hx
      rcases List.suffix_cons_iff.mp hx with heq | hx
      · cases heq
        exact (earliest_iff m (ih.mpr hall).2).mp hm
      · exact hall x xs hx
    · intro hall
      have hpast : ∀ x xs, x :: xs <:+ ms → CountsBundle SZ W x xs :=
        fun x xs hx => hall x xs (hx.trans (List.suffix_cons m ms))
      exact ⟨(earliest_iff m (ih.mpr hpast).2).mpr (hall m ms (List.suffix_refl _)), hpast⟩

/-- Where the ring keeps the `k`-th last entry. -/
def slot (SZ idx k : Nat) : Nat := if k < idx then idx - 1 - k else idx + SZ - 1 - k

/-- The ring holds the last `SZ` cycles given out. -/
def Holds (SZ : Nat) (b : ReorderBuffer) (rs : List Nat) : Prop :=
  b.idx < SZ ∧ ∀ k < SZ, b.buf (slot SZ b.idx k) = rs[k]?.getD 0

theorem Holds.markRetire {b : ReorderBuffer} {rs : List Nat} (h : Holds SZ b rs) :
    Holds SZ (b.markRetire SZ W m) ((b.markRetire SZ W m).curRetireCycle :: rs) := by
  obtain ⟨hidx, hbuf⟩ := h
  have hidx' : (b.markRetire SZ W m).idx = if b.idx + 1 = SZ then 0 else b.idx + 1 := rfl
  have hbuf' : (b.markRetire SZ W m).buf =
      Function.update b.buf b.idx (b.markRetire SZ W m).curRetireCycle := rfl
  refine ⟨?_, fun k hk => ?_⟩
  · rw [hidx']
    split <;> omega
  · cases k with
    | zero =>
      have hslot : slot SZ (b.markRetire SZ W m).idx 0 = b.idx := by
        rw [hidx', slot]
        split_ifs <;> omega
      simp [hslot, hbuf']
    | succ k =>
      have hslot : slot SZ (b.markRetire SZ W m).idx (k + 1) = slot SZ b.idx k := by
        rw [hidx', slot, slot]
        split_ifs <;> omega
      have hne : slot SZ b.idx k ≠ b.idx := by
        rw [slot]
        split_ifs <;> omega
      rw [hslot, hbuf', Function.update_of_ne hne, List.getElem?_cons_succ]
      exact hbuf k (by omega)

theorem holds_after (hSZ : 0 < SZ) (ms : List Nat) :
    Holds SZ (after SZ W ms) (retires SZ W ms) := by
  induction ms with
  | nil => exact ⟨hSZ, fun _ _ => rfl⟩
  | cons m ms ih => exact ih.markRetire

theorem minAllocCycle_eq (hSZ : 0 < SZ) (ms : List Nat) :
    (after SZ W ms).minAllocCycle = (retires SZ W ms)[SZ - 1]?.getD 0 := by
  obtain ⟨hidx, hbuf⟩ := holds_after hSZ ms
  rw [← hbuf (SZ - 1) (by omega), minAllocCycle]
  have hslot : slot SZ (after SZ W ms).idx (SZ - 1) = (after SZ W ms).idx := by
    rw [slot]
    split_ifs <;> omega
  rw [hslot]

/-- Entries in flight in a cycle are later than any that left by then. -/
theorem inFlight_le_of_left (k : Nat) (es : List (Nat × Nat))
    (h : (retires SZ W (es.map Prod.snd))[k]?.getD 0 ≤ c) : inFlight SZ W c es ≤ k := by
  induction es generalizing k with
  | nil => exact Nat.zero_le k
  | cons e es ih =>
    have hge : (after SZ W (es.map Prod.snd)).curRetireCycle ≤
        (after SZ W ((e :: es).map Prod.snd)).curRetireCycle := (curRetireCycle_ge _).1
    rw [inFlight]
    cases k with
    | zero =>
      have hhead : (after SZ W ((e :: es).map Prod.snd)).curRetireCycle ≤ c := h
      have hpast : (retires SZ W (es.map Prod.snd))[0]?.getD 0 ≤ c := by
        cases es with
        | nil => exact Nat.zero_le c
        | cons e' es => exact Nat.le_trans hge hhead
      rw [if_neg (by omega)]
      exact ih 0 hpast
    | succ k =>
      have hpast : (retires SZ W (es.map Prod.snd))[k]?.getD 0 ≤ c := h
      have := ih k hpast
      split <;> omega

theorem inFlight_le (hSZ : 0 < SZ) (es : List (Nat × Nat)) (h : Admitted SZ W es) (c : Nat) :
    inFlight SZ W c es ≤ SZ := by
  induction es with
  | nil => exact Nat.zero_le SZ
  | cons e es ih =>
    obtain ⟨halloc, hes⟩ := h
    rw [minAllocCycle_eq hSZ] at halloc
    rw [inFlight]
    by_cases hc : e.1 ≤ c
    · have := inFlight_le_of_left (SZ - 1) es (Nat.le_trans halloc hc)
      split <;> omega
    · rw [if_neg (fun h => hc h.1)]
      exact ih hes

/-- Cycles are given out in order, the buffer holds `SZ` entries at most, and each call gets the
earliest cycle with room just when the counter tells a full cycle whenever a call joins it. -/
theorem retire_cycles (hSZ : 0 < SZ) (ms : List Nat) :
    (RetiresEarliest SZ W ms ↔ ∀ m past, m :: past <:+ ms → CountsBundle SZ W m past) ∧
    (retires SZ W ms).Pairwise (fun r r' => r' ≤ r) ∧
    List.Forall₂ (fun m r => m ≤ r) ms (retires SZ W ms) ∧
    (after SZ W ms).minAllocCycle = (retires SZ W ms)[SZ - 1]?.getD 0 ∧
    ∀ es, es.map Prod.snd = ms → Admitted SZ W es → ∀ c, inFlight SZ W c es ≤ SZ :=
  ⟨retiresEarliest_iff ms, retires_pairwise ms, retires_ge ms, minAllocCycle_eq hSZ ms,
    fun es _ hes c => inFlight_le hSZ es hes c⟩

theorem retire_cycles_queue :
    (RetiresEarliest 32 4 [7, 3] ↔
      ∀ m past, m :: past <:+ [7, 3] → CountsBundle 32 4 m past) ∧
    (retires 32 4 [7, 3]).Pairwise (fun r r' => r' ≤ r) ∧
    List.Forall₂ (fun m r => m ≤ r) [7, 3] (retires 32 4 [7, 3]) ∧
    (after 32 4 [7, 3]).minAllocCycle = (retires 32 4 [7, 3])[31]?.getD 0 ∧
    ∀ es, es.map Prod.snd = [7, 3] → Admitted 32 4 es → ∀ c, inFlight 32 4 c es ≤ 32 :=
  retire_cycles (by decide) [7, 3]

/-- Nine entries ready in cycle 5: four leave in it and the other five in the next. -/
theorem fifth_in_bundle : ¬ RetiresEarliest 128 4 (List.replicate 9 5) := by
  intro h
  exact absurd (h.2 6) (by decide)

end ZSim.OOO.ReorderBuffer
