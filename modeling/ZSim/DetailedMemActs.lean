import ZSim.DetailedMem
import ZSim.FirstBest

/-! The activates of the detailed memory model. A rank keeps their history in its banks and in a
window of four cycles; an access that consults both issues its activate in time. -/

namespace ZSim

/-- The activates of a rank, as banks and cycles with the newest first, keep their distances. -/
structure ActsLegal (p : MemParam) (acts : List (Nat × Nat)) : Prop where
  tRC : acts.Pairwise fun x y => x.1 = y.1 → y.2 + p.tRC ≤ x.2
  tRRD : acts.Pairwise fun x y => y.2 + p.tRRD ≤ x.2
  tFAW : ∀ {i j : Nat} {x y : Nat × Nat}, acts[i]? = some x → acts[j]? = some y → i + 4 ≤ j →
    y.2 + p.tFAW ≤ x.2

/-- An activate of the bank at the cycle keeps its distance to the earlier ones. -/
structure MayActivate (p : MemParam) (acts : List (Nat × Nat)) (bank cycle : Nat) : Prop where
  tRC : ∀ x ∈ acts, x.1 = bank → x.2 + p.tRC ≤ cycle
  tRRD : ∀ x ∈ acts, x.2 + p.tRRD ≤ cycle
  tFAW : ∀ x, acts[3]? = some x → x.2 + p.tFAW ≤ cycle

variable {p : MemParam} {rk : MemRank} {acts : List (Nat × Nat)} {bank cycle : Nat}

theorem ActsLegal.nil : ActsLegal p [] := by
  constructor
  · exact List.Pairwise.nil
  · exact List.Pairwise.nil
  · intro i j x y hi
    simp at hi

theorem ActsLegal.mono (h : ActsLegal p acts) {i j : Nat} {x y : Nat × Nat}
    (hi : acts[i]? = some x) (hj : acts[j]? = some y) (hij : i ≤ j) : y.2 ≤ x.2 := by
  rcases Nat.eq_or_lt_of_le hij with rfl | hlt
  · rw [hi] at hj
    cases hj
    exact Nat.le_refl _
  · obtain ⟨hil, rfl⟩ := List.getElem?_eq_some_iff.mp hi
    obtain ⟨hjl, rfl⟩ := List.getElem?_eq_some_iff.mp hj
    have := List.pairwise_iff_getElem.mp h.tRRD i j hil hjl hlt
    omega

theorem ActsLegal.cons (h : ActsLegal p acts) (hm : MayActivate p acts bank cycle) :
    ActsLegal p ((bank, cycle) :: acts) := by
  constructor
  · apply List.Pairwise.cons
    · intro x hx heq
      exact hm.tRC x hx heq.symm
    · exact h.tRC
  · exact List.Pairwise.cons hm.tRRD h.tRRD
  · intro i j x y hi hj hij
    cases j with
    | zero => omega
    | succ j =>
      rw [List.getElem?_cons_succ] at hj
      cases i with
      | succ i => exact h.tFAW (by simpa using hi) hj (by omega)
      | zero =>
        cases hi
        obtain ⟨hlt, -⟩ := List.getElem?_eq_some_iff.mp hj
        have h3 : acts[3]? = some acts[3] := List.getElem?_eq_getElem (by omega)
        have := h.mono h3 hj (by omega)
        have := hm.tFAW _ h3
        show y.2 + p.tFAW ≤ cycle
        omega

theorem MayActivate.le (h : MayActivate p acts bank cycle) {cycle' : Nat} (hle : cycle ≤ cycle') :
    MayActivate p acts bank cycle' :=
  ⟨fun x hx heq => (h.tRC x hx heq).trans hle, fun x hx => (h.tRRD x hx).trans hle,
    fun x hx => (h.tFAW x hx).trans hle⟩

/-- What the rank records of its activates: the latest one of each bank and the last four, the
newest just before `tFAWIndex`. -/
structure ActInv (p : MemParam) (rk : MemRank) (acts : List (Nat × Nat)) : Prop where
  legal : ActsLegal p acts
  bank : ∀ x ∈ acts, x.1 < p.bankCount
  latest : ∀ x ∈ acts, x.2 ≤ rk.lastActCycle x.1
  recorded : ∀ b, rk.lastActCycle b ≠ 0 → (b, rk.lastActCycle b) ∈ acts
  index : rk.tFAWIndex = acts.length % 4
  window : ∀ k < 4, rk.tFAWCycle ((rk.tFAWIndex + 3 - k) % 4) = (acts[k]?.map Prod.snd).getD 0

theorem ActInv.init : ActInv p MemRank.init [] := by
  refine ⟨ActsLegal.nil, by simp, by simp, fun b hb => absurd rfl hb, rfl, fun k _ => ?_⟩
  simp [MemRank.init]

theorem ActInv.frame (h : ActInv p rk acts) {rk' : MemRank}
    (hact : rk'.lastActCycle = rk.lastActCycle) (hfaw : rk'.tFAWCycle = rk.tFAWCycle)
    (hidx : rk'.tFAWIndex = rk.tFAWIndex) : ActInv p rk' acts := by
  refine ⟨h.legal, h.bank, ?_, ?_, ?_, ?_⟩
  · rw [hact]
    exact h.latest
  · rw [hact]
    exact h.recorded
  · rw [hidx]
    exact h.index
  · rw [hidx, hfaw]
    exact h.window

theorem ActInv.index_lt (h : ActInv p rk acts) : rk.tFAWIndex < 4 := by
  rw [h.index]
  exact Nat.mod_lt _ (by decide)

/-- The oldest cycle of the window is the one the next activate overwrites. -/
theorem ActInv.oldest (h : ActInv p rk acts) {x : Nat × Nat} (hx : acts[3]? = some x) :
    rk.tFAWCycle rk.tFAWIndex = x.2 := by
  have := h.window 3 (by omega)
  rw [hx, Nat.add_sub_cancel, Nat.mod_eq_of_lt h.index_lt] at this
  exact this

theorem ActInv.window_le (h : ActInv p rk acts) (hm : ∀ x ∈ acts, x.2 ≤ cycle) :
    rk.tFAWCycle rk.tFAWIndex ≤ cycle := by
  have hw := h.window 3 (by omega)
  rw [Nat.add_sub_cancel, Nat.mod_eq_of_lt h.index_lt] at hw
  cases hx : acts[3]? with
  | none =>
    rw [hx] at hw
    rw [hw]
    exact Nat.zero_le _
  | some x =>
    rw [h.oldest hx]
    exact hm x (List.mem_of_getElem? hx)

theorem MemRank.le_latestActCycle (hb : bank < p.bankCount) :
    rk.lastActCycle bank ≤ rk.latestActCycle p := by
  have hraise : ∀ c i, c ≤ max c (rk.lastActCycle i) := fun c i => Nat.le_max_left _ _
  exact le_foldl_of_mem hraise (fun c => Nat.le_max_right _ _) (List.mem_range.mpr hb) 0

theorem MemRank.getFAWCycle_eq (h : rk.tFAWIndex < p.bankCount) :
    rk.getFAWCycle p = some (rk.tFAWCycle rk.tFAWIndex) :=
  if_pos h

/-- `CalcActConst` checks every constraint, once the bank was activated after cycle zero. -/
theorem ActInv.calcActConst (h : ActInv p rk acts) (hidx : rk.tFAWIndex < p.bankCount)
    (hact : rk.lastActCycle bank ≠ 0) (issuable : Nat) :
    ∃ c, rk.calcActConst p bank issuable = some c ∧ issuable ≤ c ∧ rk.lastPreCycle bank ≤ c ∧
      MayActivate p acts bank c := by
  rw [MemRank.calcActConst, if_neg hact, MemRank.getFAWCycle_eq hidx]
  refine ⟨_, rfl, ?_, ?_, ?_⟩
  · split
    · simp
    · simp
  · split
    · simp only [le_max_iff]
      omega
    · omega
  · constructor
    · intro x hx heq
      have := h.latest x hx
      rw [heq] at this
      split
      · simp only [le_max_iff]
        omega
      · simp only [le_max_iff]
        omega
    · intro x hx
      have := h.latest x hx
      have := @MemRank.le_latestActCycle p rk _ (h.bank x hx)
      split
      · simp only [le_max_iff]
        omega
      · simp only [le_max_iff]
        omega
    · intro x hx
      rw [h.oldest hx]
      exact Nat.le_max_right _ _

theorem getD_map_cons (x : Nat × Nat) (k : Nat) :
    (((x :: acts)[k + 1]?).map Prod.snd).getD 0 = (acts[k]?.map Prod.snd).getD 0 := by
  rw [List.getElem?_cons_succ]

theorem ActInv.issueActivate (h : ActInv p rk acts) (hb : bank < p.bankCount)
    (hidx : rk.tFAWIndex < p.bankCount) (hm : MayActivate p acts bank cycle) :
    ∃ rk', rk.issueActivate p bank cycle = some rk' ∧ ActInv p rk' ((bank, cycle) :: acts) ∧
      rk' = { rk with
        tFAWCycle := rk'.tFAWCycle
        tFAWIndex := rk'.tFAWIndex
        lastActCycle := Function.update rk.lastActCycle bank cycle
        bankinfo := Function.update rk.bankinfo bank true } := by
  have hle : ∀ x ∈ acts, x.2 ≤ cycle := fun x hx => Nat.le_of_add_right_le (hm.tRRD x hx)
  have hwin := h.window_le hle
  have hlast : rk.lastActCycle bank ≤ cycle := by
    by_cases h0 : rk.lastActCycle bank = 0
    · omega
    · exact hle _ (h.recorded bank h0)
  refine ⟨_, by simp [MemRank.issueActivate, MemRank.setFAWCycle, MemRank.getFAWCycle_eq hidx,
    MemRank.setLastActCycle, guard, hwin, hlast]; rfl, ?_, rfl⟩
  refine ⟨h.legal.cons hm, ?_, ?_, ?_, ?_, ?_⟩
  · intro x hx
    rcases List.mem_cons.mp hx with rfl | hx
    · exact hb
    · exact h.bank x hx
  · intro x hx
    rcases List.mem_cons.mp hx with rfl | hx
    · simp
    · by_cases heq : x.1 = bank
      · simpa [heq] using hle x hx
      · simpa [heq] using h.latest x hx
  · intro b hb0
    by_cases heq : b = bank
    · simp [heq]
    · simp only [ne_eq, heq, not_false_eq_true, Function.update_of_ne] at hb0 ⊢
      exact List.mem_cons_of_mem _ (h.recorded b hb0)
  · show (rk.tFAWIndex + 1) % 4 = (acts.length + 1) % 4
    rw [h.index, Nat.mod_add_mod]
  · intro k hk
    have hi := h.index_lt
    cases k with
    | zero =>
      have : (rk.tFAWIndex + 1 + 3) % 4 = rk.tFAWIndex := by omega
      simp [this]
    | succ k =>
      have hsame : ((rk.tFAWIndex + 1) % 4 + 3 - (k + 1)) % 4 = (rk.tFAWIndex + 3 - k) % 4 := by
        omega
      have hne : (rk.tFAWIndex + 3 - k) % 4 ≠ rk.tFAWIndex := by omega
      simp only [hsame, ne_eq, hne, not_false_eq_true, Function.update_of_ne, getD_map_cons]
      exact h.window k (by omega)

/-- A read after a write may be merged with it: its precharge is not before the other. -/
def MemParam.MergesInTime (p : MemParam) : Prop :=
  p.tRTP ≤ p.tCWD + p.tTrans + p.tWR ∧ p.tWR ≤ p.tWTR + p.tRTP

instance (p : MemParam) : Decidable p.MergesInTime := inferInstanceAs (Decidable (_ ∧ _))

theorem MemParam.MergesInTime.getPreDelay_le (h : p.MergesInTime) (type lastType : MemAccessType) :
    p.getPreDelay lastType ≤ p.getRdWrDelay type lastType + p.getPreDelay type := by
  obtain ⟨hread, hwrite⟩ := h
  cases type with
  | READ =>
    cases lastType with
    | READ => exact Nat.le_add_left _ _
    | WRITE =>
      simp only [getPreDelay, getRdWrDelay]
      omega
  | WRITE =>
    cases lastType with
    | READ => exact hread.trans (Nat.le_add_left _ _)
    | WRITE => exact Nat.le_add_left _ _

/-- The rows and the read and write commands of a rank. Each activate was followed by its read
or write before the next one, and a bank was closed after its last access. -/
structure RowInv (p : MemParam) (rk : MemRank) (acts : List (Nat × Nat)) : Prop where
  rdwr : ∀ b, rk.lastRdWrCycle b ≤ rk.lastRdWrCycle rk.lastBank
  access : rk.lastRdWrCycle rk.lastBank = 0 ∨
    rk.lastRdWrCycle rk.lastBank + p.getDataLatency (rk.lastType rk.lastBank) + p.tTrans ≤
      rk.lastAccessCycle
  opened : ∀ b, rk.bankinfo b = true → p.rowBufferPolicy = .RB_OPEN ∧ 0 < rk.lastRdWrCycle b
  pre : p.rowBufferPolicy = .RB_OPEN → ∀ b, rk.lastPreCycle b ≤ rk.lastActCycle b
  served : ∀ x ∈ acts, rk.lastRdWrCycle rk.lastBank ≠ 0 ∧
    x.2 + p.tRCD ≤ rk.lastRdWrCycle rk.lastBank
  spaced : acts.Pairwise fun x y => y.2 + (p.tRCD + 1) ≤ x.2
  precharged : ∀ b, rk.lastPreCycle b ≠ 0 → ∃ x ∈ acts, x.1 = b
  closing : p.rowBufferPolicy = .RB_CLOSE → ∀ b, rk.lastPreCycle b ≤
    max (rk.lastRdWrCycle b + p.getPreDelay (rk.lastType b)) (rk.lastActCycle b + p.tRAS)
  merging : p.rowBufferPolicy = .RB_CLOSE → p.MergesInTime → ∀ b type, rk.lastPreCycle b ≤
    max (rk.lastRdWrCycle rk.lastBank + p.getRdWrDelay type (rk.lastType rk.lastBank) +
      p.getPreDelay type) (rk.lastActCycle b + p.tRAS)

theorem RowInv.init : RowInv p MemRank.init [] := by
  constructor
  · intro b
    exact Nat.le_refl _
  · exact .inl rfl
  · intro b hb
    cases hb
  · intro _ b
    exact Nat.le_refl _
  · intro x hx
    cases hx
  · exact List.Pairwise.nil
  · intro b hb
    exact absurd rfl hb
  · intro _ b
    exact Nat.zero_le _
  · intro _ _ b type
    exact Nat.zero_le _

def MemRank.activates (p : MemParam) (rk : MemRank) (a : MemAccess) : Bool :=
  match p.rowBufferPolicy with
  | .RB_OPEN => !rk.isRowBufferHit a.row a.bank
  | .RB_CLOSE => !rk.checkContinuousAccess p a.arrivalCycle a.bank a.row

/-- The refreshes that come due before the access, in `uint32_t`. -/
def MemRank.dueRefreshes (p : MemParam) (rk : MemRank) (arrivalCycle : Nat) : Nat :=
  (arrivalCycle - rk.lastRefreshCycle) / p.tREFI % 2 ^ 32

/-- The access finds its row open, or continues the last access of its bank. -/
def MemRank.KeepsRow (p : MemParam) (rk : MemRank) (a : MemAccess) : Prop :=
  match p.rowBufferPolicy with
  | .RB_OPEN => rk.dueRefreshes p a.arrivalCycle = 0 ∧ rk.isRowBufferHit a.row a.bank = true
  | .RB_CLOSE => rk.checkContinuousAccess p a.arrivalCycle a.bank a.row = true

/-- What is asked of an access that opens a row. The window has four cycles. `CalcActConst`
returns at once for a bank without an activate after cycle zero: then the way from an activate
to its read or write is long enough to space the activates, or the access arrives late enough.
The first read or write of a rank is not at cycle zero. -/
structure OpensOk (p : MemParam) (acts : List (Nat × Nat)) (rk : MemRank) (a : MemAccess) :
    Prop where
  window : 4 ≤ p.bankCount ∨ acts.length < p.bankCount
  tRRD : rk.lastActCycle a.bank = 0 →
    p.tRRD ≤ p.tRCD + 1 ∨ ∀ x ∈ acts, x.2 + p.tRRD ≤ a.arrivalCycle
  tFAW : rk.lastActCycle a.bank = 0 →
    p.tFAW ≤ 4 * (p.tRCD + 1) ∨ ∀ x, acts[3]? = some x → x.2 + p.tFAW ≤ a.arrivalCycle
  reopened : rk.lastActCycle a.bank = 0 → ∀ x ∈ acts, x.1 = a.bank →
    p.tRC ≤ a.arrivalCycle ∧ rk.lastPreCycle a.bank ≤ a.arrivalCycle
  first : rk.lastRdWrCycle rk.lastBank = 0 →
    0 < a.arrivalCycle + p.tRCD + p.getRdWrDelay a.type (rk.lastType rk.lastBank)

/-- What is asked of an access that keeps its row. One that continues an access of the other
type may have its precharge before the other's. -/
structure KeepsOk (p : MemParam) (rk : MemRank) (a : MemAccess) : Prop where
  turnaround : 0 < p.getRdWrDelay a.type (rk.lastType rk.lastBank)
  merged : p.rowBufferPolicy = .RB_CLOSE → rk.lastType a.bank = a.type ∨ p.MergesInTime ∨
    rk.lastPreCycle a.bank ≤ a.arrivalCycle + p.getPreDelay a.type

/-- The condition on an access, on the parameters, on its rank and its arrival. -/
structure AccessOk (p : MemParam) (acts : List (Nat × Nat)) (rk : MemRank) (a : MemAccess) :
    Prop where
  logged : 0 < p.accessLogDepth
  tREFI : 0 < p.tREFI
  refresh : rk.dueRefreshes p a.arrivalCycle = 0 ∨
    p.tREFI * rk.dueRefreshes p a.arrivalCycle % 2 ^ 32 ≠ 0
  lasts : 0 < p.getDataLatency (rk.lastType rk.lastBank) + p.tTrans + p.getRefreshCycle
  opens : ¬ rk.KeepsRow p a → OpensOk p acts rk a
  keeps : rk.KeepsRow p a → KeepsOk p rk a

/-- What the commands of an access need of its rank after the refreshes. -/
structure RowOk (p : MemParam) (acts : List (Nat × Nat)) (rk : MemRank) (refreshNum : Nat)
    (a : MemAccess) : Prop where
  window : rk.activates p a = true → rk.tFAWIndex < p.bankCount
  unused : rk.activates p a = true → rk.lastActCycle a.bank = 0 →
    MayActivate p acts a.bank (rk.calcIntraIssueCycle p false a.type a.arrivalCycle refreshNum) ∧
      rk.lastPreCycle a.bank ≤ rk.calcIntraIssueCycle p false a.type a.arrivalCycle refreshNum
  issued : rk.activates p a = true → rk.lastRdWrCycle rk.lastBank ≠ 0 →
    rk.lastRdWrCycle rk.lastBank <
      rk.calcIntraIssueCycle p false a.type a.arrivalCycle refreshNum
  first : rk.activates p a = true → rk.lastRdWrCycle rk.lastBank = 0 →
    0 < a.arrivalCycle + p.tRCD + p.getRdWrDelay a.type (rk.lastType rk.lastBank)
  turnaround : rk.activates p a = false →
    0 < p.getRdWrDelay a.type (rk.lastType rk.lastBank)
  continued : p.rowBufferPolicy = .RB_CLOSE → rk.activates p a = false →
    rk.lastPreCycle a.bank ≤
      max (rk.calcRdWrConst p a.type a.arrivalCycle + p.getPreDelay a.type)
        (rk.lastActCycle a.bank + p.tRAS)
  lasts : 0 < p.getDataLatency (rk.lastType rk.lastBank) + p.tTrans + p.getRefreshCycle

variable {a : MemAccess} {refreshNum : Nat}

def MemRank.refreshedTo (rk : MemRank) (bankinfo : Nat → Bool) (lastRefreshCycle : Nat) : MemRank :=
  { rk with
    bankinfo := bankinfo
    lastRefreshCycle := lastRefreshCycle }

/-- A refresh closes the banks. -/
theorem MemRank.refreshed_eq (htime : 0 < p.tREFI)
    (hdue : rk.dueRefreshes p cycle = 0 ∨ p.tREFI * rk.dueRefreshes p cycle % 2 ^ 32 ≠ 0) :
    ∃ bankinfo lastRefreshCycle, rk.refreshed p cycle =
        some (rk.refreshedTo bankinfo lastRefreshCycle, rk.dueRefreshes p cycle) ∧
      (rk.dueRefreshes p cycle = 0 → bankinfo = rk.bankinfo) ∧
      (rk.dueRefreshes p cycle ≠ 0 → bankinfo = fun _ => false) := by
  have hnum : rk.updateRefreshNum p cycle = some (rk.dueRefreshes p cycle) := by
    rw [updateRefreshNum, dueRefreshes]
    split
    · rw [if_neg (Nat.ne_of_gt htime)]
    · rw [Nat.sub_eq_zero_of_le (by omega), Nat.zero_div, Nat.zero_mod]
  by_cases h0 : rk.dueRefreshes p cycle = 0
  · refine ⟨rk.bankinfo, rk.lastRefreshCycle, ?_, fun _ => rfl, fun hne => absurd h0 hne⟩
    simp [refreshed, hnum, updateLastRefreshCycle, h0]
    rfl
  · have hlater : rk.lastRefreshCycle <
        rk.lastRefreshCycle + p.tREFI * rk.dueRefreshes p cycle % 2 ^ 32 :=
      Nat.lt_add_of_pos_right (Nat.pos_of_ne_zero (hdue.resolve_left h0))
    refine ⟨fun _ => false, rk.lastRefreshCycle + p.tREFI * rk.dueRefreshes p cycle % 2 ^ 32, ?_,
      fun h => absurd h h0, fun _ => rfl⟩
    rw [refreshed, hnum]
    simp only [Option.bind_eq_bind, Option.bind_some, updateLastRefreshCycle,
      if_pos (Nat.pos_of_ne_zero h0), refresh, guard, if_pos hlater]
    rfl

theorem MemRank.le_calcIntraIssueCycle (rowHit : Bool) (type : MemAccessType) :
    cycle ≤ rk.calcIntraIssueCycle p rowHit type cycle refreshNum := by
  unfold calcIntraIssueCycle
  dsimp only
  split_ifs <;> omega

theorem MemRank.countInRefresh_ne (h : rk.countInRefresh p refreshNum ≠ 0) :
    rk.lastRefreshCycle ≤ rk.lastAccessCycle := by
  by_contra hlt
  apply h
  rw [countInRefresh, if_neg]
  rintro ⟨-, -, hle⟩
  exact hlt hle

/-- A row is opened or read after the last read or write of the rank. -/
theorem RowInv.lt_calcIntraIssueCycle (h : RowInv p rk acts) {rowHit : Bool} {type : MemAccessType}
    (hlasts : 0 < p.getDataLatency (rk.lastType rk.lastBank) + p.tTrans + p.getRefreshCycle)
    (hturn : rowHit = true → 0 < p.getRdWrDelay type (rk.lastType rk.lastBank))
    (hlast : rk.lastRdWrCycle rk.lastBank ≠ 0) :
    rk.lastRdWrCycle rk.lastBank < rk.calcIntraIssueCycle p rowHit type cycle refreshNum := by
  have hacc := h.access.resolve_left hlast
  have href := @MemRank.countInRefresh_ne p rk refreshNum
  unfold MemRank.calcIntraIssueCycle
  dsimp only
  split_ifs with hin h2 hhit
  · have := href hin
    omega
  · have := href hin
    omega
  · exact lt_max_of_lt_left (Nat.lt_add_of_pos_right (hturn hhit))
  · exact lt_max_of_lt_left (Nat.lt_succ_self _)

theorem spaced_four {s : Nat} (h : acts.Pairwise fun x y => y.2 + s ≤ x.2) {x : Nat × Nat}
    (hx : acts[3]? = some x) : ∃ y ∈ acts, x.2 + 3 * s ≤ y.2 := by
  match acts, h, hx with
  | w :: y :: z :: _ :: l, h, hx =>
    cases hx
    obtain ⟨hw, h⟩ := List.pairwise_cons.mp h
    obtain ⟨hy, h⟩ := List.pairwise_cons.mp h
    obtain ⟨hz, -⟩ := List.pairwise_cons.mp h
    have h1 := hw y (by simp)
    have h2 := hy z (by simp)
    have h3 := hz x (by simp)
    exact ⟨w, List.mem_cons_self, by omega⟩

/-- Without a check by `CalcActConst` the activates keep their distances when the access
arrives as asked, or when each comes after the read or write of the one before. -/
theorem OpensOk.mayActivate (hok : OpensOk p acts rk a) (h : RowInv p rk acts)
    (hinv : ActInv p rk acts) (h0 : rk.lastActCycle a.bank = 0) (harr : a.arrivalCycle ≤ cycle)
    (hlater : rk.lastRdWrCycle rk.lastBank ≠ 0 → rk.lastRdWrCycle rk.lastBank < cycle) :
    MayActivate p acts a.bank cycle := by
  have hgap : ∀ x ∈ acts, x.2 + (p.tRCD + 1) ≤ cycle := by
    intro x hx
    obtain ⟨hne, hle⟩ := h.served x hx
    have := hlater hne
    omega
  constructor
  · intro x hx heq
    have hzero := hinv.latest x hx
    rw [heq, h0] at hzero
    have := (hok.reopened h0 x hx heq).1
    omega
  · intro x hx
    rcases hok.tRRD h0 with hshort | hlate
    · have := hgap x hx
      omega
    · exact (hlate x hx).trans harr
  · intro x hx
    rcases hok.tFAW h0 with hshort | hlate
    · obtain ⟨y, hy, hle⟩ := spaced_four h.spaced hx
      have := hgap y hy
      omega
    · exact (hlate x hx).trans harr

theorem MemRank.activates_iff {bankinfo : Nat → Bool} {lastRefreshCycle : Nat}
    (hsame : rk.dueRefreshes p a.arrivalCycle = 0 → bankinfo = rk.bankinfo)
    (hclosed : rk.dueRefreshes p a.arrivalCycle ≠ 0 → bankinfo = fun _ => false) :
    (rk.refreshedTo bankinfo lastRefreshCycle).activates p a = true ↔ ¬ rk.KeepsRow p a := by
  rw [activates, KeepsRow]
  cases p.rowBufferPolicy with
  | RB_OPEN =>
    by_cases h0 : rk.dueRefreshes p a.arrivalCycle = 0
    · rw [hsame h0]
      show (!rk.isRowBufferHit a.row a.bank) = true ↔ _
      simp [h0]
    · simp [refreshedTo, isRowBufferHit, hclosed h0, h0]
  | RB_CLOSE =>
    show (!rk.checkContinuousAccess p a.arrivalCycle a.bank a.row) = true ↔ _
    simp

/-- What is asked of an access is enough for its commands. -/
theorem AccessOk.rowOk (hok : AccessOk p acts rk a) (hinv : ActInv p rk acts)
    (h : RowInv p rk acts) : ∃ rk' n, rk.refreshed p a.arrivalCycle = some (rk', n) ∧
      ActInv p rk' acts ∧ RowInv p rk' acts ∧ RowOk p acts rk' n a := by
  obtain ⟨bankinfo, lastRefreshCycle, hrefresh, hsame, hclosed⟩ :=
    MemRank.refreshed_eq hok.tREFI hok.refresh
  have hact : (rk.refreshedTo bankinfo lastRefreshCycle).activates p a = true ↔
      ¬ rk.KeepsRow p a := MemRank.activates_iff hsame hclosed
  have hopened : ∀ b, bankinfo b = true →
      p.rowBufferPolicy = .RB_OPEN ∧ 0 < rk.lastRdWrCycle b := by
    intro b hb
    by_cases h0 : rk.dueRefreshes p a.arrivalCycle = 0
    · rw [hsame h0] at hb
      exact h.opened b hb
    · rw [hclosed h0] at hb
      cases hb
  have hinv' : ActInv p (rk.refreshedTo bankinfo lastRefreshCycle) acts := hinv.frame rfl rfl rfl
  have h' : RowInv p (rk.refreshedTo bankinfo lastRefreshCycle) acts :=
    { h with opened := hopened }
  have hkeep : ∀ {rk' : MemRank}, (rk'.activates p a = true ↔ ¬ rk.KeepsRow p a) →
      rk'.activates p a = false → KeepsOk p rk a := by
    intro rk' hact hf
    by_contra hno
    have := hact.mpr fun hk => hno (hok.keeps hk)
    rw [hf] at this
    cases this
  refine ⟨_, _, hrefresh, hinv', h', fun ha => ?_, fun ha h0 => ?_, fun ha hne => ?_,
    fun ha => (hok.opens (hact.mp ha)).first, fun hf => (hkeep hact hf).turnaround,
    fun hp hf => ?_, hok.lasts⟩
  · rcases (hok.opens (hact.mp ha)).window with hfour | hfew
    · exact hinv'.index_lt.trans_le hfour
    · rw [hinv'.index]
      exact (Nat.mod_le _ _).trans_lt hfew
  · have hopens := hok.opens (hact.mp ha)
    have harr : a.arrivalCycle ≤ (rk.refreshedTo bankinfo lastRefreshCycle).calcIntraIssueCycle p
        false a.type a.arrivalCycle (rk.dueRefreshes p a.arrivalCycle) :=
      MemRank.le_calcIntraIssueCycle false a.type
    refine ⟨hopens.mayActivate h hinv h0 harr fun hne =>
      h'.lt_calcIntraIssueCycle hok.lasts (by simp) hne, ?_⟩
    by_cases hpre : rk.lastPreCycle a.bank = 0
    · exact hpre.trans_le (Nat.zero_le _)
    · obtain ⟨x, hx, heq⟩ := h.precharged _ hpre
      exact (hopens.reopened h0 x hx heq).2.trans harr
  · exact h'.lt_calcIntraIssueCycle hok.lasts (by simp) hne
  · show rk.lastPreCycle a.bank ≤ max (max a.arrivalCycle (rk.lastRdWrCycle rk.lastBank +
      p.getRdWrDelay a.type (rk.lastType rk.lastBank)) + p.getPreDelay a.type)
      (rk.lastActCycle a.bank + p.tRAS)
    rcases (hkeep hact hf).merged hp with htype | htime | hlate
    · have hpre := h.closing hp a.bank
      have hle := h.rdwr a.bank
      rw [htype] at hpre
      omega
    · have hpre := h.merging hp htime a.bank a.type
      omega
    · omega

@[simp] theorem MemRank.noteInRefresh_bankinfo :
    (rk.noteInRefresh p refreshNum).bankinfo = rk.bankinfo :=
  rfl

@[simp] theorem MemRank.noteInRefresh_lastType :
    (rk.noteInRefresh p refreshNum).lastType = rk.lastType :=
  rfl

@[simp] theorem MemRank.calcPreConst_noteInRefresh (type : MemAccessType) (issuable : Nat) :
    (rk.noteInRefresh p refreshNum).calcPreConst p bank type issuable =
      rk.calcPreConst p bank type issuable :=
  rfl

theorem MemRank.le_calcPreConst (type : MemAccessType) (issuable : Nat) :
    issuable ≤ rk.calcPreConst p bank type issuable ∧
      rk.lastActCycle bank ≤ rk.calcPreConst p bank type issuable := by
  unfold calcPreConst
  omega

theorem MemRank.issuePrecharge_eq (h : rk.lastPreCycle bank ≤ cycle) :
    rk.issuePrecharge bank cycle = some { rk with
      lastPreCycle := Function.update rk.lastPreCycle bank cycle
      bankinfo := Function.update rk.bankinfo bank false } := by
  simp [issuePrecharge, setLastPreCycle, guard, h]

/-- The rank when the activate of an access may be issued. -/
structure RankPrepared (p : MemParam) (rk rk' : MemRank) (a : MemAccess) (act : Nat) : Prop where
  rdwr : rk'.lastRdWrCycle = rk.lastRdWrCycle
  bank : rk'.lastBank = rk.lastBank
  type : rk'.lastType = rk.lastType
  access : rk'.lastAccessCycle = rk.lastAccessCycle
  acts : rk'.lastActCycle = rk.lastActCycle
  index : rk'.tFAWIndex = rk.tFAWIndex
  opened : ∀ x, x ≠ a.bank → rk'.bankinfo x = true → rk.bankinfo x = true
  pre : ∀ x, x ≠ a.bank → rk'.lastPreCycle x = rk.lastPreCycle x
  unused : rk'.lastActCycle a.bank = 0 → rk'.lastPreCycle a.bank ≤ act

/-- Under the closed-row policy no bank is open between accesses. -/
theorem RowInv.rowHit_eq_false (h : RowInv p rk acts) (hp : p.rowBufferPolicy = .RB_CLOSE)
    (a : MemAccess) : rk.isRowBufferHit a.row a.bank = false := by
  by_contra hhit
  rw [Bool.not_eq_false, MemRank.isRowBufferHit, Bool.and_eq_true] at hhit
  have := (h.opened a.bank hhit.1).1
  rw [hp] at this
  cases this

theorem RowInv.prepareRow (h : RowInv p rk acts) (hinv : ActInv p rk acts)
    (hok : RowOk p acts rk refreshNum a) (hact : rk.activates p a = true) :
    ∃ rk' act, rk.prepareRow p a refreshNum = some (rk', some act, false) ∧ ActInv p rk' acts ∧
      rk.calcIntraIssueCycle p false a.type a.arrivalCycle refreshNum ≤ act ∧
      RankPrepared p rk rk' a act := by
  have hunused := fun h0 => (hok.unused hact h0).2
  cases hp : p.rowBufferPolicy with
  | RB_OPEN =>
    have hhit : rk.isRowBufferHit a.row a.bank = false := by
      simpa [MemRank.activates, hp] using hact
    have hpre := h.pre hp
    by_cases hopen : rk.bankinfo a.bank = true
    · obtain ⟨hissue, hlast⟩ := rk.le_calcPreConst (p := p) (rk.lastType a.bank)
        (rk.calcIntraIssueCycle p false a.type a.arrivalCycle refreshNum)
      obtain ⟨pre, hpreEq⟩ : ∃ pre, rk.calcPreConst p a.bank (rk.lastType a.bank)
        (rk.calcIntraIssueCycle p false a.type a.arrivalCycle refreshNum) = pre := ⟨_, rfl⟩
      rw [hpreEq] at hissue hlast
      have hiss := (rk.noteInRefresh p refreshNum).issuePrecharge_eq ((hpre a.bank).trans hlast)
      have hprep : rk.prepareRow p a refreshNum = some ({ rk.noteInRefresh p refreshNum with
          lastPreCycle := Function.update rk.lastPreCycle a.bank pre
          bankinfo := Function.update rk.bankinfo a.bank false }, some (pre + p.tRP), false) := by
        simp [MemRank.prepareRow, hp, hhit, hopen, guard, hpreEq, hissue, hiss]
        rfl
      refine ⟨_, _, hprep, hinv.frame rfl rfl rfl, Nat.le_add_right_of_le hissue, ?_⟩
      refine ⟨rfl, rfl, rfl, rfl, rfl, rfl, ?_, ?_, ?_⟩
      · intro x hx hopened
        simpa [hx] using hopened
      · intro x hx
        exact Function.update_of_ne hx _ _
      · intro _
        simp
    · refine ⟨rk.noteInRefresh p refreshNum, _, ?_, hinv.frame rfl rfl rfl, Nat.le_refl _, ?_⟩
      · simp [MemRank.prepareRow, hp, hhit, MemRank.noteInRefresh, hopen]
      · exact ⟨rfl, rfl, rfl, rfl, rfl, rfl, fun x _ hx => hx, fun _ _ => rfl, hunused⟩
  | RB_CLOSE =>
    have hcont : rk.checkContinuousAccess p a.arrivalCycle a.bank a.row = false := by
      simpa [MemRank.activates, hp] using hact
    have hhit := h.rowHit_eq_false hp a
    refine ⟨rk.noteInRefresh p refreshNum, _, ?_, hinv.frame rfl rfl rfl, Nat.le_refl _, ?_⟩
    · simp [MemRank.prepareRow, hp, hhit, hcont, guard]
    · exact ⟨rfl, rfl, rfl, rfl, rfl, rfl, fun x _ hx => hx, fun _ _ => rfl, hunused⟩

/-- The activates of a rank after an access. -/
def pushAct (bank : Nat) (acts : List (Nat × Nat)) : Option Nat → List (Nat × Nat)
  | none => acts
  | some cycle => (bank, cycle) :: acts

/-- The rank when a read or write may be issued, given the cycle of the activate. -/
structure RankReady (p : MemParam) (rk rk' : MemRank) (a : MemAccess) : Prop where
  rdwr : rk'.lastRdWrCycle = rk.lastRdWrCycle
  bank : rk'.lastBank = rk.lastBank
  type : rk'.lastType = rk.lastType
  access : rk'.lastAccessCycle = rk.lastAccessCycle
  opened : ∀ x, x ≠ a.bank → rk'.bankinfo x = true → rk.bankinfo x = true
  pre : ∀ x, x ≠ a.bank → rk'.lastPreCycle x = rk.lastPreCycle x
  act : ∀ x, x ≠ a.bank → rk'.lastActCycle x = rk.lastActCycle x

theorem RankPrepared.activateRow {rk' : MemRank} {act : Nat} (h : RankPrepared p rk rk' a act)
    (hinv : ActInv p rk' acts) (hb : a.bank < p.bankCount) (hidx : rk'.tFAWIndex < p.bankCount)
    (harr : a.arrivalCycle ≤ act)
    (hm : rk'.lastActCycle a.bank = 0 → MayActivate p acts a.bank act) :
    ∃ rk'' c, rk'.activateRow p a (some act) = some (rk'', some c) ∧
      ActInv p rk'' ((a.bank, c) :: acts) ∧ RankReady p rk rk'' a ∧ act ≤ c ∧
      rk''.lastPreCycle a.bank ≤ c ∧ rk''.lastActCycle a.bank = c := by
  have hcalc : ∃ c, rk'.calcActConst p a.bank act = some c ∧ act ≤ c ∧
      rk'.lastPreCycle a.bank ≤ c ∧ MayActivate p acts a.bank c := by
    by_cases h0 : rk'.lastActCycle a.bank = 0
    · exact ⟨act, if_pos h0, Nat.le_refl _, h.unused h0, hm h0⟩
    · exact hinv.calcActConst hidx h0 act
  obtain ⟨c, hcalc, hle, hpre, hmay⟩ := hcalc
  obtain ⟨rk'', hiss, hinv', heq⟩ := hinv.issueActivate hb hidx hmay
  have harr' := harr.trans hle
  refine ⟨rk'', c, ?_, hinv', ?_, hle, ?_, ?_⟩
  · simp [MemRank.activateRow, hcalc, hiss, guard, harr']
  · rw [heq]
    refine ⟨h.rdwr, h.bank, h.type, h.access, ?_, h.pre, ?_⟩
    · intro x hx hopened
      simp only [ne_eq, hx, not_false_eq_true, Function.update_of_ne] at hopened
      exact h.opened x hx hopened
    · intro x hx
      rw [← h.acts]
      exact Function.update_of_ne hx _ _
  · rw [heq]
    exact hpre
  · rw [heq]
    exact Function.update_self _ _ _

/-- The row commands of an access have been issued, and its read or write may start. -/
structure Commanded (p : MemParam) (acts : List (Nat × Nat)) (rk rk' : MemRank) (a : MemAccess)
    (act : Option Nat) (start : Nat) : Prop where
  inv : ActInv p rk' (pushAct a.bank acts act)
  ready : RankReady p rk rk' a
  arrival : a.arrivalCycle ≤ start
  later : rk.lastRdWrCycle rk.lastBank < start
  issued : ∀ c, act = some c → c + p.tRCD ≤ start ∧
    (rk.lastRdWrCycle rk.lastBank ≠ 0 → rk.lastRdWrCycle rk.lastBank < c)
  opened : p.rowBufferPolicy = .RB_OPEN → rk'.lastPreCycle a.bank ≤ rk'.lastActCycle a.bank
  closed : p.rowBufferPolicy = .RB_CLOSE →
    rk.lastRdWrCycle rk.lastBank + p.getRdWrDelay a.type (rk.lastType rk.lastBank) ≤ start ∧
      rk'.lastPreCycle a.bank ≤
        max (start + p.getPreDelay a.type) (rk'.lastActCycle a.bank + p.tRAS)
  activated : p.rowBufferPolicy = .RB_CLOSE ∨ rk'.lastPreCycle a.bank ≠ 0 →
    ∃ x ∈ pushAct a.bank acts act, x.1 = a.bank

/-- The row commands of an access and the start of its search for a slot. -/
theorem RowInv.commands (h : RowInv p rk acts) (hinv : ActInv p rk acts)
    (hok : RowOk p acts rk refreshNum a) (hb : a.bank < p.bankCount) :
    ∃ rk2 act0 cont rk3 act rk4 start,
      rk.prepareRow p a refreshNum = some (rk2, act0, cont) ∧
      rk2.activateRow p a act0 = some (rk3, act) ∧
      rk3.startRdWr p a refreshNum (rk.isRowBufferHit a.row a.bank) cont act =
        some (rk4, start) ∧ Commanded p acts rk rk4 a act start := by
  cases hact : rk.activates p a with
  | true =>
    obtain ⟨rk2, act0, hprep, hinv2, hle, hready⟩ := h.prepareRow hinv hok hact
    have hidx := hok.window hact
    rw [← hready.index] at hidx
    have hm := fun h0 => ((hok.unused hact (hready.acts ▸ h0)).1).le hle
    have harr : a.arrivalCycle ≤
        rk.calcIntraIssueCycle p false a.type a.arrivalCycle refreshNum :=
      rk.le_calcIntraIssueCycle false a.type
    obtain ⟨rk3, c, hrow, hinv3, hready3, hlec, hpre, hself⟩ := hready.activateRow hinv2 hb hidx
      (harr.trans hle) hm
    have hissued := hok.issued hact
    have hfirst := hok.first hact
    refine ⟨rk2, _, _, rk3, _, rk3, _, hprep, hrow, rfl, hinv3, hready3, ?_, ?_, ?_, ?_, ?_, ?_⟩
    · unfold MemRank.calcRdWrConst
      omega
    · rw [MemRank.calcRdWrConst, hready3.rdwr, hready3.bank, hready3.type]
      by_cases h0 : rk.lastRdWrCycle rk.lastBank = 0
      · have := hfirst h0
        omega
      · have := hissued h0
        omega
    · rintro _ ⟨⟩
      refine ⟨Nat.le_max_left _ _, fun hne => ?_⟩
      have := hissued hne
      omega
    · intro _
      rw [hself]
      exact hpre
    · intro _
      rw [MemRank.calcRdWrConst, hready3.rdwr, hready3.bank, hready3.type]
      omega
    · exact fun _ => ⟨_, List.mem_cons_self, rfl⟩
  | false =>
    have hturn := hok.turnaround hact
    cases hp : p.rowBufferPolicy with
    | RB_OPEN =>
      have hhit : rk.isRowBufferHit a.row a.bank = true := by
        simpa [MemRank.activates, hp] using hact
      have hopen : rk.bankinfo a.bank = true := by
        rw [MemRank.isRowBufferHit, Bool.and_eq_true] at hhit
        exact hhit.1
      have hpos := (h.opened a.bank hopen).2.trans_le (h.rdwr a.bank)
      refine ⟨rk, none, false, rk, none, rk.noteInRefresh p refreshNum,
        rk.calcIntraIssueCycle p true a.type a.arrivalCycle refreshNum, ?_, rfl, ?_,
        hinv.frame rfl rfl rfl, ?_, ?_, ?_, ?_, ?_, ?_, ?_⟩
      · simp [MemRank.prepareRow, hp, hhit]
      · simp [MemRank.startRdWr, hp, hhit, guard]
      · exact ⟨rfl, rfl, rfl, rfl, fun x _ hx => hx, fun _ _ => rfl, fun _ _ => rfl⟩
      · exact rk.le_calcIntraIssueCycle true a.type
      · exact h.lt_calcIntraIssueCycle hok.lasts (fun _ => hturn) (Nat.ne_of_gt hpos)
      · intro c hc
        cases hc
      · exact fun _ => h.pre hp a.bank
      · intro hclose
        rw [hp] at hclose
        cases hclose
      · rintro (hclose | hne)
        · rw [hp] at hclose
          cases hclose
        · exact h.precharged a.bank hne
    | RB_CLOSE =>
      have hcont : rk.checkContinuousAccess p a.arrivalCycle a.bank a.row = true := by
        simpa [MemRank.activates, hp] using hact
      have hhit := h.rowHit_eq_false hp a
      refine ⟨rk, none, true, rk, none, rk, _, ?_, rfl, rfl, hinv, ?_, ?_, ?_, ?_, ?_, ?_, ?_⟩
      · simp [MemRank.prepareRow, hp, hhit, hcont, guard]
      · exact ⟨rfl, rfl, rfl, rfl, fun x _ hx => hx, fun _ _ => rfl, fun _ _ => rfl⟩
      · exact Nat.le_max_left _ _
      · unfold MemRank.calcRdWrConst
        omega
      · intro c hc
        cases hc
      · intro hopen
        rw [hp] at hopen
        cases hopen
      · exact fun _ => ⟨Nat.le_max_right _ _, hok.continued hp hact⟩
      · refine fun _ => h.precharged a.bank ?_
        rw [MemRank.checkContinuousAccess, Bool.and_eq_true, Bool.and_eq_true,
          decide_eq_true_eq] at hcont
        exact Nat.ne_of_gt (Nat.zero_lt_of_lt hcont.2.1)

theorem MemRank.access_eq {accessCycle issuedCycle row : Nat} {type : MemAccessType}
    (h : rk.lastRdWrCycle bank < issuedCycle) :
    ∃ rk', rk.access accessCycle issuedCycle row bank type = some rk' ∧ rk' = { rk with
      lastAccessCycle := max rk.lastAccessCycle accessCycle
      lastRdWrCycle := Function.update rk.lastRdWrCycle bank issuedCycle
      lastRow := rk'.lastRow
      lastType := Function.update rk.lastType bank type
      lastBank := bank } :=
  ⟨_, by simp [access, guard, h]; rfl, rfl⟩

/-- What the closed-row policy does to a bank at the end of an access. -/
theorem MemRank.closeRow_eq {rdwr : Nat} (h : p.rowBufferPolicy = .RB_CLOSE →
      rk.lastPreCycle a.bank ≤ rk.calcPreConst p a.bank a.type rdwr) :
    ∃ rk', rk.closeRow p a rdwr = some rk' ∧ rk' = { rk with
      lastPreCycle := rk'.lastPreCycle
      bankinfo := rk'.bankinfo } ∧
      (p.rowBufferPolicy = .RB_OPEN → rk' = rk) ∧
      (p.rowBufferPolicy = .RB_CLOSE →
        rk'.bankinfo = Function.update rk.bankinfo a.bank false ∧
        rk'.lastPreCycle = Function.update rk.lastPreCycle a.bank
          (rk.calcPreConst p a.bank a.type rdwr)) := by
  cases hp : p.rowBufferPolicy with
  | RB_OPEN =>
    refine ⟨rk, by rw [closeRow, hp], rfl, fun _ => rfl, ?_⟩
    intro hc
    cases hc
  | RB_CLOSE =>
    have hiss := MemRank.issuePrecharge_eq (h hp)
    have hclose : rk.closeRow p a rdwr =
        rk.issuePrecharge a.bank (rk.calcPreConst p a.bank a.type rdwr) := by
      rw [closeRow, hp]
      simp only [guard, if_pos (rk.le_calcPreConst a.type rdwr).1]
      rfl
    refine ⟨_, hclose.trans hiss, rfl, ?_, fun _ => ⟨rfl, rfl⟩⟩
    intro ho
    cases ho

/-- The rank after an access. -/
structure Accessed (p : MemParam) (rk rk' rk'' : MemRank) (a : MemAccess)
    (accessCycle issuedCycle : Nat) : Prop where
  access : rk''.lastAccessCycle = max rk'.lastAccessCycle accessCycle
  rdwr : rk''.lastRdWrCycle = Function.update rk.lastRdWrCycle a.bank issuedCycle
  type : rk''.lastType = Function.update rk.lastType a.bank a.type
  bank : rk''.lastBank = a.bank
  act : rk''.lastActCycle = rk'.lastActCycle
  window : rk''.tFAWCycle = rk'.tFAWCycle ∧ rk''.tFAWIndex = rk'.tFAWIndex
  opened : p.rowBufferPolicy = .RB_OPEN →
    rk''.bankinfo = rk'.bankinfo ∧ rk''.lastPreCycle = rk'.lastPreCycle
  closed : p.rowBufferPolicy = .RB_CLOSE →
    rk''.bankinfo = Function.update rk'.bankinfo a.bank false ∧
    rk''.lastPreCycle = Function.update rk'.lastPreCycle a.bank
      (max (issuedCycle + p.getPreDelay a.type) (rk'.lastActCycle a.bank + p.tRAS))

theorem Commanded.access {rk' : MemRank} {act : Option Nat} {start rdwr : Nat}
    (hc : Commanded p acts rk rk' a act start) (h : RowInv p rk acts) (hstart : start ≤ rdwr)
    (accessCycle : Nat) :
    ∃ rk5 rk6, rk'.access accessCycle rdwr a.row a.bank a.type = some rk5 ∧
      rk5.closeRow p a rdwr = some rk6 ∧ Accessed p rk rk' rk6 a accessCycle rdwr := by
  have hlt : rk'.lastRdWrCycle a.bank < rdwr := by
    have := h.rdwr a.bank
    have := hc.later
    rw [hc.ready.rdwr]
    omega
  obtain ⟨rk5, hrk5, heq5⟩ :=
    @MemRank.access_eq rk' a.bank accessCycle rdwr a.row a.type hlt
  have hcalc : rk5.calcPreConst p a.bank a.type rdwr =
      max (rdwr + p.getPreDelay a.type) (rk'.lastActCycle a.bank + p.tRAS) := by
    have hact5 : rk5.lastActCycle = rk'.lastActCycle := by rw [heq5]
    have hrdwr5 : rk5.lastRdWrCycle = Function.update rk'.lastRdWrCycle a.bank rdwr := by rw [heq5]
    unfold MemRank.calcPreConst
    rw [hact5, hrdwr5, Function.update_self, max_eq_right (Nat.le_add_right _ _)]
  have hlate : p.rowBufferPolicy = .RB_CLOSE →
      rk5.lastPreCycle a.bank ≤ rk5.calcPreConst p a.bank a.type rdwr := by
    intro hp
    have := (hc.closed hp).2
    have hpre5 : rk5.lastPreCycle = rk'.lastPreCycle := by rw [heq5]
    rw [hcalc, hpre5]
    omega
  obtain ⟨rk6, hrk6, heq6, hopen, hclose⟩ := MemRank.closeRow_eq hlate
  refine ⟨rk5, rk6, hrk5, hrk6, ?_, ?_, ?_, ?_, ?_, ⟨?_, ?_⟩, fun hp => ?_, fun hp => ?_⟩
  · rw [heq6, heq5]
  · rw [heq6, heq5, ← hc.ready.rdwr]
  · rw [heq6, heq5, ← hc.ready.type]
  · rw [heq6, heq5]
  · rw [heq6, heq5]
  · rw [heq6, heq5]
  · rw [heq6, heq5]
  · rw [hopen hp, heq5]
    exact ⟨rfl, rfl⟩
  · obtain ⟨hinfo, hpre⟩ := hclose hp
    rw [hinfo, hpre, hcalc, heq5]
    exact ⟨rfl, rfl⟩

/-- The reads and writes of a rank go on in order, each after its activate. -/
theorem Accessed.inv {rk' rk'' : MemRank} {act : Option Nat} {start rdwr accessCycle : Nat}
    (hacc : Accessed p rk rk' rk'' a accessCycle rdwr) (hc : Commanded p acts rk rk' a act start)
    (h : RowInv p rk acts) (hstart : start ≤ rdwr)
    (hdata : rdwr + p.getDataLatency a.type + p.tTrans ≤ accessCycle) :
    RowInv p rk'' (pushAct a.bank acts act) := by
  have hself : rk''.lastRdWrCycle a.bank = rdwr := by rw [hacc.rdwr, Function.update_self]
  have hlast : rk''.lastRdWrCycle rk''.lastBank = rdwr := by rw [hacc.bank, hself]
  have htype : rk''.lastType rk''.lastBank = a.type := by
    rw [hacc.bank, hacc.type, Function.update_self]
  have hrdwr : ∀ b, b ≠ a.bank → rk''.lastRdWrCycle b = rk.lastRdWrCycle b := fun b hb => by
    rw [hacc.rdwr, Function.update_of_ne hb]
  have hpre : ∀ b, b ≠ a.bank → rk''.lastPreCycle b = rk.lastPreCycle b := by
    intro b hb
    rw [← hc.ready.pre b hb]
    cases hp : p.rowBufferPolicy with
    | RB_OPEN => rw [(hacc.opened hp).2]
    | RB_CLOSE => rw [(hacc.closed hp).2, Function.update_of_ne hb]
  have hact : ∀ b, b ≠ a.bank → rk''.lastActCycle b = rk.lastActCycle b := fun b hb => by
    rw [hacc.act, hc.ready.act b hb]
  have hlater := hc.later
  constructor
  · intro b
    rw [hlast]
    by_cases hb : b = a.bank
    · rw [hb, hself]
    · have := h.rdwr b
      rw [hrdwr b hb]
      omega
  · rw [hlast, htype, hacc.access]
    exact .inr (hdata.trans (Nat.le_max_right _ _))
  · intro b hopened
    cases hp : p.rowBufferPolicy with
    | RB_OPEN =>
      refine ⟨rfl, ?_⟩
      by_cases hb : b = a.bank
      · rw [hb, hself]
        omega
      · rw [(hacc.opened hp).1] at hopened
        rw [hrdwr b hb]
        exact (h.opened b (hc.ready.opened b hb hopened)).2
    | RB_CLOSE =>
      rw [(hacc.closed hp).1] at hopened
      by_cases hb : b = a.bank
      · rw [hb, Function.update_self] at hopened
        cases hopened
      · rw [Function.update_of_ne hb] at hopened
        have := (h.opened b (hc.ready.opened b hb hopened)).1
        rw [hp] at this
        cases this
  · intro hp b
    by_cases hb : b = a.bank
    · rw [hb, (hacc.opened hp).2, hacc.act]
      exact hc.opened hp
    · rw [hpre b hb, hact b hb]
      exact h.pre hp b
  · intro x hx
    rw [hlast]
    have hold : ∀ x ∈ acts, rdwr ≠ 0 ∧ x.2 + p.tRCD ≤ rdwr := by
      intro x hx
      have := (h.served x hx).2
      omega
    cases act with
    | none => exact hold x hx
    | some c =>
      rcases List.mem_cons.mp hx with rfl | hx
      · have := (hc.issued c rfl).1
        exact ⟨by omega, this.trans hstart⟩
      · exact hold x hx
  · cases act with
    | none => exact h.spaced
    | some c =>
      refine List.pairwise_cons.mpr ⟨fun x hx => ?_, h.spaced⟩
      obtain ⟨hne, hle⟩ := h.served x hx
      have := (hc.issued c rfl).2 hne
      show x.2 + (p.tRCD + 1) ≤ c
      omega
  · intro b hne
    by_cases hb : b = a.bank
    · rw [hb]
      refine hc.activated ?_
      cases hp : p.rowBufferPolicy with
      | RB_OPEN =>
        rw [hb, (hacc.opened hp).2] at hne
        exact .inr hne
      | RB_CLOSE => exact .inl rfl
    · rw [hpre b hb] at hne
      obtain ⟨x, hx, heq⟩ := h.precharged b hne
      cases act with
      | none => exact ⟨x, hx, heq⟩
      | some c => exact ⟨x, List.mem_cons_of_mem _ hx, heq⟩
  · intro hp b
    by_cases hb : b = a.bank
    · rw [hb, hself, (hacc.closed hp).2, hacc.type, hacc.act, Function.update_self,
        Function.update_self]
    · rw [hrdwr b hb, hpre b hb, hact b hb, hacc.type, Function.update_of_ne hb]
      exact h.closing hp b
  · intro hp htime b type
    have hdelay := htime.getPreDelay_le type a.type
    rw [hlast, htype]
    by_cases hb : b = a.bank
    · rw [hb, (hacc.closed hp).2, hacc.act, Function.update_self]
      omega
    · have hmerge := h.merging hp htime b a.type
      have := (hc.closed hp).1
      rw [hpre b hb, hact b hb]
      omega

namespace MemChannel

variable {c : MemChannel} {issues : List MemIssue} {r : Nat}

/-- The activates that the issues made in a rank. -/
def actsOf (r : Nat) (issues : List MemIssue) : List (Nat × Nat) :=
  issues.filterMap fun i => if i.rank = r then i.act.map (Prod.mk i.bank) else none

theorem actsOf_cons_of_eq {i : MemIssue} (h : i.rank = r) :
    actsOf r (i :: issues) = pushAct i.bank (actsOf r issues) i.act := by
  cases hact : i.act with
  | none => simp [actsOf, pushAct, hact]
  | some cycle => simp [actsOf, pushAct, hact, h]

theorem actsOf_cons_of_ne {i : MemIssue} (h : i.rank ≠ r) :
    actsOf r (i :: issues) = actsOf r issues := by
  simp [actsOf, h]

theorem issueCommands_ok {rk : MemRank} (hinv : ActInv p rk acts) (hrow : RowInv p rk acts)
    (hb : a.bank < p.bankCount)
    (hr : (c.ranks a.rank).refreshed p a.arrivalCycle = some (rk, refreshNum))
    (hok : RowOk p acts rk refreshNum a) :
    ∃ rk' act rdwr start, c.issueCommands p a = some (rk', act, rdwr) ∧
      Commanded p acts rk rk' a act start ∧ start ≤ rdwr := by
  obtain ⟨rk2, act0, cont, rk3, act, rk4, start, hprep, hact, hrdwr, hc⟩ :=
    hrow.commands hinv hok hb
  have hslot : start ≤ c.calcInterIssueCycle p a.type start := le_calcInterIssueCycle
  have harr := hc.arrival
  have harr' := harr.trans hslot
  refine ⟨rk4, act, _, start, ?_, hc, hslot⟩
  simp [issueCommands, hr, hprep, hact, hrdwr, guard, harr, harr']

/-- An access that meets the condition is simulated, and its rank stays in order. -/
theorem latencySimulate_ok (hinv : ActInv p (c.ranks a.rank) (actsOf a.rank issues))
    (hrow : RowInv p (c.ranks a.rank) (actsOf a.rank issues)) (hb : a.bank < p.bankCount)
    (hok : AccessOk p (actsOf a.rank issues) (c.ranks a.rank) a) :
    ∃ c' i rk, c.latencySimulate p a = some (c', i) ∧
      c'.ranks = Function.update c.ranks a.rank rk ∧ i.rank = a.rank ∧
      ActInv p rk (actsOf a.rank (i :: issues)) ∧ RowInv p rk (actsOf a.rank (i :: issues)) := by
  obtain ⟨rk1, refreshNum, hrefresh, hinv1, hrow1, hrowok⟩ := hok.rowOk hinv hrow
  obtain ⟨rk2, act, rdwr, start, hissue, hc, hstart⟩ :=
    issueCommands_ok hinv1 hrow1 hb hrefresh hrowok
  let penalty := (c.ranks a.rank).getPowerDownPenalty p a.arrivalCycle
  let busEnd := a.arrivalCycle + (rdwr - a.arrivalCycle + p.getDataDelay a.type + penalty +
    (p.tTrans - p.tTransCrit))
  have hend : busEnd = rdwr + p.getDataLatency a.type + p.tTrans + penalty :=
    busEnd_eq (hc.arrival.trans hstart)
  obtain ⟨rk3, rk4, haccess, hclose, hacc⟩ := hc.access hrow1 hstart busEnd
  obtain ⟨log, hlog⟩ :=
    @updateDataBusCycle_eq_some p c hok.logged (busEnd - p.getDataSlot a.type) busEnd
  have hsim : c.latencySimulate p a = some (⟨Function.update c.ranks a.rank rk4, log⟩,
      ⟨a.arrivalCycle, a.rank, a.bank, a.type, act, rdwr, penalty,
        (busEnd - p.getDataSlot a.type, busEnd),
        rdwr - a.arrivalCycle + p.getDataDelay a.type + penalty⟩) := by
    rw [latencySimulate, hissue]
    show c.recordAccess p a rk2 act rdwr penalty = _
    rw [recordAccess]
    simp only [Option.bind_eq_bind]
    rw [haccess, Option.bind_some, hclose, Option.bind_some, hlog]
    rfl
  refine ⟨_, _, rk4, hsim, rfl, rfl, ?_, ?_⟩
  · rw [actsOf_cons_of_eq (r := a.rank) rfl]
    exact hc.inv.frame hacc.act hacc.window.1 hacc.window.2
  · rw [actsOf_cons_of_eq (r := a.rank) rfl]
    exact hacc.inv hc hrow1 hstart (show rdwr + _ + _ ≤ busEnd by omega)

/-- The accesses of a run meet the condition on the rank before them. -/
def AccessesOk (p : MemParam) (issues : List MemIssue) (c : MemChannel) (a : MemAccess) : Prop :=
  AccessOk p (actsOf a.rank issues) (c.ranks a.rank) a

/-- The histories of all ranks stay in order over a run of accesses that meet the condition. -/
theorem Run.ranks_ok (h : Run p (AccessesOk p) c issues) :
    ∀ r, ActInv p (c.ranks r) (actsOf r issues) ∧ RowInv p (c.ranks r) (actsOf r issues) := by
  induction h with
  | init =>
    intro r
    exact ⟨ActInv.init, RowInv.init⟩
  | @step c c' issues a i _ hb hok hsim ih =>
    intro r
    obtain ⟨c'', i', rk, hsim', hranks, hrank, hinv, hrow⟩ :=
      latencySimulate_ok (ih a.rank).1 (ih a.rank).2 hb hok
    rw [hsim'] at hsim
    cases hsim
    rw [hranks]
    by_cases hr : r = a.rank
    · rw [hr, Function.update_self]
      exact ⟨hinv, hrow⟩
    · rw [Function.update_of_ne hr, actsOf_cons_of_ne (hrank.trans_ne (Ne.symm hr))]
      exact ih r

/-- In a run of accesses that meet the condition the activates of each rank keep their
distances, and the next such access passes every assert. -/
theorem acts_legal_of_accessOk (h : Run p (AccessesOk p) c issues) :
    (∀ r, ActsLegal p (actsOf r issues)) ∧
      ∀ a : MemAccess, a.bank < p.bankCount →
        AccessOk p (actsOf a.rank issues) (c.ranks a.rank) a →
        ∃ c' i, c.latencySimulate p a = some (c', i) := by
  constructor
  · intro r
    exact (Run.ranks_ok h r).1.legal
  · intro a hb hok
    obtain ⟨hinv, hrow⟩ := Run.ranks_ok h a.rank
    obtain ⟨c', i, rk, hsim, -⟩ := latencySimulate_ok hinv hrow hb hok
    exact ⟨c', i, hsim⟩

/-- A rank of eight banks, with accesses merged. -/
def eightBanks : MemParam :=
  { MemParam.default with
    bankCount := 8
    powerDownCycle := 0
    mergeContinuous := true
    tRC := 33
    tRAS := 24
    tRCD := 9
    tRP := 9
    tRRD := 4
    tWR := 10
    tWTR := 5
    tCAS := 9
    tCWD := 7
    tCCD := 4
    tREFI := 5200
    tRFC := 74
    tFAW := 20
    tRTP := 5 }

theorem accessOk_eightBanks {rk : MemRank} (hdue : rk.dueRefreshes eightBanks a.arrivalCycle = 0)
    (harr : 0 < a.arrivalCycle)
    (hnew : rk.lastActCycle a.bank = 0 → ∀ x ∈ acts, x.1 ≠ a.bank) :
    AccessOk eightBanks acts rk a := by
  refine ⟨by decide, by decide, .inl hdue, Nat.add_pos_right _ (by decide), fun _ => ?_,
    fun _ => ?_⟩
  · refine ⟨.inl (by decide), fun _ => .inl (by decide), fun _ => .inl (by decide), ?_, ?_⟩
    · intro h0 x hx heq
      exact absurd heq (hnew h0 x hx)
    · intro _
      omega
  · refine ⟨?_, fun _ => .inr (.inl (by decide))⟩
    cases a.type with
    | READ => cases rk.lastType rk.lastBank <;> decide
    | WRITE => cases rk.lastType rk.lastBank <;> decide

/-- Three banks, a read merged with the write before it, and a fourth bank. -/
theorem acts_legal_banks : ∃ c issues, Run eightBanks (AccessesOk eightBanks) c issues ∧
    (actsOf 0 issues).length = 3 ∧ (∀ r, ActsLegal eightBanks (actsOf r issues)) ∧
      ∃ c' i, c.latencySimulate eightBanks ⟨0, 0, 3, .READ, 23⟩ = some (c', i) := by
  have h0 := @Run.init eightBanks (AccessesOk eightBanks)
  have h1 := h0.step (a := ⟨0, 0, 0, .READ, 10⟩) (by decide)
    (accessOk_eightBanks (by decide) (by decide) (by decide)) rfl
  have h2 := h1.step (a := ⟨0, 0, 1, .READ, 20⟩) (by decide)
    (accessOk_eightBanks (by decide) (by decide) (by decide)) rfl
  have h3 := h2.step (a := ⟨5, 0, 2, .WRITE, 21⟩) (by decide)
    (accessOk_eightBanks (by decide) (by decide) (by decide)) rfl
  have h4 := h3.step (a := ⟨5, 0, 2, .READ, 22⟩) (by decide)
    (accessOk_eightBanks (by decide) (by decide) (by decide)) rfl
  have h := acts_legal_of_accessOk h4
  exact ⟨_, _, h4, by decide, h.1, h.2 ⟨0, 0, 3, .READ, 23⟩ (by decide)
    (accessOk_eightBanks (by decide) (by decide) (by decide))⟩

/-- With the default parameters a rank has two banks and a window of two cycles, and the third
activate writes behind it. -/
theorem third_activate_overflows : ¬ ∀ (p : MemParam) (c : MemChannel) (issues : List MemIssue),
    Run p InOrder c issues → (∀ r, ActsLegal p (actsOf r issues)) ∧
      ∀ a : MemAccess, a.bank < p.bankCount → InOrder issues c a →
        ∃ c' i, c.latencySimulate p a = some (c', i) := by
  intro h
  have h0 := @Run.init .default InOrder
  have h1 := h0.step (a := ⟨0, 0, 0, .READ, 10⟩) (by decide) (by simp [InOrder]) rfl
  have h2 := h1.step (a := ⟨0, 0, 1, .READ, 100⟩) (by decide) (by simp [InOrder]) rfl
  obtain ⟨c', i, hsim⟩ := (h _ _ _ h2).2 ⟨0, 0, 0, .READ, 200⟩ (by decide) (by simp [InOrder])
  cases hsim

end MemChannel

end ZSim
