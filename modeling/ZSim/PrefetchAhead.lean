import ZSim.PrefetcherRuns

/-! The prefetches against the stride that the entry has detected. The depth is a quotient of
unsigned words, which is the number of strides that the last prefetch is ahead only for positive
strides, and only while the last prefetch is not behind. -/

namespace ZSim

/-- `p` is ahead of `pos` by a positive multiple of the stride. -/
def AheadBy (stride : Int) (pos p : Nat) : Prop := ∃ k : Int, 1 ≤ k ∧ (p : Int) = pos + k * stride

namespace StreamEntry

variable {e : StreamEntry} {pos p stride : BitVec 32}

/-- The access is at the predicted stride, with confidence. The code divides by the stride. -/
def Confirms (e : StreamEntry) (pos : BitVec 32) : Prop :=
  e.stride = pos - e.lastPos ∧ e.inc.pred = true

/-- A position to be prefetched. -/
def Open (e : StreamEntry) (p : BitVec 32) : Prop := p < 64 ∧ e.valid p = false

/-- The last prefetch is behind the last access, where the quotient of a stride above 1 wraps
around, and the position after it is open. -/
def Stale (e : StreamEntry) : Prop :=
  2 ≤ e.stride.toInt ∧ e.lastPrefetchPos < e.lastPos ∧ e.Open (e.lastPrefetchPos + e.stride)

/-- The positions of an entry are in its page, with the last prefetch some strides from the last
access. -/
structure Tracked (e : StreamEntry) : Prop where
  lastPos : e.lastPos.toNat < 64
  lastPrefetchPos : e.lastPrefetchPos.toNat < 64
  stride : -64 < e.stride.toInt ∧ e.stride.toInt < 64
  gap : ∃ m : Int, (e.lastPrefetchPos.toNat : Int) = e.lastPos.toNat + m * e.stride.toInt

theorem sub_toInt {q : BitVec 32} (hp : p.toNat < 64) (hq : q.toNat < 64) :
    (p - q).toInt = (p.toNat : Int) - q.toNat := by
  rw [BitVec.toInt_eq_toNat_cond, BitVec.toNat_sub]
  omega

theorem add_toNat (hp : p.toNat < 64) (hs : -64 < stride.toInt ∧ stride.toInt < 64)
    (h : (p + stride).toNat < 64) : ((p + stride).toNat : Int) = p.toNat + stride.toInt := by
  rw [BitVec.toInt_eq_toNat_cond] at hs ⊢
  rw [BitVec.toNat_add] at h ⊢
  omega

theorem target_of_lt (h : ((e.lastPrefetchPos - e.lastPos) / stride).toInt < 1) :
    e.target pos stride = (1, pos + stride) := if_pos h

theorem target_of_not_lt (h : ¬ ((e.lastPrefetchPos - e.lastPos) / stride).toInt < 1) :
    (e.target pos stride).2 = e.lastPrefetchPos + stride :=
  congrArg Prod.snd (if_neg h)

theorem target_level (h : e.lastPrefetchPos = e.lastPos) :
    e.target pos stride = (1, pos + stride) := by
  apply target_of_lt
  rw [h, BitVec.sub_self, BitVec.zero_udiv]
  decide

theorem target_next (hs : stride = pos - e.lastPos) (hne : stride ≠ 0)
    (h : e.lastPrefetchPos = pos) : e.target pos stride = (1, pos + stride) := by
  have hone : ((e.lastPrefetchPos - e.lastPos) / stride).toInt = 1 := by
    rw [h, ← hs, BitVec.toInt_eq_toNat_cond, BitVec.toNat_udiv, Nat.div_self]
    · rfl
    · exact Nat.pos_of_ne_zero fun hz => hne (BitVec.eq_of_toNat_eq hz)
  rw [target, hone, if_neg (by decide), h]

theorem target_of_neg (h : e.Tracked) (hs : e.stride = pos - e.lastPos) (hpos : pos.toNat < 64)
    (hneg : e.stride.toInt < 0) : e.target pos e.stride = (1, pos + e.stride) := by
  obtain ⟨m, hm⟩ := h.gap
  have hlast := h.lastPos
  have hpf := h.lastPrefetchPos
  have hstride := sub_toInt hpos hlast
  rw [← hs] at hstride
  have hσ := hneg
  rw [BitVec.toInt_eq_toNat_cond] at hσ
  by_cases hone : m = 1
  · have heq : e.lastPrefetchPos = pos := by
      apply BitVec.eq_of_toNat_eq
      rw [hone] at hm
      omega
    refine target_next hs ?_ heq
    intro hzero
    rw [hzero] at hneg
    exact absurd hneg (by decide)
  · apply target_of_lt
    have hlt : (e.lastPrefetchPos - e.lastPos).toNat < e.stride.toNat := by
      have hval : e.stride.toInt = (e.stride.toNat : Int) - 2 ^ 32 := by
        rw [BitVec.toInt_eq_toNat_cond]
        omega
      rw [BitVec.toNat_sub]
      rcases Int.lt_or_gt_of_ne hone with hlow | hhigh
      · have hle : m * e.stride.toInt ≥ 0 :=
          Int.mul_nonneg_of_nonpos_of_nonpos (by omega) (by omega)
        omega
      · have hle : m * e.stride.toInt ≤ 2 * e.stride.toInt :=
          Int.mul_le_mul_of_nonpos_right (by omega) (by omega)
        omega
    rw [BitVec.toInt_eq_toNat_cond, BitVec.toNat_udiv, Nat.div_eq_of_lt hlt]
    decide

theorem target_of_one (h : e.Tracked) (hs : stride = 1) (hlt : e.lastPrefetchPos < e.lastPos) :
    e.target pos stride = (1, pos + stride) := by
  have hlast := h.lastPos
  have hlt' : e.lastPrefetchPos.toNat < e.lastPos.toNat := hlt
  apply target_of_lt
  have hone : (e.lastPrefetchPos - e.lastPos) / stride = e.lastPrefetchPos - e.lastPos := by
    rw [hs]
    exact BitVec.udiv_one
  rw [hone, sub_toInt h.lastPrefetchPos hlast]
  omega

theorem Tracked.gap_pos (h : e.Tracked) (hpos : 0 < e.stride.toInt)
    (hlt : e.lastPos.toNat < e.lastPrefetchPos.toNat) : ∃ m : Int, 1 ≤ m ∧
      (e.lastPrefetchPos.toNat : Int) = e.lastPos.toNat + m * e.stride.toInt := by
  obtain ⟨m, hm⟩ := h.gap
  refine ⟨m, ?_, hm⟩
  by_contra hlow
  have hle : m * e.stride.toInt ≤ 0 :=
    Int.mul_nonpos_of_nonpos_of_nonneg (by omega) (by omega)
  omega

theorem target_of_ahead (h : e.Tracked) (hpos : 0 < e.stride.toInt)
    (hlt : e.lastPos < e.lastPrefetchPos) :
    (e.target pos e.stride).2 = e.lastPrefetchPos + e.stride := by
  obtain ⟨m, hm1, hm⟩ := h.gap_pos hpos hlt
  have hpf := h.lastPrefetchPos
  have hlt' : e.lastPos.toNat < e.lastPrefetchPos.toNat := hlt
  have hbound := h.stride.2
  apply target_of_not_lt
  have hval : e.stride.toInt = e.stride.toNat := by
    rw [BitVec.toInt_eq_toNat_cond] at hpos hbound ⊢
    omega
  have hle : e.stride.toInt ≤ m * e.stride.toInt := le_mul_of_one_le_left (by omega) hm1
  have hdiff : (e.lastPrefetchPos - e.lastPos).toNat =
      e.lastPrefetchPos.toNat - e.lastPos.toNat := by
    rw [BitVec.toNat_sub]
    omega
  have hdiv : 1 ≤ (e.lastPrefetchPos - e.lastPos).toNat / e.stride.toNat := by
    rw [hdiff]
    exact Nat.div_pos (by omega) (by omega)
  have hsmall : (e.lastPrefetchPos - e.lastPos).toNat / e.stride.toNat < 64 := by
    rw [hdiff]
    exact Nat.lt_of_le_of_lt (Nat.div_le_self _ _) (by omega)
  rw [BitVec.toInt_eq_toNat_cond, BitVec.toNat_udiv]
  omega

/-- The wrapped difference is at least the stride, and at most half of the words divide it. -/
theorem target_of_stale (h : e.Tracked) (htwo : 2 ≤ e.stride.toInt)
    (hlt : e.lastPrefetchPos < e.lastPos) :
    (e.target pos e.stride).2 = e.lastPrefetchPos + e.stride := by
  have hlast := h.lastPos
  have hlt' : e.lastPrefetchPos.toNat < e.lastPos.toNat := hlt
  have hbound := h.stride.2
  apply target_of_not_lt
  have hval : 2 ≤ e.stride.toNat ∧ e.stride.toNat < 64 := by
    rw [BitVec.toInt_eq_toNat_cond] at htwo hbound
    omega
  have hdiff : (e.lastPrefetchPos - e.lastPos).toNat =
      2 ^ 32 - (e.lastPos.toNat - e.lastPrefetchPos.toNat) := by
    rw [BitVec.toNat_sub]
    omega
  have hdiv : 1 ≤ (e.lastPrefetchPos - e.lastPos).toNat / e.stride.toNat := by
    rw [hdiff]
    exact Nat.div_pos (by omega) (by omega)
  have hhalf : (e.lastPrefetchPos - e.lastPos).toNat / e.stride.toNat ≤
      (e.lastPrefetchPos - e.lastPos).toNat / 2 := Nat.div_le_div_left hval.1 (by decide)
  rw [BitVec.toInt_eq_toNat_cond, BitVec.toNat_udiv]
  omega

theorem mem_prefetches {shortPrefetch : Bool} (h : p ∈ e.prefetches pos stride shortPrefetch) :
    e.Open (e.target pos stride).2 ∧ (p = (e.target pos stride).2 ∨
      p = (e.target pos stride).2 + stride ∧ p.toNat < 64) := by
  rw [prefetches] at h
  dsimp only at h
  split at h
  · rename_i hopen
    refine ⟨hopen, ?_⟩
    split at h
    · rename_i hsecond
      rcases List.mem_cons.mp h with rfl | h
      · exact .inl rfl
      · obtain rfl := List.mem_singleton.mp h
        exact .inr ⟨rfl, hsecond.2.2.1⟩
    · exact .inl (List.mem_singleton.mp h)
  · cases h

theorem target_mem {shortPrefetch : Bool} (h : e.Open (e.target pos stride).2) :
    (e.target pos stride).2 ∈ e.prefetches pos stride shortPrefetch := by
  have hopen : (e.target pos stride).2 < 64 ∧ e.valid (e.target pos stride).2 = false := h
  rw [prefetches]
  dsimp only
  rw [if_pos hopen]
  split
  · exact List.mem_cons_self
  · exact List.mem_cons_self

/-- The position after the last prefetch, counted from the access. -/
theorem after_last (h : e.Tracked) (hs : e.stride = pos - e.lastPos) (hpos : pos.toNat < 64)
    (hlt : (e.lastPrefetchPos + e.stride).toNat < 64) :
    ((e.lastPrefetchPos + e.stride).toNat : Int) =
      pos.toNat + (e.lastPrefetchPos.toNat - e.lastPos.toNat) := by
  have hstride := sub_toInt hpos h.lastPos
  rw [← hs] at hstride
  rw [add_toNat h.lastPrefetchPos h.stride hlt, hstride]
  omega

theorem target_ahead (h : e.Tracked) (hs : e.stride = pos - e.lastPos) (hpos : pos.toNat < 64)
    (hopen : e.Open (e.target pos e.stride).2) (hfresh : ¬ e.Stale) :
    AheadBy e.stride.toInt pos.toNat (e.target pos e.stride).2.toNat := by
  have hnext : e.target pos e.stride = (1, pos + e.stride) →
      AheadBy e.stride.toInt pos.toNat (e.target pos e.stride).2.toNat := by
    intro heq
    rw [heq] at hopen ⊢
    refine ⟨1, le_refl _, ?_⟩
    rw [add_toNat hpos h.stride hopen.1, Int.one_mul]
  rcases Int.lt_trichotomy e.stride.toInt 0 with hneg | hzero | hup
  · exact hnext (target_of_neg h hs hpos hneg)
  · have hlevel : e.stride = 0 := BitVec.eq_of_toInt_eq hzero
    obtain ⟨m, hm⟩ := h.gap
    rw [hzero, Int.mul_zero] at hm
    exact hnext (target_level (BitVec.eq_of_toNat_eq (by omega)))
  · rcases Nat.lt_trichotomy e.lastPrefetchPos.toNat e.lastPos.toNat with hlt | heq | hgt
    · by_cases htwo : 2 ≤ e.stride.toInt
      · rw [target_of_stale h htwo hlt] at hopen
        exact absurd ⟨htwo, hlt, hopen⟩ hfresh
      · have hone : e.stride = 1 := by
          apply BitVec.eq_of_toInt_eq
          show e.stride.toInt = 1
          omega
        exact hnext (target_of_one h hone hlt)
    · exact hnext (target_level (BitVec.eq_of_toNat_eq heq))
    · obtain ⟨m, hm1, hm⟩ := h.gap_pos hup hgt
      rw [target_of_ahead h hup hgt] at hopen ⊢
      refine ⟨m, hm1, ?_⟩
      rw [after_last h hs hpos hopen.1]
      omega

/-- The prefetches are ahead of the access unless the last one is stale. -/
theorem prefetches_ahead_iff (shortPrefetch : Bool) (h : e.Tracked)
    (hs : e.stride = pos - e.lastPos) (hpos : pos.toNat < 64) :
    (∀ p ∈ e.prefetches pos e.stride shortPrefetch,
      AheadBy e.stride.toInt pos.toNat p.toNat) ↔ ¬ e.Stale := by
  constructor
  · rintro hahead ⟨htwo, hlt, hopen⟩
    have htarget : (e.target pos e.stride).2 = e.lastPrefetchPos + e.stride :=
      target_of_stale h htwo hlt
    rw [← htarget] at hopen
    obtain ⟨k, hk, heq⟩ := hahead _ (target_mem hopen)
    rw [htarget] at hopen heq
    rw [after_last h hs hpos hopen.1] at heq
    have hlt' : e.lastPrefetchPos.toNat < e.lastPos.toNat := hlt
    have hle : e.stride.toInt ≤ k * e.stride.toInt := le_mul_of_one_le_left (by omega) hk
    omega
  · intro hfresh p hp
    obtain ⟨hopen, rfl | ⟨rfl, hlt⟩⟩ := mem_prefetches hp
    · exact target_ahead h hs hpos hopen hfresh
    · obtain ⟨k, hk, heq⟩ := target_ahead h hs hpos hopen hfresh
      refine ⟨k + 1, by omega, ?_⟩
      rw [add_toNat hopen.1 h.stride hlt, heq, Int.add_mul, Int.one_mul, Int.add_assoc]

/-- The stride of the entry and its last prefetch, counted from a position. -/
structure Reaches (e : StreamEntry) (pos : BitVec 32) : Prop where
  lastPrefetchPos : e.lastPrefetchPos.toNat < 64
  stride : -64 < e.stride.toInt ∧ e.stride.toInt < 64
  gap : ∃ k : Int, (e.lastPrefetchPos.toNat : Int) = pos.toNat + k * e.stride.toInt

theorem Reaches.advance (h : e.Reaches pos) (hpos : pos.toNat < 64) : (e.advance pos).Tracked :=
  ⟨hpos, h.lastPrefetchPos, h.stride, h.gap⟩

theorem Reaches.fill {respCycle : Nat} (h : e.Reaches pos) (hp : p.toNat < 64)
    (hgap : ∃ k : Int, (p.toNat : Int) = pos.toNat + k * e.stride.toInt) :
    (e.fill p respCycle).Reaches pos :=
  ⟨hp, h.stride, hgap⟩

theorem Reaches.foldl_fill {answered : List (BitVec 32 × Nat)} (h : e.Reaches pos)
    (hall : ∀ a ∈ answered, a.1.toNat < 64 ∧
      ∃ k : Int, (a.1.toNat : Int) = pos.toNat + k * e.stride.toInt) :
    (answered.foldl (fun e a => e.fill a.1 a.2) e).Reaches pos := by
  induction answered generalizing e with
  | nil => exact h
  | cons a answered ih =>
    obtain ⟨hp, hgap⟩ := hall a List.mem_cons_self
    exact ih (h.fill hp hgap) fun b hb => hall b (List.mem_cons_of_mem _ hb)

theorem Tracked.reaches (h : e.Tracked) (hs : e.stride = pos - e.lastPos) (hpos : pos.toNat < 64) :
    e.Reaches pos := by
  obtain ⟨m, hm⟩ := h.gap
  have hstride := sub_toInt hpos h.lastPos
  rw [← hs] at hstride
  refine ⟨h.lastPrefetchPos, h.stride, m - 1, ?_⟩
  rw [Int.sub_mul, Int.one_mul]
  omega

theorem Tracked.otherStride (h : e.Tracked) (hpos : pos.toNat < 64) :
    (e.otherStride pos (pos - e.lastPos)).Reaches pos := by
  have hstride := sub_toInt hpos h.lastPos
  have hlast := h.lastPos
  have hzero : ∀ stride : Int, ∃ k : Int, (pos.toNat : Int) = pos.toNat + k * stride := by
    intro stride
    exact ⟨0, by omega⟩
  have hbound : -64 < (pos - e.lastPos).toInt ∧ (pos - e.lastPos).toInt < 64 := by omega
  rw [StreamEntry.otherStride]
  split
  · exact ⟨hpos, hbound, hzero _⟩
  · exact ⟨hpos, h.stride, hzero _⟩

theorem Tracked.alloc {curCycle ts : Nat} (hpos : pos.toNat < 64) :
    ({ e.alloc curCycle with lastPos := pos, ts := ts } : StreamEntry).Tracked := by
  constructor
  · exact hpos
  · show (0 : BitVec 32).toNat < 64
    decide
  · show -64 < (1 : BitVec 32).toInt ∧ (1 : BitVec 32).toInt < 64
    decide
  · refine ⟨-(pos.toNat : Int), ?_⟩
    show (0 : Int) = pos.toNat + -(pos.toNat : Int) * 1
    omega

theorem target_cases (e : StreamEntry) (pos stride : BitVec 32) :
    (e.target pos stride).2 = pos + stride ∨
      (e.target pos stride).2 = e.lastPrefetchPos + stride := by
  by_cases h : ((e.lastPrefetchPos - e.lastPos) / stride).toInt < 1
  · rw [target_of_lt h]
    exact .inl rfl
  · exact .inr (target_of_not_lt h)

theorem Reaches.prefetches {shortPrefetch : Bool} (h : e.Reaches pos) (hpos : pos.toNat < 64)
    (hp : p ∈ e.prefetches pos e.stride shortPrefetch) : p.toNat < 64 ∧
      ∃ k : Int, (p.toNat : Int) = pos.toNat + k * e.stride.toInt := by
  have htarget : e.Open (e.target pos e.stride).2 → ∃ k : Int,
      ((e.target pos e.stride).2.toNat : Int) = pos.toNat + k * e.stride.toInt := by
    intro hopen
    rcases target_cases e pos e.stride with heq | heq
    · rw [heq] at hopen ⊢
      exact ⟨1, by rw [add_toNat hpos h.stride hopen.1, Int.one_mul]⟩
    · obtain ⟨k, hk⟩ := h.gap
      rw [heq] at hopen ⊢
      refine ⟨k + 1, ?_⟩
      rw [add_toNat h.lastPrefetchPos h.stride hopen.1, hk, Int.add_mul, Int.one_mul,
        Int.add_assoc]
  obtain ⟨hopen, rfl | ⟨rfl, hlt⟩⟩ := mem_prefetches hp
  · exact ⟨hopen.1, htarget hopen⟩
  · obtain ⟨k, hk⟩ := htarget hopen
    refine ⟨hlt, k + 1, ?_⟩
    rw [add_toNat hopen.1 h.stride hlt, hk, Int.add_mul, Int.one_mul, Int.add_assoc]

theorem Tracked.congr {f : StreamEntry} (h : e.Tracked) (hstride : f.stride = e.stride)
    (hlast : f.lastPos = e.lastPos) (hpf : f.lastPrefetchPos = e.lastPrefetchPos) : f.Tracked := by
  constructor
  · rw [hlast]
    exact h.lastPos
  · rw [hpf]
    exact h.lastPrefetchPos
  · rw [hstride]
    exact h.stride
  · rw [hstride, hlast, hpf]
    exact h.gap

/-- What a prefetch hit leaves of the entry. -/
structure Kept (e f : StreamEntry) (pos : BitVec 32) : Prop where
  stride : f.stride = e.stride
  conf : f.conf = e.conf
  lastPos : f.lastPos = e.lastPos
  lastLastPos : f.lastLastPos = e.lastLastPos
  lastPrefetchPos : f.lastPrefetchPos = e.lastPrefetchPos
  valid : ∀ p, p ≠ pos → f.valid p = e.valid p

theorem prefetchHit_kept (e : StreamEntry) (pos : BitVec 32) (respCycle : Nat) :
    Kept e (e.prefetchHit pos respCycle).1 pos := by
  rw [prefetchHit]
  split
  · exact ⟨rfl, rfl, rfl, rfl, rfl, fun p hp => Function.update_of_ne hp _ _⟩
  · exact ⟨rfl, rfl, rfl, rfl, rfl, fun _ _ => rfl⟩

theorem inc_pred {f : StreamEntry} (h : f.conf = e.conf) : f.inc.pred = e.inc.pred :=
  congrArg (fun c => decide (2 ≤ min (c + 1) 3)) h

theorem Kept.confirms_iff {f : StreamEntry} (h : Kept e f pos) :
    f.Confirms pos ↔ e.Confirms pos := by
  rw [Confirms, Confirms, h.stride, h.lastPos, inc_pred h.conf]

theorem after_last_ne (hs : e.stride = pos - e.lastPos) (hne : e.lastPrefetchPos ≠ e.lastPos) :
    e.lastPrefetchPos + e.stride ≠ pos := by
  intro heq
  have hpos : pos = e.lastPos + e.stride := by
    rw [hs, BitVec.add_comm, BitVec.sub_add_cancel]
  rw [hpos] at heq
  exact hne ((BitVec.add_left_inj _).mp heq)

theorem Kept.open_iff {f : StreamEntry} (h : Kept e f pos) (hp : p ≠ pos) :
    f.Open p ↔ e.Open p := by
  rw [Open, Open, h.valid p hp]

/-- A prefetch hit leaves the position after a stale prefetch as it is. -/
theorem Kept.stale_iff {f : StreamEntry} (h : Kept e f pos) (hs : e.stride = pos - e.lastPos) :
    f.Stale ↔ e.Stale := by
  rw [Stale, Stale, h.stride, h.lastPos, h.lastPrefetchPos]
  refine and_congr_right fun _ => and_congr_right fun hlt => ?_
  exact h.open_iff (after_last_ne hs fun heq => absurd (congrArg BitVec.toNat heq) (Nat.ne_of_lt hlt))

end StreamEntry

namespace StreamPrefetcher

open PrefetchSystem (Demand)

variable {pf : StreamPrefetcher} {childId idx : Nat} {d : Demand}

/-- The table after a demand whose prefetches are answered. -/
def after (pf : StreamPrefetcher) (d : Demand) : StreamPrefetcher :=
  pf.train d.lineAddr d.reqCycle d.respCycle
    ((pf.issued d.lineAddr d.respCycle).zip (d.env.map (·.respCycle)))

/-- The requests that the demand makes the prefetcher send. -/
def requests (pf : StreamPrefetcher) (childId : Nat) (d : Demand) : List (MemReq Unit) :=
  (pf.issued d.lineAddr d.respCycle).map
    (pfReq d.lineAddr childId d.reqCycle d.srcId d.childLock)

/-- The prefetches of a demand are for lines of its page, ahead of it by positive multiples of the
stride that the entry has detected, which is not zero where it is divided by. -/
structure Sound (pf : StreamPrefetcher) (childId : Nat) (d : Demand) : Prop where
  divides : ∀ idx, pf.find? (pageOf d.lineAddr) = some idx →
    (pf.array idx).Confirms (posOf d.lineAddr) → (pf.array idx).stride ≠ 0
  page : ∀ q ∈ pf.requests childId d, pageOf q.lineAddr = pageOf d.lineAddr
  ahead : ∀ idx, pf.find? (pageOf d.lineAddr) = some idx → ∀ q ∈ pf.requests childId d,
    AheadBy (pf.array idx).stride.toInt d.lineAddr q.lineAddr

/-- The entry of the demand has a stride and no stale prefetch where it is to prefetch. -/
def MayPrefetch (pf : StreamPrefetcher) (d : Demand) : Prop :=
  ∀ idx, pf.find? (pageOf d.lineAddr) = some idx → (pf.array idx).Confirms (posOf d.lineAddr) →
    (pf.array idx).stride ≠ 0 ∧ ¬ (pf.array idx).Stale

theorem posOf_toNat (lineAddr : Address) : (posOf lineAddr).toNat = lineAddr % 64 := by
  rw [posOf, BitVec.toNat_ofNat]
  omega

theorem pfReq_lineAddr {lineAddr : Nat} {reqCycle srcId : Nat} {childLock : Bool}
    {p : BitVec 32} (hline : lineAddr < 2 ^ 64) (hp : p.toNat < 64) :
    (pfReq lineAddr childId reqCycle srcId childLock p).lineAddr = lineAddr / 64 * 64 + p.toNat := by
  show (lineAddr + p.toNat + 2 ^ 64 - lineAddr % 64) % 2 ^ 64 = lineAddr / 64 * 64 + p.toNat
  omega

/-- The entry of the page with the demand counted in its confidence. -/
def confirmed (pf : StreamPrefetcher) (idx : Nat) (d : Demand) : StreamEntry :=
  (pf.entryHit idx (posOf d.lineAddr) d.respCycle).1.inc

theorem entryHit_kept (pf : StreamPrefetcher) (idx : Nat) (pos : BitVec 32) (respCycle : Nat) :
    StreamEntry.Kept (pf.array idx) (pf.entryHit idx pos respCycle).1 pos :=
  let h := StreamEntry.prefetchHit_kept { pf.array idx with ts := pf.timestamp } pos respCycle
  ⟨h.stride, h.conf, h.lastPos, h.lastLastPos, h.lastPrefetchPos, h.valid⟩

theorem issued_of_confirms (hfind : pf.find? (pageOf d.lineAddr) = some idx)
    (h : (pf.array idx).Confirms (posOf d.lineAddr)) :
    pf.issued d.lineAddr d.respCycle = (pf.confirmed idx d).prefetches (posOf d.lineAddr)
      (pf.array idx).stride (pf.entryHit idx (posOf d.lineAddr) d.respCycle).2.2 := by
  have hk := entryHit_kept pf idx (posOf d.lineAddr) d.respCycle
  have hboth := hk.confirms_iff.mpr h
  rw [issued, hfind]
  dsimp only
  refine (if_pos hboth).trans ?_
  rw [hk.lastPos, ← h.1]
  rfl

theorem issued_of_not_confirms (hfind : pf.find? (pageOf d.lineAddr) = some idx)
    (h : ¬ (pf.array idx).Confirms (posOf d.lineAddr)) :
    pf.issued d.lineAddr d.respCycle = [] := by
  have hk := entryHit_kept pf idx (posOf d.lineAddr) d.respCycle
  rw [issued, hfind]
  exact if_neg fun hboth => h (hk.confirms_iff.mp hboth)

theorem issued_of_miss (hfind : pf.find? (pageOf d.lineAddr) = none) :
    pf.issued d.lineAddr d.respCycle = [] := by
  rw [issued, hfind]

theorem confirmed_kept (pf : StreamPrefetcher) (idx : Nat) (d : Demand) :
    (pf.confirmed idx d).stride = (pf.array idx).stride ∧
      (pf.confirmed idx d).lastPos = (pf.array idx).lastPos ∧
      (pf.confirmed idx d).lastPrefetchPos = (pf.array idx).lastPrefetchPos :=
  let hk := entryHit_kept pf idx (posOf d.lineAddr) d.respCycle
  ⟨hk.stride, hk.lastPos, hk.lastPrefetchPos⟩

theorem posOf_lt (lineAddr : Address) : (posOf lineAddr).toNat < 64 := by
  rw [posOf_toNat]
  exact Nat.mod_lt _ (by decide)

theorem mem_requests {q : MemReq Unit} (hline : d.lineAddr < 2 ^ 64)
    (hpage : ∀ p ∈ pf.issued d.lineAddr d.respCycle, p.toNat < 64)
    (hq : q ∈ pf.requests childId d) : ∃ p ∈ pf.issued d.lineAddr d.respCycle,
      q.lineAddr = d.lineAddr / 64 * 64 + p.toNat := by
  obtain ⟨p, hp, rfl⟩ := List.mem_map.mp hq
  exact ⟨p, hp, pfReq_lineAddr hline (hpage p hp)⟩

theorem issued_lt {p : BitVec 32} (hp : p ∈ pf.issued d.lineAddr d.respCycle) :
    p.toNat < 64 := by
  cases hfind : pf.find? (pageOf d.lineAddr) with
  | none =>
    rw [issued_of_miss hfind] at hp
    cases hp
  | some idx =>
    by_cases h : (pf.array idx).Confirms (posOf d.lineAddr)
    · rw [issued_of_confirms hfind h] at hp
      obtain ⟨hopen, rfl | ⟨-, hlt⟩⟩ := StreamEntry.mem_prefetches hp
      · exact hopen.1
      · exact hlt
    · rw [issued_of_not_confirms hfind h] at hp
      cases hp

/-- Distances between lines of a page are distances between positions. -/
theorem aheadBy_line {lineAddr : Nat} {stride : Int} {p : Nat} :
    AheadBy stride lineAddr (lineAddr / 64 * 64 + p) ↔ AheadBy stride (lineAddr % 64) p := by
  have hmod := Nat.div_add_mod lineAddr 64
  constructor
  · rintro ⟨k, hk, heq⟩
    exact ⟨k, hk, by omega⟩
  · rintro ⟨k, hk, heq⟩
    exact ⟨k, hk, by omega⟩

theorem pageOf_line {lineAddr p : Nat} (hp : p < 64) :
    pageOf (lineAddr / 64 * 64 + p) = pageOf lineAddr := by
  show (lineAddr / 64 * 64 + p) / 64 = lineAddr / 64
  omega

theorem sound_iff (htracked : ∀ i, (pf.array i).Tracked) (hline : d.lineAddr < 2 ^ 64) :
    pf.Sound childId d ↔ pf.MayPrefetch d := by
  have hahead : ∀ idx, pf.find? (pageOf d.lineAddr) = some idx →
      (pf.array idx).Confirms (posOf d.lineAddr) →
      ((∀ p ∈ pf.issued d.lineAddr d.respCycle, AheadBy (pf.array idx).stride.toInt
        (posOf d.lineAddr).toNat p.toNat) ↔ ¬ (pf.array idx).Stale) := by
    intro idx hfind hconf
    obtain ⟨hstride, hlast, hpf⟩ := confirmed_kept pf idx d
    have hg := (htracked idx).congr hstride hlast hpf
    have hs : (pf.confirmed idx d).stride = posOf d.lineAddr - (pf.confirmed idx d).lastPos := by
      rw [hstride, hlast, hconf.1]
    have hiff := StreamEntry.prefetches_ahead_iff
      (pf.entryHit idx (posOf d.lineAddr) d.respCycle).2.2 hg hs (posOf_lt d.lineAddr)
    rw [hstride] at hiff
    rw [issued_of_confirms hfind hconf, hiff]
    exact not_congr ((entryHit_kept pf idx (posOf d.lineAddr) d.respCycle).stale_iff hconf.1)
  constructor
  · intro h idx hfind hconf
    refine ⟨h.divides idx hfind hconf, (hahead idx hfind hconf).mp ?_⟩
    intro p hp
    have hq := h.ahead idx hfind _ (List.mem_map_of_mem hp)
    rw [pfReq_lineAddr hline (issued_lt hp), aheadBy_line] at hq
    rw [posOf_toNat]
    exact hq
  · intro h
    constructor
    · exact fun idx hfind hconf => (h idx hfind hconf).1
    · intro q hq
      obtain ⟨p, hp, heq⟩ := mem_requests hline (fun p => issued_lt) hq
      rw [heq]
      exact pageOf_line (issued_lt hp)
    · intro idx hfind q hq
      obtain ⟨p, hp, heq⟩ := mem_requests hline (fun p => issued_lt) hq
      by_cases hconf : (pf.array idx).Confirms (posOf d.lineAddr)
      · have hpos := (hahead idx hfind hconf).mpr (h idx hfind hconf).2 p hp
        rw [posOf_toNat] at hpos
        rw [heq, aheadBy_line]
        exact hpos
      · rw [issued_of_not_confirms hfind hconf] at hp
        cases hp

theorem after_of_miss (hfind : pf.find? (pageOf d.lineAddr) = none) :
    pf.after d = pf.entryMiss (pageOf d.lineAddr) (posOf d.lineAddr) d.reqCycle := by
  rw [after, train, hfind]

/-- The entry of a demand that hits it. -/
def trained (pf : StreamPrefetcher) (idx : Nat) (d : Demand) : StreamEntry :=
  if (pf.array idx).stride = posOf d.lineAddr - (pf.array idx).lastPos then
    ((pf.issued d.lineAddr d.respCycle).zip (d.env.map (·.respCycle))).foldl
      (fun e a => e.fill a.1 a.2) (pf.confirmed idx d)
  else (pf.entryHit idx (posOf d.lineAddr) d.respCycle).1.otherStride (posOf d.lineAddr)
    (posOf d.lineAddr - (pf.array idx).lastPos)

theorem after_of_hit (hfind : pf.find? (pageOf d.lineAddr) = some idx) :
    pf.after d = { pf with
      timestamp := pf.timestamp + 1
      array := Function.update pf.array idx ((pf.trained idx d).advance (posOf d.lineAddr)) } := by
  have hk := entryHit_kept pf idx (posOf d.lineAddr) d.respCycle
  rw [after, train, hfind]
  dsimp only
  rw [hk.stride, hk.lastPos]
  rfl

theorem after_tracked (htracked : ∀ i, (pf.array i).Tracked) (i : Nat) :
    ((pf.after d).array i).Tracked := by
  have hpos := posOf_lt d.lineAddr
  cases hfind : pf.find? (pageOf d.lineAddr) with
  | none =>
    rw [after_of_miss hfind, entryMiss]
    split
    · exact htracked i
    · rename_i idx _
      show (Function.update pf.array idx _ i).Tracked
      by_cases hi : i = idx
      · subst hi
        rw [Function.update_self]
        exact .alloc hpos
      · rw [Function.update_of_ne hi]
        exact htracked i
  | some idx =>
    rw [after_of_hit hfind]
    show (Function.update pf.array idx _ i).Tracked
    by_cases hi : i = idx
    · subst hi
      rw [Function.update_self]
      refine StreamEntry.Reaches.advance ?_ hpos
      obtain ⟨hstride, hlast, hpf⟩ := confirmed_kept pf i d
      have hg := (htracked i).congr hstride hlast hpf
      rw [trained]
      split
      · rename_i hs
        have hreach := hg.reaches (by rw [hstride, hlast, hs]) hpos
        refine hreach.foldl_fill ?_
        intro a ha
        have hmem := (List.of_mem_zip ha).1
        by_cases hconf : (pf.array i).Confirms (posOf d.lineAddr)
        · rw [issued_of_confirms hfind hconf, ← hstride] at hmem
          exact hreach.prefetches hpos hmem
        · rw [issued_of_not_confirms hfind hconf] at hmem
          cases hmem
      · have hk := entryHit_kept pf i (posOf d.lineAddr) d.respCycle
        have hhit := (htracked i).congr hk.stride hk.lastPos hk.lastPrefetchPos
        rw [← hk.lastPos]
        exact hhit.otherStride hpos
    · rw [Function.update_of_ne hi]
      exact htracked i

/-- The demands of the stream are all sound. -/
def RunsAhead (pf : StreamPrefetcher) (childId : Nat) : List Demand → Prop
  | [] => True
  | d :: ds => pf.Sound childId d ∧ (pf.after d).RunsAhead childId ds

def MayPrefetchAll (pf : StreamPrefetcher) : List Demand → Prop
  | [] => True
  | d :: ds => pf.MayPrefetch d ∧ (pf.after d).MayPrefetchAll ds

theorem runsAhead_iff {ds : List Demand} (htracked : ∀ i, (pf.array i).Tracked)
    (hline : ∀ d ∈ ds, d.lineAddr < 2 ^ 64) :
    pf.RunsAhead childId ds ↔ pf.MayPrefetchAll ds := by
  induction ds generalizing pf with
  | nil => exact Iff.rfl
  | cons d ds ih =>
    rw [RunsAhead, MayPrefetchAll, sound_iff htracked (hline d List.mem_cons_self),
      ih (after_tracked htracked) fun d hd => hline d (List.mem_cons_of_mem _ hd)]

end StreamPrefetcher

namespace PrefetchSystem

theorem emptyTables_tracked (i : Nat) : (emptyTables.array i).Tracked := by
  constructor
  · show (0 : BitVec 32).toNat < 64
    decide
  · show (0 : BitVec 32).toNat < 64
    decide
  · show -64 < (0 : BitVec 32).toInt ∧ (0 : BitVec 32).toInt < 64
    decide
  · exact ⟨0, rfl⟩

end PrefetchSystem

end ZSim
