import ZSim.PrefetchAhead

/-! The prefetches of a stream and of its mirror image, in which the positions of each page are
reversed. A new entry starts with stride 1 in both, and only positive strides have a depth. -/

namespace ZSim

/-- The position that is as far from the end of the page as `p` is from its start. -/
def mirrorPos (p : BitVec 32) : BitVec 32 := 63 - p

theorem mirrorPos_sub (p q : BitVec 32) : mirrorPos p - mirrorPos q = -(p - q) := by
  apply BitVec.eq_of_toNat_eq
  simp only [mirrorPos, BitVec.toNat_sub, BitVec.toNat_neg]
  omega

theorem mirrorPos_add (p s : BitVec 32) : mirrorPos (p + s) = mirrorPos p + -s := by
  apply BitVec.eq_of_toNat_eq
  simp only [mirrorPos, BitVec.toNat_sub, BitVec.toNat_neg, BitVec.toNat_add]
  omega

theorem mirrorPos_mirrorPos (p : BitVec 32) : mirrorPos (mirrorPos p) = p := by
  apply BitVec.eq_of_toNat_eq
  simp only [mirrorPos, BitVec.toNat_sub]
  omega

theorem mirrorPos_inj {p q : BitVec 32} (h : mirrorPos p = mirrorPos q) : p = q := by
  rw [← mirrorPos_mirrorPos p, h, mirrorPos_mirrorPos]

theorem mirrorPos_toNat {p : BitVec 32} (h : p.toNat < 64) : (mirrorPos p).toNat = 63 - p.toNat := by
  show (2 ^ 32 - p.toNat + 63) % 2 ^ 32 = 63 - p.toNat
  omega

theorem mirrorPos_lt {p : BitVec 32} : mirrorPos p < 64 ↔ p < 64 := by
  have hp := p.isLt
  show (2 ^ 32 - p.toNat + 63) % 2 ^ 32 < 64 ↔ p.toNat < 64
  omega

/-- A function of the positions reversed. -/
theorem update_mirrorPos {β : Type} {f f' : BitVec 32 → β} (h : ∀ p, f' (mirrorPos p) = f p)
    (p : BitVec 32) (v : β) (q : BitVec 32) :
    Function.update f' (mirrorPos p) v (mirrorPos q) = Function.update f p v q := by
  by_cases hq : q = p
  · rw [hq, Function.update_self, Function.update_self]
  · rw [Function.update_of_ne hq, Function.update_of_ne fun he => hq (mirrorPos_inj he)]
    exact h q

namespace StreamEntry

variable {e e' : StreamEntry} {pos p stride : BitVec 32}

/-- What an entry always has in common with the one in the mirrored run. -/
structure Reflects (e e' : StreamEntry) : Prop where
  conf : e'.conf = e.conf
  lastCycle : e'.lastCycle = e.lastCycle
  ts : e'.ts = e.ts
  respCycle : ∀ p, e'.respCycle (mirrorPos p) = e.respCycle p
  valid : ∀ p, e'.valid (mirrorPos p) = e.valid p

/-- The stride and the last prefetch are mirrored as well. -/
structure Opposite (e e' : StreamEntry) : Prop where
  stride : e'.stride = -e.stride
  lastPrefetchPos : e'.lastPrefetchPos = mirrorPos e.lastPrefetchPos

/-- An entry and the one in the mirrored run. From the allocation on their strides are both 1,
until one is detected, and the positions before the last one both 0, until the next access. -/
structure Mirrors (e e' : StreamEntry) : Prop extends Reflects e e' where
  lastPos : e.stride ≠ 0 → e'.lastPos = mirrorPos e.lastPos
  lastLastPos : e.stride ≠ 0 →
    e'.lastLastPos = e.lastLastPos ∨ e'.lastLastPos = mirrorPos e.lastLastPos
  strides : e.stride ≠ 0 → e.stride = 1 ∧ e'.stride = 1 ∨ Opposite e e'

/-- What the allocation has set does not count as a detected stride: while the entries of the two
runs have one stride, the access is not at this stride or its negative, and while they have one
position before the last, the access is not the same distance from the last as that one. -/
structure Undetected (e e' : StreamEntry) (stride : BitVec 32) : Prop where
  predicted : e'.stride = e.stride → stride ≠ e.stride ∧ -stride ≠ e.stride
  repeated : e'.lastLastPos = e.lastLastPos → stride ≠ 0 →
    stride ≠ e.lastPos - e.lastLastPos ∧ -stride ≠ e'.lastPos - e'.lastLastPos

/-- The stride `pos - e.lastPos` of an access is taken alike in both runs: as the predicted one,
and as the one of the access before. -/
structure TakenAlike (e e' : StreamEntry) (stride : BitVec 32) : Prop where
  hit : e.stride = stride ↔ e'.stride = -stride
  switch : stride ≠ 0 →
    (stride = e.lastPos - e.lastLastPos ↔ -stride = e'.lastPos - e'.lastLastPos)

/-- The last prefetch is where the depth is 1 for a stride and for its negative. -/
def Level (e : StreamEntry) (pos : BitVec 32) : Prop :=
  e.lastPrefetchPos = e.lastPos ∨ e.lastPrefetchPos = pos ∨
    e.stride = 1 ∧ e.lastPrefetchPos < e.lastPos ∨ e.stride = -1 ∧ e.lastPos < e.lastPrefetchPos

instance (e : StreamEntry) (pos : BitVec 32) : Decidable (e.Level pos) :=
  inferInstanceAs (Decidable (e.lastPrefetchPos = e.lastPos ∨ e.lastPrefetchPos = pos ∨
    e.stride = 1 ∧ e.lastPrefetchPos < e.lastPos ∨ e.stride = -1 ∧ e.lastPos < e.lastPrefetchPos))

/-- The two positions that a prefetch may be for are not open. -/
def Closed (e : StreamEntry) (pos : BitVec 32) : Prop :=
  ¬ e.Open (pos + e.stride) ∧ ¬ e.Open (e.lastPrefetchPos + e.stride)

theorem Level.target (h : e.Level pos) (ht : e.Tracked) (hs : e.stride = pos - e.lastPos)
    (hpos : pos.toNat < 64) (hne : e.stride ≠ 0) : e.target pos e.stride = (1, pos + e.stride) := by
  rcases h with hlevel | hnext | ⟨hone, hlt⟩ | ⟨hone, -⟩
  · exact target_level hlevel
  · exact target_next hs hne hnext
  · exact target_of_one ht hone hlt
  · refine target_of_neg ht hs hpos ?_
    rw [hone]
    decide

theorem Level.mirror (h : e.Level pos) (ho : Opposite e e') (hlast : e'.lastPos = mirrorPos e.lastPos)
    (ht : e.Tracked) : e'.Level (mirrorPos pos) := by
  have hp := ht.lastPrefetchPos
  have hl := ht.lastPos
  rw [Level, ho.stride, ho.lastPrefetchPos, hlast]
  rcases h with hlevel | hnext | ⟨hone, hlt⟩ | ⟨hone, hlt⟩
  · exact .inl (congrArg mirrorPos hlevel)
  · exact .inr (.inl (congrArg mirrorPos hnext))
  · refine .inr (.inr (.inr ⟨by rw [hone], ?_⟩))
    have hlt' : e.lastPrefetchPos.toNat < e.lastPos.toNat := hlt
    show (mirrorPos e.lastPos).toNat < (mirrorPos e.lastPrefetchPos).toNat
    rw [mirrorPos_toNat hl, mirrorPos_toNat hp]
    omega
  · refine .inr (.inr (.inl ⟨by rw [hone]; decide, ?_⟩))
    have hlt' : e.lastPos.toNat < e.lastPrefetchPos.toNat := hlt
    show (mirrorPos e.lastPrefetchPos).toNat < (mirrorPos e.lastPos).toNat
    rw [mirrorPos_toNat hl, mirrorPos_toNat hp]
    omega

theorem Level.congr {f : StreamEntry} (h : e.Level pos) (hstride : f.stride = e.stride)
    (hlast : f.lastPos = e.lastPos) (hpf : f.lastPrefetchPos = e.lastPrefetchPos) :
    f.Level pos := by
  rw [Level, hstride, hlast, hpf]
  exact h

/-- A prefetch hit does not open the positions. -/
theorem Kept.closed {f : StreamEntry} (h : Kept e f pos) (hs : e.stride = pos - e.lastPos)
    (hne : e.stride ≠ 0) (hlevel : e.lastPrefetchPos ≠ e.lastPos) (hc : e.Closed pos) :
    f.Closed pos := by
  have hnext : pos + e.stride ≠ pos := by
    intro heq
    exact hne (BitVec.add_right_eq_self.mp heq)
  rw [Closed, h.stride, h.lastPrefetchPos, h.open_iff hnext, h.open_iff (after_last_ne hs hlevel)]
  exact hc

theorem Reflects.open_iff (h : Reflects e e') : e'.Open (mirrorPos p) ↔ e.Open p := by
  rw [Open, Open, mirrorPos_lt, h.valid]

theorem Closed.mirror (h : e.Closed pos) (hr : Reflects e e') (ho : Opposite e e') :
    e'.Closed (mirrorPos pos) := by
  rw [Closed, ho.stride, ho.lastPrefetchPos, ← mirrorPos_add, ← mirrorPos_add, hr.open_iff,
    hr.open_iff]
  exact h

theorem Closed.prefetches (h : e.Closed pos) (shortPrefetch : Bool) :
    e.prefetches pos e.stride shortPrefetch = [] := by
  have hnot : ¬ ((e.target pos e.stride).2 < 64 ∧ e.valid (e.target pos e.stride).2 = false) := by
    intro hopen
    rcases target_cases e pos e.stride with heq | heq
    · rw [heq] at hopen
      exact h.1 hopen
    · rw [heq] at hopen
      exact h.2 hopen
  rw [StreamEntry.prefetches]
  exact if_neg hnot

theorem Reflects.prefetches {shortPrefetch : Bool} (h : Reflects e e')
    (ht : e.target pos stride = (1, pos + stride))
    (ht' : e'.target (mirrorPos pos) (-stride) = (1, mirrorPos pos + -stride)) :
    e'.prefetches (mirrorPos pos) (-stride) shortPrefetch =
      (e.prefetches pos stride shortPrefetch).map mirrorPos := by
  rw [StreamEntry.prefetches, StreamEntry.prefetches, ht, ht']
  dsimp only
  rw [← mirrorPos_add, ← mirrorPos_add]
  simp only [mirrorPos_lt, h.valid, update_mirrorPos h.valid]
  split
  · split
    · rfl
    · rfl
  · rfl

theorem Reflects.prefetchHit (h : Reflects e e') (pos : BitVec 32) (respCycle : Nat) :
    Reflects (e.prefetchHit pos respCycle).1 (e'.prefetchHit (mirrorPos pos) respCycle).1 ∧
      (e'.prefetchHit (mirrorPos pos) respCycle).2 = (e.prefetchHit pos respCycle).2 := by
  rw [StreamEntry.prefetchHit, StreamEntry.prefetchHit, h.valid, h.respCycle, h.lastCycle]
  split
  · exact ⟨⟨h.conf, rfl, h.ts, h.respCycle, update_mirrorPos h.valid pos false⟩, rfl⟩
  · exact ⟨h, rfl⟩

theorem Reflects.inc (h : Reflects e e') : Reflects e.inc e'.inc :=
  ⟨congrArg (fun c => min (c + 1) 3) h.conf, h.lastCycle, h.ts, h.respCycle, h.valid⟩

theorem Reflects.dec (h : Reflects e e') : Reflects e.dec e'.dec :=
  ⟨congrArg (· - 1) h.conf, h.lastCycle, h.ts, h.respCycle, h.valid⟩

theorem Reflects.fill (h : Reflects e e') (p : BitVec 32) (respCycle : Nat) :
    Reflects (e.fill p respCycle) (e'.fill (mirrorPos p) respCycle) :=
  ⟨h.conf, h.lastCycle, h.ts, update_mirrorPos h.respCycle p respCycle,
    update_mirrorPos h.valid p true⟩

/-- The prefetches are recorded alike. -/
theorem Reflects.foldl_fill (h : Reflects e e') (ho : Opposite e e') (ps : List (BitVec 32))
    (cycles : List Nat) :
    Reflects ((ps.zip cycles).foldl (fun e a => e.fill a.1 a.2) e)
        (((ps.map mirrorPos).zip cycles).foldl (fun e a => e.fill a.1 a.2) e') ∧
      Opposite ((ps.zip cycles).foldl (fun e a => e.fill a.1 a.2) e)
        (((ps.map mirrorPos).zip cycles).foldl (fun e a => e.fill a.1 a.2) e') := by
  induction ps generalizing e e' cycles with
  | nil => exact ⟨h, ho⟩
  | cons p ps ih =>
    cases cycles with
    | nil => exact ⟨h, ho⟩
    | cons c cycles => exact ih (h.fill p c) ⟨ho.stride, rfl⟩ cycles

theorem neg_ne_zero {s : BitVec 32} : -s ≠ 0 ↔ s ≠ 0 := not_congr BitVec.neg_eq_zero_iff

/-- A stride that neither run predicts is switched to in both or in neither. -/
theorem Reflects.otherStride (h : Reflects e e') (ht : TakenAlike e e' stride)
    (hnot : e.stride ≠ stride) (hstrides : e.stride = 1 ∧ e'.stride = 1 ∨ Opposite e e') :
    Reflects (e.otherStride pos stride) (e'.otherStride (mirrorPos pos) (-stride)) ∧
      ((e.otherStride pos stride).stride = 1 ∧
          (e'.otherStride (mirrorPos pos) (-stride)).stride = 1 ∨
        Opposite (e.otherStride pos stride) (e'.otherStride (mirrorPos pos) (-stride))) := by
  have hnot' : e'.stride ≠ -stride := fun heq => hnot (ht.hit.mpr heq)
  have hpred : e'.dec.pred = e.dec.pred := congrArg (fun c => decide (2 ≤ c)) h.dec.conf
  have hiff : (e'.dec.pred = false ∧ -stride ≠ 0 ∧ -stride ≠ e'.dec.stride ∧
      -stride = e'.lastPos - e'.lastLastPos) ↔ (e.dec.pred = false ∧ stride ≠ 0 ∧
      stride ≠ e.dec.stride ∧ stride = e.lastPos - e.lastLastPos) := by
    rw [hpred, neg_ne_zero]
    constructor
    · rintro ⟨hp, hs, -, hlast⟩
      exact ⟨hp, hs, Ne.symm hnot, (ht.switch hs).mpr hlast⟩
    · rintro ⟨hp, hs, -, hlast⟩
      exact ⟨hp, hs, Ne.symm hnot', (ht.switch hs).mp hlast⟩
  have hdec := h.dec
  by_cases hswitch : e.dec.pred = false ∧ stride ≠ 0 ∧ stride ≠ e.dec.stride ∧
      stride = e.lastPos - e.lastLastPos
  · have heq : e.otherStride pos stride =
        { e.dec with conf := 1, stride := stride, lastPrefetchPos := pos } :=
      congrArg (fun f : StreamEntry => { f with lastPrefetchPos := pos }) (if_pos hswitch)
    have heq' : e'.otherStride (mirrorPos pos) (-stride) =
        { e'.dec with conf := 1, stride := -stride, lastPrefetchPos := mirrorPos pos } :=
      congrArg (fun f : StreamEntry => { f with lastPrefetchPos := mirrorPos pos })
        (if_pos (hiff.mpr hswitch))
    rw [heq, heq']
    exact ⟨⟨rfl, hdec.lastCycle, hdec.ts, hdec.respCycle, hdec.valid⟩, .inr ⟨rfl, rfl⟩⟩
  · have heq : e.otherStride pos stride = { e.dec with lastPrefetchPos := pos } :=
      congrArg (fun f : StreamEntry => { f with lastPrefetchPos := pos }) (if_neg hswitch)
    have heq' : e'.otherStride (mirrorPos pos) (-stride) =
        { e'.dec with lastPrefetchPos := mirrorPos pos } :=
      congrArg (fun f : StreamEntry => { f with lastPrefetchPos := mirrorPos pos })
        (if_neg fun hs => hswitch (hiff.mp hs))
    rw [heq, heq']
    refine ⟨⟨hdec.conf, hdec.lastCycle, hdec.ts, hdec.respCycle, hdec.valid⟩, ?_⟩
    rcases hstrides with hone | ho
    · exact .inl hone
    · exact .inr ⟨ho.stride, rfl⟩

theorem Mirrors.takenAlike (h : Mirrors e e') (hne : e.stride ≠ 0)
    (hd : Undetected e e' stride) : TakenAlike e e' stride := by
  constructor
  · rcases h.strides hne with ⟨hone, hone'⟩ | ho
    · obtain ⟨hpos, hneg⟩ := hd.predicted (by rw [hone, hone'])
      rw [hone] at hpos hneg
      rw [hone, hone']
      exact iff_of_false (Ne.symm hpos) (Ne.symm hneg)
    · rw [ho.stride]
      exact BitVec.neg_inj.symm
  · intro hs
    rcases h.lastLastPos hne with hsame | hmirror
    · obtain ⟨hpos, hneg⟩ := hd.repeated hsame hs
      exact iff_of_false hpos hneg
    · rw [hmirror, h.lastPos hne, mirrorPos_sub]
      exact BitVec.neg_inj.symm

theorem foldl_fill_lastPos (e : StreamEntry) (answered : List (BitVec 32 × Nat)) :
    (answered.foldl (fun e a => e.fill a.1 a.2) e).lastPos = e.lastPos := by
  induction answered generalizing e with
  | nil => rfl
  | cons a answered ih => exact ih (e.fill a.1 a.2)

theorem otherStride_lastPos (e : StreamEntry) (pos stride : BitVec 32) :
    (e.otherStride pos stride).lastPos = e.lastPos := by
  rw [StreamEntry.otherStride]
  split
  · rfl
  · rfl

theorem Reflects.advance (h : Reflects e e') (hlast : e'.lastPos = mirrorPos e.lastPos)
    (hstrides : e.stride = 1 ∧ e'.stride = 1 ∨ Opposite e e') (pos : BitVec 32) :
    Mirrors (e.advance pos) (e'.advance (mirrorPos pos)) := by
  refine ⟨⟨h.conf, h.lastCycle, h.ts, h.respCycle, h.valid⟩, fun _ => rfl, fun _ => .inr hlast,
    fun _ => ?_⟩
  rcases hstrides with hone | ho
  · exact .inl hone
  · exact .inr ⟨ho.stride, ho.lastPrefetchPos⟩

theorem Reflects.alloc (h : Reflects e e') (curCycle ts : Nat) (pos : BitVec 32) :
    Mirrors { e.alloc curCycle with lastPos := pos, ts := ts }
      { e'.alloc curCycle with lastPos := mirrorPos pos, ts := ts } :=
  ⟨⟨rfl, rfl, rfl, h.respCycle, fun _ => rfl⟩, fun _ => rfl, fun _ => .inl rfl,
    fun _ => .inl ⟨rfl, rfl⟩⟩

end StreamEntry

def mirrorLine (lineAddr : Address) : Address := lineAddr / 64 * 64 + (63 - lineAddr % 64)

/-- The demand for the mirrored line of the page. -/
def PrefetchSystem.Demand.mirror (d : PrefetchSystem.Demand) : PrefetchSystem.Demand :=
  { d with lineAddr := mirrorLine d.lineAddr }

namespace StreamPrefetcher

open PrefetchSystem (Demand)

variable {pf pf' : StreamPrefetcher} {childId idx : Nat} {d : Demand}

/-- The tables of the two runs. -/
structure Mirrors (pf pf' : StreamPrefetcher) : Prop where
  timestamp : pf'.timestamp = pf.timestamp
  tag : pf'.tag = pf.tag
  array : ∀ i, StreamEntry.Mirrors (pf.array i) (pf'.array i)

/-- The demand hits an allocated entry or none. No stride of the allocation is taken for a detected
one, and a confident prediction finds the last prefetch level with it or nothing to prefetch. -/
def Alike (pf pf' : StreamPrefetcher) (d : Demand) : Prop :=
  ∀ idx, pf.find? (pageOf d.lineAddr) = some idx → (pf.array idx).stride ≠ 0 ∧
    StreamEntry.Undetected (pf.array idx) (pf'.array idx)
      (posOf d.lineAddr - (pf.array idx).lastPos) ∧
    ((pf.array idx).Confirms (posOf d.lineAddr) →
      (pf.array idx).Level (posOf d.lineAddr) ∨ (pf.array idx).Closed (posOf d.lineAddr))

theorem pageOf_mirror (d : Demand) : pageOf d.mirror.lineAddr = pageOf d.lineAddr :=
  pageOf_line (Nat.lt_of_le_of_lt (Nat.sub_le _ _) (by decide))

theorem mirrorLine_mod (lineAddr : Nat) :
    (lineAddr / 64 * 64 + (63 - lineAddr % 64)) % 64 = 63 - lineAddr % 64 := by
  omega

theorem posOf_mirror (d : Demand) : posOf d.mirror.lineAddr = mirrorPos (posOf d.lineAddr) := by
  apply BitVec.eq_of_toNat_eq
  rw [mirrorPos_toNat (posOf_lt _), posOf_toNat, posOf_toNat]
  exact mirrorLine_mod d.lineAddr

theorem Mirrors.find? (h : Mirrors pf pf') (d : Demand) :
    pf'.find? (pageOf d.mirror.lineAddr) = pf.find? (pageOf d.lineAddr) := by
  rw [StreamPrefetcher.find?, StreamPrefetcher.find?, h.tag, pageOf_mirror]

theorem Mirrors.candidate (h : Mirrors pf pf') (reqCycle : Nat) :
    pf'.candidate reqCycle = pf.candidate reqCycle := by
  have hlast : ∀ i, (pf'.array i).lastCycle = (pf.array i).lastCycle := fun i => (h.array i).lastCycle
  have hts : ∀ i, (pf'.array i).ts = (pf.array i).ts := fun i => (h.array i).ts
  rw [StreamPrefetcher.candidate, StreamPrefetcher.candidate]
  simp only [hlast, hts]

theorem Mirrors.entryHit (h : Mirrors pf pf') (idx : Nat) (d : Demand) :
    StreamEntry.Reflects (pf.entryHit idx (posOf d.lineAddr) d.respCycle).1
        (pf'.entryHit idx (posOf d.mirror.lineAddr) d.mirror.respCycle).1 ∧
      (pf'.entryHit idx (posOf d.mirror.lineAddr) d.mirror.respCycle).2 =
        (pf.entryHit idx (posOf d.lineAddr) d.respCycle).2 := by
  have he := h.array idx
  have hts : StreamEntry.Reflects { pf.array idx with ts := pf.timestamp }
      { pf'.array idx with ts := pf'.timestamp } :=
    ⟨he.conf, he.lastCycle, h.timestamp, he.respCycle, he.valid⟩
  rw [posOf_mirror]
  exact hts.prefetchHit _ _

/-- The entries of a demand that is taken alike. -/
theorem Mirrors.lastPos (h : Mirrors pf pf') (ha : Alike pf pf' d)
    (hfind : pf.find? (pageOf d.lineAddr) = some idx) :
    (pf'.array idx).lastPos = mirrorPos (pf.array idx).lastPos ∧
      posOf d.mirror.lineAddr - (pf'.array idx).lastPos =
        -(posOf d.lineAddr - (pf.array idx).lastPos) := by
  have hlast := (h.array idx).lastPos (ha idx hfind).1
  refine ⟨hlast, ?_⟩
  rw [hlast, posOf_mirror, mirrorPos_sub]

theorem opposite_of_hit {e e' : StreamEntry} {stride : BitVec 32}
    (ht : StreamEntry.TakenAlike e e' stride) (hs : e.stride = stride)
    (hstrides : e.stride = 1 ∧ e'.stride = 1 ∨ StreamEntry.Opposite e e') :
    StreamEntry.Opposite e e' := by
  rcases hstrides with ⟨hone, hone'⟩ | ho
  · have hneg := ht.hit.mp hs
    rw [← hs, hone, hone'] at hneg
    exact absurd hneg (by decide)
  · exact ho

theorem Mirrors.confirms_iff (h : Mirrors pf pf') (ha : Alike pf pf' d)
    (hfind : pf.find? (pageOf d.lineAddr) = some idx) :
    (pf'.array idx).Confirms (posOf d.mirror.lineAddr) ↔
      (pf.array idx).Confirms (posOf d.lineAddr) := by
  obtain ⟨hne, hd, -⟩ := ha idx hfind
  have ht := (h.array idx).takenAlike hne hd
  rw [StreamEntry.Confirms, StreamEntry.Confirms, (h.lastPos ha hfind).2,
    StreamEntry.inc_pred (h.array idx).conf]
  exact and_congr_left fun _ => ht.hit.symm

/-- The entries of a demand at the predicted stride, with the demand counted. -/
theorem Mirrors.confirmed (h : Mirrors pf pf') (ha : Alike pf pf' d)
    (hfind : pf.find? (pageOf d.lineAddr) = some idx)
    (hs : (pf.array idx).stride = posOf d.lineAddr - (pf.array idx).lastPos) :
    StreamEntry.Reflects (pf.confirmed idx d) (pf'.confirmed idx d.mirror) ∧
      StreamEntry.Opposite (pf.confirmed idx d) (pf'.confirmed idx d.mirror) ∧
      (pf'.confirmed idx d.mirror).lastPos = mirrorPos (pf.confirmed idx d).lastPos := by
  obtain ⟨hne, hd, -⟩ := ha idx hfind
  have ho := opposite_of_hit ((h.array idx).takenAlike hne hd) hs ((h.array idx).strides hne)
  obtain ⟨hstride, hlastPos, hpf⟩ := confirmed_kept pf idx d
  obtain ⟨hstride', hlastPos', hpf'⟩ := confirmed_kept pf' idx d.mirror
  refine ⟨(h.entryHit idx d).1.inc, ⟨?_, ?_⟩, ?_⟩
  · rw [hstride', hstride, ho.stride]
  · rw [hpf', hpf, ho.lastPrefetchPos]
  · rw [hlastPos', hlastPos, (h.lastPos ha hfind).1]

theorem Alike.confirmed (ha : Alike pf pf' d) (hfind : pf.find? (pageOf d.lineAddr) = some idx)
    (hconf : (pf.array idx).Confirms (posOf d.lineAddr)) :
    (pf.confirmed idx d).Level (posOf d.lineAddr) ∨
      (pf.confirmed idx d).Closed (posOf d.lineAddr) := by
  obtain ⟨hne, -, hlevel⟩ := ha idx hfind
  obtain ⟨hstride, hlastPos, hpf⟩ := confirmed_kept pf idx d
  by_cases heq : (pf.array idx).lastPrefetchPos = (pf.array idx).lastPos
  · exact .inl (.inl (by rw [hpf, hlastPos, heq]))
  · rcases hlevel hconf with hl | hc
    · exact .inl (hl.congr hstride hlastPos hpf)
    · exact .inr ((entryHit_kept pf idx (posOf d.lineAddr) d.respCycle).closed hconf.1 hne heq hc)

/-- The demand and its mirror image make the prefetcher fetch mirrored positions. -/
theorem Mirrors.issued (h : Mirrors pf pf') (htracked : ∀ i, (pf.array i).Tracked)
    (htracked' : ∀ i, (pf'.array i).Tracked) (ha : Alike pf pf' d) :
    pf'.issued d.mirror.lineAddr d.mirror.respCycle =
      (pf.issued d.lineAddr d.respCycle).map mirrorPos := by
  cases hfind : pf.find? (pageOf d.lineAddr) with
  | none =>
    rw [issued_of_miss hfind, issued_of_miss ((h.find? d).trans hfind)]
    rfl
  | some idx =>
    have hfind' := (h.find? d).trans hfind
    by_cases hconf : (pf.array idx).Confirms (posOf d.lineAddr)
    · have hconf' := (h.confirms_iff ha hfind).mpr hconf
      obtain ⟨hr, ho, hlast⟩ := h.confirmed ha hfind hconf.1
      obtain ⟨hstride, hlastPos, hpf⟩ := confirmed_kept pf idx d
      obtain ⟨hstride', hlastPos', hpf'⟩ := confirmed_kept pf' idx d.mirror
      have hs : (pf.confirmed idx d).stride = posOf d.lineAddr - (pf.confirmed idx d).lastPos := by
        rw [hstride, hlastPos, hconf.1]
      rw [issued_of_confirms hfind hconf, issued_of_confirms hfind' hconf', (h.entryHit idx d).2,
        ← hstride', ho.stride, ← hstride, posOf_mirror]
      rcases ha.confirmed hfind hconf with hl | hc
      · have ht := (htracked idx).congr hstride hlastPos hpf
        have ht' := (htracked' idx).congr hstride' hlastPos' hpf'
        have hne : (pf.confirmed idx d).stride ≠ 0 := by
          rw [hstride]
          exact (ha idx hfind).1
        have hs' : (pf'.confirmed idx d.mirror).stride =
            mirrorPos (posOf d.lineAddr) - (pf'.confirmed idx d.mirror).lastPos := by
          rw [ho.stride, hlast, mirrorPos_sub, hs]
        have hne' : (pf'.confirmed idx d.mirror).stride ≠ 0 := by
          rw [ho.stride]
          exact StreamEntry.neg_ne_zero.mpr hne
        have htarget' := (hl.mirror ho hlast ht).target ht' hs'
          (mirrorPos_lt.mpr (posOf_lt d.lineAddr)) hne'
        rw [ho.stride] at htarget'
        exact hr.prefetches (hl.target ht hs (posOf_lt _) hne) htarget'
      · have hnone := (hc.mirror hr ho).prefetches
          (pf.entryHit idx (posOf d.lineAddr) d.respCycle).2.2
        rw [ho.stride] at hnone
        rw [hnone, hc.prefetches]
        rfl
    · have hconf' := fun hc => hconf ((h.confirms_iff ha hfind).mp hc)
      rw [issued_of_not_confirms hfind hconf, issued_of_not_confirms hfind' hconf']
      rfl

/-- The entry that the demand trains. -/
theorem Mirrors.trained (h : Mirrors pf pf') (htracked : ∀ i, (pf.array i).Tracked)
    (htracked' : ∀ i, (pf'.array i).Tracked) (ha : Alike pf pf' d)
    (hfind : pf.find? (pageOf d.lineAddr) = some idx) :
    StreamEntry.Reflects (pf.trained idx d) (pf'.trained idx d.mirror) ∧
      ((pf.trained idx d).stride = 1 ∧ (pf'.trained idx d.mirror).stride = 1 ∨
        StreamEntry.Opposite (pf.trained idx d) (pf'.trained idx d.mirror)) := by
  obtain ⟨hne, hd, -⟩ := ha idx hfind
  have ht := (h.array idx).takenAlike hne hd
  obtain ⟨hlast, hneg⟩ := h.lastPos ha hfind
  obtain ⟨hreflects, -⟩ := h.entryHit idx d
  have hstrides := (h.array idx).strides hne
  rw [StreamPrefetcher.trained, StreamPrefetcher.trained, hneg]
  by_cases hs : (pf.array idx).stride = posOf d.lineAddr - (pf.array idx).lastPos
  · obtain ⟨hconf, ho, -⟩ := h.confirmed ha hfind hs
    rw [if_pos hs, if_pos (ht.hit.mp hs), h.issued htracked htracked' ha]
    obtain ⟨hr, hopp⟩ := hconf.foldl_fill ho (pf.issued d.lineAddr d.respCycle)
      (d.env.map (·.respCycle))
    exact ⟨hr, .inr hopp⟩
  · have hk := entryHit_kept pf idx (posOf d.lineAddr) d.respCycle
    have hk' := entryHit_kept pf' idx (posOf d.mirror.lineAddr) d.mirror.respCycle
    rw [if_neg hs, if_neg fun he => hs (ht.hit.mpr he), posOf_mirror]
    rw [posOf_mirror] at hk' hreflects
    refine hreflects.otherStride ?_ ?_ ?_
    · constructor
      · rw [hk.stride, hk'.stride]
        exact ht.hit
      · rw [hk.lastPos, hk'.lastPos, hk.lastLastPos, hk'.lastLastPos]
        exact ht.switch
    · rw [hk.stride]
      exact hs
    · rw [hk.stride, hk'.stride]
      rcases hstrides with hone | ho
      · exact .inl hone
      · exact .inr ⟨by rw [hk'.stride, hk.stride, ho.stride],
          by rw [hk'.lastPrefetchPos, hk.lastPrefetchPos, ho.lastPrefetchPos]⟩

theorem trained_lastPos (pf : StreamPrefetcher) (idx : Nat) (d : Demand) :
    (pf.trained idx d).lastPos = (pf.array idx).lastPos := by
  have hk := entryHit_kept pf idx (posOf d.lineAddr) d.respCycle
  rw [StreamPrefetcher.trained]
  split
  · rw [StreamEntry.foldl_fill_lastPos]
    exact hk.lastPos
  · rw [StreamEntry.otherStride_lastPos]
    exact hk.lastPos

theorem Mirrors.after (h : Mirrors pf pf') (htracked : ∀ i, (pf.array i).Tracked)
    (htracked' : ∀ i, (pf'.array i).Tracked) (ha : Alike pf pf' d) :
    Mirrors (pf.after d) (pf'.after d.mirror) := by
  cases hfind : pf.find? (pageOf d.lineAddr) with
  | none =>
    rw [after_of_miss hfind, after_of_miss ((h.find? d).trans hfind), entryMiss, entryMiss]
    have hcand : pf'.candidate d.mirror.reqCycle = pf.candidate d.reqCycle :=
      h.candidate d.reqCycle
    rw [hcand]
    cases pf.candidate d.reqCycle with
    | none => exact h
    | some idx =>
      constructor
      · exact congrArg (· + 1) h.timestamp
      · show Function.update pf'.tag idx _ = Function.update pf.tag idx _
        rw [h.tag, pageOf_mirror]
      · intro i
        show StreamEntry.Mirrors (Function.update pf.array idx _ i)
          (Function.update pf'.array idx _ i)
        by_cases hi : i = idx
        · rw [hi, Function.update_self, Function.update_self, h.timestamp, posOf_mirror]
          exact (h.array idx).toReflects.alloc _ _ _
        · rw [Function.update_of_ne hi, Function.update_of_ne hi]
          exact h.array i
  | some idx =>
    rw [after_of_hit hfind, after_of_hit ((h.find? d).trans hfind)]
    constructor
    · exact congrArg (· + 1) h.timestamp
    · exact h.tag
    · intro i
      show StreamEntry.Mirrors (Function.update pf.array idx _ i)
        (Function.update pf'.array idx _ i)
      by_cases hi : i = idx
      · rw [hi, Function.update_self, Function.update_self, posOf_mirror]
        obtain ⟨hr, hstrides⟩ := h.trained htracked htracked' ha hfind
        refine hr.advance ?_ hstrides _
        rw [trained_lastPos, trained_lastPos]
        exact (h.lastPos ha hfind).1
      · rw [Function.update_of_ne hi, Function.update_of_ne hi]
        exact h.array i

/-- The lines that the prefetches of a demand are for. -/
def lines (pf : StreamPrefetcher) (childId : Nat) (d : Demand) : List Address :=
  (pf.requests childId d).map (·.lineAddr)

/-- The mirrored stream issues the mirrored prefetches. -/
def Mirrored (pf pf' : StreamPrefetcher) (childId : Nat) : List Demand → Prop
  | [] => True
  | d :: ds => pf'.lines childId d.mirror = (pf.lines childId d).map mirrorLine ∧
    Mirrored (pf.after d) (pf'.after d.mirror) childId ds

def AlikeAll (pf pf' : StreamPrefetcher) : List Demand → Prop
  | [] => True
  | d :: ds => Alike pf pf' d ∧ AlikeAll (pf.after d) (pf'.after d.mirror) ds

theorem mirrorLine_line {lineAddr p : Nat} (hp : p < 64) :
    mirrorLine (lineAddr / 64 * 64 + p) = mirrorLine lineAddr / 64 * 64 + (63 - p) := by
  show (lineAddr / 64 * 64 + p) / 64 * 64 + (63 - (lineAddr / 64 * 64 + p) % 64) =
    (lineAddr / 64 * 64 + (63 - lineAddr % 64)) / 64 * 64 + (63 - p)
  omega

theorem mirrorLine_lt {lineAddr : Nat} (h : lineAddr < 2 ^ 64) : mirrorLine lineAddr < 2 ^ 64 := by
  show lineAddr / 64 * 64 + (63 - lineAddr % 64) < 2 ^ 64
  omega

theorem lines_eq (hline : d.lineAddr < 2 ^ 64) : pf.lines childId d =
    (pf.issued d.lineAddr d.respCycle).map fun p => d.lineAddr / 64 * 64 + p.toNat := by
  rw [lines, requests, List.map_map]
  refine List.map_congr_left fun p hp => ?_
  rw [Function.comp_apply, pfReq_lineAddr hline (issued_lt hp)]

theorem Mirrors.lines (h : Mirrors pf pf') (htracked : ∀ i, (pf.array i).Tracked)
    (htracked' : ∀ i, (pf'.array i).Tracked) (ha : Alike pf pf' d) (hline : d.lineAddr < 2 ^ 64) :
    pf'.lines childId d.mirror = (pf.lines childId d).map mirrorLine := by
  have hmirror : d.mirror.lineAddr < 2 ^ 64 := mirrorLine_lt hline
  rw [lines_eq hmirror, lines_eq hline, h.issued htracked htracked' ha, List.map_map, List.map_map]
  refine List.map_congr_left fun p hp => ?_
  have hlt := issued_lt hp
  rw [Function.comp_apply, Function.comp_apply, mirrorLine_line hlt, mirrorPos_toNat hlt]
  rfl

theorem Mirrors.mirrored {ds : List Demand} (h : Mirrors pf pf')
    (htracked : ∀ i, (pf.array i).Tracked) (htracked' : ∀ i, (pf'.array i).Tracked)
    (hline : ∀ d ∈ ds, d.lineAddr < 2 ^ 64) (ha : AlikeAll pf pf' ds) :
    Mirrored pf pf' childId ds := by
  induction ds generalizing pf pf' with
  | nil => trivial
  | cons d ds ih =>
    obtain ⟨hd, hds⟩ := ha
    exact ⟨h.lines htracked htracked' hd (hline d List.mem_cons_self),
      ih (h.after htracked htracked' hd) (after_tracked htracked) (after_tracked htracked')
        (fun d hd => hline d (List.mem_cons_of_mem _ hd)) hds⟩

end StreamPrefetcher

namespace PrefetchSystem

open StreamPrefetcher

theorem emptyTables_mirrors : Mirrors emptyTables emptyTables :=
  ⟨rfl, rfl, fun _ => ⟨⟨rfl, rfl, rfl, fun _ => rfl, fun _ => rfl⟩, fun h => absurd rfl h,
    fun h => absurd rfl h, fun h => absurd rfl h⟩⟩

/-- The prefetches run ahead just when no prediction has a stale prefetch, and mirrored as far as
the mirrored stream is taken alike. -/
theorem stream_runs_ahead {childId : Nat} {ds : List Demand}
    (hline : ∀ d ∈ ds, d.lineAddr < 2 ^ 64) :
    (emptyTables.RunsAhead childId ds ↔ emptyTables.MayPrefetchAll ds) ∧
      (AlikeAll emptyTables emptyTables ds → Mirrored emptyTables emptyTables childId ds) :=
  ⟨runsAhead_iff emptyTables_tracked hline,
    emptyTables_mirrors.mirrored emptyTables_tracked emptyTables_tracked hline⟩

/-- A demand whose prefetches are answered a while later. -/
def demand (lineAddr : Address) : Demand :=
  ⟨lineAddr, 10, 20, 0, true, [⟨2, fun _ => false, .E, 30⟩, ⟨3, fun _ => false, .E, 30⟩]⟩

theorem alike_of_hit {pf pf' : StreamPrefetcher} {d : Demand} {idx : Nat}
    (hfind : pf.find? (pageOf d.lineAddr) = some idx) (hne : (pf.array idx).stride ≠ 0)
    (hd : StreamEntry.Undetected (pf.array idx) (pf'.array idx)
      (posOf d.lineAddr - (pf.array idx).lastPos))
    (hl : (pf.array idx).Level (posOf d.lineAddr)) : Alike pf pf' d := by
  intro idx' hfind'
  rw [hfind] at hfind'
  cases hfind'
  exact ⟨hne, hd, fun _ => .inl hl⟩

/-- Four accesses at stride 3. The last one prefetches the line at position 22, and that of the
mirrored stream the line at position 41. -/
theorem stream_runs_ahead_strided :
    (emptyTables.RunsAhead 0 [demand 74, demand 77, demand 80, demand 83] ↔
      emptyTables.MayPrefetchAll [demand 74, demand 77, demand 80, demand 83]) ∧
    Mirrored emptyTables emptyTables 0 [demand 74, demand 77, demand 80, demand 83] ∧
    (((emptyTables.after (demand 74)).after (demand 77)).after (demand 80)).lines 0 (demand 83) =
      [86] := by
  have hline : ∀ d ∈ [demand 74, demand 77, demand 80, demand 83], d.lineAddr < 2 ^ 64 := by
    decide
  have halike : AlikeAll emptyTables emptyTables
      [demand 74, demand 77, demand 80, demand 83] := by
    refine ⟨?_, ?_, ?_, ?_, trivial⟩
    · intro idx hfind
      have hmiss : emptyTables.find? (pageOf (demand 74).lineAddr) = none := by decide
      rw [hmiss] at hfind
      cases hfind
    · exact @alike_of_hit _ _ _ 0 (by decide) (by decide) ⟨by decide, by decide⟩ (by decide)
    · exact @alike_of_hit _ _ _ 0 (by decide) (by decide) ⟨by decide, by decide⟩ (by decide)
    · exact @alike_of_hit _ _ _ 0 (by decide) (by decide) ⟨by decide, by decide⟩ (by decide)
  obtain ⟨hahead, hmirror⟩ := @stream_runs_ahead 0 _ hline
  exact ⟨hahead, hmirror halike, by decide⟩

/-- A stride of 2 is hit once without confidence, and then the line before the access is
prefetched. -/
theorem prefetches_behind : ¬ ∀ (childId : Nat) (ds : List Demand),
    (∀ d ∈ ds, d.lineAddr < 2 ^ 64) → emptyTables.RunsAhead childId ds ∧
      Mirrored emptyTables emptyTables childId ds := by
  intro h
  obtain ⟨⟨-, -, -, -, hsound, -⟩, -⟩ :=
    h 0 [demand 66, demand 68, demand 71, demand 73, demand 75] (by decide)
  have hlines : ((((emptyTables.after (demand 66)).after (demand 68)).after (demand 71)).after
      (demand 73)).lines 0 (demand 75) = [73] := by decide
  obtain ⟨q, hq, heq⟩ := List.mem_map.mp (hlines ▸ List.mem_singleton.mpr rfl)
  have hstride : (((((emptyTables.after (demand 66)).after (demand 68)).after (demand 71)).after
      (demand 73)).array 0).stride.toInt = 2 := by decide
  obtain ⟨k, hk, hahead⟩ := hsound.ahead 0 (by decide) q hq
  rw [heq, hstride] at hahead
  have hbehind : (73 : Int) = 75 + k * 2 := hahead
  omega

end PrefetchSystem

end ZSim
