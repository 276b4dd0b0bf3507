import ZSim.AddressMap
import ZSim.DDRLegalRuns

/-! Whether two addresses can end up in one place. The DDR controller keeps every bit of an
address; the detailed memory loses those that do not fit in its 32-bit row and column. -/

namespace ZSim

/-- Two numbers that agree in the digits of some radices and in what is left are equal. -/
theorem eq_of_digits {α : Type} (radix : α → Nat) (l : List α) {a b : Nat}
    (hdigit : ∀ below f above, l = below ++ f :: above →
      a / (below.map radix).prod % radix f = b / (below.map radix).prod % radix f)
    (hrest : a / (l.map radix).prod = b / (l.map radix).prod) : a = b := by
  induction l generalizing a b with
  | nil => simpa only [List.map_nil, List.prod_nil, Nat.div_one] using hrest
  | cons f l ih =>
    have hfirst : a % radix f = b % radix f := by
      simpa only [List.map_nil, List.prod_nil, Nat.div_one] using hdigit [] f l rfl
    have hquot : a / radix f = b / radix f := by
      refine ih (fun below g above hl => ?_) ?_
      · have hg := hdigit (f :: below) g above (by rw [hl, List.cons_append])
        simpa only [List.map_cons, List.prod_cons, Nat.div_div_eq_div_mul] using hg
      · simpa only [List.map_cons, List.prod_cons, Nat.div_div_eq_div_mul] using hrest
    rw [← Nat.div_add_mod a (radix f), ← Nat.div_add_mod b (radix f), hfirst, hquot]

theorem two_part_inj {n c c' l l' : Nat} (hl : l < n) (hl' : l' < n)
    (h : n * c + l = n * c' + l') : c = c' ∧ l = l' := by
  have hpos : 0 < n := by omega
  have hdiv := congrArg (· / n) h
  have hmod := congrArg (· % n) h
  simp only [Nat.mul_add_div hpos, Nat.div_eq_of_lt hl, Nat.div_eq_of_lt hl', Nat.add_zero] at hdiv
  simp only [Nat.mul_add_mod, Nat.mod_eq_of_lt hl, Nat.mod_eq_of_lt hl'] at hmod
  exact ⟨hdiv, hmod⟩

/-! The mapping of the DDR controller. -/

structure AddrSlot where
  shift : Nat
  mask : Nat

structure AddrMapping where
  col : AddrSlot
  rank : AddrSlot
  bank : AddrSlot
  startBit : Nat

def AddrSlot.computeShiftAndMask (slot : AddrSlot) (startBit fieldBits : Nat) :
    Option AddrSlot :=
  if slot.mask ≠ 0 then none else some ⟨startBit, (1 <<< fieldBits) - 1⟩

def AddrSlot.take (slot : AddrSlot) (addr : Nat) : Nat := (addr >>> slot.shift) &&& slot.mask

namespace AddrMapping

/-- A token of the configuration string takes its bits above those taken so far. -/
def place (colBits rankBits bankBits : Nat) (m : AddrMapping) (t : String) :
    Option AddrMapping :=
  if t = "col" then do
    let slot ← m.col.computeShiftAndMask m.startBit colBits
    some { m with col := slot, startBit := m.startBit + colBits }
  else if t = "rank" then do
    let slot ← m.rank.computeShiftAndMask m.startBit rankBits
    some { m with rank := slot, startBit := m.startBit + rankBits }
  else if t = "bank" then do
    let slot ← m.bank.computeShiftAndMask m.startBit bankBits
    some { m with bank := slot, startBit := m.startBit + bankBits }
  else none

/-- Every bit below the row is in a field. -/
def Covers (m : AddrMapping) : Prop :=
  ∀ i < m.startBit, ∃ slot ∈ [m.col, m.rank, m.bank], ∃ k,
    i = slot.shift + k ∧ slot.mask.testBit k = true

end AddrMapping

namespace DDRConfig

variable (cfg : DDRConfig)

/-- The fields of `m`, the row above them. -/
def mapped (m : AddrMapping) : DDRConfig :=
  { cfg with
    colShift := m.col.shift
    colMask := m.col.mask
    rankShift := m.rank.shift
    rankMask := m.rank.mask
    bankShift := m.bank.shift
    bankMask := m.bank.mask
    rowShift := m.startBit }

def colBits (colSize lineSize : BitVec 32) : Nat := ilog2 (colSize / (64 / 8) * 64 / lineSize).toNat

/-- What the constructor makes of the tokens of `addrMapping`. A shift whose token is missing
stays as `raw` has it; its mask is zero. -/
def addrMapping (raw : AddrMapping) (colSize lineSize : BitVec 32) (tokens : List String) :
    Option AddrMapping :=
  if tokens.length ≠ 3 then none
  else
    tokens.reverse.foldlM
      (AddrMapping.place (colBits colSize lineSize) (ilog2 cfg.ranksPerChannel)
        (ilog2 cfg.banksPerRank))
      ⟨⟨raw.col.shift, 0⟩, ⟨raw.rank.shift, 0⟩, ⟨raw.bank.shift, 0⟩, 0⟩

end DDRConfig

namespace AddrMapping

theorem Covers.replace {m m' : AddrMapping} {slot new : AddrSlot} {bits : Nat}
    (hm : m.Covers) (hslot : slot.computeShiftAndMask m.startBit bits = some new)
    (hstart : m'.startBit = m.startBit + bits) (hnew : new ∈ [m'.col, m'.rank, m'.bank])
    (hkeep : ∀ s ∈ [m.col, m.rank, m.bank], s = slot ∨ s ∈ [m'.col, m'.rank, m'.bank]) :
    m'.Covers := by
  rw [AddrSlot.computeShiftAndMask] at hslot
  split at hslot
  · cases hslot
  case isFalse hmask =>
    have hzero : slot.mask = 0 := not_not.mp hmask
    obtain rfl := Option.some.inj hslot
    intro i hi
    rw [hstart] at hi
    by_cases hlow : i < m.startBit
    · obtain ⟨s, hs, k, hik, hbit⟩ := hm i hlow
      refine ⟨s, (hkeep s hs).resolve_left ?_, k, hik, hbit⟩
      -- the field that is set was empty before
      rintro rfl
      rw [hzero, Nat.zero_testBit] at hbit
      cases hbit
    · refine ⟨_, hnew, i - m.startBit, by simp only; omega, ?_⟩
      rw [Nat.one_shiftLeft, Nat.testBit_two_pow_sub_one, decide_eq_true_eq]
      omega

theorem Covers.place {m m' : AddrMapping} {colBits rankBits bankBits : Nat} {t : String}
    (hm : m.Covers) (h : m.place colBits rankBits bankBits t = some m') : m'.Covers := by
  rw [AddrMapping.place] at h
  split_ifs at h
  · obtain ⟨slot, hslot, h⟩ := Option.bind_eq_some_iff.mp h
    obtain rfl := Option.some.inj h
    exact hm.replace hslot rfl (by simp) (by simp)
  · obtain ⟨slot, hslot, h⟩ := Option.bind_eq_some_iff.mp h
    obtain rfl := Option.some.inj h
    exact hm.replace hslot rfl (by simp) (by simp)
  · obtain ⟨slot, hslot, h⟩ := Option.bind_eq_some_iff.mp h
    obtain rfl := Option.some.inj h
    exact hm.replace hslot rfl (by simp) (by simp)

theorem Covers.foldlM {colBits rankBits bankBits : Nat} {tokens : List String} {m m' : AddrMapping}
    (hm : m.Covers)
    (h : tokens.foldlM (AddrMapping.place colBits rankBits bankBits) m = some m') : m'.Covers := by
  induction tokens generalizing m with
  | nil =>
    obtain rfl := Option.some.inj h
    exact hm
  | cons t tokens ih =>
    obtain ⟨mid, hmid, h⟩ := Option.bind_eq_some_iff.mp h
    exact ih (hm.place hmid) h

/-- A bit of the address is a bit of a field or of the row. -/
theorem Covers.eq_of_take {m : AddrMapping} (hm : m.Covers) {a b : Nat}
    (htake : ∀ slot ∈ [m.col, m.rank, m.bank], slot.take a = slot.take b)
    (hrow : a >>> m.startBit = b >>> m.startBit) : a = b := by
  apply Nat.eq_of_testBit_eq
  intro i
  by_cases hi : i < m.startBit
  · obtain ⟨slot, hslot, k, rfl, hbit⟩ := hm i hi
    have hk := congrArg (·.testBit k) (htake slot hslot)
    simpa only [AddrSlot.take, Nat.testBit_and, Nat.testBit_shiftRight, hbit, Bool.and_true]
      using hk
  · have hk := congrArg (·.testBit (i - m.startBit)) hrow
    simpa only [Nat.testBit_shiftRight, Nat.add_sub_cancel' (Nat.le_of_not_lt hi)] using hk

end AddrMapping

namespace DDRConfig

variable {cfg : DDRConfig} {raw m : AddrMapping} {colSize lineSize : BitVec 32}
  {tokens : List String}

theorem covers_addrMapping (h : cfg.addrMapping raw colSize lineSize tokens = some m) :
    m.Covers := by
  rw [addrMapping] at h
  split_ifs at h
  refine AddrMapping.Covers.foldlM (fun i hi => ?_) h
  exact absurd hi (Nat.not_lt_zero i)

theorem mapLineAddr_injective (h : cfg.addrMapping raw colSize lineSize tokens = some m)
    {a b : Nat} {loc : AddrLoc} (ha : (cfg.mapped m).mapLineAddr a = some loc)
    (hb : (cfg.mapped m).mapLineAddr b = some loc) : a = b := by
  rw [mapLineAddr] at ha hb
  split_ifs at ha hb
  have hloc := (Option.some.inj ha).trans (Option.some.inj hb).symm
  rw [AddrLoc.mk.injEq] at hloc
  obtain ⟨hrow, hbank, hrank, hcol⟩ := hloc
  refine (covers_addrMapping h).eq_of_take ?_ hrow
  simp only [List.mem_cons, List.not_mem_nil, or_false, forall_eq_or_imp, forall_eq]
  exact ⟨hcol, hrank, hbank⟩

end DDRConfig

namespace AddrParam

variable (p : AddrParam)

/-- The channel of an address and where in the channel it is. -/
def location (addr : Nat) : Option (Nat × MemLoc) := do
  let chnl ← p.returnChannel addr
  let loc ← p.addressMap chnl addr
  some (chnl, loc)

/-- What is left of an address when its fields are taken, in full. -/
def fullRow (addr : Nat) : Nat := (p.slice addr).addr

def Distinct : Prop :=
  ∀ a b, a < 2 ^ 64 → b < 2 ^ 64 → p.location a = p.location b → a = b

/-- Addresses whose rows compare equal in one bank have the same row. -/
def HitsOwnRow : Prop :=
  ∀ a b chnl la lb, a < 2 ^ 64 → b < 2 ^ 64 → p.location a = some (chnl, la) →
    p.location b = some (chnl, lb) → la.rank = lb.rank → la.bank = lb.bank → la.row = lb.row →
    p.fullRow a = p.fullRow b

def fieldsSpan : Nat := 2 ^ p.colLowWidth * p.span p.fields

/-- The addresses below the high part of the column. -/
def colSpan : Nat := 2 ^ p.colLowWidth * p.span (p.fields.takeWhile (· ≠ .col))

/-- No 64-bit address has a row of more than 32 bits. -/
def RowFits : Prop := 2 ^ 64 ≤ p.fieldsSpan * 2 ^ 32

/-- No 64-bit address has a column of more than 32 bits. -/
def ColFits : Prop :=
  p.colHighWidth ≤ 32 - p.colLowWidth ∨ 2 ^ 64 ≤ p.colSpan * 2 ^ (32 - p.colLowWidth)

theorem stored_col {low : Nat} (hlow : low < 2 ^ p.colLowWidth) (x : Nat) :
    p.stored low x .col =
      2 ^ p.colLowWidth * (x % p.radix .col % 2 ^ (32 - p.colLowWidth)) + low := by
  have hword : 2 ^ 32 = 2 ^ (32 - p.colLowWidth) * 2 ^ p.colLowWidth := by
    rw [← Nat.pow_add, Nat.sub_add_cancel p.colLowWidth_lt.le]
  have hdvd : 2 ^ (32 - p.colLowWidth) ∣ 2 ^ 32 := ⟨_, hword⟩
  have hhigh : ((x % p.radix .col % 2 ^ 32) <<< p.colLowWidth) % 2 ^ 32 =
      2 ^ p.colLowWidth * (x % p.radix .col % 2 ^ (32 - p.colLowWidth)) := by
    calc ((x % p.radix .col % 2 ^ 32) <<< p.colLowWidth) % 2 ^ 32
        = (x % p.radix .col % 2 ^ 32 * 2 ^ p.colLowWidth) %
            (2 ^ (32 - p.colLowWidth) * 2 ^ p.colLowWidth) := by
          rw [Nat.shiftLeft_eq, ← hword]
      _ = x % p.radix .col % 2 ^ 32 % 2 ^ (32 - p.colLowWidth) * 2 ^ p.colLowWidth :=
          Nat.mul_mod_mul_right _ _ _
      _ = 2 ^ p.colLowWidth * (x % p.radix .col % 2 ^ (32 - p.colLowWidth)) := by
          rw [Nat.mod_mod_of_dvd _ hdvd, Nat.mul_comm]
  rw [stored, hhigh, Nat.two_pow_add_eq_or_of_lt hlow]

theorem shiftRight_div_span (addr : Nat) (l : List AddrField) :
    addr >>> p.colLowWidth / p.span l = addr / (2 ^ p.colLowWidth * p.span l) := by
  rw [Nat.shiftRight_eq_div_pow, Nat.div_div_eq_div_mul]

theorem fullRow_eq (addr : Nat) : p.fullRow addr = addr / p.fieldsSpan := by
  rw [fullRow, slice_addr, shiftRight_div_span, fieldsSpan]

variable {p}

theorem location_eq (htype : p.interleaveType.toNat ≤ 8) (addr : Nat) :
    p.location addr = some ((p.slice addr).chnl,
      ⟨p.fullRow addr % 2 ^ 32, (p.slice addr).col, (p.slice addr).rank,
        (p.slice addr).bank⟩) := by
  have hmap : p.addressMap (p.slice addr).chnl addr = some ⟨p.fullRow addr % 2 ^ 32,
      (p.slice addr).col, (p.slice addr).rank, (p.slice addr).bank⟩ := if_pos rfl
  rw [location, p.returnChannel_eq htype]
  simp only [Option.bind_eq_bind, Option.bind_some, hmap]

theorem colSpan_eq {below above : List AddrField} (hl : p.fields = below ++ .col :: above) :
    p.colSpan = 2 ^ p.colLowWidth * p.span below := by
  have hnd : (below ++ .col :: above).Nodup := hl ▸ layout_nodup _
  have hbelow : ∀ f ∈ below, decide (f ≠ .col) = true := by
    intro f hf
    rw [decide_eq_true_eq]
    rintro rfl
    exact (List.nodup_append.mp hnd).2.2 _ hf _ List.mem_cons_self rfl
  rw [colSpan, hl, List.takeWhile_append_of_pos hbelow]
  simp

theorem fullRow_lt (hrow : p.RowFits) {addr : Nat} (haddr : addr < 2 ^ 64) :
    p.fullRow addr < 2 ^ 32 := by
  rw [fullRow_eq]
  exact Nat.div_lt_of_lt_mul (lt_of_lt_of_le haddr hrow)

theorem hitsOwnRow (htype : p.interleaveType.toNat ≤ 8) (hrow : p.RowFits) : p.HitsOwnRow := by
  intro a b chnl la lb ha hb hla hlb _ _ hrows
  rw [location_eq htype, Option.some.injEq, Prod.mk.injEq] at hla hlb
  rw [← hla.2, ← hlb.2] at hrows
  simpa only [Nat.mod_eq_of_lt (fullRow_lt hrow ha), Nat.mod_eq_of_lt (fullRow_lt hrow hb)]
    using hrows

/-- Nothing of the high part of a column is lost. -/
theorem col_digit {below above : List AddrField} (hl : p.fields = below ++ .col :: above)
    (hcol : p.ColFits) {addr : Nat} (haddr : addr < 2 ^ 64) :
    addr >>> p.colLowWidth / p.span below % p.radix .col % 2 ^ (32 - p.colLowWidth) =
      addr >>> p.colLowWidth / p.span below % p.radix .col := by
  apply Nat.mod_eq_of_lt
  rcases hcol with hwidth | hspan
  · exact lt_of_lt_of_le (Nat.mod_lt _ (p.radix_pos .col))
      (Nat.pow_le_pow_right Nat.two_pos hwidth)
  · rw [colSpan_eq hl] at hspan
    refine lt_of_le_of_lt (Nat.mod_le _ _) ?_
    rw [shiftRight_div_span]
    exact Nat.div_lt_of_lt_mul (lt_of_lt_of_le haddr hspan)

theorem col_eq {below above : List AddrField} (hl : p.fields = below ++ .col :: above)
    (hcol : p.ColFits) {a b : Nat} (ha : a < 2 ^ 64) (hb : b < 2 ^ 64)
    (hcols : (p.slice a).col = (p.slice b).col) :
    a >>> p.colLowWidth / p.span below % p.radix .col =
        b >>> p.colLowWidth / p.span below % p.radix .col ∧
      lowBits a p.colLowWidth = lowBits b p.colLowWidth := by
  have hparts : (p.slice a).value .col = (p.slice b).value .col := hcols
  rw [p.slice_value hl, p.slice_value hl, p.stored_col (lowBits_lt _ _),
    p.stored_col (lowBits_lt _ _), col_digit hl hcol ha, col_digit hl hcol hb] at hparts
  exact two_part_inj (lowBits_lt _ _) (lowBits_lt _ _) hparts

theorem distinct (htype : p.interleaveType.toNat ≤ 8) (hrow : p.RowFits) (hcol : p.ColFits) :
    p.Distinct := by
  intro a b ha hb hab
  rw [location_eq htype, location_eq htype, Option.some.injEq, Prod.mk.injEq,
    MemLoc.mk.injEq, Nat.mod_eq_of_lt (fullRow_lt hrow ha),
    Nat.mod_eq_of_lt (fullRow_lt hrow hb)] at hab
  obtain ⟨hchnl, hrest, hcols, hrank, hbank⟩ := hab
  have hvalue : ∀ f, (p.slice a).value f = (p.slice b).value f
    | .chnl => hchnl
    | .rank => hrank
    | .bank => hbank
    | .col => hcols
  have hx : a >>> p.colLowWidth = b >>> p.colLowWidth := by
    refine eq_of_digits p.radix p.fields (fun below f above hl => ?_) ?_
    · by_cases hf : f = .col
      · subst hf
        exact (col_eq hl hcol ha hb hcols).1
      · have hdigit := hvalue f
        rwa [p.slice_value hl, p.slice_value hl, p.stored_eq hf, p.stored_eq hf] at hdigit
    · exact (p.slice_addr a).symm.trans (hrest.trans (p.slice_addr b))
  obtain ⟨below, above, hl⟩ := p.fields_split htype .col
  have hlow := (col_eq hl hcol ha hb hcols).2
  rw [lowBits_eq, lowBits_eq] at hlow
  rw [Nat.shiftRight_eq_div_pow, Nat.shiftRight_eq_div_pow] at hx
  rw [← Nat.div_add_mod a (2 ^ p.colLowWidth), ← Nat.div_add_mod b (2 ^ p.colLowWidth), hx, hlow]

theorem lowBits_of_dvd {addr n width : Nat} (h : 2 ^ width * n ∣ addr) :
    lowBits addr width = 0 := by
  rw [lowBits_eq]
  exact Nat.mod_eq_zero_of_dvd (dvd_of_mul_right_dvd h)

theorem value_of_dvd {f : AddrField} {below above : List AddrField}
    (hl : p.fields = below ++ f :: above) {addr : Nat}
    (hdvd : 2 ^ p.colLowWidth * (p.span below * p.radix f) ∣ addr) :
    (p.slice addr).value f = 0 := by
  have hdigit : addr >>> p.colLowWidth / p.span below % p.radix f = 0 := by
    rw [shiftRight_div_span]
    obtain ⟨k, rfl⟩ := hdvd
    rw [← Nat.mul_assoc, Nat.mul_assoc _ _ k,
      Nat.mul_div_cancel_left _ (Nat.mul_pos (Nat.two_pow_pos _) (p.span_pos below))]
    exact Nat.mul_mod_right _ _
  rw [p.slice_value hl]
  by_cases hf : f = .col
  · subst hf
    rw [lowBits_of_dvd hdvd, p.stored_col (Nat.two_pow_pos _), hdigit, Nat.zero_mod, Nat.mul_zero]
  · rw [p.stored_eq hf, hdigit]

theorem location_of_zero (htype : p.interleaveType.toNat ≤ 8) {addr : Nat}
    (hvalue : ∀ f, (p.slice addr).value f = 0) (hrow : p.fullRow addr % 2 ^ 32 = 0) :
    p.location addr = some (0, ⟨0, 0, 0, 0⟩) := by
  have hchnl : (p.slice addr).chnl = 0 := hvalue .chnl
  have hrank : (p.slice addr).rank = 0 := hvalue .rank
  have hbank : (p.slice addr).bank = 0 := hvalue .bank
  have hcol : (p.slice addr).col = 0 := hvalue .col
  rw [location_eq htype, hchnl, hrank, hbank, hcol, hrow]

theorem location_multiple (htype : p.interleaveType.toNat ≤ 8) {k : Nat} (hk : k % 2 ^ 32 = 0) :
    p.location (p.fieldsSpan * k) = some (0, ⟨0, 0, 0, 0⟩) := by
  have hpos : 0 < p.fieldsSpan := Nat.mul_pos (Nat.two_pow_pos _) (p.span_pos _)
  refine location_of_zero htype (fun f => ?_) ?_
  · obtain ⟨below, above, hl⟩ := p.fields_split htype f
    refine value_of_dvd hl ⟨p.span above * k, ?_⟩
    rw [fieldsSpan, hl, span_append, span_cons]
    ring
  · rw [fullRow_eq, Nat.mul_div_cancel_left _ hpos, hk]

theorem location_zero (htype : p.interleaveType.toNat ≤ 8) :
    p.location 0 = some (0, ⟨0, 0, 0, 0⟩) :=
  location_multiple htype (k := 0) rfl

/-- The row of this address is that of address 0 in the 32 bits that are kept. -/
theorem rowFits_of_hits (htype : p.interleaveType.toNat ≤ 8) (h : p.HitsOwnRow) : p.RowFits := by
  by_contra hfits
  rw [RowFits, not_le] at hfits
  have hrows := h _ _ _ _ _ hfits (by decide) (location_multiple htype (by decide))
    (location_zero htype) rfl rfl rfl
  have hpos : 0 < p.fieldsSpan := Nat.mul_pos (Nat.two_pow_pos _) (p.span_pos _)
  rw [fullRow_eq, fullRow_eq, Nat.mul_div_cancel_left _ hpos, Nat.zero_div] at hrows
  exact absurd hrows (by decide)

/-- The column of this address is that of address 0 in the 32 bits that are kept. -/
theorem location_colSpan (htype : p.interleaveType.toNat ≤ 8)
    (hwidth : 32 - p.colLowWidth < p.colHighWidth) :
    p.location (p.colSpan * 2 ^ (32 - p.colLowWidth)) = some (0, ⟨0, 0, 0, 0⟩) := by
  obtain ⟨below, above, hl⟩ := p.fields_split htype .col
  have hlt : 2 ^ (32 - p.colLowWidth) < p.radix .col := Nat.pow_lt_pow_right (by decide) hwidth
  have hpos : 0 < p.colSpan := Nat.mul_pos (Nat.two_pow_pos _) (p.span_pos _)
  have habove : ∀ l, p.colSpan * 2 ^ (32 - p.colLowWidth) /
      (2 ^ p.colLowWidth * p.span (below ++ .col :: l)) = 0 := by
    intro l
    rw [span_append, span_cons, ← Nat.mul_assoc, ← colSpan_eq hl,
      Nat.mul_div_mul_left _ _ hpos]
    exact Nat.div_eq_of_lt (lt_of_lt_of_le hlt (Nat.le_mul_of_pos_right _ (p.span_pos l)))
  refine location_of_zero htype (fun f => ?_) ?_
  · have hf : f ∈ below ++ .col :: above := hl ▸ mem_layout htype f
    rcases List.mem_append.mp hf with hbelow | hrest
    · obtain ⟨l, l', rfl⟩ := List.append_of_mem hbelow
      refine value_of_dvd (by rw [hl, List.append_assoc, List.cons_append])
        ⟨p.span l' * 2 ^ (32 - p.colLowWidth), ?_⟩
      rw [colSpan_eq hl, span_append, span_cons]
      ring
    · rcases List.mem_cons.mp hrest with rfl | hab
      · rw [p.slice_value hl, shiftRight_div_span, ← colSpan_eq hl, Nat.mul_div_cancel_left _ hpos,
          lowBits_of_dvd ⟨_, by rw [colSpan_eq hl, Nat.mul_assoc]⟩,
          p.stored_col (Nat.two_pow_pos _), Nat.mod_eq_of_lt hlt, Nat.mod_self, Nat.mul_zero]
      · obtain ⟨l, l', rfl⟩ := List.append_of_mem hab
        have hl' : p.fields = (below ++ .col :: l) ++ f :: l' := by
          rw [hl, List.append_assoc, List.cons_append]
        have hnd : (below ++ .col :: (l ++ f :: l')).Nodup := hl ▸ layout_nodup _
        have hne : f ≠ .col := by
          rintro rfl
          exact (List.nodup_cons.mp (List.nodup_append.mp hnd).2.1).1 hab
        rw [p.slice_value hl', shiftRight_div_span, habove, p.stored_eq hne, Nat.zero_mod]
  · rw [fullRow_eq, fieldsSpan, hl, habove, Nat.zero_mod]

theorem colFits_of_distinct (htype : p.interleaveType.toNat ≤ 8) (h : p.Distinct) : p.ColFits := by
  by_contra hfits
  rw [ColFits, not_or, not_le, not_le] at hfits
  have hzero := h _ _ hfits.2 (by decide)
    ((location_colSpan htype hfits.1).trans (location_zero htype).symm)
  have hpos : 0 < p.colSpan * 2 ^ (32 - p.colLowWidth) :=
    Nat.mul_pos (Nat.mul_pos (Nat.two_pow_pos _) (p.span_pos _)) (Nat.two_pow_pos _)
  omega

end AddrParam

/-- The DDR controller keeps addresses apart under every mapping. The detailed memory does, and
hits only the row of the address, exactly when no row and no column outgrows its word. -/
theorem decode_injective_iff {cfg : DDRConfig} {raw : AddrMapping} {colSize lineSize : BitVec 32}
    {tokens : List String} {m : AddrMapping}
    (hm : cfg.addrMapping raw colSize lineSize tokens = some m) (p : AddrParam)
    (htype : p.interleaveType.toNat ≤ 8) :
    (∀ a b loc, (cfg.mapped m).mapLineAddr a = some loc →
      (cfg.mapped m).mapLineAddr b = some loc → a = b) ∧
    (p.Distinct ∧ p.HitsOwnRow ↔ p.RowFits ∧ p.ColFits) := by
  refine ⟨fun a b loc ha hb => DDRConfig.mapLineAddr_injective hm ha hb, fun h => ?_, fun h => ?_⟩
  · exact ⟨AddrParam.rowFits_of_hits htype h.2, AddrParam.colFits_of_distinct htype h.1⟩
  · exact ⟨AddrParam.distinct htype h.1 h.2, AddrParam.hitsOwnRow htype h.1⟩

/-- A column of 32 bits leaves 30 bits for the row. -/
def wideColumns : AddrParam := { AddrParam.default with colAddrWidth := 32 }

theorem decode_injective_iff_wide :
    (∃ m loc, DDRMemory.channel.addrMapping ⟨⟨0, 0⟩, ⟨0, 0⟩, ⟨0, 0⟩, 0⟩ 8192 64
        ["rank", "bank", "col"] = some m ∧
      (DDRMemory.channel.mapped m).mapLineAddr 3 = some loc ∧
      ∀ b, (DDRMemory.channel.mapped m).mapLineAddr b = some loc → b = 3) ∧
    wideColumns.interleaveType.toNat ≤ 8 ∧ wideColumns.Distinct ∧ wideColumns.HitsOwnRow := by
  have hfits : wideColumns.RowFits ∧ wideColumns.ColFits :=
    ⟨by rw [AddrParam.RowFits]; decide, Or.inl (by decide)⟩
  obtain ⟨hddr, hiff⟩ := @decode_injective_iff DDRMemory.channel ⟨⟨0, 0⟩, ⟨0, 0⟩, ⟨0, 0⟩, 0⟩ 8192 64
    ["rank", "bank", "col"] _ rfl wideColumns (by decide)
  exact ⟨⟨_, _, rfl, rfl, fun b hb => (hddr 3 b _ rfl hb).symm⟩, by decide, hiff.mpr hfits⟩

/-- The first line of two processes. -/
theorem processes_collide : ¬ ∀ (cfg : MemSpec) (cacheLineSize : BitVec 32) (p : AddrParam),
    cfg.loadConfigMain cacheLineSize = some p → p.interleaveType.toNat ≤ 8 →
    ∀ a b, a < 2 ^ 64 → b < 2 ^ 64 → a ≠ b → p.location a ≠ p.location b := by
  intro h
  exact h MemSpec.default 64 AddrParam.default rfl (by decide) 0 (2 ^ 58) (by decide) (by decide)
    (by decide) (by decide)

end ZSim
