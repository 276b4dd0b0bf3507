import Mathlib.Data.Nat.Log
import Mathlib.Tactic.IntervalCases
import ZSim.DetailedMem

/-! How the detailed memory model slices a line address: a channel is chosen by the controller
and the channel takes the address apart again, in one of nine layouts. A panic, a failed assert
and a division by zero are `none`. -/

namespace ZSim

def ilog2 (val : Nat) : Nat := Nat.log2 val

/-- The entries of the configuration that size the memory. -/
structure MemSpec where
  totalCapacity : BitVec 32
  channelCount : BitVec 32
  channelDataWidth : BitVec 32
  interleaveType : BitVec 32
  chipCapacity : BitVec 32
  bankCount : BitVec 32
  colAddrWidth : BitVec 32
  dataBusWidth : BitVec 32

def MemSpec.default : MemSpec := ⟨4096, 2, 64, 0, 2048, 2, 10, 8⟩

/-- The parameters that the slicing reads, with the checks of `LoadConfigMain`. -/
structure AddrParam where
  channelCount : BitVec 32
  interleaveType : BitVec 32
  cacheLineSize : BitVec 32
  channelDataWidth : BitVec 32
  bankCount : BitVec 32
  colAddrWidth : BitVec 32
  rankCount : BitVec 32
  channels : 0 < channelCount.toNat
  ranks : 0 < rankCount.toNat

namespace MemSpec

variable (cfg : MemSpec)

def chipCountPerRank : BitVec 32 := cfg.channelDataWidth / cfg.dataBusWidth

def rankCapacity : BitVec 32 := cfg.chipCapacity * cfg.chipCountPerRank * cfg.channelCount

def rankCount : BitVec 32 := cfg.totalCapacity * 8 / cfg.rankCapacity

theorem channels_of_rankCapacity (h : cfg.rankCapacity ≠ 0) : 0 < cfg.channelCount.toNat := by
  refine Nat.pos_of_ne_zero fun hzero => h ?_
  have hcount : cfg.channelCount = 0 := BitVec.eq_of_toNat_eq hzero
  rw [rankCapacity, hcount]
  exact BitVec.mul_zero

theorem ranks_of_rankCount (h : cfg.rankCount ≠ 0) : 0 < cfg.rankCount.toNat :=
  Nat.pos_of_ne_zero fun hzero => h (BitVec.eq_of_toNat_eq hzero)

/-- Nothing checks the number of banks. -/
def loadConfigMain (cacheLineSize : BitVec 32) : Option AddrParam :=
  if cfg.dataBusWidth = 0 then none
  else if hcap : cfg.rankCapacity = 0 then none
  else if hrank : cfg.rankCount = 0 then none
  else if cfg.totalCapacity % cfg.channelCount ≠ 0 then none
  else some
    { channelCount := cfg.channelCount
      interleaveType := cfg.interleaveType
      cacheLineSize := cacheLineSize
      channelDataWidth := cfg.channelDataWidth
      bankCount := cfg.bankCount
      colAddrWidth := cfg.colAddrWidth
      rankCount := cfg.rankCount
      channels := cfg.channels_of_rankCapacity hcap
      ranks := cfg.ranks_of_rankCount hrank }

end MemSpec

inductive AddrField
  | chnl | rank | bank | col
  deriving DecidableEq

/-- What is left of the address, and the fields taken so far. -/
structure AddrState where
  addr : Nat
  chnl : Nat
  rank : Nat
  bank : Nat
  col : Nat

def AddrState.value (s : AddrState) : AddrField → Nat
  | .chnl => s.chnl
  | .rank => s.rank
  | .bank => s.bank
  | .col => s.col

structure MemLoc where
  row : Nat
  col : Nat
  rank : Nat
  bank : Nat
  deriving DecidableEq

namespace AddrParam

variable (p : AddrParam)

def rankWidth : Nat := ilog2 p.rankCount.toNat

def bankWidth : Nat := ilog2 p.bankCount.toNat

def byteOffsetWidth : Nat := ilog2 p.cacheLineSize.toNat

def channelDataWidthLog : Nat := ilog2 p.channelDataWidth.toNat

def colLowWidth : Nat :=
  if p.channelDataWidthLog < p.byteOffsetWidth then p.byteOffsetWidth - p.channelDataWidthLog
  else 0

/-- A difference of two 32-bit words. As the count of a shift of a 64-bit word it counts modulo
the size of the word. -/
def colHighWidth : Nat := (p.colAddrWidth - BitVec.ofNat 32 p.colLowWidth).toNat % 64

/-- The low bits of an address, as a mask takes them. -/
def lowBits (addr width : Nat) : Nat := addr &&& ((1 <<< width) - 1)

/-- One field is taken from the low end of the address, into a 32-bit variable. -/
def take (colLow : Nat) (s : AddrState) : AddrField → AddrState
  | .chnl =>
    { s with
      chnl := s.addr % p.channelCount.toNat % 2 ^ 32
      addr := s.addr / p.channelCount.toNat }
  | .rank =>
    { s with rank := lowBits s.addr p.rankWidth % 2 ^ 32, addr := s.addr >>> p.rankWidth }
  | .bank =>
    { s with bank := lowBits s.addr p.bankWidth % 2 ^ 32, addr := s.addr >>> p.bankWidth }
  | .col =>
    { s with
      col := ((lowBits s.addr p.colHighWidth % 2 ^ 32) <<< p.colLowWidth) % 2 ^ 32 ||| colLow
      addr := s.addr >>> p.colHighWidth }

/-- The fields in the order in which `AddressMap` takes them. -/
def layout (interleaveType : Nat) : List AddrField :=
  (if interleaveType ≤ 5 then [.chnl] else []) ++
    (if 4 ≤ interleaveType then [.col] else []) ++
    match interleaveType with
    | 0 => [.rank, .bank, .col]
    | 1 => [.bank, .rank, .col]
    | 2 => [.rank, .col, .bank]
    | 3 => [.bank, .col, .rank]
    | 4 => [.rank, .bank]
    | 5 => [.bank, .rank]
    | 6 => [.chnl, .bank, .rank]
    | 7 => [.bank, .chnl, .rank]
    | 8 => [.bank, .rank, .chnl]
    | _ => []

def fields : List AddrField := layout p.interleaveType.toNat

def slice (addr : Nat) : AddrState :=
  p.fields.foldl (p.take (lowBits addr p.colLowWidth))
    ⟨addr >>> p.colLowWidth, 2 ^ 32 - 1, 0, 0, 0⟩

/-- What the channel `myId` makes of an address: the rest of it is put in a 32-bit row. -/
def addressMap (myId addr : Nat) : Option MemLoc :=
  let s := p.slice addr
  if myId = s.chnl then some ⟨s.addr % 2 ^ 32, s.col, s.rank, s.bank⟩ else none

def returnChannel (addr : Nat) : Option Nat :=
  let result := addr >>> p.colLowWidth
  match p.interleaveType.toNat with
  | 0 | 1 | 2 | 3 | 4 | 5 => some (result % p.channelCount.toNat)
  | 6 => some ((result >>> p.colHighWidth) % p.channelCount.toNat)
  | 7 => some ((result >>> p.colHighWidth >>> p.bankWidth) % p.channelCount.toNat)
  | 8 => some ((result >>> p.colHighWidth >>> p.bankWidth >>> p.rankWidth) %
      p.channelCount.toNat)
  | _ => none

/-- How many values a field takes. -/
def radix : AddrField → Nat
  | .chnl => p.channelCount.toNat
  | .rank => 2 ^ p.rankWidth
  | .bank => 2 ^ p.bankWidth
  | .col => 2 ^ p.colHighWidth

def span (l : List AddrField) : Nat := (l.map p.radix).prod

/-- What is stored in a field when `x` is left of the address. -/
def stored (colLow x : Nat) : AddrField → Nat
  | .col => ((x % p.radix .col % 2 ^ 32) <<< p.colLowWidth) % 2 ^ 32 ||| colLow
  | f => x % p.radix f % 2 ^ 32

theorem lowBits_eq (addr width : Nat) : lowBits addr width = addr % 2 ^ width := by
  rw [lowBits, Nat.one_shiftLeft, Nat.and_two_pow_sub_one_eq_mod]

theorem two_pow_ilog2_le {val : Nat} (h : 0 < val) : 2 ^ ilog2 val ≤ val :=
  Nat.log2_self_le (Nat.pos_iff_ne_zero.mp h)

theorem ilog2_lt (val : BitVec 32) : ilog2 val.toNat < 32 := by
  rcases Nat.eq_zero_or_pos val.toNat with h | h
  · simp [ilog2, h]
  · exact (Nat.log2_lt (Nat.pos_iff_ne_zero.mp h)).mpr val.isLt

theorem colLowWidth_lt : p.colLowWidth < 32 := by
  have h := ilog2_lt p.cacheLineSize
  rw [colLowWidth, byteOffsetWidth]
  split <;> omega

theorem radix_pos : ∀ f, 0 < p.radix f
  | .chnl => p.channels
  | .rank => Nat.two_pow_pos _
  | .bank => Nat.two_pow_pos _
  | .col => Nat.two_pow_pos _

theorem span_nil : p.span [] = 1 := rfl

theorem span_cons (f : AddrField) (l : List AddrField) : p.span (f :: l) = p.radix f * p.span l := by
  rw [span, List.map_cons, List.prod_cons, span]

theorem span_append (l l' : List AddrField) : p.span (l ++ l') = p.span l * p.span l' := by
  rw [span, List.map_append, List.prod_append, span, span]

theorem span_pos (l : List AddrField) : 0 < p.span l := by
  induction l with
  | nil => exact Nat.one_pos
  | cons f l ih => rw [span_cons]; exact Nat.mul_pos (p.radix_pos f) ih

variable {p} {colLow : Nat} {s : AddrState}

theorem take_addr (f : AddrField) : (p.take colLow s f).addr = s.addr / p.radix f := by
  cases f with
  | chnl => rfl
  | rank => exact Nat.shiftRight_eq_div_pow _ _
  | bank => exact Nat.shiftRight_eq_div_pow _ _
  | col => exact Nat.shiftRight_eq_div_pow _ _

theorem take_value (f : AddrField) : (p.take colLow s f).value f = p.stored colLow s.addr f := by
  cases f with
  | chnl => rfl
  | rank => simp only [take, AddrState.value, stored, lowBits_eq, radix]
  | bank => simp only [take, AddrState.value, stored, lowBits_eq, radix]
  | col => simp only [take, AddrState.value, stored, lowBits_eq, radix]

theorem take_other {f g : AddrField} (h : f ≠ g) : (p.take colLow s g).value f = s.value f := by
  cases f <;> cases g <;> first | rfl | exact absurd rfl h

theorem run_addr (l : List AddrField) (s : AddrState) :
    (l.foldl (p.take colLow) s).addr = s.addr / p.span l := by
  induction l generalizing s with
  | nil => rw [List.foldl_nil, span_nil, Nat.div_one]
  | cons f l ih => rw [List.foldl_cons, ih, take_addr, span_cons, Nat.div_div_eq_div_mul]

theorem run_other {l : List AddrField} {f : AddrField} (h : f ∉ l) (s : AddrState) :
    (l.foldl (p.take colLow) s).value f = s.value f := by
  induction l generalizing s with
  | nil => rfl
  | cons g l ih =>
    rw [List.mem_cons, not_or] at h
    rw [List.foldl_cons, ih h.2, take_other h.1]

/-- The value of a field is read where the fields below it end. -/
theorem run_value {f : AddrField} {below above : List AddrField} (h : f ∉ above) (s : AddrState) :
    ((below ++ f :: above).foldl (p.take colLow) s).value f =
      p.stored colLow (s.addr / p.span below) f := by
  rw [List.foldl_append, List.foldl_cons, run_other h, take_value, run_addr]

variable (p)

theorem layout_nodup (interleaveType : Nat) : (layout interleaveType).Nodup := by
  by_cases h : interleaveType ≤ 8
  · interval_cases interleaveType <;> decide
  · have hrest : layout interleaveType = [.col] := by
      rw [layout, if_neg (by omega), if_pos (by omega)]
      · rfl
      all_goals omega
    rw [hrest]
    exact List.nodup_singleton _

theorem mem_layout {interleaveType : Nat} (h : interleaveType ≤ 8) (f : AddrField) :
    f ∈ layout interleaveType := by
  interval_cases interleaveType <;> cases f <;> decide

theorem lowBits_lt (addr width : Nat) : lowBits addr width < 2 ^ width := by
  rw [lowBits_eq]
  exact Nat.mod_lt _ (Nat.two_pow_pos _)

theorem value_lt_radix {f : AddrField} (hf : f ≠ .col) (colLow x : Nat) :
    p.stored colLow x f < p.radix f := by
  cases f with
  | col => exact absurd rfl hf
  | chnl => exact lt_of_le_of_lt (Nat.mod_le _ _) (Nat.mod_lt _ (p.radix_pos .chnl))
  | rank => exact lt_of_le_of_lt (Nat.mod_le _ _) (Nat.mod_lt _ (p.radix_pos .rank))
  | bank => exact lt_of_le_of_lt (Nat.mod_le _ _) (Nat.mod_lt _ (p.radix_pos .bank))

theorem radix_lt {f : AddrField} (hf : f ≠ .col) : p.radix f < 2 ^ 32 := by
  cases f with
  | col => exact absurd rfl hf
  | chnl => exact p.channelCount.isLt
  | rank => exact Nat.pow_lt_pow_right (by decide) (ilog2_lt _)
  | bank => exact Nat.pow_lt_pow_right (by decide) (ilog2_lt _)

/-- The fields other than the column keep all that is taken from the address. -/
theorem stored_eq {f : AddrField} (hf : f ≠ .col) (colLow x : Nat) :
    p.stored colLow x f = x % p.radix f := by
  have hlt : x % p.radix f < 2 ^ 32 :=
    lt_trans (Nat.mod_lt _ (p.radix_pos f)) (p.radix_lt hf)
  cases f with
  | col => exact absurd rfl hf
  | chnl => exact Nat.mod_eq_of_lt hlt
  | rank => exact Nat.mod_eq_of_lt hlt
  | bank => exact Nat.mod_eq_of_lt hlt

theorem slice_value {f : AddrField} {below above : List AddrField}
    (hl : p.fields = below ++ f :: above) (addr : Nat) :
    (p.slice addr).value f =
      p.stored (lowBits addr p.colLowWidth) (addr >>> p.colLowWidth / p.span below) f := by
  have hnd : (below ++ f :: above).Nodup := hl ▸ layout_nodup _
  have hf : f ∉ above := (List.nodup_cons.mp (List.nodup_append.mp hnd).2.1).1
  rw [slice, hl, run_value hf]

theorem slice_addr (addr : Nat) : (p.slice addr).addr = addr >>> p.colLowWidth / p.span p.fields := by
  rw [slice, run_addr]

theorem fields_split (htype : p.interleaveType.toNat ≤ 8) (f : AddrField) :
    ∃ below above, p.fields = below ++ f :: above :=
  List.append_of_mem (mem_layout htype f)

theorem slice_lt (htype : p.interleaveType.toNat ≤ 8) {f : AddrField} (hf : f ≠ .col) (addr : Nat) :
    (p.slice addr).value f < p.radix f := by
  obtain ⟨below, above, hl⟩ := p.fields_split htype f
  rw [p.slice_value hl]
  exact p.value_lt_radix hf _ _

/-- The controller finds the channel where the fields below it end. -/
theorem returnChannel_eq (htype : p.interleaveType.toNat ≤ 8) (addr : Nat) :
    p.returnChannel addr = some (p.slice addr).chnl := by
  have key : ∀ below above, p.fields = below ++ .chnl :: above →
      (p.slice addr).chnl =
        addr >>> p.colLowWidth / p.span below % p.channelCount.toNat := by
    intro below above hl
    have hval : (p.slice addr).value .chnl = _ := p.slice_value hl addr
    rwa [p.stored_eq (by decide)] at hval
  generalize ht : p.interleaveType.toNat = t at htype
  have hfields : p.fields = layout t := by rw [fields, ht]
  rw [returnChannel, ht]
  interval_cases t
  case «6» =>
    rw [key [.col] [.bank, .rank] hfields, span_cons, span_nil, Nat.mul_one]
    simp only [Nat.shiftRight_eq_div_pow, radix]
  case «7» =>
    rw [key [.col, .bank] [.rank] hfields, span_cons, span_cons, span_nil, Nat.mul_one]
    simp only [Nat.shiftRight_eq_div_pow, radix, Nat.div_div_eq_div_mul, Nat.mul_assoc]
  case «8» =>
    rw [key [.col, .bank, .rank] [] hfields, span_cons, span_cons, span_cons, span_nil,
      Nat.mul_one]
    simp only [Nat.shiftRight_eq_div_pow, radix, Nat.div_div_eq_div_mul, Nat.mul_assoc]
  all_goals
    have hfirst := key [] _ hfields
    rw [span_nil, Nat.div_one] at hfirst
    exact congrArg some hfirst.symm

theorem channel_agreement (htype : p.interleaveType.toNat ≤ 8) (addr : Nat) :
    ∃ chnl loc, p.returnChannel addr = some chnl ∧ chnl < p.channelCount.toNat ∧
      p.addressMap chnl addr = some loc ∧
      (∀ myId, (p.addressMap myId addr).isSome ↔ myId = chnl) ∧
      loc.rank < p.rankCount.toNat ∧ (0 < p.bankCount.toNat → loc.bank < p.bankCount.toNat) := by
  have hrank : (p.slice addr).rank < 2 ^ p.rankWidth :=
    p.slice_lt htype (f := .rank) (by decide) addr
  have hbank : (p.slice addr).bank < 2 ^ p.bankWidth :=
    p.slice_lt htype (f := .bank) (by decide) addr
  have hchnl : (p.slice addr).chnl < p.channelCount.toNat :=
    p.slice_lt htype (f := .chnl) (by decide) addr
  refine ⟨(p.slice addr).chnl, _, p.returnChannel_eq htype addr, hchnl, if_pos rfl, fun myId => ?_,
    lt_of_lt_of_le hrank (two_pow_ilog2_le p.ranks), fun hpos =>
    lt_of_lt_of_le hbank (two_pow_ilog2_le hpos)⟩
  rw [addressMap]
  by_cases hid : myId = (p.slice addr).chnl
  · rw [if_pos hid, Option.isSome_some, eq_self, true_iff]
    exact hid
  · rw [if_neg hid, Option.isSome_none]
    exact iff_of_false Bool.false_ne_true hid

/-- What an empty configuration file gives for lines of 64 bytes. -/
def default : AddrParam := ⟨2, 0, 64, 64, 2, 10, 1, by decide, by decide⟩

theorem channel_agreement_default :
    MemSpec.default.loadConfigMain 64 = some default ∧ default.interleaveType.toNat ≤ 8 ∧
      ∃ chnl loc, default.returnChannel 5 = some chnl ∧ default.addressMap chnl 5 = some loc ∧
        loc.rank < default.rankCount.toNat := by
  refine ⟨rfl, by decide, ?_⟩
  obtain ⟨chnl, loc, hret, -, hmap, -, hrank, -⟩ := channel_agreement default (by decide) 5
  exact ⟨chnl, loc, hret, hmap, hrank⟩

theorem no_bank_to_take : ¬ ∀ (cfg : MemSpec) (cacheLineSize : BitVec 32) (p : AddrParam),
    cfg.loadConfigMain cacheLineSize = some p → p.interleaveType.toNat ≤ 8 →
    ∀ chnl addr loc, p.addressMap chnl addr = some loc → loc.bank < p.bankCount.toNat := by
  intro h
  have hbank := h { MemSpec.default with bankCount := 0 } 64 _ rfl (by decide) 0 0 _ rfl
  exact absurd hbank (by decide)

end AddrParam

end ZSim
