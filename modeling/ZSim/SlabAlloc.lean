import Mathlib.Algebra.Order.BigOperators.Group.List
import Mathlib.Data.List.Nodup
import Mathlib.Data.List.Perm.Subperm
import Mathlib.Logic.Function.Basic
import Mathlib.Tactic.Ring

/-! The slab allocator of the timing events. An element finds its slab by the high bits of its
address, and a slab is used again when its last live element is freed. Addresses are natural
numbers and a failed assert is `none`. -/

namespace ZSim

def SLAB_SIZE : Nat := 2 ^ 16

/-- The bytes of a slab before its buffer. -/
def slabHeader : Nat := 16

def bufSize : Nat := SLAB_SIZE - slabHeader

/-- An address under `SLAB_MASK`. -/
def maskSlab (ptr : Nat) : Nat := ptr - ptr % SLAB_SIZE

structure Slab where
  liveElems : Nat
  usedBytes : Nat

namespace Slab

def cleared : Slab := ⟨0, 0⟩

/-- The offset of the element in the buffer. The bytes count as used also when they do not
fit. -/
def alloc (s : Slab) (bytes : Nat) : Slab × Option Nat :=
  let used := (s.usedBytes + bytes) % 2 ^ 32
  if used < bufSize then (⟨(s.liveElems + 1) % 2 ^ 32, used⟩, some s.usedBytes)
  else (⟨s.liveElems, used⟩, none)

end Slab

/-- The slabs are known by their addresses. The back of the free list comes first. -/
structure SlabAlloc where
  slab : Nat → Slab
  curSlab : Nat
  freeList : List Nat
  liveSlabs : Nat

namespace SlabAlloc

variable (s : SlabAlloc)

def setSlab (a : Nat) (v : Slab) : SlabAlloc := { s with slab := Function.update s.slab a v }

/-- `gm` is what `gm_memalign` returns when it is called, which panics when it has no memory. -/
def allocSlab (gm : Nat) : Option SlabAlloc :=
  match s.freeList with
  | a :: rest =>
    if a = 0 then none
    else some { s with curSlab := a, freeList := rest, liveSlabs := (s.liveSlabs + 1) % 2 ^ 32 }
  | [] =>
    if maskSlab gm ≠ gm then none
    else some { s.setSlab gm .cleared with
      curSlab := gm, liveSlabs := (s.liveSlabs + 1) % 2 ^ 32 }

/-- The constructor. -/
def new (mem : Nat → Slab) (gm : Nat) : Option SlabAlloc := allocSlab ⟨mem, 0, [], 0⟩ gm

/-- One try to allocate in the current slab. -/
def bump (sz : Nat) : SlabAlloc × Option Nat :=
  let r := (s.slab s.curSlab).alloc sz
  (s.setSlab s.curSlab r.1, r.2.map (s.curSlab + slabHeader + ·))

def alloc (sz gm : Nat) : Option (SlabAlloc × Nat) :=
  if ¬ sz < SLAB_SIZE then none
  else do
    let r := s.bump sz
    let r ← if r.2.isSome then some r else (r.1.allocSlab gm).map (·.bump sz)
    let ptr ← r.2
    if maskSlab ptr = r.1.curSlab then some (r.1, ptr) else none

def freeSlab (a : Nat) : Option SlabAlloc :=
  let s' := s.setSlab a .cleared
  let s' := if a ≠ s'.curSlab then
    { s' with freeList := a :: s'.freeList, liveSlabs := (s'.liveSlabs + (2 ^ 32 - 1)) % 2 ^ 32 }
    else s'
  if s'.liveSlabs = 0 then none else some s'

def freeElem (elem : Nat) : Option SlabAlloc :=
  let a := maskSlab elem
  let prevLiveElems := (s.slab a).liveElems
  let usedBytes := (s.slab a).usedBytes
  let s' := s.setSlab a ⟨(prevLiveElems + (2 ^ 32 - 1)) % 2 ^ 32, usedBytes⟩
  if prevLiveElems ≠ 0 ∧ prevLiveElems < usedBytes then
    if prevLiveElems = 1 then s'.freeSlab a else some s'
  else none

end SlabAlloc

/-- The elements of a slab among those that are live. -/
def elemsIn (a : Nat) (live : List (Nat × Nat)) : List (Nat × Nat) :=
  live.filter fun e => maskSlab e.1 = a

def bytesIn (a : Nat) (live : List (Nat × Nat)) : Nat := ((elemsIn a live).map Prod.snd).sum

/-- The allocator with the slabs it got from the heap and the elements that are not freed, each
with its size. -/
structure SlabHeap where
  alloc : SlabAlloc
  slabs : List Nat
  live : List (Nat × Nat)

inductive SlabOp
  | alloc (sz gm : Nat)
  | free (elem : Nat × Nat)

namespace SlabHeap

def step (h : SlabHeap) : SlabOp → Option SlabHeap
  | .alloc sz gm => do
    let r ← h.alloc.alloc sz gm
    some ⟨r.1, h.slabs.insert r.1.curSlab, (r.2, sz) :: h.live⟩
  | .free elem => do
    let s ← h.alloc.freeElem elem.1
    some { h with alloc := s, live := h.live.erase elem }

/-- What the heap delivers: an aligned slab of its own, in the memory a process has. -/
structure Delivered (slabs : List Nat) (gm : Nat) : Prop where
  aligned : SLAB_SIZE ∣ gm
  pos : 0 < gm
  bound : gm + SLAB_SIZE ≤ 2 ^ 47
  fresh : gm ∉ slabs

/-- Sizes are below that of the buffer, and only live elements are freed. -/
def Enabled (h : SlabHeap) : SlabOp → Prop
  | .alloc sz gm => sz < bufSize ∧ Delivered h.slabs gm
  | .free elem => elem ∈ h.live

/-- The slab of an element that is freed has fewer live elements than bytes that were used since
it was last cleared. -/
def FewerThanBytes (h : SlabHeap) : SlabOp → Prop
  | .alloc _ _ => True
  | .free elem =>
    (elemsIn (maskSlab elem.1) h.live).length < (h.alloc.slab (maskSlab elem.1)).usedBytes

/-- The states of the runs whose steps meet a condition. -/
inductive Reachable (Cond : SlabHeap → SlabOp → Prop) : SlabHeap → Prop
  | init {mem : Nat → Slab} {gm : Nat} {s : SlabAlloc} (hgm : Delivered [] gm)
      (hnew : SlabAlloc.new mem gm = some s) : Reachable Cond ⟨s, [gm], []⟩
  | step {h h' : SlabHeap} {op : SlabOp} (hr : Reachable Cond h) (hen : h.Enabled op)
      (hc : Cond h op) (hstep : h.step op = some h') : Reachable Cond h'

structure Safe (h : SlabHeap) : Prop where
  disjoint : h.live.Pairwise fun e e' => e.1 + e.2 ≤ e'.1 ∨ e'.1 + e'.2 ≤ e.1
  inside : ∀ e ∈ h.live, maskSlab e.1 ∈ h.slabs ∧ SLAB_SIZE ∣ maskSlab e.1 ∧
    maskSlab e.1 + slabHeader ≤ e.1 ∧ e.1 + e.2 ≤ maskSlab e.1 + SLAB_SIZE
  freed : ∀ a ∈ h.alloc.freeList, elemsIn a h.live = []
  freeNodup : h.alloc.freeList.Nodup
  freeCur : h.alloc.curSlab ∉ h.alloc.freeList
  liveSlabs : h.alloc.liveSlabs = (h.slabs.filter (· ∉ h.alloc.freeList)).length

structure Inv (h : SlabHeap) : Prop where
  placed : ∀ a ∈ h.slabs, SLAB_SIZE ∣ a ∧ 0 < a ∧ a + SLAB_SIZE ≤ 2 ^ 47
  nodup : h.slabs.Nodup
  cur : h.alloc.curSlab ∈ h.slabs
  freeMem : ∀ a ∈ h.alloc.freeList, a ∈ h.slabs
  freeNodup : h.alloc.freeList.Nodup
  freeCur : h.alloc.curSlab ∉ h.alloc.freeList
  freed : ∀ a ∈ h.alloc.freeList, h.alloc.slab a = .cleared ∧ elemsIn a h.live = []
  liveSlabs : h.alloc.liveSlabs + h.alloc.freeList.length = h.slabs.length
  used : ∀ a ∈ h.slabs, (h.alloc.slab a).usedBytes < 2 * bufSize
  count : ∀ a ∈ h.slabs, (h.alloc.slab a).liveElems = (elemsIn a h.live).length % 2 ^ 32
  bytes : ∀ a ∈ h.slabs, bytesIn a h.live ≤ (h.alloc.slab a).usedBytes
  inside : ∀ e ∈ h.live, maskSlab e.1 ∈ h.slabs ∧ maskSlab e.1 + slabHeader ≤ e.1 ∧
    e.1 + e.2 ≤ maskSlab e.1 + SLAB_SIZE
  below : ∀ e ∈ h.live,
    e.1 + e.2 ≤ maskSlab e.1 + slabHeader + (h.alloc.slab (maskSlab e.1)).usedBytes
  disjoint : h.live.Pairwise fun e e' => e.1 + e.2 ≤ e'.1 ∨ e'.1 + e'.2 ≤ e.1

/-- The current slab has not refused an element. -/
def Room (h : SlabHeap) : Prop := (h.alloc.slab h.alloc.curSlab).usedBytes < bufSize

theorem maskSlab_of_lt {a n : Nat} (ha : SLAB_SIZE ∣ a) (hn : n < SLAB_SIZE) :
    maskSlab (a + n) = a := by
  obtain ⟨k, rfl⟩ := ha
  rw [maskSlab, Nat.mul_add_mod, Nat.mod_eq_of_lt hn, Nat.add_sub_cancel]

theorem maskSlab_of_dvd {a : Nat} (ha : SLAB_SIZE ∣ a) : maskSlab a = a :=
  maskSlab_of_lt (n := 0) ha (by decide)

/-- The memory of a process has no more than `2 ^ 31` slabs. -/
theorem Inv.slabs_le {h : SlabHeap} (hi : h.Inv) : h.slabs.length ≤ 2 ^ 31 := by
  have hinj : (h.slabs.map (· / SLAB_SIZE)).Nodup := by
    refine (List.nodup_map_iff_inj_on hi.nodup).mpr fun a ha b hb hab => ?_
    rw [← Nat.div_mul_cancel (hi.placed a ha).1, ← Nat.div_mul_cancel (hi.placed b hb).1, hab]
  have hsub : h.slabs.map (· / SLAB_SIZE) ⊆ List.range (2 ^ 31) := by
    intro k hk
    obtain ⟨a, ha, rfl⟩ := List.mem_map.mp hk
    have hbound := (hi.placed a ha).2.2
    rw [List.mem_range]
    simp only [SLAB_SIZE] at hbound ⊢
    omega
  have hlen := (List.subperm_of_subset hinj hsub).length_le
  rwa [List.length_map, List.length_range] at hlen

/-- The current slab is not in the free list. -/
theorem Inv.liveSlabs_pos {h : SlabHeap} (hi : h.Inv) : 0 < h.alloc.liveSlabs := by
  have hnd : (h.alloc.curSlab :: h.alloc.freeList).Nodup :=
    List.nodup_cons.mpr ⟨hi.freeCur, hi.freeNodup⟩
  have hsub : h.alloc.curSlab :: h.alloc.freeList ⊆ h.slabs := by
    intro a ha
    rcases List.mem_cons.mp ha with rfl | ha
    · exact hi.cur
    · exact hi.freeMem a ha
  have hlen := (List.subperm_of_subset hnd hsub).length_le
  rw [List.length_cons] at hlen
  have hcount := hi.liveSlabs
  omega

theorem Inv.safe {h : SlabHeap} (hi : h.Inv) : h.Safe where
  disjoint := hi.disjoint
  inside := fun e he =>
    have hslab := hi.inside e he
    ⟨hslab.1, (hi.placed _ hslab.1).1, hslab.2⟩
  freed := fun a ha => (hi.freed a ha).2
  freeNodup := hi.freeNodup
  freeCur := hi.freeCur
  liveSlabs := by
    have hperm : (h.slabs.filter (· ∈ h.alloc.freeList)).Perm h.alloc.freeList := by
      refine (List.perm_ext_iff_of_nodup (hi.nodup.filter _) hi.freeNodup).mpr fun a => ?_
      rw [List.mem_filter, decide_eq_true_eq]
      exact ⟨fun ha => ha.2, fun ha => ⟨hi.freeMem a ha, ha⟩⟩
    have hsplit := List.length_eq_length_filter_add (l := h.slabs)
      (fun a => decide (a ∈ h.alloc.freeList))
    simp only [← decide_not] at hsplit
    have hlive := hi.liveSlabs
    have hlen := hperm.length_eq
    omega

variable {h : SlabHeap}

/-- A slab that is in use gets new counts, and elements may come or go in it alone. -/
theorem Inv.setSlab (hi : h.Inv) {a : Nat} {v : Slab} {live : List (Nat × Nat)}
    (ha : a ∈ h.slabs) (hfree : a ∉ h.alloc.freeList)
    (hother : ∀ b, b ≠ a → elemsIn b live = elemsIn b h.live)
    (hused : v.usedBytes < 2 * bufSize)
    (hcount : v.liveElems = (elemsIn a live).length % 2 ^ 32)
    (hbytes : bytesIn a live ≤ v.usedBytes)
    (hinside : ∀ e ∈ live, maskSlab e.1 = a → a + slabHeader ≤ e.1 ∧
      e.1 + e.2 ≤ a + SLAB_SIZE ∧ e.1 + e.2 ≤ a + slabHeader + v.usedBytes)
    (hdisj : live.Pairwise fun e e' => e.1 + e.2 ≤ e'.1 ∨ e'.1 + e'.2 ≤ e.1) :
    Inv ⟨h.alloc.setSlab a v, h.slabs, live⟩ := by
  have hkept : ∀ e ∈ live, maskSlab e.1 ≠ a → e ∈ h.live := by
    intro e he hne
    have hmem : e ∈ elemsIn (maskSlab e.1) live :=
      List.mem_filter.mpr ⟨he, decide_eq_true rfl⟩
    rw [hother _ hne] at hmem
    exact (List.mem_filter.mp hmem).1
  refine ⟨hi.placed, hi.nodup, hi.cur, hi.freeMem, hi.freeNodup, hi.freeCur, fun b hb => ?_,
    hi.liveSlabs, fun b hb => ?_, fun b hb => ?_, fun b hb => ?_, fun e he => ?_, fun e he => ?_,
    hdisj⟩
  · have hne : b ≠ a := by
      rintro rfl
      exact hfree hb
    exact ⟨(Function.update_of_ne hne _ _).trans (hi.freed b hb).1,
      (hother b hne).trans (hi.freed b hb).2⟩
  · by_cases hne : b = a
    · subst hne
      simpa only [SlabAlloc.setSlab, Function.update_self] using hused
    · simpa only [SlabAlloc.setSlab, Function.update_of_ne hne] using hi.used b hb
  · by_cases hne : b = a
    · subst hne
      simpa only [SlabAlloc.setSlab, Function.update_self] using hcount
    · simpa only [SlabAlloc.setSlab, Function.update_of_ne hne, hother b hne] using hi.count b hb
  · by_cases hne : b = a
    · subst hne
      simpa only [SlabAlloc.setSlab, Function.update_self] using hbytes
    · simpa only [SlabAlloc.setSlab, Function.update_of_ne hne, bytesIn, hother b hne]
        using hi.bytes b hb
  · by_cases hne : maskSlab e.1 = a
    · rw [hne]
      exact ⟨ha, (hinside e he hne).1, (hinside e he hne).2.1⟩
    · exact hi.inside e (hkept e he hne)
  · by_cases hne : maskSlab e.1 = a
    · simpa only [SlabAlloc.setSlab, hne, Function.update_self] using (hinside e he hne).2.2
    · simpa only [SlabAlloc.setSlab, Function.update_of_ne hne] using hi.below e (hkept e he hne)

theorem elemsIn_cons_of_ne {a : Nat} {e : Nat × Nat} (hne : a ≠ maskSlab e.1)
    (live : List (Nat × Nat)) : elemsIn a (e :: live) = elemsIn a live :=
  List.filter_cons_of_neg fun h => hne (of_decide_eq_true h).symm

theorem elemsIn_cons_self (e : Nat × Nat) (live : List (Nat × Nat)) :
    elemsIn (maskSlab e.1) (e :: live) = e :: elemsIn (maskSlab e.1) live :=
  List.filter_cons_of_pos (decide_eq_true rfl)

theorem elemsIn_erase (a : Nat) (e : Nat × Nat) (live : List (Nat × Nat)) :
    elemsIn a (live.erase e) = (elemsIn a live).erase e :=
  List.erase_filter.symm

theorem mem_elemsIn {a : Nat} {e : Nat × Nat} {live : List (Nat × Nat)} :
    e ∈ elemsIn a live ↔ e ∈ live ∧ maskSlab e.1 = a := by
  rw [elemsIn, List.mem_filter, decide_eq_true_eq]

theorem apart_of_ne {a b : Nat} (ha : SLAB_SIZE ∣ a) (hb : SLAB_SIZE ∣ b) (hne : a ≠ b) :
    a + SLAB_SIZE ≤ b ∨ b + SLAB_SIZE ≤ a := by
  obtain ⟨i, rfl⟩ := ha
  obtain ⟨j, rfl⟩ := hb
  simp only [SLAB_SIZE] at hne ⊢
  omega

/-- An element that fits goes behind all others of the current slab. -/
theorem Inv.bump (hi : h.Inv) {sz : Nat}
    (hfit : (h.alloc.slab h.alloc.curSlab).usedBytes + sz < bufSize) :
    ∃ s ptr, h.alloc.bump sz = (s, some ptr) ∧ s.curSlab = h.alloc.curSlab ∧
      maskSlab ptr = s.curSlab ∧ Inv ⟨s, h.slabs, (ptr, sz) :: h.live⟩ ∧
      Room ⟨s, h.slabs, (ptr, sz) :: h.live⟩ := by
  have hword : ((h.alloc.slab h.alloc.curSlab).usedBytes + sz) % 2 ^ 32 =
      (h.alloc.slab h.alloc.curSlab).usedBytes + sz :=
    Nat.mod_eq_of_lt (lt_trans hfit (by decide))
  have hdvd := (hi.placed _ hi.cur).1
  have hmask : maskSlab (h.alloc.curSlab + slabHeader +
      (h.alloc.slab h.alloc.curSlab).usedBytes) = h.alloc.curSlab := by
    rw [Nat.add_assoc]
    refine maskSlab_of_lt hdvd ?_
    simp only [bufSize, slabHeader, SLAB_SIZE] at hfit ⊢
    omega
  have hbump : h.alloc.bump sz =
      (h.alloc.setSlab h.alloc.curSlab ⟨((h.alloc.slab h.alloc.curSlab).liveElems + 1) % 2 ^ 32,
        (h.alloc.slab h.alloc.curSlab).usedBytes + sz⟩,
        some (h.alloc.curSlab + slabHeader + (h.alloc.slab h.alloc.curSlab).usedBytes)) := by
    simp only [SlabAlloc.bump, Slab.alloc, hword, if_pos hfit, Option.map_some]
  refine ⟨_, _, hbump, rfl, hmask, ?_, ?_⟩
  · refine hi.setSlab hi.cur hi.freeCur (fun b hb => elemsIn_cons_of_ne (by rwa [hmask]) _)
      (by simp only; omega) ?_ ?_ (fun e he hea => ?_) (List.pairwise_cons.mpr ⟨?_, hi.disjoint⟩)
    · have hcount := hi.count _ hi.cur
      have hcons := elemsIn_cons_self (h.alloc.curSlab + slabHeader +
        (h.alloc.slab h.alloc.curSlab).usedBytes, sz) h.live
      rw [hmask] at hcons
      rw [hcons, List.length_cons, hcount, Nat.mod_add_mod]
    · have hbytes := hi.bytes _ hi.cur
      have hcons := elemsIn_cons_self (h.alloc.curSlab + slabHeader +
        (h.alloc.slab h.alloc.curSlab).usedBytes, sz) h.live
      rw [hmask] at hcons
      rw [bytesIn, hcons, List.map_cons, List.sum_cons]
      rw [bytesIn] at hbytes
      simp only
      omega
    · rcases List.mem_cons.mp he with rfl | he
      · simp only [bufSize, slabHeader, SLAB_SIZE] at hfit ⊢
        omega
      · have hin := hi.inside e he
        have hbelow := hi.below e he
        rw [hea] at hin hbelow
        exact ⟨hin.2.1, hin.2.2, by simp only; omega⟩
    · intro e he
      have hin := hi.inside e he
      have hbelow := hi.below e he
      by_cases hea : maskSlab e.1 = h.alloc.curSlab
      · rw [hea] at hbelow
        exact Or.inr hbelow
      · have hapart := apart_of_ne (hi.placed _ hin.1).1 hdvd hea
        simp only [bufSize, slabHeader, SLAB_SIZE] at hfit hapart hin ⊢
        omega
  · simpa only [Room, SlabAlloc.setSlab, Function.update_self] using hfit

/-- The bytes of an element that is refused count as used. -/
theorem Inv.refused (hi : h.Inv) (hroom : h.Room) {sz : Nat} (hsz : sz < bufSize)
    (hfit : ¬ (h.alloc.slab h.alloc.curSlab).usedBytes + sz < bufSize) :
    ∃ s, h.alloc.bump sz = (s, none) ∧ Inv ⟨s, h.slabs, h.live⟩ := by
  rw [Room] at hroom
  have hbuf : 2 * bufSize < 2 ^ 32 := by decide
  have hword : ((h.alloc.slab h.alloc.curSlab).usedBytes + sz) % 2 ^ 32 =
      (h.alloc.slab h.alloc.curSlab).usedBytes + sz := Nat.mod_eq_of_lt (by omega)
  have hbump : h.alloc.bump sz =
      (h.alloc.setSlab h.alloc.curSlab ⟨(h.alloc.slab h.alloc.curSlab).liveElems,
        (h.alloc.slab h.alloc.curSlab).usedBytes + sz⟩, none) := by
    simp only [SlabAlloc.bump, Slab.alloc, hword, if_neg hfit, Option.map_none]
  refine ⟨_, hbump, ?_⟩
  refine hi.setSlab hi.cur hi.freeCur (fun _ _ => rfl) (by simp only; omega)
    (hi.count _ hi.cur) (le_trans (hi.bytes _ hi.cur) (Nat.le_add_right _ _))
    (fun e he hea => ?_) hi.disjoint
  have hin := hi.inside e he
  have hbelow := hi.below e he
  rw [hea] at hin hbelow
  exact ⟨hin.2.1, hin.2.2, by simp only; omega⟩

/-- A slab of the free list or of the heap is empty. -/
theorem Inv.allocSlab (hi : h.Inv) {gm : Nat} (hgm : Delivered h.slabs gm) :
    ∃ s, h.alloc.allocSlab gm = some s ∧ Inv ⟨s, h.slabs.insert s.curSlab, h.live⟩ ∧
      s.slab s.curSlab = .cleared := by
  have hlen := hi.slabs_le
  have hlive := hi.liveSlabs
  rw [SlabAlloc.allocSlab]
  split
  case h_1 a rest hfl =>
    rw [hfl, List.length_cons] at hlive
    have ha := hi.freeMem a (by rw [hfl]; exact List.mem_cons_self)
    have hnd : (a :: rest).Nodup := hfl ▸ hi.freeNodup
    have hcleared := hi.freed a (by rw [hfl]; exact List.mem_cons_self)
    have hpos := (hi.placed a ha).2.1
    refine ⟨_, if_neg (by omega), ?_, hcleared.1⟩
    have hrest : ∀ b ∈ rest, b ∈ h.alloc.freeList := fun b hb => by
      rw [hfl]
      exact List.mem_cons_of_mem _ hb
    rw [List.insert_of_mem ha]
    exact ⟨hi.placed, hi.nodup, ha, fun b hb => hi.freeMem b (hrest b hb), hnd.of_cons,
      (List.nodup_cons.mp hnd).1, fun b hb => hi.freed b (hrest b hb), by simp only; omega,
      hi.used, hi.count, hi.bytes, hi.inside, hi.below, hi.disjoint⟩
  case h_2 =>
    refine ⟨_, if_neg (not_not.mpr (maskSlab_of_dvd hgm.aligned)), ?_, Function.update_self ..⟩
    have hempty : elemsIn gm h.live = [] := by
      refine List.filter_eq_nil_iff.mpr fun e he hea => hgm.fresh ?_
      rw [← of_decide_eq_true hea]
      exact (hi.inside e he).1
    have hself : (h.alloc.setSlab gm .cleared).slab gm = .cleared := Function.update_self ..
    have hold : ∀ b ∈ h.slabs, (h.alloc.setSlab gm .cleared).slab b = h.alloc.slab b := by
      intro b hb
      refine Function.update_of_ne ?_ _ _
      rintro rfl
      exact hgm.fresh hb
    rw [List.insert_of_not_mem hgm.fresh]
    refine ⟨?_, List.nodup_cons.mpr ⟨hgm.fresh, hi.nodup⟩, List.mem_cons_self,
      fun b hb => List.mem_cons_of_mem _ (hi.freeMem b hb), hi.freeNodup,
      fun hb => hgm.fresh (hi.freeMem gm hb), fun b hb => ?_, ?_, ?_, ?_, ?_, fun e he => ?_,
      fun e he => ?_, hi.disjoint⟩
    · exact List.forall_mem_cons.mpr ⟨⟨hgm.aligned, hgm.pos, hgm.bound⟩, hi.placed⟩
    · simp only [hold b (hi.freeMem b hb)]
      exact hi.freed b hb
    · simp only [SlabAlloc.setSlab, List.length_cons]
      omega
    · refine List.forall_mem_cons.mpr ⟨?_, fun b hb => ?_⟩
      · simp only [hself]
        decide
      · simpa only [hold b hb] using hi.used b hb
    · refine List.forall_mem_cons.mpr ⟨?_, fun b hb => ?_⟩
      · simp only [hself, hempty]
        rfl
      · simpa only [hold b hb] using hi.count b hb
    · refine List.forall_mem_cons.mpr ⟨?_, fun b hb => ?_⟩
      · simp only [bytesIn, hempty, List.map_nil, List.sum_nil]
        exact Nat.zero_le _
      · simpa only [hold b hb] using hi.bytes b hb
    · have hin := hi.inside e he
      exact ⟨List.mem_cons_of_mem _ hin.1, hin.2⟩
    · simpa only [hold _ (hi.inside e he).1] using hi.below e he

theorem Inv.alloc (hi : h.Inv) (hroom : h.Room) {sz gm : Nat} (hen : h.Enabled (.alloc sz gm)) :
    ∃ h', h.step (.alloc sz gm) = some h' ∧ h'.Inv ∧ h'.Room := by
  obtain ⟨hsz, hgm⟩ := hen
  have hslab : sz < SLAB_SIZE := lt_trans hsz (by decide)
  have halloc : ∃ s ptr, h.alloc.alloc sz gm = some (s, ptr) ∧
      Inv ⟨s, h.slabs.insert s.curSlab, (ptr, sz) :: h.live⟩ ∧
      Room ⟨s, h.slabs.insert s.curSlab, (ptr, sz) :: h.live⟩ := by
    by_cases hfit : (h.alloc.slab h.alloc.curSlab).usedBytes + sz < bufSize
    · obtain ⟨s, ptr, hbump, hcur, hmask, hinv, hroom'⟩ := hi.bump hfit
      refine ⟨s, ptr, ?_, ?_, ?_⟩
      · simp only [SlabAlloc.alloc, hslab, hbump, not_true, if_false, Option.isSome_some, if_true,
          Option.bind_eq_bind, Option.bind_some, hmask]
      · rwa [hcur, List.insert_of_mem hi.cur]
      · exact hroom'
    · obtain ⟨s₁, hbump₁, hinv₁⟩ := hi.refused hroom hsz hfit
      obtain ⟨s₂, hs₂, hinv₂, hclear⟩ := hinv₁.allocSlab hgm
      have hfit₂ : (s₂.slab s₂.curSlab).usedBytes + sz < bufSize := by
        rw [hclear]
        exact lt_of_eq_of_lt (Nat.zero_add sz) hsz
      obtain ⟨s, ptr, hbump, hcur, hmask, hinv, hroom'⟩ := hinv₂.bump hfit₂
      refine ⟨s, ptr, ?_, ?_, hroom'⟩
      · simp only [SlabAlloc.alloc, hslab, hbump₁, not_true, if_false, Option.isSome_none,
          Bool.false_eq_true, hs₂, Option.map_some, hbump, Option.bind_eq_bind, Option.bind_some,
          hmask, if_true]
      · simp only at hcur
        rwa [hcur]
  obtain ⟨s, ptr, hs, hinv, hroom'⟩ := halloc
  exact ⟨_, by rw [step, hs]; rfl, hinv, hroom'⟩

theorem Inv.push (hi : h.Inv) {a : Nat} (ha : a ∈ h.slabs) (hne : a ≠ h.alloc.curSlab)
    (hfree : a ∉ h.alloc.freeList) (hclear : h.alloc.slab a = .cleared)
    (hempty : elemsIn a h.live = []) :
    Inv ⟨{ h.alloc with
      freeList := a :: h.alloc.freeList
      liveSlabs := (h.alloc.liveSlabs + (2 ^ 32 - 1)) % 2 ^ 32 }, h.slabs, h.live⟩ := by
  refine ⟨hi.placed, hi.nodup, hi.cur, List.forall_mem_cons.mpr ⟨ha, hi.freeMem⟩,
    List.nodup_cons.mpr ⟨hfree, hi.freeNodup⟩, ?_,
    List.forall_mem_cons.mpr ⟨⟨hclear, hempty⟩, hi.freed⟩, ?_, hi.used, hi.count, hi.bytes,
    hi.inside, hi.below, hi.disjoint⟩
  · rw [List.mem_cons, not_or]
    exact ⟨hne.symm, hi.freeCur⟩
  · have hpos := hi.liveSlabs_pos
    have hlen := hi.slabs_le
    have hlive := hi.liveSlabs
    simp only [List.length_cons]
    omega

theorem Inv.liveElems_eq (hi : h.Inv) {elem : Nat × Nat} (helem : elem ∈ h.live)
    (hfew : h.FewerThanBytes (.free elem)) :
    (h.alloc.slab (maskSlab elem.1)).liveElems = (elemsIn (maskSlab elem.1) h.live).length := by
  have hslab := (hi.inside elem helem).1
  have hused := hi.used _ hslab
  have hbuf : 2 * bufSize < 2 ^ 32 := by decide
  rw [hi.count _ hslab]
  exact Nat.mod_eq_of_lt (lt_trans hfew (lt_trans hused hbuf))

theorem length_elemsIn_erase {elem : Nat × Nat} {live : List (Nat × Nat)} (helem : elem ∈ live) :
    (elemsIn (maskSlab elem.1) (live.erase elem)).length + 1 =
      (elemsIn (maskSlab elem.1) live).length := by
  have hmem : elem ∈ elemsIn (maskSlab elem.1) live := mem_elemsIn.mpr ⟨helem, rfl⟩
  have hpos := List.length_pos_of_mem hmem
  rw [elemsIn_erase, List.length_erase_of_mem hmem]
  omega

theorem setSlab_setSlab (s : SlabAlloc) (a : Nat) (v w : Slab) :
    (s.setSlab a v).setSlab a w = s.setSlab a w := by
  rw [SlabAlloc.setSlab, SlabAlloc.setSlab, SlabAlloc.setSlab, Function.update_idem]

/-- The current slab is cleared where it stands, any other goes into the free list. -/
theorem Inv.freeSlab {s : SlabAlloc} {a : Nat} {slabs : List Nat} {live : List (Nat × Nat)}
    (hi : Inv ⟨s.setSlab a .cleared, slabs, live⟩) (ha : a ∈ slabs) (hfree : a ∉ s.freeList)
    (hempty : elemsIn a live = []) (hroom : a ≠ s.curSlab → (s.slab s.curSlab).usedBytes < bufSize) :
    ∃ s', s.freeSlab a = some s' ∧ Inv ⟨s', slabs, live⟩ ∧ Room ⟨s', slabs, live⟩ := by
  have hself : (s.setSlab a .cleared).slab a = .cleared := Function.update_self ..
  by_cases hcur : a = s.curSlab
  · have hpos := hi.liveSlabs_pos
    refine ⟨s.setSlab a .cleared, ?_, hi, ?_⟩
    · rw [SlabAlloc.freeSlab]
      simp only [SlabAlloc.setSlab, hcur, ne_eq, not_true, if_false] at hpos ⊢
      exact if_neg (by omega)
    · rw [Room, show (s.setSlab a .cleared).curSlab = a from hcur.symm, hself]
      decide
  · have hinv := hi.push ha hcur hfree hself hempty
    have hpos := hinv.liveSlabs_pos
    refine ⟨_, ?_, hinv, ?_⟩
    · rw [SlabAlloc.freeSlab]
      simp only [SlabAlloc.setSlab, hcur, ne_eq, not_false_iff, if_true] at hpos ⊢
      exact if_neg (by omega)
    · have hkept : (s.setSlab a .cleared).slab s.curSlab = s.slab s.curSlab :=
        Function.update_of_ne (Ne.symm hcur) _ _
      rw [Room]
      simp only [SlabAlloc.setSlab] at hkept ⊢
      rw [hkept]
      exact hroom hcur

/-- The slab of an element whose freeing leaves it empty is cleared. -/
theorem Inv.emptied (hi : h.Inv) {elem : Nat × Nat} (helem : elem ∈ h.live)
    (hlast : (elemsIn (maskSlab elem.1) h.live).length = 1) :
    Inv ⟨h.alloc.setSlab (maskSlab elem.1) .cleared, h.slabs, h.live.erase elem⟩ ∧
      elemsIn (maskSlab elem.1) (h.live.erase elem) = [] := by
  have hempty : elemsIn (maskSlab elem.1) (h.live.erase elem) = [] := by
    have hlen := length_elemsIn_erase helem
    rw [hlast] at hlen
    exact List.length_eq_zero_iff.mp (Nat.succ.inj hlen)
  refine ⟨hi.setSlab (hi.inside elem helem).1 (fun hf => ?_) (fun b hb => ?_) (by decide) ?_ ?_
    (fun e he hea => ?_) (hi.disjoint.sublist List.erase_sublist), hempty⟩
  · rw [(hi.freed _ hf).2] at hlast
    cases hlast
  · rw [elemsIn_erase]
    exact List.erase_of_not_mem fun hmem => hb (mem_elemsIn.mp hmem).2.symm
  · rw [hempty]
    rfl
  · rw [bytesIn, hempty]
    exact Nat.zero_le _
  · have hmem : e ∈ elemsIn (maskSlab elem.1) (h.live.erase elem) := mem_elemsIn.mpr ⟨he, hea⟩
    rw [hempty] at hmem
    cases hmem

theorem bytesIn_erase_le (a : Nat) (elem : Nat × Nat) (live : List (Nat × Nat)) :
    bytesIn a (live.erase elem) ≤ bytesIn a live := by
  rw [bytesIn, elemsIn_erase]
  exact (List.erase_sublist.map Prod.snd).sum_le_sum fun _ _ => Nat.zero_le _

theorem Inv.shrunk (hi : h.Inv) {elem : Nat × Nat} (helem : elem ∈ h.live) {n : Nat}
    (hn : n = ((elemsIn (maskSlab elem.1) (h.live.erase elem)).length) % 2 ^ 32) :
    Inv ⟨h.alloc.setSlab (maskSlab elem.1) ⟨n, (h.alloc.slab (maskSlab elem.1)).usedBytes⟩,
      h.slabs, h.live.erase elem⟩ := by
  have hslab := (hi.inside elem helem).1
  refine hi.setSlab hslab (fun hf => ?_) (fun b hb => ?_) (hi.used _ hslab) hn
    (le_trans (bytesIn_erase_le _ _ _) (hi.bytes _ hslab)) (fun e he hea => ?_)
    (hi.disjoint.sublist List.erase_sublist)
  · have hmem : elem ∈ elemsIn (maskSlab elem.1) h.live := mem_elemsIn.mpr ⟨helem, rfl⟩
    rw [(hi.freed _ hf).2] at hmem
    cases hmem
  · rw [elemsIn_erase]
    exact List.erase_of_not_mem fun hmem => hb (mem_elemsIn.mp hmem).2.symm
  · have hmem := List.mem_of_mem_erase he
    have hin := hi.inside e hmem
    have hbelow := hi.below e hmem
    rw [hea] at hin hbelow
    exact ⟨hin.2.1, hin.2.2, hbelow⟩

theorem Inv.free (hi : h.Inv) (hroom : h.Room) {elem : Nat × Nat} (helem : elem ∈ h.live)
    (hfew : h.FewerThanBytes (.free elem)) :
    ∃ h', h.step (.free elem) = some h' ∧ h'.Inv ∧ h'.Room := by
  have hlive := hi.liveElems_eq helem hfew
  have herase := length_elemsIn_erase helem
  have hused := hi.used _ (hi.inside elem helem).1
  have hbuf : 2 * bufSize < 2 ^ 32 := by decide
  rw [FewerThanBytes] at hfew
  have hguard : (elemsIn (maskSlab elem.1) h.live).length ≠ 0 ∧
      (elemsIn (maskSlab elem.1) h.live).length <
        (h.alloc.slab (maskSlab elem.1)).usedBytes := ⟨by omega, hfew⟩
  have hfree : ∃ s, h.alloc.freeElem elem.1 = some s ∧ Inv ⟨s, h.slabs, h.live.erase elem⟩ ∧
      Room ⟨s, h.slabs, h.live.erase elem⟩ := by
    rw [SlabAlloc.freeElem]
    simp only [hlive, if_pos hguard]
    by_cases hlast : (elemsIn (maskSlab elem.1) h.live).length = 1
    · obtain ⟨hinv, hempty⟩ := hi.emptied helem hlast
      have hnotfree : maskSlab elem.1 ∉ h.alloc.freeList := by
        intro hf
        rw [(hi.freed _ hf).2] at hlast
        cases hlast
      rw [if_pos hlast]
      refine Inv.freeSlab (by rwa [setSlab_setSlab]) (hi.inside elem helem).1 hnotfree hempty ?_
      intro hne
      rw [Room] at hroom
      have hne' : h.alloc.curSlab ≠ maskSlab elem.1 := Ne.symm hne
      simpa only [SlabAlloc.setSlab, Function.update_of_ne hne'] using hroom
    · rw [if_neg hlast]
      refine ⟨_, rfl, hi.shrunk helem (by omega), ?_⟩
      rw [Room] at hroom ⊢
      by_cases hcur : h.alloc.curSlab = maskSlab elem.1
      · simpa only [SlabAlloc.setSlab, hcur, Function.update_self] using hroom
      · simpa only [SlabAlloc.setSlab, Function.update_of_ne hcur] using hroom
  obtain ⟨s, hs, hinv, hroom'⟩ := hfree
  exact ⟨_, by rw [step, hs]; rfl, hinv, hroom'⟩

theorem inv_new {mem : Nat → Slab} {gm : Nat} {s : SlabAlloc} (hgm : Delivered [] gm)
    (hnew : SlabAlloc.new mem gm = some s) : Inv ⟨s, [gm], []⟩ ∧ Room ⟨s, [gm], []⟩ := by
  rw [SlabAlloc.new, SlabAlloc.allocSlab] at hnew
  simp only [maskSlab_of_dvd hgm.aligned, ne_eq, not_true, if_false, Option.some.injEq] at hnew
  subst hnew
  have hself : (SlabAlloc.setSlab ⟨mem, 0, [], 0⟩ gm .cleared).slab gm = .cleared :=
    Function.update_self ..
  refine ⟨⟨?_, List.nodup_singleton _, List.mem_singleton_self _, ?_, List.nodup_nil,
    List.not_mem_nil, ?_, rfl, ?_, ?_, ?_, ?_, ?_, List.Pairwise.nil⟩, ?_⟩
  · exact List.forall_mem_singleton.mpr ⟨hgm.aligned, hgm.pos, hgm.bound⟩
  · exact fun a ha => absurd ha List.not_mem_nil
  · exact fun a ha => absurd ha List.not_mem_nil
  · refine List.forall_mem_singleton.mpr ?_
    simp only [hself]
    decide
  · refine List.forall_mem_singleton.mpr ?_
    simp only [hself]
    rfl
  · exact fun a _ => Nat.zero_le _
  · exact fun e he => absurd he List.not_mem_nil
  · exact fun e he => absurd he List.not_mem_nil
  · simp only [Room, hself]
    decide

theorem inv_step (hi : h.Inv) (hroom : h.Room) {op : SlabOp} (hen : h.Enabled op)
    (hfew : h.FewerThanBytes op) : ∃ h', h.step op = some h' ∧ h'.Inv ∧ h'.Room := by
  cases op with
  | alloc sz gm => exact hi.alloc hroom hen
  | free elem => exact hi.free hroom hen hfew

theorem Reachable.inv (hr : Reachable FewerThanBytes h) : h.Inv ∧ h.Room := by
  induction hr with
  | init hgm hnew => exact inv_new hgm hnew
  | step _ hen hc hstep ih =>
    obtain ⟨h', hsome, hinv⟩ := inv_step ih.1 ih.2 hen hc
    rw [hstep] at hsome
    obtain rfl := Option.some.inj hsome
    exact hinv

/-- The assert of `freeElem` fails for a slab with as many live elements as bytes. -/
theorem Inv.fewer_of_step (hi : h.Inv) {elem : Nat × Nat} (helem : elem ∈ h.live)
    (hsmall : (elemsIn (maskSlab elem.1) h.live).length < 2 ^ 32)
    (hstep : (h.step (.free elem)).isSome) : h.FewerThanBytes (.free elem) := by
  obtain ⟨h', hh'⟩ := Option.isSome_iff_exists.mp hstep
  obtain ⟨s, hs, -⟩ := Option.bind_eq_some_iff.mp hh'
  rw [SlabAlloc.freeElem] at hs
  have hcount := hi.count _ (hi.inside elem helem).1
  rw [Nat.mod_eq_of_lt hsmall] at hcount
  simp only [hcount] at hs
  split at hs
  case isTrue hguard => exact hguard.2
  case isFalse => cases hs

theorem two_mul_length_le {es : List (Nat × Nat)} (htwo : ∀ e ∈ es, 2 ≤ e.2) :
    2 * es.length ≤ (es.map Prod.snd).sum := by
  induction es with
  | nil => exact Nat.le_refl _
  | cons e es ih =>
    have hhead := htwo e List.mem_cons_self
    have htail := ih fun e' he' => htwo e' (List.mem_cons_of_mem _ he')
    rw [List.length_cons, List.map_cons, List.sum_cons]
    omega

/-- Elements of two bytes or more are always fewer than the bytes. -/
theorem Inv.fewer_of_two_bytes (hi : h.Inv) {elem : Nat × Nat} (helem : elem ∈ h.live)
    (htwo : ∀ e ∈ elemsIn (maskSlab elem.1) h.live, 2 ≤ e.2) :
    h.FewerThanBytes (.free elem) := by
  have hbytes := hi.bytes _ (hi.inside elem helem).1
  have hlen := two_mul_length_le htwo
  have hpos := List.length_pos_of_mem (mem_elemsIn.mpr ⟨helem, rfl⟩)
  rw [bytesIn] at hbytes
  rw [FewerThanBytes]
  omega

/-- Every state is safe and no assert fails, as long as an element is only freed from a slab with
fewer live elements than bytes; of these the assert fails for as many or more. -/
theorem slab_alloc_safe (hr : Reachable FewerThanBytes h) :
    h.Safe ∧ (∀ op, h.Enabled op → h.FewerThanBytes op → (h.step op).isSome) ∧
      ∀ elem ∈ h.live,
        ((∀ e ∈ elemsIn (maskSlab elem.1) h.live, 2 ≤ e.2) → h.FewerThanBytes (.free elem)) ∧
        ((elemsIn (maskSlab elem.1) h.live).length < 2 ^ 32 → (h.step (.free elem)).isSome →
          h.FewerThanBytes (.free elem)) := by
  obtain ⟨hi, hroom⟩ := hr.inv
  refine ⟨hi.safe, fun op hen hfew => ?_, fun elem helem =>
    ⟨hi.fewer_of_two_bytes helem, hi.fewer_of_step helem⟩⟩
  obtain ⟨h', hstep, -⟩ := inv_step hi hroom hen hfew
  rw [hstep]
  rfl

theorem delivered_first : Delivered [] 65536 :=
  ⟨⟨1, rfl⟩, by decide, by decide, List.not_mem_nil⟩

theorem delivered_second : Delivered [65536] 131072 :=
  ⟨⟨2, rfl⟩, by decide, by decide, by decide⟩

theorem delivered_third : Delivered [131072, 65536] 196608 :=
  ⟨⟨3, rfl⟩, by decide, by decide, by decide⟩

/-- An element that does not fit gets a second slab, and the first one is used again when it has
no live element. -/
theorem slab_alloc_safe_reuse : ∃ h, Reachable FewerThanBytes h ∧
    h.live = [(65552, 30000), (131088, 40000)] ∧ h.alloc.liveSlabs = 2 ∧ h.Safe ∧
    (h.step (.free (131088, 40000))).isSome := by
  have h₀ := @Reachable.init FewerThanBytes (fun _ => .cleared) _ _ delivered_first rfl
  have h₁ := @Reachable.step _ _ _ (.alloc 40000 131072) h₀
    ⟨by decide, delivered_second⟩ trivial rfl
  have h₂ := @Reachable.step _ _ _ (.alloc 40000 131072) h₁
    ⟨by decide, delivered_second⟩ trivial rfl
  have h₃ := @Reachable.step _ _ _ (.free (65552, 40000)) h₂
    (List.mem_cons_of_mem _ List.mem_cons_self) (Nat.le_of_ble_eq_true rfl) rfl
  have h₄ := @Reachable.step _ _ _ (.alloc 30000 196608) h₃ ⟨by decide, delivered_third⟩ trivial rfl
  obtain ⟨hsafe, hsteps, hfew⟩ := slab_alloc_safe h₄
  have hmem : (131088, 40000) ∈ [((65552 : Nat), (30000 : Nat)), (131088, 40000)] :=
    List.mem_cons_of_mem _ List.mem_cons_self
  exact ⟨_, h₄, rfl, rfl, hsafe, hsteps (.free _) hmem ((hfew _ hmem).1
    (show ∀ e ∈ [((131088 : Nat), (40000 : Nat))], 2 ≤ e.2 by decide))⟩

/-- An object of one byte can be allocated, but not freed. -/
theorem one_byte_not_freed : ¬ ∀ h, Reachable (fun _ _ => True) h →
    ∀ op, h.Enabled op → (h.step op).isSome := by
  intro hall
  have hone := hall _ (@Reachable.step _ _ _ (.alloc 1 131072)
    (@Reachable.init _ (fun _ => .cleared) _ _ delivered_first rfl)
    ⟨by decide, delivered_second⟩ trivial rfl)
    (.free (65552, 1)) (List.mem_singleton_self _)
  exact absurd hone (by decide)

end SlabHeap

end ZSim
