import ZSim.PrioQueue
import Mathlib.Tactic.Ring

/-! The window of a priority queue: what its blocks hold, and what enqueuing into a
block and dequeuing from the current one do to it. -/

namespace ZSim

open LinkedList

theorem ctz_spec {occ : BitVec 64} (h : occ ≠ 0#64) :
    ctz occ < 64 ∧ occ.getLsbD (ctz occ) = true ∧ ∀ j < ctz occ, occ.getLsbD j = false := by
  have hex : ∃ i ∈ List.range 64, occ.getLsbD i = true := by
    by_contra hno
    apply h
    ext i hi
    have hbit : ¬ occ.getLsbD i = true := fun hb => hno ⟨i, List.mem_range.mpr hi, hb⟩
    rw [← BitVec.getLsbD_eq_getElem, ← BitVec.getLsbD_eq_getElem]
    simpa using hbit
  obtain ⟨i, hi, hb⟩ := hex
  cases hf : (List.range 64).find? fun i => occ.getLsbD i with
  | none => exact absurd hb (List.find?_eq_none.mp hf i hi)
  | some p =>
    have hctz : ctz occ = p := by simp [ctz, hf]
    rw [List.find?_range_eq_some] at hf
    rw [hctz]
    exact ⟨List.mem_range.mp hf.2.1, hf.1, fun j hj => by simpa using hf.2.2 j hj⟩

namespace PrioQueue

variable {T : Type} {B : Nat} {q q' : PrioQueue T} {N : Multiset (T × Nat)}
  {obj : T} {c : Nat}

/-- The head of the list for cycle `c`. -/
def slot (B : Nat) (q : PrioQueue T) (c : Nat) : Option T :=
  (q.blocks (c / 64 % B)).array (c % 64)

def InWindow (B : Nat) (q : PrioQueue T) (c : Nat) : Prop :=
  q.curBlock ≤ c / 64 ∧ c / 64 < q.curBlock + B

/-- The blocks hold exactly the pairs of `N`, each in the list of its cycle, and the bit
of a slot says whether its list is empty. -/
structure Near (B : Nat) (q : PrioQueue T) (N : Multiset (T × Nat)) : Prop where
  nodup : (N.map Prod.fst).Nodup
  window : ∀ x ∈ N, InWindow B q x.2
  linked : ∀ c, InWindow B q c → ∃ l, Linked q.next (slot B q c) l ∧ l.Nodup ∧
    ∀ x, x ∈ l ↔ (x, c) ∈ N
  occ : ∀ c, InWindow B q c →
    (occAt B q (c / 64)).getLsbD (c % 64) = (slot B q c).isSome
  idle : ∀ x, (∀ y ∈ N, y.1 ≠ x) → q.next x = none

theorem window_inj {c c' : Nat} (h : InWindow B q c) (h' : InWindow B q c')
    (hb : c / 64 % B = c' / 64 % B) (ho : c % 64 = c' % 64) : c = c' := by
  obtain ⟨hle, hlt⟩ := h
  obtain ⟨hle', hlt'⟩ := h'
  have hblk : c / 64 = c' / 64 := by
    rcases Nat.le_total (c / 64) (c' / 64) with hcc | hcc
    · have hd : (c' / 64 - c / 64) % B = 0 := (Nat.modEq_iff_dvd' hcc).mp hb |> Nat.mod_eq_zero_of_dvd
      rw [Nat.mod_eq_of_lt (by omega)] at hd
      omega
    · have hd : (c / 64 - c' / 64) % B = 0 :=
        (Nat.modEq_iff_dvd' hcc).mp hb.symm |> Nat.mod_eq_zero_of_dvd
      rw [Nat.mod_eq_of_lt (by omega)] at hd
      omega
  omega

theorem fst_inj (hnd : (N.map Prod.fst).Nodup) {x y : T × Nat} (hx : x ∈ N) (hy : y ∈ N)
    (h : x.1 = y.1) : x = y :=
  Multiset.inj_on_of_nodup_map hnd x hx y hy h

namespace Near

theorem slot_isSome (h : Near B q N) (hw : InWindow B q c) :
    (slot B q c).isSome = true ↔ ∃ x, (x, c) ∈ N := by
  obtain ⟨l, hl, -, hmem⟩ := h.linked c hw
  rw [hl.isSome_iff]
  constructor
  · intro hne
    obtain ⟨x, hx⟩ := List.exists_mem_of_ne_nil l hne
    exact ⟨x, (hmem x).mp hx⟩
  · rintro ⟨x, hx⟩ rfl
    exact absurd ((hmem x).mpr hx) List.not_mem_nil

theorem bit_iff (h : Near B q N) (hw : InWindow B q c) :
    (occAt B q (c / 64)).getLsbD (c % 64) = true ↔ ∃ x, (x, c) ∈ N := by
  rw [h.occ c hw]
  exact h.slot_isSome hw

theorem block_ne (h : Near B q N) {n : Nat} (hocc : occAt B q n = 0#64) {x : T × Nat}
    (hx : x ∈ N) : x.2 / 64 ≠ n := by
  intro hn
  have hbit := (h.bit_iff (h.window x hx)).mpr ⟨x.1, hx⟩
  rw [hn, hocc] at hbit
  simp at hbit

theorem block_first (h : Near B q N) {n : Nat} (hle : q.curBlock ≤ n) (hlt : n < q.curBlock + B)
    (hocc : occAt B q n ≠ 0#64) :
    (∃ x, (x, n * 64 + ctz (occAt B q n)) ∈ N) ∧
      ∀ x ∈ N, n * 64 ≤ x.2 → n * 64 + ctz (occAt B q n) ≤ x.2 := by
  obtain ⟨hpos, hbit, hlow⟩ := ctz_spec hocc
  have hw : ∀ p < 64, InWindow B q (n * 64 + p) := by
    intro p hp
    have : (n * 64 + p) / 64 = n := by omega
    exact ⟨by omega, by omega⟩
  have hat : ∀ p < 64, (occAt B q n).getLsbD p = true ↔ ∃ x, (x, n * 64 + p) ∈ N := by
    intro p hp
    have hb := h.bit_iff (hw p hp)
    rwa [show (n * 64 + p) / 64 = n by omega, show (n * 64 + p) % 64 = p by omega] at hb
  refine ⟨(hat _ hpos).mp hbit, fun x hx hn => ?_⟩
  by_contra hlt'
  have hp : x.2 - n * 64 < ctz (occAt B q n) := by omega
  have hset := (hat (x.2 - n * 64) (by omega)).mpr
    ⟨x.1, by rw [show n * 64 + (x.2 - n * 64) = x.2 by omega]; exact hx⟩
  rw [hlow _ hp] at hset
  cases hset

end Near

theorem getLsbD_one_shiftLeft {pos p : Nat} (hp : p < 64) :
    (1#64 <<< pos).getLsbD p = decide (p = pos) := by
  rw [BitVec.getLsbD_shiftLeft, BitVec.getLsbD_one, Bool.eq_iff_iff]
  simp only [Bool.and_eq_true, Bool.not_eq_true', decide_eq_true_eq, decide_eq_false_iff_not]
  omega

section Store

variable {b : PQBlock T} {v : Option T} {c' : Nat}

/-- Writing the slot of `c` leaves the other cycles of the window alone. -/
theorem slot_store (hq : q'.blocks = Function.update q.blocks (c / 64 % B) b)
    (hb : b.array = Function.update (q.blocks (c / 64 % B)).array (c % 64) v)
    (hw : InWindow B q c) (hw' : InWindow B q c') :
    slot B q' c' = if c' = c then v else slot B q c' := by
  simp only [slot, hq]
  by_cases hblk : c' / 64 % B = c / 64 % B
  · rw [hblk, Function.update_self, hb]
    by_cases hoff : c' % 64 = c % 64
    · rw [if_pos (window_inj hw' hw hblk hoff), hoff, Function.update_self]
    · rw [if_neg fun he => hoff (by rw [he]), Function.update_of_ne hoff]
  · rw [if_neg fun he => hblk (by rw [he]), Function.update_of_ne hblk]

theorem bit_store (hq : q'.blocks = Function.update q.blocks (c / 64 % B) b)
    (hb : ∀ p < 64, b.occ.getLsbD p =
      if p = c % 64 then v.isSome else (q.blocks (c / 64 % B)).occ.getLsbD p)
    (hw : InWindow B q c) (hw' : InWindow B q c') :
    (occAt B q' (c' / 64)).getLsbD (c' % 64) =
      if c' = c then v.isSome else (occAt B q (c' / 64)).getLsbD (c' % 64) := by
  simp only [occAt, hq]
  by_cases hblk : c' / 64 % B = c / 64 % B
  · rw [hblk, Function.update_self, hb _ (Nat.mod_lt _ (by omega))]
    by_cases hoff : c' % 64 = c % 64
    · rw [if_pos (window_inj hw' hw hblk hoff), if_pos hoff]
    · rw [if_neg hoff, if_neg fun he => hoff (by rw [he])]
  · rw [if_neg fun he => hblk (by rw [he]), Function.update_of_ne hblk]

end Store

variable [DecidableEq T]

theorem Near.place (h : Near B q N) (hw : InWindow B q c) (hfresh : ∀ y ∈ N, y.1 ≠ obj) :
    ∃ q', place B q obj c = some q' ∧ Near B q' ((obj, c) ::ₘ N) ∧
      q'.curBlock = q.curBlock ∧ q'.feMap = q.feMap ∧ q'.elems = q.elems := by
  set i := c / 64 % B with hi
  set pos := c % 64 with hpos
  set b : PQBlock T := ⟨Function.update (q.blocks i).array pos (some obj),
    (q.blocks i).occ ||| (1#64 <<< pos)⟩ with hb
  set q' : PrioQueue T := { q with
    blocks := Function.update q.blocks i b
    next := Function.update q.next obj (slot B q c) } with hq'
  have hplace : PrioQueue.place B q obj c = some q' := by
    simp only [PrioQueue.place, PQBlock.enqueue, h.idle obj hfresh, if_true, Option.map_some]
    rfl
  have hslot : ∀ c', InWindow B q c' → slot B q' c' = if c' = c then some obj else slot B q c' :=
    fun c' hw' => slot_store rfl rfl hw hw'
  have hbits : ∀ p < 64, b.occ.getLsbD p =
      if p = pos then true else (q.blocks i).occ.getLsbD p := by
    intro p hp
    rw [hb, BitVec.getLsbD_or, getLsbD_one_shiftLeft hp]
    by_cases he : p = pos
    · rw [if_pos he, decide_eq_true he, Bool.or_true]
    · rw [if_neg he, decide_eq_false he, Bool.or_false]
  refine ⟨q', hplace, ?_, rfl, rfl, rfl⟩
  constructor
  · rw [Multiset.map_cons, Multiset.nodup_cons]
    refine ⟨fun hmem => ?_, h.nodup⟩
    obtain ⟨y, hy, he⟩ := Multiset.mem_map.mp hmem
    exact hfresh y hy he
  · intro x hx
    rcases Multiset.mem_cons.mp hx with rfl | hx
    · exact hw
    · exact h.window x hx
  · intro c' hw'
    obtain ⟨l, hl, hnd, hmem⟩ := h.linked c' hw'
    have hout : obj ∉ l := fun hx => hfresh _ ((hmem obj).mp hx) rfl
    rw [hslot c' hw']
    by_cases hc : c' = c
    · rw [if_pos hc]
      subst hc
      refine ⟨obj :: l, hl.push hout, List.nodup_cons.mpr ⟨hout, hnd⟩, fun x => ?_⟩
      rw [List.mem_cons, Multiset.mem_cons, hmem x, Prod.mk.injEq]
      simp
    · rw [if_neg hc]
      refine ⟨l, hl.update hout _, hnd, fun x => ?_⟩
      rw [Multiset.mem_cons, hmem x, Prod.mk.injEq]
      simp [hc]
  · intro c' hw'
    rw [bit_store (v := some obj) rfl hbits hw hw', hslot c' hw', h.occ c' hw']
    split <;> rfl
  · intro x hx
    have hne : x ≠ obj := fun he => hx _ (Multiset.mem_cons_self _ _) he.symm
    show Function.update q.next obj (slot B q c) x = none
    rw [Function.update_of_ne hne]
    exact h.idle x fun y hy => hx y (Multiset.mem_cons_of_mem hy)

/-- The current block, once populated, gives up the first object of its first slot. -/
theorem Near.take (h : Near B q N) (hB : 0 < B) (hocc : occAt B q q.curBlock ≠ 0#64)
    (hlt : ∀ x ∈ N, x.2 < 2 ^ 64) :
    ∃ x c q', take B q = some (x, c, q') ∧ (x, c) ∈ N ∧ (∀ y ∈ N, c ≤ y.2) ∧
      Near B q' (N.erase (x, c)) ∧
      q'.curBlock = q.curBlock ∧ q'.feMap = q.feMap ∧ q'.elems = q.elems - 1 := by
  obtain ⟨hpos, hbit, -⟩ := ctz_spec hocc
  obtain ⟨⟨x₀, hx₀⟩, hmin⟩ := h.block_first (Nat.le_refl _) (Nat.lt_add_of_pos_right hB) hocc
  set pos := ctz (occAt B q q.curBlock) with hposdef
  set i := q.curBlock % B with hi
  set c := q.curBlock * 64 + pos with hc
  have hdiv : c / 64 = q.curBlock := by omega
  have hmod : c % 64 = pos := by omega
  have hw : InWindow B q c := ⟨by omega, by omega⟩
  obtain ⟨l, hl, hnd, hmem⟩ := h.linked c hw
  obtain ⟨x, l, rfl⟩ : ∃ x l', l = x :: l' :=
    List.exists_cons_of_ne_nil (List.ne_nil_of_mem ((hmem x₀).mpr hx₀))
  have hxN : (x, c) ∈ N := (hmem x).mp List.mem_cons_self
  obtain ⟨hxl, hndl⟩ := List.nodup_cons.mp hnd
  set b : PQBlock T := ⟨Function.update (q.blocks i).array pos (q.next x),
    if (q.next x).isNone then (q.blocks i).occ ^^^ (1#64 <<< pos) else (q.blocks i).occ⟩ with hb
  set q' : PrioQueue T := { q with
    blocks := Function.update q.blocks i b
    next := Function.update q.next x none
    elems := q.elems - 1 } with hq'
  have htake : PrioQueue.take B q = some (x, c, q') := by
    have hhead : (q.blocks i).array pos = some x := by
      have := hl.1
      rwa [slot, hdiv, hmod] at this
    have hne : (q.blocks i).occ ≠ 0#64 := hocc
    have hctz : ctz (q.blocks i).occ = pos := rfl
    simp only [PrioQueue.take, PQBlock.dequeue, ← hi, hne, if_false, hctz, hhead, Option.map_some]
    rw [Nat.mod_eq_of_lt (hlt _ hxN)]
  have hslot : ∀ c', InWindow B q c' →
      slot B q' c' = if c' = c then q.next x else slot B q c' := fun c' hw' =>
    slot_store (b := b) (by rw [hdiv]) (by rw [hdiv, hmod]) hw hw'
  have hbits : ∀ p < 64, b.occ.getLsbD p =
      if p = pos then (q.next x).isSome else (q.blocks i).occ.getLsbD p := by
    intro p hp
    have hset : (q.blocks i).occ.getLsbD pos = true := hbit
    cases hnx : q.next x with
    | none =>
      simp only [hb, hnx, Option.isNone_none, if_true, BitVec.getLsbD_xor,
        getLsbD_one_shiftLeft hp]
      by_cases he : p = pos
      · simp [he, hset]
      · simp [he]
    | some y =>
      simp only [hb, hnx, Option.isNone_some, Option.isSome_some, Bool.false_eq_true, if_false]
      by_cases he : p = pos
      · rw [he, if_pos rfl, hset]
      · rw [if_neg he]
  have hNnd : N.Nodup := Multiset.Nodup.of_map _ h.nodup
  refine ⟨x, c, q', htake, hxN, fun y hy => hmin y hy ?_, ?_, rfl, rfl, rfl⟩
  · have := (h.window y hy).1
    omega
  constructor
  · exact Multiset.nodup_of_le (Multiset.map_le_map (Multiset.erase_le _ _)) h.nodup
  · exact fun y hy => h.window y (Multiset.mem_of_mem_erase hy)
  · intro c' hw'
    rw [hslot c' hw']
    by_cases hcc : c' = c
    · subst hcc
      rw [if_pos rfl]
      refine ⟨l, hl.pop hxl, hndl, fun y => ?_⟩
      rw [hNnd.mem_erase_iff, ← hmem y, List.mem_cons]
      constructor
      · intro hy
        exact ⟨fun he => hxl (by cases he; exact hy), .inr hy⟩
      · rintro ⟨hne, rfl | hy⟩
        · exact absurd rfl hne
        · exact hy
    · rw [if_neg hcc]
      obtain ⟨l', hl', hnd', hmem'⟩ := h.linked c' hw'
      have hout : x ∉ l' := by
        intro hx
        have := fst_inj h.nodup ((hmem' x).mp hx) hxN rfl
        exact hcc (congrArg Prod.snd this)
      refine ⟨l', hl'.update hout none, hnd', fun y => ?_⟩
      rw [hNnd.mem_erase_iff, ← hmem' y]
      constructor
      · intro hy
        exact ⟨fun he => hcc (congrArg Prod.snd he), hy⟩
      · exact fun hy => hy.2
  · intro c' hw'
    rw [bit_store (v := q.next x) (b := b) (by rw [hdiv]) (by rw [hdiv, hmod]; exact hbits) hw hw',
      hslot c' hw', h.occ c' hw']
    split <;> rfl
  · intro y hy
    show Function.update q.next x none y = none
    by_cases he : y = x
    · rw [he, Function.update_self]
    · rw [Function.update_of_ne he]
      apply h.idle
      intro z hz hzy
      refine hy z (hNnd.mem_erase_iff.mpr ⟨fun heq => he ?_, hz⟩) hzy
      rw [← hzy, heq]

end PrioQueue

end ZSim
