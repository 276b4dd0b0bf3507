import ZSim.TimingEvent
import ZSim.LinkedList
import Mathlib.Data.List.Perm.Subperm
import Mathlib.Data.List.Range

/-! The children of an event in the union, one block or a chain of blocks: adding one
keeps those there are, and a visit goes over each once. -/

namespace ZSim

open LinkedList

namespace EventHeap

variable {E : Type} {h h' : EventHeap E} {e : E} {chain : List Nat} {l : List E}

/-- The blocks hold `l`, the last block first and every other one full. -/
def Stored (blocks : Nat → TimingEventBlock E) : List Nat → List E → Prop
  | [], l => l = []
  | b :: bs, l => ∃ old new, l = old ++ new ∧ Stored blocks bs old ∧ 3 ∣ old.length ∧
      0 < new.length ∧ new.length ≤ 3 ∧ ∀ i, (blocks b).events i = new[i]?

/-- Event `e` has the children `l`, stored in the blocks `chain`. -/
structure ChildrenRep (h : EventHeap E) (e : E) (chain : List Nat) (l : List E) : Prop where
  num : (h.events e).numChildren = l.length
  one : ∀ c, l = [c] → (h.events e).child = .child c
  few : l.length < 2 → chain = []
  many : 2 ≤ l.length → ∃ b bs, chain = b :: bs ∧ (h.events e).child = .children b ∧
    Linked (fun b => (h.blocks b).next) (some b) chain ∧ Stored h.blocks chain l

/-- Every event has its children, in blocks of its own. -/
structure ChildrenOk (h : EventHeap E) (chain : E → List Nat) (kids : E → List E) : Prop where
  rep : ∀ e, ChildrenRep h e (chain e) (kids e)
  nodup : ∀ e, (chain e).Nodup
  allocated : ∀ e, ∀ b ∈ chain e, b < h.numBlocks
  disjoint : ∀ e e', e ≠ e' → ∀ b ∈ chain e, b ∉ chain e'

theorem visitBlock_eq {b : TimingEventBlock E} {new : List E} (hlen : new.length ≤ 3)
    (h : ∀ i, b.events i = new[i]?) : visitBlock b = new := by
  have hmap : (List.range 3).map b.events = [new[0]?, new[1]?, new[2]?] := by
    simp [List.range_succ, h]
  rw [visitBlock, hmap]
  match new, hlen with
  | [], _ => rfl
  | [_], _ => rfl
  | [_, _], _ => rfl
  | [_, _, _], _ => rfl
  | _ :: _ :: _ :: _ :: _, hlen =>
    simp only [List.length_cons] at hlen
    omega

theorem visitBlocks_perm {head : Option Nat} {k : Nat}
    (hlink : Linked (fun b => (h.blocks b).next) head chain) (hst : Stored h.blocks chain l)
    (hk : chain.length ≤ k) : ∃ v, visitBlocks h k head = some v ∧ v.Perm l := by
  induction chain generalizing head k l with
  | nil =>
    rw [linked_nil.mp hlink, hst]
    exact ⟨[], by rw [visitBlocks], List.Perm.refl _⟩
  | cons b bs ih =>
    obtain ⟨rfl, hnext⟩ := hlink
    obtain ⟨old, new, rfl, hold, _, _, hlen, hev⟩ := hst
    obtain ⟨k, rfl⟩ : ∃ j, k = j + 1 := ⟨k - 1, by rw [List.length_cons] at hk; omega⟩
    obtain ⟨v, hv, hp⟩ := ih (k := k) hnext hold (Nat.le_of_succ_le_succ hk)
    refine ⟨new ++ v, ?_, ?_⟩
    · have hv' : visitBlocks h k (h.blocks b).next = some v := hv
      rw [visitBlocks, hv', visitBlock_eq hlen hev]
      rfl
    · exact (hp.append_left new).trans List.perm_append_comm

theorem length_le_of_nodup {n : Nat} {bs : List Nat} (hnd : bs.Nodup) (hlt : ∀ b ∈ bs, b < n) :
    bs.length ≤ n := by
  have hsub : bs.Subperm (List.range n) :=
    List.subperm_of_subset hnd fun b hb => List.mem_range.mpr (hlt b hb)
  simpa using hsub.length_le

theorem ChildrenOk.visit {chain : E → List Nat} {kids : E → List E} (hok : ChildrenOk h chain kids)
    (e : E) : ∃ v, visitChildren h e = some v ∧ v.Perm (kids e) := by
  have hrep := hok.rep e
  have hnum := hrep.num
  rw [visitChildren, hnum]
  match hl : kids e with
  | [] => exact ⟨[], rfl, List.Perm.refl _⟩
  | [c] =>
    have hone := hrep.one c hl
    exact ⟨[c], by simp [hone], List.Perm.refl _⟩
  | c :: d :: l =>
    obtain ⟨b, bs, hchain, hchild, hlink, hst⟩ := hrep.many (by rw [hl]; simp)
    have hlen := length_le_of_nodup (hok.nodup e) (hok.allocated e)
    obtain ⟨v, hv, hp⟩ := visitBlocks_perm (k := h.numBlocks + 1) hlink hst (by omega)
    rw [hl] at hp
    refine ⟨v, ?_, hp⟩
    have hvl := hp.length_eq
    rw [if_neg (by simp), if_neg (by simp)]
    simp only [hchild, hv, Option.bind_some]
    rw [if_pos hvl]

theorem ChildrenOk.congr {chain : E → List Nat} {kids : E → List E} (hok : ChildrenOk h chain kids)
    (hblocks : h'.blocks = h.blocks) (hnum : h'.numBlocks = h.numBlocks)
    (hev : ∀ e, (h'.events e).child = (h.events e).child ∧
      (h'.events e).numChildren = (h.events e).numChildren) : ChildrenOk h' chain kids := by
  constructor
  · intro e
    obtain ⟨hchild, hn⟩ := hev e
    obtain ⟨h1, h2, h3, h4⟩ := hok.rep e
    rw [← hn] at h1
    rw [← hchild] at h2 h4
    rw [← hblocks] at h4
    exact ⟨h1, h2, h3, h4⟩
  · exact hok.nodup
  · rw [hnum]
    exact hok.allocated
  · exact hok.disjoint

theorem Stored.congr {blocks blocks' : Nat → TimingEventBlock E} (hst : Stored blocks chain l)
    (heq : ∀ b ∈ chain, blocks' b = blocks b) : Stored blocks' chain l := by
  induction chain generalizing l with
  | nil => exact hst
  | cons b bs ih =>
    obtain ⟨old, new, hl, hold, hdvd, hpos, hlen, hev⟩ := hst
    refine ⟨old, new, hl, ih hold fun c hc => heq c (List.mem_cons_of_mem b hc), hdvd, hpos, hlen,
      fun i => ?_⟩
    rw [heq b List.mem_cons_self]
    exact hev i

theorem linked_congr {next next' : Nat → Option Nat} {head : Option Nat}
    (hlink : Linked next head chain) (heq : ∀ b ∈ chain, next' b = next b) :
    Linked next' head chain := by
  induction chain generalizing head with
  | nil => exact hlink
  | cons b bs ih =>
    obtain ⟨hb, hnext⟩ := hlink
    refine ⟨hb, ?_⟩
    rw [heq b List.mem_cons_self]
    exact ih hnext fun c hc => heq c (List.mem_cons_of_mem b hc)

theorem ChildrenRep.congr (hrep : ChildrenRep h e chain l) (hev : h'.events e = h.events e)
    (heq : ∀ b ∈ chain, h'.blocks b = h.blocks b) : ChildrenRep h' e chain l := by
  constructor
  · rw [hev]
    exact hrep.num
  · rw [hev]
    exact hrep.one
  · exact hrep.few
  · intro hl
    obtain ⟨b, bs, hc, hchild, hlink, hst⟩ := hrep.many hl
    refine ⟨b, bs, hc, by rw [hev]; exact hchild, ?_, hst.congr heq⟩
    exact linked_congr hlink fun b hb => by rw [heq b hb]

variable {chains : E → List Nat} {kids : E → List E} {p c : E}

theorem newBlock_blocks (hok : ChildrenOk h chains kids) (b : TimingEventBlock E) (e : E) :
    ∀ x ∈ chains e, (h.newBlock b).blocks x = h.blocks x :=
  fun x hx => Function.update_of_ne (Nat.ne_of_lt (hok.allocated e x hx)) _ _

theorem getElem?_pair (a b : E) (i : Nat) :
    Function.update (Function.update (fun _ => none) 0 (some a)) 1 (some b) i = [a, b][i]? := by
  match i with
  | 0 => rfl
  | 1 => rfl
  | i + 2 => simp

theorem getElem?_single (a : E) (i : Nat) :
    Function.update (fun _ => none) 0 (some a) i = [a][i]? := by
  match i with
  | 0 => rfl
  | i + 1 => simp

theorem getElem?_concat (new : List E) (a : E) (i : Nat) :
    Function.update (fun i => new[i]?) new.length (some a) i = (new ++ [a])[i]? := by
  by_cases hi : i = new.length
  · subst hi
    simp
  · rw [Function.update_of_ne hi, List.getElem?_append]
    by_cases hlt : i < new.length
    · rw [if_pos hlt]
    · rw [if_neg hlt, List.getElem?_eq_none (Nat.le_of_not_lt hlt),
        List.getElem?_eq_none (by simp; omega)]

theorem concat_ne_singleton {l : List E} (hlen : 2 ≤ l.length) (c d : E) : l ++ [c] ≠ [d] := by
  intro hd
  have hl := congrArg List.length hd
  rw [List.length_append, List.length_singleton, List.length_singleton] at hl
  omega

variable [DecidableEq E]

/-- A change of the children of one event, in blocks no other event uses. -/
theorem ChildrenOk.update (hok : ChildrenOk h chains kids) {bs : List Nat}
    (hrep : ChildrenRep h' p bs l) (hnd : bs.Nodup) (hlt : ∀ b ∈ bs, b < h'.numBlocks)
    (hdis : ∀ e, e ≠ p → ∀ b ∈ bs, b ∉ chains e) (hev : ∀ e, e ≠ p → h'.events e = h.events e)
    (hblocks : ∀ e, e ≠ p → ∀ b ∈ chains e, h'.blocks b = h.blocks b)
    (hle : h.numBlocks ≤ h'.numBlocks) :
    ChildrenOk h' (Function.update chains p bs) (Function.update kids p l) := by
  constructor
  · intro e
    by_cases he : e = p
    · subst he
      rw [Function.update_self, Function.update_self]
      exact hrep
    · rw [Function.update_of_ne he, Function.update_of_ne he]
      exact (hok.rep e).congr (hev e he) (hblocks e he)
  · intro e
    by_cases he : e = p
    · subst he
      rw [Function.update_self]
      exact hnd
    · rw [Function.update_of_ne he]
      exact hok.nodup e
  · intro e
    by_cases he : e = p
    · subst he
      rw [Function.update_self]
      exact hlt
    · rw [Function.update_of_ne he]
      exact fun b hb => (hok.allocated e b hb).trans_le hle
  · intro e e' hne b hb hb'
    by_cases he : e = p
    · subst he
      rw [Function.update_self] at hb
      rw [Function.update_of_ne (Ne.symm hne)] at hb'
      exact hdis e' (Ne.symm hne) b hb hb'
    · rw [Function.update_of_ne he] at hb
      by_cases he' : e' = p
      · subst he'
        rw [Function.update_self] at hb'
        exact hdis e he b hb' hb
      · rw [Function.update_of_ne he'] at hb'
        exact hok.disjoint e e' hne b hb hb'

theorem setEvent_of_ne (ev : TimingEvent E) (he : e ≠ p) :
    (h.setEvent p ev).events e = h.events e := Function.update_of_ne he _ _

theorem setEvent_self (ev : TimingEvent E) : (h.setEvent p ev).events p = ev :=
  Function.update_self _ _ _

theorem ChildrenOk.storeFirst (hok : ChildrenOk h chains kids) (hl : kids p = []) (c : E) :
    ChildrenOk (h.setEvent p { h.events p with numChildren := 1, child := .child c })
      (Function.update chains p (chains p)) (Function.update kids p (kids p ++ [c])) := by
  have hchain := (hok.rep p).few (by rw [hl]; simp)
  rw [hl]
  apply hok.update
  · refine ⟨?_, ?_, fun _ => hchain, ?_⟩
    · rw [setEvent_self]
      rfl
    · intro d hd
      rw [setEvent_self]
      cases hd
      rfl
    · intro hlen
      simp at hlen
  · exact hok.nodup p
  · exact hok.allocated p
  · exact fun e he b hb => hok.disjoint p e (Ne.symm he) b hb
  · exact fun e he => setEvent_of_ne _ he
  · exact fun _ _ _ _ => rfl
  · exact Nat.le_refl _

theorem ChildrenOk.storeSecond (hok : ChildrenOk h chains kids) {first : E}
    (hl : kids p = [first]) (c : E) :
    ChildrenOk ((h.newBlock ⟨Function.update (Function.update (fun _ => none) 0 (some first)) 1
        (some c), none⟩).setEvent p
        { h.events p with numChildren := 2, child := .children h.numBlocks })
      (Function.update chains p [h.numBlocks]) (Function.update kids p (kids p ++ [c])) := by
  rw [hl]
  apply hok.update
  · refine ⟨?_, ?_, ?_, ?_⟩
    · rw [setEvent_self]
      rfl
    · intro d hd
      simp at hd
    · intro hlen
      simp at hlen
    · intro _
      refine ⟨h.numBlocks, [], rfl, by rw [setEvent_self], ?_, [], [first, c], rfl, rfl,
        by simp, by simp, by simp, fun i => ?_⟩
      · refine ⟨rfl, ?_⟩
        show (Function.update h.blocks h.numBlocks _ h.numBlocks).next = none
        rw [Function.update_self]
      · show (Function.update h.blocks h.numBlocks _ h.numBlocks).events i = _
        rw [Function.update_self]
        exact getElem?_pair first c i
  · exact List.nodup_singleton _
  · intro b hb
    rw [List.mem_singleton.mp hb]
    exact Nat.lt_succ_self _
  · intro e _ b hb hbe
    rw [List.mem_singleton.mp hb] at hbe
    exact Nat.lt_irrefl _ (hok.allocated e _ hbe)
  · exact fun e he => setEvent_of_ne _ he
  · exact fun e _ => newBlock_blocks hok _ e
  · exact Nat.le_succ _

/-- With the first block full, the next child goes into a block in front of it. -/
theorem ChildrenOk.storeInNew (hok : ChildrenOk h chains kids) {b : Nat}
    (hlen : 2 ≤ (kids p).length) (hchild : (h.events p).child = .children b)
    (hidx : (h.events p).numChildren % 3 = 0) (c : E) :
    ChildrenOk ((h.newBlock ⟨Function.update (fun _ => none) 0 (some c), some b⟩).setEvent p
        { h.events p with
          numChildren := (h.events p).numChildren + 1
          child := .children h.numBlocks })
      (Function.update chains p (h.numBlocks :: chains p))
      (Function.update kids p (kids p ++ [c])) := by
  have hnum := (hok.rep p).num
  obtain ⟨b', bs, hchain, hchild', hlink, hst⟩ := (hok.rep p).many hlen
  rw [hchild] at hchild'
  cases hchild'
  apply hok.update
  · refine ⟨?_, ?_, ?_, ?_⟩
    · rw [setEvent_self, List.length_append, hnum]
      rfl
    · exact fun d hd => absurd hd (concat_ne_singleton hlen c d)
    · intro hl
      rw [List.length_append] at hl
      omega
    · intro _
      refine ⟨h.numBlocks, chains p, rfl, by rw [setEvent_self], ?_, kids p, [c], rfl, ?_,
        by rw [← hnum]; omega, by simp, by simp, fun i => ?_⟩
      · refine ⟨rfl, ?_⟩
        show Linked (fun x => (Function.update h.blocks h.numBlocks _ x).next)
          (Function.update h.blocks h.numBlocks _ h.numBlocks).next (chains p)
        rw [Function.update_self]
        refine linked_congr hlink fun x hx => ?_
        rw [Function.update_of_ne (Nat.ne_of_lt (hok.allocated p x hx))]
      · exact hst.congr (newBlock_blocks hok _ p)
      · show (Function.update h.blocks h.numBlocks _ h.numBlocks).events i = _
        rw [Function.update_self]
        exact getElem?_single c i
  · exact List.nodup_cons.mpr ⟨fun hm => Nat.lt_irrefl _ (hok.allocated p _ hm), hok.nodup p⟩
  · intro x hx
    rcases List.mem_cons.mp hx with rfl | hx
    · exact Nat.lt_succ_self _
    · exact Nat.lt_succ_of_lt (hok.allocated p x hx)
  · intro e he x hx hxe
    rcases List.mem_cons.mp hx with rfl | hx
    · exact Nat.lt_irrefl _ (hok.allocated e _ hxe)
    · exact hok.disjoint p e (Ne.symm he) x hx hxe
  · exact fun e he => setEvent_of_ne _ he
  · exact fun e _ => newBlock_blocks hok _ e
  · exact Nat.le_succ _

theorem ChildrenOk.storeInBlock (hok : ChildrenOk h chains kids) {b : Nat}
    (hlen : 2 ≤ (kids p).length) (hchild : (h.events p).child = .children b)
    (hidx : (h.events p).numChildren % 3 ≠ 0) (c : E) :
    ChildrenOk ({ h with blocks := Function.update h.blocks b { h.blocks b with
        events := Function.update (h.blocks b).events ((h.events p).numChildren % 3) (some c)
        } }.setEvent p { h.events p with numChildren := (h.events p).numChildren + 1 })
      (Function.update chains p (chains p)) (Function.update kids p (kids p ++ [c])) := by
  have hnum := (hok.rep p).num
  obtain ⟨b', bs, hchain, hchild', hlink, hst⟩ := (hok.rep p).many hlen
  rw [hchild] at hchild'
  cases hchild'
  have hbs : b ∉ bs := (List.nodup_cons.mp (hchain ▸ hok.nodup p)).1
  rw [hchain] at hst
  obtain ⟨old, new, hon, hold, hdvd, hpos, hnew, hev⟩ := hst
  have hat : (h.events p).numChildren % 3 = new.length := by
    rw [hnum, hon, List.length_append] at hidx ⊢
    omega
  have hlt : new.length < 3 := by omega
  apply hok.update
  · refine ⟨?_, ?_, ?_, ?_⟩
    · rw [setEvent_self, List.length_append, hnum]
      rfl
    · exact fun d hd => absurd hd (concat_ne_singleton hlen c d)
    · intro hl
      rw [List.length_append] at hl
      omega
    · intro _
      refine ⟨b, bs, hchain, by rw [setEvent_self]; exact hchild, ?_, ?_⟩
      · refine linked_congr hlink fun x _ => ?_
        show (Function.update h.blocks b _ x).next = _
        by_cases hx : x = b
        · rw [hx, Function.update_self]
        · rw [Function.update_of_ne hx]
      · rw [hchain]
        refine ⟨old, new ++ [c], by rw [hon, List.append_assoc], ?_, hdvd, by simp, ?_,
          fun i => ?_⟩
        · refine hold.congr fun x hx => ?_
          exact Function.update_of_ne (fun he => hbs (by rw [← he]; exact hx)) _ _
        · rw [List.length_append, List.length_singleton]
          exact hlt
        · show (Function.update h.blocks b _ b).events i = _
          rw [Function.update_self, hat, show (h.blocks b).events = fun i => new[i]? from funext hev]
          exact getElem?_concat new c i
  · exact hok.nodup p
  · exact hok.allocated p
  · exact fun e he x hx => hok.disjoint p e (Ne.symm he) x hx
  · exact fun e he => setEvent_of_ne _ he
  · intro e he x hx
    have hxb : x ≠ b := by
      rintro rfl
      exact hok.disjoint e p he x hx (by rw [hchain]; exact List.mem_cons_self)
    exact Function.update_of_ne hxb _ _
  · exact Nat.le_refl _

/-- Storing a child succeeds, and puts it behind those there are. -/
theorem ChildrenOk.storeChild (hok : ChildrenOk h chains kids) (p c : E) :
    ∃ h' chains' ch n, storeChild h p c = some h' ∧
      ChildrenOk h' chains' (Function.update kids p (kids p ++ [c])) ∧
      h'.events = Function.update h.events p
        { h.events p with child := ch, numChildren := n } := by
  have hrep := hok.rep p
  have hnum := hrep.num
  have hcases : kids p = [] ∨ (∃ first, kids p = [first]) ∨ 2 ≤ (kids p).length := by
    match kids p with
    | [] => exact .inl rfl
    | [first] => exact .inr (.inl ⟨first, rfl⟩)
    | _ :: _ :: _ => exact .inr (.inr (by simp))
  rw [EventHeap.storeChild]
  rcases hcases with hl | ⟨first, hl⟩ | hlen
  · rw [hl] at hnum
    exact ⟨_, _, _, _, if_pos hnum, hok.storeFirst hl c, rfl⟩
  · have hone := hrep.one first hl
    rw [hl] at hnum
    have hn0 : (h.events p).numChildren ≠ 0 := by rw [hnum]; simp
    have hn1 : (h.events p).numChildren = 1 := by rw [hnum]; rfl
    rw [if_neg hn0, if_pos hn1, hone]
    exact ⟨_, _, _, _, rfl, hok.storeSecond hl c, rfl⟩
  · obtain ⟨b, bs, hchain, hchild, -⟩ := hrep.many hlen
    have hn0 : (h.events p).numChildren ≠ 0 := by omega
    have hn1 : (h.events p).numChildren ≠ 1 := by omega
    rw [if_neg hn0, if_neg hn1]
    by_cases hidx : (h.events p).numChildren % 3 = 0
    · refine ⟨_, _, _, _, ?_, hok.storeInNew hlen hchild hidx c, rfl⟩
      simp only [hchild, hidx, if_true]
    · refine ⟨_, _, _, _, ?_, hok.storeInBlock hlen hchild hidx c, rfl⟩
      simp only [hchild, hidx, if_false]

end EventHeap

end ZSim
