import Mathlib.Data.List.Nodup

/-! A queue in which an entry can be placed behind the last entry of its row, ahead of others, as
long as the entries of the row were placed so no more than a limit of times in a row. An entry is
then overtaken no more often than the limit for each entry ahead of it. -/

namespace ZSim

variable {α β : Type}

/-- Where a new entry is placed. -/
inductive Placed (limit : Nat) (row : α → β) (seq : α → Nat) (n : α) : List α → List α → Prop
  | back (q : List α) : Placed limit row seq n q (q ++ [n])
  | after (pre : List α) (m : α) (post : List α) (hrow : row m = row n)
      (hpost : ∀ x ∈ post, row x ≠ row n) (hseq : seq n = seq m + 1) (hle : seq n ≤ limit) :
      Placed limit row seq n (pre ++ m :: post) (pre ++ m :: n :: post)

theorem Placed.mem_iff {limit : Nat} {row : α → β} {seq : α → Nat} {n x : α} {q q' : List α}
    (h : Placed limit row seq n q q') : x ∈ q' ↔ x = n ∨ x ∈ q := by
  cases h with
  | back => rw [List.mem_append, List.mem_singleton, or_comm]
  | after pre m post hrow hpost hseq hle =>
    simp only [List.mem_append, List.mem_cons]
    tauto

section

variable [DecidableEq α]

def aheadOf (r : α) (q : List α) : List α := q.takeWhile (· ≠ r)

theorem aheadOf_cons_self (r : α) (l : List α) : aheadOf r (r :: l) = [] := by
  simp [aheadOf]

theorem aheadOf_cons_of_ne {r x : α} (h : x ≠ r) (l : List α) :
    aheadOf r (x :: l) = x :: aheadOf r l := by
  simp [aheadOf, h]

theorem aheadOf_append_of_mem {r : α} {l : List α} (h : r ∈ l) (l' : List α) :
    aheadOf r (l ++ l') = aheadOf r l := by
  induction l with
  | nil => cases h
  | cons x l ih =>
    by_cases hx : x = r
    · rw [hx, List.cons_append, aheadOf_cons_self, aheadOf_cons_self]
    · have hmem : r ∈ l := (List.mem_cons.mp h).resolve_left (Ne.symm hx)
      rw [List.cons_append, aheadOf_cons_of_ne hx, aheadOf_cons_of_ne hx, ih hmem]

theorem aheadOf_append_of_not_mem {r : α} {l : List α} (h : r ∉ l) (l' : List α) :
    aheadOf r (l ++ l') = l ++ aheadOf r l' := by
  refine List.takeWhile_append_of_pos fun x hx => decide_eq_true ?_
  rintro rfl
  exact h hx

theorem not_mem_aheadOf (r : α) (q : List α) : r ∉ aheadOf r q := by
  induction q with
  | nil => exact List.not_mem_nil
  | cons x q ih =>
    by_cases hx : x = r
    · rw [hx, aheadOf_cons_self]
      exact List.not_mem_nil
    · rw [aheadOf_cons_of_ne hx, List.mem_cons, not_or]
      exact ⟨Ne.symm hx, ih⟩

theorem aheadOf_subset (r : α) (q : List α) : ∀ x ∈ aheadOf r q, x ∈ q :=
  fun _ hx => (List.takeWhile_sublist _).subset hx

/-- A new entry is the one that is seen to arrive. -/
theorem Placed.new {limit : Nat} {row : α → β} {seq : α → Nat} {n : α} {q q' : List α}
    (h : Placed limit row seq n q q') (hn : n ∉ q) : q'.filter (· ∉ q) = [n] := by
  have hold : ∀ l : List α, (∀ x ∈ l, x ∈ q) → l.filter (· ∉ q) = [] := by
    intro l hl
    refine List.filter_eq_nil_iff.mpr fun x hx => ?_
    rw [decide_eq_true_eq, not_not]
    exact hl x hx
  cases h with
  | back =>
    rw [List.filter_append, hold q fun _ hx => hx, List.nil_append,
      List.filter_cons_of_pos (by simpa using hn), List.filter_nil]
  | after pre m post hrow hpost hseq hle =>
    rw [List.filter_append, hold pre fun _ hx => List.mem_append_left _ hx, List.nil_append,
      List.filter_cons_of_neg (by simp), List.filter_cons_of_pos (by simpa using hn), hold post]
    exact fun x hx => by simp [hx]

/-- What was seen of a queue: the entries that arrived and those that left, each in order, how
many were ahead of an entry when it arrived, and how many were placed ahead of it later. -/
structure QueueLog (α : Type) where
  arrivals : List α
  left : List α
  ahead : α → Nat
  overtaken : α → Nat

namespace QueueLog

def empty : QueueLog α := ⟨[], [], fun _ => 0, fun _ => 0⟩

/-- The queue was seen as `q` and then as `q'`. -/
def note (h : QueueLog α) (q q' : List α) : QueueLog α :=
  let new := q'.filter (· ∉ q)
  { arrivals := h.arrivals ++ new
    left := h.left ++ q.filter (· ∉ q')
    ahead := fun r => if r ∈ new then (aheadOf r q').length else h.ahead r
    overtaken := fun r =>
      if r ∈ q' then h.overtaken r + (aheadOf r q').countP (· ∈ new)
      else h.overtaken r }

end QueueLog

namespace QueueLog

variable {h : QueueLog α} {limit : Nat} {row : α → β} {seq : α → Nat} {q q' : List α} {e n : α}

theorem note_placed (hp : Placed limit row seq n q q') (hn : n ∉ q) :
    h.note q q' =
      { arrivals := h.arrivals ++ [n]
        left := h.left
        ahead := fun r => if r ∈ [n] then (aheadOf r q').length else h.ahead r
        overtaken := fun r =>
          if r ∈ q' then h.overtaken r + (aheadOf r q').countP (· ∈ [n]) else h.overtaken r } := by
  have hleft : q.filter (· ∉ q') = [] := by
    refine List.filter_eq_nil_iff.mpr fun x hx => ?_
    rw [decide_eq_true_eq, not_not]
    exact hp.mem_iff.mpr (Or.inr hx)
  simp only [note, hp.new hn, hleft, List.append_nil]

theorem note_self : h.note q q = h := by
  have hnone : q.filter (· ∉ q) = [] := by
    refine List.filter_eq_nil_iff.mpr fun x hx => ?_
    rw [decide_eq_true_eq, not_not]
    exact hx
  simp only [note, hnone, List.append_nil, List.not_mem_nil, if_false, decide_false,
    List.countP_false, Function.const, Nat.add_zero, ite_self]

theorem note_pop (hnd : (e :: q).Nodup) : h.note (e :: q) q = { h with left := h.left ++ [e] } := by
  have hnew : q.filter (· ∉ e :: q) = [] := by
    refine List.filter_eq_nil_iff.mpr fun x hx => ?_
    rw [decide_eq_true_eq, not_not]
    exact List.mem_cons_of_mem _ hx
  have hleft : (e :: q).filter (· ∉ q) = [e] := by
    rw [List.filter_cons_of_pos (by simpa using (List.nodup_cons.mp hnd).1), List.cons_eq_cons]
    refine ⟨rfl, List.filter_eq_nil_iff.mpr fun x hx => ?_⟩
    rw [decide_eq_true_eq, not_not]
    exact hx
  simp only [note, hnew, hleft, List.append_nil, List.not_mem_nil, if_false,
    decide_false, List.countP_false, Function.const, Nat.add_zero, ite_self]

/-- One look after an entry left and another was placed sees what two looks see. -/
theorem note_pop_placed (hnd : (e :: q).Nodup) (hn : n ∉ e :: q)
    (hp : Placed limit row seq n q q') :
    h.note (e :: q) q' = (h.note (e :: q) q).note q q' := by
  have hnq : n ∉ q := fun hx => hn (List.mem_cons_of_mem _ hx)
  have he : e ∉ q' := by
    intro hx
    rcases hp.mem_iff.mp hx with rfl | hx
    · exact hn List.mem_cons_self
    · exact (List.nodup_cons.mp hnd).1 hx
  have hnew : q'.filter (· ∉ e :: q) = [n] := by
    rw [← hp.new hnq]
    refine List.filter_congr fun x hx => ?_
    have hxe : x ≠ e := by
      rintro rfl
      exact he hx
    simp [hxe]
  have hleft : (e :: q).filter (· ∉ q') = [e] := by
    rw [List.filter_cons_of_pos (by simpa using he), List.cons_eq_cons]
    refine ⟨rfl, List.filter_eq_nil_iff.mpr fun x hx => ?_⟩
    rw [decide_eq_true_eq, not_not]
    exact hp.mem_iff.mpr (Or.inr hx)
  rw [note_pop hnd, note_placed hp hnq]
  simp only [note, hnew, hleft]

end QueueLog

end

section

variable [DecidableEq β]

/-- How often the entries ahead of one can still be followed by others of their rows. -/
def credit (limit : Nat) (row : α → β) (seq : α → Nat) : List α → Nat
  | [] => 0
  | e :: l => (if ∃ x ∈ l, row x = row e then 0 else limit - seq e) + credit limit row seq l

theorem credit_le (limit : Nat) (row : α → β) (seq : α → Nat) (l : List α) :
    credit limit row seq l ≤ limit * l.length := by
  induction l with
  | nil => exact Nat.zero_le _
  | cons e l ih =>
    rw [credit, List.length_cons, Nat.mul_succ]
    split <;> omega

theorem credit_congr {limit : Nat} {row row' : α → β} {seq seq' : α → Nat} {l : List α}
    (h : ∀ x ∈ l, row' x = row x ∧ seq' x = seq x) :
    credit limit row' seq' l = credit limit row seq l := by
  induction l with
  | nil => rfl
  | cons e l ih =>
    have htail : ∀ x ∈ l, row' x = row x ∧ seq' x = seq x :=
      fun x hx => h x (List.mem_cons_of_mem _ hx)
    have hhead := h e List.mem_cons_self
    have hlast : (∃ x ∈ l, row' x = row' e) ↔ ∃ x ∈ l, row x = row e := by
      constructor
      · rintro ⟨x, hx, hrow⟩
        exact ⟨x, hx, (htail x hx).1.symm.trans (hrow.trans hhead.1)⟩
      · rintro ⟨x, hx, hrow⟩
        exact ⟨x, hx, (htail x hx).1.trans (hrow.trans hhead.1.symm)⟩
    rw [credit, credit, ih htail, hhead.2]
    simp only [hlast]

/-- An entry that follows the last of its row uses up one. -/
theorem credit_after {limit : Nat} {row : α → β} {seq : α → Nat} {m n : α} {post : List α}
    (hrow : row m = row n) (hpost : ∀ x ∈ post, row x ≠ row n) (hseq : seq n = seq m + 1)
    (hle : seq n ≤ limit) (pre : List α) :
    credit limit row seq (pre ++ m :: n :: post) + 1 =
      credit limit row seq (pre ++ m :: post) := by
  induction pre with
  | nil =>
    have hm : ¬ ∃ x ∈ post, row x = row m := by
      rintro ⟨x, hx, hrx⟩
      exact hpost x hx (hrx.trans hrow)
    have hn : ¬ ∃ x ∈ post, row x = row n := by
      rintro ⟨x, hx, hrx⟩
      exact hpost x hx hrx
    have hmn : ∃ x ∈ n :: post, row x = row m := ⟨n, List.mem_cons_self, hrow.symm⟩
    simp only [List.nil_append, credit, if_pos hmn, if_neg hm, if_neg hn]
    omega
  | cons e pre ih =>
    have hlast : (∃ x ∈ pre ++ m :: n :: post, row x = row e) ↔
        ∃ x ∈ pre ++ m :: post, row x = row e := by
      constructor
      · rintro ⟨x, hx, hrx⟩
        rcases List.mem_append.mp hx with hx | hx
        · exact ⟨x, List.mem_append_left _ hx, hrx⟩
        · rcases List.mem_cons.mp hx with rfl | hx
          · exact ⟨x, by simp, hrx⟩
          · rcases List.mem_cons.mp hx with rfl | hx
            · exact ⟨m, by simp, hrow.trans hrx⟩
            · exact ⟨x, by simp [hx], hrx⟩
      · rintro ⟨x, hx, hrx⟩
        refine ⟨x, ?_, hrx⟩
        rcases List.mem_append.mp hx with hx | hx
        · exact List.mem_append_left _ hx
        · rcases List.mem_cons.mp hx with rfl | hx
          · simp
          · simp [hx]
    simp only [List.cons_append, credit, hlast]
    omega

end

variable [DecidableEq α] [DecidableEq β]

structure Fair (limit : Nat) (row : α → β) (seq : α → Nat) (q : List α) (h : QueueLog α) :
    Prop where
  nodup : q.Nodup
  known : ∀ x ∈ q, x ∈ h.arrivals
  fresh : ∀ x, x ∉ h.arrivals → h.overtaken x = 0
  bound : ∀ r, h.overtaken r ≤ limit * h.ahead r
  credit : ∀ r ∈ q, h.overtaken r + ZSim.credit limit row seq (aheadOf r q) ≤ limit * h.ahead r
  order : ∀ k, (h.left ++ q).filter (row · = k) = h.arrivals.filter (row · = k)

omit [DecidableEq α] [DecidableEq β] in
theorem Placed.nodup {limit : Nat} {row : α → β} {seq : α → Nat} {n : α} {q q' : List α}
    (h : Placed limit row seq n q q') (hq : q.Nodup) (hn : n ∉ q) : q'.Nodup := by
  cases h with
  | back =>
    refine List.nodup_append.mpr ⟨hq, List.nodup_singleton n, ?_⟩
    intro x hx y hy hxy
    rw [List.mem_singleton.mp hy] at hxy
    exact hn (hxy ▸ hx)
  | after pre m post hrow hpost hseq hle =>
    have hperm : (pre ++ m :: n :: post).Perm (n :: (pre ++ m :: post)) := by
      rw [List.append_cons, List.append_cons pre m post]
      exact List.perm_middle
    exact hperm.nodup_iff.mpr (List.nodup_cons.mpr ⟨hn, hq⟩)

omit [DecidableEq α] in
/-- The new entry is the last one of its row. -/
theorem Placed.filter_row {limit : Nat} {row : α → β} {seq : α → Nat} {n : α} {q q' : List α}
    (h : Placed limit row seq n q q') (k : β) :
    q'.filter (row · = k) = q.filter (row · = k) ++ [n].filter (row · = k) := by
  cases h with
  | back => exact List.filter_append ..
  | after pre m post hrow hpost hseq hle =>
    have hsplit : ∀ l : List α, (pre ++ m :: l).filter (row · = k) =
        (pre ++ [m]).filter (row · = k) ++ l.filter (row · = k) := by
      intro l
      rw [List.append_cons, List.filter_append]
    -- none of the row of the new entry is behind it
    have htail : (n :: post).filter (row · = k) =
        post.filter (row · = k) ++ [n].filter (row · = k) := by
      by_cases hk : row n = k
      · have hnone : post.filter (row · = k) = [] := by
          refine List.filter_eq_nil_iff.mpr fun x hx => ?_
          rw [decide_eq_true_eq, ← hk]
          exact hpost x hx
        rw [List.filter_cons_of_pos (by simpa using hk), hnone, List.nil_append,
          List.filter_cons_of_pos (by simpa using hk), List.filter_nil]
      · rw [List.filter_cons_of_neg (by simpa using hk),
          List.filter_cons_of_neg (by simpa using hk), List.filter_nil, List.append_nil]
    rw [hsplit (n :: post), hsplit post, htail, List.append_assoc]

/-- The entry that was placed is ahead of those behind the one it follows. -/
theorem Placed.overtaken {limit : Nat} {row : α → β} {seq : α → Nat} {n r : α} {q q' : List α}
    (h : Placed limit row seq n q q') (hn : n ∉ q) (hr : r ∈ q) :
    (aheadOf r q').countP (· ∈ [n]) + credit limit row seq (aheadOf r q') ≤
      credit limit row seq (aheadOf r q) := by
  have hnone : ∀ l : List α, (∀ x ∈ l, x ∈ q) → l.countP (· ∈ [n]) = 0 := by
    intro l hl
    refine List.countP_eq_zero.mpr fun x hx => ?_
    rw [decide_eq_true_eq, List.mem_singleton]
    rintro rfl
    exact hn (hl x hx)
  have hsame : aheadOf r q' = aheadOf r q →
      (aheadOf r q').countP (· ∈ [n]) + credit limit row seq (aheadOf r q') ≤
        credit limit row seq (aheadOf r q) := by
    intro heq
    rw [heq, hnone _ (aheadOf_subset r q)]
    exact Nat.le_of_eq (Nat.zero_add _)
  cases h with
  | back => exact hsame (aheadOf_append_of_mem hr _)
  | after pre m post hrow hpost hseq hle =>
    have hnr : n ≠ r := by
      rintro rfl
      exact hn hr
    by_cases hpre : r ∈ pre
    · exact hsame (by rw [aheadOf_append_of_mem hpre, aheadOf_append_of_mem hpre])
    · by_cases hm : m = r
      · refine hsame ?_
        rw [aheadOf_append_of_not_mem hpre, aheadOf_append_of_not_mem hpre, hm, aheadOf_cons_self,
          aheadOf_cons_self]
      · rw [aheadOf_append_of_not_mem hpre, aheadOf_append_of_not_mem hpre,
          aheadOf_cons_of_ne hm, aheadOf_cons_of_ne hm, aheadOf_cons_of_ne hnr]
        have hrest : ∀ x ∈ aheadOf r post, row x ≠ row n :=
          fun x hx => hpost x (aheadOf_subset r post x hx)
        have hcredit := credit_after hrow hrest hseq hle pre
        have hpost' : ∀ x ∈ aheadOf r post, x ∈ pre ++ m :: post := fun x hx =>
          List.mem_append_right _ (List.mem_cons_of_mem _ (aheadOf_subset r post x hx))
        have hmn : m ≠ n := by
          rintro rfl
          exact hn (by simp)
        rw [List.countP_append, List.countP_cons_of_neg (by simpa using hmn),
          List.countP_cons_of_pos (by simp),
          hnone pre fun x hx => List.mem_append_left _ hx, hnone _ hpost']
        omega

namespace Fair

variable {limit : Nat} {row row' : α → β} {seq seq' : α → Nat} {q q' : List α} {h : QueueLog α}

theorem empty : Fair limit row seq [] QueueLog.empty where
  nodup := List.nodup_nil
  known := fun _ hx => hx
  fresh := fun _ _ => rfl
  bound := fun _ => Nat.zero_le _
  credit := fun _ hr => absurd hr List.not_mem_nil
  order := fun _ => rfl

theorem mem_arrivals (hf : Fair limit row seq q h) (x : α) :
    x ∈ h.arrivals ↔ x ∈ h.left ∨ x ∈ q := by
  have hmem : x ∈ (h.left ++ q).filter (row · = row x) ↔
      x ∈ h.arrivals.filter (row · = row x) := by rw [hf.order (row x)]
  simpa only [List.mem_filter, decide_true, and_true, List.mem_append] using hmem.symm

/-- The rows and numbers of entries that did not arrive do not matter. -/
theorem congr (hf : Fair limit row seq q h) (hrow : ∀ x ∈ h.arrivals, row' x = row x)
    (hseq : ∀ x ∈ q, seq' x = seq x) : Fair limit row' seq' q h where
  nodup := hf.nodup
  known := hf.known
  fresh := hf.fresh
  bound := hf.bound
  credit := by
    intro r hr
    rw [credit_congr fun x hx => ⟨hrow x (hf.known x (aheadOf_subset r q x hx)),
      hseq x (aheadOf_subset r q x hx)⟩]
    exact hf.credit r hr
  order := by
    intro k
    have hcongr : ∀ l : List α, (∀ x ∈ l, x ∈ h.arrivals) →
        l.filter (row' · = k) = l.filter (row · = k) :=
      fun l hl => List.filter_congr fun x hx => by rw [hrow x (hl x hx)]
    rw [hcongr _ fun x hx => hx, hcongr, hf.order k]
    exact fun x hx => (hf.mem_arrivals x).mpr (List.mem_append.mp hx)

/-- The first entry leaves. -/
theorem pop {e : α} (hf : Fair limit row seq (e :: q) h) :
    Fair limit row seq q (h.note (e :: q) q) := by
  have hnd := List.nodup_cons.mp hf.nodup
  rw [QueueLog.note_pop hf.nodup]
  refine ⟨hnd.2, fun x hx => hf.known x (List.mem_cons_of_mem _ hx), hf.fresh, hf.bound,
    fun r hr => ?_, fun k => ?_⟩
  · have hne : e ≠ r := by
      rintro rfl
      exact hnd.1 hr
    have hcredit := hf.credit r (List.mem_cons_of_mem _ hr)
    rw [aheadOf_cons_of_ne hne, ZSim.credit] at hcredit
    show h.overtaken r + _ ≤ limit * h.ahead r
    omega
  · simpa only [List.append_assoc, List.singleton_append] using hf.order k

/-- A new entry is placed. -/
theorem place {n : α} (hf : Fair limit row seq q h) (hn : n ∉ h.arrivals)
    (hp : Placed limit row seq n q q') : Fair limit row seq q' (h.note q q') := by
  have hnq : n ∉ q := fun hx => hn (hf.known n hx)
  have hzero : h.overtaken n + (aheadOf n q').countP (· ∈ [n]) = 0 := by
    rw [hf.fresh n hn, List.countP_eq_zero.mpr]
    intro x hx
    rw [decide_eq_true_eq, List.mem_singleton]
    rintro rfl
    exact not_mem_aheadOf x q' hx
  have hcredit : ∀ r ∈ q', (h.note q q').overtaken r + ZSim.credit limit row seq (aheadOf r q') ≤
      limit * (h.note q q').ahead r := by
    intro r hr
    rw [QueueLog.note_placed hp hnq]
    simp only [hr, if_true]
    by_cases hrn : r = n
    · rw [hrn, if_pos (List.mem_singleton_self n), hzero, Nat.zero_add]
      exact credit_le _ _ _ _
    · have hrq : r ∈ q := (hp.mem_iff.mp hr).resolve_left hrn
      rw [if_neg (by simpa using hrn)]
      have hover := hp.overtaken hnq hrq
      have hold := hf.credit r hrq
      omega
  refine ⟨?_, fun x hx => ?_, fun x hx => ?_, fun r => ?_, hcredit, fun k => ?_⟩
  · exact hp.nodup hf.nodup hnq
  · rw [QueueLog.note_placed hp hnq]
    rcases hp.mem_iff.mp hx with rfl | hx
    · exact List.mem_append_right _ (List.mem_singleton_self x)
    · exact List.mem_append_left _ (hf.known x hx)
  · rw [QueueLog.note_placed hp hnq] at hx ⊢
    simp only [List.mem_append, List.mem_singleton, not_or] at hx
    have hxq : x ∉ q' := fun hmem => (hp.mem_iff.mp hmem).elim hx.2 fun hq => hx.1 (hf.known x hq)
    simp only [hxq, if_false]
    exact hf.fresh x hx.1
  · by_cases hr : r ∈ q'
    · have hle := hcredit r hr
      omega
    · have hrn : r ∉ [n] := by
        rw [List.mem_singleton]
        exact fun heq => hr (hp.mem_iff.mpr (Or.inl heq))
      rw [QueueLog.note_placed hp hnq]
      simp only [hr, hrn, if_false]
      exact hf.bound r
  · have horder := hf.order k
    rw [QueueLog.note_placed hp hnq]
    simp only [List.filter_append] at horder ⊢
    rw [← horder, hp.filter_row, List.append_assoc]

/-- An entry leaves and another is placed between two looks at the queue. -/
theorem pop_place {e n : α} (hf : Fair limit row seq (e :: q) h) (hn : n ∉ h.arrivals)
    (hp : Placed limit row seq n q q') : Fair limit row seq q' (h.note (e :: q) q') := by
  have hnq : n ∉ e :: q := fun hx => hn (hf.known n hx)
  rw [QueueLog.note_pop_placed hf.nodup hnq hp]
  refine place hf.pop ?_ hp
  rw [QueueLog.note_pop hf.nodup]
  exact hn

end Fair

end ZSim
