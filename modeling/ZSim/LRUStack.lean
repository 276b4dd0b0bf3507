import Mathlib.Data.List.Nodup
import Mathlib.Data.List.Count

/-! Least-recently-used stacks: the most recent value first. What a cache of `i` values
keeps is the first `i` values of the stack, for every `i` at once. -/

namespace LRUStack

variable {A : Type} [DecidableEq A]

/-- The stack after a use of `x`. -/
def use (x : A) (stack : List A) : List A := x :: stack.erase x

/-- A cache of `i` values after a use of `x`: what falls off its end is evicted. -/
def cacheUse (i : Nat) (x : A) (cache : List A) : List A := (use x cache).take i

variable {i : Nat} {x : A} {stack filler : List A}

theorem take_erase (i : Nat) (x : A) (l : List A) :
    (l.erase x).take i = ((l.take (i + 1)).erase x).take i := by
  induction l generalizing i with
  | nil => rw [List.take_nil]
  | cons y l ih =>
    rw [List.take_succ_cons]
    by_cases hy : y = x
    · rw [hy, List.erase_cons_head, List.erase_cons_head, List.take_take, Nat.min_self]
    · rw [List.erase_cons_tail (by simpa using hy), List.erase_cons_tail (by simpa using hy)]
      cases i with
      | zero => rfl
      | succ i =>
        rw [List.take_succ_cons, List.take_succ_cons]
        exact congrArg (y :: ·) (ih i)

/-- The inclusion property: a use of the stack is one of every cache. -/
theorem take_use (i : Nat) (x : A) (stack : List A) :
    (use x stack).take i = cacheUse i x (stack.take i) := by
  cases i with
  | zero => rw [cacheUse, List.take_zero, List.take_zero]
  | succ i =>
    rw [cacheUse, use, use, List.take_succ_cons, List.take_succ_cons]
    exact congrArg (x :: ·) (take_erase i x stack)

theorem use_append (hx : x ∉ filler) : use x (stack ++ filler) = use x stack ++ filler := by
  rw [use, use, List.cons_append]
  by_cases hs : x ∈ stack
  · rw [List.erase_append_left filler hs]
  · rw [List.erase_append_right filler hs, List.erase_of_not_mem hx, List.erase_of_not_mem hs]

theorem mem_take_iff {l : List A} : x ∈ l.take i ↔ l.idxOf x < i ∧ x ∈ l := by
  constructor
  · intro hx
    have hl := List.mem_of_mem_take hx
    exact ⟨(List.mem_take_iff_idxOf_lt hl).mp hx, hl⟩
  · rintro ⟨hi, hl⟩
    exact (List.mem_take_iff_idxOf_lt hl).mpr hi

omit [DecidableEq A] in
theorem mem_take_append (hx : x ∉ filler) : x ∈ (stack ++ filler).take i ↔ x ∈ stack.take i := by
  rw [List.take_append, List.mem_append]
  exact or_iff_left fun hf => hx (List.mem_of_mem_take hf)

/-- The values of `order` are in the order of their last uses; `uses` has the latest first. -/
def ByLastUse (uses order : List A) : Prop :=
  order.Pairwise fun x y => uses.idxOf x < uses.idxOf y

variable {uses order : List A}

theorem use_perm (hx : x ∈ order) : (use x order).Perm order := (List.perm_cons_erase hx).symm

theorem use_nodup (h : order.Nodup) : (use x order).Nodup :=
  List.nodup_cons.mpr ⟨h.not_mem_erase, h.erase x⟩

theorem ByLastUse.self (h : order.Nodup) : ByLastUse order order := by
  rw [ByLastUse, List.pairwise_iff_getElem]
  intro i j hi hj hij
  rwa [h.idxOf_getElem, h.idxOf_getElem]

theorem ByLastUse.skip (h : ByLastUse uses order) (hx : x ∉ order) :
    ByLastUse (x :: uses) order := by
  refine List.Pairwise.imp_of_mem ?_ h
  intro y z hy hz hlt
  have hyx : x ≠ y := fun he => hx (he ▸ hy)
  have hzx : x ≠ z := fun he => hx (he ▸ hz)
  rw [List.idxOf_cons_ne _ hyx, List.idxOf_cons_ne _ hzx]
  exact Nat.succ_lt_succ hlt

theorem ByLastUse.erase (h : ByLastUse uses order) : ByLastUse uses (order.erase x) :=
  h.sublist List.erase_sublist

theorem ByLastUse.use (h : ByLastUse uses order) (hnd : order.Nodup) :
    ByLastUse (x :: uses) (use x order) := by
  refine List.pairwise_cons.mpr ⟨fun y hy => ?_, h.erase.skip hnd.not_mem_erase⟩
  have hyx : x ≠ y := by
    rintro rfl
    exact hnd.not_mem_erase hy
  rw [List.idxOf_cons_self, List.idxOf_cons_ne _ hyx]
  exact Nat.succ_pos _

end LRUStack
