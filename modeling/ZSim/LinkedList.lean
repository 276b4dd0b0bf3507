import Mathlib.Data.List.Nodup
import Mathlib.Logic.Function.Basic

/-! Singly linked lists in a heap of objects: `next` is the link of each object. -/

namespace LinkedList

variable {T : Type}

/-- From `head`, following `next`, the objects are `l` in order. -/
def Linked (next : T → Option T) : Option T → List T → Prop
  | head, [] => head = none
  | head, x :: l => head = some x ∧ Linked next (next x) l

variable {next : T → Option T} {head : Option T} {x : T} {l : List T}

@[simp] theorem linked_nil : Linked next head [] ↔ head = none := Iff.rfl

@[simp] theorem linked_cons :
    Linked next head (x :: l) ↔ head = some x ∧ Linked next (next x) l := Iff.rfl

theorem Linked.isSome_iff (h : Linked next head l) : head.isSome = true ↔ l ≠ [] := by
  cases l with
  | nil => simp [linked_nil.mp h]
  | cons x l => simp [(linked_cons.mp h).1]

theorem Linked.next_last (h : Linked next head (l ++ [x])) : next x = none := by
  induction l generalizing head with
  | nil => exact h.2
  | cons y l ih => exact ih h.2

variable [DecidableEq T]

theorem Linked.update (h : Linked next head l) (hx : x ∉ l) (y : Option T) :
    Linked (Function.update next x y) head l := by
  induction l generalizing head with
  | nil => exact h
  | cons z l ih =>
    obtain ⟨hz, hl⟩ := h
    obtain ⟨hne, hxl⟩ := not_or.mp (List.mem_cons.not.mp hx)
    refine ⟨hz, ?_⟩
    rw [Function.update_of_ne (Ne.symm hne)]
    exact ih hl hxl

theorem Linked.push (h : Linked next head l) (hx : x ∉ l) :
    Linked (Function.update next x head) (some x) (x :: l) := by
  refine ⟨rfl, ?_⟩
  rw [Function.update_self]
  exact h.update hx head

theorem Linked.unlink {y : T} {l' : List T} (h : Linked next head (l ++ x :: y :: l'))
    (hnd : (l ++ x :: y :: l').Nodup) :
    Linked (Function.update next x (next y)) head (l ++ x :: l') := by
  induction l generalizing head with
  | nil =>
    obtain ⟨hx, hy, hl⟩ := h
    rw [List.nil_append, List.nodup_cons] at hnd
    refine ⟨hx, ?_⟩
    rw [Function.update_self]
    exact hl.update (fun hm => hnd.1 (List.mem_cons_of_mem _ hm)) _
  | cons z l ih =>
    obtain ⟨hz, hl⟩ := h
    rw [List.cons_append, List.nodup_cons] at hnd
    have hne : z ≠ x := by
      rintro rfl
      exact hnd.1 (List.mem_append_right _ List.mem_cons_self)
    refine ⟨hz, ?_⟩
    rw [Function.update_of_ne hne]
    exact ih hl hnd.2

theorem Linked.pop (h : Linked next head (x :: l)) (hx : x ∉ l) :
    Linked (Function.update next x none) (next x) l :=
  (linked_cons.mp h).2.update hx none

end LinkedList
