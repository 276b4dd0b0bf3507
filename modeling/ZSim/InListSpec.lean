import Mathlib.Data.List.Induction
import ZSim.InList

/-! The lists that intrusive lists stand for: every operation is that of a plain list. -/

namespace ZSim

namespace InLists

variable {T L : Type} {s s' : InLists T L} {f : L → List T} {l : L} {e x : T}
variable {p n : Option T} {xs ys : List T}

/-- The nodes `xs` in order, owned by `l`, with `p` before them and `n` after them. -/
def Seg (s : InLists T L) (l : L) : Option T → List T → Option T → Prop
  | _, [], _ => True
  | p, x :: xs, n => s.node x = ⟨xs.head?.or n, p, some l⟩ ∧ Seg s l (some x) xs n

/-- Every list `l` is `f l`, and the other nodes are in no list. -/
structure Holds (s : InLists T L) (f : L → List T) : Prop where
  nodup : ∀ l, (f l).Nodup
  list : ∀ l, s.list l = ⟨(f l).head?, (f l).getLast?, (f l).length⟩
  seg : ∀ l, Seg s l none (f l) none
  blank : ∀ e, (∀ l, e ∉ f l) → s.node e = .init

theorem seg_append : Seg s l p (xs ++ ys) n ↔
    Seg s l p xs (ys.head?.or n) ∧ Seg s l (xs.getLast?.or p) ys n := by
  induction xs generalizing p with
  | nil => simp [Seg]
  | cons x xs ih =>
    have hh : (xs ++ ys).head?.or n = xs.head?.or (ys.head?.or n) := by
      cases xs <;> simp
    have hl : (x :: xs).getLast?.or p = xs.getLast?.or (some x) := by
      cases xs <;> simp [List.getLast?_cons]
    rw [List.cons_append, Seg, ih, hh, hl, Seg, and_assoc]

theorem Seg.congr (h : Seg s l p xs n) (heq : ∀ x ∈ xs, s'.node x = s.node x) :
    Seg s' l p xs n := by
  induction xs generalizing p with
  | nil => trivial
  | cons x xs ih =>
    obtain ⟨hx, hxs⟩ := h
    exact ⟨(heq x (by simp)).trans hx, ih hxs fun y hy => heq y (by simp [hy])⟩

theorem Seg.owner (h : Seg s l p xs n) (hx : x ∈ xs) : (s.node x).owner = some l := by
  induction xs generalizing p with
  | nil => cases hx
  | cons y xs ih =>
    obtain ⟨hy, hxs⟩ := h
    rcases List.mem_cons.mp hx with rfl | hx
    · simp [hy]
    · exact ih hxs hx

theorem init_holds : Holds (init : InLists T L) fun _ => [] := by
  constructor
  · simp
  · simp [init, InList.init]
  · intro l
    trivial
  · simp [init]

theorem Holds.owner (h : Holds s f) (hx : x ∈ f l) : (s.node x).owner = some l :=
  (h.seg l).owner hx

theorem Holds.list_unique {l' : L} (h : Holds s f) (hx : x ∈ f l) (hx' : x ∈ f l') : l = l' := by
  have ho := h.owner hx
  rw [h.owner hx'] at ho
  simpa using ho.symm

theorem Holds.blank_of_not_mem (h : Holds s f) (he : ∀ l, e ∉ f l) : s.Blank e := by
  simp [Blank, h.blank e he, InListNode.init]

theorem Holds.front_eq (h : Holds s f) : s.front l = (f l).head? := by
  simp [front, h.list]

theorem Holds.back_eq (h : Holds s f) : s.back l = (f l).getLast? := by
  simp [back, h.list]

theorem Holds.size_eq (h : Holds s f) : s.size l = (f l).length := by
  simp [size, h.list]

section Nodes

variable [DecidableEq T]

@[simp] theorem setNode_node (m : InListNode T L) :
    (s.setNode e m).node x = if x = e then m else s.node x :=
  Function.update_apply s.node e m x

@[simp] theorem setNode_list (m : InListNode T L) : (s.setNode e m).list = s.list := rfl

@[simp] theorem setNext_list : (s.setNext e n).list = s.list := rfl

@[simp] theorem setPrev_list : (s.setPrev e p).list = s.list := rfl

@[simp] theorem setNext_node :
    (s.setNext e n).node x = if x = e then { s.node e with next := n } else s.node x :=
  setNode_node _

@[simp] theorem setPrev_node :
    (s.setPrev e p).node x = if x = e then { s.node e with prev := p } else s.node x :=
  setNode_node _

@[simp] theorem setPrevOf_list (q : Option T) : (s.setPrevOf q p).list = s.list := by
  cases q <;> rfl

@[simp] theorem setNextOf_list (q : Option T) : (s.setNextOf q n).list = s.list := by
  cases q <;> rfl

theorem setPrevOf_frame {q : Option T} (hq : q ≠ some x) :
    (s.setPrevOf q p).node x = s.node x := by
  cases q with
  | none => rfl
  | some y =>
    have hne : x ≠ y := by
      intro he
      exact hq (by rw [he])
    simp [setPrevOf, hne]

theorem setNextOf_frame {q : Option T} (hq : q ≠ some x) :
    (s.setNextOf q n).node x = s.node x := by
  cases q with
  | none => rfl
  | some y =>
    have hne : x ≠ y := by
      intro he
      exact hq (by rw [he])
    simp [setNextOf, hne]

theorem Seg.setPrevOf (h : Seg s l p xs n) (hnd : xs.Nodup) (p' : Option T) :
    Seg (s.setPrevOf xs.head? p') l p' xs n := by
  cases xs with
  | nil => trivial
  | cons x xs =>
    obtain ⟨hx, hxs⟩ := h
    obtain ⟨hmem, -⟩ := List.nodup_cons.mp hnd
    refine ⟨by simp [InLists.setPrevOf, hx], hxs.congr fun y hy => setPrevOf_frame ?_⟩
    intro he
    rw [List.head?_cons, Option.some.injEq] at he
    exact hmem (he ▸ hy)

theorem Seg.setNextOf (h : Seg s l p xs n) (hnd : xs.Nodup) (n' : Option T) :
    Seg (s.setNextOf xs.getLast? n') l p xs n' := by
  induction xs using List.reverseRecOn generalizing n with
  | nil => trivial
  | append_singleton xs x _ =>
    obtain ⟨hxs, hx⟩ := seg_append.mp h
    have hmem : x ∉ xs := by
      have hd := List.disjoint_of_nodup_append hnd
      exact fun hm => hd hm (by simp)
    refine seg_append.mpr ⟨hxs.congr fun y hy => setNextOf_frame ?_, ?_⟩
    · intro he
      rw [List.getLast?_concat, Option.some.injEq] at he
      exact hmem (he ▸ hy)
    · simp [Seg, InLists.setNextOf, hx.1]

end Nodes

variable [DecidableEq L]

@[simp] theorem setList_node (v : InList T) : (s.setList l v).node = s.node := rfl

@[simp] theorem setList_list (v : InList T) :
    (s.setList l v).list = Function.update s.list l v := rfl

/-- One list changes: its nodes, and nodes that were in no list. -/
theorem Holds.change (h : Holds s f) (hnd : xs.Nodup)
    (hlist : s'.list = Function.update s.list l ⟨xs.head?, xs.getLast?, xs.length⟩)
    (hseg : Seg s' l none xs none)
    (hframe : ∀ x, x ∉ f l → x ∉ xs → s'.node x = s.node x)
    (hnew : ∀ l', l' ≠ l → ∀ x ∈ xs, x ∉ f l')
    (hblank : ∀ x ∈ f l, x ∉ xs → s'.node x = .init) :
    Holds s' (Function.update f l xs) := by
  constructor
  · intro l'
    by_cases hl : l' = l
    · simpa [hl] using hnd
    · simpa [hl] using h.nodup l'
  · intro l'
    rw [hlist]
    by_cases hl : l' = l
    · simp [hl]
    · simp [hl, h.list]
  · intro l'
    by_cases hl : l' = l
    · simpa [hl] using hseg
    · rw [Function.update_of_ne hl]
      refine (h.seg l').congr fun x hx => hframe x ?_ ?_
      · exact fun hx' => hl (h.list_unique hx hx')
      · exact fun hx' => hnew l' hl x hx' hx
  · intro e he
    have hxs : e ∉ xs := by simpa using he l
    by_cases hel : e ∈ f l
    · exact hblank e hel hxs
    · rw [hframe e hel hxs]
      refine h.blank e fun l' => ?_
      by_cases hl : l' = l
      · rwa [hl]
      · simpa [hl] using he l'

theorem head?_ne (he : e ∉ xs) : xs.head? ≠ some e :=
  fun hx => he (List.mem_of_mem_head? hx)

theorem getLast?_ne (he : e ∉ xs) : xs.getLast? ≠ some e :=
  fun hx => he (List.mem_of_mem_getLast? hx)

theorem Holds.drop {as bs : List T} {s₁ : InLists T L} (h : Holds s f)
    (hl : f l = as ++ e :: bs) (hlist : s₁.list = s.list)
    (hseg : Seg s₁ l none (as ++ bs) none) (he : s₁.node e = .init)
    (hframe : ∀ x, x ∉ f l → s₁.node x = s.node x) :
    Holds (s₁.setList l ⟨(as ++ bs).head?, (as ++ bs).getLast?, (as ++ bs).length⟩)
      (Function.update f l (as ++ bs)) := by
  have hsub : (as ++ bs).Sublist (f l) := by
    rw [hl]
    exact (List.sublist_cons_self e bs).append_left as
  refine h.change (hsub.nodup (h.nodup l)) (by simp [hlist]) ?_ ?_ ?_ ?_
  · exact hseg.congr fun _ _ => rfl
  · exact fun x hx _ => hframe x hx
  · exact fun l' hne x hx hx' => hne (h.list_unique hx' (hsub.subset hx))
  · intro x hx hx'
    have hxe : x = e := by
      rw [hl] at hx
      simp only [List.mem_append, List.mem_cons] at hx hx'
      tauto
    rw [hxe]
    exact he

theorem Holds.add {as bs : List T} {s₁ : InLists T L} (h : Holds s f) (he : ∀ l, e ∉ f l)
    (hl : f l = as ++ bs) (hlist : s₁.list = s.list)
    (hseg : Seg s₁ l none (as ++ e :: bs) none)
    (hframe : ∀ x, x ∉ f l → x ≠ e → s₁.node x = s.node x) :
    Holds (s₁.setList l ⟨(as ++ e :: bs).head?, (as ++ e :: bs).getLast?, (f l).length + 1⟩)
      (Function.update f l (as ++ e :: bs)) := by
  have hmem (x : T) : x ∈ as ++ e :: bs ↔ x = e ∨ x ∈ f l := by
    rw [hl, List.mem_append, List.mem_cons, List.mem_append]
    exact or_left_comm
  refine h.change ?_ ?_ (hseg.congr fun _ _ => rfl) ?_ ?_ ?_
  · rw [List.nodup_middle, List.nodup_cons, ← hl]
    exact ⟨he l, h.nodup l⟩
  · rw [setList_list, hlist, hl]
    simp [Nat.add_assoc]
  · exact fun x hx hx' => hframe x hx fun hxe => hx' ((hmem x).mpr (.inl hxe))
  · intro l' hne x hx hx'
    rcases (hmem x).mp hx with rfl | hx
    · exact he l' hx'
    · exact hne (h.list_unique hx' hx)
  · exact fun x hx hx' => absurd ((hmem x).mpr (.inr hx)) hx'

variable [DecidableEq T]

theorem Holds.push_front (h : Holds s f) (l : L) (he : ∀ l, e ∉ f l) :
    ∃ s', s.push_front l e = some s' ∧ Holds s' (Function.update f l (e :: f l)) := by
  have hb := h.blank_of_not_mem he
  rw [InLists.push_front, if_pos hb, h.list]
  cases hl : f l with
  | nil =>
    refine ⟨_, rfl, ?_⟩
    have hseg₁ : Seg (s.setNode e ⟨none, none, some l⟩) l none ([] ++ [e]) none := by simp [Seg]
    have hadd := h.add he (show f l = [] ++ [] from hl) (setNode_list _) hseg₁
      fun x _ hxe => by simp [hxe]
    simpa [hl] using hadd
  | cons y ys =>
    have hseg := h.seg l
    rw [hl] at hseg
    obtain ⟨hy, hys⟩ := hseg
    have hyl : y ∈ f l := by simp [hl]
    have hyys : y ∉ ys := (List.nodup_cons.mp (hl ▸ h.nodup l)).1
    simp only [List.head?_cons]
    rw [if_pos ⟨by simp [hy], by simp [hy]⟩]
    refine ⟨_, rfl, ?_⟩
    let s₁ := (s.setPrev y (some e)).setNode e ⟨some y, none, some l⟩
    have hseg₁ : Seg s₁ l none (e :: y :: ys) none := by
      refine ⟨by simp [s₁], ?_, hys.congr fun x hx => ?_⟩
      · have hye : y ≠ e := fun hye => he l (hye ▸ hyl)
        simp [s₁, hye, hy]
      · have hxe : x ≠ e := fun hxe => he l (by simp [hl, ← hxe, hx])
        have hxy : x ≠ y := fun hxy => hyys (hxy ▸ hx)
        simp [s₁, hxe, hxy]
    have hframe : ∀ x, x ∉ f l → x ≠ e → s₁.node x = s.node x := by
      intro x hx hxe
      have hxy : x ≠ y := fun hxy => hx (hxy ▸ hyl)
      simp [s₁, hxe, hxy]
    have hadd := h.add he (show f l = [] ++ y :: ys from hl) (by simp [s₁]) hseg₁ hframe
    simpa [hl, s₁] using hadd

theorem Holds.unlink {as bs : List T} (h : Holds s f) (hl : f l = as ++ e :: bs) :
    (s.node e = ⟨bs.head?, as.getLast?, some l⟩) ∧
    ∃ s', s.unlink e l = some s' ∧ s'.list = s.list ∧ Seg s' l none (as ++ bs) none ∧
      s'.node e = .init ∧ ∀ x, x ∉ f l → s'.node x = s.node x := by
  have hnd := h.nodup l
  have hseg := h.seg l
  rw [hl] at hnd hseg
  obtain ⟨has, he, hbs⟩ := seg_append.mp hseg
  simp only [List.head?_cons, Option.some_or] at has
  simp only [Option.or_none] at he
  obtain ⟨hndas, hndbs, hdisj⟩ := List.nodup_append.mp hnd
  obtain ⟨hebs, hndbs⟩ := List.nodup_cons.mp hndbs
  have heas : e ∉ as := fun hm => hdisj e hm e (by simp) rfl
  have hab : ∀ x ∈ as, x ∉ bs := fun x ha hb => hdisj x ha x (by simp [hb]) rfl
  let s₁ := s.setPrevOf bs.head? as.getLast?
  let s₂ := s₁.setNextOf as.getLast? bs.head?
  have he₁ : s₁.node e = s.node e := setPrevOf_frame (head?_ne hebs)
  have he₂ : s₂.node e = s₁.node e := setNextOf_frame (getLast?_ne heas)
  have has₁ : Seg s₁ l none as (some e) :=
    has.congr fun x hx => setPrevOf_frame (head?_ne (hab x hx))
  have hbs₁ : Seg s₁ l as.getLast? bs none := hbs.setPrevOf hndbs as.getLast?
  have has₂ : Seg s₂ l none as bs.head? := has₁.setNextOf hndas bs.head?
  have hbs₂ : Seg s₂ l as.getLast? bs none :=
    hbs₁.congr fun x hx => setNextOf_frame (getLast?_ne fun ha => hab x ha hx)
  refine ⟨he, s₂.setNode e .init, ?_, ?_, ?_, by simp, fun x hx => ?_⟩
  · simp only [InLists.unlink, he]
    change (if ((s₁.setNextOf (s₁.node e).prev (s₁.node e).next).node e).owner = some l then
      some ((s₁.setNextOf (s₁.node e).prev (s₁.node e).next).setNode e .init) else none) = _
    rw [he₁, he]
    change (if (s₂.node e).owner = some l then _ else _) = _
    rw [he₂, he₁, he, if_pos rfl]
  · simp [s₂, s₁]
  · refine seg_append.mpr ⟨?_, ?_⟩
    · rw [Option.or_none]
      exact has₂.congr fun x hx => by simp [show x ≠ e from fun hxe => heas (hxe ▸ hx)]
    · rw [Option.or_none]
      exact hbs₂.congr fun x hx => by simp [show x ≠ e from fun hxe => hebs (hxe ▸ hx)]
  · rw [hl] at hx
    have hxe : x ≠ e := fun hxe => hx (by simp [hxe])
    have hxa : x ∉ as := fun hm => hx (by simp [hm])
    have hxb : x ∉ bs := fun hm => hx (by simp [hm])
    have hx₁ : s₁.node x = s.node x := setPrevOf_frame (head?_ne hxb)
    have hx₂ : s₂.node x = s₁.node x := setNextOf_frame (getLast?_ne hxa)
    simp [hxe, hx₂, hx₁]

theorem Holds.remove (h : Holds s f) (he : e ∈ f l) :
    ∃ s', s.remove l e = some s' ∧ Holds s' (Function.update f l ((f l).erase e)) := by
  obtain ⟨as, bs, hl⟩ := List.append_of_mem he
  have hnd := h.nodup l
  rw [hl] at hnd
  have heas : e ∉ as := by
    obtain ⟨-, -, hdisj⟩ := List.nodup_append.mp hnd
    exact fun hm => hdisj e hm e (by simp) rfl
  have hebs : e ∉ bs := (List.nodup_cons.mp (List.nodup_append.mp hnd).2.1).1
  have herase : (f l).erase e = as ++ bs := by
    rw [hl, List.erase_append_right _ heas, List.erase_cons_head]
  obtain ⟨hnode, s₁, hs₁, hlist, hseg, hinit, hframe⟩ := h.unlink hl
  have hhead : (if (s.list l).head = some e then (s.node e).next else (s.list l).head) =
      (as ++ bs).head? := by
    rw [h.list, hnode, hl]
    cases as with
    | nil => simp
    | cons a as =>
      have hae : a ≠ e := fun hae => heas (by simp [hae])
      simp [hae]
  have htail : (if (s.list l).tail = some e then (s.node e).prev else (s.list l).tail) =
      (as ++ bs).getLast? := by
    rw [h.list, hnode, hl]
    rcases List.eq_nil_or_concat' bs with rfl | ⟨bs, b, rfl⟩
    · simp
    · have hbe : b ≠ e := fun hbe => hebs (by simp [hbe])
      have hcat : as ++ e :: (bs ++ [b]) = (as ++ e :: bs) ++ [b] := by simp
      have hcat' : as ++ (bs ++ [b]) = (as ++ bs) ++ [b] := by simp
      have hne : some b ≠ some e := by simpa using hbe
      rw [hcat, hcat', List.getLast?_concat, List.getLast?_concat, if_neg hne]
  have helems : (s₁.list l).elems - 1 = (as ++ bs).length := by
    rw [hlist, h.list, hl]
    simp
  refine ⟨_, by rw [InLists.remove, hs₁, Option.map_some], ?_⟩
  rw [herase, hhead, htail, helems]
  exact h.drop hl hlist hseg hinit hframe

theorem Holds.pop_front (h : Holds s f) (l : L) :
    ∃ s', s.pop_front l = some s' ∧ Holds s' (Function.update f l (f l).tail) := by
  rw [InLists.pop_front, h.list]
  cases hl : f l with
  | nil =>
    refine ⟨s, rfl, ?_⟩
    rw [List.tail_nil, ← hl, Function.update_eq_self]
    exact h
  | cons e bs =>
    obtain ⟨hnode, s₁, hs₁, hlist, hseg, hinit, hframe⟩ := @Holds.unlink _ _ s f l e _ _ [] bs h hl
    refine ⟨_, by simp only [List.head?_cons]; rw [hs₁, Option.map_some], ?_⟩
    have hd := h.drop hl hlist hseg hinit hframe
    have htail : (if bs.head?.isSome then (e :: bs).getLast? else none) = bs.getLast? := by
      cases bs with
      | nil => rfl
      | cons b bs => simp [List.getLast?_cons]
    rw [List.nil_append] at hd
    rw [List.tail_cons, hlist, h.list, hl, hnode]
    simpa only [htail, List.length_cons, Nat.add_sub_cancel] using hd

theorem Holds.pop_back (h : Holds s f) (l : L) :
    ∃ s', s.pop_back l = some s' ∧ Holds s' (Function.update f l (f l).dropLast) := by
  rw [InLists.pop_back, h.list]
  rcases List.eq_nil_or_concat' (f l) with hl | ⟨as, e, hl⟩
  · refine ⟨s, by rw [hl]; rfl, ?_⟩
    rw [hl, List.dropLast_nil, ← hl, Function.update_eq_self]
    exact h
  · obtain ⟨hnode, s₁, hs₁, hlist, hseg, hinit, hframe⟩ := @Holds.unlink _ _ s f l e _ _ as [] h hl
    have hnonempty : ¬ (f l).head?.isNone = true := by
      rw [hl]
      cases as <;> exact Bool.false_ne_true
    have htail : (f l).getLast? = some e := by rw [hl, List.getLast?_concat]
    refine ⟨_, by rw [if_neg hnonempty, htail, Option.bind_some, hs₁, Option.map_some], ?_⟩
    have hd := h.drop hl hlist hseg hinit hframe
    have hhead : (if as.getLast?.isSome then (as ++ [e]).head? else none) = as.head? := by
      cases as with
      | nil => rfl
      | cons a as => simp [List.getLast?_cons]
    rw [List.append_nil] at hd
    rw [hlist, h.list, hnode, hl, List.dropLast_concat]
    simpa only [hhead, List.length_append, List.length_singleton, Nat.add_sub_cancel] using hd

omit [DecidableEq L] in
theorem Holds.linkPrev {as bs : List T} {y : T} (h : Holds s f) (he : ∀ l, e ∉ f l)
    (hl : f l = as ++ y :: bs) :
    ∃ s', s.linkPrev e y l = some s' ∧ s'.list = s.list ∧
      Seg s' l none (as ++ y :: e :: bs) none ∧
      ∀ x, x ∉ f l → x ≠ e → s'.node x = s.node x := by
  have hb := h.blank_of_not_mem he
  have hnd := h.nodup l
  have hseg := h.seg l
  rw [hl] at hnd hseg
  obtain ⟨-, hndbs, hdisj⟩ := List.nodup_append.mp hnd
  obtain ⟨hybs, hndbs⟩ := List.nodup_cons.mp hndbs
  have hyas : y ∉ as := fun hm => hdisj y hm y (by simp) rfl
  have hab : ∀ x ∈ as, x ∉ bs := fun x ha hb => hdisj x ha x (by simp [hb]) rfl
  have heas : e ∉ as := fun hm => he l (by simp [hl, hm])
  have hebs : e ∉ bs := fun hm => he l (by simp [hl, hm])
  have hye : y ≠ e := by
    rintro rfl
    exact he l (by simp [hl])
  obtain ⟨has, hynode, hbs⟩ := seg_append.mp hseg
  simp only [Option.or_none] at hynode
  -- the node behind `y` turns to `e`, then `y` does
  let s₁ := s.setPrevOf bs.head? (some e)
  let s₂ := s₁.setNext y (some e)
  let s₃ := s₂.setNode e ⟨bs.head?, some y, some l⟩
  have hy₁ : s₁.node y = s.node y := setPrevOf_frame (head?_ne hybs)
  refine ⟨s₃, ?_, by simp [s₃, s₂, s₁], seg_append.mpr ⟨?_, ?_, ?_, ?_⟩, ?_⟩
  · rw [InLists.linkPrev, if_pos hb, hynode]
    cases bs with
    | nil => rfl
    | cons b bs =>
      obtain ⟨hbnode, -⟩ := hbs
      simp only [List.head?_cons]
      rw [if_pos (by rw [hbnode])]
      rfl
  · refine has.congr fun x hx => ?_
    have hxe : x ≠ e := fun hxe => heas (hxe ▸ hx)
    have hxy : x ≠ y := fun hxy => hyas (hxy ▸ hx)
    have hx₁ : s₁.node x = s.node x := setPrevOf_frame (head?_ne (hab x hx))
    simp [s₃, s₂, hxe, hxy, hx₁]
  · simp [s₃, s₂, hye, hy₁, hynode]
  · simp [s₃]
  · refine (hbs.setPrevOf hndbs (some e)).congr fun x hx => ?_
    have hxe : x ≠ e := fun hxe => hebs (hxe ▸ hx)
    have hxy : x ≠ y := fun hxy => hybs (hxy ▸ hx)
    simp [s₃, s₂, s₁, hxe, hxy]
  · intro x hx hxe
    have hxy : x ≠ y := fun hxy => hx (by simp [hl, hxy])
    have hxb : x ∉ bs := fun hm => hx (by simp [hl, hm])
    have hx₁ : s₁.node x = s.node x := setPrevOf_frame (head?_ne hxb)
    simp [s₃, s₂, hxe, hxy, hx₁]

theorem Holds.push_back (h : Holds s f) (l : L) (he : ∀ l, e ∉ f l) :
    ∃ s', s.push_back l e = some s' ∧ Holds s' (Function.update f l (f l ++ [e])) := by
  have hb := h.blank_of_not_mem he
  have hcat : f l = f l ++ [] := (List.append_nil _).symm
  rw [InLists.push_back, if_pos hb, h.list]
  rcases List.eq_nil_or_concat' (f l) with hl | ⟨as, t, hl⟩
  · rw [hl]
    refine ⟨_, rfl, ?_⟩
    have hseg₁ : Seg (s.setNode e ⟨none, none, some l⟩) l none (f l ++ [e]) none := by
      simp [hl, Seg]
    have hadd := h.add he hcat (setNode_list _) hseg₁ fun x _ hxe => by simp [hxe]
    simpa [hl] using hadd
  · obtain ⟨y, ys, hys⟩ := List.exists_cons_of_ne_nil (show f l ≠ [] by simp [hl])
    obtain ⟨s₁, hlink, hlist, hseg, hframe⟩ := h.linkPrev he hl
    have hhead : (f l).head? = some y := by simp [hys]
    have hlast : (f l).getLast? = some t := by simp [hl]
    simp only [hhead, hlast, Option.bind_some, hlink, Option.map_some]
    refine ⟨_, rfl, ?_⟩
    have hadd := h.add he hcat hlist (by simpa [hl] using hseg) hframe
    have hhead' : (f l ++ [e]).head? = some y := by simp [hys]
    rw [hhead', List.getLast?_concat] at hadd
    rwa [hlist, h.list]

/-- `xs` with `e` behind `y`. -/
def insertBehind (y e : T) : List T → List T
  | [] => []
  | x :: xs => if x = y then x :: e :: xs else x :: insertBehind y e xs

theorem insertBehind_append {as bs : List T} {y : T} (hy : y ∉ as) :
    insertBehind y e (as ++ y :: bs) = as ++ y :: e :: bs := by
  induction as with
  | nil => simp [insertBehind]
  | cons a as ih =>
    obtain ⟨hay, hy⟩ : y ≠ a ∧ y ∉ as := by simpa using hy
    simp [insertBehind, Ne.symm hay, ih hy]

theorem Holds.insertAfter {y : T} (h : Holds s f) (hy : y ∈ f l) (he : ∀ l, e ∉ f l) :
    ∃ s', s.insertAfter l y e = some s' ∧
      Holds s' (Function.update f l (insertBehind y e (f l))) := by
  obtain ⟨as, bs, hl⟩ := List.append_of_mem hy
  have hb := h.blank_of_not_mem he
  obtain ⟨-, hndbs, hdisj⟩ := List.nodup_append.mp (hl ▸ h.nodup l)
  have hybs : y ∉ bs := (List.nodup_cons.mp hndbs).1
  have hyas : y ∉ as := fun hm => hdisj y hm y (by simp) rfl
  obtain ⟨s₁, hlink, hlist, hseg, hframe⟩ := h.linkPrev he hl
  have hcat (xs : List T) : as ++ y :: xs = (as ++ [y]) ++ xs := by simp
  have htail : (if (s.list l).tail = some y then some e else (s.list l).tail) =
      (as ++ y :: e :: bs).getLast? := by
    rw [h.list, hl]
    rcases List.eq_nil_or_concat' bs with rfl | ⟨bs, b, rfl⟩
    · simp
    · have hby : b ≠ y := fun hby => hybs (by simp [hby])
      have hlast (xs : List T) : (as ++ y :: (xs ++ [b])).getLast? = some b := by
        rw [← List.cons_append, ← List.append_assoc, List.getLast?_concat]
      have hne : some b ≠ some y := by simpa using hby
      rw [hlast bs, if_neg hne]
      exact (hlast (e :: bs)).symm
  have hhead : (s.list l).head = (as ++ y :: e :: bs).head? := by
    rw [h.list, hl]
    cases as <;> simp
  rw [InLists.insertAfter, if_pos ⟨hb.2.2, h.owner hy⟩, hlink, Option.map_some]
  refine ⟨_, rfl, ?_⟩
  have hadd := h.add he (hl.trans (hcat bs)) hlist (by rwa [← hcat]) hframe
  rw [← hcat] at hadd
  rw [hlist, htail, hhead, h.list, hl, insertBehind_append hyas]
  rwa [hl] at hadd

end InLists

end ZSim
