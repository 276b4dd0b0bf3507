import ZSim.IdealLRUArray

/-! `IdealLRUArray` refines the fully associative LRU cache. -/

namespace ZSim

namespace IdealLRUArray

open LRUStack InLists

/-- `order` is the LRU list, `updates` all updates so far, the latest first. -/
structure Refines (numLines : Nat) (s : Sys) (c : LRUCache) (updates order : List Nat) :
    Prop where
  holds : s.array.lruList.Holds fun _ => order
  perm : order.Perm (List.range numLines)
  byUse : ByLastUse updates order
  addrs : order.map s.array.lineAddr =
    c.recent ++ List.replicate (numLines - c.recent.length) 0
  nodup : c.recent.Nodup
  nonzero : 0 ∉ c.recent
  map : ∀ a id, s.array.lineMap a = some id ↔
    a ≠ 0 ∧ id ∈ order ∧ s.array.lineAddr id = a
  pending : c.pending = s.pending.map fun p => (p.1, s.array.lineAddr p.2)
  inserting : ∀ p, s.pending = some p →
    p.1 ≠ 0 ∧ s.array.lineMap p.1 = none ∧ p.2 ∈ order

variable {numLines : Nat} {s s' : Sys} {c : LRUCache} {updates order : List Nat}
variable {a v : Address} {id : Nat}

theorem map_erase_of_unique {f : Nat → Address} {l : List Nat} (hid : id ∈ l)
    (hu : ∀ x ∈ l, f x = f id → x = id) : (l.erase id).map f = (l.map f).erase (f id) := by
  induction l with
  | nil => cases hid
  | cons x l ih =>
    by_cases hx : x = id
    · simp [hx]
    · have hf : f x ≠ f id := fun he => hx (hu x (by simp) he)
      have hl : id ∈ l := by
        rcases List.mem_cons.mp hid with he | hl
        · exact absurd he.symm hx
        · exact hl
      have ih' := ih hl fun y hy => hu y (by simp [hy])
      rw [List.erase_cons_tail (by simpa using hx), List.map_cons, ih', List.map_cons,
        List.erase_cons_tail (by simpa using hf)]

theorem erase_free {as bs r : List Address} {m : Nat}
    (h : as ++ 0 :: bs = r ++ List.replicate m 0) (hr : 0 ∉ r) :
    as ++ bs = r ++ List.replicate (m - 1) 0 := by
  induction r generalizing as with
  | nil =>
    have hall : ∀ x ∈ as ++ 0 :: bs, x = 0 := by
      rw [h]
      simp
    have hlen := congrArg List.length h
    simp only [List.length_append, List.length_cons, List.length_nil,
      List.length_replicate] at hlen
    refine List.eq_replicate_iff.mpr ⟨?_, fun x hx => hall x ?_⟩
    · simp only [List.length_append]
      omega
    · rcases List.mem_append.mp hx with hx | hx
      · simp [hx]
      · simp [hx]
  | cons x r ih =>
    cases as with
    | nil =>
      simp only [List.nil_append, List.cons_append, List.cons.injEq] at h
      exact absurd (h.1 ▸ List.mem_cons_self) hr
    | cons y as =>
      simp only [List.cons_append, List.cons.injEq] at h
      have ih' := ih h.2 fun hm => hr (by simp [hm])
      simp [h.1, ih']

theorem Refines.length_le (h : Refines numLines s c updates order) :
    c.recent.length ≤ numLines := by
  have hlen := congrArg List.length h.addrs
  have hperm := h.perm.length_eq
  simp only [List.length_map, List.length_append, List.length_replicate,
    List.length_range] at hlen hperm
  omega

theorem Refines.order_nodup (h : Refines numLines s c updates order) : order.Nodup :=
  h.perm.nodup_iff.mpr List.nodup_range

theorem Refines.mem_recent_iff (h : Refines numLines s c updates order) (ha : a ≠ 0) :
    a ∈ c.recent ↔ ∃ id ∈ order, s.array.lineAddr id = a := by
  rw [← List.mem_map, h.addrs]
  simp [ha]

theorem Refines.mem_iff (h : Refines numLines s c updates order) (ha : a ≠ 0) :
    a ∈ c.recent ↔ (s.array.lineMap a).isSome = true := by
  rw [h.mem_recent_iff ha, Option.isSome_iff_exists]
  constructor
  · rintro ⟨id, hid, he⟩
    exact ⟨id, (h.map a id).mpr ⟨ha, hid, he⟩⟩
  · rintro ⟨id, hid⟩
    exact ⟨id, ((h.map a id).mp hid).2⟩

theorem Refines.unique (h : Refines numLines s c updates order) (hid : id ∈ order)
    (hne : s.array.lineAddr id ≠ 0) :
    ∀ x ∈ order, s.array.lineAddr x = s.array.lineAddr id → x = id := by
  intro x hx he
  have hx' := (h.map _ x).mpr ⟨hne, hx, he⟩
  rw [(h.map _ id).mpr ⟨hne, hid, rfl⟩] at hx'
  simpa using hx'.symm

theorem Refines.erase_addrs (h : Refines numLines s c updates order) (hid : id ∈ order) :
    (order.erase id).map s.array.lineAddr =
      c.recent.erase (s.array.lineAddr id) ++
        List.replicate (numLines - 1 - (c.recent.erase (s.array.lineAddr id)).length) 0 := by
  have hlen := h.length_le
  by_cases hv : s.array.lineAddr id = 0
  · obtain ⟨as, bs, rfl⟩ := List.append_of_mem hid
    have hnd := h.order_nodup
    have has : id ∉ as := by
      obtain ⟨-, -, hdisj⟩ := List.nodup_append.mp hnd
      exact fun hm => hdisj id hm id (by simp) rfl
    have haddrs := h.addrs
    rw [List.map_append, List.map_cons, hv] at haddrs
    rw [List.erase_append_right _ has, List.erase_cons_head, hv,
      List.erase_of_not_mem h.nonzero, List.map_append, erase_free haddrs h.nonzero,
      Nat.sub_right_comm]
  · have hmem : s.array.lineAddr id ∈ c.recent := (h.mem_recent_iff hv).mpr ⟨id, hid, rfl⟩
    have hpos : 0 < c.recent.length := List.length_pos_of_mem hmem
    rw [map_erase_of_unique hid (h.unique hid hv), h.addrs, List.erase_append_left _ hmem,
      List.length_erase_of_mem hmem]
    congr 2
    omega

/-- `remove` and `push_front` make the line the most recent one. -/
theorem updateRepl_spec {t : IdealLRUArray} (h : t.lruList.Holds fun _ => order)
    (hid : id ∈ order) :
    ∃ lruList, t.updateRepl id = some { t with lruList := lruList } ∧
      lruList.Holds fun _ => use id order := by
  have hnd : order.Nodup := h.nodup ()
  obtain ⟨l₁, hl₁, h₁⟩ := h.remove hid
  have he : ∀ l, id ∉ Function.update (fun _ => order) () (order.erase id) l := by
    intro l
    simpa using hnd.not_mem_erase
  obtain ⟨l₂, hl₂, h₂⟩ := h₁.push_front () he
  refine ⟨l₂, by rw [updateRepl, hl₁, Option.bind_some, hl₂, Option.map_some], ?_⟩
  convert h₂ using 1
  funext l
  simp [use]

theorem pushAll_spec {l : InLists Nat Unit} (h : l.Holds fun _ => order) (is : List Nat)
    (hnd : is.Nodup) (hdisj : ∀ i ∈ is, i ∉ order) :
    ∃ l', pushAll is l = some l' ∧ l'.Holds fun _ => is.reverse ++ order := by
  induction is generalizing l order with
  | nil => exact ⟨l, rfl, h⟩
  | cons i is ih =>
    obtain ⟨hi, hnd⟩ := List.nodup_cons.mp hnd
    obtain ⟨l₁, hl₁, h₁⟩ := h.push_front () fun _ => hdisj i (by simp)
    have h₁' : l₁.Holds fun _ => i :: order := by
      convert h₁ using 1
      funext l
      simp
    obtain ⟨l₂, hl₂, h₂⟩ := ih h₁' hnd fun j hj hmem => by
      rcases List.mem_cons.mp hmem with rfl | hmem
      · exact hi hj
      · exact hdisj j (by simp [hj]) hmem
    refine ⟨l₂, by rw [pushAll, hl₁, Option.bind_some, hl₂], ?_⟩
    simpa using h₂

theorem init_spec : ∃ array, init numLines = some array ∧
    Refines numLines ⟨array, none⟩ .empty (List.range numLines).reverse
      (List.range numLines).reverse := by
  obtain ⟨l, hl, h⟩ := pushAll_spec init_holds (List.range numLines) List.nodup_range (by simp)
  rw [List.append_nil] at h
  refine ⟨_, by rw [init, hl, Option.map_some], ?_⟩
  constructor
  · exact h
  · exact List.reverse_perm _
  · exact ByLastUse.self (List.nodup_reverse.mpr List.nodup_range)
  · simp [LRUCache.empty, List.map_const']
  · simp [LRUCache.empty]
  · simp [LRUCache.empty]
  · intro a id
    constructor
    · intro hm
      cases hm
    · rintro ⟨ha, -, h0⟩
      exact absurd h0.symm ha
  · rfl
  · intro p hp
    cases hp

theorem Refines.lookup_miss (h : Refines numLines s c updates order) (hm : s.array.lineMap a = none)
    (ha : a ≠ 0) (u : Bool) :
    step numLines s (.lookup a u) = some ((c.step numLines (.lookup a u)).1, s) ∧
    (c.step numLines (.lookup a u)).2 = c ∧ updated s (.lookup a u) = [] := by
  have hc : a ∉ c.recent := by simp [h.mem_iff ha, hm]
  refine ⟨by simp [step, lookup, hm, LRUCache.step, hc], by simp [LRUCache.step, hc], ?_⟩
  cases u with
  | true => simp [updated, hm]
  | false => rfl

theorem Refines.lookup_hit (h : Refines numLines s c updates order)
    (hm : s.array.lineMap a = some id) :
    ∃ s', step numLines s (.lookup a true) =
        some ((c.step numLines (.lookup a true)).1, s') ∧
      Refines numLines s' (c.step numLines (.lookup a true)).2 (id :: updates)
        (use id order) := by
  obtain ⟨ha, hid, haddr⟩ := (h.map a id).mp hm
  have hc : a ∈ c.recent := by simp [h.mem_iff ha, hm]
  obtain ⟨l, hl, hholds⟩ := updateRepl_spec h.holds hid
  have hperm := use_perm hid
  refine ⟨{ s with array := { s.array with lruList := l } },
    by simp [step, lookup, hm, hl, LRUCache.step, hc], ?_⟩
  have hstep : (c.step numLines (.lookup a true)).2 = { c with recent := use a c.recent } := by
    simp [LRUCache.step, hc]
  have hlen : (use a c.recent).length = c.recent.length := (use_perm hc).length_eq
  rw [hstep]
  constructor
  · exact hholds
  · exact hperm.trans h.perm
  · exact h.byUse.use h.order_nodup
  · have hrest := h.erase_addrs hid
    rw [haddr, List.length_erase_of_mem hc] at hrest
    have hpos : 0 < c.recent.length := List.length_pos_of_mem hc
    change (use id order).map s.array.lineAddr = _
    rw [hlen, use, List.map_cons, haddr, hrest, use, List.cons_append]
    congr 3
    omega
  · exact use_nodup h.nodup
  · exact fun h0 => h.nonzero ((use_perm hc).mem_iff.mp h0)
  · intro b x
    rw [hperm.mem_iff]
    exact h.map b x
  · exact h.pending
  · intro p hp
    rw [hperm.mem_iff]
    exact h.inserting p hp

theorem Refines.preinsert (h : Refines numLines s c updates order) (hpos : 0 < numLines)
    (hop : Allowed s (.preinsert a)) :
    ∃ s', step numLines s (.preinsert a) =
        some ((c.step numLines (.preinsert a)).1, s') ∧
      Refines numLines s' (c.step numLines (.preinsert a)).2 updates order := by
  obtain ⟨ha, hm, -⟩ := hop
  have hlen := h.perm.length_eq
  have hne : order ≠ [] := by
    rintro rfl
    simp only [List.length_nil, List.length_range] at hlen
    omega
  obtain ⟨as, id, rfl⟩ := (List.eq_nil_or_concat' order).resolve_left hne
  have hv : s.array.lineAddr id = c.victim numLines := by
    have hlast := congrArg List.getLast? h.addrs
    rw [List.map_append, List.map_singleton, List.getLast?_concat] at hlast
    rw [LRUCache.victim]
    split
    · next hlt =>
      obtain ⟨k, hk⟩ := Nat.exists_eq_add_of_lt hlt
      have hrep : List.replicate (numLines - c.recent.length) (0 : Address) =
          List.replicate k 0 ++ [0] := by
        rw [← List.replicate_succ', hk]
        congr 1
        omega
      rw [hrep, ← List.append_assoc, List.getLast?_concat] at hlast
      simpa using hlast
    · next hlt =>
      rw [Nat.sub_eq_zero_of_le (by omega), List.replicate_zero, List.append_nil] at hlast
      simp [← hlast]
  have hback : s.array.lruList.back () = some id := by
    rw [h.holds.back_eq, List.getLast?_concat]
  refine ⟨{ s with pending := some (a, id) }, ?_, ?_⟩
  · simp [step, IdealLRUArray.preinsert, hback, LRUCache.step, hv]
  · constructor
    · exact h.holds
    · exact h.perm
    · exact h.byUse
    · exact h.addrs
    · exact h.nodup
    · exact h.nonzero
    · exact h.map
    · simp [LRUCache.step, hv]
    · intro p hp
      obtain rfl := Option.some.inj hp
      exact ⟨ha, hm, by simp⟩

theorem Refines.postinsert (h : Refines numLines s c updates order)
    (hp : s.pending = some (a, id)) :
    ∃ s', step numLines s .postinsert = some ((c.step numLines .postinsert).1, s') ∧
      Refines numLines s' (c.step numLines .postinsert).2 (id :: updates) (use id order) := by
  obtain ⟨ha, hm, hid⟩ : a ≠ 0 ∧ s.array.lineMap a = none ∧ id ∈ order := h.inserting _ hp
  have hc : a ∉ c.recent := by simp [h.mem_iff ha, hm]
  have hpend : c.pending = some (a, s.array.lineAddr id) := by rw [h.pending, hp]; rfl
  have hperm := use_perm hid
  have hlt : id < numLines := List.mem_range.mp (h.perm.mem_iff.mp hid)
  have hm' : Function.update s.array.lineMap (s.array.lineAddr id) none a = none := by
    rw [Function.update_apply, hm, ite_self]
  let t : IdealLRUArray := {
    lineAddr := Function.update s.array.lineAddr id a
    lruList := s.array.lruList
    lineMap := Function.update (Function.update s.array.lineMap (s.array.lineAddr id) none) a
      (some id) }
  obtain ⟨l, hl, hholds⟩ := @updateRepl_spec order id t h.holds hid
  have hstep : (c.step numLines .postinsert).2 =
      ⟨a :: c.recent.erase (s.array.lineAddr id), none⟩ := by simp [LRUCache.step, hpend]
  refine ⟨⟨{ t with lruList := l }, none⟩, ?_, ?_⟩
  · have hpost : s.array.postinsert numLines a id = some { t with lruList := l } := by
      rw [IdealLRUArray.postinsert, if_pos ⟨hlt, hm'⟩]
      exact hl
    simp [step, hp, hpost, LRUCache.step]
  rw [hstep]
  have hnd := h.order_nodup
  have hrest : (order.erase id).map t.lineAddr = (order.erase id).map s.array.lineAddr := by
    refine List.map_congr_left fun x hx => ?_
    have hne : x ≠ id := by
      rintro rfl
      exact hnd.not_mem_erase hx
    exact Function.update_of_ne hne _ _
  constructor
  · exact hholds
  · exact hperm.trans h.perm
  · exact h.byUse.use hnd
  · change (use id order).map t.lineAddr = _
    have hself : t.lineAddr id = a := Function.update_self ..
    rw [use, List.map_cons, hrest, hself, h.erase_addrs hid, List.cons_append, List.length_cons]
    congr 3
    omega
  · exact List.nodup_cons.mpr ⟨fun hmem => hc (List.mem_of_mem_erase hmem), h.nodup.erase _⟩
  · intro h0
    rcases List.mem_cons.mp h0 with h0 | h0
    · exact ha h0.symm
    · exact h.nonzero (List.mem_of_mem_erase h0)
  · intro b x
    change t.lineMap b = some x ↔ b ≠ 0 ∧ x ∈ use id order ∧ t.lineAddr x = b
    have hb := h.map b x
    rw [hperm.mem_iff]
    simp only [t, Function.update_apply]
    by_cases hba : b = a
    · subst hba
      by_cases hx : x = id
      · simp [hx, ha, hid]
      · have hno : ¬ (x ∈ order ∧ s.array.lineAddr x = b) := fun hxb =>
          Option.some_ne_none x ((hb.mpr ⟨ha, hxb⟩).symm.trans hm)
        simp only [if_true, if_neg hx, ne_eq, ha, not_false_eq_true, true_and, hno, iff_false,
          Option.some.injEq]
        exact fun he => hx he.symm
    · rw [if_neg hba]
      by_cases hx : x = id
      · have hav : ¬ a = b := fun he => hba he.symm
        by_cases hbv : b = s.array.lineAddr id
        · simp [hx, hbv, hbv ▸ hav]
        · have hv : ¬ s.array.lineAddr id = b := fun he => hbv he.symm
          rw [if_neg hbv, hx, h.map b id]
          simp [hav, hv]
      · rw [if_neg hx]
        by_cases hbv : b = s.array.lineAddr id
        · have hno : ¬ (b ≠ 0 ∧ x ∈ order ∧ s.array.lineAddr x = b) := by
            rintro ⟨hb0, hxo, hxb⟩
            exact hx (h.unique hid (hbv ▸ hb0) x hxo (hxb.trans hbv))
          simp [hbv, hbv ▸ hno]
        · rw [if_neg hbv, hb]
  · rfl
  · intro p hp
    cases hp

theorem Refines.step (h : Refines numLines s c updates order) (hpos : 0 < numLines) (op : Op)
    (hop : Allowed s op) :
    ∃ s' order', step numLines s op = some ((c.step numLines op).1, s') ∧
      Refines numLines s' (c.step numLines op).2 (updated s op ++ updates) order' := by
  cases op with
  | lookup a u =>
    cases hm : s.array.lineMap a with
    | none =>
      obtain ⟨hs, hc, hu⟩ := h.lookup_miss hm hop u
      exact ⟨s, order, hs, by rw [hc, hu]; exact h⟩
    | some id =>
      cases u with
      | true =>
        obtain ⟨s', hs, h'⟩ := h.lookup_hit hm
        refine ⟨s', use id order, hs, ?_⟩
        have hu : updated s (.lookup a true) = [id] := by simp [updated, hm]
        rw [hu]
        exact h'
      | false =>
        have hc : a ∈ c.recent := by simp [h.mem_iff hop, hm]
        refine ⟨s, order, by simp [IdealLRUArray.step, lookup, hm, LRUCache.step, hc], ?_⟩
        simpa [LRUCache.step, updated] using h
  | preinsert a =>
    obtain ⟨s', hs, h'⟩ := h.preinsert hpos hop
    exact ⟨s', order, hs, h'⟩
  | postinsert =>
    obtain ⟨⟨a, id⟩, hp⟩ := Option.ne_none_iff_exists'.mp hop
    obtain ⟨s', hs, h'⟩ := h.postinsert hp
    refine ⟨s', use id order, hs, ?_⟩
    have hu : updated s .postinsert = [id] := by simp [updated, hp]
    rw [hu]
    exact h'

theorem Reachable.refines (hpos : 0 < numLines) (h : Reachable numLines s c updates) :
    ∃ order, Refines numLines s c updates order := by
  induction h with
  | init h =>
    obtain ⟨array, harray, hr⟩ := @init_spec numLines
    rw [h] at harray
    cases harray
    exact ⟨_, hr⟩
  | step _ hop hs ih =>
    obtain ⟨order, hr⟩ := ih
    obtain ⟨s₁, order', hs₁, hr'⟩ := hr.step hpos _ hop
    rw [hs] at hs₁
    cases hs₁
    exact ⟨order', hr'⟩

/-- In every state: the map, the lines and the LRU list describe the LRU cache; every operation
goes as it does there, with the same hits and victims; and intrusive lists are plain lists under
push, remove and pop. -/
theorem reachable_refines_lru (hpos : 0 < numLines) (h : Reachable numLines s c updates) :
    (∀ a id, s.array.lineMap a = some id ↔
      a ∈ c.recent ∧ id < numLines ∧ s.array.lineAddr id = a) ∧
    (∃ order, (s.array.lruList.Holds fun _ => order) ∧ order.Perm (List.range numLines) ∧
      ByLastUse updates order ∧ order.map s.array.lineAddr =
        c.recent ++ List.replicate (numLines - c.recent.length) 0) ∧
    (∀ op, Allowed s op → ∃ s', step numLines s op = some ((c.step numLines op).1, s')) ∧
    ∀ (lists : InLists Nat Unit) (f : Unit → List Nat), lists.Holds f → ∀ l,
      (∀ e, (∀ l, e ∉ f l) →
        (∃ lists', lists.push_front l e = some lists' ∧
          lists'.Holds (Function.update f l (e :: f l))) ∧
        ∃ lists', lists.push_back l e = some lists' ∧
          lists'.Holds (Function.update f l (f l ++ [e]))) ∧
      (∀ e ∈ f l, ∃ lists', lists.remove l e = some lists' ∧
        lists'.Holds (Function.update f l ((f l).erase e))) ∧
      (∃ lists', lists.pop_front l = some lists' ∧
        lists'.Holds (Function.update f l (f l).tail)) ∧
      ∃ lists', lists.pop_back l = some lists' ∧
        lists'.Holds (Function.update f l (f l).dropLast) := by
  obtain ⟨order, hr⟩ := h.refines hpos
  refine ⟨fun a id => ?_, ⟨order, hr.holds, hr.perm, hr.byUse, hr.addrs⟩, fun op hop => ?_,
    fun lists f hf l => ⟨fun e he => ⟨hf.push_front l he, hf.push_back l he⟩,
      fun e he => hf.remove he, hf.pop_front l, hf.pop_back l⟩⟩
  · rw [hr.map, ← List.mem_range, ← hr.perm.mem_iff]
    constructor
    · rintro ⟨ha, hid, haddr⟩
      exact ⟨(hr.mem_recent_iff ha).mpr ⟨id, hid, haddr⟩, hid, haddr⟩
    · rintro ⟨hc, hid, haddr⟩
      have ha : a ≠ 0 := fun h0 => hr.nonzero (h0 ▸ hc)
      exact ⟨ha, hid, haddr⟩
  · obtain ⟨s', -, hs, -⟩ := hr.step hpos op hop
    exact ⟨s', hs⟩

instance (s : Sys) (op : Op) : Decidable (Allowed s op) :=
  match op with
  | .lookup lineAddr _ => inferInstanceAs (Decidable (lineAddr ≠ 0))
  | .preinsert lineAddr => inferInstanceAs
    (Decidable (lineAddr ≠ 0 ∧ s.array.lineMap lineAddr = none ∧ s.pending = none))
  | .postinsert => inferInstanceAs (Decidable (s.pending ≠ none))

variable (numLines) in
/-- The operations one after the other, on the array and on the LRU cache. -/
def run (s : Sys) (c : LRUCache) : List Op → Option (Sys × LRUCache)
  | [] => some (s, c)
  | op :: ops =>
    if Allowed s op then (step numLines s op).bind fun r => run r.2 (c.step numLines op).2 ops
    else none

theorem Reachable.run {ops : List Op} {r : Sys × LRUCache} (h : Reachable numLines s c updates)
    (hr : run numLines s c ops = some r) : ∃ updates, Reachable numLines r.1 r.2 updates := by
  induction ops generalizing s c updates with
  | nil =>
    cases hr
    exact ⟨updates, h⟩
  | cons op ops ih =>
    rw [IdealLRUArray.run] at hr
    split at hr
    · next hop =>
      obtain ⟨⟨out, s'⟩, hs, hrest⟩ := Option.bind_eq_some_iff.mp hr
      exact ih (h.step hop hs) hrest
    · cases hr

/-- Two lines take 5 and 6, a hit makes 5 the most recent, and 7 replaces 6. -/
def fillAndEvict : List Op :=
  [.preinsert 5, .postinsert, .preinsert 6, .postinsert, .lookup 5 true, .preinsert 7,
    .postinsert, .lookup 6 true]

theorem reachable_refines_lru_fillAndEvict : ∃ s c updates, Reachable 2 s c updates ∧
    c.recent = [7, 5] ∧ s.array.lineMap 6 = none ∧ (s.array.lineMap 5).isSome = true ∧
    (step 2 s (.preinsert 6)).map Prod.fst = some (.victim 5) := by
  have hruns : ((init 2).bind fun array => run 2 ⟨array, none⟩ .empty fillAndEvict).map
      (fun r => (r.2.recent, r.1.array.lineAddr 0, r.1.pending)) = some ([7, 5], 5, none) := by
    decide +kernel
  obtain ⟨⟨s, c⟩, hr, hout⟩ := Option.map_eq_some_iff.mp hruns
  obtain ⟨hrecent, hrest⟩ := Prod.mk.inj hout
  obtain ⟨hfive, hpending⟩ := Prod.mk.inj hrest
  obtain ⟨array, harray, hrun⟩ := Option.bind_eq_some_iff.mp hr
  obtain ⟨updates, h⟩ := (Reachable.init harray).run hrun
  obtain ⟨hmap, -, hstep, -⟩ := reachable_refines_lru Nat.two_pos h
  have hsix : s.array.lineMap 6 = none := by
    rw [Option.eq_none_iff_forall_ne_some]
    intro id hid
    have hmem := ((hmap 6 id).mp hid).1
    rw [show c.recent = [7, 5] from hrecent] at hmem
    revert hmem
    decide
  have hmapped : s.array.lineMap 5 = some 0 :=
    (hmap 5 0).mpr ⟨by rw [show c.recent = [7, 5] from hrecent]; decide, by decide, hfive⟩
  obtain ⟨s', hs'⟩ := hstep (.preinsert 6) ⟨by decide, hsix, hpending⟩
  refine ⟨s, c, updates, h, hrecent, hsix, by rw [hmapped]; rfl, ?_⟩
  rw [hs']
  simp only [LRUCache.step, LRUCache.victim, show c.recent = [7, 5] from hrecent]
  rfl

end IdealLRUArray

end ZSim
