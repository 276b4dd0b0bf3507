import ZSim.UtilityMonitor

/-! The list of a set: a scan finds the first node of an address, or the last node, and
moving it to the front is a use of the LRU stack the list holds. -/

namespace ZSim

namespace UMon

open LinkedList LRUStack

variable {cfg : UMonConfig} {addr : Nat → Address} {next : Nat → Option Nat} {a : Address}

/-- The node before the one behind `front`. -/
def prevOf (prev : Option Nat) (front : List Nat) : Option Nat := front.getLast?.or prev

theorem prevOf_cons (prev : Option Nat) (x : Nat) (front : List Nat) :
    prevOf prev (x :: front) = prevOf (some x) front := by
  cases front with
  | nil => rfl
  | cons y front => simp [prevOf, List.getLast?_cons]

theorem scan_spec {rest : List Nat} {b : Nat} {prev head : Option Nat} (hne : rest ≠ [])
    (hb : b + rest.length = cfg.buckets) (h : Linked next head rest) :
    (∃ front c back, rest = front ++ c :: back ∧ addr c = a ∧ (∀ x ∈ front, addr x ≠ a) ∧
      scan cfg addr next a rest.length b prev head =
        some (prevOf prev front, c, some (b + front.length))) ∨
    ((∀ x ∈ rest, addr x ≠ a) ∧ ∃ front c, rest = front ++ [c] ∧
      scan cfg addr next a rest.length b prev head = some (prevOf prev front, c, none)) := by
  induction rest generalizing b prev head with
  | nil => exact absurd rfl hne
  | cons x rest ih =>
    obtain ⟨rfl, hl⟩ := h
    rw [List.length_cons] at hb ⊢
    by_cases hx : addr x = a
    · refine .inl ⟨[], x, rest, rfl, hx, nofun, ?_⟩
      rw [scan, if_pos hx]
      rfl
    · rw [scan, if_neg hx]
      cases rest with
      | nil =>
        have hlast : ¬ b < cfg.buckets - 1 := by
          rw [List.length_nil] at hb
          omega
        rw [if_neg hlast]
        refine .inr ⟨fun y hy => ?_, [], x, rfl, rfl⟩
        rw [List.mem_singleton.mp hy]
        exact hx
      | cons y rest =>
        have hmore : b < cfg.buckets - 1 := by
          rw [List.length_cons] at hb
          omega
        rw [if_pos hmore]
        have hb' : b + 1 + (y :: rest).length = cfg.buckets := by omega
        rcases @ih (b + 1) (some x) (next x) (List.cons_ne_nil _ _) hb' hl with
          ⟨front, c, back, hsplit, hc, hfront, hscan⟩ | ⟨hall, front, c, hsplit, hscan⟩
        · refine .inl ⟨x :: front, c, back, by rw [hsplit]; rfl, hc, ?_, ?_⟩
          · intro z hz
            rcases List.mem_cons.mp hz with rfl | hz
            · exact hx
            · exact hfront z hz
          · rw [hscan, prevOf_cons, List.length_cons, Nat.add_right_comm, Nat.add_assoc]
        · refine .inr ⟨?_, x :: front, c, by rw [hsplit]; rfl, ?_⟩
          · intro z hz
            rcases List.mem_cons.mp hz with rfl | hz
            · exact hx
            · exact hall z hz
          · rw [hscan, prevOf_cons]

/-- The list of a set holds the addresses `l`, the most recent first. -/
def Holds (u : UMon) (set : Nat) (l : List Address) : Prop :=
  ∃ chain, Linked (u.next set) (u.heads set) chain ∧ chain.Nodup ∧ chain.map (u.addr set) = l

/-- What a move to the front does to the list of its set, and to nothing else. -/
theorem moveToFront_spec {u : UMon} {s c : Nat} {front back : List Nat}
    (h : Linked (u.next s) (u.heads s) (front ++ c :: back)) (hnd : (front ++ c :: back).Nodup) :
    let u' := moveToFront u s (prevOf none front) c
    Linked (u'.next s) (u'.heads s) (c :: (front ++ back)) ∧
    (∀ t, t ≠ s → u'.next t = u.next t ∧ u'.heads t = u.heads t) ∧
    u'.addr = u.addr ∧ u'.curWayHits = u.curWayHits ∧ u'.curMisses = u.curMisses := by
  rcases List.eq_nil_or_concat' front with rfl | ⟨front, p, rfl⟩
  · exact ⟨h, fun _ _ => ⟨rfl, rfl⟩, rfl, rfl, rfl⟩
  · have hprev : prevOf none (front ++ [p]) = some p := by simp [prevOf]
    rw [List.append_assoc, List.singleton_append] at h hnd
    have hc : c ∉ front ++ p :: back := by
      have hperm : (front ++ p :: c :: back).Perm (c :: (front ++ p :: back)) := by
        refine List.Perm.trans ?_ List.perm_middle
        exact (List.Perm.swap c p back).append_left front
      exact (List.nodup_cons.mp (hperm.nodup_iff.mp hnd)).1
    have hlinked := (h.unlink hnd).push hc
    rw [hprev]
    refine ⟨?_, fun t ht => ⟨?_, ?_⟩, rfl, rfl, rfl⟩
    · simp only [moveToFront, Function.update_self]
      rw [List.append_assoc, List.singleton_append]
      exact hlinked
    · simp only [moveToFront, Function.update_of_ne ht]
    · simp only [moveToFront, Function.update_of_ne ht]

theorem use_append_cons {front back : List Address} (h : a ∉ front) :
    use a (front ++ a :: back) = a :: (front ++ back) := by
  rw [use, List.erase_append_right _ h, List.erase_cons_head]

theorem idxOf_append_cons {front back : List Address} (h : a ∉ front) :
    (front ++ a :: back).idxOf a = front.length := by
  rw [List.idxOf_append_of_notMem h, List.idxOf_cons_self, Nat.add_zero]

/-- An access that is sampled is a use of the stack of its set, counted at its depth. -/
theorem access_spec {hash : Nat → Address → Nat} {u : UMon} {l : List Address}
    (hs : sampled cfg hash a = true) (h : Holds u (set cfg hash a) l)
    (hlen : l.length = cfg.buckets) :
    ∃ u', u.access cfg hash a = some u' ∧
      Holds u' (set cfg hash a) (cacheUse cfg.buckets a l) ∧
      (∀ s l', s ≠ set cfg hash a → Holds u s l' → Holds u' s l') ∧
      (a ∈ l → u'.curMisses = u.curMisses ∧
        u'.curWayHits = Function.update u.curWayHits (l.idxOf a) (u.curWayHits (l.idxOf a) + 1)) ∧
      (a ∉ l → u'.curMisses = u.curMisses + 1 ∧ u'.curWayHits = u.curWayHits) := by
  obtain ⟨chain, hlinked, hnd, rfl⟩ := h
  set s := set cfg hash a with hset
  rw [List.length_map] at hlen
  have hne : chain ≠ [] := by
    rintro rfl
    exact absurd hlen (Nat.ne_of_lt cfg.buckets_pos)
  rw [access, if_pos hs, ← hset]
  rcases @scan_spec cfg (u.addr s) (u.next s) a chain 0 none (u.heads s) hne (by omega) hlinked with
    ⟨front, c, back, rfl, hc, hfront, hscan⟩ | ⟨hall, front, c, rfl, hscan⟩
  · rw [hlen] at hscan
    have hnot : a ∉ front.map (u.addr s) := by
      intro hm
      obtain ⟨x, hx, he⟩ := List.mem_map.mp hm
      exact hfront x hx he
    have hmap : (front ++ c :: back).map (u.addr s) =
        front.map (u.addr s) ++ a :: back.map (u.addr s) := by
      rw [List.map_append, List.map_cons, hc]
    obtain ⟨hl, hother, haddr, hhits, hmisses⟩ := moveToFront_spec (u := { u with
      curWayHits := Function.update u.curWayHits (0 + front.length)
        (u.curWayHits (0 + front.length) + 1) }) hlinked hnd
    simp only [hscan]
    refine ⟨_, rfl, ⟨_, hl, List.perm_middle.nodup_iff.mp hnd, ?_⟩, fun t l' ht hl' => ?_,
      fun _ => ⟨hmisses, ?_⟩, fun hno => ?_⟩
    · rw [haddr, hmap, cacheUse, use_append_cons hnot, List.map_cons, List.map_append, hc]
      rw [List.take_of_length_le]
      simp only [List.length_append, List.length_cons, List.length_map] at hlen ⊢
      omega
    · obtain ⟨chain, h1, h2, h3⟩ := hl'
      refine ⟨chain, ?_, h2, by rw [haddr]; exact h3⟩
      rw [(hother t ht).1, (hother t ht).2]
      exact h1
    · rw [hhits, hmap, idxOf_append_cons hnot, List.length_map, Nat.zero_add]
    · exact absurd (by rw [hmap]; simp) hno
  · rw [hlen] at hscan
    have hnot : a ∉ (front ++ [c]).map (u.addr s) := by
      intro hm
      obtain ⟨x, hx, he⟩ := List.mem_map.mp hm
      exact hall x hx he
    have hend : u.next s c = none := hlinked.next_last
    obtain ⟨hl, hother, haddr, hhits, hmisses⟩ := moveToFront_spec (u := { u with
      curMisses := u.curMisses + 1
      addr := Function.update u.addr s (Function.update (u.addr s) c a) }) hlinked hnd
    simp only [hscan, hend, if_true]
    refine ⟨_, rfl, ⟨_, hl, List.perm_middle.nodup_iff.mp hnd, ?_⟩, fun t l' ht hl' => ?_,
      fun hyes => absurd hyes hnot, fun _ => ⟨hmisses, hhits⟩⟩
    · have hcfront : ∀ x ∈ front, x ≠ c := by
        rintro x hx rfl
        exact (List.nodup_append.mp hnd).2.2 x hx x List.mem_cons_self rfl
      have hmapfront : front.map (Function.update (u.addr s) c a) = front.map (u.addr s) :=
        List.map_congr_left fun x hx => Function.update_of_ne (hcfront x hx) _ _
      rw [haddr]
      show List.map (Function.update u.addr s (Function.update (u.addr s) c a) s) _ = _
      rw [Function.update_self, List.append_nil, List.map_cons, Function.update_self, hmapfront,
        cacheUse, use, List.erase_of_not_mem hnot, List.map_append]
      rw [List.length_append, List.length_singleton] at hlen
      rw [← hlen, List.take_succ_cons, List.take_append_of_le_length (by rw [List.length_map]),
        List.take_of_length_le (by rw [List.length_map])]
    · obtain ⟨chain, h1, h2, h3⟩ := hl'
      refine ⟨chain, ?_, h2, ?_⟩
      · rw [(hother t ht).1, (hother t ht).2]
        exact h1
      · rw [haddr]
        show List.map (Function.update u.addr s _ t) chain = l'
        rw [Function.update_of_ne ht]
        exact h3

end UMon

end ZSim
