import ZSim.DDRQueues
import Mathlib.Tactic.Ring

/-! The wakeups of the controller: while a request waits in a queue, a scheduling event that
is not annulled is pending, and it comes in the memory cycle it was asked for. -/

namespace ZSim

namespace DDRConfig

variable {cfg : DDRConfig}

/-- The inequalities that the comment on `matchingMemToSysCycle` speaks of. -/
theorem sysToMemCycle_matching {memCycle : Nat} (hpos : 0 < memCycle) :
    cfg.sysToMemCycle (cfg.matchingMemToSysCycle memCycle) = memCycle := by
  have hfreq := cfg.freq
  have hmem := cfg.memFreq_pos
  rw [matchingMemToSysCycle, sysToMemCycle, Nat.div_div_eq_div_mul]
  set x := (2 * memCycle - 1) * cfg.sysFreqKHz / (cfg.memFreqKHz * 2) with hx
  have hlow : x * (cfg.memFreqKHz * 2) ≤ (2 * memCycle - 1) * cfg.sysFreqKHz :=
    Nat.div_mul_le_self _ _
  have hhigh : (2 * memCycle - 1) * cfg.sysFreqKHz < (x + 1) * (cfg.memFreqKHz * 2) := by
    rw [Nat.mul_comm (x + 1)]
    exact Nat.lt_mul_div_succ _ (by omega)
  have hsub : (2 * memCycle - 1) * cfg.sysFreqKHz =
      2 * (memCycle * cfg.sysFreqKHz) - cfg.sysFreqKHz := by
    rw [Nat.sub_mul, Nat.mul_assoc, Nat.one_mul]
  have hpred : (memCycle - 1) * cfg.sysFreqKHz = memCycle * cfg.sysFreqKHz - cfg.sysFreqKHz := by
    rw [Nat.sub_mul, Nat.one_mul]
  have hone : cfg.sysFreqKHz ≤ memCycle * cfg.sysFreqKHz := Nat.le_mul_of_pos_left _ hpos
  have hdouble : x * (cfg.memFreqKHz * 2) = 2 * (x * cfg.memFreqKHz) := by ring
  have hsucc : (x + 1) * (cfg.memFreqKHz * 2) = 2 * (x * cfg.memFreqKHz) + 2 * cfg.memFreqKHz := by
    ring
  have hdiv : x * cfg.memFreqKHz / cfg.sysFreqKHz = memCycle - 1 := by
    apply Nat.div_eq_of_lt_le
    · omega
    · rw [Nat.sub_add_cancel hpos]
      omega
  rw [hdiv]
  omega

theorem sysToMemCycle_mono {a b : Nat} (h : a ≤ b) : cfg.sysToMemCycle a ≤ cfg.sysToMemCycle b :=
  Nat.succ_le_succ (Nat.div_le_div_right (Nat.mul_le_mul_right _ h))

/-- The cycle that an event is queued at translates back to the cycle it is for. -/
theorem sysToMemCycle_enqSysCycle {memCycle sysCycle : Nat}
    (h : cfg.sysToMemCycle sysCycle ≤ memCycle) :
    cfg.sysToMemCycle (max (cfg.matchingMemToSysCycle memCycle) sysCycle) = memCycle := by
  have hpos : 0 < memCycle := Nat.lt_of_lt_of_le (Nat.succ_pos _) h
  have hmatch := @sysToMemCycle_matching cfg memCycle hpos
  rcases Nat.le_total sysCycle (cfg.matchingMemToSysCycle memCycle) with hle | hle
  · rw [Nat.max_eq_left hle]
    exact hmatch
  · rw [Nat.max_eq_right hle]
    have hmono := @sysToMemCycle_mono cfg _ _ hle
    omega

theorem matchingMemToSysCycle_pos {memCycle : Nat} (hpos : 0 < memCycle) :
    0 < cfg.matchingMemToSysCycle memCycle := by
  have hfreq := cfg.freq
  have hmem := cfg.memFreq_pos
  rw [matchingMemToSysCycle, Nat.div_div_eq_div_mul]
  apply Nat.div_pos _ (by omega)
  have hone : cfg.sysFreqKHz ≤ (2 * memCycle - 1) * cfg.sysFreqKHz :=
    Nat.le_mul_of_pos_left _ (by omega)
  omega

end DDRConfig

namespace DDRSched

variable {cfg : DDRConfig} {s s' : DDRSched}

/-- Every event is free, or pending once; of those pending only the next one is not annulled,
and it comes in its cycle. -/
structure Inv (cfg : DDRConfig) (s : DDRSched) : Prop where
  once : (s.pending.map Prod.fst).Nodup
  pending : ∀ e c, (e, c) ∈ s.pending → s.events e = .ANNULLED ∨
    s.events e = .QUEUED ∧ s.nextSchedEvent = some e ∧ 
      s.nextSchedCycle = WithTop.some (cfg.sysToMemCycle c)
  next : ∀ e, s.nextSchedEvent = some e →
    s.events e = .QUEUED ∧ ∃ c, (e, c) ∈ s.pending
  idle : s.nextSchedEvent = none → s.nextSchedCycle = ⊤
  free : ∀ e ∈ s.eventFreelist, s.events e = .IDLE
  freeOnce : s.eventFreelist.Nodup
  alloc : ∀ e, e ∈ s.pending.map Prod.fst ∨ e ∈ s.eventFreelist → e < s.numEvents

theorem inv_init : Inv cfg init where
  once := List.nodup_nil
  pending := by
    intro e c h
    cases h
  next := by
    intro e h
    cases h
  idle := fun _ => rfl
  free := by
    intro e h
    cases h
  freeOnce := List.nodup_nil
  alloc := by
    intro e h
    rcases h with h | h
    · cases h
    · cases h

theorem Inv.pending_ne_idle (h : Inv cfg s) {e c : Nat} (he : (e, c) ∈ s.pending) :
    s.events e ≠ .IDLE := by
  intro hidle
  rcases h.pending e c he with hann | ⟨hq, -⟩
  · rw [hidle] at hann
    cases hann
  · rw [hidle] at hq
    cases hq

/-- The next event is annulled, and all that are pending then are. -/
theorem Inv.annul (h : Inv cfg s) :
    ∃ s', s.annul = some s' ∧ s'.pending = s.pending ∧ s'.eventFreelist = s.eventFreelist ∧
      s'.numEvents = s.numEvents ∧ (∀ e c, (e, c) ∈ s.pending → s'.events e = .ANNULLED) ∧
      ∀ e ∈ s.eventFreelist, s'.events e = .IDLE := by
  rw [DDRSched.annul]
  match hn : s.nextSchedEvent with
  | none =>
    refine ⟨s, rfl, rfl, rfl, rfl, ?_, h.free⟩
    intro e c he
    rcases h.pending e c he with hann | ⟨-, hsome, -⟩
    · exact hann
    · rw [hn] at hsome
      cases hsome
  | some e₀ =>
    have hq := (h.next e₀ hn).1
    refine ⟨s.setState e₀ .ANNULLED, if_pos hq, rfl, rfl, rfl, ?_, ?_⟩
    · intro e c he
      by_cases hee : e = e₀
      · rw [hee]
        exact Function.update_self ..
      · refine (Function.update_of_ne hee ..).trans ?_
        rcases h.pending e c he with hann | ⟨-, hsome, -⟩
        · exact hann
        · rw [hn] at hsome
          cases hsome
          exact absurd rfl hee
    · intro e he
      have hee : e ≠ e₀ := by
        rintro rfl
        rw [h.free e he] at hq
        cases hq
      exact (Function.update_of_ne hee ..).trans (h.free e he)

theorem mem_map_fst {e : Nat} {l : List (Nat × Nat)} :
    e ∈ l.map Prod.fst ↔ ∃ c, (e, c) ∈ l := by
  constructor
  · intro h
    obtain ⟨⟨e', c⟩, hp, rfl⟩ := List.mem_map.mp h
    exact ⟨c, hp⟩
  · rintro ⟨c, hp⟩
    exact List.mem_map.mpr ⟨_, hp, rfl⟩

theorem alloc_spec (s : DDRSched) (hfree : ∀ e ∈ s.eventFreelist, s.events e = .IDLE)
    (honce : s.eventFreelist.Nodup)
    (hnum : ∀ e, e ∈ s.pending.map Prod.fst ∨ e ∈ s.eventFreelist → e < s.numEvents)
    (hpending : ∀ e c, (e, c) ∈ s.pending → s.events e = .ANNULLED) :
    s.alloc.2.events s.alloc.1 = .IDLE ∧ (∀ e, e ≠ s.alloc.1 → s.alloc.2.events e = s.events e) ∧
      s.alloc.2.pending = s.pending ∧ s.alloc.1 ∉ s.pending.map Prod.fst ∧
      s.alloc.1 ∉ s.alloc.2.eventFreelist ∧ (∀ e ∈ s.alloc.2.eventFreelist, e ∈ s.eventFreelist) ∧
      s.alloc.2.eventFreelist.Nodup ∧ s.alloc.1 < s.alloc.2.numEvents ∧
      s.numEvents ≤ s.alloc.2.numEvents := by
  rw [DDRSched.alloc]
  match hl : s.eventFreelist with
  | [] =>
    refine ⟨Function.update_self .., fun e he => Function.update_of_ne he .., rfl, ?_, ?_, ?_, ?_,
      Nat.lt_succ_self _, Nat.le_succ _⟩
    · intro hmem
      exact absurd (hnum _ (.inl hmem)) (Nat.lt_irrefl _)
    · show s.numEvents ∉ s.eventFreelist
      rw [hl]
      exact List.not_mem_nil
    · intro e he
      exact hl ▸ he
    · show s.eventFreelist.Nodup
      rw [hl]
      exact List.nodup_nil
  | e :: rest =>
    have hmem : e ∈ s.eventFreelist := by
      rw [hl]
      exact List.mem_cons_self
    rw [hl] at honce
    have hidle := hfree e hmem
    refine ⟨hidle, fun _ _ => rfl, rfl, ?_, (List.nodup_cons.mp honce).1,
      fun _ h => List.mem_cons_of_mem _ h, (List.nodup_cons.mp honce).2, hnum e (.inr hmem),
      Nat.le_refl _⟩
    intro hp
    obtain ⟨c, hp⟩ := mem_map_fst.mp hp
    have hann := hpending e c hp
    rw [hidle] at hann
    cases hann

theorem Inv.reschedule (h : Inv cfg s) {minSchedCycle sysCycle : Nat}
    (hmin : cfg.sysToMemCycle sysCycle ≤ minSchedCycle) :
    ∃ s', s.reschedule cfg minSchedCycle sysCycle = some s' ∧ Inv cfg s' ∧
      s'.nextSchedCycle = WithTop.some minSchedCycle := by
  obtain ⟨t, ht, hpend, hlist, hnumt, hann, hidle⟩ := h.annul
  obtain ⟨hself, hother, hp, hout, hnotfree, hsub, honce, hlt, hle⟩ := t.alloc_spec
    (by rwa [hlist]) (by rw [hlist]; exact h.freeOnce)
    (by rw [hpend, hlist, hnumt]; exact h.alloc)
    (by rwa [hpend])
  rw [hpend] at hp hout
  rw [hlist] at hsub
  set e := t.alloc.1 with he
  set u := t.alloc.2 with hu
  set c := max (cfg.matchingMemToSysCycle minSchedCycle) sysCycle with hc
  have henq : u.enqueue e c = some ((u.setState e .QUEUED).requeue e c) := if_pos hself
  set v : DDRSched := { (u.setState e .QUEUED).requeue e c with
    nextSchedEvent := some e
    nextSchedCycle := WithTop.some minSchedCycle } with hv
  have hsome : s.reschedule cfg minSchedCycle sysCycle = some v := by
    rw [DDRSched.reschedule, ht]
    show (u.enqueue e c).map _ = _
    rw [henq]
    rfl
  have hvpend : v.pending = (e, c) :: s.pending := congrArg ((e, c) :: ·) hp
  have hvself : v.events e = .QUEUED := Function.update_self ..
  have hvother : ∀ x, x ≠ e → v.events x = t.events x := fun x hx =>
    (Function.update_of_ne hx ..).trans (hother x hx)
  refine ⟨v, hsome, ?_, rfl⟩
  constructor
  · rw [hvpend]
    exact List.nodup_cons.mpr ⟨hout, h.once⟩
  · intro x d hx
    rw [hvpend] at hx
    rcases List.mem_cons.mp hx with heq | hx
    · cases heq
      exact .inr ⟨hvself, rfl, by rw [hc, DDRConfig.sysToMemCycle_enqSysCycle hmin]⟩
    · have hxe : x ≠ e := by
        rintro rfl
        exact hout (mem_map_fst.mpr ⟨d, hx⟩)
      rw [hvother x hxe]
      exact .inl (hann x d hx)
  · intro x hx
    cases hx
    exact ⟨hvself, c, by rw [hvpend]; exact List.mem_cons_self⟩
  · intro hnone
    cases hnone
  · intro x hx
    have hxe : x ≠ e := by
      rintro rfl
      exact hnotfree hx
    rw [hvother x hxe]
    exact hidle x (hsub x hx)
  · exact honce
  · intro x hx
    rw [hvpend] at hx
    have hold := h.alloc x
    show x < u.numEvents
    rcases hx with hx | hx
    · rcases List.mem_cons.mp hx with rfl | hx
      · exact hlt
      · have := hold (.inl hx)
        omega
    · have := hold (.inr (hsub x hx))
      omega

theorem Inv.take (h : Inv cfg s) {e c : Nat} (he : (e, c) ∈ s.pending) :
    e ∉ (s.pending.erase (e, c)).map Prod.fst ∧
      ((s.pending.erase (e, c)).map Prod.fst).Nodup ∧
      ∀ x d, (x, d) ∈ s.pending.erase (e, c) → (x, d) ∈ s.pending ∧ x ≠ e := by
  have hperm : (s.pending.map Prod.fst).Perm (e :: (s.pending.erase (e, c)).map Prod.fst) :=
    (List.perm_cons_erase he).map Prod.fst
  obtain ⟨hout, hnodup⟩ := List.nodup_cons.mp (hperm.nodup_iff.mp h.once)
  refine ⟨hout, hnodup, ?_⟩
  intro x d hx
  refine ⟨List.mem_of_mem_erase hx, ?_⟩
  rintro rfl
  exact hout (mem_map_fst.mpr ⟨d, hx⟩)

/-- An event that was run and is free again, with the next event as it was or gone. -/
theorem Inv.recycle (h : Inv cfg s) {e c : Nat} (he : (e, c) ∈ s.pending)
    {next : Option Nat} {cycle : WithTop Nat} {events : Nat → SchedEventState}
    (hevents : ∀ x, x ≠ e → events x = s.events x) (hself : events e = .IDLE)
    (hnext : next = none ∧ cycle = ⊤ ∧ s.nextSchedEvent = some e ∨
      next = s.nextSchedEvent ∧ cycle = s.nextSchedCycle ∧ s.nextSchedEvent ≠ some e) :
    Inv cfg ⟨events, s.numEvents, e :: s.eventFreelist, next, cycle, s.pending.erase (e, c)⟩ := by
  obtain ⟨hout, hnodup, hold⟩ := h.take he
  constructor
  · exact hnodup
  · intro x d hx
    obtain ⟨hx, hxe⟩ := hold x d hx
    show events x = _ ∨ events x = _ ∧ _
    rw [hevents x hxe]
    rcases h.pending x d hx with hann | ⟨hq, hn, hc⟩
    · exact .inl hann
    · rcases hnext with ⟨-, -, hgone⟩ | ⟨rfl, rfl, -⟩
      · rw [hn] at hgone
        cases hgone
        exact absurd rfl hxe
      · exact .inr ⟨hq, hn, hc⟩
  · intro x hx
    rcases hnext with ⟨rfl, -, -⟩ | ⟨rfl, -, hne⟩
    · cases hx
    · obtain ⟨hq, d, hd⟩ := h.next x hx
      have hxe : x ≠ e := by
        rintro rfl
        exact hne hx
      refine ⟨(hevents x hxe).trans hq, d, ?_⟩
      exact (List.mem_erase_of_ne (by simpa using fun hxe' => absurd hxe' hxe)).mpr hd
  · intro hx
    rcases hnext with ⟨-, rfl, -⟩ | ⟨rfl, rfl, -⟩
    · rfl
    · exact h.idle hx
  · intro x hx
    rcases List.mem_cons.mp hx with rfl | hfree
    · exact hself
    · have hidle := h.free x hfree
      have hxe : x ≠ e := by
        rintro rfl
        exact h.pending_ne_idle he hidle
      exact (hevents x hxe).trans hidle
  · refine List.nodup_cons.mpr ⟨?_, h.freeOnce⟩
    intro hx
    exact h.pending_ne_idle he (h.free e hx)
  · intro x hx
    rcases hx with hx | hx
    · obtain ⟨d, hx⟩ := mem_map_fst.mp hx
      exact h.alloc x (.inl (mem_map_fst.mpr ⟨d, (hold x d hx).1⟩))
    · rcases List.mem_cons.mp hx with rfl | hx
      · exact h.alloc x (.inl (mem_map_fst.mpr ⟨c, he⟩))
      · exact h.alloc x (.inr hx)

theorem Inv.requeue (h : Inv cfg s) {e c n sysCycle : Nat} (he : (e, c) ∈ s.pending)
    (hnext : s.nextSchedEvent = some e) (hmin : cfg.sysToMemCycle sysCycle ≤ n)
    {events : Nat → SchedEventState} (hevents : ∀ x, x ≠ e → events x = s.events x)
    (hself : events e = .QUEUED) :
    Inv cfg ⟨events, s.numEvents, s.eventFreelist, some e, WithTop.some n,
      (e, max (cfg.matchingMemToSysCycle n) sysCycle) :: s.pending.erase (e, c)⟩ := by
  obtain ⟨hout, hnodup, hold⟩ := h.take he
  constructor
  · exact List.nodup_cons.mpr ⟨hout, hnodup⟩
  · intro x d hx
    rcases List.mem_cons.mp hx with heq | hx
    · cases heq
      refine .inr ⟨hself, rfl, ?_⟩
      show WithTop.some n = _
      rw [DDRConfig.sysToMemCycle_enqSysCycle hmin]
    · obtain ⟨hx, hxe⟩ := hold x d hx
      left
      refine (hevents x hxe).trans ?_
      rcases h.pending x d hx with hann | ⟨-, hn, -⟩
      · exact hann
      · rw [hn] at hnext
        cases hnext
        exact absurd rfl hxe
  · intro x hx
    cases hx
    exact ⟨hself, _, List.mem_cons_self⟩
  · intro hx
    cases hx
  · intro x hx
    have hxe : x ≠ e := by
      rintro rfl
      exact h.pending_ne_idle he (h.free x hx)
    exact (hevents x hxe).trans (h.free x hx)
  · exact h.freeOnce
  · intro x hx
    rcases hx with hx | hx
    · rcases List.mem_cons.mp hx with rfl | hx
      · exact h.alloc x (.inl (mem_map_fst.mpr ⟨c, he⟩))
      · obtain ⟨d, hx⟩ := mem_map_fst.mp hx
        exact h.alloc x (.inl (mem_map_fst.mpr ⟨d, (hold x d hx).1⟩))
    · exact h.alloc x (.inr hx)

end DDRSched

end ZSim
