import ZSim.BarrierInvariant

/-! The scan of a phase and its end keep the invariant, and fail no assert. -/

namespace ZSim

namespace Barrier

variable {b b' : Barrier} {t : Nat}

theorem Lists.not_running (h : Lists b) (h0 : b.runningThreads = 0) :
    ∀ t ∈ b.runList, b.state t ≠ .RUNNING := by
  intro t ht hrun
  rw [h.running, List.countP_eq_zero] at h0
  exact h0 t ht (by simp [hrun])

theorem Lists.all_left (h : Lists b) : b.leftThreads = b.runList.length ↔
    ∀ t ∈ b.runList, b.state t = .LEFT := by
  rw [h.left, List.countP_eq_length]
  simp

theorem Inv.wake (h : Inv b) {idx : Nat} (hidx : idx = b.curThreadIdx)
    (ht : b.runList[idx]? = some t) (hw : b.state t = .WAITING)
    (hlt : b.runningThreads < b.parallelThreads) :
    ∃ b', wake { b with curThreadIdx := idx + 1 } idx t = some b' ∧ Inv b' ∧
      b'.curThreadIdx = idx + 1 ∧ b'.runList = b.runList ∧ b'.synced = b.synced ∧
      ∀ x, Joined b'.state x ↔ Joined b.state x := by
  subst hidx
  have hmem := List.mem_of_getElem? ht
  have hnd := h.lists.nodup
  refine ⟨_, if_pos (h.lists.futex t hw), ⟨?_, ?_⟩, rfl, rfl, rfl, ?_⟩
  · have hfutex : ∀ x, Function.update b.state t .RUNNING x = .WAITING →
        Function.update b.futexWord t 0 x = 1 := by
      intro x hx
      by_cases hxt : x = t
      · rw [hxt, Function.update_self] at hx
        cases hx
      · rw [Function.update_of_ne hxt] at hx ⊢
        exact h.lists.futex x hx
    have hplaced : ∀ x ∈ b.runList, Function.update b.woken t true x = true →
        b.runList[Function.update b.lastIdx t b.curThreadIdx x]? = some x := by
      intro x hx hwk
      by_cases hxt : x = t
      · rw [hxt, Function.update_self]
        exact ht
      · rw [Function.update_of_ne hxt] at hwk ⊢
        exact h.lists.placed x hx hwk
    have hrun : b.runningThreads + 1 + (if b.state t = .RUNNING then 1 else 0) =
        b.runningThreads + if BarrierState.RUNNING = .RUNNING then 1 else 0 := by
      rw [hw]
      rfl
    have hleft : b.leftThreads + (if b.state t = .LEFT then 1 else 0) =
        b.leftThreads + if BarrierState.RUNNING = .LEFT then 1 else 0 := by
      rw [hw]
      rfl
    exact (h.lists.update hmem (by decide) hrun hleft hlt hfutex hplaced).congr rfl rfl rfl rfl
      rfl rfl rfl rfl
  · obtain ⟨hlen, -⟩ := List.getElem?_eq_some_iff.mp ht
    constructor
    · exact hlen
    · intro i x hi hx
      show Function.update b.state t .RUNNING x = .LEFT ∨
        Function.update b.state t .RUNNING x = .RUNNING ∨ x ∈ b.synced
      by_cases hxt : x = t
      · rw [hxt, Function.update_self]
        exact .inr (.inl rfl)
      · rw [Function.update_of_ne hxt]
        have hne : i ≠ b.curThreadIdx := by
          rintro rfl
          rw [show b.runList[b.curThreadIdx]? = some x from hx] at ht
          exact hxt (Option.some.inj ht)
        have hi' : i < b.curThreadIdx + 1 := hi
        exact h.phase.before i x (by omega) hx
    · intro i x hi hx
      have hle : b.curThreadIdx + 1 ≤ i := hi
      have hxt : x ≠ t := by
        rintro rfl
        have := eq_of_getElem? hnd hx ht
        omega
      show Function.update b.state t .RUNNING x ≠ .RUNNING ∧ x ∉ b.synced
      rw [Function.update_of_ne hxt]
      exact h.phase.after i x (by omega) hx
    · intro x hx
      have hxt : x ≠ t := fun he => (h.phase.after _ t (Nat.le_refl _) ht).2 (he ▸ hx)
      show Function.update b.state t .RUNNING x ≠ .RUNNING
      rw [Function.update_of_ne hxt]
      exact h.phase.synced x hx
    · exact h.phase.parallel
    · exact h.phase.ends
  · intro x
    show Joined (Function.update b.state t .RUNNING) x ↔ Joined b.state x
    rw [Joined, Joined]
    by_cases hxt : x = t
    · rw [hxt, Function.update_self, hw]
      simp
    · rw [Function.update_of_ne hxt]

theorem Inv.left_of_skipped (h : Inv b) (ht : b.runList[b.curThreadIdx]? = some t)
    (hw : b.state t ≠ .WAITING) : b.state t = .LEFT := by
  have hlisted := (h.lists.listed t).mp (List.mem_of_getElem? ht)
  have hrun := (h.phase.after _ t (Nat.le_refl _) ht).1
  match hst : b.state t with
  | .OFFLINE => exact absurd hst hlisted
  | .WAITING => exact absurd hst hw
  | .RUNNING => exact absurd hst hrun
  | .LEFT => rfl

theorem Inv.skip (h : Inv b) (ht : b.runList[b.curThreadIdx]? = some t)
    (hw : b.state t ≠ .WAITING) : Inv { b with curThreadIdx := b.curThreadIdx + 1 } := by
  obtain ⟨hlen, -⟩ := List.getElem?_eq_some_iff.mp ht
  have hleft := h.left_of_skipped ht hw
  refine ⟨h.lists.congr rfl rfl rfl rfl rfl rfl rfl rfl, ?_⟩
  constructor
  · exact hlen
  · intro i x hi hx
    have hi' : i < b.curThreadIdx + 1 := hi
    rcases Nat.lt_succ_iff_lt_or_eq.mp hi' with hi | rfl
    · exact h.phase.before i x hi hx
    · rw [show b.runList[b.curThreadIdx]? = some x from hx] at ht
      cases ht
      exact .inl hleft
  · intro i x hi hx
    have hi' : b.curThreadIdx + 1 ≤ i := hi
    exact h.phase.after i x (by omega) hx
  · exact h.phase.synced
  · exact h.phase.parallel
  · exact h.phase.ends

theorem Inv.checkRunListFrom {k : Nat} (h : Inv b)
    (hk : b.runList.length ≤ k + b.curThreadIdx) :
    ∃ b', checkRunListFrom k b = some b' ∧ Inv b' ∧ b'.synced = b.synced ∧
      (b'.runningThreads = b'.parallelThreads ∨ b'.curThreadIdx = b'.runList.length) ∧
      ∀ x, Joined b'.state x ↔ Joined b.state x := by
  induction k generalizing b with
  | zero =>
    refine ⟨b, rfl, h, rfl, .inr ?_, fun _ => Iff.rfl⟩
    have := h.phase.cur_le
    omega
  | succ k ih =>
    rw [Barrier.checkRunListFrom]
    by_cases hgo : b.runningThreads < b.parallelThreads ∧ b.curThreadIdx < b.runList.length
    · rw [if_pos hgo, List.getElem?_eq_getElem hgo.2, Option.bind_some]
      have hcur := List.getElem?_eq_getElem hgo.2
      set wtid := b.runList[b.curThreadIdx]
      by_cases hw : b.state wtid = .WAITING
      · rw [if_pos hw]
        obtain ⟨b₁, hb₁, h₁, hidx, hlist, hsynced, hjoined⟩ := h.wake rfl hcur hw hgo.1
        obtain ⟨b', hb', h', hsynced', hsettled, hjoined'⟩ := ih h₁ (by rw [hlist, hidx]; omega)
        refine ⟨b', ?_, h', hsynced'.trans hsynced, hsettled,
          fun x => (hjoined' x).trans (hjoined x)⟩
        rw [hb₁]
        exact hb'
      · rw [if_neg hw]
        apply ih (h.skip hcur hw)
        show b.runList.length ≤ k + (b.curThreadIdx + 1)
        omega
    · rw [if_neg hgo]
      refine ⟨b, rfl, h, rfl, ?_, fun _ => Iff.rfl⟩
      have hle := h.lists.le
      have hcur := h.phase.cur_le
      omega

theorem checkRunList_idle
    (h : b.runningThreads = b.parallelThreads ∨ b.curThreadIdx = b.runList.length) :
    checkRunList b = some b := by
  rw [checkRunList]
  cases b.runList.length - b.curThreadIdx with
  | zero => rfl
  | succ k =>
    rw [Barrier.checkRunListFrom, if_neg]
    omega

/-- The list without the thread at `idx`, whose place the last one takes. -/
theorem set_dropLast_perm {l : List Nat} {idx x y : Nat} (hx : l[idx]? = some x)
    (hy : l[l.length - 1]? = some y) : ((l.set idx y).dropLast ++ [x]).Perm l := by
  have hswap := perm_swap hx hy
  have hlast : ∀ l' : List Nat, l' ≠ [] → l'.set (l'.length - 1) x = l'.dropLast ++ [x] := by
    intro l' hne
    induction l' with
    | nil => exact absurd rfl hne
    | cons z l' ih =>
      cases l' with
      | nil => rfl
      | cons w l' => exact congrArg (z :: ·) (ih (List.cons_ne_nil _ _))
  obtain ⟨hlt, -⟩ := List.getElem?_eq_some_iff.mp hx
  have hne : l.set idx y ≠ [] := by
    intro he
    have := congrArg List.length he
    rw [List.length_set, List.length_nil] at this
    omega
  have hl := hlast _ hne
  rw [List.length_set] at hl
  rw [hl] at hswap
  exact hswap

/-- The list during the cleanup pass, while `leftThreads` is not up to date. -/
def Cleaning (b : Barrier) : Prop :=
  Lists { b with leftThreads := b.runList.countP fun t => b.state t = .LEFT }

theorem Cleaning.remove (h : Cleaning b) {idx s : Nat} (ht : b.runList[idx]? = some t)
    (hleft : b.state t = .LEFT) (hs : b.runList[b.runList.length - 1]? = some s) :
    Cleaning { b.setState t .OFFLINE with
      runList := (b.runList.set idx s).dropLast
      lastIdx := Function.update b.lastIdx s idx } := by
  have hperm := set_dropLast_perm ht hs
  have hnd : ((b.runList.set idx s).dropLast ++ [t]).Nodup := hperm.nodup_iff.mpr h.nodup
  obtain ⟨hnd', -, hout⟩ := List.nodup_append.mp hnd
  have hnot : t ∉ (b.runList.set idx s).dropLast := fun hm => hout t hm t List.mem_cons_self rfl
  have hmem : ∀ x, x ∈ (b.runList.set idx s).dropLast ↔ x ∈ b.runList ∧ x ≠ t := by
    intro x
    rw [← hperm.mem_iff, List.mem_append, List.mem_singleton]
    constructor
    · intro hx
      exact ⟨.inl hx, fun he => hnot (he ▸ hx)⟩
    · rintro ⟨hx | hx, hne⟩
      · exact hx
      · exact absurd hx hne
  have hcount : ∀ c, c ≠ .OFFLINE → c ≠ .LEFT →
      (b.runList.set idx s).dropLast.countP (fun x => Function.update b.state t .OFFLINE x = c) =
        b.runList.countP fun x => b.state x = c := by
    intro c _ hc
    rw [← hperm.countP_eq, List.countP_append, List.countP_singleton, hleft,
      if_neg (by simpa using Ne.symm hc), Nat.add_zero]
    apply List.countP_congr
    intro x hx
    rw [Function.update_of_ne ((hmem x).mp hx).2]
  constructor
  · exact hnd'
  · intro x
    show x ∈ (b.runList.set idx s).dropLast ↔ Function.update b.state t .OFFLINE x ≠ .OFFLINE
    rw [hmem]
    by_cases hx : x = t
    · rw [hx, Function.update_self]
      exact ⟨fun hh => absurd rfl hh.2, fun hh => absurd rfl hh⟩
    · rw [Function.update_of_ne hx]
      exact (and_iff_left hx).trans (h.listed x)
  · exact h.running.trans (hcount .RUNNING (by decide) (by decide)).symm
  · rfl
  · exact h.le
  · intro x hx
    change Function.update b.state t .OFFLINE x = .WAITING at hx
    by_cases hxt : x = t
    · rw [hxt, Function.update_self] at hx
      cases hx
    · rw [Function.update_of_ne hxt] at hx
      exact h.futex x hx
  · intro x hx hw
    obtain ⟨hxl, hxt⟩ := (hmem x).mp hx
    obtain ⟨hidx, -⟩ := List.getElem?_eq_some_iff.mp ht
    show (b.runList.set idx s).dropLast[Function.update b.lastIdx s idx x]? = some x
    rw [List.getElem?_dropLast, List.length_set]
    by_cases hxs : x = s
    · rw [hxs, Function.update_self, List.getElem?_set, if_pos rfl, if_pos hidx, if_pos]
      have hne : idx ≠ b.runList.length - 1 := by
        intro he
        rw [← he, ht] at hs
        exact hxt (hxs.trans (Option.some.inj hs).symm)
      omega
    · rw [Function.update_of_ne hxs]
      have hold : b.runList[b.lastIdx x]? = some x := h.placed x hxl hw
      obtain ⟨hlt, -⟩ := List.getElem?_eq_some_iff.mp hold
      have hnl : b.lastIdx x ≠ b.runList.length - 1 := by
        intro he
        rw [he, hs] at hold
        exact hxs (Option.some.inj hold).symm
      have hni : idx ≠ b.lastIdx x := by
        rintro he
        rw [← he, ht] at hold
        exact hxt (Option.some.inj hold).symm
      rw [if_pos (by omega), List.getElem?_set, if_neg hni, hold]

theorem not_left_of_scanned {idx : Nat} (hle : b.runList.length ≤ idx)
    (hdone : ∀ i t, i < idx → b.runList[i]? = some t → b.state t ≠ .LEFT) :
    (∀ t ∈ b.runList, b.state t ≠ .LEFT) ∧
      b.runList.countP (fun t => b.state t = .LEFT) = 0 := by
  have hnone : ∀ t ∈ b.runList, b.state t ≠ .LEFT := by
    intro t ht
    obtain ⟨i, hi⟩ := List.getElem?_of_mem ht
    obtain ⟨hlt, -⟩ := List.getElem?_eq_some_iff.mp hi
    exact hdone i t (by omega) hi
  refine ⟨hnone, ?_⟩
  rw [List.countP_eq_zero]
  intro t ht
  simpa using hnone t ht

theorem Cleaning.cleanupFrom {k idx : Nat} (h : Cleaning b)
    (hk : b.runList.length ≤ k + idx)
    (hdone : ∀ i t, i < idx → b.runList[i]? = some t → b.state t ≠ .LEFT) :
    ∃ b', cleanupFrom k idx b = some b' ∧ Cleaning b' ∧ (∀ t ∈ b'.runList, b'.state t ≠ .LEFT) ∧
      b'.runList.length + b.runList.countP (fun t => b.state t = .LEFT) = b.runList.length ∧
      (∀ x, Joined b'.state x ↔ Joined b.state x) ∧
      ∃ state runList lastIdx,
        b' = { b with state := state, runList := runList, lastIdx := lastIdx } := by
  induction k generalizing b idx with
  | zero =>
    obtain ⟨hnone, hcount⟩ := not_left_of_scanned (by omega) hdone
    exact ⟨b, rfl, h, hnone, by omega, fun _ => Iff.rfl, _, _, _, rfl⟩
  | succ k ih =>
    rw [Barrier.cleanupFrom]
    by_cases hidx : idx < b.runList.length
    · have ht := List.getElem?_eq_getElem hidx
      rw [if_pos hidx, ht, Option.bind_some]
      set wtid := b.runList[idx]
      by_cases hleft : b.state wtid = .LEFT
      · have hlast : b.runList.length - 1 < b.runList.length := by omega
        have hs := List.getElem?_eq_getElem hlast
        rw [if_pos hleft, hs, Option.bind_some]
        set stid := b.runList[b.runList.length - 1]
        have hrem := h.remove ht hleft hs
        have hperm := set_dropLast_perm ht hs
        have hlen : (b.runList.set idx stid).dropLast.length = b.runList.length - 1 := by
          rw [List.length_dropLast, List.length_set]
        have hpre : ∀ i t, i < idx → ((b.runList.set idx stid).dropLast)[i]? = some t →
            Function.update b.state wtid .OFFLINE t ≠ .LEFT := by
          intro i x hi hx
          by_cases hxw : x = wtid
          · rw [hxw, Function.update_self]
            decide
          · rw [Function.update_of_ne hxw]
            rw [List.getElem?_dropLast] at hx
            split at hx
            · rw [List.getElem?_set, if_neg (by omega)] at hx
              exact hdone i x hi hx
            · cases hx
        have hcount : b.runList.countP (fun t => b.state t = .LEFT) =
            ((b.runList.set idx stid).dropLast).countP
              (fun t => Function.update b.state wtid .OFFLINE t = .LEFT) + 1 := by
          have hnd : ((b.runList.set idx stid).dropLast ++ [wtid]).Nodup :=
            hperm.nodup_iff.mpr h.nodup
          obtain ⟨-, -, hout⟩ := List.nodup_append.mp hnd
          rw [← hperm.countP_eq, List.countP_append, List.countP_singleton, hleft]
          congr 1
          apply List.countP_congr
          intro x hx
          rw [Function.update_of_ne (hout x hx wtid List.mem_cons_self)]
        obtain ⟨b', hb', hc, hnone, hrest, hjoined, s, l, i, rfl⟩ := ih hrem
          (by show (b.runList.set idx stid).dropLast.length ≤ k + idx; omega) hpre
        refine ⟨_, hb', hc, hnone, ?_, ?_, s, l, i, rfl⟩
        · have hrest' : l.length + ((b.runList.set idx stid).dropLast).countP
              (fun t => Function.update b.state wtid .OFFLINE t = .LEFT) =
                (b.runList.set idx stid).dropLast.length := hrest
          show l.length + _ = _
          omega
        · intro x
          refine (hjoined x).trans ?_
          show Joined (Function.update b.state wtid .OFFLINE) x ↔ Joined b.state x
          rw [Joined, Joined]
          by_cases hxw : x = wtid
          · rw [hxw, Function.update_self, hleft]
            simp
          · rw [Function.update_of_ne hxw]
      · rw [if_neg hleft]
        apply ih h (by omega)
        intro i x hi hx
        rcases Nat.lt_succ_iff_lt_or_eq.mp hi with hi | rfl
        · exact hdone i x hi hx
        · rw [ht] at hx
          exact Option.some.inj hx ▸ hleft
    · obtain ⟨hnone, hcount⟩ := not_left_of_scanned (by omega) hdone
      rw [if_neg hidx]
      exact ⟨b, rfl, h, hnone, by omega, fun _ => Iff.rfl, _, _, _, rfl⟩

structure Fresh (b : Barrier) : Prop where
  lists : Lists b
  cur : b.curThreadIdx = 0
  synced : b.synced = []
  idle : b.runningThreads = 0
  ends : ∀ e ∈ b.phaseEnds, Complete e.runList e.state e.synced

theorem Fresh.inv (h : Fresh b) : Inv b := by
  refine ⟨h.lists, ?_⟩
  constructor
  · rw [h.cur]
    exact Nat.zero_le _
  · intro i t hi
    rw [h.cur] at hi
    exact absurd hi (Nat.not_lt_zero _)
  · intro i t _ ht
    rw [h.synced]
    exact ⟨h.lists.not_running h.idle t (List.mem_of_getElem? ht), List.not_mem_nil⟩
  · intro t ht
    rw [h.synced] at ht
    cases ht
  · intro hne
    exact absurd h.synced hne
  · exact h.ends

/-- The assert of the cleanup pass holds, and no thread that left remains. -/
theorem Fresh.cleanup (h : Fresh b) (hpos : 0 < b.runList.length) :
    ∃ b', b.cleanup = some b' ∧ Fresh b' ∧ ∀ x, Joined b'.state x ↔ Joined b.state x := by
  have hc : Cleaning b := h.lists.congr rfl rfl rfl rfl rfl rfl h.lists.left.symm rfl
  obtain ⟨b', hb', hc', hnone, hcount, hjoined, s, l, i, rfl⟩ :=
    @Cleaning.cleanupFrom b b.runList.length 0 hc (by omega)
      (fun i _ hi => absurd hi (Nat.not_lt_zero i))
  have hout : b.runList.length - l.length = b.leftThreads := by
    have hcount' : l.length + b.runList.countP (fun t => b.state t = .LEFT) =
        b.runList.length := hcount
    rw [h.lists.left]
    omega
  have hzero : l.countP (fun t => s t = .LEFT) = 0 := by
    rw [List.countP_eq_zero]
    intro t ht
    simpa using hnone t ht
  refine ⟨{ b with state := s, runList := l, lastIdx := i, leftThreads := 0 }, ?_, ?_, hjoined⟩
  · rw [Barrier.cleanup, if_pos hpos, hb', Option.bind_some, if_pos hout]
  · constructor
    · exact hc'.congr rfl rfl rfl rfl rfl rfl hzero.symm rfl
    · exact h.cur
    · exact h.synced
    · exact h.idle
    · exact h.ends

theorem Fresh.shuffleFrom (rand : Nat → Nat) {k : Nat} (h : Fresh b)
    (hk : k < b.runList.length) :
    ∃ b', shuffleFrom rand k b = some b' ∧ Fresh b' ∧ b'.state = b.state := by
  induction k generalizing b with
  | zero => exact ⟨b, rfl, h, rfl⟩
  | succ k ih =>
    have hmod : rand (k + 1) % (k + 2) < k + 2 := Nat.mod_lt _ (by omega)
    obtain ⟨b₁, hb₁, hl₁, -, hperm, l, i, rfl⟩ :=
      h.lists.swap hk (show rand (k + 1) % (k + 2) < b.runList.length by omega)
    rw [Barrier.shuffleFrom, hb₁, Option.bind_some]
    have hf₁ : Fresh { b with runList := l, lastIdx := i } := by
      constructor
      · exact hl₁
      · exact h.cur
      · exact h.synced
      · exact h.idle
      · exact h.ends
    have hlen : l.length = b.runList.length := hperm.length_eq
    exact ih hf₁ (by show k < l.length; omega)

theorem Fresh.shuffle (rand : Nat → Nat) (h : Fresh b) :
    ∃ b', b.shuffle rand = some b' ∧ Fresh b' ∧ b'.state = b.state := by
  rw [Barrier.shuffle]
  split
  · next hlt => exact h.shuffleFrom rand (by omega)
  · exact ⟨b, rfl, h, rfl⟩

theorem Inv.endPhase (rand : Nat → Nat) (h : Inv b) (hcur : b.curThreadIdx = b.runList.length)
    (hrun : b.runningThreads = 0) (hleft : b.leftThreads ≠ b.runList.length) :
    ∃ b', b.endPhase rand = some b' ∧ Fresh b' ∧ ∀ x, Joined b'.state x ↔ Joined b.state x := by
  have hidle := h.lists.not_running hrun
  have hstay : ∃ t ∈ b.runList, b.state t ≠ .LEFT := by
    by_contra hall
    push Not at hall
    exact hleft (h.lists.all_left.mpr hall)
  have hcomplete : Complete b.runList b.state b.synced := by
    refine ⟨hstay, fun t ht => ?_⟩
    obtain ⟨i, hi⟩ := List.getElem?_of_mem ht
    obtain ⟨hlt, -⟩ := List.getElem?_eq_some_iff.mp hi
    rcases h.phase.before i t (by omega) hi with hst | hst | hst
    · exact .inl hst
    · exact absurd hst (hidle t ht)
    · exact .inr hst
  have hpos : 0 < b.runList.length := by
    obtain ⟨t, ht, -⟩ := hstay
    exact List.length_pos_of_mem ht
  have hfresh : Fresh { b with
      phaseEnds := ⟨b.runList, b.state, b.synced⟩ :: b.phaseEnds
      synced := []
      curThreadIdx := 0
      phaseCount := (b.phaseCount + 1) % 2 ^ 32 } := by
    constructor
    · exact h.lists.congr rfl rfl rfl rfl rfl rfl rfl rfl
    · rfl
    · rfl
    · exact hrun
    · intro e he
      rcases List.mem_cons.mp he with rfl | he
      · exact hcomplete
      · exact h.phase.ends e he
  rw [Barrier.endPhase]
  split
  · obtain ⟨b₁, hb₁, hf₁, hjoined⟩ := hfresh.cleanup hpos
    obtain ⟨b', hb', hf, hstate⟩ := hf₁.shuffle rand
    rw [hb₁]
    exact ⟨b', hb', hf, by rw [hstate]; exact hjoined⟩
  · obtain ⟨b', hb', hf, hstate⟩ := hfresh.shuffle rand
    exact ⟨b', hb', hf, fun x => by rw [hstate]⟩

/-- A phase in which no thread synced has ended with none that runs: all have left. -/
theorem Inv.all_left_of_scanned (h : Inv b) (hsynced : b.synced = [])
    (hcur : b.curThreadIdx = b.runList.length) (hrun : b.runningThreads = 0) :
    ∀ t ∈ b.runList, b.state t = .LEFT := by
  intro t ht
  obtain ⟨i, hi⟩ := List.getElem?_of_mem ht
  obtain ⟨hlt, -⟩ := List.getElem?_eq_some_iff.mp hi
  rcases h.phase.before i t (by omega) hi with hst | hst | hst
  · exact hst
  · exact absurd hst (h.lists.not_running hrun t ht)
  · rw [hsynced] at hst
    cases hst

theorem Inv.tryWakeNext (rand : Nat → Nat) (h : Inv b) :
    ∃ b', tryWakeNext rand b = some b' ∧ Inv b' ∧ Settled b' ∧
      ∀ x, Joined b'.state x ↔ Joined b.state x := by
  obtain ⟨b₁, hb₁, h₁, -, hstop, hjoined₁⟩ :=
    h.checkRunListFrom (k := b.runList.length - b.curThreadIdx) (by omega)
  rw [Barrier.tryWakeNext, Barrier.checkRunList, hb₁, Option.bind_some, checkEndPhase]
  by_cases hend : b₁.curThreadIdx = b₁.runList.length ∧ b₁.runningThreads = 0
  · rw [if_pos hend]
    by_cases hleft : b₁.leftThreads = b₁.runList.length
    · rw [if_pos hleft, Option.bind_some, checkRunList_idle hstop]
      exact ⟨b₁, rfl, h₁, ⟨hstop, fun _ _ => h₁.lists.all_left.mp hleft⟩, hjoined₁⟩
    · obtain ⟨b₂, hb₂, hf, hjoined₂⟩ := h₁.endPhase rand hend.1 hend.2 hleft
      obtain ⟨b₃, hb₃, h₃, hsynced, hstop₃, hjoined₃⟩ :=
        hf.inv.checkRunListFrom (k := b₂.runList.length - b₂.curThreadIdx) (by omega)
      rw [if_neg hleft, hb₂, Option.bind_some, Barrier.checkRunList, hb₃]
      refine ⟨b₃, rfl, h₃, ⟨hstop₃, h₃.all_left_of_scanned (hsynced.trans hf.synced)⟩, ?_⟩
      intro x
      exact (hjoined₃ x).trans ((hjoined₂ x).trans (hjoined₁ x))
  · rw [if_neg hend, Option.bind_some, checkRunList_idle hstop]
    exact ⟨b₁, rfl, h₁, ⟨hstop, fun hcur hrun => absurd ⟨hcur, hrun⟩ hend⟩, hjoined₁⟩

end Barrier

end ZSim
