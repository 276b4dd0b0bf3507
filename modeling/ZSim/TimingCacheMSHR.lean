import ZSim.TimingCache
import Mathlib.Data.List.Perm.Basic

/-! The MSHRs of a timing cache under any order of hits, miss starts and miss writebacks. -/

namespace ZSim

/-- A miss that got an MSHR. `finish` is the cycle of its writeback and the PMC handed to
DTRM. -/
structure Miss where
  mse : MissStartEvent
  start : Nat
  finish : Option (Nat × ℚ)

def Miss.isOutstanding (m : Miss) : Bool := m.finish.isNone

/-- A timing cache with the misses it started, oldest first. -/
structure TimingRun where
  cache : TimingCache
  misses : List Miss

/-- A writeback is that of the `i`th miss started. -/
inductive CacheEvent
  | hit (ev cycle : Nat)
  | missStart (mse : MissStartEvent) (cycle : Nat)
  | missWriteback (ev cycle i : Nat)

def CacheEvent.cycle : CacheEvent → Nat
  | .hit _ cycle => cycle
  | .missStart _ cycle => cycle
  | .missWriteback _ cycle _ => cycle

/-- The PMC that a handler passes to DTRM. -/
def handed (calls : List TimingCall) : Option ℚ :=
  calls.findSome? fun
    | .DTRM pmc => some pmc
    | _ => none

namespace TimingRun

def init (numMSHRs : Nat) (care : CAREReplPolicy) : TimingRun := ⟨.init numMSHRs care, []⟩

def step (s : TimingRun) : CacheEvent → Option TimingRun
  | .hit ev cycle => (s.cache.simulateHit ev cycle).map fun r => { s with cache := r.1 }
  | .missStart mse cycle => (s.cache.simulateMissStart mse cycle).map fun r =>
      { cache := r.1
        misses :=
          if s.cache.activeMisses < s.cache.numMSHRs then s.misses ++ [⟨mse, cycle, none⟩]
          else s.misses }
  | .missWriteback ev cycle i => (s.misses[i]?).bind fun m =>
      (s.cache.simulateMissWriteback ev cycle m.mse).map fun r =>
        { cache := r.1
          misses :=
            match handed r.2 with
            | some pmc => s.misses.set i { m with finish := some (cycle, pmc) }
            | none => s.misses }

/-- A miss is written back after its start, and once. -/
def Allowed (s : TimingRun) : CacheEvent → Prop
  | .missWriteback _ _ i => ∃ m, s.misses[i]? = some m ∧ m.finish = none
  | _ => True

/-- The states reached by events in any order and at any cycles. -/
inductive Reachable (numMSHRs : Nat) (care : CAREReplPolicy) : TimingRun → Prop
  | init : Reachable numMSHRs care (init numMSHRs care)
  | step {s s' : TimingRun} (h : Reachable numMSHRs care s) (e : CacheEvent)
      (ha : s.Allowed e) (hs : s.step e = some s') : Reachable numMSHRs care s'

/-- The misses started and not yet written back. -/
def outstanding (s : TimingRun) : List Miss := s.misses.filter Miss.isOutstanding

end TimingRun

namespace TimingCache

variable {c : TimingCache} {l l' : List MSHR} {a : Address}

def validEntries (l : List MSHR) : List MSHR := l.filter (·.valid)

theorem validEntries_cons_pos {e : MSHR} (h : e.valid = true) :
    validEntries (e :: l) = e :: validEntries l := List.filter_cons_of_pos h

theorem validEntries_cons_neg {e : MSHR} (h : ¬ e.valid = true) :
    validEntries (e :: l) = validEntries l := List.filter_cons_of_neg h

theorem addMSHR_spec {new : MSHR} (hnew : new.valid = true)
    (hfree : (validEntries l).length < l.length) :
    ∃ l', addMSHR new l = some l' ∧ l'.length = l.length ∧
      (validEntries l').Perm (new :: validEntries l) := by
  induction l with
  | nil => cases hfree
  | cons e l ih =>
    rw [addMSHR]
    by_cases he : e.valid = false
    · refine ⟨new :: l, if_pos he, rfl, ?_⟩
      rw [validEntries_cons_pos hnew, validEntries_cons_neg (by simp [he])]
    · have he' : e.valid = true := by simpa using he
      rw [validEntries_cons_pos he', List.length_cons, List.length_cons] at hfree
      obtain ⟨l', hl', hlen, hperm⟩ := ih (Nat.lt_of_succ_lt_succ hfree)
      refine ⟨e :: l', ?_, congrArg (· + 1) hlen, ?_⟩
      · rw [if_neg he, hl']
        rfl
      · rw [validEntries_cons_pos he', validEntries_cons_pos he']
        exact (hperm.cons e).trans (.swap new e _)

theorem removeMSHR_spec (h : ∃ e ∈ validEntries l, e.lineAddr = a) :
    ∃ e l', removeMSHR a l = some (e, l') ∧ e.lineAddr = a ∧ l'.length = l.length ∧
      (validEntries l).Perm (e :: validEntries l') := by
  induction l with
  | nil =>
    obtain ⟨e, he, -⟩ := h
    cases he
  | cons x l ih =>
    rw [removeMSHR]
    by_cases hx : x.lineAddr = a ∧ x.valid = true
    · refine ⟨x, _, if_pos hx, hx.1, rfl, ?_⟩
      rw [validEntries_cons_pos hx.2, validEntries_cons_neg (by simp)]
    · have hrest : ∃ e ∈ validEntries l, e.lineAddr = a := by
        obtain ⟨e, he, hea⟩ := h
        obtain ⟨hmem, hv⟩ := List.mem_filter.mp he
        rcases List.mem_cons.mp hmem with rfl | hmem
        · exact absurd ⟨hea, hv⟩ hx
        · exact ⟨e, List.mem_filter.mpr ⟨hmem, hv⟩, hea⟩
      obtain ⟨e, l', hl', hea, hlen, hperm⟩ := ih hrest
      refine ⟨e, x :: l', ?_, hea, congrArg (· + 1) hlen, ?_⟩
      · rw [if_neg hx, hl']
        rfl
      · by_cases hv : x.valid = true
        · rw [validEntries_cons_pos hv, validEntries_cons_pos hv]
          exact (hperm.cons x).trans (.swap e x _)
        · rw [validEntries_cons_neg hv, validEntries_cons_neg hv]
          exact hperm

theorem MSHRAdd_spec (c : TimingCache) (a : Address) (id : Nat)
    (hfree : (validEntries c.mshrList).length < c.mshrList.length) :
    ∃ l, c.MSHRAdd a id = { c with mshrList := l } ∧ l.length = c.mshrList.length ∧
      (validEntries l).Perm (⟨a, true, id, 0, c.care.hashAddr a⟩ :: validEntries c.mshrList) := by
  obtain ⟨l, hl, hlen, hperm⟩ :=
    @addMSHR_spec c.mshrList ⟨a, true, id, 0, c.care.hashAddr a⟩ rfl hfree
  refine ⟨l, ?_, hlen, hperm⟩
  rw [MSHRAdd, hl]

theorem MSHRRemove_spec (c : TimingCache) (h : ∃ e ∈ validEntries c.mshrList, e.lineAddr = a) :
    ∃ e l, c.MSHRRemove a = ({ c with mshrList := l }, e.PMC) ∧ e.lineAddr = a ∧
      l.length = c.mshrList.length ∧ (validEntries c.mshrList).Perm (e :: validEntries l) := by
  obtain ⟨e, l, hl, hea, hlen, hperm⟩ := removeMSHR_spec h
  refine ⟨e, l, ?_, hea, hlen, hperm⟩
  rw [MSHRRemove, hl]

/-- The accumulation touches only the PMCs of the valid entries. -/
theorem PCMUpdate_spec (c : TimingCache) (cycle : Nat) : ∃ (l : List MSHR) (w : List CareWarning),
    c.PCMUpdate cycle = { c with mshrList := l, lastRecordedCycle := cycle, warnings := w } ∧
      l.length = c.mshrList.length ∧
      (validEntries l).map (·.lineAddr) = (validEntries c.mshrList).map (·.lineAddr) ∧
      ∀ x, x ≠ .cycleDifferenceNegative → x ∈ w → x ∈ c.warnings := by
  have hmap : ∀ (n : Nat) (d : Int) (l : List MSHR),
      (validEntries (l.map fun e => if e.valid then { e with PMC := e.PMC + charge n d } else e)).map
        (·.lineAddr) = (validEntries l).map (·.lineAddr) := by
    intro n d l
    induction l with
    | nil => rfl
    | cons e l ih =>
      rw [List.map_cons]
      by_cases he : e.valid = true
      · have hv : ({ e with PMC := e.PMC + charge n d } : MSHR).valid = true := he
        rw [if_pos he, validEntries_cons_pos hv, validEntries_cons_pos he, List.map_cons,
          List.map_cons, ih]
      · rw [if_neg he, validEntries_cons_neg he, validEntries_cons_neg he, ih]
  rw [PCMUpdate]
  by_cases hd : clockDiff c.lastRecordedCycle cycle < 0
  · rw [if_pos hd, if_pos hd]
    refine ⟨_, _, rfl, ?_, ?_, ?_⟩
    · show (ite _ _ _ : List MSHR).length = _
      split
      · exact List.length_map ..
      · rfl
    · show (validEntries (ite _ _ _)).map _ = _
      split
      · exact hmap ..
      · rfl
    · intro x hx hm
      exact (List.mem_cons.mp hm).resolve_left hx
  · rw [if_neg hd, if_neg hd]
    refine ⟨_, _, rfl, ?_, ?_, fun x _ hm => hm⟩
    · split
      · exact List.length_map ..
      · rfl
    · split
      · exact hmap ..
      · rfl

theorem highPrioAccess_spec {cycle : Nat} {r : TimingCache × Nat}
    (h : c.highPrioAccess cycle = some r) :
    ∃ acc free, r.1 = { c with lastAccCycle := acc, lastFreeCycle := free } := by
  rw [highPrioAccess] at h
  split at h
  · cases h
    exact ⟨_, _, rfl⟩
  · cases h

theorem tryLowPrioAccess_spec (c : TimingCache) (cycle : Nat) :
    ∃ acc free, (c.tryLowPrioAccess cycle).1 =
      { c with lastAccCycle := acc, lastFreeCycle := free } := by
  rw [tryLowPrioAccess]
  split
  · exact ⟨_, _, rfl⟩
  · exact ⟨_, _, rfl⟩

end TimingCache

namespace TimingRun

open TimingCache

variable {s s' : TimingRun} {c : TimingCache} {misses : List Miss}

theorem perm_finish {i : Nat} {m : Miss} {x : Nat × ℚ} (hm : misses[i]? = some m)
    (hout : m.finish = none) :
    (misses.filter Miss.isOutstanding).Perm
      (m :: (misses.set i { m with finish := some x }).filter Miss.isOutstanding) := by
  induction misses generalizing i with
  | nil => cases hm
  | cons y misses ih =>
    cases i with
    | zero =>
      obtain rfl : y = m := Option.some.inj hm
      have hy : y.isOutstanding = true := by rw [Miss.isOutstanding, hout]; rfl
      rw [List.set_cons_zero, List.filter_cons_of_pos hy]
      exact List.Perm.refl _
    | succ i =>
      have hrest := ih hm
      rw [List.set_cons_succ]
      by_cases hy : y.isOutstanding = true
      · rw [List.filter_cons_of_pos hy, List.filter_cons_of_pos hy]
        exact (hrest.cons y).trans (.swap m y _)
      · rw [List.filter_cons_of_neg hy, List.filter_cons_of_neg hy]
        exact hrest

/-- The MSHRs hold the outstanding misses, and events wait only for an MSHR. -/
structure Inv (s : TimingRun) : Prop where
  length : s.cache.mshrList.length = s.cache.numMSHRs
  active : (validEntries s.cache.mshrList).length = s.cache.activeMisses
  addresses : ((validEntries s.cache.mshrList).map (·.lineAddr)).Perm
    (s.outstanding.map (·.mse.lineAddr))
  pending : s.cache.pendingQueue ≠ [] → s.cache.activeMisses = s.cache.numMSHRs
  space : .outOfSpace ∉ s.cache.warnings
  removed : .entryNotRemoved ∉ s.cache.warnings

theorem Inv.le (h : Inv s) : s.cache.activeMisses ≤ s.cache.numMSHRs := by
  rw [← h.active, ← h.length]
  exact List.length_filter_le _ _

theorem Inv.ports (h : Inv ⟨c, misses⟩) (acc free : Nat) :
    Inv ⟨{ c with lastAccCycle := acc, lastFreeCycle := free }, misses⟩ :=
  ⟨h.length, h.active, h.addresses, h.pending, h.space, h.removed⟩

theorem Inv.hold (h : Inv s) (hfull : ¬ s.cache.activeMisses < s.cache.numMSHRs) (ev : Nat) :
    Inv ⟨(s.cache.hold ev).1, s.misses⟩ := by
  have hle := h.le
  have heq : s.cache.activeMisses = s.cache.numMSHRs := by omega
  exact ⟨h.length, h.active, h.addresses, fun _ => heq, h.space, h.removed⟩

theorem Inv.hit (h : Inv s) {ev cycle : Nat} {r : TimingCache × List TimingCall}
    (hs : s.cache.simulateHit ev cycle = some r) : Inv ⟨r.1, s.misses⟩ := by
  rw [simulateHit] at hs
  split at hs
  · obtain ⟨q, hq, rfl⟩ := Option.map_eq_some_iff.mp hs
    obtain ⟨acc, free, hports⟩ := highPrioAccess_spec hq
    show Inv ⟨q.1, s.misses⟩
    rw [hports]
    exact h.ports acc free
  · next hfull =>
    cases hs
    exact h.hold hfull ev

theorem Inv.start (h : Inv s) (hlt : s.cache.activeMisses < s.cache.numMSHRs)
    (mse : MissStartEvent) (cycle : Nat) :
    Inv ⟨((s.cache.setActive (s.cache.activeMisses + 1)).MSHRAdd mse.lineAddr mse.lineId).PCMUpdate
      cycle, s.misses ++ [⟨mse, cycle, none⟩]⟩ := by
  have hfree : (validEntries s.cache.mshrList).length < s.cache.mshrList.length := by
    rw [h.active, h.length]
    exact hlt
  obtain ⟨l, hadd, hlen, hperm⟩ := MSHRAdd_spec (s.cache.setActive (s.cache.activeMisses + 1))
    mse.lineAddr mse.lineId hfree
  have hnone : s.cache.pendingQueue = [] := by
    by_contra hne
    have := h.pending hne
    omega
  obtain ⟨l', w, hup, hlen', hmap, hw⟩ := PCMUpdate_spec
    ((s.cache.setActive (s.cache.activeMisses + 1)).MSHRAdd mse.lineAddr mse.lineId) cycle
  rw [hup]
  rw [hadd] at hlen' hmap hw ⊢
  have hcount := congrArg List.length hmap
  rw [List.length_map, List.length_map] at hcount
  constructor
  · exact hlen'.trans (hlen.trans h.length)
  · show (validEntries l').length = s.cache.activeMisses + 1
    rw [hcount, hperm.length_eq, List.length_cons, ← h.active]
    rfl
  · set m : Miss := ⟨mse, cycle, none⟩
    have hlist : (s.misses ++ [m]).filter Miss.isOutstanding = s.outstanding ++ [m] :=
      List.filter_append ..
    have hold := (hperm.map MSHR.lineAddr).trans (h.addresses.cons mse.lineAddr)
    show ((validEntries l').map (·.lineAddr)).Perm (List.map (fun m : Miss => m.mse.lineAddr)
      ((s.misses ++ [m]).filter Miss.isOutstanding))
    rw [hmap, hlist, List.map_append]
    exact hold.trans (List.perm_append_singleton _ _).symm
  · intro hne
    exact absurd hnone hne
  · intro hm
    exact h.space (hw _ (by decide) hm)
  · intro hm
    exact h.removed (hw _ (by decide) hm)

theorem Inv.release (h : Inv s) {i : Nat} {m : Miss} (hm : s.misses[i]? = some m)
    (hout : m.finish = none) (ev cycle : Nat) :
    ∃ r pmc, s.cache.release ev cycle m.mse = some r ∧ handed r.2 = some pmc ∧
      Inv ⟨r.1, s.misses.set i { m with finish := some (cycle, pmc) }⟩ := by
  have hmem : m ∈ s.outstanding :=
    List.mem_filter.mpr ⟨List.mem_of_getElem? hm, by rw [Miss.isOutstanding, hout]; rfl⟩
  have haddr : m.mse.lineAddr ∈ (validEntries s.cache.mshrList).map (·.lineAddr) :=
    h.addresses.mem_iff.mpr (List.mem_map_of_mem hmem)
  obtain ⟨x, hx, hxa⟩ := List.mem_map.mp haddr
  obtain ⟨e, l, hrem, hea, hlen, hperm⟩ :=
    MSHRRemove_spec (s.cache.setActive (s.cache.activeMisses - 1)) ⟨x, hx, hxa⟩
  have hcount : (validEntries s.cache.mshrList).length = (validEntries l).length + 1 :=
    hperm.length_eq
  have hactive := h.active
  have hpos : 0 < s.cache.activeMisses := by omega
  refine ⟨_, _, if_pos hpos, rfl, ?_⟩
  obtain ⟨l', w, hup, hlen', hmap, hw⟩ := PCMUpdate_spec
    ((s.cache.setActive (s.cache.activeMisses - 1)).MSHRRemove m.mse.lineAddr).1 cycle
  rw [hup]
  rw [hrem] at hlen' hmap hw ⊢
  have hcount' := congrArg List.length hmap
  rw [List.length_map, List.length_map] at hcount'
  constructor
  · exact hlen'.trans (hlen.trans h.length)
  · show (validEntries l').length = s.cache.activeMisses - 1
    rw [hcount']
    show (validEntries l).length = _
    omega
  · have hold := (hperm.map (·.lineAddr)).symm.trans
      (h.addresses.trans ((perm_finish (x := (cycle, e.PMC)) hm hout).map (·.mse.lineAddr)))
    rw [List.map_cons, List.map_cons, hea] at hold
    show ((validEntries l').map (·.lineAddr)).Perm (List.map (fun m : Miss => m.mse.lineAddr)
      ((s.misses.set i { m with finish := some (cycle, e.PMC) }).filter Miss.isOutstanding))
    rw [hmap]
    exact hold.cons_inv
  · intro hne
    exact absurd rfl hne
  · intro hw'
    exact h.space (hw _ (by decide) hw')
  · intro hw'
    exact h.removed (hw _ (by decide) hw')

/-- A writeback of an outstanding miss releases it, or is put off. -/
theorem Inv.writeback (h : Inv s) {i : Nat} {m : Miss} (hm : s.misses[i]? = some m)
    (hout : m.finish = none) (lookupCycle ev cycle : Nat) :
    ∃ r, s.cache.writeback lookupCycle ev cycle m.mse = some r ∧
      (handed r.2 = none ∧ Inv ⟨r.1, s.misses⟩ ∨ ∃ pmc, handed r.2 = some pmc ∧
        Inv ⟨r.1, s.misses.set i { m with finish := some (cycle, pmc) }⟩) := by
  rw [TimingCache.writeback]
  by_cases hq : lookupCycle ≠ 0
  · obtain ⟨r, pmc, hr, hhanded, hinv⟩ := h.release hm hout ev cycle
    rw [if_pos hq]
    exact ⟨r, hr, .inr ⟨pmc, hhanded, hinv⟩⟩
  · rw [if_neg hq]
    exact ⟨(s.cache, [.requeue ev (nextCycle cycle)]), rfl, .inl ⟨rfl, h⟩⟩

theorem Inv.simulateMissWriteback (h : Inv s) {i : Nat} {m : Miss} (hm : s.misses[i]? = some m)
    (hout : m.finish = none) (ev cycle : Nat) :
    ∃ r, s.cache.simulateMissWriteback ev cycle m.mse = some r ∧
      (handed r.2 = none ∧ Inv ⟨r.1, s.misses⟩ ∨ ∃ pmc, handed r.2 = some pmc ∧
        Inv ⟨r.1, s.misses.set i { m with finish := some (cycle, pmc) }⟩) := by
  obtain ⟨acc, free, hports⟩ := tryLowPrioAccess_spec s.cache cycle
  rw [TimingCache.simulateMissWriteback, hports]
  exact (h.ports acc free).writeback hm hout _ ev cycle

theorem Inv.step (h : Inv s) {e : CacheEvent} (ha : s.Allowed e) (hs : s.step e = some s') :
    Inv s' := by
  cases e with
  | hit ev cycle =>
    obtain ⟨r, hr, rfl⟩ := Option.map_eq_some_iff.mp hs
    exact h.hit hr
  | missStart mse cycle =>
    obtain ⟨r, hr, rfl⟩ := Option.map_eq_some_iff.mp hs
    rw [simulateMissStart] at hr
    split at hr
    · next hlt =>
      obtain ⟨q, hq, rfl⟩ := Option.map_eq_some_iff.mp hr
      obtain ⟨acc, free, hports⟩ := highPrioAccess_spec hq
      rw [if_pos hlt]
      show Inv ⟨q.1, _⟩
      rw [hports]
      exact (h.start hlt mse cycle).ports acc free
    · next hfull =>
      cases hr
      rw [if_neg hfull]
      exact h.hold hfull mse.ev
  | missWriteback ev cycle i =>
    obtain ⟨m, hm, hout⟩ := ha
    obtain ⟨r, hr, hinv⟩ := h.simulateMissWriteback hm hout ev cycle
    rw [TimingRun.step, hm, Option.bind_some, hr, Option.map_some, Option.some.injEq] at hs
    rw [← hs]
    rcases hinv with ⟨hnone, hinv⟩ | ⟨pmc, hsome, hinv⟩
    · rw [hnone]
      exact hinv
    · rw [hsome]
      exact hinv

theorem Reachable.inv {numMSHRs : Nat} {care : CAREReplPolicy}
    (h : Reachable numMSHRs care s) : Inv s := by
  induction h with
  | init =>
    have hnone : validEntries (List.replicate numMSHRs ⟨0, false, 0, 0, 0⟩) = [] := by
      rw [validEntries, List.filter_eq_nil_iff]
      intro e he
      rw [(List.mem_replicate.mp he).2]
      simp
    constructor
    · exact List.length_replicate
    · exact congrArg List.length hnone
    · show ((validEntries (List.replicate numMSHRs ⟨0, false, 0, 0, 0⟩)).map _).Perm _
      rw [hnone]
      exact List.Perm.refl _
    · intro hne
      exact absurd rfl hne
    · exact List.not_mem_nil
    · exact List.not_mem_nil
  | step _ _ ha hs ih => exact ih.step ha hs

/-- What the counter, the MSHRs and the queue of held events say of each other. -/
structure Bookkeeping (s : TimingRun) : Prop where
  valid : s.cache.mshrList.countP (·.valid) = s.cache.activeMisses
  le : s.cache.activeMisses ≤ s.cache.numMSHRs
  addresses : ((s.cache.mshrList.filter (·.valid)).map (·.lineAddr)).Perm
    (s.outstanding.map (·.mse.lineAddr))
  full : s.cache.pendingQueue ≠ [] → s.cache.activeMisses = s.cache.numMSHRs
  added : .outOfSpace ∉ s.cache.warnings
  removed : .entryNotRemoved ∉ s.cache.warnings
  released : ∀ m ∈ s.outstanding, ∀ ev cycle,
    s.cache.simulateMissWriteback ev cycle m.mse ≠ none

/-- The MSHR bookkeeping holds after events in any order and at any cycles. -/
theorem reachable_bookkeeping {numMSHRs : Nat} {care : CAREReplPolicy}
    (h : Reachable numMSHRs care s) : Bookkeeping s := by
  have hinv := h.inv
  refine ⟨?_, hinv.le, hinv.addresses, hinv.pending, hinv.space, hinv.removed, ?_⟩
  · rw [List.countP_eq_length_filter]
    exact hinv.active
  · intro m hm ev cycle
    obtain ⟨hmem, hout⟩ := List.mem_filter.mp hm
    obtain ⟨i, hi⟩ := List.getElem?_of_mem hmem
    obtain ⟨r, hr, -⟩ := hinv.simulateMissWriteback hi (Option.isNone_iff_eq_none.mp hout) ev cycle
    rw [hr]
    exact Option.some_ne_none r

/-- Two misses of one line fill two MSHRs and a hit is held; the writeback of one miss leaves
the other's MSHR and lets the hit go. -/
theorem reachable_bookkeeping_same_line : ∃ s t : TimingRun, Reachable 2 (.init 4) s ∧
    s.cache.activeMisses = 2 ∧ s.cache.pendingQueue = [2] ∧ Bookkeeping s ∧
    s.step (.missWriteback 3 20 1) = some t ∧ t.misses.length = 2 ∧ t.cache.activeMisses = 1 ∧
    t.cache.pendingQueue = [] ∧ Bookkeeping t := by
  have h₀ : Reachable 2 (.init 4) _ := .init
  have h₁ := h₀.step (.missStart ⟨0, 5, 0⟩ 10) trivial rfl
  have h₂ := h₁.step (.missStart ⟨1, 5, 1⟩ 12) trivial rfl
  have h₃ := h₂.step (.hit 2 13) trivial rfl
  have h₄ := h₃.step (.missWriteback 3 20 1) ⟨_, rfl, rfl⟩ rfl
  exact ⟨_, _, h₃, rfl, rfl, reachable_bookkeeping h₃, rfl, rfl, rfl, rfl,
    reachable_bookkeeping h₄⟩

end TimingRun

end ZSim
