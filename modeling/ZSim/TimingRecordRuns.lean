import ZSim.ParentCacheSafety
import ZSim.TimingRecordEvents

/-! When an access of a reachable cache leaves exactly one record that is right without
contention. -/

namespace ZSim

namespace MESITopCC

variable {n : Nat} {e : Entry} {invLat : Nat → Nat} {cycle : Nat}

theorem le_foldl_max {cs : List Nat} {m : Nat} (h : cycle ≤ m) :
    cycle ≤ cs.foldl
      (fun maxCycle c => if e.sharers c then max (cycle + invLat c) maxCycle else maxCycle) m := by
  induction cs generalizing m with
  | nil => exact h
  | cons c cs ih =>
    have hm : cycle ≤ if e.sharers c then max (cycle + invLat c) m else m := by
      split <;> omega
    exact ih hm

theorem le_sendCycle {type : InvType} : cycle ≤ sendCycle n e type invLat cycle := by
  rw [sendCycle]
  split
  · exact le_rfl
  · split
    · exact le_rfl
    · exact le_foldl_max le_rfl

theorem foldl_max_eq_iff {cs : List Nat} {m : Nat} (h : cycle ≤ m) :
    cs.foldl (fun maxCycle c => if e.sharers c then max (cycle + invLat c) maxCycle
        else maxCycle) m = cycle ↔
      m = cycle ∧ ∀ c ∈ cs, e.sharers c = true → invLat c = 0 := by
  induction cs generalizing m with
  | nil => simp
  | cons c cs ih =>
    rw [List.foldl_cons, ih (by split <;> omega), List.forall_mem_cons]
    by_cases hc : e.sharers c = true
    · rw [if_pos hc]
      constructor
      · rintro ⟨hm, hrest⟩
        exact ⟨by omega, fun _ => by omega, hrest⟩
      · rintro ⟨rfl, hlat, hrest⟩
        exact ⟨by have := hlat hc; omega, hrest⟩
    · rw [if_neg hc]
      simp [hc]

/-- Invalidations take no time if and only if no child that gets one takes time. -/
theorem sendCycle_inv_eq_iff :
    sendCycle n e .INV invLat cycle = cycle ↔
      (e.isEmpty = false → ∀ c < n, e.sharers c = true → invLat c = 0) := by
  rw [sendCycle, if_neg (by simp)]
  cases he : e.isEmpty with
  | true => simp
  | false =>
    rw [if_neg (by simp), foldl_max_eq_iff le_rfl]
    simp

theorem le_accessCycle {type : AccessType} {c : Nat} {haveExclusive : Bool} {flags : BitVec 32} :
    cycle ≤ accessCycle n e type c haveExclusive flags invLat cycle := by
  cases type with
  | PUTX => exact le_rfl
  | PUTS => exact le_rfl
  | GETS =>
    simp only [accessCycle]
    split
    · exact le_rfl
    · split
      · exact le_sendCycle
      · exact le_rfl
  | GETX => exact le_sendCycle

/-- The response to a GETX is delayed if and only if the invalidation of another sharer takes
time. -/
theorem accessCycle_getx_eq_iff {p : MESIState} {child : Nat → MESIState} {c : Nat}
    {haveExclusive : Bool} {flags : BitVec 32} (h : e.Agrees n p child) (hc : c < n) :
    accessCycle n e .GETX c haveExclusive flags invLat cycle = cycle ↔
      ∀ d < n, d ≠ c → e.sharers d = true → invLat d = 0 := by
  simp only [accessCycle]
  rw [sendCycle_inv_eq_iff]
  by_cases hs : e.sharers c = true
  · rw [if_pos hs]
    have hsharer : ∀ d, (e.setSharer c false).sharers d = true ↔ d ≠ c ∧ e.sharers d = true := by
      intro d
      by_cases hd : d = c
      · simp [Entry.setSharer, hd]
      · simp [Entry.setSharer, hd]
    constructor
    · intro hall d hd hne hsd
      refine hall ?_ d hd ((hsharer d).mpr ⟨hne, hsd⟩)
      -- two sharers are in the list, so one is left when the child is taken out
      have hmc := Entry.mem_sharerList.mpr ⟨hc, hs⟩
      have hmd := Entry.mem_sharerList.mpr ⟨hd, hsd⟩
      have hlen : e.numSharers - 1 ≠ 0 := by
        rw [h.numSharers]
        intro hle
        rcases hl : e.sharerList n with _ | ⟨x, _ | ⟨y, ys⟩⟩
        · rw [hl] at hmc
          cases hmc
        · rw [hl, List.mem_singleton] at hmc hmd
          exact hne (hmd.trans hmc.symm)
        · rw [hl] at hle
          simp at hle
      simpa [Entry.isEmpty] using hlen
    · intro hall _ d hd hsd
      exact hall d hd ((hsharer d).mp hsd).1 ((hsharer d).mp hsd).2
  · rw [if_neg hs]
    constructor
    · intro hall d hd _ hsd
      refine hall ?_ d hd hsd
      have hmd := Entry.mem_sharerList.mpr ⟨hd, hsd⟩
      have hne : e.numSharers ≠ 0 := by
        rw [h.numSharers]
        intro hle
        rw [List.length_eq_zero_iff.mp hle] at hmd
        cases hmd
      simpa [Entry.isEmpty] using hne
    · intro hall _ d hd hsd
      refine hall d hd ?_ hsd
      rintro rfl
      exact hs hsd

theorem accessCycle_gets_eq {c : Nat} {haveExclusive : Bool} {flags : BitVec 32}
    (h : e.numSharers = 0) :
    accessCycle n e .GETS c haveExclusive flags invLat cycle = cycle := by
  simp [accessCycle, Entry.isExclusive, h]

end MESITopCC

namespace ParentCache

variable {n m : Nat} {s s' : ParentCache}

theorem finishAccess_served {deep : Nat → Bool} {c lineId : Nat} {r : Request} {type : AccessType}
    (h : finishAccess n deep s c r type lineId = some s') :
    s'.waiting = none ∧ s'.req c = none := by
  rw [finishAccess] at h
  simp only at h
  split at h
  · cases h
    simp
  · split at h
    · cases h
    · split at h
      · obtain ⟨b, -, rfl⟩ := Option.map_eq_some_iff.mp h
        simp
      · cases h
        simp

theorem accessLine_isSome {deep : Nat → Bool} {c lineId : Nat} {r : Request} {type : AccessType}
    (h : accessLine n deep s c r type lineId = some s') :
    ∃ x, MESIBottomCC.lookupAccess (s.bcc lineId) type = some x := by
  rw [accessLine] at h
  split at h
  · cases h
  · split at h
    · cases h
    · cases hl : MESIBottomCC.lookupAccess (s.bcc lineId) type with
      | none =>
        rw [hl] at h
        cases h
      | some x => exact ⟨x, rfl⟩

theorem accessLine_hit {deep : Nat → Bool} {c lineId : Nat} {r : Request} {type : AccessType}
    {state : MESIState} (hlook : MESIBottomCC.lookupAccess (s.bcc lineId) type = some (.hit state))
    (h : accessLine n deep s c r type lineId = some s') : s'.waiting = none ∧ s'.req c = none := by
  rw [accessLine] at h
  split at h
  · cases h
  · split at h
    · cases h
    · rw [hlook] at h
      exact finishAccess_served h

theorem accessLine_miss {deep : Nat → Bool} {c lineId : Nat} {r : Request} {type t : AccessType}
    (hlook : MESIBottomCC.lookupAccess (s.bcc lineId) type = some (.miss t))
    (h : accessLine n deep s c r type lineId = some s') :
    s'.waiting = some (.fetch c lineId t (s.bcc lineId)) ∧ s'.req = s.req := by
  rw [accessLine] at h
  split at h
  · cases h
  · split at h
    · cases h
    · rw [hlook] at h
      cases h
      exact ⟨rfl, rfl⟩

theorem insertLine_waits {deep : Nat → Bool} {c lineId : Nat} {r : Request}
    (hget : isGet r.type = true) (hinvalid : s.bcc lineId = .I)
    (h : insertLine n deep s c r lineId = some s') :
    (∃ t st, s'.waiting = some (.fetch c lineId t st)) ∧ s'.req = s.req := by
  have hlook : ∃ t, MESIBottomCC.lookupAccess (s.bcc lineId) r.type = some (.miss t) := by
    rw [hinvalid]
    cases ht : r.type with
    | GETS => exact ⟨.GETS, rfl⟩
    | GETX => exact ⟨.GETX, rfl⟩
    | PUTS => simp [ht, isGet] at hget
    | PUTX => simp [ht, isGet] at hget
  obtain ⟨t, ht⟩ := hlook
  let s₁ : ParentCache := { s with array := Function.update s.array lineId (some r.lineAddr) }
  obtain ⟨hwait, hreq⟩ := @accessLine_miss n s₁ s' deep c lineId r r.type t ht h
  exact ⟨⟨t, _, hwait⟩, hreq⟩

theorem evictLine_waits {deep : Nat → Bool} {c victim : Nat} {r : Request}
    (hget : isGet r.type = true) (h : evictLine n deep s c r victim = some s') :
    (∃ w, s'.waiting = some w) ∧ s'.req = s.req := by
  rw [evictLine] at h
  split at h
  · cases h
  · split at h
    · cases h
    · next state _ =>
      simp only at h
      split at h
      · next hput =>
        have hI : state = .I := by
          cases state <;> simp [MESIBottomCC.evictRequest] at hput ⊢
        obtain ⟨⟨t, st, hwait⟩, hreq⟩ := insertLine_waits hget (by simp [hI]) h
        exact ⟨⟨_, hwait⟩, hreq⟩
      · cases h
        exact ⟨⟨_, rfl⟩, rfl⟩

/-- Steps of the children and invalidations leave the access in progress alone. -/
theorem step_waiting {a : Action} (hother : match a with
      | .start .. => False
      | .resume .. => False
      | _ => True) (h : step n m s a = some s') : s'.waiting = s.waiting := by
  cases a with
  | issue c r =>
    cases h
    rfl
  | silent c a =>
    cases h
    rfl
  | start c victim deep => exact hother.elim
  | resume response deep => exact hother.elim
  | inval a type deep =>
    simp only [step, invalidate] at h
    split at h
    · cases h
    · split at h
      · cases h
      · obtain ⟨b, -, rfl⟩ := Option.map_eq_some_iff.mp h
        rfl

end ParentCache

namespace Waiting

def childId : Waiting → Nat
  | .evict c _ _ _ => c
  | .fetch c _ _ _ => c

end Waiting

namespace RecordingCache

open EventGraph

variable {G : RecordConfig} {T T' : RecordingCache} {op : Op}

def callCycle (G : RecordConfig) (T : RecordingCache) (a : Access) : Nat :=
  match T.cache.waiting with
  | some (.evict ..) => a.evDoneCycle
  | _ => a.cycle + G.accLat

/-- When a step may be taken. Records are taken before their core has another access, and those of
the level above are right. -/
def Enabled (G : RecordConfig) (T : RecordingCache) : Op → Prop
  | .coherence a => ParentCache.Enabled G.numChildren G.numLines T.cache a ∧
      match a with
      | .start .. => False
      | .resume .. => False
      | _ => True
  | .start c victim deep _ _ =>
    ParentCache.Enabled G.numChildren G.numLines T.cache (.start c victim deep) ∧ T.evRec = none
  | .resume response deep _ answer =>
    ParentCache.Enabled G.numChildren G.numLines T.cache (.resume response deep) ∧
      ∀ a ∈ T.access,
        Answered T.graph (callCycle G T a) answer.respCycle answer.record answer.graph
  | .popRecord graph => T.access = none ∧ Fresh graph

inductive Reachable (G : RecordConfig) : RecordingCache → Prop where
  | init : Reachable G init
  | step {T T' : RecordingCache} {op : Op} : Reachable G T → Enabled G T op →
      T.step G op = some T' → Reachable G T'

/-- An access that a step goes on with: its child, when it came, and the events there were. -/
structure Service where
  childId : Nat
  cycle : Nat
  graph : RecordGraph

def serves (T : RecordingCache) : Op → Option Service
  | .start c _ _ cycle _ => some ⟨c, cycle, T.graph⟩
  | .resume .. => T.cache.waiting.bind fun w =>
      T.access.map fun a => ⟨w.childId, a.cycle, a.graph⟩
  | _ => none

/-- The access has left one record, from its request to its response. The events of the record take
just that time if nothing else delays them. -/
def LeavesRecord (cycle : Nat) (graph : RecordGraph) (T' : RecordingCache) : Prop :=
  ∃ tr, T'.evRec = some tr ∧ tr.reqCycle = cycle ∧ tr.respCycle = T'.respCycle ∧
    Answered graph cycle T'.respCycle (some tr) T'.graph

/-- The access that a step goes on with leaves its record at its end, and none before. -/
def WellRecorded (T : RecordingCache) (op : Op) (T' : RecordingCache) : Prop :=
  ∀ x ∈ serves T op, (T'.cache.req x.childId ≠ none → T'.evRec = none) ∧
    (T'.cache.req x.childId = none → LeavesRecord x.cycle x.graph T')

/-- An access is not skipped for a race. When the level above has answered after some time, no child
that gets an invalidation takes any; when it has answered at once, there are no records of it. -/
def Meets (G : RecordConfig) (T : RecordingCache) : Op → Prop
  | .start c _ _ _ _ => ∀ r ∈ T.cache.req c, isPut r.type = true → T.cache.child c r.lineAddr ≠ .I
  | .resume _ _ invLat answer => ∀ c i type st a,
      T.cache.waiting = some (.fetch c i type st) → T.access = some a →
      if answer.respCycle + answer.netLat = a.cycle + G.accLat then
        a.writebackRecord = none ∧ answer.record = none
      else
        (type = .GETX → ∀ d < G.numChildren, d ≠ c → (T.cache.tcc i).sharers d = true →
          invLat d = 0) ∧
        (a.evDoneCycle ≠ 0 → G.ways < G.cands → G.ways ≠ 1)
  | _ => True

structure AccessOk (G : RecordConfig) (g : RecordGraph) (a : Access) : Prop where
  built : Built (fun _ => True) a.graph.size a.graph g
  evicted : a.evDoneCycle ≠ 0 → a.cycle + G.accLat ≤ a.evDoneCycle
  writeback : ∀ x ∈ a.writebackRecord, a.cycle + G.accLat ≤ x.reqCycle ∧
    x.respCycle ≤ a.evDoneCycle ∧ a.graph.size ≤ x.startEvent ∧ x.startEvent < g.size ∧
    a.graph.size ≤ x.endEvent ∧ x.endEvent < g.size

structure Inv (G : RecordConfig) (T : RecordingCache) : Prop where
  cache : ParentCache.Inv G.numChildren G.numLines T.cache
  fresh : Fresh T.graph
  idle : T.cache.waiting = none → T.access = none
  waits : ∀ w, T.cache.waiting = some w →
    T.evRec = none ∧ ∃ a, T.access = some a ∧ AccessOk G T.graph a ∧
      a.cycle + G.accLat ≤ callCycle G T a

variable {cache : ParentCache} {r : Request} {type : AccessType} {lineId mid : Nat} {a : Access}
  {acc : Option AccessRecord} {getDoneCycle respCycle : Nat}

theorem endAccess_eq (hpush : T.evRec = none) (hresp : a.cycle ≤ respCycle) :
    endAccess G T cache r type lineId a acc getDoneCycle respCycle =
      (record G T.graph r.lineAddr type lineId a.cycle a.evDoneCycle a.writebackRecord acc
        getDoneCycle respCycle).map fun x => ⟨cache, x.1, some x.2, none, respCycle⟩ := by
  rw [endAccess, hpush]
  cases record G T.graph r.lineAddr type lineId a.cycle a.evDoneCycle a.writebackRecord acc
    getDoneCycle respCycle with
  | none => rfl
  | some x => exact if_pos hresp

/-- The end of an access, after the level above has answered or on a hit. -/
theorem endAccess_spec (hpush : T.evRec = none) (ha : AccessOk G T.graph a)
    (hmid : a.graph.size ≤ mid ∧ mid ≤ T.graph.size) (hcm : Closed mid T.graph)
    (hwb : ∀ x ∈ a.writebackRecord, x.startEvent < mid ∧ x.endEvent < mid)
    (hget : a.cycle + G.accLat ≤ getDoneCycle) (hresp : getDoneCycle ≤ respCycle)
    (hacc : ∀ x ∈ acc, Recorded mid T.graph (a.cycle + G.accLat) getDoneCycle x) :
    ((endAccess G T cache r type lineId a acc getDoneCycle respCycle).isSome ↔
      if getDoneCycle = a.cycle + G.accLat then a.writebackRecord = none ∧ acc = none
      else getDoneCycle = respCycle ∧ (a.evDoneCycle ≠ 0 → G.ways < G.cands → G.ways ≠ 1)) ∧
    ∀ T', endAccess G T cache r type lineId a acc getDoneCycle respCycle = some T' →
      T'.cache = cache ∧ T'.access = none ∧ LeavesRecord a.cycle a.graph T' := by
  have hcycle : a.cycle ≤ respCycle := by omega
  have hb := ha.built
  let ok := if getDoneCycle = a.cycle + G.accLat then a.writebackRecord = none ∧ acc = none
    else getDoneCycle = respCycle ∧ (a.evDoneCycle ≠ 0 → G.ways < G.cands → G.ways ≠ 1)
  -- what the recorded events are if the asserts hold
  have hgood : ok → ∃ g' tr, record G T.graph r.lineAddr type lineId a.cycle a.evDoneCycle
      a.writebackRecord acc getDoneCycle respCycle = some (g', tr) ∧ tr.reqCycle = a.cycle ∧
      tr.respCycle = respCycle ∧ Answered a.graph a.cycle respCycle (some tr) g' := by
    intro hok
    by_cases hhit : getDoneCycle = a.cycle + G.accLat
    · obtain ⟨hwbn, haccn⟩ := (if_pos hhit).mp hok
      rw [hwbn, haccn]
      exact record_hit hcycle hb.closed hb.fresh hb.grows (by omega)
    · obtain ⟨rfl, hways⟩ := (if_neg hhit).mp hok
      refine record_miss hb.grows hb.closed hb.fresh hmid hcm (by omega) hacc ha.evicted ?_ hways
      intro x hx
      obtain ⟨h₁, h₂, h₃, -, h₅, -⟩ := ha.writeback x hx
      exact ⟨h₁, h₂, h₃, (hwb x hx).1, h₅, (hwb x hx).2⟩
  have hsome : (record G T.graph r.lineAddr type lineId a.cycle a.evDoneCycle a.writebackRecord acc
      getDoneCycle respCycle).isSome → ok := by
    intro h
    by_cases hhit : getDoneCycle = a.cycle + G.accLat
    · exact (if_pos hhit).mpr (record_hit_isSome (by omega) h)
    · exact (if_neg hhit).mpr (record_miss_isSome (by omega) h)
  rw [endAccess_eq hpush hcycle, Option.isSome_map]
  refine ⟨⟨hsome, fun hok => ?_⟩, fun T' hT' => ?_⟩
  · obtain ⟨g', tr, hrec, -⟩ := hgood hok
    rw [hrec]
    rfl
  · obtain ⟨x, hx, rfl⟩ := Option.map_eq_some_iff.mp hT'
    obtain ⟨g', tr, hrec, hreq, hrespc, hans⟩ := hgood (hsome (by rw [hx]; rfl))
    obtain rfl := Option.some.inj (hx.symm.trans hrec)
    exact ⟨rfl, rfl, tr, rfl, hreq, hrespc, hans⟩

theorem le_processCycle {e : Entry} {c : Nat} {haveExclusive : Bool} {invLat : Nat → Nat} :
    getDoneCycle ≤ processCycle G e c r type haveExclusive invLat getDoneCycle := by
  rw [processCycle]
  split
  · exact le_rfl
  · exact MESITopCC.le_accessCycle

theorem processCycle_eq_iff {e : Entry} {c : Nat} {haveExclusive : Bool} {invLat : Nat → Nat}
    {p : MESIState} {child : Nat → MESIState} (h : e.Agrees G.numChildren p child)
    (hc : c < G.numChildren) (hget : isGet type = true) (hgets : type = .GETS → e.numSharers = 0)
    (hpf : r.isPrefetch = true → type = .GETS) :
    getDoneCycle = processCycle G e c r type haveExclusive invLat getDoneCycle ↔
      (type = .GETX → ∀ d < G.numChildren, d ≠ c → e.sharers d = true → invLat d = 0) := by
  rw [processCycle]
  cases type with
  | GETS => simp [MESITopCC.accessCycle_gets_eq (hgets rfl)]
  | GETX =>
    have hnp : r.isPrefetch = false := by
      cases hp : r.isPrefetch with
      | false => rfl
      | true => cases hpf hp
    rw [hnp, if_neg (by simp), eq_comm, MESITopCC.accessCycle_getx_eq_iff h hc]
    simp
  | PUTS => simp [isGet] at hget
  | PUTX => simp [isGet] at hget

theorem Inv.init : Inv G init :=
  ⟨ParentCache.inv_init _ _, fun _ _ => rfl, fun _ => rfl, fun w hw => by cases hw⟩

theorem Inv.accessOk (hinv : Inv G T) {evDoneCycle : Nat}
    (hev : evDoneCycle ≠ 0 → a.cycle + G.accLat ≤ evDoneCycle) :
    AccessOk G T.graph ⟨a.cycle, evDoneCycle, none, T.graph⟩ :=
  ⟨⟨.refl _ _, hinv.fresh.closed, hinv.fresh⟩, hev, fun x hx => by cases hx⟩

/-- A step keeps the invariant, and goes through with its record if and only if it meets the
condition. -/
def StepOk (G : RecordConfig) (T : RecordingCache) (op : Op) : Prop :=
  (∀ T', T.step G op = some T' → Inv G T') ∧
    ((∃ T', T.step G op = some T' ∧ WellRecorded T op T') ↔ Meets G T op)

theorem start_spec (hinv : Inv G T) {c victim cycle : Nat} {deep : Nat → Bool}
    {invLat : Nat → Nat} (hen : Enabled G T (.start c victim deep cycle invLat)) :
    StepOk G T (.start c victim deep cycle invLat) := by
  obtain ⟨hcoh, hrec⟩ := hen
  obtain ⟨s', hs', hinv'⟩ := ParentCache.step_spec hinv.cache hcoh
  obtain ⟨hc, -, hwait, hreq⟩ := hcoh
  obtain ⟨r, hr⟩ := Option.ne_none_iff_exists'.mp hreq
  have hstep : T.step G (.start c victim deep cycle invLat) =
      start G T s' c victim cycle invLat r := by
    simp only [step, hs', hr, Option.bind_some]
  have hstart : ParentCache.startAccess G.numChildren G.numLines deep T.cache c victim r =
      some s' := by simpa only [ParentCache.step, hr] using hs'
  obtain ⟨hiss, hlow, -⟩ := hinv.cache.pend c hc r hr
  rw [StepOk, hstep]
  rcases checkForMESIRace_spec hiss hlow with ⟨hput, hI, hrace⟩ | ⟨type, hrace, hready, hputt, htype⟩
  · -- skipped
    simp only [ParentCache.startAccess, hrace] at hstart
    obtain rfl := Option.some.inj hstart
    have hgo : start G T { T.cache with req := Function.update T.cache.req c none } c victim cycle
        invLat r = some { T with
          cache := { T.cache with req := Function.update T.cache.req c none }
          respCycle := cycle } := by
      simp only [start, hrace]
    rw [hgo]
    constructor
    · intro T' hT'
      cases hT'
      exact ⟨hinv', hinv.fresh, fun _ => hinv.idle hwait, fun w hw => absurd hw (by simp [hwait])⟩
    · constructor
      · rintro ⟨T', hT', hwell⟩
        cases hT'
        obtain ⟨tr, htr, -⟩ := (hwell _ rfl).2 (by simp)
        exact absurd (hrec.symm.trans htr) (by simp)
      · intro hmeets
        exact absurd hI (hmeets r hr hput)
  · have hmeets : Meets G T (.start c victim deep cycle invLat) := by
      intro r' hr' hput
      obtain rfl := Option.some.inj (hr.symm.trans hr')
      exact hready.ne_I (hputt.trans hput)
    -- what is left is whether the step goes through, and with which record
    have hsuffices : (∃ T', start G T s' c victim cycle invLat r = some T' ∧ Inv G T' ∧
        WellRecorded T (.start c victim deep cycle invLat) T') →
        (∀ T', start G T s' c victim cycle invLat r = some T' → Inv G T') ∧
          ((∃ T', start G T s' c victim cycle invLat r = some T' ∧
            WellRecorded T (.start c victim deep cycle invLat) T') ↔
            Meets G T (.start c victim deep cycle invLat)) := by
      rintro ⟨T', hT', hinvT', hwell⟩
      refine ⟨fun T'' hT'' => ?_, fun _ => hmeets, fun _ => ⟨T', hT', hwell⟩⟩
      rwa [← Option.some.inj (hT'.symm.trans hT'')]
    apply hsuffices
    have hreq' : T.cache.req c ≠ none := hreq
    have hwaits : ∀ (a : Access) w, a.cycle = cycle → a.writebackRecord = none →
        a.graph = T.graph → cycle + G.accLat ≤ a.evDoneCycle ∨
          (∃ i t st, s'.waiting = some (.fetch c i t st)) ∧ a.evDoneCycle = 0 →
        s'.waiting = some w → s'.req = T.cache.req →
        Inv G { T with cache := s', access := some a } ∧
          WellRecorded T (.start c victim deep cycle invLat)
            { T with cache := s', access := some a } := by
      intro a w hcyc hwb hgraph hev hw hreqs
      obtain ⟨acycle, aev, awb, agraph⟩ := a
      obtain rfl : acycle = cycle := hcyc
      obtain rfl : awb = none := hwb
      obtain rfl : agraph = T.graph := hgraph
      constructor
      · refine ⟨hinv', hinv.fresh, fun hnone => ?_, fun w' hw' => ⟨hrec, _, rfl, ?_, ?_⟩⟩
        · rw [hw] at hnone
          cases hnone
        · apply hinv.accessOk (a := ⟨acycle, aev, none, T.graph⟩)
          intro hne
          rcases hev with hle | ⟨-, hz⟩
          · exact hle
          · exact absurd hz hne
        · simp only [callCycle, hw]
          cases w with
          | fetch => exact le_rfl
          | evict =>
            rcases hev with hle | ⟨⟨i, t, st, hf⟩, -⟩
            · exact hle
            · rw [hw] at hf
              cases hf
      · intro x hx
        obtain rfl := Option.some.inj hx
        refine ⟨fun _ => hrec, fun hnone => ?_⟩
        rw [hreqs] at hnone
        exact absurd hnone hreq
    cases hlook : ParentCache.lookup G.numLines T.cache r.lineAddr with
    | some lineId =>
      simp only [ParentCache.startAccess, hrace, hlook] at hstart
      obtain ⟨x, hx⟩ := ParentCache.accessLine_isSome hstart
      cases x with
      | hit state =>
        obtain ⟨hwait', hreqc⟩ := ParentCache.accessLine_hit hx hstart
        have hend := @endAccess_spec G T s' r type lineId T.graph.size ⟨cycle, 0, none, T.graph⟩
          none (cycle + G.accLat) _ hrec (hinv.accessOk (a := ⟨cycle, 0, none, T.graph⟩)
            fun hne => absurd rfl hne) ⟨le_rfl, le_rfl⟩ hinv.fresh.closed (fun x hx => by cases hx)
          le_rfl (@le_processCycle G r type (cycle + G.accLat) (T.cache.tcc lineId) c
            state.isExclusive invLat) (fun x hx => by cases hx)
        obtain ⟨hsome, hleaves⟩ := hend
        obtain ⟨T', hT'⟩ := Option.isSome_iff_exists.mp (hsome.mpr (by simp))
        obtain ⟨hcache, haccess, hrecord⟩ := hleaves T' hT'
        refine ⟨T', ?_, ?_, fun x hx => ?_⟩
        · simp only [start, hrace, hlook, hx]
          exact hT'
        · obtain ⟨tr, -, -, -, hans⟩ := hrecord
          refine ⟨hcache ▸ hinv', hans.built.fresh, fun _ => haccess, fun w hw => ?_⟩
          rw [hcache, hwait'] at hw
          cases hw
        · obtain rfl := Option.some.inj hx
          refine ⟨fun hne => absurd ?_ hne, fun _ => hrecord⟩
          rw [hcache]
          exact hreqc
      | miss t =>
        obtain ⟨hwait', hreqs⟩ := ParentCache.accessLine_miss hx hstart
        obtain ⟨hinvT', hwell⟩ := hwaits ⟨cycle, 0, none, T.graph⟩ _ rfl rfl rfl
          (.inr ⟨⟨_, _, _, hwait'⟩, rfl⟩) hwait' hreqs
        refine ⟨_, ?_, hinvT', hwell⟩
        simp only [start, hrace, hlook, hx]
    | none =>
      simp only [ParentCache.startAccess, hrace, hlook] at hstart
      split at hstart
      · next hget =>
        have hnput : isPut r.type = false := by
          rw [← hputt]
          cases type <;> simp [isGet] at hget <;> rfl
        rw [htype hnput] at hget
        obtain ⟨⟨w, hw⟩, hreqs⟩ := ParentCache.evictLine_waits hget hstart
        have hle := @MESITopCC.le_sendCycle G.numChildren (T.cache.tcc victim) invLat
          (cycle + G.accLat) .INV
        obtain ⟨hinvT', hwell⟩ := hwaits ⟨cycle, MESITopCC.sendCycle G.numChildren
          (T.cache.tcc victim) .INV invLat (cycle + G.accLat), none, T.graph⟩ w rfl rfl rfl
          (.inl hle) hw hreqs
        refine ⟨_, ?_, hinvT', hwell⟩
        simp only [start, hrace, hlook]
      · cases hstart

/-- The access is still right when the level above has answered. -/
theorem AccessOk.answered {answer : Answer} {record : Option AccessRecord} {callCycle : Nat}
    (ha : AccessOk G T.graph a)
    (hans : Answered T.graph callCycle answer.respCycle record answer.graph) :
    AccessOk G answer.graph a := by
  have hg := hans.built.grows
  refine ⟨⟨ha.built.grows.trans hg, ha.built.closed.extend ha.built.grows.size hg
    hans.built.closed, hans.built.fresh⟩, ha.evicted, fun x hx => ?_⟩
  obtain ⟨h₁, h₂, h₃, h₄, h₅, h₆⟩ := ha.writeback x hx
  exact ⟨h₁, h₂, h₃, h₄.trans_le hg.size, h₅, h₆.trans_le hg.size⟩

theorem resume_spec (hinv : Inv G T) {response : MESIState} {deep : Nat → Bool}
    {invLat : Nat → Nat} {answer : Answer} (hen : Enabled G T (.resume response deep invLat answer)) :
    StepOk G T (.resume response deep invLat answer) := by
  obtain ⟨hcoh, hanswer⟩ := hen
  obtain ⟨s', hs', hinv'⟩ := ParentCache.step_spec hinv.cache hcoh
  have hstep : T.step G (.resume response deep invLat answer) =
      resume G T s' response invLat answer := by
    simp only [step, hs', Option.bind_some]
  have hresume : ParentCache.resumeAccess G.numChildren deep T.cache response = some s' := hs'
  rw [StepOk, hstep]
  cases hw : T.cache.waiting with
  | none => simp [ParentCache.Enabled, hw] at hcoh
  | some w =>
    obtain ⟨hrec, a, ha, hok, hcall⟩ := hinv.waits w hw
    have hans := hanswer a ha
    have hok' := hinv.cache.wait w hw
    have haccess := hok.answered hans
    cases w with
    | evict c victim put st =>
      obtain ⟨hc, hv, ⟨r, hr, hget, hmiss⟩, hz, hiss, hlow⟩ := hok'
      simp only [callCycle, hw] at hcall hans
      have hgo : resume G T s' response invLat answer = some { T with
          cache := s'
          graph := answer.graph
          access := some { a with
            evDoneCycle := answer.respCycle
            writebackRecord := answer.record } } := by
        simp only [resume, hw, ha]
      have hwaits : (∃ t st, s'.waiting = some (.fetch c victim t st)) ∧ s'.req = T.cache.req := by
        simp only [ParentCache.resumeAccess, hw, hr] at hresume
        split at hresume
        · next r' _ hr' =>
          obtain rfl := Option.some.inj hr'
          have hins := @ParentCache.insertLine_waits _ _ _ deep c victim r hget (by simp) hresume
          exact hins
        · cases hresume
      obtain ⟨⟨t, st', hw'⟩, hreqs⟩ := hwaits
      rw [hgo]
      refine ⟨fun T' hT' => ?_, fun _ => ?_, fun _ => ⟨_, rfl, fun x hx => ?_⟩⟩
      · obtain rfl := Option.some.inj hT'
        refine ⟨hinv', hans.built.fresh, fun hnone => ?_, fun w hww => ⟨hrec, _, rfl, ?_, ?_⟩⟩
        · rw [hw'] at hnone
          cases hnone
        · refine ⟨haccess.built, fun _ => hcall.trans hans.le, fun x hx => ?_⟩
          have hx' := hans.record x hx
          exact ⟨hcall.trans hx'.req, hx'.resp, hok.built.grows.size.trans hx'.startEvent.1,
            hx'.startEvent.2, hok.built.grows.size.trans hx'.endEvent.1, hx'.endEvent.2⟩
        · simp only [callCycle, hw']
          exact le_rfl
      · intro c' i type st'' a' hf
        rw [hw] at hf
        cases hf
      · simp only [serves, hw, ha, Option.bind_some, Option.map_some] at hx
        obtain rfl := Option.some.inj hx
        refine ⟨fun _ => hrec, fun hnone => ?_⟩
        rw [hreqs] at hnone
        exact absurd (hr.symm.trans hnone) (by simp)
    | fetch c i type st =>
      obtain ⟨hc, hi, ⟨r, hr, rfl, harr⟩, hget, hiss, hlow⟩ := hok'
      simp only [callCycle, hw] at hcall hans
      obtain ⟨-, hlowr, hpf⟩ := hinv.cache.pend c hc r hr
      let getDoneCycle := a.cycle + G.accLat + (answer.respCycle - (a.cycle + G.accLat)) +
        answer.netLat
      have hget' : getDoneCycle = answer.respCycle + answer.netLat := by
        have := hans.le
        omega
      have hgo : resume G T s' response invLat answer =
          endAccess G { T with graph := answer.graph } s' r r.type i a answer.record getDoneCycle
            (processCycle G (T.cache.tcc i) c r r.type response.isExclusive invLat
              getDoneCycle) := by
        simp only [resume, hw, ha, hr, Option.bind_some]
        rfl
      have hserved : s'.waiting = none ∧ s'.req c = none := by
        simp only [ParentCache.resumeAccess, hw, hr] at hresume
        split at hresume
        · next r' _ hr' =>
          obtain rfl := Option.some.inj hr'
          split at hresume
          · exact ParentCache.finishAccess_served hresume
          · cases hresume
        · cases hresume
      have hagrees := hinv.cache.line i hi
      have hdelay := @processCycle_eq_iff G r r.type getDoneCycle (T.cache.tcc i) c
        response.isExclusive invLat _ _ hagrees hc hget (by
          intro hgets
          have hready := ready_of_isGet hget hiss hlow
          rw [hgets] at hready
          rw [hagrees.numSharers, List.length_eq_zero_iff, List.eq_nil_iff_forall_not_mem]
          intro d hd
          obtain ⟨hdn, hdv⟩ := hagrees.mem_sharerList_iff.mp hd
          exact hagrees.valid d hdn hdv hready) hpf
      have hend := @endAccess_spec G { T with graph := answer.graph } s' r r.type i T.graph.size a
        answer.record getDoneCycle _ hrec haccess
        ⟨hok.built.grows.size, hans.built.grows.size⟩ hans.built.closed
        (fun x hx => ⟨(hok.writeback x hx).2.2.2.1, (hok.writeback x hx).2.2.2.2.2⟩)
        (by have := hans.le; omega)
        (@le_processCycle G r r.type getDoneCycle (T.cache.tcc i) c response.isExclusive invLat)
        (by
          intro x hx
          obtain ⟨h₁, h₂, h₃, h₄, h₅, h₆, h₇⟩ := hans.record x hx
          exact ⟨h₁, h₂, by omega, h₄, h₅, h₆, h₇⟩)
      obtain ⟨hsome, hleaves⟩ := hend
      rw [hgo]
      have hafter : ∀ T', endAccess G { T with graph := answer.graph } s' r r.type i a answer.record
          getDoneCycle (processCycle G (T.cache.tcc i) c r r.type response.isExclusive invLat
            getDoneCycle) = some T' →
          Inv G T' ∧ WellRecorded T (.resume response deep invLat answer) T' := by
        intro T' hT'
        obtain ⟨hcache, haccess', hrecord⟩ := hleaves T' hT'
        refine ⟨?_, fun x hx => ?_⟩
        · obtain ⟨tr, -, -, -, hans'⟩ := hrecord
          refine ⟨hcache ▸ hinv', hans'.built.fresh, fun _ => haccess', fun w hww => ?_⟩
          rw [hcache, hserved.1] at hww
          cases hww
        · simp only [serves, hw, ha, Option.bind_some, Option.map_some] at hx
          obtain rfl := Option.some.inj hx
          refine ⟨fun hne => absurd ?_ hne, fun _ => hrecord⟩
          rw [hcache]
          exact hserved.2
      have hmeets : Meets G T (.resume response deep invLat answer) ↔
          if getDoneCycle = a.cycle + G.accLat then a.writebackRecord = none ∧ answer.record = none
          else getDoneCycle = processCycle G (T.cache.tcc i) c r r.type response.isExclusive invLat
            getDoneCycle ∧ (a.evDoneCycle ≠ 0 → G.ways < G.cands → G.ways ≠ 1) := by
        rw [hdelay, hget']
        constructor
        · intro h
          exact h c i r.type st a hw ha
        · intro h c' i' type' st' a' hw' ha'
          obtain rfl := Option.some.inj (ha.symm.trans ha')
          rw [hw] at hw'
          cases hw'
          exact h
      refine ⟨fun T' hT' => (hafter T' hT').1, fun hex => ?_, fun hm => ?_⟩
      · obtain ⟨T', hT', -⟩ := hex
        exact hmeets.mpr (hsome.mp (by rw [hT']; rfl))
      · obtain ⟨T', hT'⟩ := Option.isSome_iff_exists.mp (hsome.mpr (hmeets.mp hm))
        exact ⟨T', hT', (hafter T' hT').2⟩

theorem step_spec (hinv : Inv G T) (hen : Enabled G T op) : StepOk G T op := by
  cases op with
  | start c victim deep cycle invLat => exact start_spec hinv hen
  | resume response deep invLat answer => exact resume_spec hinv hen
  | coherence act =>
    obtain ⟨s', hs', hinv'⟩ := ParentCache.step_spec hinv.cache hen.1
    have hwait := ParentCache.step_waiting hen.2 hs'
    have hstep : T.step G (.coherence act) = some { T with cache := s' } := by
      simp only [step, hs', Option.map_some]
    rw [StepOk, hstep]
    refine ⟨fun T' hT' => ?_, fun _ => trivial, fun _ => ⟨_, rfl, fun x hx => by cases hx⟩⟩
    obtain rfl := Option.some.inj hT'
    refine ⟨hinv', hinv.fresh, fun hnone => hinv.idle (hwait ▸ hnone), fun w hw => ?_⟩
    obtain ⟨hrec, a, ha, hok, hcall⟩ := hinv.waits w (hwait ▸ hw)
    refine ⟨hrec, a, ha, hok, ?_⟩
    simpa only [callCycle, hwait] using hcall
  | popRecord graph =>
    refine ⟨fun T' hT' => ?_, fun _ => trivial, fun _ => ⟨_, rfl, fun x hx => by cases hx⟩⟩
    obtain rfl := Option.some.inj hT'
    obtain ⟨hnone, hfresh⟩ := hen
    refine ⟨hinv.cache, hfresh, hinv.idle, fun w hw => ?_⟩
    obtain ⟨-, a, ha, -⟩ := hinv.waits w hw
    exact absurd (hnone.symm.trans ha) (by simp)

theorem Reachable.inv (h : Reachable G T) : Inv G T := by
  induction h with
  | init => exact Inv.init
  | step _ hen hs ih => exact (step_spec ih hen).1 _ hs

/-- An access of a reachable cache leaves its one record without a failed assert, with events that
take as long as the access when nothing delays them, if and only if its steps meet the condition. -/
theorem access_recorded_iff (h : Reachable G T) (hen : Enabled G T op) :
    (∃ T', T.step G op = some T' ∧ WellRecorded T op T') ↔ Meets G T op :=
  (step_spec h.inv hen).2

def twoChildren : RecordConfig := ⟨2, 1, 6, 10, 5, 1, 1, Nat.one_pos⟩

def noneDeep : Nat → Bool := fun _ => false

def slowInvalidation : Nat → Nat := fun _ => 10

def plainAnswer (T : RecordingCache) (respCycle : Nat) : Answer := ⟨respCycle, 0, none, T.graph⟩

theorem Inv.plainAnswered (hinv : Inv G T) {call respCycle : Nat} (h : call ≤ respCycle) :
    Answered T.graph call respCycle none T.graph :=
  ⟨h, ⟨.refl _ _, hinv.fresh.closed, hinv.fresh⟩, fun x hx => by cases hx⟩

/-- Child 0 waits for a line that the level above has, from cycle 0 on. -/
theorem exists_asked : ∃ T ev g, Reachable twoChildren T ∧
    T.cache.waiting = some (.fetch 0 0 .GETS .I) ∧ T.access = some ⟨0, ev, none, g⟩ ∧
    ∃ T', T.step twoChildren (.resume .S noneDeep slowInvalidation (plainAnswer T 100)) =
      some T' ∧ T'.cache.req 0 = none ∧ T'.evRec.isSome = true := by
  have h₁ : Reachable twoChildren _ := @Reachable.step _ _ _
    (.coherence (.issue 0 (ParentCache.demand .GETS .I))) .init
    ⟨⟨by decide, rfl, rfl, rfl, by decide⟩, trivial⟩ rfl
  have h₂ : Reachable twoChildren _ := @Reachable.step _ _ _
    (.start 0 0 noneDeep 0 slowInvalidation) h₁ ⟨⟨by decide, by decide, rfl, by simp⟩, rfl⟩ rfl
  exact ⟨_, _, _, h₂, rfl, rfl, _, rfl, rfl, rfl⟩

/-- The access is answered at cycle 100, and leaves its record. -/
theorem access_recorded_answered : ∃ T T', Reachable twoChildren T ∧
    T.step twoChildren (.resume .S noneDeep slowInvalidation (plainAnswer T 100)) = some T' ∧
    T'.cache.req 0 = none ∧ T'.evRec.isSome = true ∧
    WellRecorded T (.resume .S noneDeep slowInvalidation (plainAnswer T 100)) T' := by
  obtain ⟨T, ev, g, hT, hwait, haccess, T', hs, hreq, hrec⟩ := exists_asked
  have hen : Enabled twoChildren T (.resume .S noneDeep slowInvalidation (plainAnswer T 100)) := by
    refine ⟨?_, fun a ha => hT.inv.plainAnswered ?_⟩
    · rw [ParentCache.Enabled, hwait]
      rfl
    · obtain rfl := Option.some.inj (haccess.symm.trans ha)
      simp [callCycle, hwait, plainAnswer, twoChildren]
  have hmeets : Meets twoChildren T
      (.resume .S noneDeep slowInvalidation (plainAnswer T 100)) := by
    intro c i type st a hw ha
    obtain rfl := Option.some.inj (haccess.symm.trans ha)
    obtain ⟨rfl, rfl, rfl, rfl⟩ := Waiting.fetch.inj (Option.some.inj (hwait.symm.trans hw))
    rw [if_neg (by simp [plainAnswer, twoChildren])]
    exact ⟨fun hget => (by cases hget), fun _ hways => absurd hways (by decide)⟩
  obtain ⟨T'', hs', hwell⟩ := (access_recorded_iff hT hen).mpr hmeets
  obtain rfl := Option.some.inj (hs.symm.trans hs')
  exact ⟨T, T', hT, hs, hreq, hrec, hwell⟩

/-- Child 1 shares the line, and child 0 has asked for it exclusively. -/
theorem exists_asked_exclusively : ∃ T g, Reachable twoChildren T ∧
    T.cache.waiting = some (.fetch 0 0 .GETX .S) ∧ T.access = some ⟨200, 0, none, g⟩ ∧
    (T.cache.tcc 0).sharers 1 = true := by
  have h₁ : Reachable twoChildren _ := @Reachable.step _ _ _
    (.coherence (.issue 1 (ParentCache.demand .GETS .I))) .init
    ⟨⟨by decide, rfl, rfl, rfl, by decide⟩, trivial⟩ rfl
  have h₂ : Reachable twoChildren _ := @Reachable.step _ _ _
    (.start 1 0 noneDeep 0 slowInvalidation) h₁ ⟨⟨by decide, by decide, rfl, by simp⟩, rfl⟩ rfl
  have h₃ : Reachable twoChildren _ := @Reachable.step _ _ _
    (.resume .S noneDeep slowInvalidation (plainAnswer _ 100)) h₂
    ⟨rfl, fun a ha => h₂.inv.plainAnswered (by obtain rfl := Option.some.inj ha; decide)⟩ rfl
  have h₄ : Reachable twoChildren _ := @Reachable.step _ _ _ (.popRecord init.graph) h₃
    ⟨rfl, (@Inv.init twoChildren).fresh⟩ rfl
  have h₅ : Reachable twoChildren _ := @Reachable.step _ _ _
    (.coherence (.issue 0 (ParentCache.demand .GETX .I))) h₄
    ⟨⟨by decide, rfl, rfl, rfl, by decide⟩, trivial⟩ rfl
  have h₆ : Reachable twoChildren _ := @Reachable.step _ _ _
    (.start 0 0 noneDeep 200 slowInvalidation) h₅ ⟨⟨by decide, by decide, rfl, by simp⟩, rfl⟩ rfl
  exact ⟨_, _, h₆, rfl, rfl, rfl⟩

/-- The level above answers before child 1 has lost the line. -/
theorem upgrade_not_recorded : ¬ ∀ T op, Reachable twoChildren T → Enabled twoChildren T op →
    ∃ T', T.step twoChildren op = some T' ∧ WellRecorded T op T' := by
  intro h
  obtain ⟨T, g, hT, hwait, haccess, hsharer⟩ := exists_asked_exclusively
  have hen : Enabled twoChildren T (.resume .M noneDeep slowInvalidation (plainAnswer T 400)) := by
    refine ⟨?_, fun a ha => hT.inv.plainAnswered ?_⟩
    · rw [ParentCache.Enabled, hwait]
      rfl
    · obtain rfl := Option.some.inj (haccess.symm.trans ha)
      simp [callCycle, hwait, plainAnswer, twoChildren]
  have hmeets := (step_spec hT.inv hen).2.mp (h T _ hT hen) 0 0 .GETX .S _ hwait haccess
  rw [if_neg (by simp [plainAnswer, twoChildren])] at hmeets
  exact absurd (hmeets.1 rfl 1 (by decide) (by decide) hsharer) (by decide)

end RecordingCache

end ZSim
