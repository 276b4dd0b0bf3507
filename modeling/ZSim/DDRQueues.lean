import ZSim.DDRMemory
import Mathlib.Data.List.Perm.Basic

/-! The way of a request through the controller: every request that arrived is in one place,
the bank queues hold what the request queues hold, and every response is given once. -/

namespace ZSim

namespace DDRCtl

variable {cfg : DDRConfig} {s s' : DDRCtl} {id memCycle curCycle sysCycle : Nat} {w : Bool}

theorem insertAfter_perm {m : Nat} {q : List Nat} (hm : m ∈ q) :
    (insertAfter m id q).Perm (id :: q) := by
  induction q with
  | nil => cases hm
  | cons x q ih =>
    rw [insertAfter]
    by_cases hx : x = m
    · rw [if_pos hx]
      exact List.Perm.swap ..
    · rw [if_neg hx]
      rcases List.mem_cons.mp hm with he | hm
      · exact absurd he.symm hx
      · exact ((ih hm).cons x).trans (List.Perm.swap ..)

/-- Wherever `queue` puts a request, the bank queue holds it and what it held. -/
theorem place_perm (q : List Nat) : (s.place cfg id q).2.Perm (id :: q) := by
  have hback : (q ++ [id]).Perm (id :: q) := List.perm_append_singleton id q
  rw [place]
  match hm : q.reverse.find? (fun m => (s.reqs m).loc.row = (s.reqs id).loc.row) with
  | none =>
    dsimp only
    split
    · exact List.Perm.refl _
    · exact hback
  | some m =>
    dsimp only
    split
    · exact insertAfter_perm (List.mem_reverse.mp (List.mem_of_find?_eq_some hm))
    · exact hback

/-- The parts of the controller that `queue` leaves alone. -/
structure Kept (s s' : DDRCtl) : Prop where
  queues : s'.queues = s.queues
  overflowQueue : s'.overflowQueue = s.overflowQueue
  arrived : s'.arrived = s.arrived
  served : s'.served = s.served
  banks : s'.banks = s.banks
  rankActWindows : s'.rankActWindows = s.rankActWindows
  minRespCycle : s'.minRespCycle = s.minRespCycle
  cmds : s'.cmds = s.cmds

/-- The request in hand after its response if it is a write. -/
structure Responded (s s' : DDRCtl) (id : Nat) : Prop extends Kept s s' where
  other : ∀ x, x ≠ id → s'.reqs x = s.reqs x
  loc : (s'.reqs id).loc = (s.reqs id).loc
  write : (s'.reqs id).write = (s.reqs id).write
  ev : (s'.reqs id).ev = if (s.reqs id).write then none else some id
  answered : s'.answered.map Prod.fst =
    (if (s.reqs id).write then [id] else []) ++ s.answered.map Prod.fst

/-- What `queue` does with a request. -/
structure Queued (cfg : DDRConfig) (s s' : DDRCtl) (id : Nat) : Prop extends Responded s s' id where
  bank : (s'.bankQueues (s.useWrQueue cfg id) (s.reqs id).loc.pos).Perm
    (id :: s.bankQueues (s.useWrQueue cfg id) (s.reqs id).loc.pos)
  bank_other : ∀ w pos, (w, pos) ≠ (s.useWrQueue cfg id, (s.reqs id).loc.pos) →
    s'.bankQueues w pos = s.bankQueues w pos

theorem setReq_self (s : DDRCtl) (id : Nat) (r : DDRRequest) : (s.setReq id r).reqs id = r :=
  Function.update_self ..

theorem setReq_other (s : DDRCtl) {x : Nat} (r : DDRRequest) (h : x ≠ id) :
    (s.setReq id r).reqs x = s.reqs x :=
  Function.update_of_ne h ..

theorem setBankQueue_self (s : DDRCtl) (w : Bool) (pos : Nat × Nat) (q : List Nat) :
    (s.setBankQueue w pos q).bankQueues w pos = q := by
  rw [setBankQueue]
  simp only [Function.update_self]

theorem setBankQueue_other (s : DDRCtl) {w w' : Bool} {pos pos' : Nat × Nat} (q : List Nat)
    (h : (w', pos') ≠ (w, pos)) :
    (s.setBankQueue w pos q).bankQueues w' pos' = s.bankQueues w' pos' := by
  rw [setBankQueue]
  by_cases hw : w' = w
  · have hpos : pos' ≠ pos := by
      intro he
      exact h (by rw [hw, he])
    rw [hw]
    simp only [Function.update_self, Function.update_of_ne hpos]
  · simp only [Function.update_of_ne hw]

theorem respondWrite_spec (hev : (s.reqs id).ev = some id) :
    Responded s (s.respondWrite cfg id memCycle) id ∧
      (s.respondWrite cfg id memCycle).bankQueues = s.bankQueues := by
  rw [respondWrite]
  dsimp only
  split
  · rename_i ev hwrite hsome
    cases hev.symm.trans hsome
    refine ⟨⟨⟨rfl, rfl, rfl, rfl, rfl, rfl, rfl, rfl⟩, ?_, ?_, ?_, ?_, ?_⟩, rfl⟩
    · intro x hx
      exact setReq_other s _ hx
    · exact (congrArg DDRRequest.loc (setReq_self s id _)).trans rfl
    · exact (congrArg DDRRequest.write (setReq_self s id _)).trans rfl
    · rw [if_pos hwrite]
      exact congrArg DDRRequest.ev (setReq_self s id _)
    · rw [if_pos hwrite]
      rfl
  · rename_i hnot
    have hread : ¬ (s.reqs id).write = true := fun hwrite => hnot id hwrite hev
    refine ⟨⟨⟨rfl, rfl, rfl, rfl, rfl, rfl, rfl, rfl⟩, fun _ _ => rfl, rfl, rfl, ?_, ?_⟩, rfl⟩
    · rw [if_neg hread, hev]
    · rw [if_neg hread]
      rfl

theorem queue_spec (hev : (s.reqs id).ev = some id) :
    Queued cfg s (s.queue cfg id memCycle) id := by
  obtain ⟨ht, hb⟩ := @respondWrite_spec cfg s id memCycle hev
  set t := s.respondWrite cfg id memCycle with hdef
  have hw : t.useWrQueue cfg id = s.useWrQueue cfg id := by rw [useWrQueue, useWrQueue, ht.write]
  set r : DDRRequest := { t.reqs id with
    arrivalCycle := memCycle
    rowHitSeq := (t.place cfg id (t.bankQueues (t.useWrQueue cfg id) (t.reqs id).loc.pos)).1 }
    with hr
  have hnew : s.queue cfg id memCycle =
      (t.setReq id r).setBankQueue (t.useWrQueue cfg id) (t.reqs id).loc.pos
        (t.place cfg id (t.bankQueues (t.useWrQueue cfg id) (t.reqs id).loc.pos)).2 := by
    rw [queue, ← hdef]
  have hself : (s.queue cfg id memCycle).reqs id = r := by
    rw [hnew]
    exact setReq_self t id r
  rw [hw, ht.loc, hb] at hnew
  refine ⟨⟨?_, ?_, ?_, ?_, ?_, ?_⟩, ?_, ?_⟩
  · rw [hnew]
    exact ⟨ht.queues, ht.overflowQueue, ht.arrived, ht.served, ht.banks, ht.rankActWindows,
      ht.minRespCycle, ht.cmds⟩
  · intro x hx
    rw [hnew]
    exact (setReq_other t r hx).trans (ht.other x hx)
  · rw [hself]
    exact ht.loc
  · rw [hself]
    exact ht.write
  · rw [hself]
    exact ht.ev
  · rw [hnew]
    exact ht.answered
  · rw [hnew, setBankQueue_self]
    exact place_perm _
  · intro w pos hne
    rw [hnew, setBankQueue_other _ _ hne]
    exact congrFun (congrFun hb w) pos

/-- The requests in hand, in the overflow queue, in the queues and served are those that
arrived, each in one place; the bank queues agree with the queues; and the responses are those
of the writes that were queued and of the reads that were served. -/
structure Inv (cfg : DDRConfig) (hand : List Nat) (s : DDRCtl) : Prop where
  fresh : s.arrived.Nodup
  placed : ∀ x, s.arrived.count x = hand.count x + s.overflowQueue.count x +
    ((s.queues false).count x + (s.queues true).count x) + s.served.count x
  kind : ∀ w, ∀ x ∈ s.queues w, s.useWrQueue cfg x = w
  bank : ∀ w pos x, (s.bankQueues w pos).count x =
    if (s.reqs x).loc.pos = pos then (s.queues w).count x else 0
  ev : ∀ w, ∀ x ∈ s.queues w, (s.reqs x).ev = if (s.reqs x).write then none else some x
  held : ∀ x, x ∈ hand ∨ x ∈ s.overflowQueue → (s.reqs x).ev = some x
  answered : ∀ x, (s.answered.map Prod.fst).count x = s.served.count x +
    if (s.reqs x).write then (s.queues false).count x + (s.queues true).count x else 0
  inRange : ∀ x ∈ s.arrived, (s.reqs x).loc.rank < cfg.ranksPerChannel ∧
    (s.reqs x).loc.bank < cfg.banksPerRank

theorem inv_init : Inv cfg [] (init cfg) where
  fresh := List.nodup_nil
  placed := by
    intro x
    rfl
  kind := by
    intro w x hx
    cases hx
  bank := by
    intro w pos x
    show 0 = _
    split
    · rfl
    · rfl
  ev := by
    intro w x hx
    cases hx
  held := by
    intro x hx
    rcases hx with hx | hx
    · cases hx
    · cases hx
  answered := by
    intro x
    rfl
  inRange := by
    intro x hx
    cases hx

theorem count_update (queues : Bool → List Nat) (w : Bool) (q : List Nat) (x : Nat) :
    (Function.update queues w q false).count x + (Function.update queues w q true).count x +
      (queues w).count x = (queues false).count x + (queues true).count x + q.count x := by
  cases w with
  | false =>
    rw [Function.update_self, Function.update_of_ne (by decide)]
    omega
  | true =>
    rw [Function.update_self, Function.update_of_ne (by decide)]
    omega

theorem Inv.queue (h : Inv cfg [id] s) :
    Inv cfg [] ((s.setQueue (s.useWrQueue cfg id) (s.queues (s.useWrQueue cfg id) ++ [id])).queue
      cfg id memCycle) := by
  set w := s.useWrQueue cfg id with hw
  set t := s.setQueue w (s.queues w ++ [id]) with ht
  have hev : (t.reqs id).ev = some id := h.held id (.inl (List.mem_singleton_self id))
  have hspec := @queue_spec cfg t id memCycle hev
  have htw : t.useWrQueue cfg id = w := rfl
  have hone := h.placed id
  have hcap := List.nodup_iff_count.mp h.fresh id
  rw [List.count_singleton_self] at hone
  have hout : ∀ w', (s.queues w').count id = 0 := by
    intro w'
    cases w' with
    | false => omega
    | true => omega
  have hloc : ∀ x, ((t.queue cfg id memCycle).reqs x).loc = (s.reqs x).loc := by
    intro x
    by_cases hx : x = id
    · rw [hx]
      exact hspec.loc
    · rw [hspec.other x hx]
      rfl
  have hwrite : ∀ x, ((t.queue cfg id memCycle).reqs x).write = (s.reqs x).write := by
    intro x
    by_cases hx : x = id
    · rw [hx]
      exact hspec.write
    · rw [hspec.other x hx]
      rfl
  have hself : t.queues w = s.queues w ++ [id] := Function.update_self ..
  have hother : ∀ w', w' ≠ w → t.queues w' = s.queues w' := fun _ hne =>
    Function.update_of_ne hne ..
  have hmem : ∀ w', ∀ x ∈ t.queues w', x ∈ s.queues w' ∨ x = id ∧ w' = w := by
    intro w' x hx
    by_cases hww : w' = w
    · rw [hww, hself] at hx
      rcases List.mem_append.mp hx with hx | hx
      · exact .inl (hww ▸ hx)
      · exact .inr ⟨List.mem_singleton.mp hx, hww⟩
    · exact .inl (hother w' hww ▸ hx)
  have hcount : ∀ x, (t.queues false).count x + (t.queues true).count x =
      (s.queues false).count x + (s.queues true).count x + [id].count x := by
    intro x
    have hc := count_update s.queues w (s.queues w ++ [id]) x
    rw [List.count_append] at hc
    have hq : t.queues = Function.update s.queues w (s.queues w ++ [id]) := rfl
    rw [hq]
    omega
  constructor
  · rw [hspec.arrived]
    exact h.fresh
  · intro x
    have hp := h.placed x
    have hc := hcount x
    rw [hspec.arrived, hspec.overflowQueue, hspec.queues, hspec.served, List.count_nil]
    show s.arrived.count x = 0 + s.overflowQueue.count x + _ + s.served.count x
    omega
  · intro w' x hx
    rw [hspec.queues] at hx
    rw [useWrQueue, hwrite]
    rcases hmem w' x hx with hx | ⟨rfl, rfl⟩
    · exact h.kind w' x hx
    · rfl
  · intro w' pos x
    rw [hloc, hspec.queues]
    by_cases hat : (w', pos) = (w, (s.reqs id).loc.pos)
    · cases hat
      have hperm : ((t.queue cfg id memCycle).bankQueues w (s.reqs id).loc.pos).Perm
          (id :: s.bankQueues w (s.reqs id).loc.pos) := hspec.bank
      have hb := h.bank w (s.reqs id).loc.pos x
      rw [(hperm.count_eq x).trans List.count_cons, hself, List.count_append]
      rw [hb, List.count_singleton]
      by_cases hx : id = x
      · rw [hx, if_pos rfl, if_pos rfl, if_pos (beq_self_eq_true x)]
      · have hne : ¬ (id == x) = true := by simpa using hx
        rw [if_neg hne]
        rfl
    · rw [hspec.bank_other w' pos hat]
      refine (h.bank w' pos x).trans ?_
      by_cases hpos : (s.reqs x).loc.pos = pos
      · rw [if_pos hpos, if_pos hpos]
        by_cases hww : w' = w
        · have hx : id ≠ x := by
            rintro rfl
            exact hat (by rw [hww, hpos])
          rw [hww, hself, List.count_append, List.count_singleton, if_neg (by simpa using hx)]
          rfl
        · rw [hother w' hww]
      · rw [if_neg hpos, if_neg hpos]
  · intro w' x hx
    rw [hwrite]
    by_cases hxid : x = id
    · rw [hxid]
      exact hspec.ev
    · rw [hspec.queues] at hx
      rw [hspec.other x hxid]
      rcases hmem w' x hx with hx | ⟨rfl, -⟩
      · exact h.ev w' x hx
      · exact absurd rfl hxid
  · intro x hx
    have hov : x ∈ s.overflowQueue := by
      rcases hx with hx | hx
      · cases hx
      · rw [hspec.overflowQueue] at hx
        exact hx
    have hxid : x ≠ id := by
      rintro rfl
      have := List.count_pos_iff.mpr hov
      omega
    rw [hspec.other x hxid]
    exact h.held x (.inr hov)
  · intro x
    have ha := h.answered x
    have hc := hcount x
    rw [hspec.answered, hspec.served, hspec.queues, hwrite, List.count_append, hc]
    show _ + (s.answered.map Prod.fst).count x = s.served.count x + _
    rw [ha]
    by_cases hx : x = id
    · rw [hx, List.count_singleton_self]
      show (if (s.reqs id).write = true then [id] else []).count id + _ = _
      split
      · rw [List.count_singleton_self]
        omega
      · rw [List.count_nil]
        omega
    · have hzero : [id].count x = 0 := List.count_eq_zero.mpr (by simpa using hx)
      have hnone : (if (t.reqs id).write = true then [id] else []).count x = 0 := by
        split
        · exact hzero
        · rfl
      rw [hzero, hnone, Nat.zero_add, Nat.add_zero]
  · intro x hx
    rw [hspec.arrived] at hx
    rw [hloc]
    exact h.inRange x hx

theorem Inv.arrive (h : Inv cfg [] s) {addr : Nat} {write : Bool} {loc : AddrLoc}
    (hnew : id ∉ s.arrived) (hloc : cfg.mapLineAddr addr = some loc) :
    Inv cfg [id] { s.setReq id ⟨addr, loc, write, 0, memCycle, sysCycle, some id⟩ with
      arrived := id :: s.arrived } := by
  have hzero := h.placed id
  rw [List.count_eq_zero.mpr hnew, List.count_nil] at hzero
  have hne : ∀ x, (x ∈ s.overflowQueue ∨ (∃ w, x ∈ s.queues w) ∨ x ∈ s.served) → x ≠ id := by
    rintro x hx rfl
    rcases hx with hx | ⟨w, hx⟩ | hx
    · have := List.count_pos_iff.mpr hx
      omega
    · have := List.count_pos_iff.mpr hx
      cases w with
      | false => omega
      | true => omega
    · have := List.count_pos_iff.mpr hx
      omega
  have hreq : ∀ x, x ≠ id →
      (s.setReq id ⟨addr, loc, write, 0, memCycle, sysCycle, some id⟩).reqs x = s.reqs x :=
    fun x hx => setReq_other s _ hx
  constructor
  · exact List.nodup_cons.mpr ⟨hnew, h.fresh⟩
  · intro x
    have hp := h.placed x
    rw [List.count_nil] at hp
    show (id :: s.arrived).count x = [id].count x + s.overflowQueue.count x +
      ((s.queues false).count x + (s.queues true).count x) + s.served.count x
    rw [List.count_cons, List.count_singleton]
    omega
  · intro w x hx
    have hw := h.kind w x hx
    rw [useWrQueue] at hw ⊢
    exact (congrArg (fun r => cfg.deferredWrites && r.write)
      (hreq x (hne x (.inr (.inl ⟨w, hx⟩))))).trans hw
  · intro w pos x
    have hb := h.bank w pos x
    by_cases hx : x = id
    · have hq : (s.queues w).count id = 0 := by
        cases w with
        | false => omega
        | true => omega
      rw [hx, hq, ite_self] at hb
      rw [hx]
      show (s.bankQueues w pos).count id = if _ then (s.queues w).count id else 0
      rw [hb, hq, ite_self]
    · refine hb.trans ?_
      rw [← hreq x hx]
      rfl
  · intro w x hx
    have hev := h.ev w x hx
    rw [← hreq x (hne x (.inr (.inl ⟨w, hx⟩)))] at hev
    exact hev
  · intro x hx
    rcases hx with hx | hx
    · rw [List.mem_singleton.mp hx]
      exact congrArg DDRRequest.ev (setReq_self s id _)
    · have hev := h.held x (.inr hx)
      rw [← hreq x (hne x (.inl hx))] at hev
      exact hev
  · intro x
    have ha := h.answered x
    by_cases hx : x = id
    · have hq : (s.queues false).count id + (s.queues true).count id = 0 := by omega
      rw [hx, hq, ite_self] at ha
      rw [hx]
      show (s.answered.map Prod.fst).count id = s.served.count id +
        if _ then (s.queues false).count id + (s.queues true).count id else 0
      rw [ha, hq, ite_self]
    · rw [← hreq x hx] at ha
      exact ha
  · intro x hx
    rcases List.mem_cons.mp hx with rfl | hold
    · have hrange : loc.rank < cfg.ranksPerChannel ∧ loc.bank < cfg.banksPerRank := by
        rw [DDRConfig.mapLineAddr] at hloc
        split at hloc
        · rename_i hr
          cases hloc
          exact hr
        · cases hloc
      have hself := setReq_self s x ⟨addr, loc, write, 0, memCycle, sysCycle, some x⟩
      show ((s.setReq x _).reqs x).loc.rank < _ ∧ ((s.setReq x _).reqs x).loc.bank < _
      rw [hself]
      exact hrange
    · have hr := h.inRange x hold
      have hxid : x ≠ id := by
        intro he
        exact hnew (he ▸ hold)
      rw [← hreq x hxid] at hr
      exact hr

theorem Inv.overflow (h : Inv cfg [id] s) :
    Inv cfg [] { s with overflowQueue := s.overflowQueue ++ [id] } where
  fresh := h.fresh
  placed := by
    intro x
    have hp := h.placed x
    show s.arrived.count x = _ + (s.overflowQueue ++ [id]).count x + _ + _
    rw [List.count_append, List.count_nil]
    show s.arrived.count x = _ + _ + ((s.queues false).count x + (s.queues true).count x) +
      s.served.count x
    omega
  kind := h.kind
  bank := h.bank
  ev := h.ev
  held := by
    intro x hx
    rcases hx with hx | hx
    · cases hx
    · rcases List.mem_append.mp hx with hx | hx
      · exact h.held x (.inr hx)
      · exact h.held x (.inl hx)
  answered := h.answered
  inRange := h.inRange

theorem Inv.unflow (h : Inv cfg [] s) {rest : List Nat} (hov : s.overflowQueue = id :: rest) :
    Inv cfg [id] { s with overflowQueue := rest } where
  fresh := h.fresh
  placed := by
    intro x
    have hp := h.placed x
    rw [hov, List.count_nil, List.count_cons] at hp
    show s.arrived.count x = [id].count x + rest.count x +
      ((s.queues false).count x + (s.queues true).count x) + s.served.count x
    rw [List.count_singleton]
    omega
  kind := h.kind
  bank := h.bank
  ev := h.ev
  held := by
    intro x hx
    apply h.held x (.inr _)
    rw [hov]
    rcases hx with hx | hx
    · exact List.mem_cons.mpr (.inl (List.mem_singleton.mp hx))
    · exact List.mem_cons_of_mem _ hx
  answered := h.answered
  inRange := h.inRange

/-- What the issue of a request does to the queues. -/
structure Issued (s s' : DDRCtl) (w : Bool) (id : Nat) : Prop where
  reqs : s'.reqs = s.reqs
  queues : s'.queues = Function.update s.queues w ((s.queues w).erase id)
  bank : s'.bankQueues w (s.reqs id).loc.pos = (s.bankQueues w (s.reqs id).loc.pos).tail
  bank_other : ∀ w' pos, (w', pos) ≠ (w, (s.reqs id).loc.pos) →
    s'.bankQueues w' pos = s.bankQueues w' pos
  overflowQueue : s'.overflowQueue = s.overflowQueue
  arrived : s'.arrived = s.arrived
  served : s'.served = id :: s.served
  answered : s'.answered.map Prod.fst =
    (s.reqs id).ev.toList ++ s.answered.map Prod.fst

theorem access_issued {minCmdCycle : Nat}
    (h : s.access cfg w id minCmdCycle sysCycle = some s') : Issued s s' w id := by
  rw [access] at h
  dsimp only at h
  split at h
  · obtain ⟨t, ht, rfl⟩ := Option.map_eq_some_iff.mp h
    rw [respondRead] at ht
    dsimp only at ht
    split at ht
    · rename_i hev
      have hnone : (s.reqs id).ev = none := hev
      cases ht
      constructor
      · rfl
      · rfl
      · exact setBankQueue_self ..
      · intro w' pos hne
        exact setBankQueue_other _ _ hne
      · rfl
      · rfl
      · rfl
      · rw [hnone]
        rfl
    · rename_i ev hev
      have hsome : (s.reqs id).ev = some ev := hev
      split at ht
      · cases ht
        constructor
        · rfl
        · rfl
        · exact setBankQueue_self ..
        · intro w' pos hne
          exact setBankQueue_other _ _ hne
        · rfl
        · rfl
        · rfl
        · rw [hsome]
          rfl
      · cases ht
  · cases h

theorem issue_issued (h : s.issue cfg w id curCycle sysCycle = some s') : Issued s s' w id := by
  rw [issue] at h
  split at h
  · exact access_issued h
  · rw [activate] at h
    dsimp only at h
    split at h
    · cases h
    · rename_i ht
      split at ht
      · cases ht
      · cases ht
        have hissued := access_issued h
        exact ⟨hissued.reqs, hissued.queues, hissued.bank, hissued.bank_other,
          hissued.overflowQueue, hissued.arrived, hissued.served, hissued.answered⟩

theorem Inv.issued (h : Inv cfg [] s) (hissued : Issued s s' w id) (hid : id ∈ s.queues w)
    (hfirst : s.isFirst w id = true) : Inv cfg [] s' := by
  have hbank : s.bankQueues w (s.reqs id).loc.pos =
      id :: (s.bankQueues w (s.reqs id).loc.pos).tail := by
    rw [isFirst] at hfirst
    exact List.eq_cons_of_mem_head? (Option.mem_def.mpr (beq_iff_eq.mp hfirst))
  have hself : s'.queues w = (s.queues w).erase id := by
    rw [hissued.queues, Function.update_self]
  have hother : ∀ w', w' ≠ w → s'.queues w' = s.queues w' := by
    intro w' hne
    rw [hissued.queues, Function.update_of_ne hne]
  have hmem : ∀ w', ∀ x ∈ s'.queues w', x ∈ s.queues w' := by
    intro w' x hx
    by_cases hw : w' = w
    · rw [hw] at hx ⊢
      rw [hself] at hx
      exact List.mem_of_mem_erase hx
    · rwa [hother w' hw] at hx
  have herase : ∀ x, (s.queues w).count x = ((s.queues w).erase id).count x + [id].count x := by
    intro x
    rw [(List.perm_cons_erase hid).count_eq x, List.count_cons, List.count_singleton]
  have hcount : ∀ x, (s'.queues false).count x + (s'.queues true).count x + [id].count x =
      (s.queues false).count x + (s.queues true).count x := by
    intro x
    have hc := count_update s.queues w ((s.queues w).erase id) x
    have he := herase x
    rw [hissued.queues]
    omega
  have hserved : ∀ x, s'.served.count x = s.served.count x + [id].count x := by
    intro x
    rw [hissued.served, List.count_cons, List.count_singleton]
  constructor
  · rw [hissued.arrived]
    exact h.fresh
  · intro x
    have hp := h.placed x
    have hc := hcount x
    have hs := hserved x
    rw [hissued.arrived, hissued.overflowQueue]
    omega
  · intro w' x hx
    rw [useWrQueue, hissued.reqs]
    exact h.kind w' x (hmem w' x hx)
  · intro w' pos x
    have hb := h.bank w' pos x
    rw [hissued.reqs]
    by_cases hat : (w', pos) = (w, (s.reqs id).loc.pos)
    · cases hat
      rw [hbank, List.count_cons, herase x, List.count_singleton] at hb
      rw [hissued.bank, hself]
      by_cases hpos : (s.reqs x).loc.pos = (s.reqs id).loc.pos
      · rw [if_pos hpos] at hb ⊢
        omega
      · rw [if_neg hpos] at hb ⊢
        omega
    · rw [hissued.bank_other w' pos hat, hb]
      by_cases hpos : (s.reqs x).loc.pos = pos
      · rw [if_pos hpos, if_pos hpos]
        by_cases hw : w' = w
        · have hx : id ≠ x := by
            rintro rfl
            exact hat (by rw [hw, hpos])
          rw [hw, hself, herase x, List.count_singleton, if_neg (by simpa using hx)]
          rfl
        · rw [hother w' hw]
      · rw [if_neg hpos, if_neg hpos]
  · intro w' x hx
    rw [hissued.reqs]
    exact h.ev w' x (hmem w' x hx)
  · intro x hx
    rw [hissued.reqs]
    rw [hissued.overflowQueue] at hx
    exact h.held x hx
  · intro x
    have ha := h.answered x
    have hc := hcount x
    have hs := hserved x
    rw [hissued.answered, List.count_append, hissued.reqs, h.ev w id hid, ha]
    by_cases hx : x = id
    · rw [hx] at hc hs ⊢
      rw [List.count_singleton_self] at hc hs
      by_cases hwrite : (s.reqs id).write = true
      · rw [if_pos hwrite, if_pos hwrite, if_pos hwrite]
        show 0 + _ = _
        omega
      · rw [if_neg hwrite, if_neg hwrite, if_neg hwrite]
        show [id].count id + _ = _
        rw [List.count_singleton_self]
        omega
    · have hzero : [id].count x = 0 := List.count_eq_zero.mpr (by simpa using hx)
      have hnone : (if (s.reqs id).write = true then none else some id : Option Nat).toList.count
          x = 0 := by
        split
        · rfl
        · exact hzero
      rw [hzero] at hc hs
      rw [hnone, hs, ← hc, Nat.zero_add]
      rfl
  · intro x hx
    rw [hissued.reqs]
    rw [hissued.arrived] at hx
    exact h.inRange x hx

theorem minCycle_le (a : WithTop Nat) (b : Nat) : minCycle a b ≤ a ∧ minCycle a b ≤ WithTop.some b := by
  rw [minCycle]
  split
  · rename_i hlt
    exact ⟨le_of_lt hlt, le_refl _⟩
  · rename_i hnot
    exact ⟨le_refl _, not_lt.mp hnot⟩

theorem lt_minCycle {a x : WithTop Nat} {b : Nat} (ha : x < a) (hb : x < WithTop.some b) :
    x < minCycle a b := by
  rw [minCycle]
  split
  · exact hb
  · exact ha

theorem findReady_some {q : List Nat} {m m' : WithTop Nat}
    (h : s.findReady cfg w curCycle q m = (some id, m')) :
    id ∈ q ∧ s.isFirst w id = true ∧ s.findMinCmdCycle cfg (s.reqs id) ≤ curCycle := by
  induction q generalizing m with
  | nil => cases h
  | cons x q ih =>
    rw [findReady] at h
    dsimp only at h
    split at h
    · rename_i hfirst
      split at h
      · rename_i hready
        cases h
        exact ⟨List.mem_cons_self, hfirst, hready⟩
      · obtain ⟨hmem, hrest⟩ := ih h
        exact ⟨List.mem_cons_of_mem _ hmem, hrest⟩
    · obtain ⟨hmem, hrest⟩ := ih h
      exact ⟨List.mem_cons_of_mem _ hmem, hrest⟩

theorem findReady_none {q : List Nat} {m m' : WithTop Nat}
    (h : s.findReady cfg w curCycle q m = (none, m')) :
    (WithTop.some curCycle < m → WithTop.some curCycle < m') ∧ m' ≤ m ∧ ∀ x ∈ q, s.isFirst w x = true → m' ≠ ⊤ := by
  induction q generalizing m with
  | nil =>
    cases h
    refine ⟨fun hlt => hlt, le_refl _, ?_⟩
    intro x hx
    cases hx
  | cons x q ih =>
    rw [findReady] at h
    dsimp only at h
    split at h
    · split at h
      · cases h
      · rename_i hlate
        obtain ⟨hlt, hle, hfirst⟩ := ih h
        have hcmd : WithTop.some curCycle < WithTop.some (s.findMinCmdCycle cfg (s.reqs x)) :=
          WithTop.coe_lt_coe.mpr (Nat.lt_of_not_le hlate)
        have htop : m' ≠ ⊤ := by
          have hbound := lt_of_le_of_lt (le_trans hle (minCycle_le _ _).2)
            (WithTop.coe_lt_top (s.findMinCmdCycle cfg (s.reqs x)))
          exact ne_of_lt hbound
        exact ⟨fun hm => hlt (lt_minCycle hm hcmd), le_trans hle (minCycle_le _ _).1, fun _ _ _ => htop⟩
    · rename_i hnot
      obtain ⟨hlt, hle, hfirst⟩ := ih h
      refine ⟨hlt, hle, ?_⟩
      intro y hy hyfirst
      rcases List.mem_cons.mp hy with rfl | hy
      · exact absurd hyfirst hnot
      · exact hfirst y hy hyfirst

/-- A queue that is not empty has a request that is first in its bank. -/
theorem Inv.exists_first {hand : List Nat} (h : Inv cfg hand s) (hne : s.queues w ≠ []) :
    ∃ x ∈ s.queues w, s.isFirst w x = true := by
  obtain ⟨y, hy⟩ := List.exists_mem_of_ne_nil _ hne
  have hb := h.bank w (s.reqs y).loc.pos y
  rw [if_pos rfl] at hb
  have hpos := List.count_pos_iff.mpr hy
  rw [← hb] at hpos
  match hq : s.bankQueues w (s.reqs y).loc.pos with
  | [] =>
    rw [hq, List.count_nil] at hpos
    exact absurd hpos (Nat.lt_irrefl 0)
  | x :: rest =>
    have hbx := h.bank w (s.reqs y).loc.pos x
    rw [hq, List.count_cons_self] at hbx
    by_cases hpx : (s.reqs x).loc.pos = (s.reqs y).loc.pos
    · rw [if_pos hpx] at hbx
      refine ⟨x, List.count_pos_iff.mp (by omega), ?_⟩
      rw [isFirst, hpx, hq]
      exact beq_self_eq_true _
    · rw [if_neg hpx] at hbx
      cases hbx

theorem empty_iff : s.empty w = true ↔ s.queues w = [] := List.isEmpty_iff

theorem trySchedule_cases {m : WithTop Nat}
    (h : s.trySchedule cfg curCycle sysCycle = some (s', m)) :
    (s' = s ∧ m = ⊤ ∧ ∀ w, s.queues w = []) ∨
      (s' = s ∧ curCycle + cfg.timing.tCL < s.minRespCycle ∧
        m = WithTop.some (s.minRespCycle - cfg.timing.tCL)) ∨
      (s' = s ∧ ∃ w, s.queues w ≠ [] ∧
        s.findReady cfg w curCycle (s.queues w) ⊤ = (none, m)) ∨
      (∃ w id, id ∈ s.queues w ∧ s.isFirst w id = true ∧
        s.findMinCmdCycle cfg (s.reqs id) ≤ curCycle ∧
        s.minRespCycle ≤ curCycle + cfg.timing.tCL ∧
        s.issue cfg w id curCycle sysCycle = some s' ∧
        m = if s'.empty false && s'.empty true then ⊤
          else WithTop.some (s'.minRespCycle - cfg.timing.tCL)) := by
  rw [trySchedule] at h
  split at h
  · rename_i hempty
    rw [Bool.and_eq_true, empty_iff, empty_iff] at hempty
    cases h
    refine .inl ⟨rfl, rfl, ?_⟩
    intro w
    cases w with
    | false => exact hempty.1
    | true => exact hempty.2
  · split at h
    · rename_i hahead
      cases h
      exact .inr (.inl ⟨rfl, hahead, rfl⟩)
    · rename_i hahead
      dsimp only at h
      split at h
      · cases h
      · rename_i hnot
        rw [empty_iff] at hnot
        split at h
        · rename_i hnone
          cases h
          exact .inr (.inr (.inl ⟨rfl, _, hnot, hnone⟩))
        · rename_i id _ hsome
          obtain ⟨t, ht, heq⟩ := Option.map_eq_some_iff.mp h
          cases heq
          obtain ⟨hmem, hfirst, hready⟩ := findReady_some hsome
          exact .inr (.inr (.inr ⟨_, id, hmem, hfirst, hready, Nat.le_of_not_lt hahead, ht, rfl⟩))

/-- `trySchedule` wants no further tick only once the queues are empty. -/
theorem Inv.trySchedule (h : Inv cfg [] s) {m : WithTop Nat}
    (hs : s.trySchedule cfg curCycle sysCycle = some (s', m)) :
    Inv cfg [] s' ∧ s'.overflowQueue = s.overflowQueue ∧ (m = ⊤ → ∀ w, s'.queues w = []) := by
  rcases trySchedule_cases hs with ⟨rfl, -, hempty⟩ | ⟨rfl, -, rfl⟩ | ⟨rfl, w, hne, hnone⟩ |
    ⟨w, id, hid, hfirst, -, -, hissue, rfl⟩
  · exact ⟨h, rfl, fun _ => hempty⟩
  · exact ⟨h, rfl, fun htop => absurd htop (WithTop.coe_ne_top)⟩
  · obtain ⟨x, hx, hfirst⟩ := h.exists_first hne
    exact ⟨h, rfl, fun htop => absurd htop ((findReady_none hnone).2.2 x hx hfirst)⟩
  · have hissued := issue_issued hissue
    refine ⟨h.issued hissued hid hfirst, hissued.overflowQueue, ?_⟩
    intro htop w
    split at htop
    · rename_i hempty
      rw [Bool.and_eq_true, empty_iff, empty_iff] at hempty
      cases w with
      | false => exact hempty.1
      | true => exact hempty.2
    · exact absurd htop WithTop.coe_ne_top

theorem Inv.refresh (h : Inv cfg [] s) : Inv cfg [] (s.refresh cfg sysCycle) :=
  ⟨h.fresh, h.placed, h.kind, h.bank, h.ev, h.held, h.answered, h.inRange⟩

end DDRCtl

end ZSim
