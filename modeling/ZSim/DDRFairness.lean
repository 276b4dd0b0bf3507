import ZSim.DDRLegalRuns
import ZSim.DDRMoves
import ZSim.FairQueue

/-! The bank queues of the DDR controller are fair over all its runs. -/

namespace ZSim

namespace DDRCtl

variable {cfg : DDRConfig} {s s' : DDRCtl} {id memCycle curCycle sysCycle : Nat}

def rowOf (s : DDRCtl) (id : Nat) : Nat := (s.reqs id).loc.row

def seqOf (s : DDRCtl) (id : Nat) : Nat := (s.reqs id).rowHitSeq

theorem insertAfter_split {m : Nat} {pre : List Nat} (hm : m ∉ pre) (post : List Nat) :
    insertAfter m id (pre ++ m :: post) = pre ++ m :: id :: post := by
  induction pre with
  | nil => rw [List.nil_append, insertAfter, if_pos rfl, List.nil_append]
  | cons x pre ih =>
    rw [List.mem_cons, not_or] at hm
    rw [List.cons_append, insertAfter, if_neg (Ne.symm hm.1), ih hm.2, List.cons_append]

theorem place_placed {q : List Nat} (hnd : q.Nodup) {row seq : Nat → Nat}
    (hrow : ∀ x, x = id ∨ x ∈ q → row x = s.rowOf x) (hseq : ∀ x ∈ q, seq x = s.seqOf x)
    (hid : seq id = (s.place cfg id q).1) :
    Placed cfg.rowHitLimit row seq id q (s.place cfg id q).2 := by
  rw [place] at hid ⊢
  cases hfind : q.reverse.find? (fun m => (s.reqs m).loc.row = (s.reqs id).loc.row) with
  | none =>
    rw [hfind] at hid
    dsimp only at hid ⊢
    by_cases hopen : (s.banks (s.reqs id).loc.pos).isOpen = true ∧
        (s.reqs id).loc.row = (s.banks (s.reqs id).loc.pos).openRow ∧
        (s.banks (s.reqs id).loc.pos).curRowHits < cfg.rowHitLimit ∧ q = []
    · rw [if_pos hopen, hopen.2.2.2]
      exact .back []
    · rw [if_neg hopen]
      exact .back q
  | some m =>
    rw [hfind] at hid
    dsimp only at hid ⊢
    by_cases hlimit : (s.reqs m).rowHitSeq < cfg.rowHitLimit
    · rw [if_pos hlimit] at hid ⊢
      obtain ⟨hm, as, bs, hsplit, has⟩ := List.find?_eq_some_iff_append.mp hfind
      have hq : q = bs.reverse ++ m :: as.reverse := by
        rw [← List.reverse_reverse q, hsplit, List.reverse_append, List.reverse_cons,
          List.append_assoc, List.singleton_append]
      have hmem : ∀ x ∈ as, x ∈ q := by
        intro x hx
        rw [hq]
        exact List.mem_append_right _ (List.mem_cons_of_mem _ (List.mem_reverse.mpr hx))
      have hmq : m ∈ q := by
        rw [hq]
        exact List.mem_append_right _ List.mem_cons_self
      have hpre : m ∉ bs.reverse := by
        rw [hq] at hnd
        exact fun hx => (List.nodup_append.mp hnd).2.2 m hx m List.mem_cons_self rfl
      have hsame : row m = row id := by
        rw [hrow m (.inr hmq), hrow id (.inl rfl)]
        exact of_decide_eq_true hm
      have hseqid : seq id = seq m + 1 := by
        rw [hseq m hmq]
        exact hid
      rw [hq, insertAfter_split hpre]
      refine .after _ m _ hsame (fun x hx => ?_) hseqid (by rw [hid]; exact hlimit)
      have hx' := List.mem_reverse.mp hx
      rw [hrow x (.inr (hmem x hx')), hrow id (.inl rfl)]
      intro heq
      have hnot := has x hx'
      rw [decide_eq_true (show (s.reqs x).loc.row = (s.reqs id).loc.row from heq)] at hnot
      cases hnot
    · rw [if_neg hlimit]
      exact .back q

theorem place_seq_le (q : List Nat) : (s.place cfg id q).1 ≤ cfg.rowHitLimit := by
  rw [place]
  split
  · split
    · assumption
    · exact Nat.zero_le _
  · split
    · rename_i hopen
      exact hopen.2.2.1
    · exact Nat.zero_le _

/-- The bank queue of a request that is queued, and the number that it gets. -/
theorem queue_place (hev : (s.reqs id).ev = some id) :
    ((s.queue cfg id memCycle).bankQueues (s.useWrQueue cfg id) (s.reqs id).loc.pos =
        ((s.respondWrite cfg id memCycle).place cfg id
          (s.bankQueues (s.useWrQueue cfg id) (s.reqs id).loc.pos)).2) ∧
      ((s.queue cfg id memCycle).reqs id).rowHitSeq =
        ((s.respondWrite cfg id memCycle).place cfg id
          (s.bankQueues (s.useWrQueue cfg id) (s.reqs id).loc.pos)).1 := by
  obtain ⟨ht, hb⟩ := @respondWrite_spec cfg s id memCycle hev
  have hw : (s.respondWrite cfg id memCycle).useWrQueue cfg id = s.useWrQueue cfg id := by
    rw [useWrQueue, useWrQueue, ht.write]
  rw [queue]
  dsimp only
  rw [hw, ht.loc, hb]
  refine ⟨setBankQueue_self .., ?_⟩
  exact congrArg DDRRequest.rowHitSeq (setReq_self _ id _)

/-- No number is above the limit. -/
structure SeqInv (cfg : DDRConfig) (s : DDRCtl) : Prop where
  reqs : ∀ x, s.seqOf x ≤ cfg.rowHitLimit
  banks : ∀ pos, (s.banks pos).curRowHits ≤ cfg.rowHitLimit

theorem access_curRowHits {w : Bool} {minCmdCycle : Nat}
    (h : s.access cfg w id minCmdCycle sysCycle = some s') (pos : Nat × Nat) :
    (s'.banks pos).curRowHits = (s.banks pos).curRowHits ∨
      (s'.banks pos).curRowHits = s.seqOf id := by
  rw [access] at h
  dsimp only at h
  split at h
  · obtain ⟨t, ht, rfl⟩ := Option.map_eq_some_iff.mp h
    have hbanks : t.banks = Function.update s.banks (s.reqs id).loc.pos
        (s.bankAfter cfg w (s.reqs id)
          (max minCmdCycle (s.minRespCycle - cfg.timing.tCL))
          (max minCmdCycle (s.minRespCycle - cfg.timing.tCL) + cfg.timing.tCL + cfg.timing.tBL)) := by
      rw [respondRead] at ht
      dsimp only at ht
      split at ht
      · cases ht
        rfl
      · split at ht
        · cases ht
          rfl
        · cases ht
    show (t.banks pos).curRowHits = _ ∨ (t.banks pos).curRowHits = _
    rw [hbanks]
    by_cases hpos : pos = (s.reqs id).loc.pos
    · rw [hpos, Function.update_self]
      exact .inr rfl
    · rw [Function.update_of_ne hpos]
      exact .inl rfl
  · cases h

theorem activate_curRowHits {r : DDRRequest} (h : s.activate cfg r = some s') (pos : Nat × Nat) :
    (s'.banks pos).curRowHits = (s.banks pos).curRowHits := by
  rw [activate] at h
  dsimp only at h
  split at h
  · cases h
  · cases h
    show (Function.update s.banks r.loc.pos _ pos).curRowHits = _
    by_cases hpos : pos = r.loc.pos
    · rw [hpos, Function.update_self]
    · rw [Function.update_of_ne hpos]

theorem issue_curRowHits {w : Bool} (h : s.issue cfg w id curCycle sysCycle = some s')
    (pos : Nat × Nat) :
    (s'.banks pos).curRowHits = (s.banks pos).curRowHits ∨
      (s'.banks pos).curRowHits = s.seqOf id := by
  rw [issue] at h
  split at h
  · exact access_curRowHits h pos
  · split at h
    · cases h
    · rename_i t ht
      rw [← activate_curRowHits ht pos]
      have hseq : t.seqOf id = s.seqOf id := by
        rw [activate] at ht
        dsimp only at ht
        split at ht
        · cases ht
        · cases ht
          rfl
      rw [← hseq]
      exact access_curRowHits h pos

theorem SeqInv.serves (h : SeqInv cfg s) (hs : Serves cfg s s') : SeqInv cfg s' := by
  cases hs with
  | idle => exact h
  | issue hid hfirst hissue =>
    refine ⟨fun x => ?_, fun pos => ?_⟩
    · rw [seqOf, (issue_issued hissue).reqs]
      exact h.reqs x
    · rcases issue_curRowHits hissue pos with heq | heq
      · rw [heq]
        exact h.banks pos
      · rw [heq]
        exact h.reqs _

/-- A request in hand is queued, and no other request changes. -/
theorem Inv.queued_reqs {t : DDRCtl} (hinv : t.Inv cfg [id]) :
    (∀ x, x ≠ id → (t.queued cfg id memCycle).reqs x = t.reqs x) ∧
      ((t.queued cfg id memCycle).reqs id).loc = (t.reqs id).loc ∧
      (t.queued cfg id memCycle).banks = t.banks ∧
      (t.queued cfg id memCycle).served = t.served ∧
      (t.queued cfg id memCycle).seqOf id ≤ cfg.rowHitLimit := by
  have hspec := @Inv.queued_spec cfg t id memCycle hinv
  have hplace := @queue_place cfg
    (t.setQueue (t.useWrQueue cfg id) (t.queues (t.useWrQueue cfg id) ++ [id])) id memCycle
    (hinv.held id (.inl (List.mem_singleton_self id)))
  refine ⟨hspec.other, hspec.loc, hspec.banks, hspec.served, ?_⟩
  rw [seqOf, queued, hplace.2]
  exact place_seq_le _

theorem SeqInv.takes (h : SeqInv cfg s) (hs : Takes cfg s s') : SeqInv cfg s' := by
  cases hs with
  | keep => exact h
  | refresh =>
    refine ⟨h.reqs, fun pos => ?_⟩
    rw [DDRCtl.refresh]
    dsimp only
    split
    · exact h.banks pos
    · exact h.banks pos
  | @overflow id r hnew hseq =>
    refine ⟨fun x => ?_, h.banks⟩
    by_cases hx : x = id
    · rw [hx]
      show ((s.setReq id r).reqs id).rowHitSeq ≤ _
      rw [setReq_self, hseq]
      exact Nat.zero_le _
    · show ((s.setReq id r).reqs x).rowHitSeq ≤ _
      rw [setReq_other s r hx]
      exact h.reqs x
  | @queue t id memCycle hhand hinv =>
    obtain ⟨hother, -, hbanks, -, hseq⟩ := @Inv.queued_reqs cfg id memCycle t hinv
    refine ⟨fun x => ?_, fun pos => ?_⟩
    · by_cases hx : x = id
      · rw [hx]
        exact hseq
      · rw [seqOf, hother x hx, hhand.other x hx]
        exact h.reqs x
    · rw [hbanks, hhand.banks]
      exact h.banks pos

theorem Inv.mem_queues {hand : List Nat} (h : Inv cfg hand s) {w : Bool} {pos : Nat × Nat} {x : Nat}
    (hx : x ∈ s.bankQueues w pos) : x ∈ s.queues w ∧ (s.reqs x).loc.pos = pos := by
  have hb := h.bank w pos x
  have hpos := List.count_pos_iff.mpr hx
  by_cases heq : (s.reqs x).loc.pos = pos
  · rw [if_pos heq] at hb
    exact ⟨List.count_pos_iff.mp (by omega), heq⟩
  · rw [if_neg heq] at hb
    omega

theorem Inv.nodup_bankQueue {hand : List Nat} (h : Inv cfg hand s) (w : Bool) (pos : Nat × Nat) :
    (s.bankQueues w pos).Nodup := by
  refine List.nodup_iff_count.mpr fun x => ?_
  have hb := h.bank w pos x
  have hp := h.placed x
  have hcap := List.nodup_iff_count.mp h.fresh x
  have hle : (s.queues w).count x ≤ (s.queues false).count x + (s.queues true).count x := by
    cases w with
    | false => exact Nat.le_add_right _ _
    | true => exact Nat.le_add_left _ _
  split at hb <;> omega

/-- A request in a bank queue or served has arrived, and is not in hand. -/
theorem Inv.known {hand : List Nat} (h : Inv cfg hand s) {w : Bool} {pos : Nat × Nat} {x : Nat}
    (hx : x ∈ s.served ∨ x ∈ s.bankQueues w pos) : x ∈ s.arrived ∧ x ∉ hand := by
  have hp := h.placed x
  have hcap := List.nodup_iff_count.mp h.fresh x
  have hone : 0 < (s.queues false).count x + (s.queues true).count x + s.served.count x := by
    rcases hx with hx | hx
    · have := List.count_pos_iff.mpr hx
      omega
    · have hmem := List.count_pos_iff.mpr (h.mem_queues hx).1
      cases w with
      | false => omega
      | true => omega
  refine ⟨List.count_pos_iff.mp (by omega), fun hhand => ?_⟩
  have := List.count_pos_iff.mpr hhand
  omega

/-- The bank queue when a request in hand is queued. -/
theorem Inv.queued_placed {t : DDRCtl} (hinv : t.Inv cfg [id]) (w : Bool) (pos : Nat × Nat) :
    (t.queued cfg id memCycle).bankQueues w pos = t.bankQueues w pos ∨
      Placed cfg.rowHitLimit (t.queued cfg id memCycle).rowOf (t.queued cfg id memCycle).seqOf id
        (t.bankQueues w pos) ((t.queued cfg id memCycle).bankQueues w pos) := by
  have hspec := @Inv.queued_spec cfg t id memCycle hinv
  by_cases hat : (w, pos) = (t.useWrQueue cfg id, (t.reqs id).loc.pos)
  · right
    cases hat
    set u := t.setQueue (t.useWrQueue cfg id) (t.queues (t.useWrQueue cfg id) ++ [id]) with hu
    have hev : (u.reqs id).ev = some id := hinv.held id (.inl (List.mem_singleton_self id))
    obtain ⟨hqueue, hseq⟩ := @queue_place cfg u id memCycle hev
    obtain ⟨hresp, -⟩ := @respondWrite_spec cfg u id memCycle hev
    have hqueue' : (t.queued cfg id memCycle).bankQueues (t.useWrQueue cfg id)
        (t.reqs id).loc.pos = _ := hqueue
    rw [hqueue']
    refine place_placed (hinv.nodup_bankQueue _ _) (fun x hx => ?_) (fun x hx => ?_) hseq
    · by_cases hxid : x = id
      · rw [hxid, rowOf, rowOf, hspec.loc, hresp.loc]
      · rw [rowOf, rowOf, hspec.other x hxid, hresp.other x hxid]
    · have hxid : x ≠ id := fun heq =>
        (hinv.known (.inr hx)).2 (List.mem_singleton.mpr heq)
      rw [seqOf, seqOf, hspec.other x hxid, hresp.other x hxid]
  · exact .inl (hspec.bank_other w pos hat)

/-- The log of a bank queue, with those that left it served. -/
structure LogInv (cfg : DDRConfig) (w : Bool) (pos : Nat × Nat) (s : DDRCtl) (h : QueueLog Nat) :
    Prop where
  fair : Fair cfg.rowHitLimit s.rowOf s.seqOf (s.bankQueues w pos) h
  left : ∀ x ∈ h.left, x ∈ s.served

theorem Fair.of_bankQueue {w : Bool} {pos : Nat × Nat} {h : QueueLog Nat}
    (hf : Fair cfg.rowHitLimit s.rowOf s.seqOf (s.bankQueues w pos) h)
    (hreqs : ∀ x ∈ h.arrivals, s'.reqs x = s.reqs x) :
    Fair cfg.rowHitLimit s'.rowOf s'.seqOf (s.bankQueues w pos) h :=
  hf.congr (fun x hx => by rw [rowOf, rowOf, hreqs x hx])
    fun x hx => by rw [seqOf, seqOf, hreqs x (hf.known x hx)]

/-- What the service of a request does to a bank queue: the first entry leaves, or none. -/
theorem Serves.bankQueue (hs : Serves cfg s s') (w : Bool) (pos : Nat × Nat) :
    s'.reqs = s.reqs ∧ (∀ x ∈ s.served, x ∈ s'.served) ∧
      (s'.bankQueues w pos = s.bankQueues w pos ∨
        ∃ e ∈ s'.served, s.bankQueues w pos = e :: s'.bankQueues w pos) := by
  cases hs with
  | idle => exact ⟨rfl, fun _ hx => hx, .inl rfl⟩
  | @issue w' id curCycle sysCycle _ hid hfirst hissue =>
    have hissued := issue_issued hissue
    refine ⟨hissued.reqs, fun x hx => ?_, ?_⟩
    · rw [hissued.served]
      exact List.mem_cons_of_mem _ hx
    · by_cases hat : (w, pos) = (w', (s.reqs id).loc.pos)
      · right
        cases hat
        refine ⟨id, ?_, ?_⟩
        · rw [hissued.served]
          exact List.mem_cons_self
        · rw [hissued.bank]
          rw [isFirst] at hfirst
          exact List.eq_cons_of_mem_head? (Option.mem_def.mpr (beq_iff_eq.mp hfirst))
      · exact .inl (hissued.bank_other w pos hat)

/-- What a request that is taken does to a bank queue: it is placed there, or not. -/
theorem Takes.bankQueue (hs : Takes cfg s s') (hinv : s.Inv cfg []) (w : Bool) (pos : Nat × Nat) :
    (∀ x, x ∈ s.served ∨ x ∈ s.bankQueues w pos → s'.reqs x = s.reqs x) ∧
      (∀ x ∈ s.served, x ∈ s'.served) ∧
      (s'.bankQueues w pos = s.bankQueues w pos ∨
        ∃ n, (∀ x, x ∈ s.served ∨ x ∈ s.bankQueues w pos → x ≠ n) ∧
          Placed cfg.rowHitLimit s'.rowOf s'.seqOf n (s.bankQueues w pos)
            (s'.bankQueues w pos)) := by
  cases hs with
  | keep => exact ⟨fun _ _ => rfl, fun _ hx => hx, .inl rfl⟩
  | refresh => exact ⟨fun _ _ => rfl, fun _ hx => hx, .inl rfl⟩
  | @overflow id r hnew hseq =>
    refine ⟨fun x hx => setReq_other s r ?_, fun _ hx => hx, .inl rfl⟩
    rintro rfl
    exact hnew (hinv.known hx).1
  | @queue t id memCycle hhand htinv =>
    obtain ⟨hother, -, -, hserved, -⟩ := @Inv.queued_reqs cfg id memCycle t htinv
    have hne : ∀ x, x ∈ s.served ∨ x ∈ s.bankQueues w pos → x ≠ id := by
      rintro x hx rfl
      rw [← hhand.served, ← hhand.bankQueues] at hx
      exact (htinv.known hx).2 (List.mem_singleton_self x)
    refine ⟨fun x hx => ?_, fun x hx => ?_, ?_⟩
    · rw [hother x (hne x hx), hhand.other x (hne x hx)]
    · rwa [hserved, hhand.served]
    · rcases @Inv.queued_placed cfg id memCycle t htinv w pos with hsame | hplaced
      · rw [hsame, hhand.bankQueues]
        exact .inl rfl
      · rw [hhand.bankQueues] at hplaced
        exact .inr ⟨id, hne, hplaced⟩

/-- The log is right after a request was served and another taken. -/
theorem LogInv.note {mid : DDRCtl} {w : Bool} {pos : Nat × Nat} {h : QueueLog Nat}
    (hl : LogInv cfg w pos s h) (hserves : Serves cfg s mid) (hmid : mid.Inv cfg [])
    (htakes : Takes cfg mid s') :
    LogInv cfg w pos s' (h.note (s.bankQueues w pos) (s'.bankQueues w pos)) := by
  obtain ⟨hreqs, hserved, hpop⟩ := hserves.bankQueue w pos
  obtain ⟨hreqs', hserved', hplace⟩ := htakes.bankQueue hmid w pos
  have hkept : ∀ x ∈ h.arrivals, x ∈ mid.served ∨ x ∈ mid.bankQueues w pos := by
    intro x hx
    rcases (hl.fair.mem_arrivals x).mp hx with hx | hx
    · exact .inl (hserved x (hl.left x hx))
    · rcases hpop with hsame | ⟨e, he, hcons⟩
      · rw [hsame]
        exact .inr hx
      · rw [hcons] at hx
        rcases List.mem_cons.mp hx with rfl | hx
        · exact .inl he
        · exact .inr hx
  have hfair : Fair cfg.rowHitLimit s'.rowOf s'.seqOf (s.bankQueues w pos) h :=
    Fair.of_bankQueue hl.fair fun x hx => by rw [hreqs' x (hkept x hx), hreqs]
  refine ⟨?_, fun x hx => ?_⟩
  · rcases hplace with hplace | ⟨n, hne, hplaced⟩
    · rw [hplace]
      rcases hpop with hpop | ⟨e, -, hpop⟩
      · rw [hpop, QueueLog.note_self]
        exact hfair
      · rw [hpop] at hfair ⊢
        exact hfair.pop
    · have hn : n ∉ h.arrivals := fun hx => hne n (hkept n hx) rfl
      rcases hpop with hpop | ⟨e, -, hpop⟩
      · rw [hpop] at hplaced
        exact hfair.place hn hplaced
      · rw [hpop] at hfair ⊢
        exact hfair.pop_place hn hplaced
  · rcases List.mem_append.mp hx with hx | hx
    · exact hserved' x (hserved x (hl.left x hx))
    · rw [List.mem_filter, decide_eq_true_eq] at hx
      refine (hkept x (hl.fair.known x hx.1)).elim (hserved' x) fun hmem => absurd ?_ hx.2
      rcases hplace with hplace | ⟨n, -, hplaced⟩
      · rwa [hplace]
      · exact hplaced.mem_iff.mpr (.inr hmem)

end DDRCtl

namespace DDRMemory

variable {cfg : DDRConfig} {w : Bool} {pos : Nat × Nat}

/-- A run, with the log of one bank queue. -/
inductive Logged (cfg : DDRConfig) (w : Bool) (pos : Nat × Nat) : DDRMemory → QueueLog Nat → Prop
  | init : Logged cfg w pos (init cfg) .empty
  | step {s s' : DDRMemory} {h : QueueLog Nat} (hl : Logged cfg w pos s h) (e : Event)
      (he : s.Enabled e) (hs : s.step cfg e = some s') :
      Logged cfg w pos s' (h.note (s.ctl.bankQueues w pos) (s'.ctl.bankQueues w pos))

theorem Logged.inv {s : DDRMemory} {h : QueueLog Nat} (hl : Logged cfg w pos s h) :
    Inv cfg s ∧ s.ctl.SeqInv cfg ∧ s.ctl.LogInv cfg w pos h := by
  induction hl with
  | init =>
    exact ⟨inv_init, ⟨fun _ => Nat.zero_le _, fun _ => Nat.zero_le _⟩, Fair.empty,
      fun x hx => absurd hx List.not_mem_nil⟩
  | step _ e he hs ih =>
    obtain ⟨hinv, hseq, hlog⟩ := ih
    obtain ⟨mid, hserves, hmid, htakes⟩ := hinv.step_split he hs
    exact ⟨hinv.step he hs, (hseq.serves hserves).takes htakes, hlog.note hserves hmid htakes⟩

/-- The requests that are placed ahead of one that was there are no more than the limit for each
of those ahead of it when it came; no number is above the limit; and the requests of a row leave
in the order they came. -/
theorem bank_queue_fair {s : DDRMemory} {h : QueueLog Nat} (hl : Logged cfg w pos s h) :
    (∀ r, h.overtaken r ≤ cfg.rowHitLimit * h.ahead r) ∧
      (∀ x, (s.ctl.reqs x).rowHitSeq ≤ cfg.rowHitLimit) ∧
      (∀ p, (s.ctl.banks p).curRowHits ≤ cfg.rowHitLimit) ∧
      ∀ row, (h.left ++ s.ctl.bankQueues w pos).filter (fun x => (s.ctl.reqs x).loc.row = row) =
        h.arrivals.filter fun x => (s.ctl.reqs x).loc.row = row := by
  obtain ⟨-, hseq, hlog⟩ := hl.inv
  exact ⟨hlog.fair.bound, hseq.reqs, hseq.banks, hlog.fair.order⟩

/-- A request to the row of the first one goes ahead of the second. -/
theorem exists_overtaken : ∃ s h, Logged channel false (0, 5) s h ∧ h.arrivals = [0, 1, 2] ∧
    h.ahead 1 = 1 ∧ h.overtaken 1 = 1 := by
  refine ⟨_, _, .step (.step (.step .init (.access 0 5 false 100) ?_ rfl)
    (.access 1 (2 ^ 20 + 5) false 100) ?_ rfl) (.access 2 5 false 100) ?_ rfl, rfl, rfl, rfl⟩
  · exact List.not_mem_nil
  · show 1 ∉ [0]
    decide
  · show 2 ∉ [1, 0]
    decide

theorem bank_queue_fair_overtaken : ∃ (s : DDRMemory) (h : QueueLog Nat), h.overtaken 1 = 1 ∧
    h.overtaken 1 ≤ channel.rowHitLimit * h.ahead 1 ∧
    ∀ x, (s.ctl.reqs x).rowHitSeq ≤ channel.rowHitLimit := by
  obtain ⟨s, h, hl, -, -, hover⟩ := exists_overtaken
  obtain ⟨hbound, hseq, -⟩ := bank_queue_fair hl
  exact ⟨s, h, hover, hbound 1, hseq⟩

end DDRMemory

end ZSim
