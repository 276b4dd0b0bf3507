import ZSim.DDRServed

/-! What a step does to the controller: it serves a request at most, and then takes one at most,
or refreshes. -/

namespace ZSim

namespace DDRCtl

/-- A request is in hand: it has arrived, or was in the overflow queue. -/
structure InHand (s t : DDRCtl) (id : Nat) : Prop where
  bankQueues : t.bankQueues = s.bankQueues
  banks : t.banks = s.banks
  served : t.served = s.served
  cmds : t.cmds = s.cmds
  other : ∀ x, x ≠ id → t.reqs x = s.reqs x
  seq : (t.reqs id).rowHitSeq = 0 ∨ t.reqs id = s.reqs id
  arrived : ∀ x ∈ s.arrived, x ≠ id ∨ t.reqs id = s.reqs id

inductive Serves (cfg : DDRConfig) (s : DDRCtl) : DDRCtl → Prop
  | idle : Serves cfg s s
  | issue {w : Bool} {id curCycle sysCycle : Nat} {s' : DDRCtl} (hid : id ∈ s.queues w)
      (hfirst : s.isFirst w id = true) (h : s.issue cfg w id curCycle sysCycle = some s') :
      Serves cfg s s'

inductive Takes (cfg : DDRConfig) (s : DDRCtl) : DDRCtl → Prop
  | keep : Takes cfg s s
  | overflow {id : Nat} {r : DDRRequest} (hnew : id ∉ s.arrived) (hseq : r.rowHitSeq = 0) :
      Takes cfg s { s.setReq id r with
        arrived := id :: s.arrived, overflowQueue := s.overflowQueue ++ [id] }
  | queue {t : DDRCtl} {id memCycle : Nat} (hhand : InHand s t id) (hinv : t.Inv cfg [id]) :
      Takes cfg s (t.queued cfg id memCycle)
  | refresh {sysCycle : Nat} : Takes cfg s (s.refresh cfg sysCycle)

variable {cfg : DDRConfig} {s s' : DDRCtl} {id memCycle curCycle sysCycle : Nat}

theorem Inv.drain_takes (h : Inv cfg [] s) (m : WithTop Nat) :
    Takes cfg s (s.drain cfg memCycle m).1 := by
  rw [DDRCtl.drain]
  cases hov : s.overflowQueue with
  | nil => exact .keep
  | cons id rest =>
    dsimp only
    split
    · have hhand : InHand s { s with overflowQueue := rest } id :=
        ⟨rfl, rfl, rfl, rfl, fun _ _ => rfl, .inr rfl, fun _ _ => .inr rfl⟩
      split
      · exact .queue hhand (h.unflow hov)
      · exact .queue hhand (h.unflow hov)
    · exact .keep

theorem Inv.arrive_takes (h : Inv cfg [] s) (hnew : id ∉ s.arrived) {addr : Nat} {write b : Bool}
    (hs : s.arrive cfg id addr write sysCycle = some (s', b)) : Takes cfg s s' := by
  rw [DDRCtl.arrive] at hs
  obtain ⟨loc, hloc, heq⟩ := Option.map_eq_some_iff.mp hs
  dsimp only at heq
  split at heq
  · cases heq
    exact .overflow hnew rfl
  · cases heq
    have hne : ∀ x ∈ s.arrived, x ≠ id := by
      rintro x hx rfl
      exact hnew hx
    exact .queue ⟨rfl, rfl, rfl, rfl, fun x hx => setReq_other s _ hx,
      .inl (congrArg DDRRequest.rowHitSeq (setReq_self s id _)), fun x hx => .inl (hne x hx)⟩
      (h.arrive hnew hloc)

theorem trySchedule_serves {m : WithTop Nat}
    (h : s.trySchedule cfg curCycle sysCycle = some (s', m)) : Serves cfg s s' := by
  rcases trySchedule_cases h with ⟨rfl, -⟩ | ⟨rfl, -⟩ | ⟨rfl, -⟩ |
    ⟨w, id, hid, hfirst, -, -, hissue, -⟩
  · exact .idle
  · exact .idle
  · exact .idle
  · exact .issue hid hfirst hissue

end DDRCtl

namespace DDRMemory

variable {cfg : DDRConfig} {s s' : DDRMemory}

theorem enqueue_ctl {id addr sysCycle : Nat} {write : Bool}
    (hs : s.enqueue cfg id addr write sysCycle = some s') :
    ∃ b, s.ctl.arrive cfg id addr write sysCycle = some (s'.ctl, b) := by
  rw [DDRMemory.enqueue] at hs
  dsimp only at hs
  split at hs
  · cases hs
  · rename_i ctl b harr
    have hany : ∀ n : Nat, (if WithTop.some n < s.sched.nextSchedCycle then
        (s.sched.reschedule cfg n sysCycle).map fun sched => (⟨ctl, sched⟩ : DDRMemory)
      else some ⟨ctl, s.sched⟩) = some s' → s'.ctl = ctl := by
      intro n hn
      split at hn
      · obtain ⟨sched, -, rfl⟩ := Option.map_eq_some_iff.mp hn
        rfl
      · cases hn
        rfl
    have hctl : s'.ctl = ctl := by
      split at hs
      · exact hany _ hs
      · cases hs
        rfl
    exact ⟨b, by rw [hctl, harr]⟩

theorem tick_ctl {startCycle nextCycle : Nat} (hs : s.tick cfg startCycle = some (s', nextCycle)) :
    ∃ ctl m, s.ctl.trySchedule cfg (cfg.sysToMemCycle startCycle) startCycle = some (ctl, m) ∧
      s'.ctl = (ctl.drain cfg (cfg.sysToMemCycle startCycle) m).1 := by
  rw [DDRMemory.tick] at hs
  dsimp only at hs
  split at hs
  · split at hs
    · cases hs
    · rename_i ctl m htry
      refine ⟨ctl, m, htry, ?_⟩
      split at hs
      · split at hs
        · cases hs
          rfl
        · cases hs
          rfl
      · cases hs
  · cases hs

theorem simulate_ctl {e startCycle : Nat} (hs : s.simulate cfg e startCycle = some s') :
    s'.ctl = s.ctl ∨ ∃ t t' nextCycle, t.ctl = s.ctl ∧ t'.ctl = s'.ctl ∧
      tick cfg t startCycle = some (t', nextCycle) := by
  rw [DDRMemory.simulate] at hs
  split at hs
  · split at hs
    · cases hs
    · rename_i t nextCycle htick
      refine .inr ⟨⟨s.ctl, s.sched.setState e .RUNNING⟩, t, nextCycle, rfl, ?_, htick⟩
      split at hs
      · cases hs
        rfl
      · obtain ⟨sched, -, rfl⟩ := Option.map_eq_some_iff.mp hs
        rfl
  · obtain ⟨sched, -, rfl⟩ := Option.map_eq_some_iff.mp hs
    exact .inl rfl
  · cases hs

/-- A step serves and then takes. -/
theorem Inv.step_split (h : Inv cfg s) {e : Event} (he : s.Enabled e)
    (hs : s.step cfg e = some s') :
    ∃ mid, DDRCtl.Serves cfg s.ctl mid ∧ mid.Inv cfg [] ∧ DDRCtl.Takes cfg mid s'.ctl := by
  cases e with
  | access id addr write sysCycle =>
    obtain ⟨b, harr⟩ := enqueue_ctl hs
    exact ⟨s.ctl, .idle, h.ctl, h.ctl.arrive_takes he harr⟩
  | sched e c =>
    rcases simulate_ctl hs with heq | ⟨t, t', nextCycle, ht, ht', htick⟩
    · refine ⟨s.ctl, .idle, h.ctl, ?_⟩
      rw [heq]
      exact .keep
    · obtain ⟨ctl, m, htry, hctl⟩ := tick_ctl htick
      rw [ht] at htry
      obtain ⟨hinv, -⟩ := h.ctl.trySchedule htry
      refine ⟨ctl, DDRCtl.trySchedule_serves htry, hinv, ?_⟩
      rw [← ht', hctl]
      exact hinv.drain_takes m
  | refresh sysCycle =>
    cases hs
    exact ⟨s.ctl, .idle, h.ctl, .refresh⟩

end DDRMemory

end ZSim
