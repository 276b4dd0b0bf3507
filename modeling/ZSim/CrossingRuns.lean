import ZSim.CrossingBuild

/-! Runs of the contention simulation with crossings between its domains. -/

namespace ZSim

namespace Crossings

variable {G : Config} {s : ContentionSim} {e r cycle : Nat}

theorem newEvent_spec {kind : Kind} {domain preDelay postDelay : Nat} {minStartCycle : Option Nat}
    (h : Inv G s []) (hsim : s.inCSim = false) (hd : domain < G.numDomains)
    (hk : kind = .other ∨ kind = .delay) :
    Inv G (alloc s (.new kind .EV_NONE minStartCycle domain preDelay postDelay)) [] where
  graph := h.graph.alloc rfl hd rfl rfl fun _ _ => rfl
  timely := by
    refine h.timely.alloc h.graph hsim rfl (fun hk' => ?_) fun x hk' => ?_
    · rcases hk with rfl | rfl <;> cases hk'
    · rcases hk with rfl | rfl <;> cases hk'

/-- An event of a core, cache or memory that has no parents leaves its first state. -/
theorem startEvent_spec {state : EventState} (h : Inv G s []) (he : s.Ordinary e)
    (hnone : (s.events e).state = .EV_NONE)
    (hzero : (s.events e).numParents = 0) (hstate : state ≠ .EV_DONE)
    (hstack : (state = .EV_NONE ∨ state = .EV_QUEUED) ∨ (s.events e).children = []) :
    Inv G (s.setEvent e { s.events e with state := state }) [] where
  graph := by
    have hnotDone : (s.events e).state ≠ .EV_DONE := by simp [hnone]
    exact h.graph.setEvent he.1 rfl rfl (by simp [hstate, hnotDone]) (absurd hzero) rfl
      fun _ _ => rfl
  timely := by
    have hnotDone : (s.events e).state ≠ .EV_DONE := by simp [hnone]
    exact h.timely.setEvent ⟨rfl, rfl, rfl, .inl rfl, hnotDone,
      fun d c hq => absurd hq (h.timely.ordinary_not_queued he hnone d c),
      fun c hr => absurd hr (h.timely.not_released hnotDone c),
      fun d c hr => absurd hr (h.timely.ordinary_not_requeued he d c),
      fun x hx => absurd hx (ordinary_ne_crossingSrc he x),
      fun hk => absurd hk (ordinary_ne_crossing he), .inr hstack⟩

theorem queue_spec (h : Inv G s []) (hallowed : s.Allowed G (.queue e cycle)) :
    Yields (fun s' => Inv G s' []) (s.queue G e cycle) := by
  obtain ⟨hsim, hlt, hk, hnone, hzero, hle⟩ := hallowed
  have he : s.Ordinary e := ⟨hlt, .inl hk⟩
  let ev : Event := { s.events e with state := .EV_QUEUED }
  have hev : Inv G (s.setEvent e ev) [] :=
    startEvent_spec h he hnone hzero (by decide) (.inl (.inr rfl))
  have hself : (s.setEvent e ev).events e = ev := by simp
  have hq : Queued (s.setEvent e ev) ((s.setEvent e ev).events e).domain e cycle := by
    refine ⟨hlt, rfl, ?_, .inl ⟨?_, ?_⟩, fun hc => ?_, fun d c hr => ?_⟩
    · rw [hself]
      exact hzero
    · rw [hself]
    · rw [hself]
      exact hk
    · rw [hself] at hc
      exact absurd hc (ordinary_ne_crossing he)
    · exact absurd hr (h.timely.ordinary_not_requeued he d c)
  rw [ContentionSim.queue, if_pos ⟨hnone, hzero⟩]
  refine (enqueueSynced_spec hev.graph hev.timely hsim hlt hq hle
    (h.timely.ordinary_not_queued he hnone)).mono fun s' hs' => ?_
  exact ⟨hs'.2.1, hs'.2.2⟩

theorem setRecorder_spec {evRec : EventRecorder} (h : Inv G s [])
    (hstack : ∀ b ∈ evRec.crossingStack, b ∈ (s.recorders r).crossingStack) :
    Inv G (s.setRecorder r evRec) [] :=
  ⟨h.graph.congr rfl rfl, h.timely.setRecorder fun b hb => h.timely.stack r b (hstack b hb)⟩

/-- No action fails an assert, but the guards against events too far in the future, and each keeps
the invariant. -/
theorem perform_spec {a : Action} (h : Inv G s []) (hallowed : s.Allowed G a) :
    Yields (fun s' => Inv G s' []) (s.perform G a) := by
  cases a with
  | newEvent isDelay domain minStartCycle preDelay postDelay =>
    refine newEvent_spec h hallowed.1 hallowed.2 ?_
    cases isDelay
    · exact .inl rfl
    · exact .inr rfl
  | setRunning e =>
    obtain ⟨hsim, hlt, hk, hnone, hzero, hchildren⟩ := hallowed
    exact startEvent_spec h ⟨hlt, .inl hk⟩ hnone hzero (by decide) (.inr hchildren)
  | addChild p c =>
    obtain ⟨hsim, hp, hc, hstart, hnone⟩ := hallowed
    have hnotDone : (s.events p).state ≠ .EV_DONE := by
      rcases hstart with hs | hs <;> simp [hs]
    rw [ContentionSim.perform, addChild_eq hstart hnone]
    refine ⟨h.graph.added hp.1 hc.1 hnotDone hnone, ?_⟩
    exact h.timely.added hsim hp.1 hstart (ordinary_ne_crossingSrc hp) hnone
      (ordinary_ne_crossingSrc hc) (.inl hc) (h.timely.ordinary_not_queued hc hnone)
      (h.timely.ordinary_not_requeued hc)
  | queue e cycle => exact queue_spec h hallowed
  | handleCrossing evRec p i =>
    obtain ⟨hsim, hr, hp, hstart, hmin, hchild⟩ := hallowed
    obtain ⟨m, hm⟩ := Option.isSome_iff_exists.mp hmin
    obtain ⟨c, hc, hdom⟩ := (Option.any_eq_true ..).mp hchild
    rw [ContentionSim.perform, hc, hm]
    exact handleCrossing_spec h hsim hr hp hstart hc (of_decide_eq_true hdom)
  | clearStack evRec => exact setRecorder_spec h nofun
  | setGapCycles evRec gapCycles => exact setRecorder_spec h fun _ hb => hb
  | setStartSlack evRec startSlack => exact setRecorder_spec h fun _ hb => hb
  | simulatePhase limit => exact simulatePhase_spec h hallowed
  | turn d e cycle => exact turn_spec h hallowed
  | done e doneCycle =>
    obtain ⟨hsim, ⟨hlt, hk, hrunning, -⟩, hle⟩ := hallowed
    exact (done_spec h hlt hsim hrunning (.inl hk) hle).mono fun s' hs' => hs'.1
  | requeue e cycle =>
    obtain ⟨hsim, ⟨hlt, hk, hrunning, -⟩, hle⟩ := hallowed
    have he : s.Ordinary e := ⟨hlt, .inl hk⟩
    exact (requeue_spec h hlt hsim hrunning (.inl hk) hle
      (fun hc => absurd hc (ordinary_ne_crossing he))
      fun d c hr => absurd hr (h.timely.ordinary_not_requeued he d c)).mono fun s' hs' => hs'.2
  | endTurn d => exact endTurn_spec h hallowed
  | finish d => exact finish_spec h hallowed
  | phaseDone => exact phaseDone_spec h hallowed

theorem init_inv (G : Config) : Inv G .init [] where
  graph := ⟨nofun, nofun, nofun, nofun⟩
  timely := {
    queue := nofun
    nodup := fun _ => List.nodup_nil
    crossing := nofun
    source := nofun
    bound := fun _ _ _ => ⟨rfl, rfl⟩
    weave := nofun
    within := nofun
    stack := nofun
    last := fun _ hbar => absurd hbar (Nat.lt_irrefl _)
    ran := nofun
    known := nofun
    orderly := trivial
    bridged := nofun }

theorem act_spec {a : Action} (h : Inv G s []) : Yields (fun s' => Inv G s' []) (s.act G a) := by
  rw [ContentionSim.act]
  split
  · next hallowed => exact perform_spec h hallowed
  · exact nofun

theorem foldlM_spec (actions : List Action) (h : Inv G s []) :
    Yields (fun s' => Inv G s' []) (actions.foldlM (ContentionSim.act G) s) := by
  induction actions generalizing s with
  | nil => exact h
  | cons a actions ih =>
    rw [List.foldlM_cons]
    exact (act_spec h).bind fun s' hs' => ih hs'

/-- An event of domain 0 with a child in domain 1 that it reaches `preDelay` cycles later. -/
def oneCrossing (preDelay : Nat) : List Action :=
  [.newEvent false 0 (some 0) 0 0, .newEvent false 1 (some 0) preDelay 0, .addChild 0 1,
    .queue 0 5000, .handleCrossing 0 0 0, .clearStack 0, .simulatePhase 10000, .turn 1 2 1]

def Result.fault? : Result → Option Fault
  | .ok _ => none
  | .error f => some f

example : (ContentionSim.execute ⟨2, 1, 10000⟩ (oneCrossing 20 ++ [.endTurn 1, .turn 0 0 5000,
    .turn 1 2 21, .endTurn 1, .done 0 5007, .endTurn 0, .turn 1 2 5021, .endTurn 1])).toOption.map
      ContentionSim.trace =
    some [.released 2 5021, .ran 1 2 5021, .marked 2 5007, .requeued 2 1 5021, .ran 1 2 21,
      .ran 0 0 5000, .requeued 2 1 21, .ran 1 2 1] := by
  decide +kernel

end Crossings

end ZSim
