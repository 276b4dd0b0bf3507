import ZSim.SumUpdate
import ZSim.WeavePhaseRuns
import Mathlib.Data.Finset.Max

/-! Every run of the weave phase comes to an end, and what it has done to the domains is
what each would do alone, unless that leaves a shared domain with an event at the limit. -/

namespace ZSim

variable {E : Type} [DecidableEq E] {limit lastLimit numDomains : Nat} {rank : Nat → E → Nat}
  {D D' D₀ : Nat → DomainData E} {A : SimThreads numDomains} {S S₁ S' : ContentionSim E}
  {n : Nat} {tr : List (Nat × Nat)} {a : Option (Nat × Nat)}
  {may : Nat → Weave E → Weave E → Prop} {act act' : Nat → Weave E → Weave E}

/-- The turns a weave can still make. -/
def Weave.left (s : Weave E) : Nat := s.edges.length + s.queued.length - s.simulated.length

theorem Weave.Turn.left_eq {rank : E → Nat} {s s' : Weave E} {e : E} {c : Nat}
    (hinv : Inv rank s 0) (h : Turn simulate limit s e c s') : s'.left + 1 = s.left := by
  have hadv := h.advanced hinv
  have hle := hadv.inv.simulated_length
  rw [hadv.simulated, hadv.edges, hadv.queued, List.length_cons] at hle
  rw [left, left, hadv.simulated, hadv.edges, hadv.queued, List.length_cons]
  omega

/-- No step takes a simulated event back, and a turn adds one. -/
theorem Effect.simulated_le {r : SimThreadData} {th th' : SimThread}
    (h : Effect limit r D th th' a D') (d : Nat) :
    (D d).weave.simulated.length ≤ (D' d).weave.simulated.length ∧
      ∀ c, a = some (d, c) →
        (D d).weave.simulated.length < (D' d).weave.simulated.length := by
  cases h with
  | @turn d₁ e c w dom hd hle ht hdom hp =>
    by_cases hdd : d = d₁
    · subst hdd
      rw [Function.update_self, hdom, ht.simulated_eq, List.length_cons]
      exact ⟨Nat.le_succ _, fun _ _ => Nat.lt_succ_self _⟩
    · rw [Function.update_of_ne hdd]
      refine ⟨Nat.le_refl _, fun c' hc' => ?_⟩
      cases hc'
      exact absurd rfl hdd
  | @finish d₁ hend hlast hp =>
    refine ⟨?_, fun c hc => by cases hc⟩
    by_cases hdd : d = d₁
    · subst hdd
      rw [Function.update_self]
      exact Nat.le_refl _
    · rw [Function.update_of_ne hdd]
  | move hp hplace => exact ⟨Nat.le_refl _, fun c hc => by cases hc⟩

namespace ContentionSim

def weight (r : SimThreadData) (th : SimThread) : Nat :=
  3 * (r.pending th).length + SimThreadData.place th

/-- A bound on the steps that are left. -/
def remaining (A : SimThreads numDomains) (S : ContentionSim E) : Nat :=
  ∑ d ∈ Finset.range numDomains, 3 * (S.domains d).weave.left +
    ∑ t ∈ Finset.range A.numSimThreads, weight (A.simThreads t) (S.threads t)

theorem PhaseInv.weave_inv (h : PhaseInv may limit A D₀ tr S)
    (hinv₀ : ∀ d < numDomains, Weave.Inv (rank d) (D₀ d).weave 0) {d : Nat} (hd : d < numDomains) :
    Weave.Inv (rank d) (S.domains d).weave 0 := by
  obtain ⟨w, hw, hcase⟩ := h.domains d hd
  have hinv := (hw.worked (hinv₀ d hd)).inv
  rcases hcase with ⟨-, heq⟩ | ⟨-, -, hend, heq⟩
  · rw [heq]
    exact hinv
  · rw [heq]
    exact hinv.setCycle fun x hx => WithTop.coe_le_coe.mp (Weave.le_firstCycle.mp hend x hx)

theorem PhaseInv.remaining_lt (h : PhaseInv may limit A D₀ tr S)
    (hinv₀ : ∀ d < numDomains, Weave.Inv (rank d) (D₀ d).weave 0)
    (hs : Step limit A S a S') : remaining A S' < remaining A S := by
  cases hs with
  | @step t _ D th ht hs =>
    have hthreads := sum_update_apply ht (fun t th => weight (A.simThreads t) th) S.threads th
    have hplace := SimThreadData.place_le th
    obtain ⟨heff, -⟩ := hs.effect (h.coherent t ht)
    cases heff with
    | @turn d e c w dom hd hle hturn hdom hp =>
      have hlt := h.pending_lt ht hd
      have hdomains := sum_update hlt (fun d : DomainData E => 3 * d.weave.left) S.domains dom
      have hleft := hturn.left_eq (h.weave_inv hinv₀ hlt)
      have hlen := hp.length_eq
      simp only [weight, remaining] at hthreads hdomains ⊢
      rw [hdom] at hdomains
      omega
    | @finish d hend hlast hp =>
      have hd := hp.mem_iff.mpr List.mem_cons_self
      have hdomains := sum_update (h.pending_lt ht hd) (fun d : DomainData E => 3 * d.weave.left)
        S.domains ((S.domains d).finish limit)
      have hleft : ((S.domains d).finish limit).weave.left = (S.domains d).weave.left := rfl
      have hlen := hp.length_eq
      rw [List.length_cons] at hlen
      simp only [weight, remaining] at hthreads hdomains ⊢
      rw [hleft] at hdomains
      omega
    | move hp hlt =>
      have hlen := hp.length_eq
      simp only [weight, remaining] at hthreads ⊢
      omega

theorem Run.bounded (hinv₀ : ∀ d < numDomains, Weave.Inv (rank d) (D₀ d).weave 0)
    (hr : Run may limit A (start A D₀) n tr S) : n + remaining A S ≤ remaining A (start A D₀) := by
  induction hr with
  | refl => rw [Nat.zero_add]
  | step hr hs hmay ih =>
    have hlt := hr.inv.remaining_lt hinv₀ hs
    omega

/-- A thread stands at an event that `run` refuses. -/
def Rejected (A : SimThreads numDomains) (S : ContentionSim E) : Prop :=
  ∃ d e c, Unfinished A S d ∧ (e, c) ∈ (S.domains d).weave.queue ∧
    (S.domains d).weave.firstCycle = WithTop.some c ∧
    Weave.run e c ((S.domains d).weave.dequeue (e, c)) = none

/-- The first event of a queue can take its turn. -/
theorem exists_turn (limit : Nat) (start : E → Nat → Weave E → Option (Weave E)) {w : Weave E}
    {c : Nat} (hfirst : w.firstCycle = WithTop.some c)
    (hstart : ∀ e, (e, c) ∈ w.queue → start e c (w.dequeue (e, c)) ≠ none) :
    ∃ e s₁, start e c (w.dequeue (e, c)) = some s₁ ∧
      Weave.Turn start limit w e c (s₁.setCycle (Weave.nextCycle limit s₁)) := by
  obtain ⟨e, he⟩ := Weave.exists_first hfirst
  obtain ⟨s₁, hs₁⟩ := Option.ne_none_iff_exists'.mp (hstart e he)
  exact ⟨e, s₁, hs₁, .intro he hfirst hs₁ .refl⟩

omit [DecidableEq E] in
theorem exists_top (D : Nat → DomainData E) {domPq : List Nat} (hne : domPq ≠ []) :
    ∃ d, IsTop D domPq d := by
  obtain ⟨x, hx⟩ := List.exists_mem_of_ne_nil domPq hne
  obtain ⟨d, hd, hmin⟩ := domPq.toFinset.exists_min_image (fun d => (D d).queuePrio)
    ⟨x, List.mem_toFinset.mpr hx⟩
  exact ⟨d, List.mem_toFinset.mp hd, fun d' hd' => hmin d' (List.mem_toFinset.mpr hd')⟩

/-- A run can go on until its threads are finished, or one of them is refused an event. -/
theorem PhaseInv.progress (h : PhaseInv may limit A D₀ tr S)
    (hinv₀ : ∀ d < numDomains, Weave.Inv (rank d) (D₀ d).weave 0) :
    Finished A S ∨ Rejected A S ∨ ∃ a S', Step limit A S a S' := by
  by_contra hno
  simp only [not_or, not_exists] at hno
  obtain ⟨hfin, hrej, hstuck⟩ := hno
  refine hfin fun t ht => ?_
  have hstep : ∀ a D th, ¬ ThreadStep limit (A.simThreads t) S.domains (S.threads t) a D th :=
    fun a D th hs => hstuck a _ (.step ht hs)
  have hrun : ∀ d ∈ (A.simThreads t).pending (S.threads t), ∀ c,
      (S.domains d).weave.firstCycle = WithTop.some c → ∀ e, (e, c) ∈ (S.domains d).weave.queue →
      Weave.run e c ((S.domains d).weave.dequeue (e, c)) ≠ none :=
    fun d hd c hc e he hnone => hrej ⟨d, e, c, ⟨t, ht, hd⟩, he, hc, hnone⟩
  have hok := h.coherent t ht
  cases hth : S.threads t with
  | finished => rfl
  | single =>
    rw [hth] at hstep hrun
    have hd : (A.simThreads t).firstDomain ∈ (A.simThreads t).pending .single := List.mem_cons_self
    by_cases hend : WithTop.some limit ≤ (S.domains (A.simThreads t).firstDomain).weave.firstCycle
    · exact absurd (.singleEnd hend) (hstep _ _ _)
    · obtain ⟨c, hc, hlt⟩ := Weave.exists_cycle_lt hend
      have hinv := h.weave_inv hinv₀ (h.pending_lt ht (by rw [hth]; exact hd))
      obtain ⟨e, s₁, -, hturn⟩ := exists_turn limit Weave.run hc (hrun _ hd c hc)
      have hadv := hturn.weaken.advanced hinv
      obtain ⟨e', he'⟩ := Weave.exists_first hc
      refine absurd (.singleTurn hlt (hinv.states.queue_at _ he').1 hturn ?_) (hstep _ _ _)
      exact Weave.le_nextCycle (Nat.le_of_lt hlt) hadv.later
  | domLoop q =>
    rw [hth] at hstep hrun
    by_cases hempty : q.domPq = []
    · exact absurd (.domEmpty hempty) (hstep _ _ _)
    · obtain ⟨d, htop⟩ := exists_top S.domains hempty
      by_cases hend : WithTop.some limit < (S.domains d).weave.firstCycle
      · exact absurd (.domFinish htop hend) (hstep _ _ _)
      · obtain ⟨c, hc, hle⟩ := Weave.exists_cycle_le hend
        have hd : d ∈ (A.simThreads t).pending (.domLoop q) := List.mem_append_left _ htop.1
        obtain ⟨e, s₁, -, hturn⟩ := exists_turn limit Weave.run hc (hrun d hd c hc)
        exact absurd (.domTurn htop hle hturn) (hstep _ _ _)
  | stalledLoop q =>
    rw [hth] at hstep hrun hok
    obtain ⟨d, rest, hback⟩ := List.exists_cons_of_ne_nil hok.2
    by_cases hend : WithTop.some limit < (S.domains d).weave.firstCycle
    · exact absurd (.stalledFinish hback hend) (hstep _ _ _)
    · obtain ⟨c, hc, hle⟩ := Weave.exists_cycle_le hend
      have hd : d ∈ (A.simThreads t).pending (.stalledLoop q) :=
        (DomainQueues.back_pending hback).mem_iff.mpr List.mem_cons_self
      obtain ⟨e, s₁, -, hturn⟩ := exists_turn limit Weave.simulate hc fun e he => by
        obtain ⟨s₁, hs₁⟩ := Option.ne_none_iff_exists'.mp (hrun d hd c hc e he)
        rw [Weave.simulate_of_run hs₁]
        exact Option.some_ne_none s₁
      exact absurd (.stalledTurn hback hle hturn) (hstep _ _ _)

theorem Run.domain_ok (hr : Run may limit A (start A D) n tr S) (hfin : Finished A S) {d : Nat}
    (hd : d < numDomains) :
    ∃ w, Weave.Turns (may d) limit (D d).weave (cyclesOf d tr) w ∧
      (Shared A d → WithTop.some limit < w.firstCycle) ∧
      WithTop.some limit ≤ w.firstCycle ∧ (S.domains d).weave = w.setCycle limit := by
  obtain ⟨w, hw, hcase⟩ := hr.inv.domains d hd
  rcases hcase with ⟨⟨t, ht, hin⟩, -⟩ | ⟨-, hshared, hend, heq⟩
  · rw [hfin t ht] at hin
    cases hin
  · exact ⟨w, hw, hshared, hend, heq⟩

theorem update_inv (h : ∀ d < numDomains, Weave.Inv (rank d) (D d).weave 0) {d : Nat}
    {w : Weave E} (hw : d < numDomains → Weave.Inv (rank d) w 0) :
    ∀ d' < numDomains,
      Weave.Inv (rank d') (Function.update D d { D d with weave := w } d').weave 0 := by
  intro d' hd'
  by_cases hdd : d' = d
  · rw [hdd, Function.update_self]
    exact hw (hdd ▸ hd')
  · rw [Function.update_of_ne hdd]
    exact h d' hd'

theorem Reachable.inv (hr : Reachable numDomains rank lastLimit D) :
    ∀ d < numDomains, Weave.Inv (rank d) (D d).weave 0 := by
  induction hr with
  | init D hnew =>
    intro d hd
    obtain ⟨events, hw, hevents⟩ := hnew d hd
    rw [hw]
    exact .init 0 hevents
  | addChild d p c hr hrank hs ih => exact update_inv ih fun hd => (ih d hd).addChild hrank hs
  | queueRoot d e qCycle hr hs ih => exact update_inv ih fun hd => (ih d hd).queueRoot hs
  | phase A act hr hlimit hp ih =>
    intro d hd
    obtain ⟨n, tr, S, hrun, hfin, rfl⟩ := hp
    obtain ⟨w, hw, -, hend, heq⟩ := hrun.domain_ok hfin hd
    rw [heq]
    exact (hw.worked (ih d hd)).inv.setCycle fun x hx =>
      WithTop.coe_le_coe.mp (Weave.le_firstCycle.mp hend x hx)

/-- A thread with one domain never gets to the loops of the others. -/
theorem Run.single (hr : Run may limit A (start A D) n tr S) {t : Nat}
    (hone : (A.simThreads t).thDomains = 1) :
    S.threads t = .single ∨ S.threads t = .finished := by
  induction hr with
  | refl => exact .inl (if_pos hone)
  | @step _ _ _ S₁ _ hr hs hmay ih =>
    cases hs with
    | @step t' a D' th ht' hs =>
      show Function.update S₁.threads t' th t = .single ∨
        Function.update S₁.threads t' th t = .finished
      by_cases htt : t = t'
      · subst htt
        rw [Function.update_self]
        rcases ih with hth | hth
        · rw [hth] at hs
          cases hs with
          | singleTurn hlt hcycle hturn hnew => exact .inl rfl
          | singleEnd hend => exact .inr rfl
        · rw [hth] at hs
          cases hs
      · rw [Function.update_of_ne htt]
        exact ih

/-- Only threads with several domains run events at the limit. -/
theorem Run.shared_of_limit (hr : Run may limit A (start A D) n tr S) {d : Nat}
    (hd : (d, limit) ∈ tr) : Shared A d := by
  induction hr with
  | refl => cases hd
  | @step _ tr a S₁ _ hr hs hmay ih =>
    rcases List.mem_append.mp hd with hd | hd
    · cases hs with
      | @step t a D' th ht hs =>
        obtain ⟨heff, -⟩ := hs.effect (hr.inv.coherent t ht)
        have hpend : d ∈ (A.simThreads t).pending (S₁.threads t) := by
          cases heff with
          | turn hp hle hturn hdom hperm =>
            cases List.mem_singleton.mp hd
            exact hp
          | finish hend hlast hp => cases hd
          | move hp hplace => cases hd
        obtain ⟨hle, hlt⟩ := hr.inv.range t ht d hpend
        refine ⟨t, ht, hle, hlt, fun hone => ?_⟩
        rcases hr.single hone with hth | hth
        · rw [hth] at hs
          cases hs with
          | singleTurn hbelow hcycle hturn hnew =>
            cases List.mem_singleton.mp hd
            exact absurd hbelow (Nat.lt_irrefl _)
          | singleEnd hend => cases hd
        · rw [hth] at hs
          cases hs
    · exact ih hd

/-- Of the domains of threads that do not run the loop of a single domain, none has an event
at the limit once it has taken its turns below. -/
def NoneAtLimit (act : Nat → Weave E → Weave E) (limit : Nat) (A : SimThreads numDomains)
    (D : Nat → DomainData E) : Prop :=
  ∀ d < numDomains, Shared A d → ∀ w, Weave.Alone (Weave.Does (act d)) limit (D d).weave w →
    ∀ e, (e, limit) ∉ w.queue

theorem Run.noneAtLimit_iff (hr : Run (doing act) limit A (start A D) n tr S)
    (hfin : Finished A S) : NoneAtLimit act limit A D ↔ ∀ x ∈ tr, x.2 ≠ limit := by
  have hcycles : ∀ d, ∀ c ∈ cyclesOf d tr, c ≤ limit :=
    fun d c hc => (hr.inv.turns _ (mem_cyclesOf.mp hc)).2
  constructor
  · rintro hnone ⟨d, c⟩ hx rfl
    have hd := (hr.inv.turns _ hx).1
    have hshared := hr.shared_of_limit hx
    obtain ⟨w, hw, hend, -, -⟩ := hr.domain_ok hfin hd
    obtain ⟨w', e, halone, he⟩ :=
      (hw.limit_mem_iff (hcycles d) (hend hshared)).mp (mem_cyclesOf.mpr hx)
    exact hnone d hd hshared w' halone e he
  · intro hne d hd hshared w' halone e he
    obtain ⟨w, hw, hend, -, -⟩ := hr.domain_ok hfin hd
    have hmem := (hw.limit_mem_iff (hcycles d) (hend hshared)).mpr ⟨w', e, halone, he⟩
    exact hne _ (mem_cyclesOf.mp hmem) rfl

/-- A run looks up `act` only at what the domains were before. -/
theorem Run.congr_act (hr : Run (doing act) limit A (start A D) n tr S)
    (hact : ∀ d w, w.simulated.length < (S.domains d).weave.simulated.length →
      act' d w = act d w) : Run (doing act') limit A (start A D) n tr S := by
  induction hr with
  | refl => exact .refl
  | step hr hs hmay ih =>
    cases hs with
    | @step t a D' th ht hs =>
      obtain ⟨heff, -⟩ := hs.effect (hr.inv.coherent t ht)
      refine (ih fun d w hw => hact d w (hw.trans_le (heff.simulated_le d).1)).step
        (.step ht hs) fun d c ha => ?_
      have hdoes := hmay d c ha
      rw [doing, Weave.Does] at hdoes ⊢
      rw [hact d _ ((heff.simulated_le d).2 c ha)]
      exact hdoes

/-- Whatever the turns of a run do, some `act` says it. -/
theorem Run.exists_act (hr : Run free limit A (start A D) n tr S) :
    ∃ act, Run (doing act) limit A (start A D) n tr S := by
  classical
  induction hr with
  | refl => exact ⟨fun _ w => w, .refl⟩
  | @step n tr a S₁ S₂ hr hs hmay ih =>
    obtain ⟨act, hrun⟩ := ih
    cases a with
    | none => exact ⟨act, hrun.step hs fun d c ha => by cases ha⟩
    | some x =>
      -- the turn's own domain has simulated less in every turn before
      refine ⟨Function.update act x.1
        (Function.update (act x.1) (S₁.domains x.1).weave (S₂.domains x.1).weave),
        (hrun.congr_act fun d w hw => ?_).step hs fun d c ha => ?_⟩
      · by_cases hd : d = x.1
        · subst hd
          rw [Function.update_self, Function.update_of_ne]
          rintro rfl
          exact absurd hw (Nat.lt_irrefl _)
        · rw [Function.update_of_ne hd]
      · cases ha
        rw [doing, Weave.Does, Function.update_self, Function.update_self]

/-- A phase runs the events below its limit and no others, whatever the assignment, exactly
if no shared domain is left with an event at the limit by its turns below. Then every domain
ends as a thread of its own would leave it. -/
theorem phase_weaved_iff (A : SimThreads numDomains) (hr : Reachable numDomains rank lastLimit D)
    (limit : Nat) :
    (∀ act D', SimulatePhase false act limit A D D' →
      ((∀ d < numDomains, Weave.Weaved limit (D d).weave (D' d).weave) ↔
        NoneAtLimit act limit A D) ∧
      (NoneAtLimit act limit A D → ∀ d < numDomains,
        Weave.Alone (Weave.Does (act d)) limit (D d).weave (D' d).weave) ∧
      ∀ (A' : SimThreads numDomains) D'', NoneAtLimit act limit A D → NoneAtLimit act limit A' D →
        SimulatePhase false act limit A' D D'' →
        ∀ d < numDomains, (D'' d).weave = (D' d).weave) ∧
    (∀ act D', SimulatePhase true act limit A D D' →
      ((∀ d < numDomains, Weave.Weaved limit (D d).weave (D' d).weave) ↔
        ∀ d < numDomains, (D d).weave.curCycle = limit ∧ ∀ x ∈ (D d).weave.queue, limit ≤ x.2)) ∧
    (∀ n tr S, Run free limit A (start A D) n tr S → Finished A S →
      ∃ act, SimulatePhase false act limit A D S.domains) ∧
    ∃ bound, ∀ n tr S, Run free limit A (start A D) n tr S → n ≤ bound ∧
      (Finished A S ∨ Rejected A S ∨ ∃ a S', Step limit A S a S') := by
  have hinv := hr.inv
  have halone : ∀ (A : SimThreads numDomains) act D', SimulatePhase false act limit A D D' →
      NoneAtLimit act limit A D → ∀ d < numDomains,
        Weave.Alone (Weave.Does (act d)) limit (D d).weave (D' d).weave := by
    rintro A act D' ⟨n, tr, S, hrun, hfin, rfl⟩ hnone d hd
    obtain ⟨w, hw, -, hend, heq⟩ := hrun.domain_ok hfin hd
    refine ⟨_, w, hw, fun c hc => ?_, hend, heq⟩
    have hmem := mem_cyclesOf.mp hc
    exact Nat.lt_of_le_of_ne (hrun.inv.turns _ hmem).2
      ((hrun.noneAtLimit_iff hfin).mp hnone _ hmem)
  refine ⟨fun act D' hp => ⟨?_, halone A act D' hp, fun A' D'' hnone hnone' hp' d hd => ?_⟩,
    fun act D' hp => ?_, fun n tr S hrun hfin => ?_, remaining A (start A D),
    fun n tr S hrun => ⟨?_, hrun.inv.progress hinv⟩⟩
  · obtain ⟨n, tr, S, hrun, hfin, rfl⟩ := hp
    have hcycles : ∀ d, ∀ c ∈ cyclesOf d tr, c ≤ limit :=
      fun d c hc => (hrun.inv.turns _ (mem_cyclesOf.mp hc)).2
    rw [hrun.noneAtLimit_iff hfin]
    constructor
    · intro hall x hx
      have hd := (hrun.inv.turns x hx).1
      obtain ⟨w, hw, -, hend, heq⟩ := hrun.domain_ok hfin hd
      have hweaved := hall x.1 hd
      rw [heq] at hweaved
      exact (hw.weaved_iff (hinv _ hd) (hcycles x.1) hend).mp hweaved x.2 (mem_cyclesOf.mpr hx)
    · intro hne d hd
      obtain ⟨w, hw, -, hend, heq⟩ := hrun.domain_ok hfin hd
      rw [heq]
      exact (hw.weaved_iff (hinv d hd) (hcycles d) hend).mpr fun c hc =>
        hne _ (mem_cyclesOf.mp hc)
  · exact (halone A' act D'' hp' hnone' d hd).unique (halone A act D' hp hnone d hd)
  · have heq : D' = D := hp
    subst heq
    exact forall₂_congr fun d hd => (hinv d hd).weaved_self_iff
  · obtain ⟨act, hrun⟩ := hrun.exists_act
    exact ⟨act, n, tr, S, hrun, hfin, rfl⟩
  · have := hrun.bounded hinv
    omega

/-- Domains without events pending. -/
def idle (_ : Nat) : DomainData Bool := ⟨Weave.init (fun _ => .init false 0 0 0) 0, 0, 0⟩

/-- An event is queued for cycle 5, run there and done. -/
theorem idle_run : ∃ w s₁ s₂ : Weave Bool, (idle 0).weave.queueRoot false 5 = some w ∧
    w.queue = {(false, 5)} ∧ w.simulated = [] ∧
    Weave.run false 5 (w.dequeue (false, 5)) = some s₁ ∧ (s₁.event false).isDelay = false ∧
    Weave.done 1 false 6 s₁ = some s₂ ∧ s₂.queue = 0 ∧ s₂.simulated = [(false, 5)] :=
  ⟨_, _, _, rfl, rfl, rfl, rfl, rfl, rfl, rfl, rfl⟩

/-- What the event at cycle 5 makes of its domain, and what the phase of two domains does. -/
theorem idle_phase : ∃ (w w' : Weave Bool), (idle 0).weave.queueRoot false 5 = some w ∧
    w.queue = {(false, 5)} ∧ w.simulated = [] ∧ w.firstCycle = WithTop.some 5 ∧
    ∀ limit, 5 ≤ limit → ∃ D', SimulatePhase false (fun _ _ => w'.setCycle limit) limit
      (.init 2 1 rfl) (Function.update idle 0 { idle 0 with weave := w }) D' ∧
      (D' 0).weave.simulated = [(false, 5)] := by
  obtain ⟨w, s₁, s₂, hroot, hqueue, hnone, hrun, hevent, hdone, hempty, hsim⟩ := idle_run
  have hfirst : w.firstCycle = WithTop.some 5 := by
    refine Weave.firstCycle_eq ⟨⟨(false, 5), ?_, rfl⟩, fun x hx => ?_⟩
    · rw [hqueue]
      exact Multiset.mem_singleton_self _
    · rw [hqueue] at hx
      rw [Multiset.mem_singleton.mp hx]
  have hlast : s₂.firstCycle = ⊤ := by
    rw [Weave.firstCycle, hempty]
    rfl
  refine ⟨w, s₂, hroot, hqueue, hnone, hfirst, fun limit hlimit => ?_⟩
  set D : Nat → DomainData Bool := Function.update idle 0 { idle 0 with weave := w } with hD
  have hidle : WithTop.some limit < (D 1).weave.firstCycle := WithTop.coe_lt_top limit
  have hturn : Weave.Turn Weave.run limit (D 0).weave false 5 (s₂.setCycle limit) := by
    have hnext : Weave.nextCycle limit s₂ = limit := by
      rw [Weave.nextCycle, hlast]
      rfl
    have hmem : (false, 5) ∈ (D 0).weave.queue := by
      show _ ∈ w.queue
      rw [hqueue]
      exact Multiset.mem_singleton_self _
    have hturn : Weave.Turn Weave.run limit (D 0).weave false 5
        (s₂.setCycle (Weave.nextCycle limit s₂)) :=
      .intro hmem hfirst hrun (.single ⟨1, false, 6, hevent, hdone⟩)
    rw [hnext] at hturn
    exact hturn
  have htop : ∀ {D' : Nat → DomainData Bool} {l : List Nat} {d : Nat}, d ∈ l →
      (D' d).queuePrio = 0 → IsTop D' l d :=
    fun hmem h0 => ⟨hmem, fun _ _ => h0 ▸ Nat.zero_le _⟩
  have h₀ : Run (doing fun _ _ => s₂.setCycle limit) limit (.init 2 1 rfl)
    (start (.init 2 1 rfl) D) 0 [] (start (.init 2 1 rfl) D) := .refl
  have h₁ := h₀.step (.step (t := 0) Nat.one_pos
    (.domFinish (htop (d := 1) (by decide) rfl) hidle)) fun _ _ ha => by cases ha
  have h₂ := h₁.step (.step (t := 0) Nat.one_pos
    (.domTurn (htop (d := 0) List.mem_cons_self rfl) hlimit hturn)) fun _ _ ha => by
      cases ha
      rfl
  have h₃ := h₂.step (.step (t := 0) Nat.one_pos (.domFinish (d := 0)
    ⟨List.mem_cons_self, fun d' hd' => by rw [List.mem_singleton.mp hd']⟩
    (hlast ▸ WithTop.coe_lt_top limit))) fun _ _ ha => by cases ha
  have h₄ := h₃.step (.step (t := 0) Nat.one_pos (.domEmpty rfl)) fun _ _ ha => by cases ha
  refine ⟨_, ⟨_, _, _, h₄, fun t ht => ?_, rfl⟩, hsim⟩
  rw [Nat.lt_one_iff.mp ht]
  rfl

/-- A phase up to cycle 5: a thread with both domains runs the event, two threads with one
domain each leave it. -/
theorem boundary_event_runs : ∃ (D : Nat → DomainData Bool) (act : Nat → Weave Bool → Weave Bool),
    Reachable 2 (fun _ _ => 0) 0 D ∧
    (∃ D', SimulatePhase false act 5 (.init 2 1 rfl) D D' ∧
      (D' 0).weave.simulated = [(false, 5)] ∧ ¬ Weave.Weaved 5 (D 0).weave (D' 0).weave) ∧
    ∃ D', SimulatePhase false act 5 (.init 2 2 rfl) D D' ∧
      (D' 0).weave.simulated = [] ∧ (D' 0).weave.queue = {(false, 5)} := by
  obtain ⟨w, w', hroot, hqueue, hnone, hfirst, hphase⟩ := idle_phase
  obtain ⟨D', hp, hsim⟩ := hphase 5 (Nat.le_refl 5)
  set D : Nat → DomainData Bool := Function.update idle 0 { idle 0 with weave := w } with hD
  have hidle : WithTop.some 5 < (D 1).weave.firstCycle := WithTop.coe_lt_top 5
  have hinit : Reachable 2 (fun _ _ => 0) 0 idle :=
    .init idle fun d _ => ⟨_, rfl, fun e => ⟨_, _, _, _, rfl⟩⟩
  refine ⟨D, _, .queueRoot 0 false 5 hinit hroot, ⟨D', hp, hsim, fun hweaved => ?_⟩, ?_⟩
  · rcases hweaved.executed (false, 5) (by rw [hsim]; exact List.mem_cons_self) with hold | hlt
    · rw [show (D 0).weave = w from rfl, hnone] at hold
      cases hold
    · exact absurd hlt (Nat.lt_irrefl 5)
  · have h₀ : Run (doing fun _ _ => w'.setCycle 5) 5 (.init 2 2 rfl)
      (start (.init 2 2 rfl) D) 0 [] (start (.init 2 2 rfl) D) := .refl
    have h₁ := h₀.step (.step (t := 0) Nat.two_pos (.singleEnd (le_of_eq hfirst.symm)))
      fun _ _ ha => by cases ha
    have h₂ := h₁.step (.step (t := 1) Nat.one_lt_two (.singleEnd (le_of_lt hidle)))
      fun _ _ ha => by cases ha
    refine ⟨_, ⟨_, _, _, h₂, fun t ht => ?_, rfl⟩, hnone, hqueue⟩
    rcases Nat.lt_succ_iff_lt_or_eq.mp ht with ht | rfl
    · rw [Nat.lt_one_iff.mp ht]
      rfl
    · rfl

/-- A thread with two domains and a phase up to cycle 6, in which it runs the event. -/
theorem phase_weaved_iff_shared : ∃ (D D' : Nat → DomainData Bool)
    (act : Nat → Weave Bool → Weave Bool), (D 0).weave.queue = {(false, 5)} ∧
    SimulatePhase false act 6 (.init 2 1 rfl) D D' ∧ (D' 0).weave.simulated = [(false, 5)] ∧
    ((∀ d < 2, Weave.Weaved 6 (D d).weave (D' d).weave) ↔
      NoneAtLimit act 6 (.init 2 1 rfl) D) := by
  obtain ⟨w, w', hroot, hqueue, hnone, hfirst, hphase⟩ := idle_phase
  obtain ⟨D', hp, hsim⟩ := hphase 6 (by decide)
  have hr : Reachable 2 (fun _ _ => 0) 0 (Function.update idle 0 { idle 0 with weave := w }) :=
    .queueRoot 0 false 5 (.init idle fun d _ => ⟨_, rfl, fun e => ⟨_, _, _, _, rfl⟩⟩) hroot
  exact ⟨_, D', _, hqueue, hp, hsim, ((phase_weaved_iff _ hr 6).1 _ D' hp).1⟩

end ContentionSim

end ZSim
