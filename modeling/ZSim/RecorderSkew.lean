import ZSim.CoreCycles
import ZSim.RecorderChain

/-! The slack of the events of a recorder, their start in the weave phase over their start in the
clock without gaps, from one event to the next and from one phase to the next. -/

namespace ZSim

/-- `links` lead from `z` to `e` in the clock without gaps, and no event of `pending` is later
there than the delays before it. -/
inductive Spanned (e : Int) : Int → List Int → List EventLink → Prop where
  | nil : Spanned e e [] []
  | event {z zll : Int} {pending : List Int} {links : List EventLink} {delay postDelay : Nat}
      (hz : zll ≤ z + delay) (h : Spanned e (zll + postDelay) pending links) :
      Spanned e z (zll :: pending) (.event delay postDelay :: links)
  | access {z : Int} {pending : List Int} {links : List EventLink} {latency : Nat}
      (h : Spanned e (z + latency) pending links) :
      Spanned e z pending (.access latency :: links)

theorem Spanned.append {e e' z : Int} {pending pending' : List Int} {links links' : List EventLink}
    (h : Spanned e z pending links) (h' : Spanned e' e pending' links') :
    Spanned e' z (pending ++ pending') (links ++ links') := by
  induction h with
  | nil => exact h'
  | event hz _ ih => exact .event hz ih
  | access _ ih => exact .access ih

theorem Spanned.of_event {e z : Int} {pending : List Int} {links : List EventLink}
    {delay postDelay : Nat} (h : Spanned e z pending (.event delay postDelay :: links)) :
    ∃ zll rest, pending = zll :: rest ∧ zll ≤ z + delay ∧
      Spanned e (zll + postDelay) rest links := by
  cases h with
  | event hz h => exact ⟨_, _, rfl, hz, h⟩

theorem Spanned.of_access {e z : Int} {pending : List Int} {links : List EventLink}
    {latency : Nat} (h : Spanned e z pending (.access latency :: links)) :
    Spanned e (z + latency) pending links := by
  cases h with
  | access h => exact h

theorem toDelay_eq {n : Int} (h : 0 ≤ n) (hn : n < 2 ^ 32) : (toDelay n : Int) = n := by
  rw [toDelay, Int.emod_eq_of_lt h hn]
  exact Int.toNat_of_nonneg h

namespace EventChain

variable {c : EventChain} {links links' : List EventLink}

@[simp] theorem addChildren_release : (c.addChildren links).release = c.release := rfl

@[simp] theorem addChildren_startSlacks : (c.addChildren links).startSlacks = c.startSlacks := rfl

theorem eventDone_of_canStart {startCycle : Nat} (zll : Int)
    (h : c.canStart startCycle = true) :
    ∃ n, (c.eventDone startCycle zll).release = .after n ∧
      (c.eventDone startCycle zll).links = c.links.tail := by
  cases hl : c.links with
  | nil => simp [canStart, hl] at h
  | cons link links =>
    cases link with
    | access latency => simp [canStart, hl] at h
    | event delay postDelay =>
      refine ⟨startCycle + postDelay, ?_, ?_⟩
      · rw [eventDone, hl]
      · rw [eventDone, hl]
        rfl

def slack (c : EventChain) (a : CycleAccount) : Int :=
  match c.release with
  | .queued _ => a.gapCycles
  | .after _ => a.lastStartCycle - a.lastOrigStartCycle

theorem slack_congr {a a' : CycleAccount} (c : EventChain) (hgap : a'.gapCycles = a.gapCycles)
    (hstart : a'.lastStartCycle = a.lastStartCycle)
    (horig : a'.lastOrigStartCycle = a.lastOrigStartCycle) : c.slack a' = c.slack a := by
  rw [slack, slack, hgap, hstart, horig]

theorem slack_addChildren {a : CycleAccount} : (c.addChildren links).slack a = c.slack a := rfl

end EventChain

open EventChain

/-- The events of a core that is not halted: none of those to come has less slack than the last
one that was simulated, which started by `now`. -/
structure Live (now : Nat) (a : CycleAccount) (c : EventChain) (e : Int) : Prop where
  linked : ∃ z, Spanned e z a.pending c.links ∧ c.slack a ≤ c.release.cycle - z
  sorted : c.startSlacks.Pairwise (· ≥ ·)
  le : ∀ s ∈ c.startSlacks, s ≤ c.slack a
  gap_le : a.gapCycles ≤ c.slack a
  last : ∀ n, c.release = .after n → a.lastStartCycle ≤ now

namespace Live

variable {now now' startCycle endCycle cycle glob : Nat} {a a' : CycleAccount} {c : EventChain}
  {e e' : Int}

theorem congr (h : Live now a c e) (hp : a'.pending = a.pending)
    (hgap : a'.gapCycles = a.gapCycles) (hstart : a'.lastStartCycle = a.lastStartCycle)
    (horig : a'.lastOrigStartCycle = a.lastOrigStartCycle) (hnow : now ≤ now') :
    Live now' a' c e := by
  have hs := c.slack_congr hgap hstart horig
  constructor
  · rw [hp, hs]
    exact h.linked
  · exact h.sorted
  · rw [hs]
    exact h.le
  · rw [hgap, hs]
    exact h.gap_le
  · intro n hn
    rw [hstart]
    exact (h.last n hn).trans hnow

theorem append {pending : List Int} {links : List EventLink} (h : Live now a c e)
    (hp : a'.pending = a.pending ++ pending) (hgap : a'.gapCycles = a.gapCycles)
    (hstart : a'.lastStartCycle = a.lastStartCycle)
    (horig : a'.lastOrigStartCycle = a.lastOrigStartCycle) (hl : Spanned e' e pending links) :
    Live now a' (c.addChildren links) e' := by
  have hs := c.slack_congr hgap hstart horig
  obtain ⟨z, hlinked, hz⟩ := h.linked
  constructor
  · refine ⟨z, ?_, ?_⟩
    · rw [hp]
      exact hlinked.append hl
    · rw [slack_addChildren, hs]
      exact hz
  · exact h.sorted
  · rw [slack_addChildren, hs]
    exact h.le
  · rw [hgap, slack_addChildren, hs]
    exact h.gap_le
  · intro n hn
    rw [hstart]
    exact h.last n hn

theorem queue (hp : a.pending = [(glob : Int)]) (hgap : a.gapCycles = 0) :
    Live now a (.queue glob) glob := by
  have hs : (EventChain.queue glob).slack a = 0 := by
    rw [slack, EventChain.queue, hgap]
    rfl
  constructor
  · refine ⟨glob, ?_, ?_⟩
    · rw [hp]
      exact .event (by simp) (by simpa using Spanned.nil)
    · rw [hs]
      simp [EventChain.queue, Release.cycle]
  · exact List.Pairwise.nil
  · simp [EventChain.queue]
  · rw [hs, hgap]
    rfl
  · simp [EventChain.queue]

theorem event (h : Live now a c e) (hstart : c.canStart startCycle = true)
    (hnow : startCycle ≤ now) :
    ∃ zll pending, a.pending = zll :: pending ∧ c.slack a ≤ startCycle - zll ∧
      ∀ a' : CycleAccount, a'.pending = pending → a'.gapCycles = a.gapCycles →
        a'.lastStartCycle = startCycle → a'.lastOrigStartCycle = zll →
        Live now a' (c.eventDone startCycle zll) e := by
  obtain ⟨z, hlinked, hz⟩ := h.linked
  cases hl : c.links with
  | nil => simp [canStart, hl] at hstart
  | cons link links =>
    cases link with
    | access latency => simp [canStart, hl] at hstart
    | event delay postDelay =>
      rw [hl] at hlinked
      obtain ⟨zll, pending, hpending, hzll, hrest⟩ := hlinked.of_event
      have hadmits : c.release.cycle + delay ≤ startCycle := by
        simp only [canStart, hl] at hstart
        cases hr : c.release with
        | queued cycle =>
          simp only [hr, Release.admits, decide_eq_true_eq] at hstart
          exact hstart.ge
        | after cycle =>
          simp only [hr, Release.admits, decide_eq_true_eq] at hstart
          exact hstart
      have hslack : c.slack a ≤ startCycle - zll := by omega
      refine ⟨zll, pending, hpending, hslack, ?_⟩
      intro a' hp hgap hs ho
      have hdone : c.eventDone startCycle zll =
          ⟨.after (startCycle + postDelay), links, (startCycle - zll) :: c.startSlacks⟩ := by
        rw [eventDone, hl]
      have hslack' : (c.eventDone startCycle zll).slack a' = startCycle - zll := by
        rw [hdone, slack, hs, ho]
      constructor
      · refine ⟨zll + postDelay, ?_, ?_⟩
        · rw [hp, hdone]
          exact hrest
        · rw [hslack', hdone]
          simp only [Release.cycle]
          omega
      · rw [hdone]
        exact List.pairwise_cons.mpr ⟨fun s hs => (h.le s hs).trans hslack, h.sorted⟩
      · rw [hslack', hdone]
        intro s hs
        cases hs with
        | head => exact le_refl _
        | tail _ hs => exact (h.le s hs).trans hslack
      · rw [hslack', hgap]
        exact h.gap_le.trans hslack
      · intro _ _
        rw [hs]
        exact hnow

theorem access (h : Live now a c e) (haccess : c.canAccess startCycle endCycle = true) :
    Live now a (c.accessDone endCycle) e := by
  obtain ⟨z, hlinked, hz⟩ := h.linked
  unfold canAccess at haccess
  split at haccess
  · next latency links cycle hl hr =>
    simp only [decide_eq_true_eq] at haccess
    have hslack : (c.accessDone endCycle).slack a = c.slack a := by
      rw [slack, slack, hr]
      rfl
    rw [hl] at hlinked
    constructor
    · refine ⟨z + latency, ?_, ?_⟩
      · simpa [accessDone, hl] using hlinked.of_access
      · rw [hslack]
        rw [hr] at hz
        simp only [accessDone, Release.cycle] at hz ⊢
        omega
    · exact h.sorted
    · rw [hslack]
      exact h.le
    · rw [hslack]
      exact h.gap_le
    · intro _ _
      exact h.last cycle hr
  · cases haccess

/-- The skew of a phase makes up for what the slack gained in it. -/
theorem skew {n cc : Nat} (h : Live now a c e) (hr : c.release = .after n) (hcc : now ≤ cc) :
    ∃ skew, a.skew cc = some skew ∧ (a.gapCycles : Int) + skew = c.slack a ∧
      Live now (a.addGap skew) c e := by
  have hslack : c.slack a = a.lastStartCycle - a.lastOrigStartCycle := by
    rw [slack, hr]
  have hslack' : ∀ n, c.slack (a.addGap n) = c.slack a := by
    intro n
    rw [slack, slack, hr]
    rfl
  have hgap := h.gap_le
  have hlast := h.last n hr
  rw [hslack] at hgap
  have hskew : a.skew cc =
      some (a.lastStartCycle - (a.lastOrigStartCycle + a.gapCycles)).toNat := by
    rw [CycleAccount.skew, if_pos]
    exact ⟨by omega, by omega, by omega⟩
  have hsum : (a.gapCycles : Int) +
      (a.lastStartCycle - (a.lastOrigStartCycle + a.gapCycles)).toNat = c.slack a := by
    rw [hslack]
    omega
  refine ⟨_, hskew, hsum, ?_⟩
  constructor
  · rw [hslack']
    exact h.linked
  · exact h.sorted
  · rw [hslack']
    exact h.le
  · rw [hslack', ← hsum]
    simp [CycleAccount.addGap]
  · exact h.last

end Live

/-- The last link is an event, not an access. -/
def EventChain.Closed (c : EventChain) : Prop :=
  ∀ latency, c.links.getLast? ≠ some (.access latency)

theorem getLast?_of_tail {α : Type} {l : List α} {x : α} (h : l.tail.getLast? = some x) :
    l.getLast? = some x := by
  cases l with
  | nil => exact h
  | cons y l =>
    rw [List.getLast?_cons]
    rw [List.tail_cons] at h
    rw [h]
    rfl

theorem Spanned.links_eq_nil {e z : Int} {links : List EventLink} (h : Spanned e z [] links)
    (hlast : ∀ latency, links.getLast? ≠ some (.access latency)) : links = [] := by
  induction links generalizing z with
  | nil => rfl
  | cons link links ih =>
    cases link with
    | event delay postDelay =>
      obtain ⟨_, _, hnil, -⟩ := h.of_event
      cases hnil
    | access latency =>
      have hnil := ih h.of_access fun latency hl => hlast latency (getLast?_of_tail hl)
      subst hnil
      exact absurd rfl (hlast latency)

theorem CycleAccount.reportSimulated_cons {a : CycleAccount} {zll : Int} {pending : List Int}
    {startCycle : Nat} (hp : a.pending = zll :: pending) (hown : a.lastProduced = .own) :
    a.reportSimulated startCycle = some { a with
      lastStartCycle := startCycle
      lastOrigStartCycle := zll
      pending := pending
      lastProduced := if pending = [] then .none else .own } := by
  rw [reportSimulated, hp]
  by_cases hnil : pending = []
  · simp [hnil, hown]
  · simp [hnil, hown]

structure Resting (glob : Nat) (a : CycleAccount) (c : EventChain) : Prop where
  state : a.state = .halted
  pending : a.pending = []
  links : c.links = []
  produced : a.lastProduced = .none
  last : a.lastUnhaltedCycle ≤ glob
  sorted : c.startSlacks.Pairwise (· ≥ ·)

/-- The recorder of a core that is not halted, in the bound phase: the gap makes up for the slack
of all that was simulated. -/
structure BoundLive (glob cc : Nat) (joined : Bool) (a : CycleAccount) (c : EventChain)
    (e : Int) : Prop where
  live : Live glob a c e
  state : a.state = if joined then .running else .draining
  gap : c.slack a = a.gapCycles
  queued : ∀ g, c.release = .queued g → g = glob
  produced : a.lastProduced ≠ .none
  own : a.lastProduced = .own → a.pending ≠ []
  drains : joined = false → a.lastProduced = .own ∧ c.Closed
  now : glob ≤ cc

/-- The same in the weave phase: a core that runs has an event that cannot start before the
limit. -/
structure WeaveLive (glob limit cc : Nat) (joined : Bool) (a : CycleAccount) (c : EventChain)
    (e : Int) : Prop where
  live : Live limit a c e
  state : a.state = if joined then .running else .draining
  queued : ∀ g, c.release = .queued g → g = glob
  produced : a.lastProduced = if a.pending = [] then .none else .own
  closed : c.Closed
  tapered : joined = true → a.pending.getLast? = some e ∧ (limit : Int) ≤ e + a.gapCycles
  now : limit ≤ cc

theorem Resting.join {glob cc : Nat} {a : CycleAccount} {c : EventChain} (h : Resting glob a c)
    (hcc : glob ≤ cc) :
    ∃ a', a.joinHalted glob = some a' ∧ a'.gapCycles = 0 ∧ a'.pending = [(glob : Int)] ∧
      a'.state = .running ∧ a'.lastProduced = .own ∧
      BoundLive glob cc true a' (.queue glob) glob := by
  refine ⟨_, if_pos ⟨h.produced, h.last⟩, rfl, ?_, rfl, rfl, ?_⟩
  · simp [CycleAccount.addEvent, h.pending]
  · constructor
    · exact Live.queue (by simp [CycleAccount.addEvent, h.pending]) rfl
    · rfl
    · rfl
    · intro g hg
      cases hg
      rfl
    · simp
    · intro _
      exact CycleAccount.addEvent_pending
    · intro hf
      cases hf
    · exact hcc

theorem closed_addChildren {c : EventChain} (links : List EventLink) {delay postDelay : Nat} :
    (c.addChildren (links ++ [.event delay postDelay])).Closed := by
  intro latency h
  simp [addChildren, ← List.append_assoc] at h

namespace BoundLive

variable {glob limit cc cc' : Nat} {joined joined' : Bool} {a a' : CycleAccount} {c : EventChain}
  {e e' : Int} {pending : List Int} {links : List EventLink}

theorem append (h : BoundLive glob cc joined a c e) (hp : a'.pending = a.pending ++ pending)
    (hgap : a'.gapCycles = a.gapCycles) (hstart : a'.lastStartCycle = a.lastStartCycle)
    (horig : a'.lastOrigStartCycle = a.lastOrigStartCycle) (hl : Spanned e' e pending links)
    (hstate : a'.state = if joined' then .running else .draining)
    (hproduced : a'.lastProduced ≠ .none) (hown : a'.lastProduced = .own → a'.pending ≠ [])
    (hdrains : joined' = false → a'.lastProduced = .own ∧ (c.addChildren links).Closed)
    (hcc : glob ≤ cc') : BoundLive glob cc' joined' a' (c.addChildren links) e' := by
  constructor
  · exact h.live.append hp hgap hstart horig hl
  · exact hstate
  · rw [slack_addChildren, c.slack_congr hgap hstart horig, hgap]
    exact h.gap
  · exact h.queued
  · exact hproduced
  · exact hown
  · exact hdrains
  · exact hcc

theorem congr (h : BoundLive glob cc joined a c e) (hcc : cc ≤ cc') :
    BoundLive glob cc' joined a c e :=
  ⟨h.live, h.state, h.gap, h.queued, h.produced, h.own, h.drains, h.now.trans hcc⟩

theorem weave_running (h : BoundLive glob cc true a c e)
    (hp : a'.pending = a.pending ++ pending) (hstate : a'.state = .running)
    (hgap : a'.gapCycles = a.gapCycles) (hstart : a'.lastStartCycle = a.lastStartCycle)
    (horig : a'.lastOrigStartCycle = a.lastOrigStartCycle) (hl : Spanned e' e pending links)
    (hown : a'.lastProduced = .own) (hclosed : (c.addChildren links).Closed)
    (hlast : a'.pending.getLast? = some e') (hlimit : (limit : Int) ≤ e' + a.gapCycles)
    (hglob : glob ≤ limit) (hcc : limit ≤ cc') :
    WeaveLive glob limit cc' true a' (c.addChildren links) e' := by
  constructor
  · exact (h.live.append hp hgap hstart horig hl).congr rfl rfl rfl rfl hglob
  · exact hstate
  · exact h.queued
  · rw [hown, if_neg]
    intro hnil
    rw [hnil] at hlast
    cases hlast
  · exact hclosed
  · intro _
    rw [hgap]
    exact ⟨hlast, hlimit⟩
  · exact hcc

theorem weave_draining (h : BoundLive glob cc false a c e) (hglob : glob ≤ limit)
    (hcc : limit ≤ cc') : WeaveLive glob limit cc' false a c e := by
  obtain ⟨hown, hclosed⟩ := h.drains rfl
  constructor
  · exact h.live.congr rfl rfl rfl rfl hglob
  · exact h.state
  · exact h.queued
  · rw [hown, if_neg (h.own hown)]
  · exact hclosed
  · intro hf
    cases hf
  · exact hcc

end BoundLive

namespace WeaveLive

variable {glob limit cc startCycle endCycle : Nat} {joined : Bool} {a : CycleAccount}
  {c : EventChain} {e : Int}

theorem not_halted (h : WeaveLive glob limit cc joined a c e) : a.state ≠ .halted := by
  rw [h.state]
  cases joined with
  | true => simp
  | false => simp

/-- The phase does not end before an event that is queued in it. -/
theorem release_after (h : WeaveLive glob limit cc joined a c e)
    (hqueued : ∀ cycle, c.release = .queued cycle → limit ≤ cycle) (hglob : glob < limit) :
    ∃ n, c.release = .after n := by
  cases hr : c.release with
  | queued cycle =>
    have hle := hqueued cycle hr
    rw [h.queued cycle hr] at hle
    exact absurd hle (Nat.not_le.mpr hglob)
  | after n => exact ⟨n, rfl⟩

theorem event (h : WeaveLive glob limit cc joined a c e) (hstart : c.canStart startCycle = true)
    (hlt : startCycle < limit) :
    ∃ a', a.reportSimulated startCycle = some a' ∧ a'.gapCycles = a.gapCycles ∧
      a'.state = a.state ∧ a'.pending = a.pending.tail ∧ (a'.lastProduced = .none → a'.state = .draining) ∧
      WeaveLive glob limit cc joined a' (c.eventDone startCycle a'.lastOrigStartCycle) e := by
  obtain ⟨zll, pending, hp, hslack, hlive⟩ := h.live.event hstart hlt.le
  have hown : a.lastProduced = .own := by simpa [hp] using h.produced
  have hrest : joined = true → pending.getLast? = some e := by
    intro hj
    obtain ⟨hlast, htaper⟩ := h.tapered hj
    rw [hp] at hlast
    cases pending with
    | nil =>
      have hz : zll = e := by simpa using hlast
      have hgap := h.live.gap_le
      omega
    | cons zll' pending => rwa [List.getLast?_cons_cons] at hlast
  obtain ⟨n, hrelease, hlinks⟩ := eventDone_of_canStart zll hstart
  refine ⟨_, CycleAccount.reportSimulated_cons hp hown, rfl, rfl, ?_, ?_, ?_⟩
  · rw [hp, List.tail_cons]
  · intro hnone
    have hnil : pending = [] := by
      by_contra hne
      simp [hne] at hnone
    cases hj : joined with
    | true =>
      have hl := hrest hj
      rw [hnil] at hl
      cases hl
    | false => simpa [hj] using h.state
  · constructor
    · exact hlive _ rfl rfl rfl rfl
    · exact h.state
    · intro g hg
      rw [hrelease] at hg
      cases hg
    · rfl
    · intro latency hl
      rw [hlinks] at hl
      exact h.closed latency (getLast?_of_tail hl)
    · intro hj
      exact ⟨hrest hj, (h.tapered hj).2⟩
    · exact h.now

theorem access (h : WeaveLive glob limit cc joined a c e)
    (haccess : c.canAccess startCycle endCycle = true) :
    WeaveLive glob limit cc joined a (c.accessDone endCycle) e := by
  constructor
  · exact h.live.access haccess
  · exact h.state
  · intro g hg
    cases hg
  · exact h.produced
  · intro latency hl
    exact h.closed latency (getLast?_of_tail hl)
  · exact h.tapered
  · exact h.now

/-- At the end of the phase the core is halted just when its last event was simulated. -/
theorem cSimEnd {n : Nat} (h : WeaveLive glob limit cc joined a c e)
    (hr : c.release = .after n) :
    ∃ skew a', a.skew cc = some skew ∧ (a.addGap skew).taper = some a' ∧
      a'.gapCycles = a.gapCycles + skew ∧
      ((a.pending = [] ∧ joined = false ∧ Resting limit a' c) ∨
        a.pending ≠ [] ∧ a' = a.addGap skew ∧
          BoundLive limit (cc + skew) joined a' c e) := by
  obtain ⟨skew, hskew, hgap, hlive⟩ := h.live.skew hr h.now
  by_cases hp : a.pending = []
  · have hnone : a.lastProduced = .none := by simpa [hp] using h.produced
    have hj : joined = false := by
      cases hj : joined with
      | false => rfl
      | true =>
        have hl := (h.tapered hj).1
        rw [hp] at hl
        cases hl
    have hstate : a.state = .draining := by simpa [hj] using h.state
    have htaper : (a.addGap skew).taper = some { a.addGap skew with
        lastUnhaltedCycle := a.lastStartCycle, state := .halted } := by
      rw [CycleAccount.taper]
      exact (if_pos hnone).trans (if_pos hstate)
    refine ⟨skew, _, hskew, htaper, rfl, .inl ⟨hp, hj, ?_⟩⟩
    constructor
    · rfl
    · exact hp
    · obtain ⟨z, hlinked, -⟩ := h.live.linked
      rw [hp] at hlinked
      exact hlinked.links_eq_nil h.closed
    · exact hnone
    · exact h.live.last n hr
    · exact h.live.sorted
  · have hown : a.lastProduced = .own := by simpa [hp] using h.produced
    have hne : (a.addGap skew).lastProduced ≠ .none := by
      intro hnone
      rw [CycleAccount.addGap, hown] at hnone
      cases hnone
    refine ⟨skew, a.addGap skew, hskew, by rw [CycleAccount.taper, if_neg hne], rfl,
      .inr ⟨hp, rfl, ?_⟩⟩
    constructor
    · exact hlive
    · exact h.state
    · rw [slack, hr]
      rw [slack, hr] at hgap
      simpa [CycleAccount.addGap] using hgap.symm
    · intro g hg
      rw [hr] at hg
      cases hg
    · exact hne
    · intro _
      exact hp
    · intro _
      exact ⟨hown, h.closed⟩
    · exact h.now.trans (Nat.le_add_right cc skew)

end WeaveLive

end ZSim
