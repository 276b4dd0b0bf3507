import ZSim.DDRActWindow
import ZSim.DDRQueues
import ZSim.FirstBest

/-! The timing of the commands that the controller schedules: the constraints that a command
puts on the later ones are kept in the state of its bank, its rank and the bus. -/

namespace ZSim

theorem DDRConfig.le_memToSysCycle {cfg : DDRConfig} {sysCycle memCycle : Nat}
    (h : cfg.sysToMemCycle sysCycle ≤ memCycle) : sysCycle ≤ cfg.memToSysCycle memCycle := by
  have hmem := cfg.memFreq_pos
  have hfreq := cfg.freq
  rw [sysToMemCycle] at h
  rw [memToSysCycle, Nat.le_div_iff_mul_le hmem]
  calc sysCycle * cfg.memFreqKHz
      ≤ cfg.sysFreqKHz * (sysCycle * cfg.memFreqKHz / cfg.sysFreqKHz + 1) :=
        Nat.le_of_lt (Nat.lt_mul_div_succ _ (by omega))
    _ ≤ cfg.sysFreqKHz * (memCycle + 1) := Nat.mul_le_mul_left _ (by omega)
    _ = (memCycle + 1) * cfg.sysFreqKHz := Nat.mul_comm _ _

namespace DDRCommand

/-- What a command asks of one that is scheduled after it. -/
def After (t : DDRTiming) : DDRCommand → DDRCommand → Prop
  | .col pos _ c, .col pos' _ c' => c' + t.tBL ≤ c ∧ (pos' = pos → c' < c)
  | .col pos _ c, .act pos' _ a => pos' = pos → a + t.tRCD ≤ c
  | .act pos _ a, .act pos' _ a' => pos' = pos → a' + t.tRAS + t.tRP ≤ a
  | .act _ _ a, .ref start => start + t.tRFC ≤ a
  | .ref start, .act _ _ a => a < start
  | _, _ => True

/-- The ACT that left a bank open, as its row and its cycle. A refresh closes all banks. -/
def opened (pos : Nat × Nat) : List DDRCommand → Option (Nat × Nat)
  | [] => none
  | .act pos' row a :: cmds => if pos' = pos then some (row, a) else opened pos cmds
  | .col _ _ _ :: cmds => opened pos cmds
  | .ref _ :: _ => none

/-- Every RD or WR is to the row that its bank has open, `tRCD` after its ACT. -/
def OpenRows (t : DDRTiming) : List DDRCommand → Prop
  | [] => True
  | .col pos row c :: cmds =>
    (∃ a, opened pos cmds = some (row, a) ∧ a + t.tRCD ≤ c) ∧ OpenRows t cmds
  | .act _ _ _ :: cmds => OpenRows t cmds
  | .ref _ :: cmds => OpenRows t cmds

/-- The cycles of the activations of a rank. -/
def activations (rank : Nat) : List DDRCommand → List Nat
  | [] => []
  | .act pos _ a :: cmds => if pos.1 = rank then a :: activations rank cmds
    else activations rank cmds
  | .col _ _ _ :: cmds => activations rank cmds
  | .ref _ :: cmds => activations rank cmds

theorem mem_of_opened {pos : Nat × Nat} {row a : Nat} {cmds : List DDRCommand}
    (h : opened pos cmds = some (row, a)) : .act pos row a ∈ cmds := by
  induction cmds with
  | nil => cases h
  | cons x cmds ih =>
    cases x with
    | act pos' row' a' =>
      rw [opened] at h
      by_cases hpos : pos' = pos
      · rw [if_pos hpos] at h
        cases h
        rw [hpos]
        exact List.mem_cons_self
      · rw [if_neg hpos] at h
        exact List.mem_cons_of_mem _ (ih h)
    | col pos' row' c => exact List.mem_cons_of_mem _ (ih h)
    | ref start => cases h

end DDRCommand

namespace DDRCtl

open DDRCommand

variable {cfg : DDRConfig} {s s' : DDRCtl}

/-- The state of the banks, the ranks and the bus against the commands so far. -/
structure Timed (cfg : DDRConfig) (s : DDRCtl) : Prop where
  resp : cfg.timing.tCL + cfg.timing.tBL < s.minRespCycle
  pairwise : s.cmds.Pairwise (After cfg.timing)
  rows : OpenRows cfg.timing s.cmds
  range : ∀ pos row a, .act pos row a ∈ s.cmds →
    pos.1 < cfg.ranksPerChannel ∧ pos.2 < cfg.banksPerRank
  bus : ∀ pos row c, .col pos row c ∈ s.cmds →
    c + cfg.timing.tCL + cfg.timing.tBL ≤ s.minRespCycle
  acts : ∀ pos row a, .act pos row a ∈ s.cmds → a ≤ (s.banks pos).lastActCycle ∧
    a + cfg.timing.tRAS ≤ (s.banks pos).minPreCycle ∧
    a + cfg.timing.tRCD ≤ (s.banks pos).lastCmdCycle
  cols : ∀ pos row c, .col pos row c ∈ s.cmds → c ≤ (s.banks pos).lastCmdCycle
  refs : ∀ start, .ref start ∈ s.cmds → ∀ pos : Nat × Nat,
    pos.1 < cfg.ranksPerChannel ∧ pos.2 < cfg.banksPerRank →
      start + cfg.timing.tRFC ≤ (s.banks pos).minPreCycle + cfg.timing.tRP
  pre : ∀ pos, (s.banks pos).lastCmdCycle ≤ (s.banks pos).minPreCycle
  isOpen : ∀ pos, (s.banks pos).isOpen = true →
    opened pos s.cmds = some ((s.banks pos).openRow, (s.banks pos).lastActCycle)
  windows : ∀ rank, (s.rankActWindows rank).size = 4 ∧
    (s.rankActWindows rank).Tracks cfg.timing.tFAW (activations rank s.cmds)

theorem timed_init : Timed cfg (init cfg) where
  resp := Nat.lt_succ_self _
  pairwise := List.Pairwise.nil
  rows := trivial
  range := by
    intro pos row a h
    cases h
  bus := by
    intro pos row c h
    cases h
  acts := by
    intro pos row a h
    cases h
  cols := by
    intro pos row c h
    cases h
  refs := by
    intro start h
    cases h
  pre := fun _ => Nat.le_refl 0
  isOpen := by
    intro pos h
    cases h
  windows := fun _ => ⟨rfl, ActWindow.tracks_init (by decide)⟩

theorem Timed.congr (h : Timed cfg s) (hbanks : s'.banks = s.banks)
    (hwin : s'.rankActWindows = s.rankActWindows) (hresp : s'.minRespCycle = s.minRespCycle)
    (hcmds : s'.cmds = s.cmds) : Timed cfg s' := by
  constructor
  · rw [hresp]
    exact h.resp
  · rw [hcmds]
    exact h.pairwise
  · rw [hcmds]
    exact h.rows
  · rw [hcmds]
    exact h.range
  · rw [hcmds, hresp]
    exact h.bus
  · rw [hcmds, hbanks]
    exact h.acts
  · rw [hcmds, hbanks]
    exact h.cols
  · rw [hcmds, hbanks]
    exact h.refs
  · rw [hbanks]
    exact h.pre
  · rw [hcmds, hbanks]
    exact h.isOpen
  · rw [hcmds, hwin]
    exact h.windows

theorem le_minRefreshCycle {pos : Nat × Nat} (memCycle : Nat)
    (hpos : pos.1 < cfg.ranksPerChannel ∧ pos.2 < cfg.banksPerRank) :
    (s.banks pos).minPreCycle ≤ s.minRefreshCycle cfg memCycle ∧
      (s.banks pos).lastCmdCycle ≤ s.minRefreshCycle cfg memCycle := by
  have hraise : ∀ (rank m bank : Nat), m ≤ max m
      (max (s.banks (rank, bank)).minPreCycle (s.banks (rank, bank)).lastCmdCycle) :=
    fun _ _ _ => Nat.le_max_left _ _
  have hbank : max (s.banks pos).minPreCycle (s.banks pos).lastCmdCycle ≤
      s.minRefreshCycle cfg memCycle := by
    rw [minRefreshCycle]
    apply le_foldl_of_mem (fun m rank => le_foldl (hraise rank) _ m) _
      (List.mem_range.mpr hpos.1)
    intro m
    exact le_foldl_of_mem (hraise pos.1) (fun m => Nat.le_max_right _ _)
      (List.mem_range.mpr hpos.2) m
  exact ⟨Nat.le_trans (Nat.le_max_left _ _) hbank, Nat.le_trans (Nat.le_max_right _ _) hbank⟩

theorem Timed.refresh (h : Timed cfg s) (sysCycle : Nat) : Timed cfg (s.refresh cfg sysCycle) := by
  have htRAS : 0 < cfg.timing.tRAS := cfg.timing.set _ (by simp)
  have hRP := cfg.timing.refresh
  set start := s.minRefreshCycle cfg (cfg.sysToMemCycle sysCycle) with hstart
  have hbank : ∀ pos, (s.refresh cfg sysCycle).banks pos =
      if pos.1 < cfg.ranksPerChannel ∧ pos.2 < cfg.banksPerRank then
        { s.banks pos with
          minPreCycle := start + cfg.timing.tRFC - cfg.timing.tRP
          isOpen := false }
      else s.banks pos := fun _ => rfl
  have hlast : ∀ pos, ((s.refresh cfg sysCycle).banks pos).lastActCycle =
      (s.banks pos).lastActCycle ∧
      ((s.refresh cfg sysCycle).banks pos).lastCmdCycle = (s.banks pos).lastCmdCycle ∧
      (s.banks pos).minPreCycle ≤ ((s.refresh cfg sysCycle).banks pos).minPreCycle := by
    intro pos
    rw [hbank]
    split
    · rename_i hpos
      have hle := (le_minRefreshCycle (s := s) (cfg.sysToMemCycle sysCycle) hpos).1
      refine ⟨rfl, rfl, ?_⟩
      show (s.banks pos).minPreCycle ≤ start + cfg.timing.tRFC - cfg.timing.tRP
      omega
    · exact ⟨rfl, rfl, Nat.le_refl _⟩
  constructor
  · exact h.resp
  · refine List.pairwise_cons.mpr ⟨?_, h.pairwise⟩
    intro x hx
    cases x with
    | act pos row a =>
      have hrange := h.range pos row a hx
      have hacts := h.acts pos row a hx
      have hle := (le_minRefreshCycle (s := s) (cfg.sysToMemCycle sysCycle) hrange).1
      show a < start
      omega
    | col pos row c => trivial
    | ref start' => trivial
  · exact h.rows
  · intro pos row a hx
    rcases List.mem_cons.mp hx with hx | hx
    · cases hx
    · exact h.range pos row a hx
  · intro pos row c hx
    rcases List.mem_cons.mp hx with hx | hx
    · cases hx
    · exact h.bus pos row c hx
  · intro pos row a hx
    rcases List.mem_cons.mp hx with hx | hx
    · cases hx
    · obtain ⟨ha, hc, hp⟩ := hlast pos
      have hacts := h.acts pos row a hx
      rw [ha, hc]
      exact ⟨hacts.1, Nat.le_trans hacts.2.1 hp, hacts.2.2⟩
  · intro pos row c hx
    rcases List.mem_cons.mp hx with hx | hx
    · cases hx
    · rw [(hlast pos).2.1]
      exact h.cols pos row c hx
  · intro start' hx pos hpos
    rcases List.mem_cons.mp hx with hx | hx
    · cases hx
      rw [hbank, if_pos hpos]
      show start + cfg.timing.tRFC ≤ start + cfg.timing.tRFC - cfg.timing.tRP + cfg.timing.tRP
      omega
    · have hold := h.refs start' hx pos hpos
      have hp := (hlast pos).2.2
      omega
  · intro pos
    obtain ⟨-, hc, hp⟩ := hlast pos
    rw [hc]
    exact Nat.le_trans (h.pre pos) hp
  · intro pos hopen
    rw [hbank] at hopen
    split at hopen
    · cases hopen
    · rename_i hpos
      exact absurd (h.range _ _ _ (mem_of_opened (h.isOpen pos hopen))) hpos
  · exact h.windows

/-- The controller when only the RD or WR of a request is left to schedule, to a row that is
open. -/
structure Ready (cfg : DDRConfig) (s : DDRCtl) (pos : Nat × Nat) (row minCmdCycle : Nat) :
    Prop where
  resp : cfg.timing.tCL + cfg.timing.tBL < s.minRespCycle
  pairwise : s.cmds.Pairwise (After cfg.timing)
  rows : OpenRows cfg.timing s.cmds
  range : ∀ pos row a, .act pos row a ∈ s.cmds →
    pos.1 < cfg.ranksPerChannel ∧ pos.2 < cfg.banksPerRank
  bus : ∀ pos row c, .col pos row c ∈ s.cmds →
    c + cfg.timing.tCL + cfg.timing.tBL ≤ s.minRespCycle
  acts : ∀ p r a, .act p r a ∈ s.cmds → a ≤ (s.banks p).lastActCycle ∧
    (p ≠ pos → a + cfg.timing.tRAS ≤ (s.banks p).minPreCycle ∧
      a + cfg.timing.tRCD ≤ (s.banks p).lastCmdCycle) ∧
    (p = pos → a + cfg.timing.tRCD ≤ minCmdCycle)
  cols : ∀ pos row c, .col pos row c ∈ s.cmds → c ≤ (s.banks pos).lastCmdCycle
  refs : ∀ start, .ref start ∈ s.cmds → ∀ pos : Nat × Nat,
    pos.1 < cfg.ranksPerChannel ∧ pos.2 < cfg.banksPerRank →
      start + cfg.timing.tRFC ≤ (s.banks pos).minPreCycle + cfg.timing.tRP
  pre : ∀ p, p ≠ pos → (s.banks p).lastCmdCycle ≤ (s.banks p).minPreCycle
  isOpen : ∀ p, (s.banks p).isOpen = true →
    opened p s.cmds = some ((s.banks p).openRow, (s.banks p).lastActCycle)
  row : (s.banks pos).isOpen = true ∧ (s.banks pos).openRow = row
  last : (s.banks pos).lastCmdCycle < max minCmdCycle (s.minRespCycle - cfg.timing.tCL)
  windows : ∀ rank, (s.rankActWindows rank).size = 4 ∧
    (s.rankActWindows rank).Tracks cfg.timing.tFAW (activations rank s.cmds)

theorem respondRead_some {id sysCycle : Nat}
    (hread : ∀ ev, (s.reqs id).ev = some ev → (s.reqs id).write = false)
    (hdone : sysCycle ≤ cfg.memToSysCycle s.minRespCycle) :
    ∃ answered, s.respondRead cfg id sysCycle = some { s with answered := answered } := by
  rw [respondRead]
  dsimp only
  split
  · exact ⟨s.answered, rfl⟩
  · rename_i ev hev
    rw [if_pos ⟨hread ev hev, Nat.le_trans hdone (Nat.le_add_right _ _)⟩]
    exact ⟨_, rfl⟩

theorem Ready.access {w : Bool} {id minCmdCycle sysCycle : Nat}
    (h : Ready cfg s (s.reqs id).loc.pos (s.reqs id).loc.row minCmdCycle)
    (hread : ∀ ev, (s.reqs id).ev = some ev → (s.reqs id).write = false)
    (hsys : ∀ m, minCmdCycle ≤ m → sysCycle ≤ cfg.memToSysCycle m) :
    ∃ s', s.access cfg w id minCmdCycle sysCycle = some s' ∧ Timed cfg s' ∧
      minCmdCycle ≤ s'.minRespCycle - cfg.timing.tCL := by
  set pos := (s.reqs id).loc.pos with hposdef
  set c := max minCmdCycle (s.minRespCycle - cfg.timing.tCL) with hc
  set resp := c + cfg.timing.tCL + cfg.timing.tBL with hresp
  have hcmd : minCmdCycle ≤ c := Nat.le_max_left _ _
  have hbus : s.minRespCycle - cfg.timing.tCL ≤ c := Nat.le_max_right _ _
  have haccess : ∃ s', s.access cfg w id minCmdCycle sysCycle = some s' ∧
      s'.banks = Function.update s.banks pos (s.bankAfter cfg w (s.reqs id) c resp) ∧
      s'.rankActWindows = s.rankActWindows ∧ s'.minRespCycle = resp ∧
      s'.cmds = .col pos (s.reqs id).loc.row c :: s.cmds := by
    rw [DDRCtl.access]
    dsimp only
    set t : DDRCtl := { s.setBank pos (s.bankAfter cfg w (s.reqs id) c resp) with
      minRespCycle := resp
      lastCmdWasWrite := (s.reqs id).write
      cmds := .col pos (s.reqs id).loc.row c :: s.cmds } with ht
    have hdone : sysCycle ≤ cfg.memToSysCycle t.minRespCycle := hsys resp (by omega)
    obtain ⟨answered, hresponse⟩ := @respondRead_some cfg t id sysCycle hread hdone
    rw [if_pos h.last, hresponse]
    exact ⟨_, rfl, rfl, rfl, rfl, rfl⟩
  obtain ⟨s', hs', hbanks, hwin, hres, hcmds⟩ := haccess
  have hother : ∀ p, p ≠ pos → s'.banks p = s.banks p := by
    intro p hp
    rw [hbanks, Function.update_of_ne hp]
  have hself : s'.banks pos = s.bankAfter cfg w (s.reqs id) c resp := by
    rw [hbanks, Function.update_self]
  have hact : (s'.banks pos).lastActCycle = (s.banks pos).lastActCycle := by
    rw [hself]
    rfl
  have hlast : (s'.banks pos).lastCmdCycle = c := by
    rw [hself]
    rfl
  have hpre : (s.banks pos).minPreCycle ≤ (s'.banks pos).minPreCycle ∧
      (s.banks pos).lastActCycle + cfg.timing.tRAS ≤ (s'.banks pos).minPreCycle ∧
      c ≤ (s'.banks pos).minPreCycle := by
    have hval : (s'.banks pos).minPreCycle = max (s.banks pos).minPreCycle
        (max ((s.banks pos).lastActCycle + cfg.timing.tRAS)
          (if (s.reqs id).write then resp + cfg.timing.tWR else c + cfg.timing.tRTP)) := by
      rw [hself]
      rfl
    rw [hval]
    have hdone : c ≤ (if (s.reqs id).write then resp + cfg.timing.tWR else c + cfg.timing.tRTP) := by
      split
      · omega
      · omega
    omega
  refine ⟨s', hs', ?_, by omega⟩
  constructor
  · rw [hres]
    have := h.resp
    omega
  · rw [hcmds]
    refine List.pairwise_cons.mpr ⟨?_, h.pairwise⟩
    intro x hx
    cases x with
    | act p r a => exact fun hp => Nat.le_trans ((h.acts p r a hx).2.2 hp) hcmd
    | col p r c' =>
      have hb := h.bus p r c' hx
      refine ⟨by omega, ?_⟩
      rintro rfl
      exact Nat.lt_of_le_of_lt (h.cols pos r c' hx) h.last
    | ref start => trivial
  · rw [hcmds]
    refine ⟨?_, h.rows⟩
    have hopen := h.isOpen pos h.row.1
    rw [h.row.2] at hopen
    exact ⟨_, hopen, Nat.le_trans ((h.acts _ _ _ (mem_of_opened hopen)).2.2 rfl) hcmd⟩
  · rw [hcmds]
    intro p r a hx
    rcases List.mem_cons.mp hx with hx | hx
    · cases hx
    · exact h.range p r a hx
  · rw [hcmds, hres]
    intro p r c' hx
    rcases List.mem_cons.mp hx with hx | hx
    · cases hx
      exact Nat.le_refl _
    · have hb := h.bus p r c' hx
      omega
  · rw [hcmds]
    intro p r a hx
    rcases List.mem_cons.mp hx with hx | hx
    · cases hx
    · obtain ⟨ha, hne, heq⟩ := h.acts p r a hx
      by_cases hp : p = pos
      · have hle := heq hp
        rw [hp] at ha ⊢
        rw [hact, hlast]
        omega
      · rw [hother p hp]
        exact ⟨ha, hne hp⟩
  · rw [hcmds]
    intro p r c' hx
    rcases List.mem_cons.mp hx with hx | hx
    · cases hx
      rw [hlast]
    · have hold := h.cols p r c' hx
      by_cases hp : p = pos
      · rw [hp] at hold ⊢
        rw [hlast]
        exact Nat.le_of_lt (Nat.lt_of_le_of_lt hold h.last)
      · rw [hother p hp]
        exact hold
  · rw [hcmds]
    intro start hx p hp
    rcases List.mem_cons.mp hx with hx | hx
    · cases hx
    · have hold := h.refs start hx p hp
      by_cases hpp : p = pos
      · rw [hpp] at hold ⊢
        omega
      · rw [hother p hpp]
        exact hold
  · intro p
    by_cases hp : p = pos
    · rw [hp, hlast]
      exact hpre.2.2
    · rw [hother p hp]
      exact h.pre p hp
  · intro p hopen
    rw [hcmds]
    by_cases hp : p = pos
    · rw [hp, hself]
      exact h.isOpen pos h.row.1
    · rw [hother p hp] at hopen ⊢
      exact h.isOpen p hopen
  · rw [hcmds, hwin]
    exact h.windows

/-- The ACT that a request waits for is far enough from all commands before it. -/
theorem actCycle_le (r : DDRRequest) :
    (s.banks r.loc.pos).minPreCycle + cfg.timing.tRP ≤ s.actCycle cfg r ∧
      (s.banks r.loc.pos).lastActCycle ≤ s.actCycle cfg r ∧
      (s.rankActWindows r.loc.rank).minActCycle + cfg.timing.tFAW ≤ s.actCycle cfg r := by
  have hpre : (s.banks r.loc.pos).minPreCycle ≤ s.preCycle r := by
    rw [preCycle]
    split
    · exact Nat.le_max_right _ _
    · exact Nat.le_refl _
  rw [actCycle]
  omega

theorem opened_act (pos : Nat × Nat) (row a : Nat) (cmds : List DDRCommand) :
    opened pos (.act pos row a :: cmds) = some (row, a) := if_pos rfl

theorem Timed.activate (h : Timed cfg s) {r : DDRRequest} {minCmdCycle : Nat}
    (hrange : r.loc.rank < cfg.ranksPerChannel ∧ r.loc.bank < cfg.banksPerRank) :
    ∃ s', s.activate cfg r = some s' ∧ s'.reqs = s.reqs ∧
      Ready cfg s' r.loc.pos r.loc.row (max minCmdCycle (s.actCycle cfg r + cfg.timing.tRCD)) := by
  have htRCD : 0 < cfg.timing.tRCD := cfg.timing.set _ (by simp)
  obtain ⟨hactpre, hactlast, hactwin⟩ := @actCycle_le cfg s r
  set pos := r.loc.pos with hpos
  set a₀ := s.actCycle cfg r with ha₀
  obtain ⟨window, hwindow⟩ := ActWindow.addActivation_of_le
    (Nat.le_trans (Nat.le_add_right _ _) hactwin)
  set bank : Bank := { s.banks pos with
    isOpen := true
    openRow := r.loc.row
    minPreCycle := if (s.banks pos).isOpen then s.preCycle r + cfg.timing.tRAS
      else (s.banks pos).minPreCycle
    lastActCycle := a₀ } with hbank
  have hsome : ∃ s', s.activate cfg r = some s' ∧ s'.reqs = s.reqs ∧
      s'.minRespCycle = s.minRespCycle ∧ s'.banks = Function.update s.banks pos bank ∧
      s'.rankActWindows = Function.update s.rankActWindows r.loc.rank window ∧
      s'.cmds = .act pos r.loc.row a₀ :: s.cmds := by
    rw [DDRCtl.activate]
    dsimp only
    rw [hwindow]
    exact ⟨_, rfl, rfl, rfl, rfl, rfl, rfl⟩
  obtain ⟨s', hs', hreqs, hresp, hbanks, hwins, hcmds⟩ := hsome
  have hother : ∀ p, p ≠ pos → s'.banks p = s.banks p := by
    intro p hp
    rw [hbanks, Function.update_of_ne hp]
  have hself : s'.banks pos = bank := by rw [hbanks, Function.update_self]
  have hminpre : (s.banks pos).minPreCycle ≤ bank.minPreCycle := by
    show _ ≤ (if (s.banks pos).isOpen then s.preCycle r + cfg.timing.tRAS
      else (s.banks pos).minPreCycle)
    split
    · rename_i hopen
      have hle : (s.banks pos).minPreCycle ≤ s.preCycle r := by
        rw [preCycle, if_pos hopen]
        exact Nat.le_max_right _ _
      omega
    · exact Nat.le_refl _
  have hcol : ∀ p, (s'.banks p).lastCmdCycle = (s.banks p).lastCmdCycle := by
    intro p
    by_cases hp : p = pos
    · rw [hp, hself]
    · rw [hother p hp]
  refine ⟨s', hs', hreqs, ?_⟩
  constructor
  · rw [hresp]
    exact h.resp
  · rw [hcmds]
    refine List.pairwise_cons.mpr ⟨?_, h.pairwise⟩
    intro x hx
    cases x with
    | act p r' a =>
      rintro rfl
      have hacts := (h.acts pos r' a hx).2.1
      show a + cfg.timing.tRAS + cfg.timing.tRP ≤ a₀
      omega
    | col p r' c => trivial
    | ref start =>
      have hrefs := h.refs start hx pos hrange
      show start + cfg.timing.tRFC ≤ a₀
      omega
  · rw [hcmds]
    exact h.rows
  · rw [hcmds]
    intro p r' a hx
    rcases List.mem_cons.mp hx with hx | hx
    · cases hx
      exact hrange
    · exact h.range p r' a hx
  · rw [hcmds, hresp]
    intro p r' c hx
    rcases List.mem_cons.mp hx with hx | hx
    · cases hx
    · exact h.bus p r' c hx
  · rw [hcmds]
    intro p r' a hx
    rcases List.mem_cons.mp hx with hx | hx
    · cases hx
      refine ⟨?_, fun hne => absurd rfl hne, fun _ => Nat.le_max_right _ _⟩
      rw [hself]
    · have hacts := h.acts p r' a hx
      by_cases hp : p = pos
      · rw [hp] at hacts ⊢
        rw [hself]
        refine ⟨Nat.le_trans hacts.1 hactlast, fun hne => absurd rfl hne, fun _ => ?_⟩
        omega
      · rw [hother p hp]
        exact ⟨hacts.1, fun _ => hacts.2, fun he => absurd he hp⟩
  · rw [hcmds]
    intro p r' c hx
    rcases List.mem_cons.mp hx with hx | hx
    · cases hx
    · rw [hcol]
      exact h.cols p r' c hx
  · rw [hcmds]
    intro start hx p hp
    rcases List.mem_cons.mp hx with hx | hx
    · cases hx
    · have hrefs := h.refs start hx p hp
      by_cases hpp : p = pos
      · rw [hpp] at hrefs ⊢
        rw [hself]
        omega
      · rw [hother p hpp]
        exact hrefs
  · intro p hp
    rw [hother p hp]
    exact h.pre p
  · intro p hopen
    rw [hcmds]
    by_cases hp : p = pos
    · rw [hp, hself]
      exact opened_act ..
    · rw [hother p hp] at hopen ⊢
      have hskip : opened p (.act pos r.loc.row a₀ :: s.cmds) = opened p s.cmds :=
        if_neg (Ne.symm hp)
      rw [hskip]
      exact h.isOpen p hopen
  · rw [hself]
    exact ⟨rfl, rfl⟩
  · rw [hcol]
    have hle := h.pre pos
    omega
  · intro rank
    obtain ⟨hsize, htracks⟩ := h.windows rank
    rw [hcmds, hwins]
    by_cases hr : rank = r.loc.rank
    · rw [hr, Function.update_self]
      rw [hr] at hsize htracks
      have hsplit : activations r.loc.rank (.act pos r.loc.row a₀ :: s.cmds) =
          a₀ :: activations r.loc.rank s.cmds := if_pos rfl
      rw [hsplit]
      exact ⟨(ActWindow.addActivation_size hwindow htracks.idx_lt).1.trans hsize,
        htracks.addActivation hwindow hactwin⟩
    · have hsplit : activations rank (.act pos r.loc.row a₀ :: s.cmds) =
          activations rank s.cmds := if_neg (Ne.symm hr)
      rw [Function.update_of_ne hr, hsplit]
      exact ⟨hsize, htracks⟩

/-- A request that `trySchedule` found can be issued, and its commands are in time. -/
theorem Timed.issue (h : Timed cfg s) (hinv : s.Inv cfg []) {w : Bool} {id sysCycle : Nat}
    (hid : id ∈ s.queues w)
    (hready : s.findMinCmdCycle cfg (s.reqs id) ≤ cfg.sysToMemCycle sysCycle) :
    ∃ s', s.issue cfg w id (cfg.sysToMemCycle sysCycle) sysCycle = some s' ∧ Timed cfg s' ∧
      cfg.sysToMemCycle sysCycle ≤ s'.minRespCycle - cfg.timing.tCL := by
  set cur := cfg.sysToMemCycle sysCycle with hcur
  have hrange : (s.reqs id).loc.rank < cfg.ranksPerChannel ∧
      (s.reqs id).loc.bank < cfg.banksPerRank := by
    apply hinv.inRange
    have hp := hinv.placed id
    have hpos := List.count_pos_iff.mpr hid
    apply List.count_pos_iff.mp
    cases w with
    | false => omega
    | true => omega
  have hread : ∀ ev, (s.reqs id).ev = some ev → (s.reqs id).write = false := by
    intro ev hev
    rw [hinv.ev w id hid] at hev
    by_contra hwrite
    rw [if_pos (Bool.eq_true_of_not_eq_false hwrite)] at hev
    cases hev
  have hsys : ∀ m, cur ≤ m → sysCycle ≤ cfg.memToSysCycle m :=
    fun m hm => DDRConfig.le_memToSysCycle hm
  rw [DDRCtl.issue]
  set mc := if s.lastCmdWasWrite && !(s.reqs id).write then
      max (max cur (s.minRespCycle - cfg.timing.tCL)) (s.minRespCycle + cfg.timing.tWTR)
    else max cur (s.minRespCycle - cfg.timing.tCL) with hmc
  have hle : cur ≤ mc := by
    rw [hmc]
    split
    · omega
    · omega
  rw [findMinCmdCycle] at hready
  by_cases hhit : s.rowHit (s.reqs id) = true
  · rw [if_pos hhit] at hready ⊢
    rw [rowHit, Bool.and_eq_true, decide_eq_true_iff] at hhit
    have hlast : (s.banks (s.reqs id).loc.pos).lastCmdCycle < mc := by omega
    have hR : Ready cfg s (s.reqs id).loc.pos (s.reqs id).loc.row mc := by
      refine ⟨h.resp, h.pairwise, h.rows, h.range, h.bus, ?_, h.cols, h.refs, fun p _ => h.pre p,
        h.isOpen, ⟨hhit.2, hhit.1.symm⟩, Nat.lt_of_lt_of_le hlast (Nat.le_max_left _ _), h.windows⟩
      intro p r a hx
      have hacts := h.acts p r a hx
      refine ⟨hacts.1, fun _ => hacts.2, ?_⟩
      rintro rfl
      omega
    obtain ⟨s', hs', ht, hresp⟩ := @Ready.access cfg s w id mc sysCycle hR hread
      (fun m hm => hsys m (Nat.le_trans hle hm))
    exact ⟨s', hs', ht, Nat.le_trans hle hresp⟩
  · rw [if_neg hhit]
    obtain ⟨t, ht, hreqs, hR⟩ := @Timed.activate cfg s h (s.reqs id) mc hrange
    have hle' : cur ≤ max mc (s.actCycle cfg (s.reqs id) + cfg.timing.tRCD) :=
      Nat.le_trans hle (Nat.le_max_left _ _)
    rw [← hreqs] at hR hread
    obtain ⟨s', hs', htimed, hresp⟩ := @Ready.access cfg t w id _ sysCycle hR hread
      (fun m hm => hsys m (Nat.le_trans (by rw [hreqs]; exact hle') hm))
    rw [hreqs] at hs' hresp
    rw [ht]
    exact ⟨s', hs', htimed, Nat.le_trans hle' hresp⟩

end DDRCtl

end ZSim
