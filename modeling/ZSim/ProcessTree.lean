import Mathlib.Algebra.Ring.Nat
import Mathlib.Data.Finset.Card
import Mathlib.Data.List.Nodup
import Mathlib.Logic.Function.Basic
import Mathlib.Logic.Relation

/-! The processes of a simulation: how they are numbered, how a fork gets the node of its child,
and the counts of active and fast-forwarding processes that the end of a phase, the harness and
process 0 wait on. An assert that fails and a panic are `none`. Masks, domains, heartbeats and
all else that a node is only asked for are left out, and so is pausing. -/

namespace ZSim

inductive SyncedFastForwardMode
  | SFF_ALWAYS | SFF_MULTIPROCESS | SFF_NEVER
  deriving DecidableEq

inductive ProcExitStatus
  | PROC_RUNNING | PROC_EXITED | PROC_RESTARTME
  deriving DecidableEq

/-- Children are named by their `procIdx`. -/
structure ProcessTreeNode where
  children : List Nat
  curChildren : Nat
  started : Bool
  inFastForward : Bool
  restartsLeft : Nat
  syncedFastForward : SyncedFastForwardMode

/-- The processes `process0`, `process1` and so on of one level of the configuration, each with
those under it. -/
inductive ProcessConfigs
  | done
  | process (startFastForwarded : Bool) (syncedFastForward : SyncedFastForwardMode)
      (restarts : Nat) (children next : ProcessConfigs)

/-- The new nodes of a level. -/
def ProcessConfigs.nodes : ProcessConfigs → List ProcessTreeNode
  | done => []
  | process startFastForwarded syncedFastForward restarts _ next =>
    ⟨[], 0, false, startFastForwarded, restarts, syncedFastForward⟩ :: next.nodes

/-- The second loop of `PopulateLevel`, from the process `i` on. Each call numbers the level
below its process. -/
def populateLevel : ProcessConfigs → Nat → List ProcessTreeNode → List ProcessTreeNode
  | .done, _, nodes => nodes
  | .process _ _ _ children next, i, nodes =>
    let level := children.nodes
    let nodes := nodes.modify i fun node =>
      { node with children := List.range' nodes.length level.length }
    populateLevel next (i + 1) (populateLevel children nodes.length (nodes ++ level))

/-- The 32-bit counts are atomic. `forked` and `uncounted` are records: the children that have a
node and have not started yet, and whether process 0 was in fast-forward, not counted among
the synced, when there came to be a second process. -/
structure ProcessTree where
  lineSize : Nat
  numProcs : Nat
  procArray : Nat → ProcessTreeNode
  procExited : Nat → ProcExitStatus
  globalActiveProcs : Nat
  globalSyncedFFProcs : Nat
  globalFFProcs : Nat
  terminationConditionMet : Bool
  forked : List Nat
  uncounted : Bool

def fetchAdd (n : Nat) : Nat := (n + 1) % 2 ^ 32

def fetchSub (n : Nat) : Nat := (n + (2 ^ 32 - 1)) % 2 ^ 32

/-- What stands in `procArray` where there is no process. -/
def ProcessTreeNode.absent : ProcessTreeNode := ⟨[], 0, false, false, 0, .SFF_NEVER⟩

def createProcessTree (lineSize : Nat) (cfg : ProcessConfigs) : Option ProcessTree :=
  let nodes := populateLevel cfg 0 cfg.nodes
  if lineSize < nodes.length then none
  else some {
    lineSize
    numProcs := nodes.length
    procArray := fun p => nodes.getD p .absent
    procExited := fun _ => .PROC_RUNNING
    globalActiveProcs := 0
    globalSyncedFFProcs := 0
    globalFFProcs := 0
    terminationConditionMet := false
    forked := []
    uncounted := false }

namespace ProcessTree

variable (z : ProcessTree) (p : Nat)

def setNode (node : ProcessTreeNode) : ProcessTree :=
  { z with procArray := Function.update z.procArray p node }

def getSyncedFastForward : Bool :=
  match (z.procArray p).syncedFastForward with
  | .SFF_ALWAYS => true
  | .SFF_MULTIPROCESS => decide (1 < z.numProcs)
  | .SFF_NEVER => false

/-- The counts when a process enters fast-forward. -/
def countFF : ProcessTree :=
  { z with
    globalSyncedFFProcs :=
      if z.getSyncedFastForward p then fetchAdd z.globalSyncedFFProcs else z.globalSyncedFFProcs
    globalFFProcs := fetchAdd z.globalFFProcs }

def uncountFF : ProcessTree :=
  { z with
    globalSyncedFFProcs :=
      if z.getSyncedFastForward p then fetchSub z.globalSyncedFFProcs else z.globalSyncedFFProcs
    globalFFProcs := fetchSub z.globalFFProcs }

def notifyStart : Option (Bool × ProcessTree) :=
  let node := z.procArray p
  if node.started then some (false, z)
  else if p = 0 ↔ z.globalActiveProcs = 0 then
    let z := { z with globalActiveProcs := fetchAdd z.globalActiveProcs }
    let z := if node.inFastForward then z.countFF p else z
    some (true, z.setNode p { node with started := true })
  else none

def enterFastForward : Option ProcessTree :=
  let node := z.procArray p
  if node.inFastForward then none
  else some ((z.setNode p { node with inFastForward := true }).countFF p)

def exitFastForward : Option ProcessTree :=
  let node := z.procArray p
  if node.inFastForward then some ((z.setNode p { node with inFastForward := false }).uncountFF p)
  else none

/-- `notifyEnd` of a process that is not in fast-forward. -/
def finishProcess : Option (Bool × ProcessTree) :=
  let node := z.procArray p
  if z.procExited p = .PROC_RUNNING then
    if node.restartsLeft ≠ 0 ∧ z.terminationConditionMet = false then
      some (false, { z.setNode p { node with restartsLeft := node.restartsLeft - 1 } with
        procExited := Function.update z.procExited p .PROC_RESTARTME })
    else
      let remaining := fetchSub z.globalActiveProcs
      some (decide (remaining = 0), { z with
        procExited := Function.update z.procExited p .PROC_EXITED
        globalActiveProcs := remaining })
  else none

def notifyEnd : Option (Bool × ProcessTree) :=
  (if (z.procArray p).inFastForward then z.exitFastForward p else some z).bind fun z =>
    z.finishProcess p

/-- A new node for a child of `p`, with the configuration of `p`. -/
def newChild : Option ProcessTree :=
  let node := z.procArray p
  let child := z.numProcs
  if z.lineSize ≤ child then none
  else
    let z := { z with numProcs := fetchAdd z.numProcs }
    let z := z.setNode child { node with started := false, curChildren := 0, children := [] }
    some (z.setNode p { node with children := node.children ++ [child] })

def getNextChild : Option (Nat × ProcessTree) :=
  (if (z.procArray p).curChildren = (z.procArray p).children.length then z.newChild p
    else some z).bind fun z =>
      let node := z.procArray p
      node.children[node.curChildren]?.map fun child =>
        (child, z.setNode p { node with curChildren := node.curChildren + 1 })

/-- The process is between its start and its end. -/
def Live : Prop :=
  p < z.numProcs ∧ (z.procArray p).started = true ∧ z.procExited p = .PROC_RUNNING

/-- There come to be two processes while process 0 is in fast-forward and was not counted among
the synced, being alone. -/
def leavesOut (z z' : ProcessTree) : Bool :=
  decide (z.numProcs = 1 ∧ z'.numProcs = 2 ∧ (z.procArray 0).started = true ∧
    (z.procArray 0).inFastForward = true ∧ (z.procArray 0).syncedFastForward = .SFF_MULTIPROCESS)

end ProcessTree

/-- The harness launches the first `top` processes, and launches one of them again that has gone
with restarts left. Process 0 is not gone while there are active processes. All others come
from a fork. A process ends, and enters and leaves fast-forward, while it is live, and starts
once more when it calls `exec`. The event of `FFITrackNFFInterval` has a process enter it that
has started, whether it is live or not. -/
inductive ProcessStep (top : Nat) (z : ProcessTree) : ProcessTree → Prop
  | start {p : Nat} {first : Bool} {z' : ProcessTree} :
      p < top ∨ (z.procArray p).started = true → z.notifyStart p = some (first, z') →
      ProcessStep top z z'
  | fork {p child : Nat} {z' : ProcessTree} : z.Live p → z.getNextChild p = some (child, z') →
      ProcessStep top z { z' with
        forked := child :: z.forked, uncounted := z.uncounted || z.leavesOut z' }
  | forked {child : Nat} {first : Bool} {z' : ProcessTree} : child ∈ z.forked →
      z.notifyStart child = some (first, z') →
      ProcessStep top z { z' with forked := z.forked.erase child }
  | enterFastForward {p : Nat} {z' : ProcessTree} : z.Live p →
      z.enterFastForward p = some z' → ProcessStep top z z'
  | ffiFire {p : Nat} {z' : ProcessTree} : (z.procArray p).started = true →
      z.enterFastForward p = some z' → ProcessStep top z z'
  | exitFastForward {p : Nat} {z' : ProcessTree} : z.Live p →
      z.exitFastForward p = some z' → ProcessStep top z z'
  | finish {p : Nat} {last : Bool} {z' : ProcessTree} : z.Live p →
      z.notifyEnd p = some (last, z') → ProcessStep top z z'
  | restart {p : Nat} : p < top → z.procExited p = .PROC_RESTARTME →
      (p = 0 → z.globalActiveProcs = 0) → ProcessStep top z
        { z with procExited := Function.update z.procExited p .PROC_RUNNING }
  | terminate : ProcessStep top z { z with terminationConditionMet := true }

inductive ProcessReachable (lineSize : Nat) (cfg : ProcessConfigs) : ProcessTree → Prop
  | init {z : ProcessTree} : createProcessTree lineSize cfg = some z →
      ProcessReachable lineSize cfg z
  | step {z z' : ProcessTree} (hreach : ProcessReachable lineSize cfg z)
      (hstep : ProcessStep cfg.nodes.length z z') : ProcessReachable lineSize cfg z'

/-- No process has two parents, and none that the harness launches has one. -/
structure Numbered (top n : Nat) (node : Nat → ProcessTreeNode) : Prop where
  range : ∀ p, ∀ c ∈ (node p).children, top ≤ c ∧ c < n
  owner : ∀ p q c, c ∈ (node p).children → c ∈ (node q).children → p = q
  nodup : ∀ p, (node p).children.Nodup

/-- The nodes of a configuration, as far as it has been read. -/
structure Populated (top : Nat) (nodes : List ProcessTreeNode) : Prop where
  top_le : top ≤ nodes.length
  numbered : Numbered top nodes.length fun p => nodes.getD p .absent
  fresh : ∀ p, (nodes.getD p .absent).curChildren = 0 ∧ (nodes.getD p .absent).started = false

theorem nodes_fresh (cfg : ProcessConfigs) (j : Nat) :
    (cfg.nodes.getD j .absent).children = [] ∧ (cfg.nodes.getD j .absent).curChildren = 0 ∧
      (cfg.nodes.getD j .absent).started = false := by
  induction cfg generalizing j with
  | done => exact ⟨rfl, rfl, rfl⟩
  | process _ _ _ _ next _ ih =>
    cases j with
    | zero => exact ⟨rfl, rfl, rfl⟩
    | succ j => exact ih j

section populate

variable {top i j k : Nat} {nodes : List ProcessTreeNode} {cfg : ProcessConfigs}

/-- The nodes after the process `i` has got those of the level below it. -/
theorem getD_level (cfg : ProcessConfigs) (hi : i < nodes.length) (children : List Nat) (j : Nat) :
    (nodes.modify i (fun node => { node with children }) ++ cfg.nodes).getD j .absent =
      if j = i then { nodes.getD i .absent with children }
      else if j < nodes.length then nodes.getD j .absent
      else cfg.nodes.getD (j - nodes.length) .absent := by
  simp only [List.getD_eq_getElem?_getD, List.getElem?_append, List.length_modify,
    List.getElem?_modify]
  by_cases hj : j < nodes.length
  · by_cases hji : j = i
    · simp [hji, hi]
    · have hij : i ≠ j := fun h => hji h.symm
      simp [hj, hji, hij]
  · have hji : j ≠ i := by omega
    simp [hj, hji]

theorem Populated.level (h : Populated top nodes) (cfg : ProcessConfigs) (hi : i < nodes.length)
    (hempty : (nodes.getD i .absent).children = []) :
    Populated top (nodes.modify i (fun node =>
      { node with children := List.range' nodes.length cfg.nodes.length }) ++ cfg.nodes) := by
  have hlen : (nodes.modify i (fun node =>
      { node with children := List.range' nodes.length cfg.nodes.length }) ++ cfg.nodes).length =
        nodes.length + cfg.nodes.length := by simp
  have hcases : ∀ p c, c ∈ ((nodes.modify i (fun node =>
      { node with children := List.range' nodes.length cfg.nodes.length }) ++
        cfg.nodes).getD p .absent).children →
      p = i ∧ nodes.length ≤ c ∧ c < nodes.length + cfg.nodes.length ∨
        c ∈ (nodes.getD p .absent).children ∧ c < nodes.length := by
    intro p c hc
    rw [getD_level cfg hi] at hc
    split at hc
    · rename_i hp
      exact .inl ⟨hp, by simpa using hc⟩
    split at hc
    · exact .inr ⟨hc, (h.numbered.range p c hc).2⟩
    · rw [(nodes_fresh cfg _).1] at hc
      cases hc
  refine ⟨by have := h.top_le; omega, ⟨fun p c hc => ?_, fun p q c hp hq => ?_, fun p => ?_⟩,
    fun p => ?_⟩
  · have htop := h.top_le
    rcases hcases p c hc with ⟨-, hle, hlt⟩ | ⟨hc, hlt⟩
    · omega
    · exact ⟨(h.numbered.range p c hc).1, by omega⟩
  · rcases hcases p c hp with ⟨rfl, hle, -⟩ | ⟨hp, hlt⟩ <;>
      rcases hcases q c hq with ⟨rfl, hle', -⟩ | ⟨hq, hlt'⟩
    · rfl
    · omega
    · omega
    · exact h.numbered.owner p q c hp hq
  · rw [getD_level cfg hi]
    split
    · exact List.nodup_range'
    split
    · exact h.numbered.nodup p
    · rw [(nodes_fresh cfg _).1]
      exact List.nodup_nil
  · rw [getD_level cfg hi]
    split
    · exact h.fresh i
    split
    · exact h.fresh p
    · exact (nodes_fresh cfg _).2

theorem populateLevel_spec (h : Populated top nodes) (hi : i + cfg.nodes.length ≤ nodes.length)
    (hempty : ∀ j, i ≤ j → j < i + cfg.nodes.length → (nodes.getD j .absent).children = []) :
    Populated top (populateLevel cfg i nodes) ∧
      nodes.length ≤ (populateLevel cfg i nodes).length ∧
      ∀ j < nodes.length, j < i ∨ i + cfg.nodes.length ≤ j →
        (populateLevel cfg i nodes).getD j .absent = nodes.getD j .absent := by
  induction cfg generalizing i nodes with
  | done => exact ⟨h, le_rfl, fun _ _ _ => rfl⟩
  | process ff mode restarts children next ihc ihn =>
    have hlen : (ProcessConfigs.process ff mode restarts children next).nodes.length =
        next.nodes.length + 1 := rfl
    rw [hlen] at hi hempty ⊢
    have hlt : i < nodes.length := by omega
    have h₁ := h.level children hlt (hempty i le_rfl (by omega))
    have hget := getD_level children hlt
      (List.range' nodes.length children.nodes.length)
    simp only [populateLevel, List.length_modify]
    generalize hnodes₁ : nodes.modify i (fun node => { node with
      children := List.range' nodes.length children.nodes.length }) ++ children.nodes = nodes₁
        at h₁ hget ⊢
    have hlen₁ : nodes₁.length = nodes.length + children.nodes.length := by
      rw [← hnodes₁]
      simp
    obtain ⟨h₂, hle₂, hkeep₂⟩ := ihc h₁ hlen₁.ge fun j hj hj' => by
      rw [hget, if_neg (by omega), if_neg (by omega)]
      exact (nodes_fresh children _).1
    have hold : ∀ j < nodes.length, j ≠ i →
        (populateLevel children nodes.length nodes₁).getD j .absent = nodes.getD j .absent := by
      intro j hj hji
      rw [hkeep₂ j (by omega) (.inl hj), hget, if_neg hji, if_pos hj]
    obtain ⟨h₃, hle₃, hkeep₃⟩ := ihn (i := i + 1) h₂ (by omega) fun j hj hj' => by
      rw [hold j (by omega) (by omega)]
      exact hempty j (by omega) (by omega)
    refine ⟨h₃, by omega, fun j hj hout => ?_⟩
    rw [hkeep₃ j (by omega) (by omega), hold j hj (by omega)]

end populate

namespace ProcessTree

variable {top p u c : Nat} {z z' : ProcessTree}

theorem fetchAdd_eq {n : Nat} (h : n + 1 < 2 ^ 32) : fetchAdd n = n + 1 := Nat.mod_eq_of_lt h

theorem fetchSub_eq {n : Nat} (hpos : 0 < n) (h : n < 2 ^ 32) : fetchSub n + 1 = n := by
  rw [fetchSub]
  omega

def Active (z : ProcessTree) (p : Nat) : Bool :=
  (z.procArray p).started && decide (z.procExited p ≠ .PROC_EXITED)

def InFF (z : ProcessTree) (p : Nat) : Bool :=
  (z.procArray p).started && (z.procArray p).inFastForward

def InSyncedFF (z : ProcessTree) (p : Nat) : Bool := z.InFF p && z.getSyncedFastForward p

def count (z : ProcessTree) (q : ProcessTree → Nat → Bool) : Nat :=
  ((Finset.range z.numProcs).filter fun p => q z p = true).card

theorem count_le (z : ProcessTree) (q : ProcessTree → Nat → Bool) : z.count q ≤ z.numProcs := by
  simpa [count] using Finset.card_filter_le (Finset.range z.numProcs) fun p => q z p = true

theorem count_pos {q : ProcessTree → Nat → Bool} (hp : p < z.numProcs) (hq : q z p = true) :
    0 < z.count q :=
  Finset.card_pos.mpr ⟨p, by simp [hp, hq]⟩

theorem count_eq_zero {q : ProcessTree → Nat → Bool} :
    z.count q = 0 ↔ ∀ p < z.numProcs, q z p = false := by
  simp [count, Finset.filter_eq_empty_iff]

theorem count_change {q : ProcessTree → Nat → Bool} (hn : z'.numProcs = z.numProcs)
    (hp : p < z.numProcs) (hq : ∀ u, u ≠ p → q z' u = q z u) :
    z'.count q + (q z p).toNat = z.count q + (q z' p).toNat := by
  have hmem : p ∈ Finset.range z.numProcs := Finset.mem_range.mpr hp
  have hsplit : ∀ r : Nat → Bool, ((Finset.range z.numProcs).filter fun u => r u = true).card =
      (((Finset.range z.numProcs).erase p).filter fun u => r u = true).card + (r p).toNat := by
    intro r
    rw [← Finset.insert_erase hmem, Finset.filter_insert]
    cases hr : r p <;> simp_all
  have hsame : ((Finset.range z.numProcs).erase p).filter (fun u => q z' u = true) =
      ((Finset.range z.numProcs).erase p).filter fun u => q z u = true := by
    apply Finset.filter_congr
    intro u hu
    rw [hq u (Finset.ne_of_mem_erase hu)]
  rw [count, count, hn, hsplit (q z'), hsplit (q z), hsame]
  omega

/-- The counts are right, but for the one process that may be left out of the synced. -/
structure Counts (z : ProcessTree) : Prop where
  size : z.numProcs ≤ z.lineSize ∧ z.lineSize < 2 ^ 32
  ended : ∀ p, z.procExited p ≠ .PROC_RUNNING → (z.procArray p).started = true
  active : z.globalActiveProcs = z.count Active
  ff : z.globalFFProcs = z.count InFF
  synced : (z.globalSyncedFFProcs + z.uncounted.toNat) % 2 ^ 32 = z.count InSyncedFF
  lt : z.globalSyncedFFProcs < 2 ^ 32
  uncounted : z.uncounted = true → 2 ≤ z.numProcs

/-- Only `p` starts, ends, or enters or leaves fast-forward. -/
structure Only (p : Nat) (z z' : ProcessTree) : Prop where
  numProcs : z'.numProcs = z.numProcs
  lineSize : z'.lineSize = z.lineSize
  uncounted : z'.uncounted = z.uncounted
  mode : ∀ u, (z'.procArray u).syncedFastForward = (z.procArray u).syncedFastForward
  children : ∀ u, (z'.procArray u).children = (z.procArray u).children ∧
    (z'.procArray u).curChildren = (z.procArray u).curChildren
  forked : z'.forked = z.forked
  started : ∀ u, u ≠ p → (z'.procArray u).started = (z.procArray u).started
  stays : (z.procArray p).started = true → (z'.procArray p).started = true
  inFastForward : ∀ u, u ≠ p → (z'.procArray u).inFastForward = (z.procArray u).inFastForward
  procExited : ∀ u, u ≠ p → z'.procExited u = z.procExited u

theorem Only.of_update {node : ProcessTreeNode}
    (harray : z'.procArray = Function.update z.procArray p node)
    (hnode : node.syncedFastForward = (z.procArray p).syncedFastForward ∧
      node.children = (z.procArray p).children ∧ node.curChildren = (z.procArray p).curChildren)
    (hstays : (z.procArray p).started = true → node.started = true)
    (hn : z'.numProcs = z.numProcs) (hl : z'.lineSize = z.lineSize)
    (hc : z'.uncounted = z.uncounted) (hf : z'.forked = z.forked)
    (he : ∀ u, u ≠ p → z'.procExited u = z.procExited u) : Only p z z' := by
  refine ⟨hn, hl, hc, fun u => ?_, fun u => ?_, hf, fun u hu => ?_, ?_, fun u hu => ?_, he⟩ <;>
    rw [harray]
  · by_cases hu : u = p
    · rw [hu, Function.update_self, hnode.1]
    · rw [Function.update_of_ne hu]
  · by_cases hu : u = p
    · rw [hu, Function.update_self]
      exact hnode.2
    · rw [Function.update_of_ne hu]
      exact ⟨rfl, rfl⟩
  · rw [Function.update_of_ne hu]
  · rw [Function.update_self]
    exact hstays
  · rw [Function.update_of_ne hu]

theorem Only.trans {z'' : ProcessTree} (h : Only p z z') (h' : Only p z' z'') : Only p z z'' where
  numProcs := h'.numProcs.trans h.numProcs
  lineSize := h'.lineSize.trans h.lineSize
  uncounted := h'.uncounted.trans h.uncounted
  mode u := (h'.mode u).trans (h.mode u)
  children u := ⟨(h'.children u).1.trans (h.children u).1, (h'.children u).2.trans (h.children u).2⟩
  forked := h'.forked.trans h.forked
  started u hu := (h'.started u hu).trans (h.started u hu)
  stays := h'.stays ∘ h.stays
  inFastForward u hu := (h'.inFastForward u hu).trans (h.inFastForward u hu)
  procExited u hu := (h'.procExited u hu).trans (h.procExited u hu)

theorem Only.synced (h : Only p z z') (u : Nat) :
    z'.getSyncedFastForward u = z.getSyncedFastForward u := by
  rw [getSyncedFastForward, getSyncedFastForward, h.mode u, h.numProcs]

theorem Counts.change (h : Counts z) (hp : p < z.numProcs) (honly : Only p z z')
    (hended : z'.procExited p ≠ .PROC_RUNNING → (z'.procArray p).started = true)
    (hactive : z'.globalActiveProcs + (z.Active p).toNat =
      z.globalActiveProcs + (z'.Active p).toNat)
    (hff : z'.globalFFProcs + (z.InFF p).toNat = z.globalFFProcs + (z'.InFF p).toNat)
    (hsynced : (z'.globalSyncedFFProcs + (z.InSyncedFF p).toNat) % 2 ^ 32 =
      (z.globalSyncedFFProcs + (z'.InSyncedFF p).toNat) % 2 ^ 32)
    (hlt : z'.globalSyncedFFProcs < 2 ^ 32) : Counts z' := by
  have hsize := h.size
  have hq : ∀ u, u ≠ p → z'.Active u = z.Active u ∧ z'.InFF u = z.InFF u ∧
      z'.InSyncedFF u = z.InSyncedFF u := by
    intro u hu
    simp only [Active, InSyncedFF, InFF, honly.started u hu, honly.inFastForward u hu,
      honly.procExited u hu, honly.synced u, and_self]
  have h₁ := count_change honly.numProcs hp fun u hu => (hq u hu).1
  have h₂ := count_change honly.numProcs hp fun u hu => (hq u hu).2.1
  have h₃ := count_change honly.numProcs hp fun u hu => (hq u hu).2.2
  have hle := count_le z' InSyncedFF
  rw [honly.numProcs] at hle
  refine ⟨?_, fun u hu => ?_, ?_, ?_, ?_, hlt, ?_⟩
  · rw [honly.numProcs, honly.lineSize]
    exact hsize
  · by_cases hup : u = p
    · rw [hup] at hu ⊢
      exact hended hu
    · rw [honly.procExited u hup] at hu
      rw [honly.started u hup]
      exact h.ended u hu
  · have := h.active
    omega
  · have := h.ff
    omega
  · have := h.synced
    rw [honly.uncounted]
    omega
  · rw [honly.uncounted, honly.numProcs]
    exact h.uncounted

theorem count_lt {q : ProcessTree → Nat → Bool} (hp : p < z.numProcs) (hq : q z p = false) :
    z.count q < z.numProcs := by
  have hmem : p ∈ Finset.range z.numProcs := Finset.mem_range.mpr hp
  calc z.count q ≤ ((Finset.range z.numProcs).erase p).card := by
        refine Finset.card_le_card fun u hu => ?_
        obtain ⟨hu, hqu⟩ := Finset.mem_filter.mp hu
        refine Finset.mem_erase.mpr ⟨?_, hu⟩
        rintro rfl
        rw [hq] at hqu
        cases hqu
    _ < z.numProcs := by
        rw [Finset.card_erase_of_mem hmem, Finset.card_range]
        omega

theorem countFF_synced (hlt : z.globalSyncedFFProcs < 2 ^ 32) (p : Nat) :
    (z.countFF p).globalSyncedFFProcs % 2 ^ 32 =
      (z.globalSyncedFFProcs + (z.getSyncedFastForward p).toNat) % 2 ^ 32 ∧
    (z.countFF p).globalSyncedFFProcs < 2 ^ 32 := by
  rw [countFF]
  cases z.getSyncedFastForward p <;> simp [fetchAdd] <;> omega

theorem uncountFF_synced (hlt : z.globalSyncedFFProcs < 2 ^ 32) (p : Nat) :
    ((z.uncountFF p).globalSyncedFFProcs + (z.getSyncedFastForward p).toNat) % 2 ^ 32 =
      z.globalSyncedFFProcs % 2 ^ 32 ∧
    (z.uncountFF p).globalSyncedFFProcs < 2 ^ 32 := by
  rw [uncountFF]
  cases z.getSyncedFastForward p <;> simp [fetchSub] <;> omega

theorem Counts.not_started (h : Counts z) (hp : (z.procArray p).started = false) :
    z.procExited p = .PROC_RUNNING := by
  by_contra hne
  have hstarted := h.ended p hne
  rw [hp] at hstarted
  cases hstarted

/-- The counts after `p` has come to or gone out of fast-forward, if `synced` is that of `p`. -/
structure Counted (p : Nat) (z z' : ProcessTree) : Prop where
  ff : z'.globalFFProcs + (z.InFF p).toNat = z.globalFFProcs + (z'.InFF p).toNat
  synced : (z'.globalSyncedFFProcs + (z.InSyncedFF p).toNat) % 2 ^ 32 =
    (z.globalSyncedFFProcs + (z'.InSyncedFF p).toNat) % 2 ^ 32
  lt : z'.globalSyncedFFProcs < 2 ^ 32

theorem Counts.enters (h : Counts z) (hp : p < z.numProcs) (honly : Only p z z')
    (hout : z.InFF p = false) (hin : z'.InFF p = true)
    (hff : z'.globalFFProcs = (z.countFF p).globalFFProcs)
    (hsynced : z'.globalSyncedFFProcs = (z.countFF p).globalSyncedFFProcs) : Counted p z z' := by
  have hlt := count_lt hp hout
  have hsize := h.size
  have hcount := h.ff
  obtain ⟨hmod, hbound⟩ := countFF_synced h.lt p
  refine ⟨?_, ?_, by rw [hsynced]; exact hbound⟩
  · rw [hff, hout, hin]
    exact fetchAdd_eq (by omega)
  · rw [hsynced, InSyncedFF, InSyncedFF, hout, hin, honly.synced p]
    simpa using hmod

theorem Counts.exits (h : Counts z) (hp : p < z.numProcs)
    (hin : z.InFF p = true) (hout : z'.InFF p = false)
    (hff : z'.globalFFProcs = (z.uncountFF p).globalFFProcs)
    (hsynced : z'.globalSyncedFFProcs = (z.uncountFF p).globalSyncedFFProcs) :
    Counted p z z' := by
  have hpos := count_pos hp hin
  have hle := count_le z InFF
  have hsize := h.size
  have hcount := h.ff
  obtain ⟨hmod, hbound⟩ := uncountFF_synced h.lt p
  refine ⟨?_, ?_, by rw [hsynced]; exact hbound⟩
  · rw [hff, hout, hin]
    exact fetchSub_eq (by omega) (by omega)
  · rw [hsynced, InSyncedFF, InSyncedFF, hout, hin]
    simpa using hmod

theorem Counts.keeps (h : Counts z) (honly : Only p z z') (hsame : z'.InFF p = z.InFF p)
    (hff : z'.globalFFProcs = z.globalFFProcs)
    (hsynced : z'.globalSyncedFFProcs = z.globalSyncedFFProcs) : Counted p z z' := by
  refine ⟨by rw [hff, hsame], ?_, by rw [hsynced]; exact h.lt⟩
  rw [hsynced, InSyncedFF, InSyncedFF, hsame, honly.synced p]

theorem Counts.notifyStart {first : Bool} (h : Counts z) (hp : p < z.numProcs)
    (hs : z.notifyStart p = some (first, z')) :
    Counts z' ∧ Only p z z' ∧ (z'.procArray p).started = true := by
  rw [ProcessTree.notifyStart] at hs
  split at hs
  · rename_i hstarted
    cases hs
    exact ⟨h, ⟨rfl, rfl, rfl, fun _ => rfl, fun _ => ⟨rfl, rfl⟩, rfl, fun _ _ => rfl, id,
      fun _ _ => rfl, fun _ _ => rfl⟩, hstarted⟩
  rename_i hnew
  have hnew : (z.procArray p).started = false := by simpa using hnew
  split at hs
  swap
  · simp at hs
  have hrun := h.not_started hnew
  have hactive : z.Active p = false := by simp [Active, hnew]
  have hout : z.InFF p = false := by simp [InFF, hnew]
  have hlt := count_lt hp hactive
  have hsize := h.size
  have hcount := h.active
  have hadd : fetchAdd z.globalActiveProcs = z.globalActiveProcs + 1 := fetchAdd_eq (by omega)
  obtain ⟨harray, hn, hl, hc, hf, he, ha, hff', hsynced'⟩ :
      z'.procArray = Function.update z.procArray p { z.procArray p with started := true } ∧
      z'.numProcs = z.numProcs ∧ z'.lineSize = z.lineSize ∧ z'.uncounted = z.uncounted ∧
      z'.forked = z.forked ∧ z'.procExited = z.procExited ∧
      z'.globalActiveProcs = fetchAdd z.globalActiveProcs ∧
      z'.globalFFProcs = (if (z.procArray p).inFastForward then z.countFF p else z).globalFFProcs ∧
      z'.globalSyncedFFProcs =
        (if (z.procArray p).inFastForward then z.countFF p else z).globalSyncedFFProcs := by
    obtain ⟨-, rfl⟩ := Prod.mk.inj (Option.some.inj hs)
    split <;> exact ⟨rfl, rfl, rfl, rfl, rfl, rfl, rfl, rfl, rfl⟩
  have honly : Only p z z' :=
    .of_update harray ⟨rfl, rfl, rfl⟩ (fun _ => rfl) hn hl hc hf fun u _ => by rw [he]
  have hself : z'.procArray p = { z.procArray p with started := true } := by
    rw [harray, Function.update_self]
  have hcounted : Counted p z z' := by
    cases hff : (z.procArray p).inFastForward with
    | false =>
      rw [hff] at hff' hsynced'
      exact h.keeps honly (by simp [InFF, hself, hnew, hff]) hff' hsynced'
    | true =>
      rw [hff] at hff' hsynced'
      exact h.enters hp honly hout (by simp [InFF, hself, hff]) hff' hsynced'
  refine ⟨h.change hp honly ?_ ?_ hcounted.ff hcounted.synced hcounted.lt, honly, by rw [hself]⟩
  · rw [he]
    exact fun hne => (hne hrun).elim
  · have hactive' : z'.Active p = true := by simp [Active, hself, he, hrun]
    rw [ha, hadd, hactive, hactive']
    rfl

theorem setNode_synced {node : ProcessTreeNode}
    (hnode : node.syncedFastForward = (z.procArray p).syncedFastForward) (u : Nat) :
    (z.setNode p node).getSyncedFastForward u = z.getSyncedFastForward u := by
  have hmode : ((z.setNode p node).procArray u).syncedFastForward =
      (z.procArray u).syncedFastForward := by
    change (Function.update z.procArray p node u).syncedFastForward = _
    by_cases hu : u = p
    · rw [hu, Function.update_self, hnode]
    · rw [Function.update_of_ne hu]
  rw [getSyncedFastForward, getSyncedFastForward, hmode]
  rfl

theorem Counts.enterFastForward (h : Counts z) (hp : p < z.numProcs)
    (hstarted : (z.procArray p).started = true) (hs : z.enterFastForward p = some z') :
    Counts z' ∧ Only p z z' ∧ z'.procExited = z.procExited := by
  rw [ProcessTree.enterFastForward] at hs
  split at hs
  · simp at hs
  rename_i hff
  obtain ⟨harray, hn, hl, hc, hf, he, ha, hff', hsynced⟩ :
      z'.procArray = Function.update z.procArray p { z.procArray p with inFastForward := true } ∧
      z'.numProcs = z.numProcs ∧ z'.lineSize = z.lineSize ∧ z'.uncounted = z.uncounted ∧
      z'.forked = z.forked ∧ z'.procExited = z.procExited ∧
      z'.globalActiveProcs = z.globalActiveProcs ∧
      z'.globalFFProcs = (z.countFF p).globalFFProcs ∧
      z'.globalSyncedFFProcs = (z.countFF p).globalSyncedFFProcs := by
    obtain rfl := Option.some.inj hs
    refine ⟨rfl, rfl, rfl, rfl, rfl, rfl, rfl, rfl, ?_⟩
    simp only [countFF, setNode_synced]
    rfl
  have honly : Only p z z' :=
    .of_update harray ⟨rfl, rfl, rfl⟩ id hn hl hc hf fun u _ => by rw [he]
  have hself : z'.procArray p = { z.procArray p with inFastForward := true } := by
    rw [harray, Function.update_self]
  have hcounted : Counted p z z' := h.enters hp honly (by simp [InFF, hff])
    (by simp [InFF, hself, hstarted]) hff' hsynced
  refine ⟨h.change hp honly ?_ ?_ hcounted.ff hcounted.synced hcounted.lt, honly, he⟩
  · rw [hself]
    exact fun _ => hstarted
  · rw [ha, Active, Active, hself, he]

theorem Counts.exitFastForward (h : Counts z) (hlive : z.Live p)
    (hs : z.exitFastForward p = some z') :
    Counts z' ∧ Only p z z' ∧ z'.Live p ∧ (z'.procArray p).inFastForward = false := by
  obtain ⟨hp, hstarted, hrun⟩ := hlive
  rw [ProcessTree.exitFastForward] at hs
  split at hs
  swap
  · simp at hs
  rename_i hff
  obtain ⟨harray, hn, hl, hc, hf, he, ha, hff', hsynced⟩ :
      z'.procArray = Function.update z.procArray p { z.procArray p with inFastForward := false } ∧
      z'.numProcs = z.numProcs ∧ z'.lineSize = z.lineSize ∧ z'.uncounted = z.uncounted ∧
      z'.forked = z.forked ∧ z'.procExited = z.procExited ∧
      z'.globalActiveProcs = z.globalActiveProcs ∧
      z'.globalFFProcs = (z.uncountFF p).globalFFProcs ∧
      z'.globalSyncedFFProcs = (z.uncountFF p).globalSyncedFFProcs := by
    obtain rfl := Option.some.inj hs
    refine ⟨rfl, rfl, rfl, rfl, rfl, rfl, rfl, rfl, ?_⟩
    simp only [uncountFF, setNode_synced]
    rfl
  have honly : Only p z z' :=
    .of_update harray ⟨rfl, rfl, rfl⟩ id hn hl hc hf fun u _ => by rw [he]
  have hself : z'.procArray p = { z.procArray p with inFastForward := false } := by
    rw [harray, Function.update_self]
  have hcounted : Counted p z z' := h.exits hp (by simp [InFF, hff, hstarted])
    (by simp [InFF, hself]) hff' hsynced
  refine ⟨h.change hp honly ?_ ?_ hcounted.ff hcounted.synced hcounted.lt, honly, ?_, ?_⟩
  · rw [he]
    exact fun hne => (hne hrun).elim
  · rw [ha, Active, Active, hself, he]
  · rw [Live, hn, hself, he]
    exact ⟨hp, hstarted, hrun⟩
  · rw [hself]

theorem Counts.finishProcess {last : Bool} (h : Counts z) (hlive : z.Live p)
    (hff : (z.procArray p).inFastForward = false) (hs : z.finishProcess p = some (last, z')) :
    Counts z' ∧ Only p z z' := by
  obtain ⟨hp, hstarted, hrun⟩ := hlive
  have hactive : z.Active p = true := by simp [Active, hstarted, hrun]
  obtain ⟨node, harray, hnode, hsame, hn, hl, hc, hf, he, hff', hsynced, ha, hne⟩ :
      ∃ node, z'.procArray = Function.update z.procArray p node ∧
      (node.syncedFastForward = (z.procArray p).syncedFastForward ∧
        node.children = (z.procArray p).children ∧
        node.curChildren = (z.procArray p).curChildren) ∧
      (node.started = true ∧ node.inFastForward = false) ∧
      z'.numProcs = z.numProcs ∧ z'.lineSize = z.lineSize ∧ z'.uncounted = z.uncounted ∧
      z'.forked = z.forked ∧ (∀ u, u ≠ p → z'.procExited u = z.procExited u) ∧
      z'.globalFFProcs = z.globalFFProcs ∧ z'.globalSyncedFFProcs = z.globalSyncedFFProcs ∧
      z'.globalActiveProcs + (z.Active p).toNat = z.globalActiveProcs +
        (decide (z'.procExited p ≠ .PROC_EXITED)).toNat ∧ z'.procExited p ≠ .PROC_RUNNING := by
    rw [ProcessTree.finishProcess, if_pos hrun] at hs
    split at hs
    · obtain ⟨-, rfl⟩ := Prod.mk.inj (Option.some.inj hs)
      exact ⟨_, rfl, ⟨rfl, rfl, rfl⟩, ⟨hstarted, hff⟩, rfl, rfl, rfl, rfl,
        fun u hu => Function.update_of_ne hu _ _, rfl, rfl, by simp [hactive, setNode],
        by simp⟩
    · obtain ⟨-, rfl⟩ := Prod.mk.inj (Option.some.inj hs)
      have hpos := count_pos hp hactive
      have hle := count_le z Active
      have hsize := h.size
      have hcount := h.active
      have hsub : fetchSub z.globalActiveProcs + 1 = z.globalActiveProcs :=
        fetchSub_eq (by omega) (by omega)
      exact ⟨_, (Function.update_eq_self p z.procArray).symm, ⟨rfl, rfl, rfl⟩, ⟨hstarted, hff⟩, rfl,
        rfl, rfl, rfl, fun u hu => Function.update_of_ne hu _ _, rfl, rfl,
        by simpa [hactive] using hsub, by simp⟩
  have honly : Only p z z' := .of_update harray hnode (fun _ => hsame.1) hn hl hc hf he
  have hself : z'.procArray p = node := by rw [harray, Function.update_self]
  have hcounted : Counted p z z' := h.keeps honly
    (by rw [InFF, InFF, hself, hsame.2, hff, Bool.and_false, Bool.and_false]) hff' hsynced
  refine ⟨h.change hp honly ?_ ?_ hcounted.ff hcounted.synced hcounted.lt, honly⟩
  · rw [hself]
    exact fun _ => hsame.1
  · rw [ha, Active, hself, hsame.1, Bool.true_and]

theorem Counts.notifyEnd {last : Bool} (h : Counts z) (hlive : z.Live p)
    (hs : z.notifyEnd p = some (last, z')) : Counts z' ∧ Only p z z' := by
  obtain ⟨z₁, hs₁, hs⟩ := Option.bind_eq_some_iff.mp hs
  split at hs₁
  · obtain ⟨h₁, honly₁, hlive₁, hff₁⟩ := h.exitFastForward hlive hs₁
    obtain ⟨h₂, honly₂⟩ := h₁.finishProcess hlive₁ hff₁ hs
    exact ⟨h₂, honly₁.trans honly₂⟩
  · rename_i hff
    cases hs₁
    exact h.finishProcess hlive (by simpa using hff) hs

end ProcessTree

end ZSim
