import ZSim.OOOBbl

/-! The loads and stores recorded for a block: the stages of a uop leave them as they are, and
each load or store uop takes the next one. -/

namespace ZSim.OOO

structure SameMemOps (c c' : OOOCore) : Prop where
  loads : c'.loads = c.loads
  stores : c'.stores = c.stores
  loadAddrs : c'.loadAddrs = c.loadAddrs
  storeAddrs : c'.storeAddrs = c.storeAddrs

theorem SameMemOps.trans {c c' c'' : OOOCore} (h : SameMemOps c c') (h' : SameMemOps c' c'') :
    SameMemOps c c'' :=
  ⟨h'.loads.trans h.loads, h'.stores.trans h.stores, h'.loadAddrs.trans h.loadAddrs,
    h'.storeAddrs.trans h.storeAddrs⟩

/-- The core has the addresses and the forwarding table it had. -/
structure SameMemory (c c' : OOOCore) : Prop extends SameMemOps c c' where
  fwdArray : c'.fwdArray = c.fwdArray

theorem SameMemory.trans {c c' c'' : OOOCore} (h : SameMemory c c') (h' : SameMemory c' c'') :
    SameMemory c c'' := ⟨h.toSameMemOps.trans h'.toSameMemOps, h'.fwdArray.trans h.fwdArray⟩

variable {c c' : OOOCore} {uop : DynUop}

theorem advancePos_memory {n : Nat} (h : c.advancePos n = some c') : SameMemory c c' := by
  unfold OOOCore.advancePos at h
  split at h
  · cases h
    exact ⟨⟨rfl, rfl, rfl, rfl⟩, rfl⟩
  · cases h

theorem decodeUop_memory {decDiff : Nat} (h : c.decodeUop decDiff = some c') :
    SameMemory c c' := by
  simp only [OOOCore.decodeUop, OOOCore.stallDecode, Option.bind_eq_bind, Option.bind_eq_some_iff,
    Option.some.injEq] at h
  obtain ⟨c₁, hstall, rfl⟩ := h
  split at hstall
  · have hadv := advancePos_memory hstall
    exact ⟨⟨hadv.loads, hadv.stores, hadv.loadAddrs, hadv.storeAddrs⟩, hadv.fwdArray⟩
  · cases hstall
    exact ⟨⟨rfl, rfl, rfl, rfl⟩, rfl⟩

theorem issueUop_memory (h : c.issueUop = some c') : SameMemory c c' := by
  simp only [OOOCore.issueUop, OOOCore.stallIssue, Option.bind_eq_bind, Option.bind_eq_some_iff,
    Option.some.injEq] at h
  obtain ⟨c₁, hstall, rfl⟩ := h
  split at hstall
  · have hadv := advancePos_memory hstall
    exact ⟨⟨hadv.loads, hadv.stores, hadv.loadAddrs, hadv.storeAddrs⟩, hadv.fwdArray⟩
  · cases hstall
    exact ⟨⟨rfl, rfl, rfl, rfl⟩, rfl⟩

theorem readRegs_memory {cOps : Nat} (h : c.readRegs uop = some (c', cOps)) :
    SameMemory c c' := by
  simp only [OOOCore.readRegs, OOOCore.stallReads, Option.bind_eq_bind, Option.bind_eq_some_iff,
    Option.some.injEq, Prod.mk.injEq] at h
  obtain ⟨c₁, hstall, rfl, -⟩ := h
  split at hstall
  · have hadv := advancePos_memory hstall
    exact ⟨⟨hadv.loads, hadv.stores, hadv.loadAddrs, hadv.storeAddrs⟩, hadv.fwdArray⟩
  · cases hstall
    exact ⟨⟨rfl, rfl, rfl, rfl⟩, rfl⟩

theorem dispatchUop_memory {fuel cOps d : Nat} (h : c.dispatchUop fuel uop cOps = some (c', d)) :
    SameMemory c c' := by
  simp only [OOOCore.dispatchUop, Option.bind_eq_bind, Option.bind_eq_some_iff, Prod.exists,
    Option.some.injEq, Prod.mk.injEq] at h
  obtain ⟨w, cur, disp, -, rfl, -⟩ := h
  split
  · exact ⟨⟨rfl, rfl, rfl, rfl⟩, rfl⟩
  · exact ⟨⟨rfl, rfl, rfl, rfl⟩, rfl⟩

namespace BblState

/-- The stages of a uop before the LSU simulation, and the dispatch cycle. -/
def beforeLSU (s : BblState) (fuel : Nat) (uop : DynUop) : Option (BblState × Nat) := do
  let (c, cOps) ← s.frontEnd uop
  let (c, dispatchCycle) ← c.dispatchUop fuel uop cOps
  some ({ s with core := c, prevDecCycle := uop.decCycle }, dispatchCycle)

variable {s s' : BblState} {fuel latency d : Nat} {t : UopTiming}

theorem beforeLSU_memory (h : s.beforeLSU fuel uop = some (s', d)) :
    SameMemory s.core s'.core ∧ s'.loadIdx = s.loadIdx ∧ s'.storeIdx = s.storeIdx := by
  simp only [beforeLSU, frontEnd, Option.bind_eq_bind, Option.bind_eq_some_iff, Prod.exists,
    Option.some.injEq, Prod.mk.injEq] at h
  obtain ⟨c, cOps, ⟨c₁, hdec, c₂, hiss, hread⟩, c₃, d', hdisp, rfl, -⟩ := h
  have hfront := (decodeUop_memory hdec).trans (issueUop_memory hiss)
  exact ⟨hfront.trans ((readRegs_memory hread).trans (dispatchUop_memory hdisp)), rfl, rfl⟩

theorem simulateUop_eq (h : s.simulateUop fuel latency uop = some (s', t)) :
    ∃ s₁ d, s.beforeLSU fuel uop = some (s₁, d) ∧
      s' = { (s₁.executeUop uop d latency).1 with
        core := (s₁.executeUop uop d latency).1.core.retireUop uop
          (s₁.executeUop uop d latency).2.2.1
        lastCommitCycle := (s₁.executeUop uop d latency).2.2.1 } ∧
      t.dispatchCycle = (s₁.executeUop uop d latency).2.1 ∧
      t.commitCycle = (s₁.executeUop uop d latency).2.2.1 := by
  simp only [simulateUop, Option.bind_eq_bind, Option.bind_eq_some_iff, Prod.exists,
    Option.some.injEq, Prod.mk.injEq] at h
  obtain ⟨c, cOps, hfront, c₁, d, hdisp, rfl, rfl⟩ := h
  refine ⟨_, d, ?_, rfl, rfl, rfl⟩
  simp only [beforeLSU, hfront, hdisp, Option.bind_eq_bind, Option.bind_some]

/-- How a uop moves the indices of the addresses. -/
structure TakesAddr (t : UopType) (s s' : BblState) : Prop where
  core : SameMemOps s.core s'.core
  loadIdx : s'.loadIdx = s.loadIdx + [t].count .UOP_LOAD
  storeIdx : s'.storeIdx = s.storeIdx + [t].count .UOP_STORE

theorem executeUop_addr (s : BblState) (uop : DynUop) (dispatchCycle latency : Nat) :
    TakesAddr uop.type s (s.executeUop uop dispatchCycle latency).1 := by
  unfold executeUop
  cases uop.type with
  | UOP_GENERAL => exact ⟨⟨rfl, rfl, rfl, rfl⟩, rfl, rfl⟩
  | UOP_LOAD => exact ⟨⟨rfl, rfl, rfl, rfl⟩, rfl, rfl⟩
  | UOP_STORE => exact ⟨⟨rfl, rfl, rfl, rfl⟩, rfl, rfl⟩
  | UOP_STORE_ADDR => exact ⟨⟨rfl, rfl, rfl, rfl⟩, rfl, rfl⟩
  | UOP_FENCE => exact ⟨⟨rfl, rfl, rfl, rfl⟩, rfl, rfl⟩

theorem simulateUop_addr (h : s.simulateUop fuel latency uop = some (s', t)) :
    TakesAddr uop.type s s' := by
  obtain ⟨s₁, d, hbefore, rfl, -, -⟩ := simulateUop_eq h
  obtain ⟨hcore, hload, hstore⟩ := beforeLSU_memory hbefore
  have hexec := executeUop_addr s₁ uop d latency
  have hsame := hcore.toSameMemOps.trans hexec.core
  refine ⟨⟨hsame.loads, hsame.stores, hsame.loadAddrs, hsame.storeAddrs⟩, ?_, ?_⟩
  · rw [← hload]
    exact hexec.loadIdx
  · rw [← hstore]
    exact hexec.storeIdx

theorem simulateUops_addr {i : Nat} {data : Nat → Nat} {uops : List DynUop}
    {tr tr' : List UopTiming} (h : simulateUops fuel data i uops s tr = some (s', tr')) :
    SameMemOps s.core s'.core ∧
      s'.loadIdx = s.loadIdx + (uops.map DynUop.type).count .UOP_LOAD ∧
      s'.storeIdx = s.storeIdx + (uops.map DynUop.type).count .UOP_STORE := by
  induction uops generalizing s i tr with
  | nil =>
    cases h
    exact ⟨⟨rfl, rfl, rfl, rfl⟩, rfl, rfl⟩
  | cons uop uops ih =>
    rw [simulateUops] at h
    split at h
    · rename_i s₁ t hstep
      have h₁ := simulateUop_addr hstep
      obtain ⟨hcore, hload, hstore⟩ := ih h
      rw [List.map_cons, ← List.singleton_append, List.count_append, List.count_append]
      refine ⟨h₁.core.trans hcore, ?_, ?_⟩
      · rw [hload, h₁.loadIdx, Nat.add_assoc]
      · rw [hstore, h₁.storeIdx, Nat.add_assoc]
    · cases h

end BblState

end ZSim.OOO
