import Mathlib.Data.List.ReduceOption
import ZSim.TimingCache

/-! The tag port of a timing cache. A high-priority access takes the first slot from its cycle
on; a low-priority one takes the slot before its cycle, or is not granted. -/

namespace ZSim

inductive PortCall
  | highPrio (cycle : Nat)
  | lowPrio (cycle : Nat)

namespace PortCall

def cycle : PortCall → Nat
  | .highPrio cycle => cycle
  | .lowPrio cycle => cycle

def isHigh : PortCall → Bool
  | .highPrio _ => true
  | .lowPrio _ => false

/-- The slot that a call may be granted. -/
def Granted : PortCall → Option Nat → Prop
  | .highPrio cycle, slot => ∃ k, slot = some k ∧ cycle ≤ k
  | .lowPrio cycle, slot => ∀ k, slot = some k → k + 1 = cycle

/-- Calls at nondecreasing cycles from `now` on. -/
def InOrder (now : Nat) : List PortCall → Prop
  | [] => True
  | call :: calls => now ≤ call.cycle ∧ call.cycle < 2 ^ 64 ∧ InOrder call.cycle calls

end PortCall

namespace TimingCache

open PortCall

/-- The cache after a call, and the slot that was granted. -/
def portCall (c : TimingCache) : PortCall → Option (TimingCache × Option Nat)
  | .highPrio cycle => (c.highPrioAccess cycle).map fun r => (r.1, some r.2)
  | .lowPrio cycle =>
    let r := c.tryLowPrioAccess cycle
    some (r.1, if r.2 = 0 then none else some (prevCycle cycle))

/-- The slots that the calls are granted, one after the other. -/
def grants (c : TimingCache) : List PortCall → Option (List (Option Nat))
  | [] => some []
  | call :: calls => (c.portCall call).bind fun r => (r.1.grants calls).map (r.2 :: ·)

/-- No high-priority call comes after the last slot that a cycle can name. -/
def Fits (c : TimingCache) : List PortCall → Prop
  | [] => True
  | call :: calls => (call.isHigh = true → c.lastAccCycle + 1 < 2 ^ 64) ∧
      ∀ r, c.portCall call = some r → r.1.Fits calls

/-- The two cycles that the cache remembers, from what was granted before `now`. -/
structure PortInv (now : Nat) (used : List Nat) (c : TimingCache) : Prop where
  start : 2 ≤ now
  le : ∀ k ∈ used, k ≤ c.lastAccCycle
  free : c.lastFreeCycle = 0 ∨ c.lastFreeCycle ∉ used
  freeLt : c.lastFreeCycle < now

/-- From `now` on the caches give high-priority calls the same slots. -/
def SameAhead (now : Nat) (c d : TimingCache) : Prop :=
  ∀ cycle, now ≤ cycle → max cycle (c.lastAccCycle + 1) = max cycle (d.lastAccCycle + 1)

variable {c d : TimingCache} {now cycle : Nat} {used : List Nat} {calls : List PortCall}

theorem prevCycle_eq (hpos : 1 ≤ cycle) (hlt : cycle < 2 ^ 64) : prevCycle cycle = cycle - 1 := by
  rw [prevCycle]
  omega

theorem highPrioAccess_eq (hfree : c.lastFreeCycle ≤ cycle) (hpos : 1 ≤ cycle)
    (hlt : cycle < 2 ^ 64) (hacc : c.lastAccCycle + 1 < 2 ^ 64) :
    c.highPrioAccess cycle = some ({ c with
      lastFreeCycle := if c.lastAccCycle < cycle - 1 then cycle - 1 else c.lastFreeCycle
      lastAccCycle := max cycle (c.lastAccCycle + 1) }, max cycle (c.lastAccCycle + 1)) := by
  rw [highPrioAccess, if_pos hfree, prevCycle_eq hpos hlt, nextCycle, Nat.mod_eq_of_lt hacc]

theorem PortInv.high (h : PortInv now used c) (hnow : now ≤ cycle) (hlt : cycle < 2 ^ 64)
    (hacc : c.lastAccCycle + 1 < 2 ^ 64) :
    ∃ r, c.portCall (.highPrio cycle) = some r ∧ (PortCall.highPrio cycle).Granted r.2 ∧
      (∀ k ∈ r.2, k ∉ used) ∧ PortInv cycle (r.2.toList ++ used) r.1 := by
  have hstart := h.start
  have hfreeLt := h.freeLt
  have hhigh := @highPrioAccess_eq c cycle (by omega) (by omega) hlt hacc
  refine ⟨_, by rw [portCall, hhigh]; rfl, ⟨_, rfl, le_max_left _ _⟩, fun k hk hin => ?_,
    ⟨by omega, fun k hk => ?_, ?_, ?_⟩⟩
  · cases hk
    have hle := h.le _ hin
    omega
  · rcases List.mem_append.mp hk with hk | hk
    · rw [Option.toList_some, List.mem_singleton] at hk
      exact hk.le
    · exact (h.le k hk).trans (by change _ ≤ max cycle _; omega)
  · change (if _ then _ else _) = 0 ∨ (if _ then _ else _) ∉ _
    split
    · refine .inr fun hin => ?_
      rcases List.mem_append.mp hin with hin | hin
      · rw [Option.toList_some, List.mem_singleton] at hin
        omega
      · have hle := h.le _ hin
        omega
    · refine h.free.imp id fun hnot hin => ?_
      rcases List.mem_append.mp hin with hin | hin
      · rw [Option.toList_some, List.mem_singleton] at hin
        omega
      · exact hnot hin
  · change (if _ then _ else _) < cycle
    split <;> omega

theorem PortInv.low (h : PortInv now used c) (hnow : now ≤ cycle) (hlt : cycle < 2 ^ 64) :
    ∃ r, c.portCall (.lowPrio cycle) = some r ∧ (PortCall.lowPrio cycle).Granted r.2 ∧
      (∀ k ∈ r.2, k ∉ used) ∧ PortInv cycle (r.2.toList ++ used) r.1 := by
  have hstart := h.start
  have hfreeLt := h.freeLt
  have hprev := @prevCycle_eq cycle (by omega) hlt
  rw [portCall, tryLowPrioAccess, hprev]
  by_cases hgrant : c.lastAccCycle < cycle - 1 ∨ c.lastFreeCycle = cycle - 1
  · rw [if_pos hgrant]
    have hslot : cycle - 1 ∉ used := by
      intro hin
      have hle := h.le _ hin
      rcases hgrant with hgap | hfree
      · omega
      · rcases h.free with hzero | hnot
        · omega
        · exact hnot (hfree ▸ hin)
    have hcycle : cycle ≠ 0 := by omega
    refine ⟨_, rfl, fun k hk => ?_, fun k hk => ?_,
      ⟨by omega, fun k hk => ?_, .inl rfl, by change 0 < cycle; omega⟩⟩
    · rw [if_neg hcycle] at hk
      cases hk
      omega
    · rw [if_neg hcycle] at hk
      cases hk
      exact hslot
    · change k ≤ max (cycle - 1) c.lastAccCycle
      rw [if_neg hcycle] at hk
      rcases List.mem_append.mp hk with hk | hk
      · rw [Option.toList_some, List.mem_singleton] at hk
        omega
      · have hle := h.le k hk
        omega
  · rw [if_neg hgrant]
    refine ⟨_, rfl, fun k hk => ?_, fun k hk => ?_,
      ⟨by omega, h.le, h.free, by change c.lastFreeCycle < cycle; omega⟩⟩
    · cases hk
    · cases hk

/-- One call keeps what the cache remembers true, and takes a slot that is free. -/
theorem PortInv.step (h : PortInv now used c) {call : PortCall} (hnow : now ≤ call.cycle)
    (hlt : call.cycle < 2 ^ 64) (hacc : call.isHigh = true → c.lastAccCycle + 1 < 2 ^ 64) :
    ∃ r, c.portCall call = some r ∧ call.Granted r.2 ∧ (∀ k ∈ r.2, k ∉ used) ∧
      PortInv call.cycle (r.2.toList ++ used) r.1 := by
  cases call with
  | highPrio cycle => exact h.high hnow hlt (hacc rfl)
  | lowPrio cycle => exact h.low hnow hlt

/-- A low-priority access leaves the slots from its cycle on as they were. -/
theorem SameAhead.low (h : SameAhead now c d) (hstart : 1 ≤ now) (hnow : now ≤ cycle)
    (hlt : cycle < 2 ^ 64) {r : TimingCache × Option Nat}
    (hr : c.portCall (.lowPrio cycle) = some r) : SameAhead cycle r.1 d := by
  intro later hlater
  have hsame := h later (by omega)
  rw [portCall, tryLowPrioAccess, prevCycle_eq (by omega) hlt] at hr
  split at hr
  · cases hr
    change max later (max (cycle - 1) c.lastAccCycle + 1) = _
    omega
  · cases hr
    exact hsame

theorem SameAhead.high (h : SameAhead now c d) (hd : d.lastFreeCycle < now)
    (hnow : now ≤ cycle) (hlt : cycle < 2 ^ 64) (hfree : c.lastFreeCycle < now)
    (hacc : c.lastAccCycle + 1 < 2 ^ 64) {r : TimingCache × Option Nat}
    (hr : c.portCall (.highPrio cycle) = some r) :
    ∃ d', d.portCall (.highPrio cycle) = some (d', r.2) ∧ SameAhead cycle r.1 d' ∧
      d'.lastFreeCycle < cycle := by
  have hsame := h cycle hnow
  rw [portCall, highPrioAccess_eq (by omega) (by omega) hlt hacc] at hr
  cases hr
  have hhigh := @highPrioAccess_eq d cycle (by omega) (by omega) hlt (by omega)
  refine ⟨_, by rw [portCall, hhigh, hsame]; rfl, fun later _ => ?_, ?_⟩
  · change max later (max cycle (c.lastAccCycle + 1) + 1) = max later (max cycle (d.lastAccCycle + 1) + 1)
    rw [hsame]
  · change (if _ then _ else _) < cycle
    split <;> omega

/-- A slot that is free goes before slots granted after it. -/
theorem fresh_cons {slot : Option Nat} {gs : List (Option Nat)} (hfresh : ∀ k ∈ slot, k ∉ used)
    (hnodup : gs.reduceOption.Nodup) (hout : ∀ k ∈ gs.reduceOption, k ∉ slot.toList ++ used) :
    (slot :: gs).reduceOption.Nodup ∧ ∀ k ∈ (slot :: gs).reduceOption, k ∉ used := by
  have hused : ∀ k ∈ gs.reduceOption, k ∉ used :=
    fun k hk hin => hout k hk (List.mem_append_right _ hin)
  cases slot with
  | none =>
    rw [List.reduceOption_cons_of_none]
    exact ⟨hnodup, hused⟩
  | some slot =>
    rw [List.reduceOption_cons_of_some]
    refine ⟨List.nodup_cons.mpr ⟨fun hin => hout slot hin (by simp), hnodup⟩, fun k hk => ?_⟩
    rcases List.mem_cons.mp hk with rfl | hk
    · exact hfresh k rfl
    · exact hused k hk

/-- What the calls are granted: free slots, no slot twice, and to the high-priority calls what
they are granted without the others. -/
theorem PortInv.grants (h : PortInv now used c) (hahead : SameAhead now c d)
    (hd : d.lastFreeCycle < now) (horder : InOrder now calls) (hfits : c.Fits calls) :
    ∃ gs, c.grants calls = some gs ∧ List.Forall₂ Granted calls gs ∧ gs.reduceOption.Nodup ∧
      (∀ k ∈ gs.reduceOption, k ∉ used) ∧
      d.grants (calls.filter isHigh) =
        some (((calls.zip gs).filter fun p => p.1.isHigh).map Prod.snd) := by
  induction calls generalizing c d now used with
  | nil => exact ⟨[], rfl, .nil, by simp, by simp, rfl⟩
  | cons call calls ih =>
    obtain ⟨hnow, hlt, horder⟩ := horder
    obtain ⟨hacc, hrest⟩ := hfits
    obtain ⟨r, hr, hgranted, hfresh, hinv⟩ := h.step hnow hlt hacc
    cases call with
    | highPrio cycle =>
      obtain ⟨d', hd', hahead', hfree'⟩ :=
        hahead.high hd hnow hlt h.freeLt (hacc rfl) hr
      change d.portCall (.highPrio cycle) = _ at hd'
      obtain ⟨gs, hgs, hall, hnodup, hout, hhigh⟩ := ih hinv hahead' hfree' horder (hrest r hr)
      obtain ⟨hnodup', hout'⟩ := fresh_cons hfresh hnodup hout
      refine ⟨r.2 :: gs, ?_, .cons hgranted hall, hnodup', hout', ?_⟩
      · rw [TimingCache.grants, hr, Option.bind_some, hgs, Option.map_some]
      · rw [List.filter_cons_of_pos rfl, List.zip_cons_cons, List.filter_cons_of_pos rfl,
          List.map_cons, TimingCache.grants, hd', Option.bind_some, hhigh, Option.map_some]
    | lowPrio cycle =>
      have hstart := h.start
      have hahead' := hahead.low (by omega) hnow hlt hr
      obtain ⟨gs, hgs, hall, hnodup, hout, hhigh⟩ :=
        ih hinv hahead' (Nat.lt_of_lt_of_le hd hnow) horder (hrest r hr)
      obtain ⟨hnodup', hout'⟩ := fresh_cons hfresh hnodup hout
      refine ⟨r.2 :: gs, ?_, .cons hgranted hall, hnodup', hout', ?_⟩
      · rw [TimingCache.grants, hr, Option.bind_some, hgs, Option.map_some]
      · rw [List.filter_cons_of_neg (by simp [isHigh]), List.zip_cons_cons,
          List.filter_cons_of_neg (by simp [isHigh])]
        exact hhigh

theorem portInv_init (numMSHRs : Nat) (care : CAREReplPolicy) :
    PortInv 2 [] (init numMSHRs care) where
  start := le_rfl
  le := by simp
  free := .inl rfl
  freeLt := Nat.two_pos

/-- No slot is granted twice, a low-priority access gets the slot before its cycle, and the
high-priority accesses get the slots they would get without the low-priority ones. -/
theorem tag_port_exclusive (numMSHRs : Nat) (care : CAREReplPolicy) (horder : InOrder 2 calls)
    (hfits : (init numMSHRs care).Fits calls) :
    ∃ gs, (init numMSHRs care).grants calls = some gs ∧ List.Forall₂ Granted calls gs ∧
      gs.reduceOption.Nodup ∧
      (init numMSHRs care).grants (calls.filter isHigh) =
        some (((calls.zip gs).filter fun p => p.1.isHigh).map Prod.snd) := by
  obtain ⟨gs, hgs, hall, hnodup, -, hhigh⟩ :=
    (portInv_init numMSHRs care).grants (fun _ _ => rfl) Nat.two_pos horder hfits
  exact ⟨gs, hgs, hall, hnodup, hhigh⟩

theorem fits_of_high_low : (init 4 (.init 4)).Fits [.highPrio 10, .lowPrio 10, .lowPrio 10] := by
  refine ⟨fun _ => by decide, fun r hr => ⟨fun h => ?_, fun r' _ => ⟨fun h => ?_, fun _ _ => ?_⟩⟩⟩
  · cases h
  · cases h
  · trivial

theorem tag_port_exclusive_high_low :
    (init 4 (.init 4)).grants [.highPrio 10, .lowPrio 10, .lowPrio 10] =
        some [some 10, some 9, none] ∧
      ∃ gs, (init 4 (.init 4)).grants [.highPrio 10, .lowPrio 10, .lowPrio 10] = some gs ∧
        gs.reduceOption.Nodup := by
  obtain ⟨gs, hgs, -, hnodup, -⟩ := @tag_port_exclusive
    [.highPrio 10, .lowPrio 10, .lowPrio 10] 4 (.init 4)
    (by simp [InOrder, PortCall.cycle]) fits_of_high_low
  exact ⟨by decide, gs, hgs, hnodup⟩

/-- Past the last slot that a cycle can name, `lastAccCycle + 1` wraps. -/
theorem last_slot_granted_twice : ¬ ∀ (numMSHRs : Nat) (care : CAREReplPolicy)
    (calls : List PortCall), InOrder 2 calls →
    ∃ gs, (init numMSHRs care).grants calls = some gs ∧ gs.reduceOption.Nodup := by
  intro hall
  obtain ⟨gs, hgs, hnodup⟩ := hall 4 (.init 4)
    [.highPrio (2 ^ 64 - 1), .highPrio (2 ^ 64 - 1)] (by simp [InOrder, PortCall.cycle])
  have htwice : (init 4 (.init 4)).grants [.highPrio (2 ^ 64 - 1), .highPrio (2 ^ 64 - 1)] =
      some [some (2 ^ 64 - 1), some (2 ^ 64 - 1)] := by decide
  rw [htwice] at hgs
  cases hgs
  exact absurd hnodup (by decide)

end TimingCache

end ZSim
