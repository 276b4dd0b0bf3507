import ZSim.DDRLegalRuns

/-! The translations between the clocks of the system and the memory on 64-bit words. They
are the ones of natural numbers as far as the products fit. -/

namespace ZSim

namespace DDRConfig

variable (cfg : DDRConfig)

def sysFreq64 : BitVec 64 := BitVec.ofNat 64 cfg.sysFreqKHz

def memFreq64 : BitVec 64 := BitVec.ofNat 64 cfg.memFreqKHz

def sysToMemCycle64 (sysCycle : BitVec 64) : BitVec 64 :=
  sysCycle * cfg.memFreq64 / cfg.sysFreq64 + 1

def memToSysCycle64 (memCycle : BitVec 64) : BitVec 64 :=
  (memCycle + 1) * cfg.sysFreq64 / cfg.memFreq64

def matchingMemToSysCycle64 (memCycle : BitVec 64) : BitVec 64 :=
  (2 * memCycle - 1) * cfg.sysFreq64 / cfg.memFreq64 / 2

/-- The product that translates a system cycle fits in 64 bits. -/
def SysFits (sysCycle : BitVec 64) : Prop := sysCycle.toNat * cfg.memFreqKHz < 2 ^ 64

/-- The product that translates a memory cycle fits in 64 bits. -/
def MemFits (memCycle : BitVec 64) : Prop := (memCycle.toNat + 1) * cfg.sysFreqKHz < 2 ^ 64

def MatchingFits (memCycle : BitVec 64) : Prop :=
  (2 * memCycle.toNat - 1) * cfg.sysFreqKHz < 2 ^ 64

instance (m : BitVec 64) : Decidable (cfg.MatchingFits m) := inferInstanceAs (Decidable (_ < _))

variable {cfg}

theorem toNat_sysFreq64 (hsys : cfg.sysFreqKHz < 2 ^ 64) :
    cfg.sysFreq64.toNat = cfg.sysFreqKHz := by
  rw [sysFreq64, BitVec.toNat_ofNat, Nat.mod_eq_of_lt hsys]

theorem toNat_memFreq64 (hsys : cfg.sysFreqKHz < 2 ^ 64) :
    cfg.memFreq64.toNat = cfg.memFreqKHz := by
  have hfreq := cfg.freq
  rw [memFreq64, BitVec.toNat_ofNat, Nat.mod_eq_of_lt (by omega)]

theorem toNat_sysToMemCycle64 (hsys : cfg.sysFreqKHz < 2 ^ 64) {sysCycle : BitVec 64}
    (hfits : cfg.SysFits sysCycle) :
    (cfg.sysToMemCycle64 sysCycle).toNat = cfg.sysToMemCycle sysCycle.toNat := by
  have hfreq := cfg.freq
  have hpos := cfg.memFreq_pos
  have hquot : sysCycle.toNat * cfg.memFreqKHz / cfg.sysFreqKHz + 1 < 2 ^ 64 := by
    have hhalf : sysCycle.toNat * cfg.memFreqKHz / cfg.sysFreqKHz ≤
        sysCycle.toNat * cfg.memFreqKHz / 2 := Nat.div_le_div_left (by omega) (by decide)
    rw [SysFits] at hfits
    omega
  rw [sysToMemCycle64, BitVec.toNat_add, BitVec.toNat_udiv, BitVec.toNat_mul,
    toNat_memFreq64 hsys, toNat_sysFreq64 hsys, Nat.mod_eq_of_lt hfits]
  exact Nat.mod_eq_of_lt hquot

theorem toNat_memToSysCycle64 (hsys : cfg.sysFreqKHz < 2 ^ 64) {memCycle : BitVec 64}
    (hfits : cfg.MemFits memCycle) :
    (cfg.memToSysCycle64 memCycle).toNat = cfg.memToSysCycle memCycle.toNat := by
  have hfreq := cfg.freq
  have hsucc : memCycle.toNat + 1 < 2 ^ 64 :=
    lt_of_le_of_lt (Nat.le_mul_of_pos_right _ (by omega)) hfits
  have hadd : (memCycle + 1).toNat = memCycle.toNat + 1 := by
    rw [BitVec.toNat_add]
    exact Nat.mod_eq_of_lt hsucc
  rw [memToSysCycle64, BitVec.toNat_udiv, BitVec.toNat_mul, hadd, toNat_memFreq64 hsys,
    toNat_sysFreq64 hsys, Nat.mod_eq_of_lt hfits, memToSysCycle]

theorem toNat_matchingMemToSysCycle64 (hsys : cfg.sysFreqKHz < 2 ^ 64) {memCycle : BitVec 64}
    (hpos : 1 ≤ memCycle.toNat) (hfits : cfg.MatchingFits memCycle) :
    (cfg.matchingMemToSysCycle64 memCycle).toNat = cfg.matchingMemToSysCycle memCycle.toNat := by
  have hfreq := cfg.freq
  have hodd : 2 * memCycle.toNat - 1 < 2 ^ 64 :=
    lt_of_le_of_lt (Nat.le_mul_of_pos_right _ (by omega)) hfits
  have hsub : (2 * memCycle - 1).toNat = 2 * memCycle.toNat - 1 := by
    have htwo : (2 : BitVec 64).toNat = 2 := rfl
    have hone : (1 : BitVec 64).toNat = 1 := rfl
    rw [BitVec.toNat_sub, BitVec.toNat_mul, htwo, hone]
    omega
  rw [matchingMemToSysCycle64, BitVec.toNat_udiv, BitVec.toNat_udiv, BitVec.toNat_mul, hsub,
    toNat_memFreq64 hsys, toNat_sysFreq64 hsys, Nat.mod_eq_of_lt hfits, matchingMemToSysCycle]
  rfl

/-- A memory cycle whose own product fits comes from a system cycle whose product fits. -/
theorem sysFits_matching (hsys : cfg.sysFreqKHz < 2 ^ 64) {memCycle : BitVec 64}
    (hpos : 1 ≤ memCycle.toNat) (hfits : cfg.MatchingFits memCycle) :
    cfg.SysFits (cfg.matchingMemToSysCycle64 memCycle) := by
  rw [SysFits, toNat_matchingMemToSysCycle64 hsys hpos hfits, matchingMemToSysCycle]
  calc (2 * memCycle.toNat - 1) * cfg.sysFreqKHz / cfg.memFreqKHz / 2 * cfg.memFreqKHz
      ≤ (2 * memCycle.toNat - 1) * cfg.sysFreqKHz / cfg.memFreqKHz * cfg.memFreqKHz :=
        Nat.mul_le_mul_right _ (Nat.div_le_self _ _)
    _ ≤ (2 * memCycle.toNat - 1) * cfg.sysFreqKHz := Nat.div_mul_le_self _ _
    _ < 2 ^ 64 := hfits

theorem clock_round_trip (hsys : cfg.sysFreqKHz < 2 ^ 64) :
    (∀ m, 1 ≤ m → cfg.MatchingFits m → cfg.sysToMemCycle64 (cfg.matchingMemToSysCycle64 m) = m) ∧
      (∀ a b, a ≤ b → cfg.SysFits b → cfg.sysToMemCycle64 a ≤ cfg.sysToMemCycle64 b) ∧
      ∀ s, cfg.SysFits s → cfg.MemFits (cfg.sysToMemCycle64 s) →
        s ≤ cfg.memToSysCycle64 (cfg.sysToMemCycle64 s) := by
  refine ⟨fun m hm hfits => ?_, fun a b hab hfits => ?_, fun s hfits hmem => ?_⟩
  · have hpos : 1 ≤ m.toNat := BitVec.le_def.mp hm
    apply BitVec.eq_of_toNat_eq
    rw [toNat_sysToMemCycle64 hsys (sysFits_matching hsys hpos hfits),
      toNat_matchingMemToSysCycle64 hsys hpos hfits]
    exact sysToMemCycle_matching hpos
  · have hle : a.toNat ≤ b.toNat := BitVec.le_def.mp hab
    have hfits' : cfg.SysFits a := lt_of_le_of_lt (Nat.mul_le_mul_right _ hle) hfits
    rw [BitVec.le_def, toNat_sysToMemCycle64 hsys hfits, toNat_sysToMemCycle64 hsys hfits']
    exact sysToMemCycle_mono hle
  · rw [BitVec.le_def, toNat_memToSysCycle64 hsys hmem, toNat_sysToMemCycle64 hsys hfits]
    exact le_memToSysCycle le_rfl

theorem clock_round_trip_channel :
    DDRMemory.channel.sysFreqKHz < 2 ^ 64 ∧ DDRMemory.channel.MatchingFits 1000 ∧
      DDRMemory.channel.sysToMemCycle64 (DDRMemory.channel.matchingMemToSysCycle64 1000) = 1000 :=
  ⟨by decide, by decide,
    (@clock_round_trip DDRMemory.channel (by decide)).1 1000 (by decide) (by decide)⟩

/-- After some hours of system cycles the product overflows. -/
theorem sysToMemCycle64_not_mono : ¬ ∀ cfg : DDRConfig, cfg.sysFreqKHz < 2 ^ 64 →
    ∀ a b, a ≤ b → cfg.sysToMemCycle64 a ≤ cfg.sysToMemCycle64 b := by
  intro hmono
  have hle := hmono DDRMemory.channel (by decide) 27670143780708 27670143780709 (by decide)
  exact absurd hle (by decide)

end DDRConfig

end ZSim
