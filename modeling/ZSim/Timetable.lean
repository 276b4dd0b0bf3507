import ZSim.OOOWindow

/-! The ports of the out-of-order core as a timetable: what is taken in every cycle, past ones
included, with no window over them. A request takes the first cycle that has a free port. -/

namespace ZSim.OOO

abbrev Grant := Nat × Nat

namespace WinCycle

def IsFree (portMask : BitVec 8) (wc : WinCycle) : Prop := ~~~wc.occUnits &&& portMask ≠ 0

instance (portMask : BitVec 8) (wc : WinCycle) : Decidable (wc.IsFree portMask) :=
  inferInstanceAs (Decidable (_ ≠ _))

def ports (touchOccupancy : Bool) (portMask : BitVec 8) (wc : WinCycle) : List Nat :=
  let availMask := ~~~wc.occUnits &&& portMask
  if touchOccupancy then [firstPort availMask]
  else (List.range 8).filter fun i => availMask.getLsbD i

end WinCycle

variable {touch : Bool} {portMask mask : BitVec 8} {wc wc' : WinCycle} {port : Nat}

theorem getLsbD_port (n p : Nat) :
    ((1 <<< n : Nat) : BitVec 8).getLsbD p = true ↔ p < 8 ∧ p = n := by
  rw [BitVec.natCast_eq_ofNat, BitVec.getLsbD_ofNat, Nat.one_shiftLeft, Nat.testBit_two_pow,
    Bool.and_eq_true, decide_eq_true_eq, decide_eq_true_eq, eq_comm (a := n)]

theorem firstPort_spec (h : mask ≠ 0) : firstPort mask < 8 ∧ mask.getLsbD (firstPort mask) := by
  unfold firstPort
  cases hfind : (List.range 8).find? fun i => mask.getLsbD i with
  | none =>
    rw [List.find?_eq_none] at hfind
    apply absurd _ h
    apply BitVec.eq_of_getLsbD_eq
    intro i hi
    exact (Bool.eq_false_iff.mpr (hfind i (List.mem_range.mpr hi))).trans BitVec.getLsbD_zero.symm
  | some i =>
    exact ⟨List.mem_range.mp (List.mem_of_find?_eq_some hfind), List.find?_some hfind⟩

/-- A request that takes ports of a cycle. -/
structure Takes (touch : Bool) (portMask : BitVec 8) (wc wc' : WinCycle) : Prop where
  occUnits : ∀ p, wc'.occUnits.getLsbD p = true ↔
    wc.occUnits.getLsbD p = true ∨ p ∈ wc.ports touch portMask
  count : wc'.count = if touch then wc.count + 1 else wc.count
  nodup : (wc.ports touch portMask).Nodup
  fresh : ∀ p ∈ wc.ports touch portMask, wc.occUnits.getLsbD p = false ∧ portMask.getLsbD p
  ports_ne : wc.ports touch portMask ≠ []

theorem Takes.occUnits_ne (h : Takes touch portMask wc wc') : wc'.occUnits ≠ 0 := by
  intro hzero
  obtain ⟨p, hp⟩ := List.exists_mem_of_ne_nil _ h.ports_ne
  have hset := (h.occUnits p).mpr (Or.inr hp)
  rw [hzero] at hset
  exact Bool.false_ne_true (BitVec.getLsbD_zero.symm.trans hset)

theorem Takes.shadow_full (h : Takes false portMask wc wc') : ¬ wc'.IsFree portMask := by
  intro hfree
  have hfirst := (firstPort_spec hfree).2
  rw [BitVec.getLsbD_and, BitVec.getLsbD_not, Bool.and_eq_true, Bool.and_eq_true,
    Bool.not_eq_true'] at hfirst
  obtain ⟨⟨hlt, hclear⟩, hmask⟩ := hfirst
  have hlt := of_decide_eq_true hlt
  have hnot := mt (h.occUnits _).mpr (by rw [hclear]; exact Bool.false_ne_true)
  rw [not_or] at hnot
  apply hnot.2
  rw [WinCycle.ports, if_neg Bool.false_ne_true, List.mem_filter, List.mem_range]
  refine ⟨hlt, ?_⟩
  rw [BitVec.getLsbD_and, BitVec.getLsbD_not, hmask, Bool.and_true, decide_eq_true hlt,
    Bool.true_and, Bool.not_eq_true']
  exact Bool.eq_false_iff.mpr hnot.1

theorem trySchedule_none : trySchedule touch wc portMask = none ↔ ¬ wc.IsFree portMask := by
  unfold trySchedule WinCycle.IsFree
  dsimp only
  split_ifs with hzero htouch
  · exact iff_of_true rfl (not_not_intro hzero)
  · exact iff_of_false id (not_not_intro hzero)
  · exact iff_of_false id (not_not_intro hzero)

theorem trySchedule_port (h : trySchedule true wc portMask = some (wc', port)) :
    port = firstPort (~~~wc.occUnits &&& portMask) ∧ port < 8 := by
  unfold trySchedule at h
  dsimp only at h
  split at h
  · cases h
  · rename_i hne
    cases h
    exact ⟨rfl, (firstPort_spec hne).1⟩

theorem trySchedule_takes (h : trySchedule touch wc portMask = some (wc', port)) :
    Takes touch portMask wc wc' := by
  unfold trySchedule at h
  dsimp only at h
  split at h
  · cases h
  rename_i hne
  have hfirst := firstPort_spec hne
  have havail : ∀ p, (~~~wc.occUnits &&& portMask).getLsbD p = true →
      p < 8 ∧ wc.occUnits.getLsbD p = false ∧ portMask.getLsbD p := by
    intro p hp
    rw [BitVec.getLsbD_and, BitVec.getLsbD_not, Bool.and_eq_true, Bool.and_eq_true,
      Bool.not_eq_true'] at hp
    exact ⟨of_decide_eq_true hp.1.1, hp.1.2, hp.2⟩
  cases touch with
  | true =>
    cases h
    have hports : wc.ports true portMask = [firstPort (~~~wc.occUnits &&& portMask)] := rfl
    refine ⟨?_, rfl, ?_, ?_, ?_⟩
    · intro p
      rw [hports, List.mem_singleton, BitVec.getLsbD_or, Bool.or_eq_true, getLsbD_port]
      constructor
      · rintro (hocc | hport)
        · exact Or.inl hocc
        · exact Or.inr hport.2
      · rintro (hocc | rfl)
        · exact Or.inl hocc
        · exact Or.inr ⟨hfirst.1, rfl⟩
    · rw [hports]
      exact List.nodup_singleton _
    · rw [hports]
      intro p hp
      rw [List.mem_singleton] at hp
      rw [hp]
      exact (havail _ hfirst.2).2
    · rw [hports]
      exact List.cons_ne_nil _ _
  | false =>
    cases h
    have hports : ∀ p, p ∈ wc.ports false portMask ↔
        p < 8 ∧ (~~~wc.occUnits &&& portMask).getLsbD p = true := by
      intro p
      rw [WinCycle.ports, if_neg Bool.false_ne_true, List.mem_filter, List.mem_range]
    refine ⟨?_, rfl, List.nodup_range.filter _, ?_, ?_⟩
    · intro p
      rw [hports, BitVec.getLsbD_or, Bool.or_eq_true]
      constructor
      · rintro (hocc | hmask)
        · exact Or.inl hocc
        · by_cases hocc : wc.occUnits.getLsbD p = true
          · exact Or.inl hocc
          · have hlt := BitVec.lt_of_getLsbD hmask
            refine Or.inr ⟨hlt, ?_⟩
            rw [BitVec.getLsbD_and, BitVec.getLsbD_not, hmask, Bool.eq_false_iff.mpr hocc,
              decide_eq_true hlt]
            rfl
      · rintro (hocc | hport)
        · exact Or.inl hocc
        · exact Or.inr (havail p hport.2).2.2
    · intro p hp
      exact (havail p ((hports p).mp hp).2).2
    · exact List.ne_nil_of_mem ((hports _).mpr hfirst)

/-- What is taken in every cycle, and the grants in order. -/
structure Timetable where
  cells : Nat → WinCycle
  now : Nat
  occupancy : Nat
  lastPort : Nat
  granted : List Grant

namespace Timetable

variable (WSZ : Nat) (T : Timetable)

def freeFrom (portMask : BitVec 8) (req : Nat) : Set Nat :=
  {t | max req T.now ≤ t ∧ (T.cells t).IsFree portMask}

open Classical in
noncomputable def firstFree (portMask : BitVec 8) (req : Nat) : Option Nat :=
  if (T.freeFrom portMask req).Nonempty then some (sInf (T.freeFrom portMask req)) else none

def put (touch : Bool) (portMask : BitVec 8) (t : Nat) (wc : WinCycle) : Timetable :=
  { T with
    cells := Function.update T.cells t wc
    occupancy := if touch then T.occupancy + 1 else T.occupancy
    granted := T.granted ++ ((T.cells t).ports touch portMask).map fun p => (t, p) }

noncomputable def place (touch : Bool) (req : Nat) (portMask : BitVec 8) :
    Option (Timetable × Nat × Nat) :=
  match T.firstFree portMask req with
  | some t =>
    match trySchedule touch (T.cells t) portMask with
    | some (wc, port) => some (T.put touch portMask t wc, t, port)
    | none => none
  | none => none

/-- A cycle passes. What was taken in it stays on record. -/
def advance : Timetable :=
  { T with now := T.now + 1, occupancy := T.occupancy - (T.cells T.now).count }

def drain : Nat → Timetable → Option Timetable
  | 0, T => if T.occupancy = WSZ then none else some T
  | fuel + 1, T => if T.occupancy = WSZ then drain fuel T.advance else some T

noncomputable def placeExtra (portMask : BitVec 8) : Nat → Nat → Timetable → Option Timetable
  | 0, _, T => some T
  | n + 1, extraSlotCycle, T =>
    match T.place false extraSlotCycle portMask with
    | some (T, extraSlotCycle, _) => placeExtra portMask n (extraSlotCycle + 1) T
    | none => none

def recordPort (extraSlots port : Nat) : Timetable :=
  if extraSlots = 0 then T else { T with lastPort := port }

noncomputable def schedule (fuel schedCycle : Nat) (portMask : BitVec 8) (extraSlots : Nat) :
    Option (Timetable × Nat) := do
  let T ← drain WSZ fuel T
  let (T, schedCycle, port) ← T.place true schedCycle portMask
  let T := T.recordPort extraSlots port
  let T ← placeExtra (1 <<< T.lastPort) extraSlots (schedCycle + 1) T
  guard (T.occupancy ≤ WSZ)
  some (T, schedCycle)

noncomputable def poisonFrom (targetCycle : Nat) (portMask : BitVec 8) :
    Nat → Nat → Timetable → Option Timetable
  | 0, poisonCycle, T => if poisonCycle < targetCycle then none else some T
  | fuel + 1, poisonCycle, T =>
    if poisonCycle < targetCycle then
      match T.place false poisonCycle portMask with
      | some (T, poisonCycle, _) => poisonFrom targetCycle portMask fuel poisonCycle T
      | none => none
    else some T

/-- The occupancy is the number of uops from now on, and no port is granted twice. -/
structure Sound (T : Timetable) : Prop where
  finite : ∃ n, T.now ≤ n ∧ ∀ t, n ≤ t → T.cells t = .empty
  sum : ∀ n, T.now ≤ n → (∀ t, n ≤ t → T.cells t = .empty) →
    ∑ t ∈ Finset.Ico T.now n, (T.cells t).count = T.occupancy
  taken : ∀ g ∈ T.granted, (T.cells g.1).occUnits.getLsbD g.2 = true
  nodup : T.granted.Nodup

def init (start : Nat) : Timetable := ⟨fun _ => .empty, start, 0, 0, []⟩

variable {WSZ T} {T' : Timetable} {req t found : Nat}

theorem init_sound (start : Nat) : (init start).Sound := by
  refine ⟨⟨start, Nat.le_refl _, fun _ _ => rfl⟩, ?_, ?_, List.nodup_nil⟩
  · intro n _ _
    exact Finset.sum_const_zero
  · intro g hg
    cases hg

theorem put_self : (T.put touch portMask t wc).cells t = wc := Function.update_self ..

theorem put_of_ne {u : Nat} (h : u ≠ t) : (T.put touch portMask t wc).cells u = T.cells u :=
  Function.update_of_ne h ..

theorem put_cells (u : Nat) :
    (T.put touch portMask t wc).cells u = if u = t then wc else T.cells u :=
  Function.update_apply ..

theorem firstFree_eq_some : T.firstFree portMask req = some t ↔
    IsLeast (T.freeFrom portMask req) t := by
  unfold firstFree
  split_ifs with hne
  · have hleast : IsLeast (T.freeFrom portMask req) (sInf (T.freeFrom portMask req)) :=
      ⟨Nat.sInf_mem hne, fun _ hu => Nat.sInf_le hu⟩
    rw [Option.some.injEq]
    constructor
    · rintro rfl
      exact hleast
    · exact hleast.unique
  · exact iff_of_false (fun h => nomatch h) fun h => hne ⟨t, h.1⟩

theorem place_eq_some : T.place touch req portMask = some (T', t, port) ↔
    IsLeast (T.freeFrom portMask req) t ∧
      ∃ wc, trySchedule touch (T.cells t) portMask = some (wc, port) ∧
        T' = T.put touch portMask t wc := by
  unfold place
  constructor
  · intro h
    split at h
    · rename_i t₁ hfirst
      split at h
      · rename_i wc port₁ htry
        cases h
        exact ⟨firstFree_eq_some.mp hfirst, wc, htry, rfl⟩
      · cases h
    · cases h
  · rintro ⟨hleast, wc, htry, rfl⟩
    rw [firstFree_eq_some.mpr hleast]
    dsimp only
    rw [htry]

theorem place_of_isLeast (hleast : IsLeast (T.freeFrom portMask req) t) :
    ∃ wc port, trySchedule touch (T.cells t) portMask = some (wc, port) ∧
      T.place touch req portMask = some (T.put touch portMask t wc, t, port) := by
  cases htry : trySchedule touch (T.cells t) portMask with
  | none => exact absurd hleast.1.2 (trySchedule_none.mp htry)
  | some r => exact ⟨r.1, r.2, rfl, place_eq_some.mpr ⟨hleast, r.1, htry, rfl⟩⟩

theorem isFree_empty (hmask : portMask ≠ 0) : WinCycle.empty.IsFree portMask := by
  intro h
  apply hmask
  rw [← h]
  exact (BitVec.allOnes_and (x := portMask)).symm

theorem place_some (touch : Bool) (req : Nat) (hT : T.Sound) (hmask : portMask ≠ 0) :
    ∃ T' t port, T.place touch req portMask = some (T', t, port) := by
  obtain ⟨n, -, hempty⟩ := hT.finite
  have hne : (T.freeFrom portMask req).Nonempty := by
    refine ⟨max (max req T.now) n, le_max_left _ _, ?_⟩
    rw [hempty _ (le_max_right _ _)]
    exact isFree_empty hmask
  have hleast : IsLeast (T.freeFrom portMask req) (sInf (T.freeFrom portMask req)) :=
    ⟨Nat.sInf_mem hne, fun _ hu => Nat.sInf_le hu⟩
  obtain ⟨wc, port, -, hplace⟩ := @place_of_isLeast touch _ _ _ _ hleast
  exact ⟨_, _, port, hplace⟩

theorem place_fields (h : T.place touch req portMask = some (T', t, port)) :
    T'.now = T.now ∧ T'.lastPort = T.lastPort ∧
      T'.occupancy = if touch then T.occupancy + 1 else T.occupancy := by
  obtain ⟨-, wc, -, rfl⟩ := place_eq_some.mp h
  exact ⟨rfl, rfl, rfl⟩

theorem place_shadow (h : T.place false req portMask = some (T', t, port)) :
    max req T.now ≤ t ∧ ¬ (T'.cells t).IsFree portMask := by
  obtain ⟨hleast, wc, htry, rfl⟩ := place_eq_some.mp h
  rw [put_self]
  exact ⟨hleast.1.1, (trySchedule_takes htry).shadow_full⟩

/-- A request adds its uop to the sum, and takes ports that no earlier one took. -/
theorem place_sound (hT : T.Sound) (h : T.place touch req portMask = some (T', t, port)) :
    T'.Sound := by
  obtain ⟨hleast, wc, htry, rfl⟩ := place_eq_some.mp h
  have htakes := trySchedule_takes htry
  have hnow : T.now ≤ t := (le_max_right _ _).trans hleast.1.1
  refine ⟨?_, ?_, ?_, ?_⟩
  · obtain ⟨n, hn, hempty⟩ := hT.finite
    refine ⟨max n (t + 1), hn.trans (le_max_left _ _), ?_⟩
    intro u hu
    rw [put_of_ne (by omega)]
    exact hempty u (by omega)
  · intro n hn hempty
    have htn : t < n := by
      by_contra hge
      have := hempty t (by omega)
      rw [put_self] at this
      exact htakes.occUnits_ne (congrArg WinCycle.occUnits this)
    have hold : ∀ u, n ≤ u → T.cells u = .empty := by
      intro u hu
      exact (put_of_ne (by omega)).symm.trans (hempty u hu)
    have hmem : t ∈ Finset.Ico T.now n := Finset.mem_Ico.mpr ⟨hnow, htn⟩
    have hrest : ∑ u ∈ (Finset.Ico T.now n).erase t, ((T.put touch portMask t wc).cells u).count =
        ∑ u ∈ (Finset.Ico T.now n).erase t, (T.cells u).count :=
      Finset.sum_congr rfl fun u hu => by rw [put_of_ne (Finset.ne_of_mem_erase hu)]
    have hsum := hT.sum n hn hold
    rw [← Finset.add_sum_erase _ _ hmem] at hsum
    show ∑ u ∈ Finset.Ico T.now n, _ = _
    rw [← Finset.add_sum_erase _ _ hmem, hrest, put_self, htakes.count]
    show _ = if touch then T.occupancy + 1 else T.occupancy
    split <;> omega
  · intro g hg
    have hgrow : ∀ u p, (T.cells u).occUnits.getLsbD p = true →
        ((T.put touch portMask t wc).cells u).occUnits.getLsbD p = true := by
      intro u p hp
      by_cases hu : u = t
      · rw [hu] at hp ⊢
        rw [put_self]
        exact (htakes.occUnits p).mpr (Or.inl hp)
      · rw [put_of_ne hu]
        exact hp
    rcases List.mem_append.mp hg with hold | hnew
    · exact hgrow g.1 g.2 (hT.taken g hold)
    · obtain ⟨p, hp, rfl⟩ := List.mem_map.mp hnew
      rw [put_self]
      exact (htakes.occUnits p).mpr (Or.inr hp)
  · apply List.nodup_append'.mpr
    refine ⟨hT.nodup, htakes.nodup.map fun p q hpq => (Prod.mk.inj hpq).2, ?_⟩
    intro g hold hnew
    obtain ⟨p, hp, rfl⟩ := List.mem_map.mp hnew
    have htaken := hT.taken _ hold
    rw [(htakes.fresh p hp).1] at htaken
    cases htaken

theorem advance_sound (hT : T.Sound) : T.advance.Sound := by
  refine ⟨?_, ?_, hT.taken, hT.nodup⟩
  · obtain ⟨n, hn, hempty⟩ := hT.finite
    exact ⟨n + 1, Nat.succ_le_succ hn, fun t ht => hempty t (by omega)⟩
  · intro n hn hempty
    have hlt : T.now < n := hn
    have hsum := hT.sum n (by omega) hempty
    rw [Finset.sum_eq_sum_Ico_succ_bot hlt] at hsum
    show ∑ t ∈ Finset.Ico (T.now + 1) n, (T.cells t).count = T.occupancy - _
    omega

theorem advance_iterate (n : Nat) : (advance^[n] T).cells = T.cells ∧
    (advance^[n] T).now = T.now + n ∧ (advance^[n] T).granted = T.granted ∧
    (advance^[n] T).lastPort = T.lastPort ∧ (advance^[n] T).occupancy ≤ T.occupancy := by
  induction n with
  | zero => exact ⟨rfl, rfl, rfl, rfl, Nat.le_refl _⟩
  | succ n ih =>
    obtain ⟨hcells, hnow, hgranted, hlast, hocc⟩ := ih
    rw [Function.iterate_succ_apply']
    exact ⟨hcells, congrArg (· + 1) hnow, hgranted, hlast, (Nat.sub_le _ _).trans hocc⟩

theorem advance_iterate_sound (hT : T.Sound) (n : Nat) : (advance^[n] T).Sound := by
  induction n with
  | zero => exact hT
  | succ n ih =>
    rw [Function.iterate_succ_apply']
    exact advance_sound ih

theorem drain_spec {fuel : Nat} (hT : T.Sound) (hle : T.occupancy ≤ WSZ)
    (h : drain WSZ fuel T = some T') :
    T'.Sound ∧ T'.occupancy < WSZ ∧ T'.cells = T.cells ∧ T.now ≤ T'.now := by
  induction fuel generalizing T with
  | zero =>
    rw [drain] at h
    split at h
    · cases h
    · rename_i hne
      cases h
      exact ⟨hT, lt_of_le_of_ne hle hne, rfl, Nat.le_refl _⟩
  | succ fuel ih =>
    rw [drain] at h
    split at h
    · have hadv : T.advance.occupancy ≤ WSZ := (Nat.sub_le _ _).trans hle
      obtain ⟨hsound, hroom, hcells, hnow⟩ := ih (advance_sound hT) hadv h
      exact ⟨hsound, hroom, hcells, (Nat.le_succ _).trans hnow⟩
    · rename_i hne
      cases h
      exact ⟨hT, lt_of_le_of_ne hle hne, rfl, Nat.le_refl _⟩

theorem drain_granted {fuel : Nat} (h : drain WSZ fuel T = some T') :
    T'.granted = T.granted := by
  induction fuel generalizing T with
  | zero =>
    rw [drain] at h
    split at h
    · cases h
    · cases h
      rfl
  | succ fuel ih =>
    rw [drain] at h
    split at h
    · exact @ih T.advance h
    · cases h
      rfl

theorem now_lt_of_occupied {n : Nat} (hempty : ∀ t, n ≤ t → T.cells t = .empty) (hT : T.Sound)
    (hocc : T.occupancy ≠ 0) : T.now < n := by
  by_contra hge
  apply hocc
  rw [← hT.sum T.now (Nat.le_refl _) fun t ht => hempty t (by omega), Finset.Ico_self,
    Finset.sum_empty]

theorem drain_some (hWSZ : 0 < WSZ) {n : Nat} (hempty : ∀ t, n ≤ t → T.cells t = .empty)
    (hT : T.Sound) {fuel : Nat} (hfuel : n - T.now ≤ fuel) :
    ∃ T', drain WSZ fuel T = some T' := by
  induction fuel generalizing T with
  | zero =>
    refine ⟨T, ?_⟩
    rw [drain, if_neg]
    intro hfull
    have := now_lt_of_occupied hempty hT (by omega)
    omega
  | succ fuel ih =>
    rw [drain]
    split
    · apply @ih T.advance hempty (advance_sound hT)
      show n - (T.now + 1) ≤ fuel
      omega
    · exact ⟨T, rfl⟩

theorem placeExtra_spec {n : Nat} (cycle : Nat) (hT : T.Sound) (hmask : portMask ≠ 0) :
    ∃ T', placeExtra portMask n cycle T = some T' ∧ T'.Sound ∧ T'.occupancy = T.occupancy ∧
      T'.now = T.now := by
  induction n generalizing T cycle with
  | zero => exact ⟨T, rfl, hT, rfl, rfl⟩
  | succ n ih =>
    obtain ⟨T₁, t, port, hplace⟩ := place_some false cycle hT hmask
    obtain ⟨hnow, -, hocc⟩ := place_fields hplace
    obtain ⟨T', hextra, hsound, hocc', hnow'⟩ := ih (t + 1) (place_sound hT hplace)
    refine ⟨T', ?_, hsound, hocc'.trans hocc, hnow'.trans hnow⟩
    rw [placeExtra, hplace]
    exact hextra

theorem portMask_ne (h : port < 8) : ((1 <<< port : Nat) : BitVec 8) ≠ 0 := by
  intro hzero
  have hset := (getLsbD_port port port).mpr ⟨h, rfl⟩
  rw [hzero] at hset
  exact Bool.false_ne_true (BitVec.getLsbD_zero.symm.trans hset)

/-- What `schedule` does to a timetable. -/
structure Scheduled (WSZ : Nat) (portMask : BitVec 8) (req : Nat) (T T' : Timetable)
    (found : Nat) : Prop where
  sound : T'.Sound
  room : T'.occupancy ≤ WSZ
  now : T.now ≤ T'.now
  first : IsLeast {t | max req T'.now ≤ t ∧ (T.cells t).IsFree portMask} found

theorem schedule_of_drain {T₁ : Timetable} {fuel : Nat} (req extraSlots : Nat) (hT : T.Sound)
    (hle : T.occupancy ≤ WSZ) (hmask : portMask ≠ 0) (hdrain : drain WSZ fuel T = some T₁) :
    ∃ T' found, T.schedule WSZ fuel req portMask extraSlots = some (T', found) ∧
      Scheduled WSZ portMask req T T' found := by
  obtain ⟨hsound₁, hroom, hcells, hnow⟩ := drain_spec hT hle hdrain
  obtain ⟨T₂, found, port, hplace⟩ := place_some true req hsound₁ hmask
  have hsound₂ := place_sound hsound₁ hplace
  obtain ⟨hnow₂, -, hocc₂⟩ := place_fields hplace
  rw [if_pos rfl] at hocc₂
  obtain ⟨hleast, wc, htry, -⟩ := place_eq_some.mp hplace
  have hextra : ∃ T', placeExtra
      (1 <<< (T₂.recordPort extraSlots port).lastPort) extraSlots (found + 1)
      (T₂.recordPort extraSlots port) = some T' ∧
      T'.Sound ∧ T'.occupancy = T₂.occupancy ∧ T'.now = T₂.now := by
    cases extraSlots with
    | zero => exact ⟨T₂, rfl, hsound₂, rfl, rfl⟩
    | succ n =>
      exact @placeExtra_spec _ { T₂ with lastPort := port } _ _
        ⟨hsound₂.finite, hsound₂.sum, hsound₂.taken, hsound₂.nodup⟩
        (portMask_ne (trySchedule_port htry).2)
  obtain ⟨T', hplaced, hsound, hocc, hnow'⟩ := hextra
  have hroom' : T'.occupancy ≤ WSZ := by omega
  refine ⟨T', found, ?_, hsound, hroom', ?_, ?_⟩
  · simp only [schedule, hdrain, hplace, hplaced, Option.bind_eq_bind, Option.bind_some,
      hroom', guard, if_true, Option.pure_def]
  · rw [hnow', hnow₂]
    exact hnow
  · rw [hnow', hnow₂, ← hcells]
    exact hleast

theorem schedule_spec {fuel extraSlots : Nat} (hT : T.Sound) (hle : T.occupancy ≤ WSZ)
    (hmask : portMask ≠ 0)
    (h : T.schedule WSZ fuel req portMask extraSlots = some (T', found)) :
    Scheduled WSZ portMask req T T' found := by
  have hdrain : ∃ T₁, drain WSZ fuel T = some T₁ := by
    simp only [schedule, Option.bind_eq_bind, Option.bind_eq_some_iff] at h
    obtain ⟨T₁, hdrain, -⟩ := h
    exact ⟨T₁, hdrain⟩
  obtain ⟨T₁, hdrain⟩ := hdrain
  obtain ⟨T₂, found₂, hsched, hspec⟩ := schedule_of_drain req extraSlots
    hT hle hmask hdrain
  rw [h] at hsched
  cases hsched
  exact hspec

theorem schedule_some {extraSlots : Nat} (hWSZ : 0 < WSZ) (hT : T.Sound)
    (hle : T.occupancy ≤ WSZ) (hmask : portMask ≠ 0) : ∃ enough, ∀ fuel, enough ≤ fuel →
      ∃ r, T.schedule WSZ fuel req portMask extraSlots = some r := by
  obtain ⟨n, -, hempty⟩ := hT.finite
  refine ⟨n - T.now, ?_⟩
  intro fuel hfuel
  obtain ⟨T₁, hdrain⟩ := drain_some hWSZ hempty hT hfuel
  obtain ⟨T', found, hsched, -⟩ := schedule_of_drain req extraSlots
    hT hle hmask hdrain
  exact ⟨(T', found), hsched⟩

/-- A port that is reserved is not reserved again, so the poison moves on. -/
theorem poisonFrom_some {target poison : Nat} (hT : T.Sound) (hmask : portMask ≠ 0)
    (hnow : T.now ≤ poison) (hfull : ¬ (T.cells poison).IsFree portMask) {fuel : Nat}
    (hfuel : target - poison ≤ fuel) :
    ∃ T', poisonFrom target portMask fuel poison T = some T' := by
  induction fuel generalizing T poison with
  | zero =>
    refine ⟨T, ?_⟩
    rw [poisonFrom, if_neg (by omega)]
  | succ fuel ih =>
    rw [poisonFrom]
    split
    · obtain ⟨T₁, t, port, hplace⟩ := place_some false poison hT hmask
      obtain ⟨hle, hfull₁⟩ := place_shadow hplace
      obtain ⟨hnow₁, -, -⟩ := place_fields hplace
      have hne : t ≠ poison := by
        rintro rfl
        exact hfull (place_eq_some.mp hplace).1.1.2
      rw [hplace]
      exact ih (place_sound hT hplace) (by omega) hfull₁ (by omega)
    · exact ⟨T, rfl⟩

theorem poison_some {target : Nat} (hT : T.Sound) (hmask : portMask ≠ 0) {fuel : Nat}
    (hfuel : target - T.now + 1 ≤ fuel) :
    ∃ T', poisonFrom target portMask fuel T.now T = some T' := by
  cases fuel with
  | zero => cases hfuel
  | succ fuel =>
    rw [poisonFrom]
    split
    · obtain ⟨T₁, t, port, hplace⟩ := place_some false T.now hT hmask
      obtain ⟨hle, hfull⟩ := place_shadow hplace
      obtain ⟨hnow, -, -⟩ := place_fields hplace
      rw [hplace]
      exact poisonFrom_some (place_sound hT hplace) hmask (by omega) hfull (by omega)
    · exact ⟨T, rfl⟩

theorem poisonFrom_spec {target poison fuel : Nat} (hT : T.Sound)
    (h : poisonFrom target portMask fuel poison T = some T') :
    T'.Sound ∧ T'.occupancy = T.occupancy ∧ T'.now = T.now := by
  induction fuel generalizing T poison with
  | zero =>
    rw [poisonFrom] at h
    split at h
    · cases h
    · cases h
      exact ⟨hT, rfl, rfl⟩
  | succ fuel ih =>
    rw [poisonFrom] at h
    split at h
    · split at h
      · rename_i T₁ t port hplace
        obtain ⟨hnow, -, hocc⟩ := place_fields hplace
        obtain ⟨hsound, hocc', hnow'⟩ := ih (place_sound hT hplace) h
        exact ⟨hsound, hocc'.trans hocc, hnow'.trans hnow⟩
      · cases h
    · cases h
      exact ⟨hT, rfl, rfl⟩

end Timetable

end ZSim.OOO
