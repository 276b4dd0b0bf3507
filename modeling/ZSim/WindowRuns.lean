import ZSim.OOOBbl
import ZSim.WindowTable

/-! Runs of the instruction window: whole calls, with the ports they grant, refine the calls on a
timetable. -/

namespace ZSim.OOO

namespace WindowStructure

variable {H : Nat} (w : WindowStructure H) (WSZ : Nat)

/-- The delay of a request and its position fit their 32 bits. -/
def InRange (curCycle schedCycle : Nat) : Prop :=
  w.curPos.val + (schedCycle - curCycle) < 2 ^ 32

/-- The ports that a request takes, with their cycle. -/
def placeGrants (touchOccupancy : Bool) (curCycle schedCycle : Nat) (portMask : BitVec 8) :
    List Grant :=
  match w.place touchOccupancy curCycle schedCycle portMask with
  | some (_, found, _) =>
    ((w.cellAt curCycle found).ports touchOccupancy portMask).map fun p => (found, p)
  | none => []

def extraGrants (curCycle : Nat) (portMask : BitVec 8) :
    Nat → Nat → WindowStructure H → List Grant
  | 0, _, _ => []
  | n + 1, extraSlotCycle, w =>
    match w.place false curCycle extraSlotCycle portMask with
    | some (w', found, _) => w.placeGrants false curCycle extraSlotCycle portMask ++
        extraGrants curCycle portMask n (found + 1) w'
    | none => []

/-- The requests for the extra slots are in range. -/
def ExtraFits (curCycle : Nat) (portMask : BitVec 8) : Nat → Nat → WindowStructure H → Prop
  | 0, _, _ => True
  | n + 1, extraSlotCycle, w => w.InRange curCycle extraSlotCycle ∧
      ∀ w' found port, w.place false curCycle extraSlotCycle portMask = some (w', found, port) →
        ExtraFits curCycle portMask n (found + 1) w'

/-- The window on which the extra slots are placed. -/
def recordPort (extraSlots port : Nat) : WindowStructure H :=
  if extraSlots = 0 then w else { w with lastPort := port }

def scheduleGrants (fuel curCycle schedCycle : Nat) (portMask : BitVec 8) (extraSlots : Nat) :
    List Grant :=
  match drain WSZ fuel w curCycle with
  | some (w, curCycle) =>
    match w.place true curCycle schedCycle portMask with
    | some (w', found, port) => w.placeGrants true curCycle schedCycle portMask ++
        extraGrants curCycle (1 <<< (w'.recordPort extraSlots port).lastPort) extraSlots
          (found + 1) (w'.recordPort extraSlots port)
    | none => []
  | none => []

/-- The requests of `schedule` are in range. -/
def ScheduleFits (curCycle schedCycle : Nat) (portMask : BitVec 8) (extraSlots : Nat) : Prop :=
  ∀ fuel w₁ cur₁, drain WSZ fuel w curCycle = some (w₁, cur₁) → w₁.InRange cur₁ schedCycle ∧
    ∀ w₂ found port, w₁.place true cur₁ schedCycle portMask = some (w₂, found, port) →
      ExtraFits cur₁ (1 <<< (w₂.recordPort extraSlots port).lastPort) extraSlots (found + 1)
        (w₂.recordPort extraSlots port)

def poisonGrants (curCycle targetCycle : Nat) (portMask : BitVec 8) :
    Nat → Nat → WindowStructure H → List Grant
  | 0, _, _ => []
  | fuel + 1, poisonCycle, w =>
    if poisonCycle < targetCycle then
      match w.place false curCycle poisonCycle portMask with
      | some (w', found, _) => w.placeGrants false curCycle poisonCycle portMask ++
          poisonGrants curCycle targetCycle portMask fuel found w'
      | none => []
    else []

/-- A jump with nothing reserved until `2 * H - curPos` cycles past the target: nothing moves with
the clock and nothing is left in the map behind it. -/
def JumpFits (curCycle targetCycle : Nat) : Prop :=
  targetCycle = curCycle ∨ ∀ t, curCycle ≤ t → t + w.curPos.val < targetCycle + 2 * H →
    w.cellAt curCycle t = .empty

end WindowStructure

inductive WindowOp
  | schedule (schedCycle : Nat) (portMask : BitVec 8) (extraSlots : Nat)
  | advancePos
  | poisonRange (targetCycle : Nat) (portMask : BitVec 8)
  | longAdvance (targetCycle : Nat)

namespace WindowOp

variable {H : Nat} (WSZ fuel : Nat) (w : WindowStructure H) (cur : Nat)

/-- The window and the cycle after a call, and the cycle that `schedule` returns. -/
def step : WindowOp → Option (WindowStructure H × Nat × Option Nat)
  | .schedule schedCycle portMask extraSlots =>
    (w.schedule WSZ fuel cur schedCycle portMask extraSlots).map fun r => (r.1, r.2.1, some r.2.2)
  | .advancePos => (w.advancePos cur).map fun r => (r.1, r.2, none)
  | .poisonRange targetCycle portMask =>
    (w.poisonRange fuel cur targetCycle portMask).map fun w => (w, cur, none)
  | .longAdvance targetCycle => (w.longAdvance cur targetCycle).map fun r => (r.1, r.2, none)

def grants : WindowOp → List Grant
  | .schedule schedCycle portMask extraSlots =>
    w.scheduleGrants WSZ fuel cur schedCycle portMask extraSlots
  | .poisonRange targetCycle portMask => w.poisonGrants cur targetCycle portMask fuel cur
  | _ => []

/-- The requests of a call are in range, and its jump leaves no reservation behind. -/
def Fits : WindowOp → Prop
  | .schedule schedCycle portMask extraSlots =>
    w.ScheduleFits WSZ cur schedCycle portMask extraSlots
  | .advancePos => True
  | .poisonRange targetCycle _ => w.InRange cur (targetCycle - 1)
  | .longAdvance targetCycle => cur ≤ targetCycle ∧ ∀ w₁ cur₁,
      w.drainTo (targetCycle - cur) cur = some (w₁, cur₁) → w₁.JumpFits cur₁ targetCycle

def HasPort : WindowOp → Prop
  | .schedule _ portMask _ => portMask ≠ 0
  | .poisonRange _ portMask => portMask ≠ 0
  | _ => True

/-- The call on a timetable. A long advance steps. -/
noncomputable def stepTable (T : Timetable) : WindowOp → Option (Timetable × Option Nat)
  | .schedule schedCycle portMask extraSlots =>
    (T.schedule WSZ fuel schedCycle portMask extraSlots).map fun r => (r.1, some r.2)
  | .advancePos => some (T.advance, none)
  | .poisonRange targetCycle portMask =>
    (T.poisonFrom targetCycle portMask fuel T.now).map fun T => (T, none)
  | .longAdvance targetCycle =>
    if T.now ≤ targetCycle then some (Timetable.advance^[targetCycle - T.now] T, none) else none

end WindowOp

namespace WindowStructure

variable {H : Nat} {w w' : WindowStructure H} {WSZ fuel cur req target found port n : Nat}
variable {T : Timetable} {touch : Bool} {portMask : BitVec 8}

theorem rel_cases {α β : Type*} {r : α → β → Prop} {x : Option α} {y : Option β}
    (h : Option.Rel r x y) : (x = none ∧ y = none) ∨ ∃ a b, x = some a ∧ y = some b ∧ r a b := by
  cases h with
  | none => exact Or.inl ⟨rfl, rfl⟩
  | some hab => exact Or.inr ⟨_, _, rfl, rfl, hab⟩

theorem not_isFree_zero (wc : WinCycle) : ¬ wc.IsFree 0 := not_not_intro BitVec.and_zero

theorem place_rel (h : w.Represents cur T) (hH : H ≤ 2 ^ 32) (hrange : w.InRange cur req) :
    Option.Rel (fun r R => r.1.Represents cur R.1 ∧ r.2 = R.2 ∧
      R.1.granted = T.granted ++ w.placeGrants touch cur req portMask)
      (w.place touch cur req portMask) (T.place touch req portMask) := by
  cases hplace : w.place touch cur req portMask with
  | none =>
    have hmask : portMask = 0 := by
      by_contra hne
      obtain ⟨w', found, port, hsome⟩ := place_some hne touch w cur req
      rw [hsome] at hplace
      cases hplace
    have hnone : T.place touch req portMask = none := by
      apply Option.eq_none_iff_forall_ne_some.mpr
      intro R hR
      have hfree := (Timetable.place_eq_some.mp hR).1.1.2
      rw [hmask] at hfree
      exact not_isFree_zero _ hfree
    rw [hnone]
    exact Option.Rel.none
  | some r =>
    obtain ⟨w', found, port⟩ := r
    obtain ⟨hleast, wc, htry, hput⟩ := place_spec h hH hrange hplace
    have hle : cur ≤ found := by
      have := hleast.1.1
      rw [h.now] at this
      omega
    rw [Timetable.place_eq_some.mpr ⟨hleast, wc, htry, rfl⟩]
    refine Option.Rel.some ⟨hput, rfl, ?_⟩
    rw [placeGrants, hplace]
    dsimp only
    rw [h.cells _ hle]
    rfl

theorem drain_rel (h : w.Represents cur T) (hH : H ≤ 2 ^ 32) :
    Option.Rel (fun r R => r.1.Represents r.2 R) (drain WSZ fuel w cur)
      (Timetable.drain WSZ fuel T) := by
  induction fuel generalizing w cur T with
  | zero =>
    rw [drain, Timetable.drain, h.occupancy]
    split
    · exact Option.Rel.none
    · exact Option.Rel.some h
  | succ fuel ih =>
    rw [drain, Timetable.drain, h.occupancy]
    split
    · obtain ⟨w', hadv, hw'⟩ := advancePos_spec h hH
      rw [hadv]
      exact ih hw'
    · exact Option.Rel.some h

theorem placeExtra_rel {cycle : Nat} (h : w.Represents cur T) (hH : H ≤ 2 ^ 32)
    (hfits : ExtraFits cur portMask n cycle w) :
    Option.Rel (fun r R => r.Represents cur R ∧
      R.granted = T.granted ++ extraGrants cur portMask n cycle w)
      (placeExtra cur portMask n cycle w) (Timetable.placeExtra portMask n cycle T) := by
  induction n generalizing w T cycle with
  | zero => exact Option.Rel.some ⟨h, (List.append_nil _).symm⟩
  | succ n ih =>
    obtain ⟨hrange, hnext⟩ := hfits
    have hrel := @place_rel H w cur cycle T false portMask h hH hrange
    rw [placeExtra, Timetable.placeExtra, extraGrants]
    obtain ⟨hw, hT⟩ | ⟨⟨w', found, port⟩, ⟨T', found', port'⟩, hw, hT, hrep, heq, hgranted⟩ :=
      rel_cases hrel
    · rw [hw, hT]
      exact Option.Rel.none
    · cases heq
      have hrec := ih hrep (hnext w' found port hw)
      rw [hgranted, List.append_assoc] at hrec
      rw [hw, hT]
      exact hrec

theorem Represents.recordPort (h : w.Represents cur T) (extraSlots port : Nat) :
    (w.recordPort extraSlots port).Represents cur (T.recordPort extraSlots port) ∧
      (T.recordPort extraSlots port).granted = T.granted := by
  unfold WindowStructure.recordPort Timetable.recordPort
  split
  · exact ⟨h, rfl⟩
  · exact ⟨⟨h.now, h.cells, h.past, h.sorted, h.far, h.reserved, h.occupancy, rfl⟩, rfl⟩

theorem schedule_rel {extraSlots : Nat} (h : w.Represents cur T) (hH : H ≤ 2 ^ 32)
    (hfits : w.ScheduleFits WSZ cur req portMask extraSlots) :
    Option.Rel (fun r R => r.1.Represents r.2.1 R.1 ∧ r.2.2 = R.2 ∧
      R.1.granted = T.granted ++ w.scheduleGrants WSZ fuel cur req portMask extraSlots)
      (w.schedule WSZ fuel cur req portMask extraSlots)
      (T.schedule WSZ fuel req portMask extraSlots) := by
  unfold schedule Timetable.schedule scheduleGrants
  obtain ⟨hw₁, hT₁⟩ | ⟨⟨w₁, cur₁⟩, T₁, hw₁, hT₁, hrep₁⟩ :=
    rel_cases (@drain_rel _ w WSZ fuel _ _ h hH)
  · rw [hw₁, hT₁]
    exact Option.Rel.none
  rw [hw₁, hT₁]
  obtain ⟨hrange, hextra⟩ := hfits fuel w₁ cur₁ hw₁
  have hgranted₁ := Timetable.drain_granted hT₁
  have hrel := @place_rel H w₁ cur₁ req T₁ true portMask hrep₁ hH hrange
  dsimp only [Option.bind_eq_bind, Option.bind_some]
  obtain ⟨hw₂, hT₂⟩ | ⟨⟨w₂, found, port⟩, ⟨T₂, found', port'⟩, hw₂, hT₂, hrep₂, heq, hgranted₂⟩ :=
    rel_cases hrel
  · rw [hw₂, hT₂]
    exact Option.Rel.none
  cases heq
  rw [hw₂, hT₂]
  dsimp only [Option.bind_eq_bind, Option.bind_some]
  obtain ⟨hrep₃, hgranted₃⟩ := hrep₂.recordPort extraSlots port
  have hrel' := placeExtra_rel hrep₃ hH (hextra w₂ found port hw₂)
  change Option.Rel _ ((placeExtra cur₁ (1 <<< (w₂.recordPort extraSlots port).lastPort)
    extraSlots (found + 1) (w₂.recordPort extraSlots port)).bind _) _
  rw [← hrep₃.lastPort]
  obtain ⟨hw₄, hT₄⟩ | ⟨w₄, T₄, hw₄, hT₄, hrep₄, hgranted₄⟩ := rel_cases hrel'
  · rw [hw₄, hT₄]
    exact Option.Rel.none
  rw [hw₄, hT₄]
  dsimp only [Option.bind_some]
  rw [hrep₄.occupancy]
  by_cases hroom : T₄.occupancy ≤ WSZ
  · simp only [guard, if_pos hroom, Option.pure_def, Option.bind_some]
    refine Option.Rel.some ⟨hrep₄, rfl, ?_⟩
    rw [hgranted₄, hgranted₃, hgranted₂, hgranted₁, List.append_assoc]
  · simp only [guard, if_neg hroom]
    exact Option.Rel.none

theorem place_curPos (h : w.place touch cur req portMask = some (w', found, port)) :
    w'.curPos = w.curPos := by
  unfold place at h
  dsimp only at h
  split at h
  · split at h
    · cases h
      rfl
    · cases h
  · split at h
    · split at h
      · cases h
        rfl
      · cases h
    · split at h
      · cases h
        rfl
      · cases h

theorem poisonFrom_rel {poison : Nat} (h : w.Represents cur T) (hH : H ≤ 2 ^ 32)
    (hrange : w.InRange cur (target - 1)) :
    Option.Rel (fun r R => r.Represents cur R ∧
      R.granted = T.granted ++ poisonGrants cur target portMask fuel poison w)
      (poisonFrom cur target portMask fuel poison w)
      (Timetable.poisonFrom target portMask fuel poison T) := by
  induction fuel generalizing w T poison with
  | zero =>
    rw [poisonFrom, Timetable.poisonFrom]
    split
    · exact Option.Rel.none
    · exact Option.Rel.some ⟨h, (List.append_nil _).symm⟩
  | succ fuel ih =>
    rw [poisonFrom, Timetable.poisonFrom, poisonGrants]
    split
    · have hplace : w.InRange cur poison := by
        unfold InRange at hrange ⊢
        omega
      have hrel := @place_rel H w cur poison T false portMask h hH hplace
      obtain ⟨hw, hT⟩ | ⟨⟨w', found, port⟩, ⟨T', found', port'⟩, hw, hT, hrep, heq, hgranted⟩ :=
        rel_cases hrel
      · rw [hw, hT]
        exact Option.Rel.none
      · cases heq
        have hrange' : w'.InRange cur (target - 1) := by
          unfold InRange
          rw [place_curPos hw]
          exact hrange
        have hrec := @ih w' T' found hrep hrange'
        rw [hgranted, List.append_assoc] at hrec
        rw [hw, hT]
        exact hrec
    · exact Option.Rel.some ⟨h, (List.append_nil _).symm⟩

theorem drainTo_spec (h : w.Represents cur T) (hH : H ≤ 2 ^ 32) : ∃ k w₁, k ≤ n ∧
    w.drainTo n cur = some (w₁, cur + k) ∧ w₁.Represents (cur + k) (Timetable.advance^[k] T) ∧
      (k = n ∨ w₁.occupancy = 0) := by
  induction n generalizing w cur T with
  | zero => exact ⟨0, w, Nat.le_refl _, rfl, h, Or.inl rfl⟩
  | succ n ih =>
    rw [drainTo]
    split
    · rename_i hzero
      exact ⟨0, w, Nat.zero_le _, rfl, h, Or.inr hzero⟩
    · obtain ⟨w', hadv, hw'⟩ := advancePos_spec h hH
      obtain ⟨k, w₁, hk, hdrain, hrep, hend⟩ := ih hw'
      refine ⟨k + 1, w₁, Nat.succ_le_succ hk, ?_, ?_, hend.imp_left (congrArg (· + 1))⟩
      · rw [hadv, ← Nat.add_assoc, Nat.add_right_comm]
        exact hdrain
      · rw [← Nat.add_assoc, Nat.add_right_comm]
        exact hrep

/-- A jump past cycles in which nothing is reserved does what the steps do. -/
theorem Represents.jump (h : w.Represents cur T) (hle : cur ≤ target)
    (hfits : w.JumpFits cur target) (hzero : w.occupancy = 0) :
    w.Represents target (Timetable.advance^[target - cur] T) := by
  obtain ⟨hcells, hnow, -, hlast, hocc⟩ := @Timetable.advance_iterate T (target - cur)
  rcases hfits with rfl | hempty
  · rw [Nat.sub_self]
    exact h
  have hcur := w.curPos.isLt
  refine ⟨?_, ?_, h.past, h.sorted, ?_, h.reserved, ?_, h.lastPort.trans hlast.symm⟩
  · rw [hnow, h.now]
    omega
  · intro t ht
    rw [hcells, ← h.cells t (by omega)]
    by_cases hfar : 2 * H ≤ w.curPos.val + (t - target)
    · rw [cellAt_ub hfar, cellAt_ub (by omega)]
    · have hshift : w.cellAt target t = w.cellAt cur (cur + (t - target)) := by
        unfold cellAt
        dsimp only
        rw [Nat.add_sub_cancel_left, if_pos (not_le.mp hfar), if_pos (not_le.mp hfar)]
      rw [hshift, hempty _ (by omega) (by omega), hempty _ (by omega) (by omega)]
  · intro e he
    have hfar := h.far e he
    by_contra hnear
    have hcell := hempty e.1 (by omega) (by omega)
    rw [cellAt_ub (by omega), ubGet_of_mem h.sorted he] at hcell
    exact h.reserved e he (congrArg WinCycle.occUnits hcell)
  · rw [← h.occupancy] at hocc
    omega

theorem longAdvance_spec (h : w.Represents cur T) (hH : H ≤ 2 ^ 32) (hle : cur ≤ target)
    (hfits : ∀ w₁ cur₁, w.drainTo (target - cur) cur = some (w₁, cur₁) →
      w₁.JumpFits cur₁ target) :
    ∃ w', w.longAdvance cur target = some (w', target) ∧
      w'.Represents target (Timetable.advance^[target - cur] T) := by
  obtain ⟨k, w₁, hk, hdrain, hrep, hend⟩ := @drainTo_spec H w cur (target - cur) T h hH
  unfold longAdvance
  simp only [guard, if_pos hle, Option.pure_def, Option.bind_eq_bind, Option.bind_some, hdrain]
  by_cases hocc : w₁.occupancy = 0
  · have hjump := hrep.jump (by omega) (hfits w₁ _ hdrain) hocc
    rw [← Function.iterate_add_apply] at hjump
    have hsteps : target - (cur + k) + k = target - cur := by omega
    rw [hsteps] at hjump
    refine ⟨w₁, ?_, hjump⟩
    rw [if_neg (not_not_intro hocc), if_pos (by omega)]
    rfl
  · have hk : k = target - cur := hend.resolve_right hocc
    have htarget : cur + k = target := by omega
    rw [htarget] at hrep
    refine ⟨w₁, ?_, hk ▸ hrep⟩
    rw [if_pos hocc, htarget, if_pos rfl]
    rfl

theorem advanceBy_spec (h : w.Represents cur T) (hH : H ≤ 2 ^ 32) :
    ∃ w', advanceBy n w cur = some (w', cur + n) ∧
      w'.Represents (cur + n) (Timetable.advance^[n] T) := by
  induction n generalizing w cur T with
  | zero => exact ⟨w, rfl, h⟩
  | succ n ih =>
    obtain ⟨w₁, hadv, hw₁⟩ := advancePos_spec h hH
    obtain ⟨w', hrest, hw'⟩ := ih hw₁
    rw [advanceBy, hadv, ← Nat.add_assoc, Nat.add_right_comm]
    exact ⟨w', hrest, hw'⟩

end WindowStructure

namespace WindowOp

variable {H : Nat} {w w' : WindowStructure H} {WSZ fuel cur cur' start : Nat} {T T' : Timetable}
variable {op : WindowOp} {log : List Grant} {found : Option Nat}

/-- A call on a window does what the call on the timetable does. -/
theorem step_rel (h : w.Represents cur T) (hH : H ≤ 2 ^ 32) (hfits : op.Fits WSZ w cur) :
    Option.Rel (fun r R => r.1.Represents r.2.1 R.1 ∧ r.2.2 = R.2 ∧
      R.1.granted = T.granted ++ op.grants WSZ fuel w cur)
      (op.step WSZ fuel w cur) (op.stepTable WSZ fuel T) := by
  cases op with
  | schedule schedCycle portMask extraSlots =>
    obtain ⟨hw, hT⟩ | ⟨⟨w₁, cur₁, sched⟩, ⟨T₁, sched'⟩, hw, hT, hrep, heq, hgranted⟩ :=
      WindowStructure.rel_cases
        (@WindowStructure.schedule_rel H w WSZ fuel cur schedCycle T portMask extraSlots h hH hfits)
    · rw [step, stepTable, hw, hT]
      exact Option.Rel.none
    · rw [step, stepTable, hw, hT]
      exact Option.Rel.some ⟨hrep, congrArg some heq, hgranted⟩
  | advancePos =>
    obtain ⟨w₁, hadv, hrep⟩ := WindowStructure.advancePos_spec h hH
    rw [step, hadv]
    exact Option.Rel.some ⟨hrep, rfl, (List.append_nil _).symm⟩
  | poisonRange targetCycle portMask =>
    have hrel := @WindowStructure.poisonFrom_rel H w fuel cur targetCycle T portMask cur h hH hfits
    obtain ⟨hw, hT⟩ | ⟨w₁, T₁, hw, hT, hrep, hgranted⟩ := WindowStructure.rel_cases hrel
    · rw [step, stepTable, WindowStructure.poisonRange, h.now, hw, hT]
      exact Option.Rel.none
    · rw [step, stepTable, WindowStructure.poisonRange, h.now, hw, hT]
      exact Option.Rel.some ⟨hrep, rfl, hgranted⟩
  | longAdvance targetCycle =>
    obtain ⟨w₁, hadv, hrep⟩ := WindowStructure.longAdvance_spec h hH hfits.1 hfits.2
    rw [step, stepTable, hadv, h.now, if_pos hfits.1]
    refine Option.Rel.some ⟨hrep, rfl, ?_⟩
    rw [(Timetable.advance_iterate _).2.2.1]
    exact (List.append_nil _).symm

theorem stepTable_sound (hT : T.Sound) (hle : T.occupancy ≤ WSZ) (hport : op.HasPort)
    (h : op.stepTable WSZ fuel T = some (T', found)) : T'.Sound ∧ T'.occupancy ≤ WSZ := by
  cases op with
  | schedule schedCycle portMask extraSlots =>
    obtain ⟨r, hsched, hr⟩ := Option.map_eq_some_iff.mp h
    cases hr
    have hspec := Timetable.schedule_spec hT hle hport hsched
    exact ⟨hspec.sound, hspec.room⟩
  | advancePos =>
    cases h
    exact ⟨Timetable.advance_sound hT, (Nat.sub_le _ _).trans hle⟩
  | poisonRange targetCycle portMask =>
    obtain ⟨T₁, hpoison, hr⟩ := Option.map_eq_some_iff.mp h
    cases hr
    obtain ⟨hsound, hocc, -⟩ := Timetable.poisonFrom_spec hT hpoison
    exact ⟨hsound, hocc.trans_le hle⟩
  | longAdvance targetCycle =>
    rw [stepTable] at h
    split at h
    · cases h
      exact ⟨Timetable.advance_iterate_sound hT _,
        (Timetable.advance_iterate _).2.2.2.2.trans hle⟩
    · cases h

end WindowOp

variable {H : Nat} {w w' : WindowStructure H} {WSZ fuel cur cur' start target : Nat}
variable {log : List Grant}

/-- The windows of a run whose calls fit, with the ports granted so far. -/
inductive Reached (WSZ start : Nat) : List Grant → WindowStructure H → Nat → Prop
  | init (h : 0 < H) : Reached WSZ start [] (.init h) start
  | step {log : List Grant} {w w' : WindowStructure H} {cur cur' fuel : Nat} {op : WindowOp}
      {found : Option Nat} (hreached : Reached WSZ start log w cur) (hfits : op.Fits WSZ w cur)
      (hport : op.HasPort) (h : op.step WSZ fuel w cur = some (w', cur', found)) :
      Reached WSZ start (log ++ op.grants WSZ fuel w cur) w' cur'

structure WindowOk (WSZ : Nat) (log : List Grant) (w : WindowStructure H) (cur : Nat) : Prop where
  sum : ∃ n, cur ≤ n ∧ (∀ t, n ≤ t → w.cellAt cur t = .empty) ∧
    ∑ t ∈ Finset.Ico cur n, (w.cellAt cur t).count = w.occupancy
  room : w.occupancy ≤ WSZ
  taken : ∀ g ∈ log, cur ≤ g.1 → (w.cellAt cur g.1).occUnits.getLsbD g.2 = true
  nodup : log.Nodup

/-- What holds of a call: its loops end, no assertion fails, and `schedule` returns the earliest
cycle with a free port. -/
structure WindowCallOk (WSZ : Nat) (w : WindowStructure H) (cur : Nat) (op : WindowOp) : Prop where
  returns : ∃ enough, ∀ fuel, enough ≤ fuel → ∃ r, op.step WSZ fuel w cur = some r
  earliest : ∀ fuel w' cur' found, op.step WSZ fuel w cur = some (w', cur', some found) →
    ∃ schedCycle portMask extraSlots, op = .schedule schedCycle portMask extraSlots ∧
      IsLeast {t | max schedCycle cur' ≤ t ∧ (w.cellAt cur t).IsFree portMask} found

theorem represents_init (h : 0 < H) (start : Nat) :
    (WindowStructure.init h).Represents start (.init start) := by
  refine ⟨rfl, ?_, ?_, List.Pairwise.nil, ?_, ?_, rfl, rfl⟩
  · intro t ht
    unfold WindowStructure.cellAt
    dsimp only
    split_ifs
    · rfl
    · rfl
    · rfl
  · intro i hi
    rfl
  · intro e he
    cases he
  · intro e he
    cases he

/-- A window of a run represents a timetable on which the grants are recorded. -/
theorem Reached.represents (hH : H ≤ 2 ^ 32) (h : Reached WSZ start log w cur) :
    ∃ T : Timetable, w.Represents cur T ∧ T.Sound ∧ T.occupancy ≤ WSZ ∧ T.granted = log := by
  induction h with
  | init hpos =>
    exact ⟨.init start, represents_init hpos start, Timetable.init_sound start, Nat.zero_le _, rfl⟩
  | step hreached hfits hport hstep ih =>
    obtain ⟨T, hrep, hsound, hle, hlog⟩ := ih
    rename_i fuel op found
    have hrel := @WindowOp.step_rel H _ WSZ fuel _ T op hrep hH hfits
    rw [hstep] at hrel
    obtain ⟨hw, -⟩ | ⟨r, ⟨T', found'⟩, hw, hT, hrep', -, hgranted⟩ :=
      WindowStructure.rel_cases hrel
    · cases hw
    · cases hw
      obtain ⟨hsound', hle'⟩ := WindowOp.stepTable_sound hsound hle hport hT
      rw [hlog] at hgranted
      exact ⟨T', hrep', hsound', hle', hgranted⟩

theorem windowOk_of_represents {T : Timetable} (hrep : w.Represents cur T) (hsound : T.Sound)
    (hle : T.occupancy ≤ WSZ) : WindowOk WSZ T.granted w cur := by
  refine ⟨?_, ?_, ?_, hsound.nodup⟩
  · obtain ⟨n, hn, hempty⟩ := hsound.finite
    have hsum := hsound.sum n hn hempty
    rw [hrep.now] at hn hsum
    refine ⟨n, hn, ?_, ?_⟩
    · intro t ht
      rw [hrep.cells t (hn.trans ht)]
      exact hempty t ht
    · rw [hrep.occupancy, ← hsum]
      apply Finset.sum_congr rfl
      intro t ht
      rw [hrep.cells t (Finset.mem_Ico.mp ht).1]
  · rw [hrep.occupancy]
    exact hle
  · intro g hg hcur
    rw [hrep.cells _ hcur]
    exact hsound.taken g hg

theorem stepTable_some {T : Timetable} {op : WindowOp} (hWSZ : 0 < WSZ) (hsound : T.Sound)
    (hle : T.occupancy ≤ WSZ) (hport : op.HasPort)
    (hjump : ∀ target, op = .longAdvance target → T.now ≤ target) :
    ∃ enough, ∀ fuel, enough ≤ fuel → ∃ R, op.stepTable WSZ fuel T = some R := by
  cases op with
  | schedule schedCycle portMask extraSlots =>
    obtain ⟨enough, hreturns⟩ :=
      @Timetable.schedule_some _ _ T schedCycle extraSlots hWSZ hsound hle hport
    refine ⟨enough, ?_⟩
    intro fuel hfuel
    obtain ⟨r, hr⟩ := hreturns fuel hfuel
    rw [WindowOp.stepTable, hr]
    exact ⟨_, rfl⟩
  | advancePos => exact ⟨0, fun fuel _ => ⟨_, rfl⟩⟩
  | poisonRange targetCycle portMask =>
    refine ⟨targetCycle - T.now + 1, ?_⟩
    intro fuel hfuel
    obtain ⟨T', hT'⟩ := Timetable.poison_some hsound hport hfuel
    rw [WindowOp.stepTable, hT']
    exact ⟨_, rfl⟩
  | longAdvance targetCycle =>
    refine ⟨0, ?_⟩
    intro fuel _
    rw [WindowOp.stepTable, if_pos (hjump targetCycle rfl)]
    exact ⟨_, rfl⟩

theorem windowCallOk_of_represents {T : Timetable} {op : WindowOp} (hWSZ : 0 < WSZ)
    (hH : H ≤ 2 ^ 32) (hrep : w.Represents cur T) (hsound : T.Sound) (hle : T.occupancy ≤ WSZ)
    (hfits : op.Fits WSZ w cur) (hport : op.HasPort) : WindowCallOk WSZ w cur op := by
  constructor
  · have hjump : ∀ target, op = .longAdvance target → T.now ≤ target := by
      rintro target rfl
      rw [hrep.now]
      exact hfits.1
    obtain ⟨enough, hreturns⟩ := stepTable_some hWSZ hsound hle hport hjump
    refine ⟨enough, ?_⟩
    intro fuel hfuel
    obtain ⟨R, hR⟩ := hreturns fuel hfuel
    obtain ⟨-, hT⟩ | ⟨r, -, hw, -, -⟩ := WindowStructure.rel_cases
      (@WindowOp.step_rel H w WSZ fuel cur T op hrep hH hfits)
    · rw [hR] at hT
      cases hT
    · exact ⟨r, hw⟩
  · intro fuel w' cur' found hstep
    have hrel := @WindowOp.step_rel H w WSZ fuel cur T op hrep hH hfits
    rw [hstep] at hrel
    obtain ⟨hw, -⟩ | ⟨r, ⟨T', found'⟩, hw, hT, hrep', heq, -⟩ := WindowStructure.rel_cases hrel
    · cases hw
    cases hw
    cases op with
    | schedule schedCycle portMask extraSlots =>
      obtain ⟨R, hsched, hR⟩ := Option.map_eq_some_iff.mp hT
      cases hR
      cases heq
      have hspec := Timetable.schedule_spec hsound hle hport hsched
      have hnow := hspec.now
      have hfirst := hspec.first
      have hcur : R.1.now = cur' := hrep'.now
      rw [hrep.now, hcur] at hnow
      rw [hcur] at hfirst
      refine ⟨schedCycle, portMask, extraSlots, rfl, ?_⟩
      have hset : {t | max schedCycle cur' ≤ t ∧ (w.cellAt cur t).IsFree portMask} =
          {t | max schedCycle cur' ≤ t ∧ (T.cells t).IsFree portMask} := by
        ext t
        refine and_congr_right fun ht => ?_
        rw [hrep.cells t (hnow.trans ((le_max_right _ _).trans ht))]
      rw [hset]
      exact hfirst
    | advancePos =>
      cases hT
      cases heq
    | poisonRange targetCycle portMask =>
      obtain ⟨R, -, hR⟩ := Option.map_eq_some_iff.mp hT
      cases hR
      cases heq
    | longAdvance targetCycle =>
      rw [WindowOp.stepTable] at hT
      split at hT
      · cases hT
        cases heq
      · cases hT

/-- In every run whose calls fit, the occupancy is the sum of the counts and within the window, no
port of a cycle is granted twice, and the next call ends with the earliest free cycle. -/
theorem window_runs (hWSZ : 0 < WSZ) (hH : 2 * H < 2 ^ 32) (h : Reached WSZ start log w cur) :
    WindowOk WSZ log w cur ∧
      ∀ op : WindowOp, op.Fits WSZ w cur → op.HasPort → WindowCallOk WSZ w cur op := by
  have hH' : H ≤ 2 ^ 32 := by omega
  obtain ⟨T, hrep, hsound, hle, hlog⟩ := h.represents hH'
  refine ⟨hlog ▸ windowOk_of_represents hrep hsound hle, ?_⟩
  intro op hfits hport
  exact windowCallOk_of_represents hWSZ hH' hrep hsound hle hfits hport

/-- The window of the core after a uop in cycle 0 that holds its port for a cycle more. -/
def heldPort : WindowStructure 1024 where
  curWin := Function.update (Function.update (fun _ => .empty) 0 ⟨1, 1⟩) 1 ⟨1, 0⟩
  nextWin := fun _ => .empty
  ubWin := []
  occupancy := 1
  curPos := ⟨0, window_pos⟩
  lastPort := 0

theorem heldPort_place : (WindowStructure.init window_pos).place true 0 0 1 = some
    ({ heldPort with curWin := Function.update (fun _ => .empty) 0 ⟨1, 1⟩ }, 0, 0) := rfl

set_option maxRecDepth 2000 in
theorem heldPort_step : (WindowOp.schedule 0 1 1).step 36 0 (.init window_pos) 0 =
    some (heldPort, 0, some 0) := rfl

set_option maxRecDepth 2000 in
theorem heldPort_grants : (WindowOp.schedule 0 1 1).grants 36 0 (.init window_pos) 0 =
    [(0, 0), (1, 0)] := by decide

theorem heldPort_reached : Reached 36 0 [(0, 0), (1, 0)] heldPort 0 := by
  have hfits : (WindowOp.schedule 0 1 1).Fits 36 (.init window_pos) 0 := by
    intro fuel w₁ cur₁ hdrain
    rw [WindowStructure.drain_of_ne (by decide)] at hdrain
    cases hdrain
    refine ⟨show 0 + (0 - 0) < 2 ^ 32 by decide, ?_⟩
    intro w₂ found port hplace
    rw [heldPort_place] at hplace
    cases hplace
    exact ⟨show 0 + (0 + 1 - 0) < 2 ^ 32 by decide, fun _ _ _ _ => trivial⟩
  have hreached := Reached.step (.init window_pos) hfits (show (1 : BitVec 8) ≠ 0 by decide)
    heldPort_step
  rw [heldPort_grants] at hreached
  exact hreached

theorem window_runs_heldPort : WindowOk 36 [(0, 0), (1, 0)] heldPort 0 ∧
    ∀ op : WindowOp, op.Fits 36 heldPort 0 → op.HasPort → WindowCallOk 36 heldPort 0 op :=
  window_runs (by decide) (by decide) heldPort_reached

/-- A request `2 ^ 32` cycles ahead gets the current cycle. -/
theorem delay_truncated : ¬ ∀ (log : List Grant) (w : WindowStructure 1024) (cur : Nat),
    Reached 36 0 log w cur → ∀ op : WindowOp, op.HasPort → WindowCallOk 36 w cur op := by
  intro h
  have hcall := h [] _ 0 (.init window_pos) (.schedule (2 ^ 32) 1 0)
    (show (1 : BitVec 8) ≠ 0 by decide)
  obtain ⟨req, mask, extra, hop, hleast⟩ := hcall.earliest 0 _ 0 0 rfl
  cases hop
  exact absurd hleast.1.1 (by decide)

/-- The same ports are free from now on, and the same number of uops wait. -/
def SameFrom (w₁ w₂ : WindowStructure H) (cur : Nat) : Prop :=
  (∀ t, cur ≤ t → w₁.cellAt cur t = w₂.cellAt cur t) ∧ w₁.occupancy = w₂.occupancy

/-- Two windows of which every run of calls that fit both gets the same. A call that an assertion
stops on one of them is stopped on the other. -/
def RunsAlike (WSZ : Nat) : List (Nat × WindowOp) → WindowStructure H → WindowStructure H →
    Nat → Prop
  | [], w₁, w₂, cur => SameFrom w₁ w₂ cur
  | (fuel, op) :: ops, w₁, w₂, cur => SameFrom w₁ w₂ cur ∧
      (op.Fits WSZ w₁ cur → op.Fits WSZ w₂ cur →
        Option.Rel (fun r₁ r₂ => r₁.2 = r₂.2 ∧ RunsAlike WSZ ops r₁.1 r₂.1 r₁.2.1)
          (op.step WSZ fuel w₁ cur) (op.step WSZ fuel w₂ cur))

theorem sameFrom_of_represents {w₁ w₂ : WindowStructure H} {T : Timetable}
    (h₁ : w₁.Represents cur T) (h₂ : w₂.Represents cur T) : SameFrom w₁ w₂ cur := by
  constructor
  · intro t ht
    rw [h₁.cells t ht, h₂.cells t ht]
  · rw [h₁.occupancy, h₂.occupancy]

theorem runsAlike_of_represents {w₁ w₂ : WindowStructure H} {T : Timetable} (hH : H ≤ 2 ^ 32)
    (h₁ : w₁.Represents cur T) (h₂ : w₂.Represents cur T) (ops : List (Nat × WindowOp)) :
    RunsAlike WSZ ops w₁ w₂ cur := by
  induction ops generalizing w₁ w₂ cur T with
  | nil => exact sameFrom_of_represents h₁ h₂
  | cons e ops ih =>
    obtain ⟨fuel, op⟩ := e
    refine ⟨sameFrom_of_represents h₁ h₂, ?_⟩
    intro hfits₁ hfits₂
    have hrel₁ := @WindowOp.step_rel H w₁ WSZ fuel cur T op h₁ hH hfits₁
    have hrel₂ := @WindowOp.step_rel H w₂ WSZ fuel cur T op h₂ hH hfits₂
    obtain ⟨hw₁, hT₁⟩ | ⟨r₁, R, hw₁, hT₁, hrep₁, hfound₁, -⟩ := WindowStructure.rel_cases hrel₁
    · obtain ⟨hw₂, -⟩ | ⟨r₂, R, -, hT₂, -⟩ := WindowStructure.rel_cases hrel₂
      · rw [hw₁, hw₂]
        exact Option.Rel.none
      · rw [hT₁] at hT₂
        cases hT₂
    · obtain ⟨-, hT₂⟩ | ⟨r₂, R', hw₂, hT₂, hrep₂, hfound₂, -⟩ := WindowStructure.rel_cases hrel₂
      · rw [hT₁] at hT₂
        cases hT₂
      · rw [hT₁] at hT₂
        cases hT₂
        have hcur : r₁.2.1 = r₂.2.1 := hrep₁.now.symm.trans hrep₂.now
        rw [hw₁, hw₂]
        refine Option.Rel.some ⟨Prod.ext hcur (hfound₁.trans hfound₂.symm), ih hrep₁ ?_⟩
        rw [hcur]
        exact hrep₂

/-- A long advance that fits leaves a window that behaves as the one left by single steps. -/
theorem longAdvance_runsAlike (hH : 2 * H < 2 ^ 32) (h : Reached WSZ start log w cur)
    (hfits : (WindowOp.longAdvance target).Fits WSZ w cur) :
    ∃ w₁ w₂ : WindowStructure H, w.longAdvance cur target = some (w₁, target) ∧
      WindowStructure.advanceBy (target - cur) w cur = some (w₂, target) ∧
      ∀ ops, RunsAlike WSZ ops w₁ w₂ target := by
  have hH' : H ≤ 2 ^ 32 := by omega
  obtain ⟨T, hrep, -⟩ := h.represents hH'
  obtain ⟨w₁, hlong, hrep₁⟩ := WindowStructure.longAdvance_spec hrep hH' hfits.1 hfits.2
  obtain ⟨w₂, hsteps, hrep₂⟩ := @WindowStructure.advanceBy_spec H w cur (target - cur) T hrep hH'
  have htarget : cur + (target - cur) = target := Nat.add_sub_cancel' hfits.1
  rw [htarget] at hsteps hrep₂
  exact ⟨w₁, w₂, hlong, hsteps, fun ops => runsAlike_of_represents hH' hrep₁ hrep₂ ops⟩

/-- The uop of cycle 0 is stepped over, and the port that is held is held in cycle 1 either way. -/
theorem longAdvance_runsAlike_heldPort : ∃ w₁ w₂ : WindowStructure 1024,
    heldPort.longAdvance 0 1 = some (w₁, 1) ∧
      WindowStructure.advanceBy (1 - 0) heldPort 0 = some (w₂, 1) ∧
        heldPort.occupancy = 1 ∧ w₁.occupancy = 0 ∧ (w₁.cellAt 1 1).occUnits = 1 ∧
          ∀ ops, RunsAlike 36 ops w₁ w₂ 1 := by
  have hfits : (WindowOp.longAdvance 1).Fits 36 heldPort 0 := by
    refine ⟨by decide, ?_⟩
    intro w₁ cur₁ hdrain
    cases hdrain
    exact Or.inl rfl
  obtain ⟨w₁, w₂, hlong, hsteps, halike⟩ :=
    longAdvance_runsAlike (by decide) heldPort_reached hfits
  refine ⟨w₁, w₂, hlong, hsteps, rfl, ?_, ?_, halike⟩ <;> cases hlong <;> rfl

/-- The held port, reserved in cycle 1, is reserved in cycle 2 after the jump. -/
theorem reservation_moved : ¬ ∀ (log : List Grant) (w : WindowStructure 1024) (cur target : Nat),
    Reached 36 0 log w cur → cur ≤ target →
      ∃ w₁ w₂ : WindowStructure 1024, w.longAdvance cur target = some (w₁, target) ∧
        WindowStructure.advanceBy (target - cur) w cur = some (w₂, target) ∧
          ∀ ops, RunsAlike 36 ops w₁ w₂ target := by
  intro h
  obtain ⟨w₁, w₂, hlong, hsteps, halike⟩ := h _ heldPort 0 2 heldPort_reached (by decide)
  cases hlong
  cases hsteps
  exact absurd (congrArg WinCycle.occUnits ((halike []).1 2 (by decide))) (by decide)

end ZSim.OOO
