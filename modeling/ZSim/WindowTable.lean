import Mathlib.Data.List.TakeWhile
import ZSim.Timetable

/-! The instruction window as a representation of a timetable: the cells of its two arrays and of
its map, cycle by cycle. Its loops do on the representation what they do on the timetable. -/

namespace ZSim.OOO

/-- What a map has for a cycle, else `d`. -/
def ubGet : List (Nat × WinCycle) → Nat → WinCycle → WinCycle
  | [], _, d => d
  | (cycle, wc) :: ub, t, d => if cycle = t then wc else ubGet ub t d

def UBSorted (ub : List (Nat × WinCycle)) : Prop := ub.Pairwise fun e e' => e.1 < e'.1

variable {ub ub' : List (Nat × WinCycle)} {t bound : Nat} {d : WinCycle}

theorem ubGet_of_forall_ne (h : ∀ e ∈ ub, e.1 ≠ t) : ubGet ub t d = d := by
  induction ub with
  | nil => rfl
  | cons e ub ih =>
    rw [ubGet, if_neg (h e List.mem_cons_self)]
    exact ih fun e' he' => h e' (List.mem_cons_of_mem e he')

theorem ubGet_append : ubGet (ub ++ ub') t d = ubGet ub t (ubGet ub' t d) := by
  induction ub with
  | nil => rfl
  | cons e ub ih => rw [List.cons_append, ubGet, ubGet, ih]

theorem ubGet_of_mem {e : Nat × WinCycle} (h : UBSorted ub) (he : e ∈ ub) :
    ubGet ub e.1 d = e.2 := by
  induction ub with
  | nil => cases he
  | cons e' ub ih =>
    obtain ⟨hlt, hsorted⟩ := List.pairwise_cons.mp h
    rcases List.mem_cons.mp he with rfl | hmem
    · rw [ubGet, if_pos rfl]
    · rw [ubGet, if_neg (Nat.ne_of_lt (hlt e hmem))]
      exact ih hsorted hmem

theorem le_of_mem_ubRest {e : Nat × WinCycle} (h : UBSorted ub)
    (he : e ∈ ub.dropWhile fun e => e.1 < bound) : bound ≤ e.1 := by
  induction ub with
  | nil => cases he
  | cons e' ub ih =>
    obtain ⟨hlt, hsorted⟩ := List.pairwise_cons.mp h
    rw [List.dropWhile_cons] at he
    split at he
    · exact ih hsorted he
    · rename_i hge
      have hge : bound ≤ e'.1 := by simpa using hge
      rcases List.mem_cons.mp he with rfl | hmem
      · exact hge
      · exact hge.trans (hlt e hmem).le

theorem lt_of_mem_ubMoved {e : Nat × WinCycle} (he : e ∈ ub.takeWhile fun e => e.1 < bound) :
    e.1 < bound := by simpa using List.mem_takeWhile_imp he

theorem ubGet_moved (h : UBSorted ub) (ht : t < bound) :
    ubGet ub t d = ubGet (ub.takeWhile fun e => e.1 < bound) t d := by
  conv_lhs => rw [← List.takeWhile_append_dropWhile (p := fun e => decide (e.1 < bound)) (l := ub)]
  rw [ubGet_append]
  congr 1
  apply ubGet_of_forall_ne
  intro e he
  have := le_of_mem_ubRest h he
  omega

theorem ubGet_rest (ht : bound ≤ t) :
    ubGet ub t d = ubGet (ub.dropWhile fun e => e.1 < bound) t d := by
  conv_lhs => rw [← List.takeWhile_append_dropWhile (p := fun e => decide (e.1 < bound)) (l := ub)]
  rw [ubGet_append]
  apply ubGet_of_forall_ne
  intro e he
  have := lt_of_mem_ubMoved he
  omega

/-- What the walk over the map finds and leaves. -/
structure UBScheduled (touch : Bool) (portMask : BitVec 8) (ub ub' : List (Nat × WinCycle))
    (req found port : Nat) (wc : WinCycle) : Prop where
  le : req ≤ found
  taken : trySchedule touch (ubGet ub found .empty) portMask = some (wc, port)
  busy : ∀ u, req ≤ u → u < found → ¬ (ubGet ub u .empty).IsFree portMask
  get : ∀ u, ubGet ub' u .empty = if u = found then wc else ubGet ub u .empty
  mem : ∀ e ∈ ub', e ∈ ub ∨ e = (found, wc)
  sorted : UBSorted ub'

variable {touch : Bool} {portMask : BitVec 8} {wc : WinCycle} {req found port : Nat}

theorem UBScheduled.cons {cycle : Nat} {wc' : WinCycle}
    (h : UBScheduled touch portMask ub ub' req found port wc) (hlt : cycle < req)
    (hub : ∀ e ∈ ub, cycle < e.1) :
    UBScheduled touch portMask ((cycle, wc') :: ub) ((cycle, wc') :: ub') req found port wc := by
  have hle := h.le
  have hget : ∀ u, req ≤ u → ubGet ((cycle, wc') :: ub) u .empty = ubGet ub u .empty := by
    intro u hu
    rw [ubGet, if_neg (by omega)]
  refine ⟨hle, ?_, ?_, ?_, ?_, ?_⟩
  · rw [hget _ hle]
    exact h.taken
  · intro u hu hlt'
    rw [hget _ hu]
    exact h.busy u hu hlt'
  · intro u
    rw [ubGet, ubGet, h.get]
    split_ifs with hc hf
    · omega
    · rfl
    · rfl
    · rfl
  · intro e he
    rcases List.mem_cons.mp he with rfl | he
    · exact Or.inl List.mem_cons_self
    · exact (h.mem e he).imp_left (List.mem_cons_of_mem _)
  · apply List.pairwise_cons.mpr ⟨_, h.sorted⟩
    intro e he
    rcases h.mem e he with he | rfl
    · exact hub e he
    · exact hlt.trans_le hle

theorem UBScheduled.insert (hlt : ∀ e ∈ ub, req < e.1) (hsorted : UBSorted ub)
    (htry : trySchedule touch .empty portMask = some (wc, port)) :
    UBScheduled touch portMask ub ((req, wc) :: ub) req req port wc := by
  have hempty : ubGet ub req .empty = .empty :=
    ubGet_of_forall_ne fun e he => (Nat.ne_of_lt (hlt e he)).symm
  refine ⟨Nat.le_refl _, ?_, ?_, ?_, ?_, List.pairwise_cons.mpr ⟨hlt, hsorted⟩⟩
  · rw [hempty]
    exact htry
  · intro u hu hlt'
    omega
  · intro u
    rw [ubGet]
    exact if_congr eq_comm rfl rfl
  · intro e he
    exact (List.mem_cons.mp he).symm

theorem UBScheduled.head {wc₀ : WinCycle} (hsorted : UBSorted ((req, wc₀) :: ub))
    (htry : trySchedule touch wc₀ portMask = some (wc, port)) :
    UBScheduled touch portMask ((req, wc₀) :: ub) ((req, wc) :: ub) req req port wc := by
  refine ⟨Nat.le_refl _, ?_, ?_, ?_, ?_, List.pairwise_cons.mpr (List.pairwise_cons.mp hsorted)⟩
  · rw [ubGet, if_pos rfl]
    exact htry
  · intro u hu hlt'
    omega
  · intro u
    rw [ubGet, ubGet]
    split_ifs with hu hu' hu'
    · rfl
    · exact absurd hu.symm hu'
    · exact absurd hu'.symm hu
    · rfl
  · intro e he
    rcases List.mem_cons.mp he with rfl | he
    · exact Or.inr rfl
    · exact Or.inl (List.mem_cons_of_mem _ he)

theorem UBScheduled.skip (h : UBScheduled touch portMask ub ub' (req + 1) found port wc)
    (hbusy : ¬ (ubGet ub req .empty).IsFree portMask) :
    UBScheduled touch portMask ub ub' req found port wc := by
  refine ⟨Nat.le_of_succ_le h.le, h.taken, ?_, h.get, h.mem, h.sorted⟩
  intro u hu hlt
  by_cases heq : u = req
  · rw [heq]
    exact hbusy
  · exact h.busy u (by omega) hlt

theorem scheduleUB_spec (hsorted : UBSorted ub)
    (h : scheduleUB touch portMask ub req = some (ub', found, port)) :
    ∃ wc, UBScheduled touch portMask ub ub' req found port wc := by
  induction ub generalizing req ub' with
  | nil =>
    rw [scheduleUB] at h
    split at h
    · rename_i wc port₁ htry
      cases h
      exact ⟨wc, UBScheduled.insert (List.forall_mem_nil _) hsorted htry⟩
    · cases h
  | cons e ub ih =>
    obtain ⟨cycle, wc₀⟩ := e
    obtain ⟨hlt, hrest⟩ := List.pairwise_cons.mp hsorted
    rw [scheduleUB] at h
    split_ifs at h with hbefore hne
    · split at h
      · rename_i ub₁ r hrec
        cases h
        obtain ⟨wc, hspec⟩ := ih hrest hrec
        exact ⟨wc, hspec.cons hbefore hlt⟩
      · cases h
    · have hreq : req < cycle := by omega
      split at h
      · rename_i wc port₁ htry
        cases h
        refine ⟨wc, UBScheduled.insert ?_ hsorted htry⟩
        intro e he
        rcases List.mem_cons.mp he with rfl | he
        · exact hreq
        · exact hreq.trans (hlt e he)
      · cases h
    · obtain rfl : cycle = req := not_not.mp hne
      split at h
      · rename_i wc port₁ htry
        cases h
        exact ⟨wc, UBScheduled.head hsorted htry⟩
      · rename_i hbusy
        split at h
        · rename_i ub₁ r hrec
          cases h
          obtain ⟨wc, hspec⟩ := ih hrest hrec
          refine ⟨wc, (hspec.cons (Nat.lt_succ_self _) hlt).skip ?_⟩
          rw [ubGet, if_pos rfl]
          exact trySchedule_none.mp hbusy
        · cases h

theorem scheduleUB_some (touch : Bool) (ub : List (Nat × WinCycle)) (hmask : portMask ≠ 0) :
    ∃ r, scheduleUB touch portMask ub req = some r := by
  obtain ⟨r, htry⟩ : ∃ r, trySchedule touch .empty portMask = some r := by
    apply Option.ne_none_iff_exists'.mp
    exact fun hnone => trySchedule_none.mp hnone (Timetable.isFree_empty hmask)
  induction ub generalizing req with
  | nil =>
    rw [scheduleUB, htry]
    exact ⟨_, rfl⟩
  | cons e ub ih =>
    rw [scheduleUB]
    split_ifs with hbefore hne
    · obtain ⟨r', hrec⟩ := @ih req
      rw [hrec]
      exact ⟨_, rfl⟩
    · rw [htry]
      exact ⟨_, rfl⟩
    · split
      · exact ⟨_, rfl⟩
      · obtain ⟨r', hrec⟩ := @ih (req + 1)
        rw [hrec]
        exact ⟨_, rfl⟩

namespace WindowStructure

variable {H : Nat} {win : Nat → WinCycle} {pos : Nat}

theorem findCycle_eq_some (h : findCycle H win portMask pos = some found) :
    pos ≤ found ∧ found < H ∧ (win found).IsFree portMask ∧
      ∀ i, pos ≤ i → i < found → ¬ (win i).IsFree portMask := by
  obtain ⟨hfree, hmem, hbusy⟩ := List.find?_range'_eq_some.mp h
  have hrange := List.mem_range'_1.mp hmem
  refine ⟨hrange.1, by omega, of_decide_eq_true hfree, ?_⟩
  intro i hi hlt hfree'
  have := hbusy i hi hlt
  rw [Bool.not_eq_true', decide_eq_false_iff_not] at this
  exact this hfree'

theorem findCycle_eq_none (h : findCycle H win portMask pos = none) {i : Nat} (hi : pos ≤ i)
    (hlt : i < H) : ¬ (win i).IsFree portMask := by
  intro hfree
  have := List.find?_range'_eq_none.mp h i hi (by omega)
  rw [Bool.not_eq_true', decide_eq_false_iff_not] at this
  exact this hfree

variable (w : WindowStructure H)

/-- What is taken in a cycle from the current one on. -/
def cellAt (curCycle t : Nat) : WinCycle :=
  let pos := w.curPos.val + (t - curCycle)
  if pos < H then w.curWin pos
  else if pos < 2 * H then w.nextWin (pos - H)
  else ubGet w.ubWin t .empty

/-- The window has what the timetable has from the current cycle on. -/
structure Represents (cur : Nat) (T : Timetable) : Prop where
  now : T.now = cur
  cells : ∀ t, cur ≤ t → w.cellAt cur t = T.cells t
  past : ∀ i, i < w.curPos.val → w.curWin i = .empty
  sorted : UBSorted w.ubWin
  far : ∀ e ∈ w.ubWin, cur + 2 * H ≤ e.1 + w.curPos.val
  reserved : ∀ e ∈ w.ubWin, e.2.occUnits ≠ 0
  occupancy : w.occupancy = T.occupancy
  lastPort : w.lastPort = T.lastPort

variable {w} {w' : WindowStructure H} {cur : Nat} {T : Timetable}

theorem cellAt_cur (h : w.curPos.val + (t - cur) < H) :
    w.cellAt cur t = w.curWin (w.curPos.val + (t - cur)) := if_pos h

theorem cellAt_next (hge : H ≤ w.curPos.val + (t - cur))
    (hlt : w.curPos.val + (t - cur) < 2 * H) :
    w.cellAt cur t = w.nextWin (w.curPos.val + (t - cur) - H) := by
  unfold cellAt
  rw [if_neg (Nat.not_lt.mpr hge), if_pos hlt]

theorem cellAt_ub (hge : 2 * H ≤ w.curPos.val + (t - cur)) :
    w.cellAt cur t = ubGet w.ubWin t .empty := by
  unfold cellAt
  rw [if_neg (by omega), if_neg (by omega)]

/-- The place that `place` takes is the first, and the rest of the window is as it was. -/
structure Placed (touch : Bool) (portMask : BitVec 8) (cur req : Nat) (T : Timetable)
    (w' : WindowStructure H) (found port : Nat) : Prop where
  first : IsLeast (T.freeFrom portMask req) found
  put : ∃ wc, trySchedule touch (T.cells found) portMask = some (wc, port) ∧
    w'.Represents cur (T.put touch portMask found wc)

/-- A cell of the window is taken, in place of the same cell of the timetable. -/
theorem Represents.put (h : w.Represents cur T) (hpos : w'.curPos = w.curPos)
    (hlast : w'.lastPort = w.lastPort)
    (hocc : w'.occupancy = if touch then w.occupancy + 1 else w.occupancy)
    (hcells : ∀ u, cur ≤ u → w'.cellAt cur u = if u = found then wc else w.cellAt cur u)
    (hpast : ∀ i, i < w.curPos.val → w'.curWin i = w.curWin i)
    (hsorted : UBSorted w'.ubWin)
    (hmem : ∀ e ∈ w'.ubWin, e ∈ w.ubWin ∨ e = (found, wc))
    (hfound : (found, wc) ∈ w'.ubWin → cur + 2 * H ≤ found + w.curPos.val)
    (htakes : wc.occUnits ≠ 0) : w'.Represents cur (T.put touch portMask found wc) := by
  refine ⟨h.now, ?_, ?_, hsorted, ?_, ?_, ?_, hlast.trans h.lastPort⟩
  · intro u hu
    rw [hcells u hu, h.cells u hu, Timetable.put_cells]
  · intro i hi
    rw [hpos] at hi
    rw [hpast i hi]
    exact h.past i hi
  · intro e he
    rw [hpos]
    rcases hmem e he with hold | rfl
    · exact h.far e hold
    · exact hfound he
  · intro e he
    rcases hmem e he with hold | rfl
    · exact h.reserved e hold
    · exact htakes
  · rw [hocc, h.occupancy]
    rfl

theorem Represents.isLeast (h : w.Represents cur T) (hle : max req cur ≤ found)
    (hfree : (w.cellAt cur found).IsFree portMask)
    (hbusy : ∀ u, max req cur ≤ u → u < found → ¬ (w.cellAt cur u).IsFree portMask) :
    IsLeast (T.freeFrom portMask req) found := by
  have hcur : ∀ u, max req cur ≤ u → cur ≤ u := fun u hu => (le_max_right _ _).trans hu
  refine ⟨⟨?_, ?_⟩, ?_⟩
  · rw [h.now]
    exact hle
  · rw [← h.cells _ (hcur _ hle)]
    exact hfree
  · intro u hu
    obtain ⟨hu, hfree'⟩ := hu
    rw [h.now] at hu
    rw [← h.cells _ (hcur _ hu)] at hfree'
    by_contra hlt
    exact hbusy u hu (not_le.mp hlt) hfree'

theorem Represents.placed_cur (h : w.Represents cur T)
    (hfind : findCycle H w.curWin portMask (w.curPos.val + (req - cur)) = some pos)
    (htry : trySchedule touch (w.curWin pos) portMask = some (wc, port)) :
    Placed touch portMask cur req T
      { w with
        curWin := Function.update w.curWin pos wc
        occupancy := if touch then w.occupancy + 1 else w.occupancy }
      (cur + (pos - w.curPos.val)) port := by
  obtain ⟨hge, hlt, hfree, hbusy⟩ := findCycle_eq_some hfind
  have hfound : w.curPos.val + (cur + (pos - w.curPos.val) - cur) = pos := by omega
  have hcell : w.cellAt cur (cur + (pos - w.curPos.val)) = w.curWin pos := by
    rw [cellAt_cur (by omega), hfound]
  refine ⟨h.isLeast (by omega) (hcell ▸ hfree) ?_, wc, ?_, ?_⟩
  · intro u hu hlt'
    rw [cellAt_cur (by omega)]
    exact hbusy _ (by omega) (by omega)
  · rw [← h.cells _ (by omega), hcell]
    exact htry
  · refine h.put rfl rfl rfl ?_ ?_ h.sorted (fun e he => Or.inl he) (fun he => h.far _ he)
      (trySchedule_takes htry).occUnits_ne
    · intro u hu
      unfold cellAt
      dsimp only
      split_ifs with hnear heq heq
      · rw [heq, hfound, Function.update_self]
      · rw [Function.update_of_ne (by omega)]
      · omega
      · rfl
      · omega
      · rfl
    · intro i hi
      exact Function.update_of_ne (by omega) ..

theorem Represents.placed_next (h : w.Represents cur T)
    (hnone : findCycle H w.curWin portMask (w.curPos.val + (req - cur)) = none)
    (hfind : findCycle H w.nextWin portMask (max (w.curPos.val + (req - cur)) H - H) = some pos)
    (htry : trySchedule touch (w.nextWin pos) portMask = some (wc, port)) :
    Placed touch portMask cur req T
      { w with
        nextWin := Function.update w.nextWin pos wc
        occupancy := if touch then w.occupancy + 1 else w.occupancy }
      (cur + (pos + H - w.curPos.val)) port := by
  have hcur := w.curPos.isLt
  obtain ⟨hge, hlt, hfree, hbusy⟩ := findCycle_eq_some hfind
  have hfound : w.curPos.val + (cur + (pos + H - w.curPos.val) - cur) - H = pos := by omega
  have hcell : w.cellAt cur (cur + (pos + H - w.curPos.val)) = w.nextWin pos := by
    rw [cellAt_next (by omega) (by omega), hfound]
  refine ⟨h.isLeast (by omega) (hcell ▸ hfree) ?_, wc, ?_, ?_⟩
  · intro u hu hlt'
    by_cases hnear : w.curPos.val + (u - cur) < H
    · rw [cellAt_cur hnear]
      exact findCycle_eq_none hnone (by omega) hnear
    · rw [cellAt_next (by omega) (by omega)]
      exact hbusy _ (by omega) (by omega)
  · rw [← h.cells _ (by omega), hcell]
    exact htry
  · refine h.put rfl rfl rfl ?_ (fun i hi => rfl) h.sorted (fun e he => Or.inl he)
      (fun he => h.far _ he) (trySchedule_takes htry).occUnits_ne
    intro u hu
    unfold cellAt
    dsimp only
    split_ifs with hnear heq hnext heq heq
    · omega
    · rfl
    · rw [heq, hfound, Function.update_self]
    · rw [Function.update_of_ne (by omega)]
    · omega
    · rfl

theorem Represents.placed_ub (h : w.Represents cur T)
    (hnone : findCycle H w.curWin portMask (w.curPos.val + (req - cur)) = none)
    (hnone' : findCycle H w.nextWin portMask (max (w.curPos.val + (req - cur)) H - H) = none)
    (hub : scheduleUB touch portMask w.ubWin
      (cur + (max (max (w.curPos.val + (req - cur)) H - H) H + H - w.curPos.val)) =
        some (ub', found, port)) :
    Placed touch portMask cur req T
      { w with
        ubWin := ub'
        occupancy := if touch then w.occupancy + 1 else w.occupancy } found port := by
  have hcur := w.curPos.isLt
  obtain ⟨wc, hspec⟩ := scheduleUB_spec h.sorted hub
  have hle := hspec.le
  have hcell : w.cellAt cur found = ubGet w.ubWin found .empty := cellAt_ub (by omega)
  have hfree : (w.cellAt cur found).IsFree portMask := by
    by_contra hbusy
    have htaken := hspec.taken
    rw [← hcell, trySchedule_none.mpr hbusy] at htaken
    cases htaken
  refine ⟨h.isLeast (by omega) hfree ?_, wc, ?_, ?_⟩
  · intro u hu hlt
    by_cases hnear : w.curPos.val + (u - cur) < H
    · rw [cellAt_cur hnear]
      exact findCycle_eq_none hnone (by omega) hnear
    · by_cases hnext : w.curPos.val + (u - cur) < 2 * H
      · rw [cellAt_next (by omega) hnext]
        exact findCycle_eq_none hnone' (by omega) (by omega)
      · rw [cellAt_ub (by omega)]
        exact hspec.busy u (by omega) hlt
  · rw [← h.cells _ (by omega), hcell]
    exact hspec.taken
  · refine h.put rfl rfl rfl ?_ (fun i hi => rfl) hspec.sorted hspec.mem (fun _ => by omega)
      (trySchedule_takes hspec.taken).occUnits_ne
    intro u hu
    unfold cellAt
    dsimp only
    split_ifs with hnear heq hnext heq heq
    · omega
    · rfl
    · omega
    · rfl
    · rw [hspec.get, if_pos heq]
    · rw [hspec.get, if_neg heq]

theorem place_spec (h : w.Represents cur T) (hH : H ≤ 2 ^ 32)
    (hrange : w.curPos.val + (req - cur) < 2 ^ 32)
    (hplace : w.place touch cur req portMask = some (w', found, port)) :
    Placed touch portMask cur req T w' found port := by
  have hcur := w.curPos.isLt
  unfold place at hplace
  dsimp only at hplace
  rw [Nat.mod_eq_of_lt (show req - cur < 2 ^ 32 by omega), Nat.mod_eq_of_lt hrange] at hplace
  split at hplace
  · rename_i pos hfind
    obtain ⟨hge, hlt, -, -⟩ := findCycle_eq_some hfind
    have hmod : (pos + 2 ^ 32 - w.curPos.val) % 2 ^ 32 = pos - w.curPos.val := by omega
    rw [hmod] at hplace
    split at hplace
    · rename_i htry
      cases hplace
      exact h.placed_cur hfind htry
    · cases hplace
  · rename_i hnone
    split at hplace
    · rename_i pos hfind
      split at hplace
      · rename_i htry
        cases hplace
        exact h.placed_next hnone hfind htry
      · cases hplace
    · rename_i hnone'
      split at hplace
      · rename_i hub
        cases hplace
        exact h.placed_ub hnone hnone' hub
      · cases hplace

theorem place_some (hmask : portMask ≠ 0) (touch : Bool) (w : WindowStructure H)
    (cur req : Nat) : ∃ w' found port, w.place touch cur req portMask = some (w', found, port) := by
  unfold place
  dsimp only
  split
  · rename_i pos hfind
    split
    · exact ⟨_, _, _, rfl⟩
    · rename_i htry
      exact absurd (findCycle_eq_some hfind).2.2.1 (trySchedule_none.mp htry)
  · split
    · rename_i pos hfind
      split
      · exact ⟨_, _, _, rfl⟩
      · rename_i htry
        exact absurd (findCycle_eq_some hfind).2.2.1 (trySchedule_none.mp htry)
    · split
      · exact ⟨_, _, _, rfl⟩
      · rename_i hub
        obtain ⟨r, hsome⟩ := @scheduleUB_some _ _ touch w.ubWin hmask
        rw [hsome] at hub
        cases hub

theorem nextWinPos_eq {cycle : Nat} (hH : H ≤ 2 ^ 32) (hge : cur + H ≤ cycle)
    (hlt : cycle < cur + 2 * H) : nextWinPos H cur cycle = cycle - (cur + H) := by
  unfold nextWinPos
  rw [Int.emod_eq_of_lt (by omega) (by omega)]
  omega

theorem moved_cells {moved : List (Nat × WinCycle)} {base : Nat → WinCycle} {i : Nat}
    (hH : H ≤ 2 ^ 32) (hsorted : UBSorted moved)
    (hrange : ∀ e ∈ moved, cur + H ≤ e.1 ∧ e.1 < cur + 2 * H) :
    moved.foldl (fun win e => Function.update win (nextWinPos H cur e.1) e.2) base i =
      ubGet moved (cur + H + i) (base i) := by
  induction moved generalizing base with
  | nil => rfl
  | cons e moved ih =>
    obtain ⟨hlt, hrest⟩ := List.pairwise_cons.mp hsorted
    obtain ⟨hge, hend⟩ := hrange e List.mem_cons_self
    rw [List.foldl_cons, ih hrest fun e' he' => hrange e' (List.mem_cons_of_mem e he'), ubGet,
      nextWinPos_eq hH hge hend]
    split_ifs with heq
    · have hi : i = e.1 - (cur + H) := by omega
      rw [hi, Function.update_self]
      apply ubGet_of_forall_ne
      intro e' he'
      have := hlt e' he'
      omega
    · rw [Function.update_of_ne (by omega)]

theorem Represents.cell_now (h : w.Represents cur T) : w.curWin w.curPos = T.cells T.now := by
  have hcur := w.curPos.isLt
  rw [h.now, ← h.cells cur (Nat.le_refl _), cellAt_cur (by omega), Nat.sub_self, Nat.add_zero]

theorem Represents.advance_near (h : w.Represents cur T) (hlt : w.curPos.val + 1 < H) :
    Represents
      { w with
        occupancy := w.occupancy - (w.curWin w.curPos).count
        curWin := Function.update w.curWin w.curPos .empty
        curPos := ⟨w.curPos.val + 1, hlt⟩ } (cur + 1) T.advance := by
  refine ⟨congrArg (· + 1) h.now, ?_, ?_, h.sorted, ?_, h.reserved, ?_, h.lastPort⟩
  · intro t ht
    rw [show T.advance.cells t = T.cells t from rfl, ← h.cells t (by omega)]
    have hpos : w.curPos.val + 1 + (t - (cur + 1)) = w.curPos.val + (t - cur) := by omega
    unfold cellAt
    dsimp only
    rw [hpos, Function.update_of_ne (by omega)]
  · intro i hi
    dsimp only at hi ⊢
    by_cases heq : i = w.curPos.val
    · rw [heq, Function.update_self]
    · rw [Function.update_of_ne heq]
      exact h.past i (by omega)
  · intro e he
    have := h.far e he
    dsimp only
    omega
  · rw [h.cell_now, h.occupancy]
    rfl

theorem Represents.advance_rebase (h : w.Represents cur T) (hH : H ≤ 2 ^ 32)
    (hlast : w.curPos.val + 1 = H) : ∃ w' : WindowStructure H,
    rebase { w with
      occupancy := w.occupancy - (w.curWin w.curPos).count
      curWin := Function.update w.curWin w.curPos .empty }
        (Nat.zero_lt_of_lt w.curPos.isLt) (cur + 1) = some w' ∧
      w'.Represents (cur + 1) T.advance := by
  have hrange : ∀ e ∈ w.ubWin.takeWhile fun e => e.1 < cur + 1 + 2 * H,
      cur + 1 + H ≤ e.1 ∧ e.1 < cur + 1 + 2 * H := by
    intro e he
    have := h.far e ((List.takeWhile_sublist _).mem he)
    have := lt_of_mem_ubMoved he
    omega
  have hassert : ∀ e ∈ w.ubWin.takeWhile fun e => e.1 < cur + 1 + 2 * H,
      nextWinPos H (cur + 1) e.1 < H := by
    intro e he
    obtain ⟨hge, hlt⟩ := hrange e he
    rw [nextWinPos_eq hH hge hlt]
    omega
  have hempty : ∀ i, i < H → Function.update w.curWin w.curPos .empty i = .empty := by
    intro i hi
    by_cases heq : i = w.curPos.val
    · rw [heq, Function.update_self]
    · rw [Function.update_of_ne heq]
      exact h.past i (by omega)
  refine ⟨_, if_pos hassert, congrArg (· + 1) h.now, ?_, ?_, ?_, ?_, ?_, ?_, h.lastPort⟩
  · intro t ht
    rw [show T.advance.cells t = T.cells t from rfl, ← h.cells t (by omega)]
    by_cases hnear : t - (cur + 1) < H
    · have hpos : w.curPos.val + (t - cur) - H = 0 + (t - (cur + 1)) := by omega
      rw [cellAt_cur (by dsimp only; omega), cellAt_next (w := w) (by omega) (by omega), hpos]
    · rw [cellAt_ub (w := w) (by omega)]
      by_cases hnext : t - (cur + 1) < 2 * H
      · have ht' : cur + 1 + H + (0 + (t - (cur + 1)) - H) = t := by omega
        rw [cellAt_next (by dsimp only; omega) (by dsimp only; omega)]
        dsimp only
        rw [moved_cells hH (h.sorted.sublist (List.takeWhile_sublist _)) hrange,
          hempty _ (by omega), ht']
        exact (ubGet_moved h.sorted (by omega)).symm
      · rw [cellAt_ub (by dsimp only; omega)]
        exact (ubGet_rest (by omega)).symm
  · intro i hi
    cases hi
  · exact h.sorted.sublist (List.dropWhile_sublist _)
  · intro e he
    have := le_of_mem_ubRest h.sorted he
    exact this
  · exact fun e he => h.reserved e ((List.dropWhile_sublist _).mem he)
  · dsimp only
    rw [h.cell_now, h.occupancy]
    rfl

/-- A cycle passes in the window as it does in the timetable, with no assertion failed. -/
theorem advancePos_spec (h : w.Represents cur T) (hH : H ≤ 2 ^ 32) :
    ∃ w', w.advancePos cur = some (w', cur + 1) ∧ w'.Represents (cur + 1) T.advance := by
  have hcur := w.curPos.isLt
  unfold advancePos
  dsimp only
  by_cases hlt : w.curPos.val + 1 < H
  · rw [dif_pos hlt]
    exact ⟨_, rfl, h.advance_near hlt⟩
  · obtain ⟨w', hrebase, hw'⟩ := h.advance_rebase hH (by omega)
    rw [dif_neg hlt, hrebase]
    exact ⟨w', rfl, hw'⟩

end WindowStructure

end ZSim.OOO
