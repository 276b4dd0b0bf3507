import ZSim.Prefetcher
import ZSim.ParentCacheSafety

/-! Prefetches under demand accesses in any order. The flag of `pfReq` lands in `pmcs`, so
the parent takes every prefetch for a demand. -/

namespace ZSim

namespace PrefetchSystem

open StreamPrefetcher

variable (numChildren numLines : Nat)

/-- The requests that the prefetcher issues carry the flag. -/
def Flagged (s : PrefetchSystem) : Event → Prop
  | .parent _ => True
  | .access d => ∀ q ∈ s.requests d, q.isSet MemReq.PREFETCH = true

/-- A prefetch makes the prefetcher no sharer of a line. -/
def AddsNoSharer (s s' : PrefetchSystem) : Event → Prop
  | .parent _ => True
  | .access _ => ∀ i < numLines, ∀ a, s'.parent.array i = some a →
      (s'.parent.tcc i).sharers s.childId = true →
        ∃ j < numLines, s.parent.array j = some a ∧ (s.parent.tcc j).sharers s.childId = true

/-- The directory lists the lines that demand requests were granted. -/
def ListsGranted (s : PrefetchSystem) : Prop :=
  ∀ i < numLines, ∀ a, s.parent.array i = some a → ∀ c < numChildren,
    ((s.parent.tcc i).sharers c = true ↔ s.parent.child c a ≠ .I)

/-- No assertion fails in the run, and no prefetch gets a permission. -/
def Lawful (s : PrefetchSystem) : List Event → Prop
  | [] => True
  | e :: es => s.Flagged e ∧ ∃ s', s.step numChildren numLines e = some s' ∧
      AddsNoSharer numLines s s' e ∧ s'.ListsGranted numChildren numLines ∧ s'.Lawful es

/-- The events may be taken one after the other, as far as no assertion fails. -/
def Runs (s : PrefetchSystem) : List Event → Prop
  | [] => True
  | e :: es => s.Allowed numChildren numLines e ∧
      ∀ s', s.step numChildren numLines e = some s' → s'.Runs es

/-- The tables make no access of the run issue a prefetch. -/
def Quiet (s : PrefetchSystem) : List Event → Prop
  | [] => True
  | e :: es => (∀ d, e = .access d → s.pf.issued d.lineAddr d.respCycle = []) ∧
      ∀ s', s.step numChildren numLines e = some s' → s'.Quiet es

def init (childId : Nat) (pf : StreamPrefetcher) : PrefetchSystem := ⟨childId, pf, .init⟩

variable {numChildren numLines} {s : PrefetchSystem}

theorem pfReq_not_flagged (lineAddr : Address) (childId reqCycle srcId : Nat) (childLock : Bool)
    (pos : BitVec 32) :
    (pfReq lineAddr childId reqCycle srcId childLock pos).isSet MemReq.PREFETCH = false := by
  show decide ((0 : BitVec 32) &&& MemReq.PREFETCH ≠ 0) = false
  decide

/-- Only an access that issues nothing issues no unflagged request. -/
theorem flagged_iff {e : Event} :
    s.Flagged e ↔ ∀ d, e = .access d → s.pf.issued d.lineAddr d.respCycle = [] := by
  cases e with
  | parent a =>
    constructor
    · intro _ d hd
      cases hd
    · exact fun _ => trivial
  | access d =>
    constructor
    · intro h d' hd
      cases hd
      by_contra hne
      obtain ⟨pos, hpos⟩ := List.exists_mem_of_ne_nil _ hne
      have hset := h _ (List.mem_map_of_mem hpos)
      rw [pfReq_not_flagged] at hset
      cases hset
    · intro h q hq
      rw [requests, h d rfl] at hq
      cases hq

theorem access_of_quiet {d : Demand} (h : s.pf.issued d.lineAddr d.respCycle = []) :
    s.access numChildren numLines d =
      some { s with pf := s.pf.train d.lineAddr d.reqCycle d.respCycle [] } := by
  rw [access, requests, h]
  rfl

theorem listsGranted_of_inv (h : s.parent.Inv numChildren numLines) :
    s.ListsGranted numChildren numLines :=
  fun _ hi _ ha => (h.directoryAgrees hi ha).sharers

theorem step_of_quiet {e : Event} (h : s.parent.Inv numChildren numLines)
    (ha : s.Allowed numChildren numLines e)
    (hq : ∀ d, e = .access d → s.pf.issued d.lineAddr d.respCycle = []) :
    ∃ s', s.step numChildren numLines e = some s' ∧ s'.parent.Inv numChildren numLines ∧
      AddsNoSharer numLines s s' e := by
  cases e with
  | parent a =>
    obtain ⟨p, hp, hinv⟩ := ParentCache.step_spec h ha.1
    refine ⟨{ s with parent := p }, ?_, hinv, trivial⟩
    rw [step, hp, Option.map_some]
  | access d =>
    refine ⟨_, access_of_quiet (hq d rfl), h, ?_⟩
    intro i hi a ha hsh
    exact ⟨i, hi, ha, hsh⟩

theorem lawful_iff_quiet {es : List Event} (h : s.parent.Inv numChildren numLines)
    (hruns : s.Runs numChildren numLines es) :
    s.Lawful numChildren numLines es ↔ s.Quiet numChildren numLines es := by
  induction es generalizing s with
  | nil => exact Iff.rfl
  | cons e es ih =>
    obtain ⟨ha, hrest⟩ := hruns
    rw [Lawful, Quiet, flagged_iff]
    constructor
    · rintro ⟨hq, s', hs', -, -, hl⟩
      obtain ⟨s₁, hs₁, hinv, -⟩ := step_of_quiet h ha hq
      refine ⟨hq, fun s'' hs'' => ?_⟩
      rw [hs'] at hs₁ hs''
      cases hs₁
      cases hs''
      exact (ih hinv (hrest s' hs')).mp hl
    · rintro ⟨hq, hl⟩
      obtain ⟨s', hs', hinv, hadds⟩ := step_of_quiet h ha hq
      exact ⟨hq, s', hs', hadds, listsGranted_of_inv hinv,
        (ih hinv (hrest s' hs')).mpr (hl s' hs')⟩

/-- The prefetches of a run get no permission just when there are none. -/
theorem lawful_iff_no_prefetch {childId : Nat} {pf : StreamPrefetcher} {es : List Event}
    (hruns : (init childId pf).Runs numChildren numLines es) :
    (init childId pf).Lawful numChildren numLines es ↔
      (init childId pf).Quiet numChildren numLines es :=
  lawful_iff_quiet (ParentCache.inv_init numChildren numLines) hruns

/-- A GETS by the child of the prefetcher, served by a line of its own. -/
def get (lineAddr victim : Nat) : List Event :=
  [.parent (.issue 0 ⟨lineAddr, .GETS, .I, 0⟩), .parent (.start 0 victim fun _ => false),
    .parent (.resume .E fun _ => false),
    .access ⟨lineAddr, 10, 20, 0, true,
      [⟨2, fun _ => false, .E, 30⟩, ⟨3, fun _ => false, .E, 30⟩]⟩]

def emptyTables : StreamPrefetcher :=
  ⟨0, fun _ => 0, fun _ => ⟨0, 1, fun _ => 0, fun _ => false, 0, 0, 0, 0, 0⟩⟩

/-- One access: nothing is prefetched. -/
theorem lawful_iff_no_prefetch_get : (init 0 emptyTables).Runs 1 4 (get 64 0) ∧
    ((init 0 emptyTables).Lawful 1 4 (get 64 0) ↔ (init 0 emptyTables).Quiet 1 4 (get 64 0)) := by
  have hruns : (init 0 emptyTables).Runs 1 4 (get 64 0) := by
    refine ⟨⟨⟨by decide, rfl, rfl, rfl, by decide⟩, fun c r h => by cases h; rfl⟩, fun s₁ h₁ => ?_⟩
    cases h₁
    refine ⟨⟨⟨by decide, by decide, rfl, fun h => by cases h⟩, fun c r h => by cases h⟩,
      fun s₂ h₂ => ?_⟩
    cases h₂
    refine ⟨⟨rfl, fun c r h => by cases h⟩, fun s₃ h₃ => ?_⟩
    cases h₃
    exact ⟨⟨rfl, rfl⟩, fun s₄ _ => trivial⟩
  exact ⟨hruns, lawful_iff_no_prefetch hruns⟩

/-- The second access of a page prefetches the third line, with a request that has no flag. -/
theorem second_access_unlawful : (init 0 emptyTables).Runs 1 4 (get 64 0 ++ get 65 1) ∧
    ¬ (init 0 emptyTables).Lawful 1 4 (get 64 0 ++ get 65 1) := by
  constructor
  · refine ⟨⟨⟨by decide, rfl, rfl, rfl, by decide⟩, fun c r h => by cases h; rfl⟩, fun s₁ h₁ => ?_⟩
    cases h₁
    refine ⟨⟨⟨by decide, by decide, rfl, fun h => by cases h⟩, fun c r h => by cases h⟩,
      fun s₂ h₂ => ?_⟩
    cases h₂
    refine ⟨⟨rfl, fun c r h => by cases h⟩, fun s₃ h₃ => ?_⟩
    cases h₃
    refine ⟨⟨rfl, rfl⟩, fun s₄ h₄ => ?_⟩
    cases h₄
    refine ⟨⟨⟨by decide, rfl, rfl, rfl, by decide⟩, fun c r h => by cases h; rfl⟩, fun s₁ h₁ => ?_⟩
    cases h₁
    refine ⟨⟨⟨by decide, by decide, rfl, fun h => by cases h⟩, fun c r h => by cases h⟩,
      fun s₂ h₂ => ?_⟩
    cases h₂
    refine ⟨⟨rfl, fun c r h => by cases h⟩, fun s₃ h₃ => ?_⟩
    cases h₃
    exact ⟨⟨rfl, rfl⟩, fun s₄ _ => trivial⟩
  · rintro ⟨-, s₁, h₁, -, -, -, s₂, h₂, -, -, -, s₃, h₃, -, -, -, s₄, h₄, -, -, hl⟩
    cases h₁
    cases h₂
    cases h₃
    cases h₄
    obtain ⟨-, s₁, h₁, -, -, -, s₂, h₂, -, -, -, s₃, h₃, -, -, hflag, -⟩ := hl
    cases h₁
    cases h₂
    cases h₃
    have hnone := flagged_iff.mp hflag _ rfl
    revert hnone
    decide

end PrefetchSystem

end ZSim
