import ZSim.LRUVictim

/-! The policy that profiles violations, around LRU and in a set-associative array. Its accesses
update LRU twice, and its hook for the start of a replacement is not one that LRU calls. -/

namespace ZSim

structure ReplReq where
  read : Bool
  cycle : Nat

structure ArrayPolicy (P : Type) where
  init : P
  update : P → Nat → ReplReq → P
  rankCands : P → LineStates → List Nat → Nat
  replaced : P → Nat → P

/-- An access that updates the policy, with the states of the lines at that time. -/
structure LineAccess where
  lineAddr : Address
  req : ReplReq
  cc : LineStates

structure ReplArray (P : Type) where
  array : Nat → Address
  rp : P

namespace ReplArray

variable {P : Type} (T : ArrayPolicy P) (G : SetConfig) (hash : Address → Nat)

def lookup (s : ReplArray P) (lineAddr : Address) : Option Nat :=
  (SetAssocArray.set G (hash lineAddr)).find? fun id => s.array id = lineAddr

def preinsert (s : ReplArray P) (a : LineAccess) : Nat :=
  T.rankCands s.rp a.cc (SetAssocArray.set G (hash a.lineAddr))

def postinsert (s : ReplArray P) (a : LineAccess) (candidate : Nat) : ReplArray P where
  array := Function.update s.array candidate a.lineAddr
  rp := T.update (T.replaced s.rp candidate) candidate a.req

def access (s : ReplArray P) (a : LineAccess) : ReplArray P :=
  match s.lookup G hash a.lineAddr with
  | some id => { s with rp := T.update s.rp id a.req }
  | none => s.postinsert T a (s.preinsert T G hash a)

/-- The array after accesses, the last one first. -/
def after : List LineAccess → ReplArray P
  | [] => ⟨fun _ => 0, T.init⟩
  | a :: past => (after past).access T G hash a

def victim (s : ReplArray P) (a : LineAccess) : Option Nat :=
  match s.lookup G hash a.lineAddr with
  | some _ => none
  | none => some (s.preinsert T G hash a)

def replacements : List LineAccess → Nat
  | [] => 0
  | a :: past => replacements past + (((after T G hash past).victim T G hash a).elim 0 fun _ => 1)

end ReplArray

def lruPolicy (sharersAware : Bool) : ArrayPolicy LRUReplPolicy where
  init := .init
  update := fun rp id _ => rp.update id
  rankCands := fun rp cc cands => rp.rankCands sharersAware cc cands
  replaced := .replaced

structure AccTimes where
  read : Nat
  write : Nat

namespace AccTimes

def zero : AccTimes := ⟨0, 0⟩

def latest (t : AccTimes) : Nat := max t.read t.write

def record (t : AccTimes) (req : ReplReq) : AccTimes :=
  if req.read then { t with read := max t.read req.cycle }
  else { t with write := max t.write req.cycle }

end AccTimes

/-- Whether the violation is against a later read, or else a later write. -/
def readViol (t : AccTimes) (cycle : Nat) : Bool :=
  if cycle < min t.read t.write then t.read < t.write else cycle < t.read

structure ViolCounters where
  profRAW : Nat
  profWAR : Nat
  profRAR : Nat
  profWAW : Nat
  profNoViolAcc : Nat
  profAAE : Nat
  profNoViolEv : Nat

def ViolCounters.access (p : ViolCounters) (t : AccTimes) (req : ReplReq) : ViolCounters :=
  if req.cycle < t.latest then
    if req.read then
      if readViol t req.cycle then { p with profRAR := p.profRAR + 1 }
      else { p with profRAW := p.profRAW + 1 }
    else if readViol t req.cycle then { p with profWAR := p.profWAR + 1 }
    else { p with profWAW := p.profWAW + 1 }
  else { p with profNoViolAcc := p.profNoViolAcc + 1 }

structure ProfViolReplPolicy where
  rp : LRUReplPolicy
  accTimes : Nat → AccTimes
  prof : ViolCounters
  replCycle : Nat

namespace ProfViolReplPolicy

def init : ProfViolReplPolicy := ⟨.init, fun _ => .zero, ⟨0, 0, 0, 0, 0, 0, 0⟩, 0⟩

/-- The inner policy is updated before the access is profiled and once more after it. -/
def update (p : ProfViolReplPolicy) (id : Nat) (req : ReplReq) : ProfViolReplPolicy :=
  { p with
    rp := (p.rp.update id).update id
    prof := p.prof.access (p.accTimes id) req
    accTimes := Function.update p.accTimes id ((p.accTimes id).record req) }

/-- `replCycle` is set by `startReplacement`, a hook that the ranking of LRU does not call. -/
def replaced (p : ProfViolReplPolicy) (id : Nat) : ProfViolReplPolicy :=
  { p with
    rp := p.rp.replaced id
    prof := if p.replCycle < (p.accTimes id).latest then
        { p.prof with profAAE := p.prof.profAAE + 1 }
      else { p.prof with profNoViolEv := p.prof.profNoViolEv + 1 }
    accTimes := Function.update p.accTimes id .zero }

def policy (sharersAware : Bool) : ArrayPolicy ProfViolReplPolicy where
  init := init
  update := update
  rankCands := fun p cc cands => p.rp.rankCands sharersAware cc cands
  replaced := replaced

variable (sharersAware : Bool) (G : SetConfig) (hash : Address → Nat)

def after (accesses : List LineAccess) : ReplArray ProfViolReplPolicy :=
  ReplArray.after (policy sharersAware) G hash accesses

def alone (accesses : List LineAccess) : ReplArray LRUReplPolicy :=
  ReplArray.after (lruPolicy sharersAware) G hash accesses

def victim (past : List LineAccess) (a : LineAccess) : Option Nat :=
  (after sharersAware G hash past).victim (policy sharersAware) G hash a

/-- LRU is in the state it would reach alone. -/
def Transparent (accesses : List LineAccess) : Prop :=
  ∀ past, past <:+ accesses →
    (after sharersAware G hash past).rp.rp = (alone sharersAware G hash past).rp ∧
    (after sharersAware G hash past).array = (alone sharersAware G hash past).array

/-- A replacement counts as a violation just when its request is earlier than the last access to
the line evicted. -/
def CountsEviction (past : List LineAccess) (a : LineAccess) : Prop :=
  ∀ id, victim sharersAware G hash past a = some id →
    ((after sharersAware G hash (a :: past)).rp.prof.profAAE =
        (after sharersAware G hash past).rp.prof.profAAE + 1 ↔
      a.req.cycle < ((after sharersAware G hash past).rp.accTimes id).latest)

structure Exact (accesses : List LineAccess) : Prop where
  transparent : Transparent sharersAware G hash accesses
  evictions : ∀ a past, a :: past <:+ accesses → CountsEviction sharersAware G hash past a
  total : (after sharersAware G hash accesses).rp.prof.profAAE +
      (after sharersAware G hash accesses).rp.prof.profNoViolEv =
    ReplArray.replacements (policy sharersAware) G hash accesses

variable {sharersAware G hash} {a : LineAccess} {past accesses : List LineAccess}

theorem access_prof (p : ViolCounters) (t : AccTimes) (req : ReplReq) :
    (p.access t req).profAAE = p.profAAE ∧ (p.access t req).profNoViolEv = p.profNoViolEv := by
  unfold ViolCounters.access
  split_ifs <;> exact ⟨rfl, rfl⟩

theorem after_hit {id : Nat} (a : LineAccess)
    (h : (after sharersAware G hash past).lookup G hash a.lineAddr = some id) :
    after sharersAware G hash (a :: past) = { after sharersAware G hash past with
      rp := (after sharersAware G hash past).rp.update id a.req } := by
  unfold after at h ⊢
  rw [ReplArray.after, ReplArray.access, h]
  rfl

theorem after_miss {id : Nat} (h : victim sharersAware G hash past a = some id) :
    after sharersAware G hash (a :: past) =
      ⟨Function.update (after sharersAware G hash past).array id a.lineAddr,
        ((after sharersAware G hash past).rp.replaced id).update id a.req⟩ := by
  unfold victim ReplArray.victim at h
  unfold after at h ⊢
  rw [ReplArray.after, ReplArray.access]
  split at h
  · cases h
  · cases h
    rfl

theorem victim_cases (past : List LineAccess) (a : LineAccess) :
    (∃ id, (after sharersAware G hash past).lookup G hash a.lineAddr = some id ∧
      victim sharersAware G hash past a = none) ∨
    ∃ id, victim sharersAware G hash past a = some id := by
  unfold victim ReplArray.victim
  split
  · rename_i id h
    exact Or.inl ⟨id, h, rfl⟩
  · exact Or.inr ⟨_, rfl⟩

theorem replCycle_eq (accesses : List LineAccess) :
    (after sharersAware G hash accesses).rp.replCycle = 0 := by
  induction accesses with
  | nil => rfl
  | cons a past ih =>
    rcases victim_cases past a with ⟨id, hit, -⟩ | ⟨id, hv⟩
    · rw [after_hit a hit]
      exact ih
    · rw [after_miss hv]
      exact ih

theorem profAAE_eq {id : Nat} (h : victim sharersAware G hash past a = some id) :
    (after sharersAware G hash (a :: past)).rp.prof.profAAE =
      (after sharersAware G hash past).rp.prof.profAAE +
        if 0 < ((after sharersAware G hash past).rp.accTimes id).latest then 1 else 0 := by
  rw [after_miss h, update, (access_prof _ _ _).1, replaced, replCycle_eq]
  split <;> rfl

/-- An eviction is counted right just when its line was not accessed, or accessed after the
request. -/
theorem countsEviction_iff : CountsEviction sharersAware G hash past a ↔
    ∀ id, victim sharersAware G hash past a = some id →
      ((after sharersAware G hash past).rp.accTimes id).latest = 0 ∨
        a.req.cycle < ((after sharersAware G hash past).rp.accTimes id).latest := by
  constructor
  · intro h id hv
    have hcount := h id hv
    rw [profAAE_eq hv] at hcount
    by_cases hpos : 0 < ((after sharersAware G hash past).rp.accTimes id).latest
    · rw [if_pos hpos] at hcount
      exact Or.inr (hcount.mp rfl)
    · exact Or.inl (Nat.eq_zero_of_not_pos hpos)
  · intro h id hv
    rw [profAAE_eq hv]
    rcases h id hv with hzero | hlt
    · rw [hzero]
      simp
    · rw [if_pos (Nat.zero_lt_of_lt hlt)]
      exact iff_of_true rfl hlt

theorem evictions_total (accesses : List LineAccess) :
    (after sharersAware G hash accesses).rp.prof.profAAE +
        (after sharersAware G hash accesses).rp.prof.profNoViolEv =
      ReplArray.replacements (policy sharersAware) G hash accesses := by
  induction accesses with
  | nil => rfl
  | cons a past ih =>
    rw [ReplArray.replacements, ← ih]
    change _ = _ + (victim sharersAware G hash past a).elim 0 fun _ => 1
    rcases victim_cases past a with ⟨id, hit, hv⟩ | ⟨id, hv⟩
    · rw [hv, after_hit a hit]
      dsimp only
      rw [update, (access_prof _ _ _).1, (access_prof _ _ _).2]
      rfl
    · rw [hv, after_miss hv]
      dsimp only
      rw [update, (access_prof _ _ _).1, (access_prof _ _ _).2, replaced]
      dsimp only
      split
      · simp only [Option.elim]
        omega
      · simp only [Option.elim]
        omega

theorem first_access (a : LineAccess) :
    (after sharersAware G hash [a]).rp.rp.timestamp = 3 ∧
      (alone sharersAware G hash [a]).rp.timestamp = 2 := by
  constructor
  · rcases @victim_cases sharersAware G hash [] a with ⟨id, hit, -⟩ | ⟨id, hv⟩
    · rw [after_hit a hit]
      rfl
    · rw [after_miss hv]
      rfl
  · unfold alone
    rw [ReplArray.after, ReplArray.access]
    split <;> rfl

theorem transparent_iff : Transparent sharersAware G hash accesses ↔ accesses = [] := by
  constructor
  · intro h
    rcases List.eq_nil_or_concat accesses with hnil | ⟨past, a, hcat⟩
    · exact hnil
    · have hs : [a] <:+ accesses := ⟨past, by rw [hcat, List.concat_eq_append]⟩
      have hfirst := @first_access sharersAware G hash a
      rw [(h [a] hs).1, hfirst.2] at hfirst
      omega
  · rintro rfl past hs
    rw [List.suffix_nil.mp hs]
    exact ⟨rfl, rfl⟩

/-- The profiler is exact and transparent as long as there is no access. The evictions it counts
wrongly are those of lines accessed no later than the request. -/
theorem exact_iff (sharersAware : Bool) (G : SetConfig) (hash : Address → Nat)
    (accesses : List LineAccess) :
    (Exact sharersAware G hash accesses ↔ accesses = []) ∧
    (∀ a past, a :: past <:+ accesses → (CountsEviction sharersAware G hash past a ↔
      ∀ id, victim sharersAware G hash past a = some id →
        ((after sharersAware G hash past).rp.accTimes id).latest = 0 ∨
          a.req.cycle < ((after sharersAware G hash past).rp.accTimes id).latest)) ∧
    (after sharersAware G hash accesses).rp.prof.profAAE +
        (after sharersAware G hash accesses).rp.prof.profNoViolEv =
      ReplArray.replacements (policy sharersAware) G hash accesses := by
  refine ⟨⟨fun h => transparent_iff.mp h.transparent, ?_⟩,
    fun a past _ => countsEviction_iff, evictions_total accesses⟩
  rintro rfl
  exact ⟨transparent_iff.mpr rfl,
    fun a past h => absurd (List.suffix_nil.mp h) (List.cons_ne_nil a past), rfl⟩

theorem one_access : ¬ Exact true ⟨4, 1, by decide⟩ (fun a => a)
    [⟨0x40, ⟨true, 100⟩, ⟨fun _ => 0, fun _ => false⟩⟩] := by
  intro h
  exact absurd (congrArg LRUReplPolicy.timestamp (h.transparent _ (List.suffix_refl _)).1)
    (by decide)

end ProfViolReplPolicy

end ZSim
