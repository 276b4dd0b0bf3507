import ZSim.InListSpec

/-! Runs of operations on intrusive lists that share their nodes: after any calls that pass the
asserts, each list is the sequence that the same operations build from plain lists. -/

namespace ZSim

inductive InListOp (T L : Type)
  | push_front (l : L) (e : T)
  | push_back (l : L) (e : T)
  | pop_front (l : L)
  | pop_back (l : L)
  | remove (l : L) (e : T)
  | insertAfter (l : L) (prev e : T)

namespace InLists

variable {T L : Type} {s s' : InLists T L} {f : L → List T}

/-- The nodes from `e` on along `link`, if there are at most `fuel`. -/
def follow (link : T → Option T) : Nat → Option T → Option (List T)
  | _, none => some []
  | 0, some _ => none
  | fuel + 1, some e => (follow link fuel (link e)).map (e :: ·)

/-- Each list is a sequence without repetition, forwards and backwards. -/
structure Represents (s : InLists T L) (f : L → List T) : Prop where
  nodup : ∀ l, (f l).Nodup
  size : ∀ l, s.size l = (f l).length
  forward : ∀ l, follow (fun e => (s.node e).next) (s.size l) (s.front l) = some (f l)
  backward : ∀ l, follow (fun e => (s.node e).prev) (s.size l) (s.back l) = some (f l).reverse
  owner : ∀ e l, (s.node e).owner = some l ↔ e ∈ f l

theorem Holds.owner_iff (h : Holds s f) {e : T} {l : L} : (s.node e).owner = some l ↔ e ∈ f l := by
  refine ⟨fun ho => ?_, h.owner⟩
  by_cases he : ∃ l, e ∈ f l
  · obtain ⟨l', he⟩ := he
    have hl := h.owner he
    rw [ho, Option.some.injEq] at hl
    exact hl ▸ he
  · simp [h.blank e (not_exists.mp he), InListNode.init] at ho

theorem Holds.owner_eq_none_iff (h : Holds s f) {e : T} :
    (s.node e).owner = none ↔ ∀ l, e ∉ f l := by
  simp only [Option.eq_none_iff_forall_ne_some, ne_eq, h.owner_iff]

theorem Seg.follow_next {xs : List T} {l : L} {p : Option T} (h : Seg s l p xs none) :
    follow (fun e => (s.node e).next) xs.length xs.head? = some xs := by
  induction xs generalizing p with
  | nil => rfl
  | cons x xs ih =>
    obtain ⟨hx, hxs⟩ := h
    simp [follow, hx, ih hxs]

theorem Seg.follow_prev {xs : List T} {l : L} {n : Option T} (h : Seg s l none xs n) :
    follow (fun e => (s.node e).prev) xs.length xs.getLast? = some xs.reverse := by
  induction xs using List.reverseRecOn generalizing n with
  | nil => rfl
  | append_singleton xs x ih =>
    obtain ⟨hxs, hx⟩ := seg_append.mp h
    simp [follow, hx.1, ih hxs]

theorem Holds.represents (h : Holds s f) : Represents s f where
  nodup := h.nodup
  size _ := h.size_eq
  forward l := by
    rw [h.size_eq, h.front_eq]
    exact (h.seg l).follow_next
  backward l := by
    rw [h.size_eq, h.back_eq]
    exact (h.seg l).follow_prev
  owner _ _ := h.owner_iff

section Nodes

variable [DecidableEq T]

@[simp] theorem setPrevOf_owner {q p : Option T} {x : T} :
    ((s.setPrevOf q p).node x).owner = (s.node x).owner := by
  cases q with
  | none => rfl
  | some y => by_cases hx : x = y <;> simp [setPrevOf, hx]

@[simp] theorem setNextOf_owner {q n : Option T} {x : T} :
    ((s.setNextOf q n).node x).owner = (s.node x).owner := by
  cases q with
  | none => rfl
  | some y => by_cases hx : x = y <;> simp [setNextOf, hx]

end Nodes

variable [DecidableEq T] [DecidableEq L]

def step (s : InLists T L) : InListOp T L → Option (InLists T L)
  | .push_front l e => s.push_front l e
  | .push_back l e => s.push_back l e
  | .pop_front l => s.pop_front l
  | .pop_back l => s.pop_back l
  | .remove l e => s.remove l e
  | .insertAfter l prev e => s.insertAfter l prev e

def run (s : InLists T L) (ops : List (InListOp T L)) : Option (InLists T L) := ops.foldlM step s

/-- The operation on plain lists. -/
def act (f : L → List T) : InListOp T L → L → List T
  | .push_front l e => Function.update f l (e :: f l)
  | .push_back l e => Function.update f l (f l ++ [e])
  | .pop_front l => Function.update f l (f l).tail
  | .pop_back l => Function.update f l (f l).dropLast
  | .remove l e => Function.update f l ((f l).erase e)
  | .insertAfter l prev e => Function.update f l (insertBehind prev e (f l))

/-- What the asserts ask for. -/
def Allowed (f : L → List T) : InListOp T L → Prop
  | .push_front _ e => ∀ l, e ∉ f l
  | .push_back _ e => ∀ l, e ∉ f l
  | .pop_front _ => True
  | .pop_back _ => True
  | .remove l e => e ∈ f l
  | .insertAfter l prev e => prev ∈ f l ∧ ∀ l, e ∉ f l

theorem remove_eq_none {l : L} {e : T} (h : (s.node e).owner ≠ some l) : s.remove l e = none := by
  simp [remove, unlink, h]

theorem step_spec (h : Holds s f) (op : InListOp T L) :
    (Allowed f op → ∃ s', s.step op = some s' ∧ Holds s' (act f op)) ∧
      (¬ Allowed f op → s.step op = none) := by
  have hblank (e : T) (he : ¬ ∀ l, e ∉ f l) : ¬ s.Blank e :=
    fun hb => he (h.owner_eq_none_iff.mp hb.2.2)
  cases op with
  | push_front l e =>
    exact ⟨h.push_front l, fun he => by simp [step, InLists.push_front, hblank e he]⟩
  | push_back l e =>
    exact ⟨h.push_back l, fun he => by simp [step, InLists.push_back, hblank e he]⟩
  | pop_front l => exact ⟨fun _ => h.pop_front l, fun hn => (hn trivial).elim⟩
  | pop_back l => exact ⟨fun _ => h.pop_back l, fun hn => (hn trivial).elim⟩
  | remove l e =>
    exact ⟨h.remove, fun he => remove_eq_none fun ho => he (h.owner_iff.mp ho)⟩
  | insertAfter l prev e =>
    refine ⟨fun ha => h.insertAfter ha.1 ha.2, fun hn => if_neg fun ho => hn ?_⟩
    exact ⟨h.owner_iff.mp ho.2, h.owner_eq_none_iff.mp ho.1⟩

theorem run_holds (h : Holds s f) {ops : List (InListOp T L)} (hrun : s.run ops = some s') :
    Holds s' (ops.foldl act f) := by
  induction ops generalizing s f with
  | nil =>
    cases hrun
    exact h
  | cons op ops ih =>
    rw [run, List.foldlM_cons] at hrun
    obtain ⟨s₁, hs₁, hrun⟩ := Option.bind_eq_some_iff.mp hrun
    by_cases ha : Allowed f op
    · obtain ⟨s₂, hs₂, h₂⟩ := (step_spec h op).1 ha
      rw [hs₁, Option.some.injEq] at hs₂
      exact ih (hs₂ ▸ h₂) hrun
    · rw [(step_spec h op).2 ha] at hs₁
      cases hs₁

/-- After calls that pass the asserts the lists are the sequences that the operations build, and
the asserts of the next call hold exactly when it is allowed on these sequences. -/
theorem lists_refine_sequences {ops : List (InListOp T L)}
    (hrun : (init : InLists T L).run ops = some s) :
    Represents s (ops.foldl act fun _ => []) ∧
      ∀ op, (s.step op).isSome ↔ Allowed (ops.foldl act fun _ => []) op := by
  have h := run_holds init_holds hrun
  refine ⟨h.represents, fun op => ⟨fun hs => ?_, fun ha => ?_⟩⟩
  · by_contra ha
    simp [(step_spec h op).2 ha] at hs
  · obtain ⟨s', hs', -⟩ := (step_spec h op).1 ha
    simp [hs']

/-- Node 3 goes from the end of one list into the middle of another. -/
theorem lists_refine_sequences_moved :
    ∃ s : InLists Nat Bool, Represents s (fun l => if l then [1, 3, 2] else []) ∧
      (s.step (.push_back true 3)).isSome = false := by
  let ops : List (InListOp Nat Bool) := [.push_back false 3, .push_front true 2, .push_front true 1,
    .pop_back false, .insertAfter true 1 3]
  obtain ⟨s, hs⟩ : ∃ s, (init : InLists Nat Bool).run ops = some s := ⟨_, rfl⟩
  obtain ⟨hrep, hstep⟩ := lists_refine_sequences hs
  have hf : ops.foldl act (fun _ => []) = fun l => if l then [1, 3, 2] else [] := by
    funext l
    cases l <;> rfl
  rw [hf] at hrep hstep
  refine ⟨s, hrep, Bool.eq_false_iff.mpr fun h => ?_⟩
  exact (hstep (.push_back true 3)).mp h true (by simp)

end InLists

end ZSim
