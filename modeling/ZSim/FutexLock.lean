import ZSim.LockPrograms
import Mathlib.Tactic.Common

/-! The futex locks, run by the threads of a program over locks. Every read, write and atomic
operation on a lock word is a step of its own, and the kernel compares the word and puts the
thread to sleep in one step. A thread in the kernel may return without a wakeup, at a signal or
a timeout. Memory is sequentially consistent, and the pauses between the tries are left out. -/

namespace ZSim

open LockProgram

inductive FutexFn
  | futex_lock | futex_lock_nospin | futex_trylock_nospin_timeout | futex_unlock
  deriving DecidableEq

/-- Where a thread is in the code. `test` and `cas` count the tries that are left after this
one. -/
inductive FutexPc
  | test (left : Nat) | cas (left : Nat) | swap | wait | asleep | swapAgain
  | add | store | wake
  deriving DecidableEq

namespace FutexFn

/-- The tries in user space before the thread blocks. -/
def tries : FutexFn → Nat
  | futex_lock => 5
  | _ => 1

def IsLock (fn : FutexFn) : Prop := fn = futex_lock ∨ fn = futex_lock_nospin

end FutexFn

namespace FutexPc

/-- After a failed try: the next one, or the exchange. -/
def retry : Nat → FutexPc
  | 0 => swap
  | left + 1 => test left

end FutexPc

/-- What a step of the code leads to. -/
inductive FutexOut
  | go (pc : FutexPc) | acquired | failed | released (pc : Option FutexPc) | done
  deriving DecidableEq

/-- One step of the code at `pc`: the word it leaves and what follows. The step out of `asleep`
is a return from the kernel without a wakeup, and `wake` is here without the wakeup. -/
def futexExec (fn : FutexFn) (word : BitVec 32) : FutexPc → BitVec 32 × FutexOut
  | .test left => (word, .go (if word = 0#32 then .cas left else .retry left))
  | .cas left => if word = 0#32 then (1#32, .acquired) else (word, .go (.retry left))
  | .swap => (2#32, if word = 0#32 then .acquired else .go .wait)
  | .wait => (word, .go (if word = 2#32 then .asleep else .swapAgain))
  | .asleep => (word, .go .swapAgain)
  | .swapAgain => (2#32,
      if word = 0#32 then .acquired
      else if fn = .futex_trylock_nospin_timeout then .failed
      else .go (.retry fn.tries))
  | .add => (word - 1#32, if word = 1#32 then .released none else .go .store)
  | .store => (0#32, .released (some .wake))
  | .wake => (word, .done)

/-- The call a thread is in. -/
structure FutexCall (ι : Type) where
  fn : FutexFn
  lock : ι
  pc : FutexPc
  deriving DecidableEq

/-- The threads of a program and the words of its locks. -/
structure FutexConf (T ι σ π : Type) where
  data : σ
  place : T → π
  call : T → Option (FutexCall ι)
  word : ι → BitVec 32

variable {T ι σ π : Type}

namespace FutexConf

/-- No thread is in a call. A lock that starts taken has been locked once. -/
def init (s₀ : State T ι σ π) : FutexConf T ι σ π where
  data := s₀.data
  place := s₀.place
  call := fun _ => none
  word := fun i => if s₀.taken i then 1#32 else 0#32

/-- The state with atomic locks that the words stand for. -/
def abs (c : FutexConf T ι σ π) : State T ι σ π where
  data := c.data
  place := c.place
  taken := fun i => decide (c.word i ≠ 0#32)

def Asleep (c : FutexConf T ι σ π) (t : T) (i : ι) : Prop :=
  ∃ fn, c.call t = some ⟨fn, i, .asleep⟩

theorem abs_init (s₀ : State T ι σ π) : (init s₀).abs = s₀ := by
  simp [abs, init]

section setCall

variable [DecidableEq T]

def setCall (c : FutexConf T ι σ π) (t : T) (k : Option (FutexCall ι)) : FutexConf T ι σ π :=
  { c with call := Function.update c.call t k }

variable (c : FutexConf T ι σ π) (t : T) (k : Option (FutexCall ι))

@[simp] theorem setCall_data : (c.setCall t k).data = c.data := rfl
@[simp] theorem setCall_place : (c.setCall t k).place = c.place := rfl
@[simp] theorem setCall_word : (c.setCall t k).word = c.word := rfl
@[simp] theorem setCall_call : (c.setCall t k).call = Function.update c.call t k := rfl
@[simp] theorem abs_setCall : (c.setCall t k).abs = c.abs := rfl

end setCall

section goto

variable [DecidableEq T]

def goto (c : FutexConf T ι σ π) (t : T) (p : π) : FutexConf T ι σ π :=
  { c with place := Function.update c.place t p }

variable (c : FutexConf T ι σ π) (t : T) (p : π)

@[simp] theorem goto_data : (c.goto t p).data = c.data := rfl
@[simp] theorem goto_place : (c.goto t p).place = Function.update c.place t p := rfl
@[simp] theorem goto_word : (c.goto t p).word = c.word := rfl
@[simp] theorem goto_call : (c.goto t p).call = c.call := rfl
@[simp] theorem abs_goto : (c.goto t p).abs = c.abs.goto t p := rfl

end goto

section setWord

variable [DecidableEq ι]

def setWord (c : FutexConf T ι σ π) (i : ι) (w : BitVec 32) : FutexConf T ι σ π :=
  { c with word := Function.update c.word i w }

variable (c : FutexConf T ι σ π) (i : ι) (w : BitVec 32)

@[simp] theorem setWord_data : (c.setWord i w).data = c.data := rfl
@[simp] theorem setWord_place : (c.setWord i w).place = c.place := rfl
@[simp] theorem setWord_word : (c.setWord i w).word = Function.update c.word i w := rfl
@[simp] theorem setWord_call : (c.setWord i w).call = c.call := rfl

@[simp] theorem abs_setWord : (c.setWord i w).abs = c.abs.setTaken i (decide (w ≠ 0#32)) := by
  simp only [abs, setWord, State.setTaken, State.mk.injEq, true_and]
  funext j
  by_cases h : j = i
  · subst h
    simp
  · simp [h]

end setWord

section setData

def setData (c : FutexConf T ι σ π) (d : σ) : FutexConf T ι σ π :=
  { c with data := d }

variable (c : FutexConf T ι σ π) (d : σ)

@[simp] theorem setData_data : (c.setData d).data = d := rfl
@[simp] theorem setData_place : (c.setData d).place = c.place := rfl
@[simp] theorem setData_word : (c.setData d).word = c.word := rfl
@[simp] theorem setData_call : (c.setData d).call = c.call := rfl
@[simp] theorem abs_setData : (c.setData d).abs = c.abs.setData d := rfl

end setData

end FutexConf

variable [DecidableEq T] [DecidableEq ι]
variable (prog : T → π → Instr ι σ π)

/-- The step that thread `t` takes next. Which sleeping thread a wakeup wakes is up to the
kernel. -/
inductive FutexStep (t : T) (c : FutexConf T ι σ π) : FutexConf T ι σ π → Prop
  | lock {f : FutexFn} {i : ι} {p : π} : c.call t = none → prog t (c.place t) = .lock i p →
      f.IsLock → FutexStep t c (c.setCall t (some ⟨f, i, .retry f.tries⟩))
  | tryLock {i : ι} {p q : π} : c.call t = none → prog t (c.place t) = .tryLock i p q →
      FutexStep t c (c.setCall t (some ⟨.futex_trylock_nospin_timeout, i, .test 0⟩))
  | unlock {i : ι} {p : π} : c.call t = none → prog t (c.place t) = .unlock i p →
      FutexStep t c (c.setCall t (some ⟨.futex_unlock, i, .add⟩))
  | act {r : σ → σ → π → Prop} {d : σ} {p : π} : c.call t = none →
      prog t (c.place t) = .act r → r c.data d p → FutexStep t c ((c.setData d).goto t p)
  | go {k : FutexCall ι} {w : BitVec 32} {pc : FutexPc} : c.call t = some k →
      futexExec k.fn (c.word k.lock) k.pc = (w, .go pc) →
      FutexStep t c ((c.setWord k.lock w).setCall t (some { k with pc }))
  | acquired {k : FutexCall ι} {w : BitVec 32} {p : π} : c.call t = some k →
      futexExec k.fn (c.word k.lock) k.pc = (w, .acquired) →
      (prog t (c.place t) = .lock k.lock p ∨ ∃ q, prog t (c.place t) = .tryLock k.lock p q) →
      FutexStep t c (((c.setWord k.lock w).setCall t none).goto t p)
  | failed {k : FutexCall ι} {w : BitVec 32} {p q : π} : c.call t = some k →
      futexExec k.fn (c.word k.lock) k.pc = (w, .failed) →
      prog t (c.place t) = .tryLock k.lock p q →
      FutexStep t c (((c.setWord k.lock w).setCall t none).goto t q)
  | released {k : FutexCall ι} {w : BitVec 32} {pc : Option FutexPc} {p : π} :
      c.call t = some k → futexExec k.fn (c.word k.lock) k.pc = (w, .released pc) →
      prog t (c.place t) = .unlock k.lock p →
      FutexStep t c (((c.setWord k.lock w).setCall t
        (pc.map fun pc => { k with pc })).goto t p)
  | woken {k : FutexCall ι} {fn : FutexFn} {u : T} : c.call t = some k → k.pc = .wake →
      c.call u = some ⟨fn, k.lock, .asleep⟩ →
      FutexStep t c ((c.setCall u (some ⟨fn, k.lock, .swapAgain⟩)).setCall t none)
  | none_woken {k : FutexCall ι} : c.call t = some k → k.pc = .wake →
      (∀ u, ¬ c.Asleep u k.lock) → FutexStep t c (c.setCall t none)

abbrev FutexReachable (s₀ : State T ι σ π) : FutexConf T ι σ π → Prop :=
  Relation.ReflTransGen (fun c c' => ∃ t, FutexStep prog t c c') (.init s₀)

end ZSim
