import ZSim.FutexProgress

/-! The locks of the memory hierarchy. A controller has `tcc` and `bcc` locks, a filter cache a
lock of its own, and a tracing cache or a memory one that no other lock is taken under. An
access gives its child's lock back on the way up and takes it again before it gives back its
own; an invalidation goes down from lock to lock.

A thread is a stack of calls. What depends on the contents of the arrays (a hit or a miss, the
sharers of a line, a race) is left open: a step may go either way. -/

namespace ZSim

open LockProgram

inductive MemKind
  | filterCache | cache | tracingCache | prefetcher | memory
  deriving DecidableEq

/-- The objects of the hierarchy. Filter caches are the terminal ones. -/
structure MemGraph (N : Type) where
  kind : N → MemKind
  children : N → List N
  parents : N → List N
  height : N → Nat
  depth : Nat
  height_le : ∀ n, height n ≤ depth
  child_lt : ∀ {n k}, k ∈ children n → height k < height n
  parent_lt : ∀ {n p}, p ∈ parents n → height n < height p
  terminal : ∀ {n}, kind n = .filterCache → children n = []
  prefetcher_parent : ∀ {n}, kind n = .prefetcher → parents n ≠ []
  prefetcher_child : ∀ {n}, kind n = .prefetcher → children n ≠ []

/-- `leaf` is the lock of a trace writer or of the latency of an M/D/1 memory. -/
inductive MemLock (N : Type)
  | tcc (n : N) | bcc (n : N) | filter (n : N) | leaf (n : N)
  deriving DecidableEq

/-- `Cache::access`. In `putting` and `getting` the call is in the parent; the lists are the
children that the loops of `sendInvalidates` have left. -/
inductive AccessPt (N : Type)
  | unlockChild | lockTcc | lockBcc | lookup
  | evictInv (rest : List N) | evictPut | putting
  | get | getting | accessInv (rest : List N)
  | relockChild | unlockBcc | unlockTcc | lockTrace | unlockTrace

/-- `FilterCache::invalidate` and `Cache::finishInvalidate`. -/
inductive InvPt (N : Type)
  | lockBcc | lockFilter | send (rest : List N) | unlockBcc | unlockFilter

inductive FilterPt
  | lock | call | calling | unlock

inductive MemoryPt
  | start | lock | unlock

/-- A call on the stack of a thread. `childLock` is the lock of the request. `left` is how many
accesses a prefetcher may still send for it, the demand access first. -/
inductive MemFrame (N : Type)
  | replace (n : N) (pt : FilterPt)
  | contextSwitch (n : N) (pt : FilterPt)
  | access (n : N) (childLock : Option (MemLock N)) (pt : AccessPt N)
  | prefetch (n : N) (childLock : Option (MemLock N)) (left : Nat) (calling : Bool)
  | memory (n : N) (childLock : Option (MemLock N)) (pt : MemoryPt)
  | invalidate (n : N) (pt : InvPt N)

abbrev MemStack (N : Type) := List (MemFrame N)

namespace MemGraph

variable {N : Type} (g : MemGraph N)

/-- `access` of the object `n`. -/
def access (n : N) (childLock : Option (MemLock N)) : MemFrame N :=
  match g.kind n with
  | .memory => .memory n childLock .start
  | .prefetcher => .prefetch n childLock 3 false
  | _ => .access n childLock .unlockChild

/-- The stack after a call of `access` has returned. -/
def returned : MemStack N → MemStack N
  | .replace n .calling :: fs => .replace n .unlock :: fs
  | .access n l .putting :: fs => .access n l .get :: fs
  | .access n l .getting :: fs => .access n l (.accessInv (g.children n)) :: fs
  | .prefetch n l left true :: fs => .prefetch n l left false :: fs
  | fs => fs

/-- A step without locks to one of some stacks. -/
def goes (next : MemStack N → Prop) : Instr (MemLock N) Unit (MemStack N) :=
  .act fun _ _ fs => next fs

/-- The code of a `Cache` at `n`. A skipped access goes from `lookup` to `relockChild`. A
writeback to a cache that is not inclusive is a `get` without invalidations after it. -/
def accessInstr (n : N) (l : Option (MemLock N)) (fs : MemStack N) :
    AccessPt N → Instr (MemLock N) Unit (MemStack N)
  | .unlockChild =>
    match l with
    | some lock => .unlock lock (.access n l .lockTcc :: fs)
    | none => goes (· = .access n l .lockTcc :: fs)
  | .lockTcc =>
    if g.kind n = .filterCache then goes (· = .access n l .lockBcc :: fs)
    else .lock (.tcc n) (.access n l .lockBcc :: fs)
  | .lockBcc => .lock (.bcc n) (.access n l .lookup :: fs)
  | .lookup => goes fun next => next = .access n l .relockChild :: fs ∨
      next = .access n l .get :: fs ∨ next = .access n l (.evictInv (g.children n)) :: fs
  | .evictInv [] => goes (· = .access n l .evictPut :: fs)
  | .evictInv (k :: ks) => goes fun next => next = .access n l (.evictInv ks) :: fs ∨
      next = .invalidate k .lockBcc :: .access n l (.evictInv ks) :: fs
  | .evictPut => goes fun next => next = .access n l .get :: fs ∨
      ∃ p ∈ g.parents n, next = g.access p (some (.bcc n)) :: .access n l .putting :: fs
  | .get => goes fun next => next = .access n l (.accessInv (g.children n)) :: fs ∨
      ∃ p ∈ g.parents n, next = g.access p (some (.bcc n)) :: .access n l .getting :: fs
  | .accessInv [] => goes (· = .access n l .relockChild :: fs)
  | .accessInv (k :: ks) => goes fun next => next = .access n l (.accessInv ks) :: fs ∨
      next = .invalidate k .lockBcc :: .access n l (.accessInv ks) :: fs
  | .relockChild =>
    match l with
    | some lock => .lock lock (.access n l .unlockBcc :: fs)
    | none => goes (· = .access n l .unlockBcc :: fs)
  | .unlockBcc => .unlock (.bcc n)
      (if g.kind n = .filterCache then g.returned fs else .access n l .unlockTcc :: fs)
  | .unlockTcc => .unlock (.tcc n)
      (if g.kind n = .tracingCache then .access n l .lockTrace :: fs else g.returned fs)
  | .lockTrace => .lock (.leaf n) (.access n l .unlockTrace :: fs)
  | .unlockTrace => .unlock (.leaf n) (g.returned fs)
  | .putting | .getting => goes fun _ => False

/-- The code of `invalidate` at `n`. -/
def invalidateInstr (n : N) (fs : MemStack N) : InvPt N → Instr (MemLock N) Unit (MemStack N)
  | .lockBcc =>
    if g.kind n = .prefetcher then goes fun next => ∃ k ∈ g.children n,
      next = .invalidate k .lockBcc :: fs
    else .lock (.bcc n) (.invalidate n
      (if g.kind n = .filterCache then .lockFilter else .send (g.children n)) :: fs)
  | .lockFilter => .lock (.filter n) (.invalidate n (.send (g.children n)) :: fs)
  | .send [] => goes (· = .invalidate n .unlockBcc :: fs)
  | .send (k :: ks) => goes fun next => next = .invalidate n (.send ks) :: fs ∨
      next = .invalidate k .lockBcc :: .invalidate n (.send ks) :: fs
  | .unlockBcc => .unlock (.bcc n)
      (if g.kind n = .filterCache then .invalidate n .unlockFilter :: fs else fs)
  | .unlockFilter => .unlock (.filter n) fs

/-- A core between two requests may access one of its filter caches or switch it to another
context, and a trace driver may access any object, without a lock of its own. -/
def instr : MemStack N → Instr (MemLock N) Unit (MemStack N)
  | [] => goes fun next => (∃ n, g.kind n = .filterCache ∧
      (next = [.replace n .lock] ∨ next = [.contextSwitch n .lock])) ∨
      ∃ n, next = [g.access n none]
  | .replace n .lock :: fs => .lock (.filter n) (.replace n .call :: fs)
  | .replace n .call :: fs =>
    goes (· = .access n (some (.filter n)) .unlockChild :: .replace n .calling :: fs)
  | .replace _ .calling :: _ => goes fun _ => False
  | .replace n .unlock :: fs => .unlock (.filter n) fs
  | .contextSwitch n .lock :: fs => .lock (.filter n) (.contextSwitch n .unlock :: fs)
  | .contextSwitch n .unlock :: fs => .unlock (.filter n) fs
  | .contextSwitch _ _ :: _ => goes fun _ => False
  | .access n l pt :: fs => g.accessInstr n l fs pt
  | .prefetch n l left false :: fs => goes fun next =>
      (left < 3 ∧ next = g.returned fs) ∨
      ∃ left' p, left = left' + 1 ∧ p ∈ g.parents n ∧
        next = g.access p l :: .prefetch n l left' true :: fs
  | .prefetch _ _ _ true :: _ => goes fun _ => False
  | .memory n l .start :: fs => goes fun next => next = g.returned fs ∨
      next = .memory n l .lock :: fs
  | .memory n l .lock :: fs => .lock (.leaf n) (.memory n l .unlock :: fs)
  | .memory n _ .unlock :: fs => .unlock (.leaf n) (g.returned fs)
  | .invalidate n pt :: fs => g.invalidateInstr n fs pt

end MemGraph

end ZSim
