import Mathlib.Data.List.Nodup
import Mathlib.Logic.Function.Basic

/-! Intrusive doubly linked lists: nodes of type `T`, and lists of type `L` that own them. -/

namespace ZSim

structure InListNode (T L : Type) where
  next : Option T
  prev : Option T
  owner : Option L

structure InList (T : Type) where
  head : Option T
  tail : Option T
  elems : Nat

/-- The nodes and the lists. A failed assert is `none`. -/
structure InLists (T L : Type) where
  node : T → InListNode T L
  list : L → InList T

def InListNode.init {T L : Type} : InListNode T L := ⟨none, none, none⟩

def InList.init {T : Type} : InList T := ⟨none, none, 0⟩

namespace InLists

variable {T L : Type} [DecidableEq T] [DecidableEq L]

def init : InLists T L := ⟨fun _ => .init, fun _ => .init⟩

def setNode (s : InLists T L) (e : T) (n : InListNode T L) : InLists T L :=
  { s with node := Function.update s.node e n }

def setList (s : InLists T L) (l : L) (v : InList T) : InLists T L :=
  { s with list := Function.update s.list l v }

def setNext (s : InLists T L) (e : T) (next : Option T) : InLists T L :=
  s.setNode e { s.node e with next := next }

def setPrev (s : InLists T L) (e : T) (prev : Option T) : InLists T L :=
  s.setNode e { s.node e with prev := prev }

/-- `if (e) e->prev = prev`. -/
def setPrevOf (s : InLists T L) (e prev : Option T) : InLists T L :=
  match e with
  | some e => s.setPrev e prev
  | none => s

/-- `if (e) e->next = next`. -/
def setNextOf (s : InLists T L) (e next : Option T) : InLists T L :=
  match e with
  | some e => s.setNext e next
  | none => s

def unlink (s : InLists T L) (e : T) (l : L) : Option (InLists T L) :=
  let s := s.setPrevOf (s.node e).next (s.node e).prev
  let s := s.setNextOf (s.node e).prev (s.node e).next
  if (s.node e).owner = some l then some (s.setNode e .init) else none

def Blank (s : InLists T L) (e : T) : Prop :=
  (s.node e).next = none ∧ (s.node e).prev = none ∧ (s.node e).owner = none

instance (s : InLists T L) (e : T) : Decidable (s.Blank e) :=
  inferInstanceAs (Decidable (_ ∧ _ ∧ _))

/-- `linkPrev` of `e` behind `p`. -/
def linkPrev (s : InLists T L) (e p : T) (l : L) : Option (InLists T L) :=
  if s.Blank e then
    match (s.node p).next with
    | some n =>
      if (s.node n).prev = some p then
        some (((s.setPrev n (some e)).setNext p (some e)).setNode e ⟨some n, some p, some l⟩)
      else none
    | none => some ((s.setNext p (some e)).setNode e ⟨none, some p, some l⟩)
  else none

def front (s : InLists T L) (l : L) : Option T := (s.list l).head

def back (s : InLists T L) (l : L) : Option T := (s.list l).tail

def size (s : InLists T L) (l : L) : Nat := (s.list l).elems

def push_front (s : InLists T L) (l : L) (e : T) : Option (InLists T L) :=
  if s.Blank e then
    match (s.list l).head with
    | none =>
      some ((s.setNode e ⟨none, none, some l⟩).setList l
        ⟨some e, some e, (s.list l).elems + 1⟩)
    | some h =>
      if (s.node h).prev = none ∧ (s.node h).owner = some l then
        some (((s.setPrev h (some e)).setNode e ⟨some h, none, some l⟩).setList l
          ⟨some e, (s.list l).tail, (s.list l).elems + 1⟩)
      else none
  else none

def push_back (s : InLists T L) (l : L) (e : T) : Option (InLists T L) :=
  if s.Blank e then
    match (s.list l).head with
    | none =>
      some ((s.setNode e ⟨none, none, some l⟩).setList l
        ⟨some e, some e, (s.list l).elems + 1⟩)
    | some h =>
      (s.list l).tail.bind fun t =>
        (s.linkPrev e t l).map fun s =>
          s.setList l ⟨some h, some e, (s.list l).elems + 1⟩
  else none

def remove (s : InLists T L) (l : L) (e : T) : Option (InLists T L) :=
  let head := if (s.list l).head = some e then (s.node e).next else (s.list l).head
  let tail := if (s.list l).tail = some e then (s.node e).prev else (s.list l).tail
  (s.unlink e l).map fun s => s.setList l ⟨head, tail, (s.list l).elems - 1⟩

def insertAfter (s : InLists T L) (l : L) (prev e : T) : Option (InLists T L) :=
  if (s.node e).owner = none ∧ (s.node prev).owner = some l then
    (s.linkPrev e prev l).map fun s =>
      s.setList l ⟨(s.list l).head, if (s.list l).tail = some prev then some e else (s.list l).tail,
        (s.list l).elems + 1⟩
  else none

def pop_front (s : InLists T L) (l : L) : Option (InLists T L) :=
  match (s.list l).head with
  | none => some s
  | some e =>
    let head := (s.node e).next
    (s.unlink e l).map fun s =>
      s.setList l ⟨head, if head.isSome then (s.list l).tail else none, (s.list l).elems - 1⟩

def pop_back (s : InLists T L) (l : L) : Option (InLists T L) :=
  if (s.list l).head.isNone then some s
  else
    (s.list l).tail.bind fun e =>
      let tail := (s.node e).prev
      (s.unlink e l).map fun s =>
        s.setList l ⟨if tail.isSome then (s.list l).head else none, tail, (s.list l).elems - 1⟩

end InLists

end ZSim
