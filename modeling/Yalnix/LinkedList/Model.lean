import Mathlib.Data.Int.Notation
import Mathlib.Data.Nat.Notation
import Mathlib.Logic.Function.Basic
/-!
# `linked_list.c`

The kernel's lists, over a memory of nodes that carry their own links. A
function returns `none` where the C code would follow a `NULL` link; the
arguments it checks for `NULL` itself are options.
-/

namespace Yalnix

/-- `node_t`, less its payload. -/
structure Cell (Node : Type) where
  code : ℤ
  next : Option Node
  prev : Option Node

/-- `ll_t`. -/
structure LinkedList (Node : Type) where
  size : ℤ
  head : Option Node
  tail : Option Node

/-- The nodes in memory. -/
abbrev Heap (Node : Type) := Node → Cell Node

variable {Node : Type}

namespace Heap

variable [DecidableEq Node] (h : Heap Node) (n m : Node) (v : Option Node)

def setNext : Heap Node := Function.update h n { h n with next := v }

def setPrev : Heap Node := Function.update h n { h n with prev := v }

def setCode (code : ℤ) : Heap Node := Function.update h n { h n with code := code }

@[simp] theorem setNext_next : (h.setNext n v m).next = if m = n then v else (h m).next := by
  unfold setNext
  by_cases hm : m = n
  · subst hm
    simp
  · simp [hm]

@[simp] theorem setNext_prev : (h.setNext n v m).prev = (h m).prev := by
  unfold setNext
  by_cases hm : m = n
  · subst hm
    simp
  · simp [hm]

@[simp] theorem setNext_code : (h.setNext n v m).code = (h m).code := by
  unfold setNext
  by_cases hm : m = n
  · subst hm
    simp
  · simp [hm]

@[simp] theorem setPrev_prev : (h.setPrev n v m).prev = if m = n then v else (h m).prev := by
  unfold setPrev
  by_cases hm : m = n
  · subst hm
    simp
  · simp [hm]

@[simp] theorem setPrev_next : (h.setPrev n v m).next = (h m).next := by
  unfold setPrev
  by_cases hm : m = n
  · subst hm
    simp
  · simp [hm]

@[simp] theorem setPrev_code : (h.setPrev n v m).code = (h m).code := by
  unfold setPrev
  by_cases hm : m = n
  · subst hm
    simp
  · simp [hm]

variable {h n m v}

theorem setNext_of_ne (hm : m ≠ n) : h.setNext n v m = h m := Function.update_of_ne hm _ _

theorem setPrev_of_ne (hm : m ≠ n) : h.setPrev n v m = h m := Function.update_of_ne hm _ _

end Heap

namespace LinkedList

variable [DecidableEq Node]

def isEmpty (l : LinkedList Node) : Bool := l.size = 0

/-- `n->next = n->prev = NULL`. -/
def unlink (h : Heap Node) (n : Node) : Heap Node := (h.setPrev n none).setNext n none

def enqueue (h : Heap Node) (l : LinkedList Node) : Option Node → Option (Heap Node × LinkedList Node)
  | none => some (h, l)
  | some n =>
    match l.head, l.tail with
    | none, _ => some (unlink h n, { size := l.size + 1, head := some n, tail := some n })
    | some _, some t =>
      some (((h.setNext n none).setPrev n (some t)).setNext t (some n),
        { l with size := l.size + 1, tail := some n })
    | some _, none => none

def push (h : Heap Node) (l : LinkedList Node) : Option Node → Option (Heap Node × LinkedList Node)
  | none => some (h, l)
  | some n =>
    match l.head with
    | none => some (unlink h n, { size := l.size + 1, head := some n, tail := some n })
    | some d =>
      some (((h.setNext n (some d)).setPrev n none).setPrev d (some n),
        { l with size := l.size + 1, head := some n })

def pop (h : Heap Node) (l : LinkedList Node) :
    Option (Heap Node × LinkedList Node × Option Node) :=
  if l.size = 0 then some (h, l, none)
  else
    match l.tail with
    | none => none
    | some t =>
      if l.head = some t then
        some (unlink h t, { size := l.size - 1, head := none, tail := none }, some t)
      else
        match (h t).prev with
        | none => none
        | some m =>
          some (unlink (h.setNext m none) t, { l with size := l.size - 1, tail := some m }, some t)

def dequeue (h : Heap Node) (l : LinkedList Node) :
    Option (Heap Node × LinkedList Node × Option Node) :=
  if l.size = 0 then some (h, l, none)
  else
    match l.head with
    | none => none
    | some d =>
      if l.tail = some d then
        some (unlink h d, { size := l.size - 1, head := none, tail := none }, some d)
      else
        match (h d).next with
        | none => none
        | some m =>
          some (unlink (h.setPrev m none) d, { l with size := l.size - 1, head := some m }, some d)

def remove (h : Heap Node) (l : LinkedList Node) (n : Option Node) :
    Option (Heap Node × LinkedList Node × Option Node) :=
  if l.size = 0 then some (h, l, none)
  else if l.head = n then (dequeue h l).map fun (h, l, _) => (h, l, n)
  else if l.tail = n then (pop h l).map fun (h, l, _) => (h, l, n)
  else
    match n with
    | none => some (h, l, none)
    | some x =>
      match (h x).next with
      | none => none
      | some y =>
        let h := h.setPrev y (h x).prev
        match (h x).prev with
        | none => none
        | some z =>
          some (unlink (h.setNext z (h x).next) x, { l with size := l.size - 1 }, some x)

/-- The loop of `has_member` from `curr` on, at most `fuel` times round. -/
def hasMemberLoop (h : Heap Node) (n : Node) : ℕ → Option Node → Option Bool
  | 0, _ => none
  | _ + 1, none => some false
  | fuel + 1, some curr =>
    if curr = n then some true else hasMemberLoop h n fuel (h curr).next

/-- `has_member`. A list meets no node twice, so that the fuel suffices
(`IsList.hasMember`). -/
def hasMember (h : Heap Node) (l : LinkedList Node) : Option Node → Option Bool
  | none => some false
  | some n => hasMemberLoop h n (l.size.toNat + 1) l.head

/-- The loop of `find`, likewise. -/
def findLoop (h : Heap Node) (code : ℤ) : ℕ → Option Node → Option (Option Node)
  | 0, _ => none
  | _ + 1, none => some none
  | fuel + 1, some curr =>
    if (h curr).code ≠ code then findLoop h code fuel (h curr).next else some (some curr)

def find (h : Heap Node) (l : LinkedList Node) (code : ℤ) : Option (Option Node) :=
  findLoop h code (l.size.toNat + 1) l.head

end LinkedList

end Yalnix
