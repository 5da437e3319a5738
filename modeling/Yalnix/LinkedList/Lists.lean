import Yalnix.Common.Follows
import Yalnix.Common.Run
import Yalnix.LinkedList.Refine
/-!
# The kernel's lists together

Any number of lists over one memory of nodes, no node on two of them. The
operations of `linked_list.c` and the moves `scheduling.c` makes of them
are operations on sequences: one sequence changes, or two for a move, and
nothing else in memory does (`lists_follow`).
-/

namespace Yalnix

/-- The lists in memory, with their nodes. -/
structure Lists (Id Node : Type) where
  heap : Heap Node
  list : Id → LinkedList Node

/-- The calls made on the lists. The `unblock` ones move from the list
`blocked` to the list `ready`. -/
inductive ListOp (Id Node : Type) where
  | enqueue (i : Id) (n : Node)
  | push (i : Id) (n : Node)
  | pop (i : Id)
  | dequeue (i : Id)
  | remove (i : Id) (n : Node)
  | unblock (blocked ready : Id) (proc : Node)
  | unblockHead (blocked ready : Id)
  | unblockAll (blocked ready : Id)
  | hasMember (i : Id) (n : Node)
  | find (i : Id) (code : ℤ)

/-- What a call returns. -/
inductive ListReply (Node : Type) where
  | void
  | node (n : Option Node)
  | flag (b : Bool)

variable {Id Node : Type}

/-- The lists a call is about. -/
def ListOp.lists : ListOp Id Node → List Id
  | .enqueue i _ | .push i _ | .pop i | .dequeue i | .remove i _ => [i]
  | .unblock blocked ready _ | .unblockHead blocked ready | .unblockAll blocked ready =>
    [blocked, ready]
  | .hasMember _ _ | .find _ _ => []

variable [DecidableEq Id] [DecidableEq Node]

namespace Lists

/-- The list `i` and the nodes have changed. -/
def put (s : Lists Id Node) (i : Id) (heap : Heap Node) (l : LinkedList Node) : Lists Id Node where
  heap := heap
  list := Function.update s.list i l

def enqueue (s : Lists Id Node) (i : Id) (n : Option Node) : Option (Lists Id Node) :=
  ((s.list i).enqueue s.heap n).map fun (heap, l) => s.put i heap l

def push (s : Lists Id Node) (i : Id) (n : Option Node) : Option (Lists Id Node) :=
  ((s.list i).push s.heap n).map fun (heap, l) => s.put i heap l

def pop (s : Lists Id Node) (i : Id) : Option (Lists Id Node × Option Node) :=
  ((s.list i).pop s.heap).map fun (heap, l, n) => (s.put i heap l, n)

def dequeue (s : Lists Id Node) (i : Id) : Option (Lists Id Node × Option Node) :=
  ((s.list i).dequeue s.heap).map fun (heap, l, n) => (s.put i heap l, n)

def remove (s : Lists Id Node) (i : Id) (n : Option Node) :
    Option (Lists Id Node × Option Node) :=
  ((s.list i).remove s.heap n).map fun (heap, l, n) => (s.put i heap l, n)

/-- `unblock`. -/
def unblock (s : Lists Id Node) (blocked ready : Id) (proc : Option Node) :
    Option (Lists Id Node) :=
  if (s.list blocked).isEmpty then some s
  else (s.remove blocked proc).bind fun (s, n) => s.enqueue ready n

/-- `unblock_head`. -/
def unblockHead (s : Lists Id Node) (blocked ready : Id) : Option (Lists Id Node) :=
  s.unblock blocked ready (s.list blocked).head

/-- The loop of `unblock_all`, at most `fuel` times round. -/
def unblockAllLoop (blocked ready : Id) : ℕ → Lists Id Node → Option (Lists Id Node)
  | 0, _ => none
  | fuel + 1, s =>
    if (s.list blocked).isEmpty then some s
    else
      (s.dequeue blocked).bind fun (s, n) =>
        (s.enqueue ready n).bind fun s => unblockAllLoop blocked ready fuel s

/-- `unblock_all`. Each turn takes a node off, so that the fuel suffices
(`Holds.unblockAll`). -/
def unblockAll (s : Lists Id Node) (blocked ready : Id) : Option (Lists Id Node) :=
  unblockAllLoop blocked ready ((s.list blocked).size.toNat + 1) s

/-- A call: the lists after, and what it returns. -/
def step (s : Lists Id Node) : ListOp Id Node → Option (Lists Id Node × ListReply Node)
  | .enqueue i n => (s.enqueue i (some n)).map fun s => (s, .void)
  | .push i n => (s.push i (some n)).map fun s => (s, .void)
  | .pop i => (s.pop i).map fun (s, n) => (s, .node n)
  | .dequeue i => (s.dequeue i).map fun (s, n) => (s, .node n)
  | .remove i n => (s.remove i (some n)).map fun (s, n) => (s, .node n)
  | .unblock blocked ready proc => (s.unblock blocked ready (some proc)).map fun s => (s, .void)
  | .unblockHead blocked ready => (s.unblockHead blocked ready).map fun s => (s, .void)
  | .unblockAll blocked ready => (s.unblockAll blocked ready).map fun s => (s, .void)
  | .hasMember i n => ((s.list i).hasMember s.heap (some n)).map fun b => (s, .flag b)
  | .find i code => ((s.list i).find s.heap code).map fun n => (s, .node n)

end Lists

/-! ## Sequences -/

/-- The sequences the lists are to hold, and the nodes' codes. -/
structure Sequences (Id Node : Type) where
  seq : Id → List Node
  code : Node → ℤ

namespace Sequences

/-- The node is on no list. -/
def Fresh (a : Sequences Id Node) (n : Node) : Prop := ∀ i, n ∉ a.seq i

def set (a : Sequences Id Node) (i : Id) (xs : List Node) : Sequences Id Node :=
  { a with seq := Function.update a.seq i xs }

/-- The node goes from one list to the end of another. -/
def move (a : Sequences Id Node) (blocked ready : Id) (n : Node) : Sequences Id Node :=
  (a.set blocked ((a.seq blocked).erase n)).set ready (a.seq ready ++ [n])

/-- All its nodes do, in order. -/
def moveAll (a : Sequences Id Node) (blocked ready : Id) : Sequences Id Node :=
  (a.set blocked []).set ready (a.seq ready ++ a.seq blocked)

/-- **What a caller may ask for**: to insert a node that is on no list, to
remove one that is on the list, to move to another list. -/
def Allowed (a : Sequences Id Node) : ListOp Id Node → Prop
  | .enqueue _ n | .push _ n => a.Fresh n
  | .remove i n => n ∈ a.seq i
  | .unblock blocked ready proc =>
    blocked ≠ ready ∧ (a.seq blocked = [] ∨ proc ∈ a.seq blocked)
  | .unblockHead blocked ready | .unblockAll blocked ready => blocked ≠ ready
  | .pop _ | .dequeue _ | .hasMember _ _ | .find _ _ => True

/-- **What a call is to do.** -/
def apply (a : Sequences Id Node) : ListOp Id Node → Sequences Id Node × ListReply Node
  | .enqueue i n => (a.set i (a.seq i ++ [n]), .void)
  | .push i n => (a.set i (n :: a.seq i), .void)
  | .pop i => (a.set i (a.seq i).dropLast, .node (a.seq i).getLast?)
  | .dequeue i => (a.set i (a.seq i).tail, .node (a.seq i).head?)
  | .remove i n => (a.set i ((a.seq i).erase n), .node (some n))
  | .unblock blocked ready proc =>
    (if a.seq blocked = [] then a else a.move blocked ready proc, .void)
  | .unblockHead blocked ready =>
    match a.seq blocked with
    | [] => (a, .void)
    | n :: _ => (a.move blocked ready n, .void)
  | .unblockAll blocked ready => (a.moveAll blocked ready, .void)
  | .hasMember i n => (a, .flag (decide (n ∈ a.seq i)))
  | .find i code => (a, .node ((a.seq i).find? fun n => a.code n = code))

open Classical in
/-- The specification: a call a caller may make, and what it is to do. -/
noncomputable def step (a : Sequences Id Node) (op : ListOp Id Node) :
    Option (Sequences Id Node × ListReply Node) :=
  if a.Allowed op then some (a.apply op) else none

variable {a : Sequences Id Node} {i j : Id} {xs : List Node} {n : Node}

theorem step_of_allowed {op : ListOp Id Node} (h : a.Allowed op) :
    (a.step op).map Prod.fst = some (a.apply op).1 := by
  rw [show a.step op = some (a.apply op) from if_pos h, Option.map_some]

omit [DecidableEq Node] in
@[simp] theorem set_seq : (a.set i xs).seq j = if j = i then xs else a.seq j :=
  Function.update_apply _ _ _ _

omit [DecidableEq Node] in
@[simp] theorem set_code : (a.set i xs).code = a.code := rfl

end Sequences

/-! ## What a call does -/

namespace Lists

/-- **The lists hold the sequences**, each linked consistently both ways, and
no node is on two of them. -/
structure Holds (s : Lists Id Node) (a : Sequences Id Node) : Prop where
  list : ∀ i, IsList s.heap (s.list i) (a.seq i)
  disjoint : ∀ i j, i ≠ j → (a.seq i).Disjoint (a.seq j)
  code : ∀ n, (s.heap n).code = a.code n

/-- **What a call on the lists `is` changes**: the lists hold what they are
to hold, other lists and nodes on no list are as they were, and a node taken
off has no links. -/
structure Changed (is : List Id) (s : Lists Id Node) (a : Sequences Id Node) (t : Lists Id Node)
    (b : Sequences Id Node) : Prop where
  holds : Holds t b
  others : ∀ i, i ∉ is → t.list i = s.list i ∧ b.seq i = a.seq i ∧
    ∀ n ∈ a.seq i, t.heap n = s.heap n
  strangers : ∀ n, a.Fresh n → b.Fresh n → t.heap n = s.heap n
  unlinked : ∀ n, ¬ a.Fresh n → b.Fresh n → (t.heap n).next = none ∧ (t.heap n).prev = none

variable {s t u : Lists Id Node} {a b c : Sequences Id Node} {is js : List Id} {i j : Id}
variable {xs ys ts : List Node} {n : Node} {heap : Heap Node} {l : LinkedList Node}

omit [DecidableEq Id] [DecidableEq Node] in
theorem Holds.refl (h : Holds s a) : Changed is s a s a where
  holds := h
  others := fun _ _ => ⟨rfl, rfl, fun _ _ => rfl⟩
  strangers := fun _ _ _ => rfl
  unlinked := fun _ hin hout => absurd hout hin

omit [DecidableEq Id] [DecidableEq Node] in
theorem Changed.mono (h : Changed is s a t b) (hsub : is ⊆ js) : Changed js s a t b where
  holds := h.holds
  others := fun i hi => h.others i fun hin => hi (hsub hin)
  strangers := h.strangers
  unlinked := h.unlinked

omit [DecidableEq Id] [DecidableEq Node] in
/-- **Two calls in a row**, the first of which brings no new node. -/
theorem Changed.trans (h₁ : Changed is s a t b) (h₂ : Changed is t b u c)
    (hfresh : ∀ n, a.Fresh n → b.Fresh n) : Changed is s a u c where
  holds := h₂.holds
  others i hi := by
    obtain ⟨hlist, hseq, hheap⟩ := h₁.others i hi
    obtain ⟨hlist', hseq', hheap'⟩ := h₂.others i hi
    refine ⟨hlist'.trans hlist, hseq'.trans hseq, fun n hn => ?_⟩
    rw [hheap' n (hseq ▸ hn), hheap n hn]
  strangers n hn hn' := by
    rw [h₂.strangers n (hfresh n hn) hn', h₁.strangers n hn (hfresh n hn)]
  unlinked n hn hn' := by
    by_cases hmid : b.Fresh n
    · rw [h₂.strangers n hmid hn']
      exact h₁.unlinked n hn hmid
    · exact h₂.unlinked n hmid hn'

/-- **A change of one list**: it touches the list's nodes, old and new, and
unlinks those it drops. -/
theorem Holds.put (h : Holds s a) (hlist : IsList heap l ys) (hframe : Frame ts s.heap heap)
    (hts : ∀ n ∈ ts, n ∈ a.seq i ∨ n ∈ ys) (hys : ∀ n ∈ ys, n ∈ a.seq i ∨ a.Fresh n)
    (hdropped : ∀ n ∈ a.seq i, n ∉ ys → (heap n).next = none ∧ (heap n).prev = none) :
    Changed [i] s a (s.put i heap l) (a.set i ys) := by
  have hoff : ∀ j, j ≠ i → ∀ n ∈ a.seq j, n ∉ ys := by
    intro j hj n hn hin
    rcases hys n hin with hold | hfresh
    · exact h.disjoint j i hj hn hold
    · exact hfresh j hn
  have hts' : ∀ j, j ≠ i → ts.Disjoint (a.seq j) := by
    intro j hj n hn hin
    rcases hts n hn with hold | hnew
    · exact h.disjoint j i hj hin hold
    · exact hoff j hj n hin hnew
  refine ⟨⟨fun j => ?_, fun j k hjk => ?_, fun n => (hframe.code n).trans (h.code n)⟩,
    fun j hj => ?_, fun n hn hn' => ?_, fun n hn hn' => ?_⟩
  · -- each list is the changed one, or has none of the nodes touched
    rcases eq_or_ne j i with rfl | hj
    · simpa [Lists.put] using hlist
    · simpa [Lists.put, hj] using (h.list j).frame hframe (hts' j hj)
  · -- the changed list has no node of another
    simp only [Sequences.set_seq]
    split
    · rename_i hj
      have hk : k ≠ i := fun hk => hjk (hj.trans hk.symm)
      rw [if_neg hk]
      exact fun n hn hin => hoff k hk n hin hn
    · rename_i hj
      split
      · exact fun n hn hin => hoff j hj n hn hin
      · exact h.disjoint j k hjk
  · have hj : j ≠ i := by simpa using hj
    refine ⟨Function.update_of_ne hj _ _, by simp [hj], fun n hn => hframe.off n fun hin => ?_⟩
    exact hts' j hj hin hn
  · refine hframe.off n fun hin => ?_
    rcases hts n hin with hold | hnew
    · exact hn i hold
    · exact hn' i (by simpa using hnew)
  · refine hdropped n ?_ fun hin => hn' i (by simpa using hin)
    -- a node that was on another list still is
    by_contra hout
    refine hn fun j hj => hn' j ?_
    have hne : j ≠ i := fun he => hout (he ▸ hj)
    simpa [hne] using hj

/-! ## Insertions and removals -/

/-- **`enqueue` appends**, to a list of its own. -/
theorem Holds.enqueue (h : Holds s a) (i : Id) (hn : a.Fresh n) :
    ∃ t, s.enqueue i (some n) = some t ∧ Changed [i] s a t (a.set i (a.seq i ++ [n])) := by
  obtain ⟨heap, l, hrun, hlist, hframe⟩ := (h.list i).enqueue (hn i)
  refine ⟨s.put i heap l, by rw [Lists.enqueue, hrun]; rfl,
    h.put hlist hframe (fun m hm => ?_) (fun m hm => ?_) fun m hm hout => ?_⟩
  · rcases List.mem_cons.mp hm with rfl | hm
    · exact Or.inr (List.mem_append_right _ (List.mem_singleton_self m))
    · exact Or.inl hm
  · rcases List.mem_append.mp hm with hm | hm
    · exact Or.inl hm
    · exact Or.inr (List.mem_singleton.mp hm ▸ hn)
  · exact absurd (List.mem_append_left _ hm) hout

/-- **`push` prepends.** -/
theorem Holds.push (h : Holds s a) (i : Id) (hn : a.Fresh n) :
    ∃ t, s.push i (some n) = some t ∧ Changed [i] s a t (a.set i (n :: a.seq i)) := by
  obtain ⟨heap, l, hrun, hlist, hframe⟩ := (h.list i).push (hn i)
  refine ⟨s.put i heap l, by rw [Lists.push, hrun]; rfl,
    h.put hlist hframe (fun m hm => Or.inr hm) (fun m hm => ?_) fun m hm hout => ?_⟩
  · rcases List.mem_cons.mp hm with rfl | hm
    · exact Or.inr hn
    · exact Or.inl hm
  · exact absurd (List.mem_cons_of_mem _ hm) hout

/-- **Taking a node off a list** takes it off that list alone. -/
theorem Holds.removed (h : Holds s a) (hrem : Removed s.heap n (a.seq i) ys heap l)
    (hys : ∀ m, m ∈ a.seq i ↔ m = n ∨ m ∈ ys) :
    Changed [i] s a (s.put i heap l) (a.set i ys) := by
  refine h.put hrem.list hrem.frame (fun m hm => Or.inl hm)
    (fun m hm => Or.inl ((hys m).mpr (Or.inr hm))) fun m hm hout => ?_
  obtain rfl := ((hys m).mp hm).resolve_right hout
  exact ⟨hrem.next, hrem.prev⟩

/-- A list found empty is left alone. -/
theorem Holds.put_self (h : Holds s a) (i : Id) :
    Changed [i] s a (s.put i s.heap (s.list i)) (a.set i (a.seq i)) := by
  have hframe : Frame [] s.heap s.heap := ⟨fun _ _ => rfl, fun _ => rfl⟩
  exact h.put (h.list i) hframe (fun _ hm => absurd hm List.not_mem_nil)
    (fun _ hm => Or.inl hm) fun _ hm hout => absurd hm hout

/-- **`dequeue` drops the first.** -/
theorem Holds.dequeue (h : Holds s a) (i : Id) :
    ∃ t, s.dequeue i = some (t, (a.seq i).head?) ∧ Changed [i] s a t (a.set i (a.seq i).tail) := by
  have hl := h.list i
  cases hseq : a.seq i with
  | nil =>
    rw [hseq] at hl
    have hrun : (s.list i).dequeue s.heap = some (s.heap, s.list i, none) := by
      simp [LinkedList.dequeue, hl.size]
    refine ⟨_, by rw [Lists.dequeue, hrun]; rfl, ?_⟩
    simpa [hseq] using h.put_self i
  | cons n rest =>
    rw [hseq] at hl
    obtain ⟨heap, l, hrun, hrem⟩ := hl.dequeue
    refine ⟨_, by rw [Lists.dequeue, hrun]; rfl, h.removed (hseq ▸ hrem) fun m => ?_⟩
    rw [hseq, List.mem_cons]
    rfl

/-- **`pop` drops the last.** -/
theorem Holds.pop (h : Holds s a) (i : Id) :
    ∃ t, s.pop i = some (t, (a.seq i).getLast?) ∧
      Changed [i] s a t (a.set i (a.seq i).dropLast) := by
  have hl := h.list i
  rcases (a.seq i).eq_nil_or_concat' with hseq | ⟨ys, n, hseq⟩
  · rw [hseq] at hl
    have hrun : (s.list i).pop s.heap = some (s.heap, s.list i, none) := by
      simp [LinkedList.pop, hl.size]
    refine ⟨_, by rw [Lists.pop, hrun, hseq]; rfl, ?_⟩
    simpa [hseq] using h.put_self i
  · rw [hseq] at hl
    obtain ⟨heap, l, hrun, hrem⟩ := hl.pop
    refine ⟨_, by rw [Lists.pop, hrun, hseq, List.getLast?_concat]; rfl, ?_⟩
    rw [hseq, List.dropLast_concat]
    refine h.removed (hseq ▸ hrem) fun m => ?_
    rw [hseq, List.mem_append, List.mem_singleton, or_comm]

/-- **`remove` drops the node.** -/
theorem Holds.remove (h : Holds s a) (hn : n ∈ a.seq i) :
    ∃ t, s.remove i (some n) = some (t, some n) ∧
      Changed [i] s a t (a.set i ((a.seq i).erase n)) := by
  have hl := h.list i
  obtain ⟨as, bs, -, hseq, herase⟩ := List.exists_erase_eq hn
  rw [hseq] at hl
  obtain ⟨heap, l, hrun, hrem⟩ := hl.remove
  refine ⟨_, by rw [Lists.remove, hrun]; rfl, ?_⟩
  rw [herase]
  refine h.removed (hseq ▸ hrem) fun m => ?_
  rw [hseq]
  simp only [List.mem_append, List.mem_cons]
  tauto

/-! ## Moves -/

/-- A node taken off its list is on none. -/
theorem Holds.fresh_erase (h : Holds s a) (hn : n ∈ a.seq i) :
    (a.set i ((a.seq i).erase n)).Fresh n := by
  intro j hj
  rw [Sequences.set_seq] at hj
  split at hj
  · exact ((h.list i).nodup.mem_erase_iff.mp hj).1 rfl
  · rename_i hji
    exact h.disjoint j i hji hj hn

/-- **A node taken off one list and put on another.** -/
theorem Changed.requeue (h : Changed [i] s a t (a.set i xs)) (hxs : xs ⊆ a.seq i) (hij : i ≠ j)
    (hn : (a.set i xs).Fresh n) :
    ∃ u, t.enqueue j (some n) = some u ∧
      Changed [i, j] s a u ((a.set i xs).set j (a.seq j ++ [n])) := by
  obtain ⟨u, hrun, hchanged⟩ := h.holds.enqueue j hn
  rw [Sequences.set_seq, if_neg hij.symm] at hchanged
  refine ⟨u, hrun, (h.mono (by simp)).trans (hchanged.mono (by simp)) fun m hm k hk => ?_⟩
  rw [Sequences.set_seq] at hk
  split at hk
  · exact hm i (hxs hk)
  · exact hm k hk

/-- **`unblock` moves the process.** -/
theorem Holds.unblock (h : Holds s a) (hij : i ≠ j) (hn : n ∈ a.seq i) :
    ∃ t, s.unblock i j (some n) = some t ∧ Changed [i, j] s a t (a.move i j n) := by
  obtain ⟨t, hrun, hremoved⟩ := h.remove hn
  obtain ⟨u, hrun', hchanged⟩ :=
    hremoved.requeue List.erase_subset hij (h.fresh_erase hn)
  have hfull : ¬ (s.list i).isEmpty = true := by
    rw [(h.list i).isEmpty_iff]
    exact List.ne_nil_of_mem hn
  refine ⟨u, ?_, hchanged⟩
  rw [Lists.unblock, if_neg hfull, hrun]
  exact hrun'

/-- On an empty list it does nothing. -/
theorem Holds.unblock_nil (h : Holds s a) (hnil : a.seq i = []) (proc : Option Node) :
    s.unblock i j proc = some s := by
  rw [Lists.unblock, if_pos ((h.list i).isEmpty_iff.mpr hnil)]

omit [DecidableEq Node] in
theorem moveAll_nil (hnil : a.seq i = []) : a.moveAll i j = a := by
  have hseq : (a.moveAll i j).seq = a.seq := by
    funext k
    simp only [Sequences.moveAll, Sequences.set_seq, hnil, List.append_nil]
    split
    · rename_i hk
      rw [hk]
    · split
      · rename_i hk
        rw [hk, hnil]
      · rfl
  cases a
  exact congrArg (Sequences.mk · _) hseq

/-- Moving the first and then the rest is moving them all. -/
theorem moveAll_cons (hij : i ≠ j) (hcons : a.seq i = n :: xs) :
    (a.move i j n).moveAll i j = a.moveAll i j := by
  have hseq : ((a.move i j n).moveAll i j).seq = (a.moveAll i j).seq := by
    funext k
    simp only [Sequences.moveAll, Sequences.move, Sequences.set_seq, hcons, if_neg hij, if_true,
      List.erase_cons_head, List.append_assoc, List.singleton_append]
    split
    · rfl
    · split <;> rfl
  exact congrArg (Sequences.mk · _) hseq

omit [DecidableEq Id] in
/-- A list with a first node is not empty. -/
theorem Holds.isEmpty_cons (h : Holds s a) (hcons : a.seq i = n :: xs) :
    (s.list i).isEmpty = false := by
  rw [Bool.eq_false_iff, ne_eq, (h.list i).isEmpty_iff, hcons]
  exact List.cons_ne_nil n xs

/-- **A turn of the loop of `unblock_all`** moves the first node. -/
theorem Holds.turn (h : Holds s a) (hij : i ≠ j) (hcons : a.seq i = n :: xs) :
    ∃ t u, s.dequeue i = some (t, some n) ∧ t.enqueue j (some n) = some u ∧
      Changed [i, j] s a u (a.move i j n) := by
  have hn : n ∈ a.seq i := hcons ▸ List.mem_cons_self
  have herase : (a.seq i).erase n = xs := by rw [hcons, List.erase_cons_head]
  obtain ⟨t, hrun, hremoved⟩ := h.dequeue i
  rw [hcons, List.head?_cons] at hrun
  rw [hcons, List.tail_cons, ← herase] at hremoved
  obtain ⟨u, hrun', hmoved⟩ := hremoved.requeue List.erase_subset hij (h.fresh_erase hn)
  exact ⟨t, u, hrun, hrun', hmoved⟩

/-- A move brings no new node. -/
theorem fresh_move {m : Node} (hn : n ∈ a.seq i) (hm : a.Fresh m) : (a.move i j n).Fresh m := by
  intro k hk
  simp only [Sequences.move, Sequences.set_seq] at hk
  split at hk
  · rcases List.mem_append.mp hk with hk | hk
    · exact hm j hk
    · exact hm i (List.mem_singleton.mp hk ▸ hn)
  · split at hk
    · exact hm i (List.erase_subset hk)
    · exact hm k hk

/-- **The loop of `unblock_all`** moves what is left, one node a turn. -/
theorem Holds.unblockAllLoop (hij : i ≠ j) {fuel : ℕ} (h : Holds s a) (hseq : a.seq i = xs)
    (hfuel : xs.length < fuel) :
    ∃ t, unblockAllLoop i j fuel s = some t ∧ Changed [i, j] s a t (a.moveAll i j) := by
  induction xs generalizing s a fuel with
  | nil =>
    obtain ⟨fuel, rfl⟩ := Nat.exists_eq_add_of_lt hfuel
    refine ⟨s, ?_, (moveAll_nil (j := j) hseq).symm ▸ h.refl⟩
    simp [Lists.unblockAllLoop, (h.list i).isEmpty_iff.mpr hseq]
  | cons n xs ih =>
    rw [List.length_cons] at hfuel
    obtain ⟨fuel, rfl⟩ : ∃ m, fuel = m + 1 := ⟨fuel - 1, by omega⟩
    obtain ⟨t, u, hrun, hrun', hmoved⟩ := h.turn hij hseq
    have hrest : (a.move i j n).seq i = xs := by
      simp [Sequences.move, hij, hseq]
    obtain ⟨v, hloop, hall⟩ := ih hmoved.holds hrest (show xs.length < fuel by omega)
    rw [moveAll_cons hij hseq] at hall
    refine ⟨v, ?_, hmoved.trans hall fun m hm => fresh_move (hseq ▸ List.mem_cons_self) hm⟩
    simp [Lists.unblockAllLoop, h.isEmpty_cons hseq, hrun, hrun', hloop]

/-- **`unblock_all` moves them all.** -/
theorem Holds.unblockAll (h : Holds s a) (hij : i ≠ j) :
    ∃ t, s.unblockAll i j = some t ∧ Changed [i, j] s a t (a.moveAll i j) :=
  h.unblockAllLoop hij rfl (by rw [(h.list i).size]; omega)

/-! ## Any calls -/

/-- **Every call a caller may make does what it is to do.** -/
theorem Holds.step (h : Holds s a) {op : ListOp Id Node} (hallowed : a.Allowed op) :
    ∃ t, s.step op = some (t, (a.apply op).2) ∧
      Changed op.lists s a t (a.apply op).1 := by
  cases op with
  | enqueue i n =>
    obtain ⟨t, hrun, hchanged⟩ := h.enqueue i hallowed
    exact ⟨t, by rw [Lists.step, hrun]; rfl, hchanged⟩
  | push i n =>
    obtain ⟨t, hrun, hchanged⟩ := h.push i hallowed
    exact ⟨t, by rw [Lists.step, hrun]; rfl, hchanged⟩
  | pop i =>
    obtain ⟨t, hrun, hchanged⟩ := h.pop i
    exact ⟨t, by rw [Lists.step, hrun]; rfl, hchanged⟩
  | dequeue i =>
    obtain ⟨t, hrun, hchanged⟩ := h.dequeue i
    exact ⟨t, by rw [Lists.step, hrun]; rfl, hchanged⟩
  | remove i n =>
    obtain ⟨t, hrun, hchanged⟩ := h.remove hallowed
    exact ⟨t, by rw [Lists.step, hrun]; rfl, hchanged⟩
  | unblock i j n =>
    -- an empty list has nobody to move, whoever is named
    obtain ⟨hij, hn⟩ := hallowed
    by_cases hnil : a.seq i = []
    · refine ⟨s, by rw [Lists.step, h.unblock_nil hnil]; rfl, ?_⟩
      rw [Sequences.apply, if_pos hnil]
      exact h.refl
    · obtain ⟨t, hrun, hchanged⟩ := h.unblock hij (hn.resolve_left hnil)
      refine ⟨t, by rw [Lists.step, hrun]; rfl, ?_⟩
      rw [Sequences.apply, if_neg hnil]
      exact hchanged
  | unblockHead i j =>
    have hhead := (h.list i).head
    cases hseq : a.seq i with
    | nil =>
      refine ⟨s, ?_, ?_⟩
      · rw [Lists.step, Lists.unblockHead, h.unblock_nil hseq, Sequences.apply, hseq]
        rfl
      · simp only [Sequences.apply, hseq]
        exact h.refl
    | cons n xs =>
      rw [hseq, List.head?_cons] at hhead
      obtain ⟨t, hrun, hchanged⟩ := h.unblock hallowed (hseq ▸ List.mem_cons_self)
      refine ⟨t, ?_, ?_⟩
      · rw [Lists.step, Lists.unblockHead, hhead, hrun, Sequences.apply, hseq]
        rfl
      · simp only [Sequences.apply, hseq]
        exact hchanged
  | unblockAll i j =>
    obtain ⟨t, hrun, hchanged⟩ := h.unblockAll hallowed
    exact ⟨t, by rw [Lists.step, hrun]; rfl, hchanged⟩
  | hasMember i n => exact ⟨s, by rw [Lists.step, (h.list i).hasMember]; rfl, h.refl⟩
  | find i code =>
    refine ⟨s, ?_, h.refl⟩
    rw [Lists.step, (h.list i).find]
    simp only [h.code]
    rfl

/-- **Linked lists refine sequences**, for any number of lists and any calls
their callers may make. -/
theorem lists_follow (h : Holds s a) (ops : List (ListOp Id Node)) :
    Machines.Follows Lists.step Sequences.step (fun s a op t b => Changed op.lists s a t b) s a
      ops := by
  refine Machines.follows_of_step (R := Holds) (fun s a op b reply hs hspec => ?_) h ops
  obtain ⟨hallowed, heq⟩ := Option.ite_none_right_eq_some.mp hspec
  have heq := Option.some.inj heq
  obtain ⟨t, hrun, hchanged⟩ := hs.step hallowed
  rw [heq] at hrun hchanged
  exact ⟨t, hrun, hchanged, hchanged.holds⟩

/-- No list holds a node yet. -/
def empty : Lists ℕ ℕ where
  heap := fun _ => ⟨0, none, none⟩
  list := fun _ => ⟨0, none, none⟩

/-- Three nodes are put on one list and moved to another. -/
theorem lists_follow_moves :
    let seqs : Sequences ℕ ℕ := ⟨fun _ => [], fun _ => 0⟩
    let ops : List (ListOp ℕ ℕ) :=
      [.enqueue 0 7, .push 0 8, .enqueue 0 9, .unblock 0 1 7, .unblockAll 0 1, .find 1 0]
    (Run.exec (fun a op => (Sequences.step a op).map Prod.fst) seqs ops).map
        (fun a => (a.seq 0, a.seq 1)) = some ([], [7, 8, 9]) ∧
      Machines.Follows Lists.step Sequences.step (fun s a op t b => Changed op.lists s a t b) empty
        seqs ops := by
  intro seqs ops
  refine ⟨?_, lists_follow
    ⟨fun i => ?_, fun i j _ n hn => absurd hn List.not_mem_nil, fun n => rfl⟩ _⟩
  · -- no node is on a list when it is put on one
    have hpush : seqs.set 0 [7] |>.Fresh 8 := fun i => by
      rw [Sequences.set_seq]
      split <;> simp [seqs]
    have hfresh : (seqs.set 0 [7]).set 0 [8, 7] |>.Fresh 9 := fun i => by
      rw [Sequences.set_seq, Sequences.set_seq]
      split <;> simp [seqs]
    have hrun : Run.exec (fun a op => (Sequences.step a op).map Prod.fst) seqs ops =
        some (ops.foldl (fun a op => (a.apply op).1) seqs) :=
      Run.exec_cons.mpr ⟨_, Sequences.step_of_allowed fun _ => List.not_mem_nil,
        Run.exec_cons.mpr ⟨_, Sequences.step_of_allowed hpush,
        Run.exec_cons.mpr ⟨_, Sequences.step_of_allowed hfresh,
        Run.exec_cons.mpr ⟨_, Sequences.step_of_allowed ⟨Nat.zero_ne_one, Or.inr (by decide)⟩,
        Run.exec_cons.mpr ⟨_, Sequences.step_of_allowed Nat.zero_ne_one,
        Run.exec_singleton.trans (Sequences.step_of_allowed trivial)⟩⟩⟩⟩⟩
    rw [hrun]
    decide
  · exact ⟨trivial, rfl, rfl, rfl, List.nodup_nil⟩

end Lists

end Yalnix
