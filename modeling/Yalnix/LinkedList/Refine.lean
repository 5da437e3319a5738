import Yalnix.Common.Chain
import Yalnix.LinkedList.Model
/-!
# Lists as sequences

`IsList h l xs` says that in the memory `h` the list `l` holds the nodes
`xs`, in order and consistently. Each operation is then the operation on
sequences its name promises, and touches no node outside the list and its
argument (`Frame`).
-/

namespace Yalnix

variable {Node : Type}

/-- **The list `l` holds the nodes `xs`.** -/
structure IsList (h : Heap Node) (l : LinkedList Node) (xs : List Node) : Prop where
  links : Chain.Seg (fun n => (h n).next) (fun n => (h n).prev) none xs none
  head : l.head = xs.head?
  tail : l.tail = xs.getLast?
  size : l.size = xs.length
  nodup : xs.Nodup

/-- **What an operation leaves alone**: the nodes outside `xs`, and every
node's code. -/
structure Frame (xs : List Node) (h h' : Heap Node) : Prop where
  off : ∀ y, y ∉ xs → h' y = h y
  code : ∀ y, (h' y).code = (h y).code

variable {h h' h'' : Heap Node} {l : LinkedList Node} {xs ys as bs : List Node} {n : Node}

theorem Frame.trans (h₁ : Frame xs h h') (h₂ : Frame ys h' h'') : Frame (xs ++ ys) h h'' where
  off y hy := by
    rw [List.mem_append, not_or] at hy
    rw [h₂.off y hy.2, h₁.off y hy.1]
  code y := (h₂.code y).trans (h₁.code y)

theorem Frame.mono (hf : Frame xs h h') (hsub : xs ⊆ ys) : Frame ys h h' where
  off y hy := hf.off y fun hx => hy (hsub hx)
  code := hf.code

/-- A list stands as long as its own nodes' links do. -/
theorem IsList.congr (hl : IsList h l xs)
    (hlinks : ∀ x ∈ xs, (h' x).next = (h x).next ∧ (h' x).prev = (h x).prev) : IsList h' l xs where
  links := hl.links.congr hlinks
  head := hl.head
  tail := hl.tail
  size := hl.size
  nodup := hl.nodup

/-- An operation on other nodes leaves a list as it was. -/
theorem IsList.frame (hl : IsList h l ys) (hf : Frame xs h h') (hdisj : xs.Disjoint ys) :
    IsList h' l ys :=
  hl.congr fun y hy => by
    rw [hf.off y fun hx => hdisj hx hy]
    exact ⟨rfl, rfl⟩

theorem IsList.isEmpty_iff [DecidableEq Node] (hl : IsList h l xs) :
    l.isEmpty = true ↔ xs = [] := by
  simp [LinkedList.isEmpty, hl.size]

/-- The nodes of a list, read off its links. -/
def LinkedList.nodes (h : Heap Node) (l : LinkedList Node) : List Node :=
  Chain.walk (fun n => (h n).next) l.size.toNat l.head

theorem IsList.nodes_eq (hl : IsList h l xs) : l.nodes h = xs := by
  rw [LinkedList.nodes, hl.size, hl.head, Int.toNat_natCast]
  exact hl.links.walk_eq

variable [DecidableEq Node]

theorem frame_setNext (h : Heap Node) (n : Node) (v : Option Node) : Frame [n] h (h.setNext n v) where
  off y hy := Heap.setNext_of_ne (by simpa using hy)
  code y := by simp

theorem frame_setPrev (h : Heap Node) (n : Node) (v : Option Node) : Frame [n] h (h.setPrev n v) where
  off y hy := Heap.setPrev_of_ne (by simpa using hy)
  code y := by simp

theorem frame_unlink (h : Heap Node) (n : Node) : Frame [n] h (LinkedList.unlink h n) :=
  ((frame_setPrev h n none).trans (frame_setNext _ n none)).mono (by simp)

namespace LinkedList

@[simp] theorem unlink_next (h : Heap Node) (n m : Node) :
    (unlink h n m).next = if m = n then none else (h m).next := by
  simp [unlink]

@[simp] theorem unlink_prev (h : Heap Node) (n m : Node) :
    (unlink h n m).prev = if m = n then none else (h m).prev := by
  simp [unlink]

end LinkedList

open LinkedList

/-- **`enqueue` appends.** -/
theorem IsList.enqueue (hl : IsList h l xs) (hn : n ∉ xs) :
    ∃ h' l', enqueue h l (some n) = some (h', l') ∧ IsList h' l' (xs ++ [n]) ∧
      Frame (n :: xs) h h' := by
  have hnd : (xs ++ [n]).Nodup := by
    rw [List.nodup_append]
    exact ⟨hl.nodup, List.nodup_singleton n, by
      rintro x hx y hy rfl
      exact hn (List.mem_singleton.mp hy ▸ hx)⟩
  have hsize : l.size + 1 = ((xs ++ [n]).length : ℤ) := by
    simp [hl.size]
  rcases xs.eq_nil_or_concat' with rfl | ⟨ys, t, rfl⟩
  · have hhead : l.head = none := hl.head
    refine ⟨_, _, by simp only [LinkedList.enqueue, hhead]; rfl, ⟨?_, rfl, rfl, hsize, hnd⟩,
      (frame_unlink h n).mono (by simp)⟩
    simp [Chain.seg_singleton]
  · have htail : l.tail = some t := by rw [hl.tail]; simp
    obtain ⟨d, hhead⟩ : ∃ d, l.head = some d := by
      rw [hl.head]
      exact Option.isSome_iff_exists.mp (by simp)
    have hne : ∀ x ∈ ys ++ [t], x ≠ n := fun x hx he => hn (he ▸ hx)
    refine ⟨_, _, by simp only [LinkedList.enqueue, hhead, htail]; rfl,
      ⟨?_, ?_, by simp, hsize, hnd⟩, ?_⟩
    · refine Chain.seg_append.mpr
        ⟨hl.links.relink_after hl.nodup (fun x hx => ?_) (fun x hx => ?_), ?_⟩
      · simp [hne x hx, eq_comm]
      · simp [hne x hx]
      · have hnt : n ≠ t := (hne t (by simp)).symm
        simp [Chain.seg_singleton, hnt]
    · rw [List.head?_append, ← hl.head, hhead]
      rfl
    · exact (((frame_setNext h n none).trans (frame_setPrev _ n (some t))).trans
        (frame_setNext _ t (some n))).mono (by simp)

/-- **`push` prepends.** -/
theorem IsList.push (hl : IsList h l xs) (hn : n ∉ xs) :
    ∃ h' l', push h l (some n) = some (h', l') ∧ IsList h' l' (n :: xs) ∧
      Frame (n :: xs) h h' := by
  have hnd : (n :: xs).Nodup := List.nodup_cons.mpr ⟨hn, hl.nodup⟩
  have hsize : l.size + 1 = ((n :: xs).length : ℤ) := by
    simp [hl.size]
  cases xs with
  | nil =>
    have hhead : l.head = none := hl.head
    refine ⟨_, _, by simp only [LinkedList.push, hhead]; rfl, ⟨?_, rfl, rfl, hsize, hnd⟩,
      frame_unlink h n⟩
    simp [Chain.seg_singleton]
  | cons d xs =>
    have hhead : l.head = some d := hl.head
    have hne : ∀ x ∈ d :: xs, x ≠ n := fun x hx he => hn (he ▸ hx)
    have hnd' : n ≠ d := (hne d List.mem_cons_self).symm
    refine ⟨_, _, by simp only [LinkedList.push, hhead]; rfl,
      ⟨Chain.seg_cons.mpr ⟨?_, ?_, ?_⟩, rfl, ?_, hsize, hnd⟩, ?_⟩
    · simp [hnd']
    · simp
    · refine hl.links.relink_before hl.nodup (fun x hx => ?_) (fun x hx => ?_)
      · simp [hne x hx]
      · simp [hne x hx, eq_comm]
    · rw [List.getLast?_cons_cons]
      exact hl.tail
    · exact (((frame_setNext h n (some d)).trans (frame_setPrev _ n none)).trans
        (frame_setPrev _ d (some n))).mono (by simp)

/-- **What taking a node off a list does**: the others stay in their order,
the node ends up with no links. -/
structure Removed (h : Heap Node) (n : Node) (xs ys : List Node) (h' : Heap Node)
    (l' : LinkedList Node) : Prop where
  list : IsList h' l' ys
  frame : Frame xs h h'
  next : (h' n).next = none
  prev : (h' n).prev = none

omit [DecidableEq Node] in
theorem IsList.size_ne_zero (hl : IsList h l xs) (hn : n ∈ xs) : l.size ≠ 0 := by
  have := List.length_pos_of_mem hn
  rw [hl.size]
  omega

/-- **`dequeue` drops the first.** -/
theorem IsList.dequeue (hl : IsList h l (n :: bs)) :
    ∃ h' l', dequeue h l = some (h', l', some n) ∧ Removed h n (n :: bs) bs h' l' := by
  obtain ⟨hn, hnd⟩ := List.nodup_cons.mp hl.nodup
  obtain ⟨-, hnext, hseg⟩ := hl.links
  have hsize := hl.size_ne_zero List.mem_cons_self
  have hhead : l.head = some n := hl.head
  cases bs with
  | nil =>
    have htail : l.tail = some n := hl.tail
    have hrun : LinkedList.dequeue h l =
        some (unlink h n, { size := l.size - 1, head := none, tail := none }, some n) := by
      simp only [LinkedList.dequeue, hsize, hhead, htail, if_true, if_false]
    exact ⟨_, _, hrun, ⟨trivial, rfl, rfl, by simp [hl.size], List.nodup_nil⟩, frame_unlink h n,
      by simp, by simp⟩
  | cons m bs =>
    have htail : l.tail ≠ some n := by
      rw [hl.tail, List.getLast?_cons_cons]
      exact fun he => hn (List.mem_of_getLast? he)
    have hnext : (h n).next = some m := hnext
    have hrun : LinkedList.dequeue h l = some (unlink (h.setPrev m none) n,
        { l with size := l.size - 1, head := some m }, some n) := by
      simp only [LinkedList.dequeue, hsize, hhead, htail, hnext, if_false]
    have hne : ∀ x ∈ m :: bs, x ≠ n := fun x hx he => hn (he ▸ hx)
    refine ⟨_, _, hrun, ⟨?_, rfl, ?_, by simp [hl.size], hnd⟩, ?_, by simp, by simp⟩
    · refine hseg.relink_before hnd (fun x hx => ?_) (fun x hx => ?_)
      · simp [hne x hx]
      · simp [hne x hx, eq_comm]
    · rw [← List.getLast?_cons_cons, ← hl.tail]
    · exact ((frame_setPrev h m none).trans (frame_unlink _ n)).mono (by simp)

/-- **`pop` drops the last.** -/
theorem IsList.pop (hl : IsList h l (as ++ [n])) :
    ∃ h' l', pop h l = some (h', l', some n) ∧ Removed h n (as ++ [n]) as h' l' := by
  obtain ⟨hnd, -, hdisj⟩ := List.nodup_append.mp hl.nodup
  have hn : n ∉ as := fun hn => hdisj n hn n (List.mem_singleton_self n) rfl
  obtain ⟨hseg, hlast⟩ := Chain.seg_append.mp hl.links
  obtain ⟨hprev, -⟩ := Chain.seg_singleton.mp hlast
  have hsize := hl.size_ne_zero (List.mem_append_right _ (List.mem_singleton_self n))
  have htail : l.tail = some n := by rw [hl.tail, List.getLast?_concat]
  rcases as.eq_nil_or_concat' with rfl | ⟨as, m, rfl⟩
  · have hhead : l.head = some n := hl.head
    have hrun : LinkedList.pop h l =
        some (unlink h n, { size := l.size - 1, head := none, tail := none }, some n) := by
      simp only [LinkedList.pop, hsize, hhead, htail, if_true, if_false]
    exact ⟨_, _, hrun, ⟨trivial, rfl, rfl, by simp [hl.size], List.nodup_nil⟩,
      (frame_unlink h n).mono (by simp), by simp, by simp⟩
  · have hfirst : l.head = (as ++ [m]).head? := by
      rw [hl.head, List.head?_append_of_ne_nil _ (by simp)]
    have hhead : l.head ≠ some n := fun he => hn (List.mem_of_head? (hfirst ▸ he))
    have hprev : (h n).prev = some m := by simpa using hprev
    have hrun : LinkedList.pop h l = some (unlink (h.setNext m none) n,
        { l with size := l.size - 1, tail := some m }, some n) := by
      simp only [LinkedList.pop, hsize, hhead, htail, hprev, if_false]
    have hne : ∀ x ∈ as ++ [m], x ≠ n := fun x hx he => hn (he ▸ hx)
    refine ⟨_, _, hrun, ⟨?_, hfirst, by simp, by simp [hl.size]; omega, hnd⟩, ?_, by simp, by simp⟩
    · refine hseg.relink_after hnd (fun x hx => ?_) (fun x hx => ?_)
      · simp [hne x hx, eq_comm]
      · simp [hne x hx]
    · exact ((frame_setNext h m none).trans (frame_unlink _ n)).mono (by simp)

/-- **`remove` drops the node**, wherever in the list it is. -/
theorem IsList.remove (hl : IsList h l (as ++ n :: bs)) :
    ∃ h' l', remove h l (some n) = some (h', l', some n) ∧
      Removed h n (as ++ n :: bs) (as ++ bs) h' l' := by
  have hsize := hl.size_ne_zero (n := n) (by simp)
  obtain ⟨hndas, hndbs, hdisj⟩ := List.nodup_append.mp hl.nodup
  obtain ⟨hnbs, hndbs⟩ := List.nodup_cons.mp hndbs
  have hnas : n ∉ as := fun hn => hdisj n hn n List.mem_cons_self rfl
  rcases as.eq_nil_or_concat' with rfl | ⟨as, z, rfl⟩
  · -- the head
    obtain ⟨h', l', hrun, hrem⟩ := hl.dequeue
    have hhead : l.head = some n := hl.head
    exact ⟨h', l', by simp [LinkedList.remove, hsize, hhead, hrun], hrem⟩
  · have hhead : l.head ≠ some n := by
      rw [hl.head, List.head?_append_of_ne_nil _ (by simp)]
      exact fun he => hnas (List.mem_of_head? he)
    cases bs with
    | nil =>
      -- the tail
      obtain ⟨h', l', hrun, hrem⟩ := hl.pop
      have htail : l.tail = some n := by rw [hl.tail, List.getLast?_concat]
      exact ⟨h', l', by simp [LinkedList.remove, hsize, hhead, htail, hrun],
        by simpa using hrem⟩
    | cons y bs =>
      -- in the middle, between `z` and `y`
      have htail : l.tail ≠ some n := by
        rw [hl.tail, List.getLast?_append_of_ne_nil _ (by simp), List.getLast?_cons_cons]
        exact fun he => hnbs (List.mem_of_getLast? he)
      obtain ⟨hsegas, hseg⟩ := Chain.seg_append.mp hl.links
      obtain ⟨hprev, hnext, hsegbs⟩ := Chain.seg_cons.mp hseg
      have hprev : (h n).prev = some z := by simpa using hprev
      have hnext : (h n).next = some y := hnext
      have hne : ∀ x ∈ as ++ [z], x ≠ n := fun x hx he => hnas (he ▸ hx)
      have hne' : ∀ x ∈ y :: bs, x ≠ n := fun x hx he => hnbs (he ▸ hx)
      have hzy : ∀ x ∈ as ++ [z], ∀ x' ∈ y :: bs, x ≠ x' := fun x hx x' hx' =>
        hdisj x hx x' (List.mem_cons_of_mem _ hx')
      have hny : n ≠ y := (hne' y List.mem_cons_self).symm
      have hrun : LinkedList.remove h l (some n) =
          some (unlink ((h.setPrev y (some z)).setNext z (some y)) n,
            { l with size := l.size - 1 }, some n) := by
        simp [LinkedList.remove, hsize, hhead, htail, hnext, hprev, hny]
      refine ⟨_, _, hrun, ⟨Chain.seg_append.mpr ⟨?_, ?_⟩, ?_, ?_, ?_, ?_⟩, ?_, by simp, by simp⟩
      · refine hsegas.relink_after hndas (fun x hx => ?_) (fun x hx => ?_)
        · simp [hne x hx, eq_comm]
        · simp [hne x hx, hzy x hx y List.mem_cons_self]
      · refine hsegbs.relink_before hndbs (fun x hx => ?_) (fun x hx => ?_)
        · have hxz : x ≠ z := (hzy z (by simp) x hx).symm
          simp [hne' x hx, hxz]
        · simp [hne' x hx, eq_comm]
      · simp [hl.head]
      · rw [hl.tail, List.getLast?_append_of_ne_nil _ (by simp), List.getLast?_cons_cons,
          List.getLast?_append_of_ne_nil _ (by simp)]
      · simp [hl.size]
        omega
      · rw [List.nodup_append]
        exact ⟨hndas, hndbs, hzy⟩
      · exact (((frame_setPrev h y (some z)).trans (frame_setNext _ z (some y))).trans
          (frame_unlink _ n)).mono (by simp)

/-! ## Looking a node up -/

/-- Walking a segment that ends the list, `has_member` meets its nodes. -/
theorem hasMemberLoop_eq {before : Option Node} {fuel : ℕ}
    (hseg : Chain.Seg (fun n => (h n).next) (fun n => (h n).prev) before xs none)
    (hfuel : xs.length < fuel) :
    hasMemberLoop h n fuel xs.head? = some (decide (n ∈ xs)) := by
  induction xs generalizing before fuel with
  | nil =>
    obtain ⟨fuel, rfl⟩ := Nat.exists_eq_add_of_lt hfuel
    simp [hasMemberLoop]
  | cons x xs ih =>
    obtain ⟨-, hnext, hrest⟩ := hseg
    have hnext : (h x).next = xs.head? := by simpa using hnext
    rw [List.length_cons] at hfuel
    obtain ⟨fuel, rfl⟩ : ∃ m, fuel = m + 1 := ⟨fuel - 1, by omega⟩
    rw [List.head?_cons, hasMemberLoop, hnext, ih hrest (by omega)]
    by_cases hx : x = n
    · simp [hx]
    · have hx' : n ≠ x := fun he => hx he.symm
      simp [hx, hx']

/-- **`has_member` is membership.** -/
theorem IsList.hasMember (hl : IsList h l xs) : hasMember h l (some n) = some (decide (n ∈ xs)) := by
  rw [LinkedList.hasMember, hl.head]
  exact hasMemberLoop_eq hl.links (by rw [hl.size]; omega)

omit [DecidableEq Node] in
/-- Walking such a segment `find` stops at the first node with the code. -/
theorem findLoop_eq {before : Option Node} {fuel : ℕ} {code : ℤ}
    (hseg : Chain.Seg (fun n => (h n).next) (fun n => (h n).prev) before xs none)
    (hfuel : xs.length < fuel) :
    findLoop h code fuel xs.head? = some (xs.find? fun x => (h x).code = code) := by
  induction xs generalizing before fuel with
  | nil =>
    obtain ⟨fuel, rfl⟩ := Nat.exists_eq_add_of_lt hfuel
    simp [findLoop]
  | cons x xs ih =>
    obtain ⟨-, hnext, hrest⟩ := hseg
    have hnext : (h x).next = xs.head? := by simpa using hnext
    rw [List.length_cons] at hfuel
    obtain ⟨fuel, rfl⟩ : ∃ m, fuel = m + 1 := ⟨fuel - 1, by omega⟩
    rw [List.head?_cons, findLoop, hnext, ih hrest (by omega)]
    by_cases hx : (h x).code = code
    · simp [hx]
    · simp [hx]

omit [DecidableEq Node] in
/-- **`find` finds the first node with the code.** -/
theorem IsList.find (hl : IsList h l xs) (code : ℤ) :
    find h l code = some (xs.find? fun x => (h x).code = code) := by
  rw [LinkedList.find, hl.head]
  exact findLoop_eq hl.links (by rw [hl.size]; omega)

end Yalnix
