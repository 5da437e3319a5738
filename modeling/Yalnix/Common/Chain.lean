import Mathlib.Data.List.Basic
import Mathlib.Data.List.Nodup
/-!
# Doubly linked chains

Nodes that carry their own links: `next` and `prev` give each node its
neighbours, and `Seg next prev b xs a` says that the nodes `xs` are linked
in order, with `b` before the first and `a` after the last. Surgery on a
chain is a cut (`seg_append`), a change of the pieces' outer links
(`Seg.relink_before`, `Seg.relink_after`) and a join, which is `seg_append`
again.
-/

namespace Chain

variable {α : Type*}

/-- **A segment**: the nodes of `xs`, linked in order. -/
def Seg (next prev : α → Option α) : Option α → List α → Option α → Prop
  | _, [], _ => True
  | before, x :: xs, after =>
    prev x = before ∧ next x = xs.head?.or after ∧ Seg next prev (some x) xs after

/-- The nodes met by following `next`, at most `n` of them. -/
def walk (next : α → Option α) : ℕ → Option α → List α
  | 0, _ => []
  | _ + 1, none => []
  | n + 1, some x => x :: walk next n (next x)

variable {next prev next' prev' : α → Option α} {before after before' after' : Option α}
variable {xs ys : List α} {x : α}

@[simp] theorem seg_nil : Seg next prev before [] after := trivial

theorem seg_cons : Seg next prev before (x :: xs) after ↔
    prev x = before ∧ next x = xs.head?.or after ∧ Seg next prev (some x) xs after := Iff.rfl

theorem seg_singleton : Seg next prev before [x] after ↔ prev x = before ∧ next x = after := by
  simp [Seg]

/-- **Cutting a segment in two**: each piece has the other's end for its
neighbour. -/
theorem seg_append : Seg next prev before (xs ++ ys) after ↔
    Seg next prev before xs (ys.head?.or after) ∧
      Seg next prev (xs.getLast?.or before) ys after := by
  induction xs generalizing before with
  | nil => simp
  | cons x xs ih =>
    have hlast : (x :: xs).getLast?.or before = xs.getLast?.or (some x) := by
      cases xs with
      | nil => rfl
      | cons y ys => simp [List.getLast?_cons]
    rw [List.cons_append, seg_cons, seg_cons, ih, hlast, List.head?_append, Option.or_assoc]
    tauto

/-- A segment depends on the links of its nodes alone. -/
theorem Seg.congr (h : Seg next prev before xs after)
    (hlinks : ∀ x ∈ xs, next' x = next x ∧ prev' x = prev x) : Seg next' prev' before xs after := by
  induction xs generalizing before with
  | nil => trivial
  | cons x xs ih =>
    obtain ⟨hp, hn, hseg⟩ := h
    obtain ⟨hn', hp'⟩ := hlinks x List.mem_cons_self
    exact ⟨hp'.trans hp, hn'.trans hn, ih hseg fun y hy => hlinks y (List.mem_cons_of_mem _ hy)⟩

/-- The last node of a segment is linked on to what stands after. -/
theorem Seg.next_last (h : Seg next prev before xs after) (hx : xs.getLast? = some x) :
    next x = after := by
  obtain ⟨ys, rfl⟩ := List.getLast?_eq_some_iff.mp hx
  exact (seg_singleton.mp (seg_append.mp h).2).2

variable [DecidableEq α]

/-- **Changing what stands before a segment**: the first node's `prev` is
all that has to change. -/
theorem Seg.relink_before (h : Seg next prev before xs after) (hnd : xs.Nodup)
    (hnext : ∀ x ∈ xs, next' x = next x)
    (hprev : ∀ x ∈ xs, prev' x = if xs.head? = some x then before' else prev x) :
    Seg next' prev' before' xs after := by
  cases xs with
  | nil => trivial
  | cons x xs =>
    obtain ⟨-, hx, hseg⟩ := h
    refine ⟨by simpa using hprev x List.mem_cons_self,
      (hnext x List.mem_cons_self).trans hx, hseg.congr fun y hy => ?_⟩
    have hyx : x ≠ y := fun he => (List.nodup_cons.mp hnd).1 (he ▸ hy)
    have := hprev y (List.mem_cons_of_mem _ hy)
    rw [List.head?_cons, if_neg (by simpa using hyx)] at this
    exact ⟨hnext y (List.mem_cons_of_mem _ hy), this⟩

/-- **Changing what stands after a segment**: the last node's `next` is all
that has to change. -/
theorem Seg.relink_after (h : Seg next prev before xs after) (hnd : xs.Nodup)
    (hnext : ∀ x ∈ xs, next' x = if xs.getLast? = some x then after' else next x)
    (hprev : ∀ x ∈ xs, prev' x = prev x) : Seg next' prev' before xs after' := by
  rcases xs.eq_nil_or_concat' with rfl | ⟨ys, t, rfl⟩
  · trivial
  · obtain ⟨hseg, hlast⟩ := seg_append.mp h
    have hlast := seg_singleton.mp hlast
    refine seg_append.mpr ⟨hseg.congr fun y hy => ?_, seg_singleton.mpr ⟨?_, ?_⟩⟩
    · have hyt : t ≠ y := by
        rintro rfl
        exact (List.nodup_append.mp hnd).2.2 t hy t (List.mem_singleton_self t) rfl
      have := hnext y (List.mem_append_left _ hy)
      rw [List.getLast?_concat, if_neg (by simpa using hyt)] at this
      exact ⟨this, hprev y (List.mem_append_left _ hy)⟩
    · exact (hprev t (by simp)).trans hlast.1
    · simpa using hnext t (by simp)

omit [DecidableEq α] in
/-- Following the links of a whole list meets its nodes in order. -/
theorem Seg.walk_eq (h : Seg next prev before xs none) : walk next xs.length xs.head? = xs := by
  induction xs generalizing before with
  | nil => rfl
  | cons x xs ih =>
    obtain ⟨-, hn, hseg⟩ := h
    rw [Option.or_none] at hn
    simp only [List.length_cons, List.head?_cons, walk, hn, ih hseg]

end Chain
