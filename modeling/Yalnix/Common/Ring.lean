import Mathlib.Data.List.Basic
import Mathlib.Logic.Function.Basic
import Mathlib.Algebra.Order.Group.Int
import Mathlib.Tactic.Push
/-!
# Circular storage

A block of cells indexed by the integers, of which the `n` slots counted
from `head` modulo `size` hold a sequence. `put` is the loop that stores a
run of values cell by cell; `content` reads the sequence back. Two facts
carry every use: storing past the last slot in use appends
(`content_put`), and moving the head forward drops (`content_append`).
-/

namespace Ring

variable {ι α : Type*} [DecidableEq ι]

/-- The loop `for (i = 0; i < n; i++) buf[cell i] = src[i]`. -/
def put (buf : ι → α) (cell : ℕ → ι) (src : ℕ → α) : ℕ → ι → α
  | 0 => buf
  | n + 1 => Function.update (put buf cell src n) (cell n) (src n)

variable {buf : ι → α} {cell : ℕ → ι} {src : ℕ → α} {n : ℕ}

/-- A cell the loop does not reach keeps its value. -/
theorem put_of_ne {j : ι} (h : ∀ i, i < n → cell i ≠ j) : put buf cell src n j = buf j := by
  induction n with
  | zero => rfl
  | succ n ih =>
    rw [put, Function.update_of_ne (h n (by omega)).symm]
    exact ih fun i hi => h i (by omega)

/-- A cell the loop reaches once holds what was stored there. -/
theorem put_cell (hinj : ∀ i j, i < n → j < n → cell i = cell j → i = j) {i : ℕ} (hi : i < n) :
    put buf cell src n (cell i) = src i := by
  induction n with
  | zero => omega
  | succ n ih =>
    rcases Nat.lt_succ_iff_lt_or_eq.mp hi with h | rfl
    · have hne : cell i ≠ cell n := fun he => absurd (hinj i n (by omega) (by omega) he) (by omega)
      rw [put, Function.update_of_ne hne]
      exact ih (fun a b ha hb => hinj a b (by omega) (by omega)) h
    · rw [put, Function.update_self]

/-! ## Slots modulo a size -/

/-- The slot `i` places after `head`. -/
def slot (size head : ℤ) (i : ℕ) : ℤ := (head + i) % size

variable {size head : ℤ}

theorem slot_nonneg (h : 0 < size) (i : ℕ) : 0 ≤ slot size head i := Int.emod_nonneg _ h.ne'

theorem slot_lt (h : 0 < size) (i : ℕ) : slot size head i < size := Int.emod_lt_of_pos _ h

/-- **Within one turn no slot repeats.** -/
theorem eq_of_slot_eq {i j : ℕ} (hi : (i : ℤ) < size) (hj : (j : ℤ) < size)
    (h : slot size head i = slot size head j) : i = j := by
  have hd : ((head + i) - (head + j)) % size = 0 := Int.emod_eq_emod_iff_emod_sub_eq_zero.mp h
  obtain ⟨c, hc⟩ := Int.dvd_of_emod_eq_zero hd
  have hc0 : c = 0 := by
    have hlt : size * c < size * 1 := by omega
    have hgt : size * (-1) < size * c := by omega
    have := Int.lt_of_mul_lt_mul_left hlt (by omega)
    have := Int.lt_of_mul_lt_mul_left hgt (by omega)
    omega
  rw [hc0] at hc
  omega

/-- Counting on from a slot is counting on from the head. -/
theorem slot_slot (k i : ℕ) : slot size (slot size head k) i = slot size head (k + i) := by
  unfold slot
  rw [Int.emod_add_emod]
  congr 1
  push_cast
  omega

/-! ## The sequence a ring holds -/

/-- The values in the `n` slots from `head`, in order. -/
def content (buf : ℤ → α) (size head : ℤ) (n : ℕ) : List α :=
  (List.range n).map fun i => buf (slot size head i)

@[simp] theorem length_content (buf : ℤ → α) (size head : ℤ) (n : ℕ) :
    (content buf size head n).length = n := by
  simp [content]

@[simp] theorem content_zero (buf : ℤ → α) (size head : ℤ) : content buf size head 0 = [] := rfl

/-- **Moving the head forward drops a prefix**: the first `k` values are
those of the first `k` slots, and the rest are read from where they end. -/
theorem content_append (buf : ℤ → α) (size head : ℤ) (k n : ℕ) :
    content buf size head (k + n) =
      content buf size head k ++ content buf size (slot size head k) n := by
  simp only [content, List.range_add, List.map_append, List.map_map, slot_slot]
  rfl

/-- **Storing past the slots in use appends**, as long as the ring does not
lap itself. -/
theorem content_put (buf : ℤ → α) (src : ℕ → α) {k n : ℕ} (hfit : ((k + n : ℕ) : ℤ) ≤ size) :
    content (put buf (slot size (slot size head k)) src n) size head (k + n) =
      content buf size head k ++ (List.range n).map src := by
  rw [content_append]
  congr 1
  · refine List.map_congr_left fun i hi => ?_
    rw [List.mem_range] at hi
    refine put_of_ne fun j hj he => ?_
    rw [slot_slot] at he
    have := eq_of_slot_eq (by push_cast at hfit ⊢; omega) (by push_cast at hfit ⊢; omega) he
    omega
  · refine List.map_congr_left fun i hi => ?_
    rw [List.mem_range] at hi
    refine put_cell (fun a b ha hb he => ?_) hi
    exact eq_of_slot_eq (by push_cast at hfit ⊢; omega) (by push_cast at hfit ⊢; omega) he

end Ring
