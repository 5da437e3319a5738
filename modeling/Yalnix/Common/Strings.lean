import Mathlib.Data.Int.Cast.Lemmas
import Mathlib.Data.List.TakeDrop
import Mathlib.Logic.Function.Basic
/-!
# Strings in memory

Memory is a function from addresses. A row of things is stored one after
another (`fill`) and is there until something is stored over it (`At`). A
string is a row that ends in a zero: it is found by scanning for it, and
several are packed with no room between them.
-/

namespace Strings

variable {α β : Type*} {f g : ℤ → α} {p q : ℤ} {x : α} {xs ys : List α}

/-! ## Rows -/

/-- **The row `xs` is at `p`.** -/
def At (f : ℤ → α) (p : ℤ) (xs : List α) : Prop :=
  ∀ (i : ℕ) (hi : i < xs.length), f (p + i) = xs[i]

/-- A row stored at `p`. -/
def fill : List α → (ℤ → α) → ℤ → ℤ → α
  | [], f, _ => f
  | x :: xs, f, p => fill xs (Function.update f p x) (p + 1)

theorem at_nil : At f p [] := fun _ hi => absurd hi (Nat.not_lt_zero _)

theorem at_cons : At f p (x :: xs) ↔ f p = x ∧ At f (p + 1) xs := by
  constructor
  · intro h
    refine ⟨?_, fun i hi => ?_⟩
    · have := h 0 (Nat.succ_pos _)
      rwa [Nat.cast_zero, Int.add_zero] at this
    · have := h (i + 1) (Nat.succ_lt_succ hi)
      rwa [Nat.cast_succ, Int.add_comm (i : ℤ) 1, ← Int.add_assoc] at this
  · rintro ⟨hx, h⟩ i hi
    cases i with
    | zero => rwa [Nat.cast_zero, Int.add_zero]
    | succ i =>
      rw [Nat.cast_succ, Int.add_comm (i : ℤ) 1, ← Int.add_assoc]
      exact h i (Nat.lt_of_succ_lt_succ hi)

theorem at_append : At f p (xs ++ ys) ↔ At f p xs ∧ At f (p + xs.length) ys := by
  induction xs generalizing p with
  | nil => simp [at_nil]
  | cons x xs ih =>
    rw [List.cons_append, at_cons, at_cons, ih, and_assoc, List.length_cons, Nat.cast_succ,
      Int.add_comm (xs.length : ℤ) 1, ← Int.add_assoc]

/-- Only the addresses of the row matter. -/
theorem At.congr (h : At f p xs) (heq : ∀ a, p ≤ a → a < p + xs.length → g a = f a) :
    At g p xs := by
  intro i hi
  rw [heq _ (by omega) (by omega), h i hi]

theorem fill_of_outside {a : ℤ} (ha : a < p ∨ p + xs.length ≤ a) : fill xs f p a = f a := by
  induction xs generalizing f p with
  | nil => rfl
  | cons x xs ih =>
    rw [List.length_cons] at ha
    rw [fill, ih (by omega), Function.update_of_ne (by omega)]

/-- What is at an address after depends on what was there alone. -/
theorem fill_congr {a : ℤ} (h : f a = g a) : fill xs f p a = fill xs g p a := by
  induction xs generalizing f g p with
  | nil => exact h
  | cons x xs ih =>
    rw [fill, fill]
    refine ih ?_
    rw [Function.update_apply, Function.update_apply, h]

/-- **A row stored is there**, -/
theorem at_fill : At (fill xs f p) p xs := by
  induction xs generalizing f p with
  | nil => exact at_nil
  | cons x xs ih =>
    rw [at_cons, fill]
    refine ⟨?_, ih⟩
    rw [fill_of_outside (Or.inl (Int.lt_succ p)), Function.update_self]

/-- **and stays** when another is stored beside it. -/
theorem At.fill (h : At f q ys) (hapart : q + ys.length ≤ p ∨ p + xs.length ≤ q) :
    At (fill xs f p) q ys :=
  h.congr fun _ _ _ => fill_of_outside (by omega)

/-- **One block of many**: after as much as the blocks before it take. -/
theorem At.block {e : β → List α} {bs : List β} (h : At f p (bs.flatMap e)) {i : ℕ}
    (hi : i < bs.length) : At f (p + ((bs.take i).flatMap e).length) (e bs[i]) := by
  induction bs generalizing p i with
  | nil => exact absurd hi (Nat.not_lt_zero _)
  | cons b bs ih =>
    rw [List.flatMap_cons, at_append] at h
    cases i with
    | zero =>
      rw [List.take_zero, List.flatMap_nil, List.length_nil, Nat.cast_zero, Int.add_zero]
      exact h.1
    | succ i =>
      rw [List.take_succ_cons, List.flatMap_cons, List.length_append, Nat.cast_add,
        ← Int.add_assoc]
      exact ih h.2 (Nat.lt_of_succ_lt_succ hi)

/-! ## Strings -/

section Terminated

variable [Zero α] {strs : List (List α)}

/-- Strings with their zeros, one after another. -/
def packed (strs : List (List α)) : List α := strs.flatMap fun xs => xs ++ [0]

theorem packed_cons : packed (xs :: strs) = xs ++ [0] ++ packed strs := rfl

theorem at_packed_cons : At f p (packed (xs :: strs)) ↔
    At f p (xs ++ [0]) ∧ At f (p + xs.length + 1) (packed strs) := by
  rw [packed_cons, at_append, List.length_append, List.length_singleton, Nat.cast_succ,
    ← Int.add_assoc]

variable [DecidableEq α] {fuel : ℕ}

/-- How far the zero is, and what comes before it, within `fuel` turns. -/
def strlen : ℕ → (ℤ → α) → ℤ → ℤ
  | 0, _, _ => 0
  | fuel + 1, f, p => if f p = 0 then 0 else strlen fuel f (p + 1) + 1

def string : ℕ → (ℤ → α) → ℤ → List α
  | 0, _, _ => []
  | fuel + 1, f, p => if f p = 0 then [] else f p :: string fuel f (p + 1)

/-- **A string is found where it was put**, with turns enough to scan it. -/
theorem string_eq (h : At f p (xs ++ [0])) (hxs : (0 : α) ∉ xs) (hfuel : xs.length < fuel) :
    string fuel f p = xs := by
  induction xs generalizing p fuel with
  | nil =>
    obtain ⟨fuel, rfl⟩ := Nat.exists_eq_succ_of_ne_zero (Nat.ne_of_gt hfuel)
    rw [string, if_pos (at_cons.mp h).1]
  | cons x xs ih =>
    obtain ⟨fuel, rfl⟩ := Nat.exists_eq_succ_of_ne_zero (Nat.ne_of_gt (Nat.zero_lt_of_lt hfuel))
    rw [List.mem_cons, not_or] at hxs
    rw [List.cons_append, at_cons] at h
    rw [string, h.1, if_neg (Ne.symm hxs.1), ih h.2 hxs.2 (Nat.lt_of_succ_lt_succ hfuel)]

theorem strlen_eq_length : strlen fuel f p = (string fuel f p).length := by
  induction fuel generalizing p with
  | zero => rfl
  | succ fuel ih =>
    rw [strlen, string]
    split
    · rfl
    · rw [ih, List.length_cons, Nat.cast_succ]

theorem strlen_eq (h : At f p (xs ++ [0])) (hxs : (0 : α) ∉ xs) (hfuel : xs.length < fuel) :
    strlen fuel f p = xs.length := by
  rw [strlen_eq_length, string_eq h hxs hfuel]

end Terminated

end Strings
