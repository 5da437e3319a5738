import Mathlib.Algebra.BigOperators.Group.List.Basic
import Mathlib.Algebra.GroupWithZero.Nat
import Mathlib.Data.Int.Notation
import Mathlib.Data.List.Nodup
/-!
# Records filed under a number

A list of records, each under a number, newest last. A record is found by
its number, and the first one filed under it is the one that is found,
stored to and removed.
-/

/-- A record with its number. -/
structure Filed (α : Type*) where
  code : ℤ
  data : α

namespace Filed

variable {α β : Type*} {l : List (Filed α)} {code code' : ℤ} {x y : α} {r : Filed α}

/-- The record filed under a number. -/
def find : List (Filed α) → ℤ → Option α
  | [], _ => none
  | n :: rest, code => if n.code = code then some n.data else find rest code

/-- A store to the record filed under a number. -/
def store : List (Filed α) → ℤ → α → List (Filed α)
  | [], _, _ => []
  | n :: rest, code, x => if n.code = code then ⟨code, x⟩ :: rest else n :: store rest code x

/-- The record is taken off the list. -/
def remove : List (Filed α) → ℤ → List (Filed α)
  | [], _ => []
  | n :: rest, code => if n.code = code then rest else n :: remove rest code

theorem find_cons_self (h : r.code = code) : find (r :: l) code = some r.data := if_pos h

theorem find_cons_of_ne (h : r.code ≠ code) : find (r :: l) code = find l code := if_neg h

/-- What is found is on the list. -/
theorem mem_of_find (h : find l code = some x) : ⟨code, x⟩ ∈ l := by
  induction l with
  | nil => cases h
  | cons r rest ih =>
    by_cases hr : r.code = code
    · rw [find_cons_self hr] at h
      obtain rfl := Option.some.inj h
      obtain rfl := hr
      exact List.mem_cons_self
    · rw [find_cons_of_ne hr] at h
      exact List.mem_cons_of_mem _ (ih h)

/-- What is on the list is found, where no number is used twice. -/
theorem find_of_mem (hnd : (l.map Filed.code).Nodup) (h : r ∈ l) : find l r.code = some r.data := by
  induction l with
  | nil => cases h
  | cons q rest ih =>
    rw [List.map_cons, List.nodup_cons] at hnd
    rcases List.mem_cons.mp h with rfl | hr
    · exact find_cons_self rfl
    · have hne : q.code ≠ r.code := fun heq =>
        hnd.1 (heq ▸ List.mem_map_of_mem (f := Filed.code) hr)
      rw [find_cons_of_ne hne]
      exact ih hnd.2 hr

theorem find_eq_none (h : ∀ r ∈ l, r.code ≠ code) : find l code = none := by
  induction l with
  | nil => rfl
  | cons r rest ih =>
    rw [find_cons_of_ne (h r List.mem_cons_self)]
    exact ih fun q hq => h q (List.mem_cons_of_mem _ hq)

/-- **A record is found** exactly where one has the number. -/
theorem isSome_find : (find l code).isSome = true ↔ code ∈ l.map Filed.code := by
  constructor
  · intro h
    obtain ⟨x, hx⟩ := Option.isSome_iff_exists.mp h
    exact List.mem_map_of_mem (f := Filed.code) (mem_of_find hx)
  · intro h
    induction l with
    | nil => cases h
    | cons r rest ih =>
      by_cases hr : r.code = code
      · rw [find_cons_self hr]
        rfl
      · rw [find_cons_of_ne hr]
        rcases List.mem_cons.mp h with heq | hin
        · exact absurd heq.symm hr
        · exact ih hin

/-! ## A new record -/

theorem find_append_of_some (h : find l code = some x) :
    find (l ++ [r]) code = some x := by
  induction l with
  | nil => cases h
  | cons q rest ih =>
    rw [List.cons_append]
    by_cases hq : q.code = code
    · rwa [find_cons_self hq] at h ⊢
    · rw [find_cons_of_ne hq] at h ⊢
      exact ih h

theorem find_append_of_none (h : find l code = none) :
    find (l ++ [r]) code = if r.code = code then some r.data else none := by
  induction l with
  | nil => rfl
  | cons q rest ih =>
    rw [List.cons_append]
    by_cases hq : q.code = code
    · rw [find_cons_self hq] at h
      cases h
    · rw [find_cons_of_ne hq] at h ⊢
      exact ih h

/-- A new record is found under a new number. -/
theorem find_append_self (hnew : code ∉ l.map Filed.code) :
    find (l ++ [⟨code, x⟩]) code = some x := by
  have hnone : find l code = none := by
    rw [← Option.not_isSome_iff_eq_none, isSome_find]
    exact hnew
  rw [find_append_of_none hnone, if_pos rfl]

/-- **Another number is not touched** by it. -/
theorem find_append_of_ne (h : code' ≠ code) : find (l ++ [⟨code, x⟩]) code' = find l code' := by
  cases hfind : find l code' with
  | none => rw [find_append_of_none hfind, if_neg h.symm]
  | some y => exact find_append_of_some hfind

/-! ## A store -/

theorem store_cons_self (h : r.code = code) : store (r :: l) code x = ⟨code, x⟩ :: l := if_pos h

theorem store_cons_of_ne (h : r.code ≠ code) : store (r :: l) code x = r :: store l code x :=
  if_neg h

/-- A record is still filed under its number. -/
@[simp] theorem map_code_store : (store l code x).map Filed.code = l.map Filed.code := by
  induction l with
  | nil => rfl
  | cons r rest ih =>
    by_cases hr : r.code = code
    · rw [store_cons_self hr, List.map_cons, List.map_cons, hr]
    · rw [store_cons_of_ne hr, List.map_cons, List.map_cons, ih]

theorem find_store_self (h : find l code = some y) : find (store l code x) code = some x := by
  induction l with
  | nil => cases h
  | cons r rest ih =>
    by_cases hr : r.code = code
    · rw [store_cons_self hr, find_cons_self rfl]
    · rw [store_cons_of_ne hr, find_cons_of_ne hr]
      rw [find_cons_of_ne hr] at h
      exact ih h

/-- **Another number is not touched** by a store. -/
theorem find_store_of_ne (h : code' ≠ code) : find (store l code x) code' = find l code' := by
  induction l with
  | nil => rfl
  | cons r rest ih =>
    by_cases hr : r.code = code
    · have hr' : r.code ≠ code' := hr ▸ h.symm
      rw [store_cons_self hr, find_cons_of_ne h.symm, find_cons_of_ne hr']
    · rw [store_cons_of_ne hr]
      unfold find
      rw [ih]

/-- On the list after a store are the record stored and records that were
there. -/
theorem mem_store (h : r ∈ store l code x) : r ∈ l ∨ r = ⟨code, x⟩ := by
  induction l with
  | nil => exact Or.inl h
  | cons q rest ih =>
    by_cases hq : q.code = code
    · rw [store_cons_self hq] at h
      rcases List.mem_cons.mp h with heq | hin
      · exact Or.inr heq
      · exact Or.inl (List.mem_cons_of_mem _ hin)
    · rw [store_cons_of_ne hq] at h
      rcases List.mem_cons.mp h with rfl | hin
      · exact Or.inl List.mem_cons_self
      · exact (ih hin).imp_left (List.mem_cons_of_mem _)

/-- Storing what is there changes nothing. -/
theorem store_find (h : find l code = some x) : store l code x = l := by
  induction l with
  | nil => rfl
  | cons r rest ih =>
    by_cases hr : r.code = code
    · rw [find_cons_self hr] at h
      obtain rfl := Option.some.inj h
      obtain rfl := hr
      exact store_cons_self rfl
    · rw [find_cons_of_ne hr] at h
      rw [store_cons_of_ne hr, ih h]

/-! ## A removal -/

theorem remove_sublist : (remove l code).Sublist l := by
  induction l with
  | nil => exact List.Sublist.refl _
  | cons r rest ih =>
    unfold remove
    split
    · exact List.sublist_cons_self _ _
    · exact ih.cons_cons r

theorem map_code_remove : (remove l code).map Filed.code = (l.map Filed.code).erase code := by
  induction l with
  | nil => rfl
  | cons r rest ih =>
    unfold remove
    split
    · rename_i hr
      rw [List.map_cons, hr, List.erase_cons_head]
    · rename_i hr
      rw [List.map_cons, List.map_cons, List.erase_cons_tail (by simpa using hr), ih]

/-- **A record removed is gone**, where no two have its number. -/
theorem find_remove_self (hnd : (l.map Filed.code).Nodup) : find (remove l code) code = none := by
  induction l with
  | nil => rfl
  | cons r rest ih =>
    rw [List.map_cons, List.nodup_cons] at hnd
    unfold remove
    split
    · rename_i hr
      refine find_eq_none fun q hq heq => hnd.1 ?_
      rw [hr, ← heq]
      exact List.mem_map_of_mem hq
    · rename_i hr
      rw [find_cons_of_ne hr]
      exact ih hnd.2

/-- **Another number is not touched** by a removal. -/
theorem find_remove_of_ne (h : code' ≠ code) : find (remove l code) code' = find l code' := by
  induction l with
  | nil => rfl
  | cons r rest ih =>
    unfold remove
    split
    · rename_i hr
      rw [find_cons_of_ne]
      rw [hr]
      exact h.symm
    · unfold find
      rw [ih]

/-! ## A default for what is not there -/

/-- **A new record with the default** is as one that is not there. -/
theorem getD_find_append : (find (l ++ [⟨code, x⟩]) code').getD x = (find l code').getD x := by
  cases hfind : find l code' with
  | none =>
    rw [find_append_of_none hfind]
    split <;> rfl
  | some y => rw [find_append_of_some hfind]

/-- **A record that is removed** leaves the default. -/
theorem getD_find_remove (hnd : (l.map Filed.code).Nodup) :
    (find (remove l code) code').getD x = if code' = code then x else (find l code').getD x := by
  split
  · rename_i heq
    rw [heq, find_remove_self hnd]
    rfl
  · rename_i hne
    rw [find_remove_of_ne hne]

/-! ## Counting over all records -/

section Total

variable {f : α → ℕ}

/-- What the records come to. -/
def total (f : α → ℕ) (l : List (Filed α)) : ℕ := (l.map fun r => f r.data).sum

@[simp] theorem total_nil : total f [] = 0 := rfl

@[simp] theorem total_cons : total f (r :: l) = f r.data + total f l := by
  simp [total]

@[simp] theorem total_append {l' : List (Filed α)} :
    total f (l ++ l') = total f l + total f l' := by
  simp [total]

/-- **A store changes the total** by what it changes one record by. -/
theorem total_store (h : find l code = some y) :
    total f (store l code x) + f y = total f l + f x := by
  induction l with
  | nil => cases h
  | cons r rest ih =>
    by_cases hr : r.code = code
    · rw [find_cons_self hr] at h
      obtain rfl := Option.some.inj h
      rw [store_cons_self hr, total_cons, total_cons]
      dsimp only
      omega
    · rw [find_cons_of_ne hr] at h
      have := ih h
      rw [store_cons_of_ne hr, total_cons, total_cons]
      omega

theorem total_remove_le : total f (remove l code) ≤ total f l := by
  induction l with
  | nil => exact Nat.le_refl _
  | cons r rest ih =>
    unfold remove
    split
    · rw [total_cons]
      omega
    · rw [total_cons, total_cons]
      omega

theorem total_remove (h : find l code = some x) : total f (remove l code) + f x = total f l := by
  induction l with
  | nil => cases h
  | cons r rest ih =>
    unfold remove
    by_cases hr : r.code = code
    · rw [find_cons_self hr] at h
      rw [if_pos hr, total_cons, Option.some.inj h]
      omega
    · rw [find_cons_of_ne hr] at h
      have := ih h
      rw [if_neg hr, total_cons, total_cons]
      omega

theorem le_total_of_find (h : find l code = some x) : f x ≤ total f l := by
  induction l with
  | nil => cases h
  | cons r rest ih =>
    rw [total_cons]
    by_cases hr : r.code = code
    · rw [find_cons_self hr] at h
      obtain rfl := Option.some.inj h
      omega
    · rw [find_cons_of_ne hr] at h
      have := ih h
      omega

end Total

end Filed
