import Mathlib.Data.Int.Cast.Lemmas
import Mathlib.Data.UInt
/-!
# Bytes in memory

What a pointer points at is a function from offsets, and a buffer's worth of
it a list.
-/

namespace Yalnix

/-- A C `char`. -/
abbrev Byte := UInt8

section Bytes

variable {α : Type*}

/-- The first `n` things a pointer points at. -/
def bytesAt (src : ℤ → α) (n : ℕ) : List α := (List.range n).map fun i : ℕ => src i

@[simp] theorem length_bytesAt (src : ℤ → α) (n : ℕ) : (bytesAt src n).length = n := by
  simp [bytesAt]

@[simp] theorem bytesAt_zero (src : ℤ → α) : bytesAt src 0 = [] := rfl

/-- Bytes read in two runs are the bytes read in one. -/
theorem bytesAt_add (src : ℤ → α) (m n : ℕ) :
    bytesAt src (m + n) = bytesAt src m ++ bytesAt (fun i => src (m + i)) n := by
  simp only [bytesAt, List.range_add, List.map_append, List.map_map]
  refine congrArg _ (List.map_congr_left fun i _ => ?_)
  simp only [Function.comp_apply, Nat.cast_add]

/-- The first bytes of a run. -/
theorem take_bytesAt (src : ℤ → α) (m n : ℕ) :
    (bytesAt src n).take m = bytesAt src (min m n) := by
  rw [bytesAt, ← List.map_take, List.take_range, bytesAt]

/-- Runs of bytes from one place differ when their lengths do. -/
theorem bytesAt_inj {src : ℤ → α} {m n : ℕ} : bytesAt src m = bytesAt src n ↔ m = n := by
  refine ⟨fun h => ?_, fun h => h ▸ rfl⟩
  simpa using congrArg List.length h

theorem mem_bytesAt {src : ℤ → α} {n : ℕ} {a : α} :
    a ∈ bytesAt src n ↔ ∃ i : ℕ, i < n ∧ src i = a := by
  simp [bytesAt]

end Bytes

end Yalnix
