import Mathlib.Order.Basic
/-!
# A scan with verdicts and faults

A loop that looks at one place after another, at most so many of them. A
turn of it faults, ends with a verdict, or goes on; without a verdict at the
end of its turns the scan says no.
-/

namespace Scan

/-- What one turn of a scan comes to. -/
inductive Turn where
  | fault
  | ends (verdict : Bool)
  | goesOn
  deriving DecidableEq, Repr

/-- The scan of the places from 0 on. `none` is a fault. -/
def scan : ℕ → (ℕ → Turn) → Option Bool
  | 0, _ => some false
  | fuel + 1, turn =>
    match turn 0 with
    | .fault => none
    | .ends verdict => some verdict
    | .goesOn => scan fuel fun i => turn (i + 1)

variable {fuel : ℕ} {turn : ℕ → Turn}

/-- What a scan does at a place it gets to, of the places from 1 on, is what
it does of all of them once it went on from 0. -/
private theorem forall_lt_succ_of_goesOn (h : turn 0 = .goesOn) {n : ℕ} :
    (∀ i < n + 1, turn i = .goesOn) ↔ ∀ i < n, turn (i + 1) = .goesOn := by
  constructor
  · exact fun hall i hi => hall (i + 1) (Nat.succ_lt_succ hi)
  · intro hall i hi
    cases i with
    | zero => exact h
    | succ i => exact hall i (Nat.lt_of_succ_lt_succ hi)

/-- **A scan says yes** where a turn it gets to does. -/
theorem scan_eq_true_iff :
    scan fuel turn = some true ↔ ∃ n < fuel, turn n = .ends true ∧ ∀ i < n, turn i = .goesOn := by
  induction fuel generalizing turn with
  | zero => exact iff_of_false (fun h => by cases h) fun ⟨n, hn, _⟩ => absurd hn (Nat.not_lt_zero n)
  | succ fuel ih =>
    -- past place 0 only if that turn went on
    have hzero : (∃ n < fuel + 1, turn n = .ends true ∧ ∀ i < n, turn i = .goesOn) ↔
        turn 0 = .ends true ∨ turn 0 = .goesOn ∧
          ∃ n < fuel, turn (n + 1) = .ends true ∧ ∀ i < n, turn (i + 1) = .goesOn := by
      constructor
      · rintro ⟨n, hn, hends, hon⟩
        cases n with
        | zero => exact Or.inl hends
        | succ n =>
          have hfirst := hon 0 (Nat.succ_pos n)
          exact Or.inr ⟨hfirst, n, Nat.lt_of_succ_lt_succ hn, hends,
            (forall_lt_succ_of_goesOn hfirst).mp hon⟩
      · rintro (hends | ⟨hfirst, n, hn, hends, hon⟩)
        · exact ⟨0, Nat.succ_pos fuel, hends, fun i hi => absurd hi (Nat.not_lt_zero i)⟩
        · exact ⟨n + 1, Nat.succ_lt_succ hn, hends, (forall_lt_succ_of_goesOn hfirst).mpr hon⟩
    rw [hzero, scan]
    cases hturn : turn 0 with
    | fault => simp
    | ends verdict => simp
    | goesOn => simpa using ih

/-- **A scan does not fault** where no turn it gets to does. -/
theorem scan_ne_none_iff :
    scan fuel turn ≠ none ↔ ∀ n < fuel, (∀ i < n, turn i = .goesOn) → turn n ≠ .fault := by
  induction fuel generalizing turn with
  | zero => exact iff_of_true (fun h => by cases h) fun n hn => absurd hn (Nat.not_lt_zero n)
  | succ fuel ih =>
    have hzero : (∀ n < fuel + 1, (∀ i < n, turn i = .goesOn) → turn n ≠ .fault) ↔
        turn 0 ≠ .fault ∧ (turn 0 = .goesOn →
          ∀ n < fuel, (∀ i < n, turn (i + 1) = .goesOn) → turn (n + 1) ≠ .fault) := by
      constructor
      · intro h
        refine ⟨h 0 (Nat.succ_pos fuel) fun i hi => absurd hi (Nat.not_lt_zero i),
          fun hfirst n hn hon => ?_⟩
        exact h (n + 1) (Nat.succ_lt_succ hn) ((forall_lt_succ_of_goesOn hfirst).mpr hon)
      · rintro ⟨hnofault, hrest⟩ n hn hon
        cases n with
        | zero => exact hnofault
        | succ n =>
          have hfirst := hon 0 (Nat.succ_pos n)
          exact hrest hfirst n (Nat.lt_of_succ_lt_succ hn)
            ((forall_lt_succ_of_goesOn hfirst).mp hon)
    rw [hzero, scan]
    cases hturn : turn 0 with
    | fault => simp
    | ends verdict => simp
    | goesOn => simpa using ih

end Scan
