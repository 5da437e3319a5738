import Mathlib.Data.Option.Basic
/-!
# Machines that answer

A machine takes operations one by one and answers each; where it is a
partial function, it cannot carry the operation out. Next to it stands a
specification, which is a machine too: where *it* is undefined, the
operation is one a caller may not ask for. `Follows` says that the first
does whatever the second allows, with the same answers, and
`follows_of_step` is the induction, made once.
-/

namespace Machines

variable {σ τ ε ω : Type*}

/-- **`step` follows `spec` along the operations**: each one the
specification allows is carried out and gets the specified answer, and `E`
holds of the two states before it and the two after. -/
def Follows (step : σ → ε → Option (σ × ω)) (spec : τ → ε → Option (τ × ω))
    (E : σ → τ → ε → σ → τ → Prop) : σ → τ → List ε → Prop
  | _, _, [] => True
  | s, a, e :: es => ∀ b o, spec a e = some (b, o) →
      ∃ t, step s e = some (t, o) ∧ E s a e t b ∧ Follows step spec E t b es

variable {step : σ → ε → Option (σ × ω)} {spec : τ → ε → Option (τ × ω)}
variable {E : σ → τ → ε → σ → τ → Prop} {R : σ → τ → Prop}

/-- **The simulation rule.** A relation each operation keeps, and which gives
what is said of the operation, carries a whole run. -/
theorem follows_of_step
    (hstep : ∀ s a e b o, R s a → spec a e = some (b, o) →
      ∃ t, step s e = some (t, o) ∧ E s a e t b ∧ R t b)
    {s : σ} {a : τ} (hs : R s a) (es : List ε) : Follows step spec E s a es := by
  induction es generalizing s a with
  | nil => trivial
  | cons e es ih =>
    intro b o hspec
    obtain ⟨t, ht, he, hr⟩ := hstep s a e b o hs hspec
    exact ⟨t, ht, he, ih hr⟩

end Machines
