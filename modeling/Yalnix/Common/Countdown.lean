import Mathlib.Data.Int.Notation
import Yalnix.Common.Run
/-!
# Counting down, one release at a time

Sleepers stand in a list, each with a count. A tick walks the list from the
front and takes one off each count it comes to; at the first that runs out
it releases the sleeper, and goes no further, so that those behind keep
their counts. Nobody is early for it. But whoever has `k` others in front
may be passed over by `k` ticks, and by no more: a tick that does not reach
a sleeper has released one in front of it.
-/

namespace Countdown

variable {α : Type*}

/-- What a tick leaves. -/
def tick : List (α × ℤ) → List (α × ℤ)
  | [] => []
  | (x, n) :: rest => if n - 1 = 0 then rest else (x, n - 1) :: tick rest

/-- Whom it releases. -/
def expired : List (α × ℤ) → Option α
  | [] => none
  | (x, n) :: rest => if n - 1 = 0 then some x else expired rest

variable {x : α} {n : ℤ} {as bs l : List (α × ℤ)}

theorem tick_cons_of_eq (h : n = 1) : tick ((x, n) :: l) = l ∧ expired ((x, n) :: l) = some x :=
  ⟨if_pos (by omega), if_pos (by omega)⟩

theorem tick_cons_of_ne (h : n ≠ 1) :
    tick ((x, n) :: l) = (x, n - 1) :: tick l ∧ expired ((x, n) :: l) = expired l :=
  ⟨if_neg (by omega), if_neg (by omega)⟩

/-- Counts stay above zero. -/
theorem tick_pos (h : ∀ y ∈ l, 0 < y.2) : ∀ y ∈ tick l, 0 < y.2 := by
  induction l with
  | nil => exact h
  | cons a rest ih =>
    obtain ⟨x, n⟩ := a
    have hn : 0 < n := h (x, n) List.mem_cons_self
    have hrest : ∀ y ∈ rest, 0 < y.2 := fun y hy => h y (List.mem_cons_of_mem _ hy)
    by_cases hone : n = 1
    · rw [(tick_cons_of_eq hone).1]
      exact hrest
    · rw [(tick_cons_of_ne hone).1]
      intro y hy
      rcases List.mem_cons.mp hy with rfl | hy
      · dsimp only
        omega
      · exact ih hrest y hy

/-- Nobody comes. -/
theorem tick_sublist (l : List (α × ℤ)) : ((tick l).map Prod.fst).Sublist (l.map Prod.fst) := by
  induction l with
  | nil => exact List.Sublist.refl _
  | cons a rest ih =>
    obtain ⟨x, n⟩ := a
    by_cases hone : n = 1
    · rw [(tick_cons_of_eq hone).1]
      exact List.sublist_cons_self _ _
    · rw [(tick_cons_of_ne hone).1]
      exact ih.cons_cons x

/-- **One tick, to one sleeper**: it releases one in front, or the sleeper
itself, or takes one off its count. -/
theorem tick_cases (as bs : List (α × ℤ)) (x : α) (n : ℤ) :
    (∃ as', tick (as ++ (x, n) :: bs) = as' ++ (x, n) :: bs ∧ as'.length + 1 = as.length) ∨
    (n = 1 ∧ expired (as ++ (x, n) :: bs) = some x ∧
      ∃ as', tick (as ++ (x, n) :: bs) = as' ++ bs) ∨
    n ≠ 1 ∧ ∃ as' bs', tick (as ++ (x, n) :: bs) = as' ++ (x, n - 1) :: bs' ∧
      as'.length = as.length := by
  induction as with
  | nil =>
    by_cases hone : n = 1
    · obtain ⟨htick, hexpired⟩ := tick_cons_of_eq (x := x) (l := bs) hone
      exact Or.inr (Or.inl ⟨hone, hexpired, [], htick⟩)
    · exact Or.inr (Or.inr ⟨hone, [], tick bs, (tick_cons_of_ne hone).1, rfl⟩)
  | cons a rest ih =>
    obtain ⟨y, k⟩ := a
    rw [List.cons_append]
    by_cases hone : k = 1
    · exact Or.inl ⟨rest, (tick_cons_of_eq hone).1, rfl⟩
    · obtain ⟨htick, hexpired⟩ := tick_cons_of_ne (x := y) (l := rest ++ (x, n) :: bs) hone
      rw [htick, hexpired]
      rcases ih with ⟨as', heq, hlen⟩ | ⟨hn, hx, as', heq⟩ | ⟨hn, as', bs', heq, hlen⟩
      · exact Or.inl ⟨(y, k - 1) :: as', by rw [heq, List.cons_append], by simp [hlen]⟩
      · exact Or.inr (Or.inl ⟨hn, hx, (y, k - 1) :: as', by rw [heq, List.cons_append]⟩)
      · exact Or.inr (Or.inr ⟨hn, (y, k - 1) :: as', bs', by rw [heq, List.cons_append],
          by simp [hlen]⟩)

/-! ## Runs -/

variable {σ ε : Type*} (step : σ → ε → Option σ) (sleepers : σ → List (α × ℤ))

/-- **A machine that counts its sleepers down**, from the states of an
invariant, with events of a kind: the events that tick tick, and the others
let newcomers lie down behind. -/
structure CountsDown (I : σ → Prop) (D : ε → Prop) (ticks : ε → Bool) (wakes : σ → α → Prop) :
    Prop where
  inv : ∀ s e t, I s → D e → step s e = some t → I t
  adds : ∀ s e t, I s → D e → ticks e = false → step s e = some t →
    ∃ new, sleepers t = sleepers s ++ new
  tick : ∀ s e t, I s → D e → ticks e = true → step s e = some t →
    sleepers t = tick (sleepers s) ∧ ∀ x, expired (sleepers s) = some x → wakes t x

variable {step sleepers} {I : σ → Prop} {D : ε → Prop} {ticks : ε → Bool} {wakes : σ → α → Prop}
variable {s t u : σ} {e : ε} {es : List ε}

/-- **Nobody is released early.** -/
theorem CountsDown.early (hk : CountsDown step sleepers I D ticks wakes) (hes : ∀ e ∈ es, D e)
    (hs : I s) (hrun : Run.exec step s es = some u) (hx : sleepers s = as ++ (x, n) :: bs)
    (hfew : (es.countP ticks : ℤ) < n) :
    ∃ as' n' bs', sleepers u = as' ++ (x, n') :: bs' ∧ n ≤ n' + es.countP ticks := by
  induction es generalizing s as n bs with
  | nil =>
    obtain rfl : s = u := by simpa using hrun
    exact ⟨as, n, bs, hx, by simp⟩
  | cons e es ih =>
    obtain ⟨t, ht, hu⟩ := Run.exec_cons.mp hrun
    have he := hes e List.mem_cons_self
    have hes' : ∀ e' ∈ es, D e' := fun e' he' => hes e' (List.mem_cons_of_mem _ he')
    have hs' := hk.inv s e t hs he ht
    cases htick : ticks e with
    | false =>
      obtain ⟨new, hnew⟩ := hk.adds s e t hs he htick ht
      rw [hx, List.append_assoc, List.cons_append] at hnew
      rw [List.countP_cons_of_neg (by simp [htick])] at hfew ⊢
      exact ih hes' hs' hu hnew hfew
    | true =>
      obtain ⟨hafter, -⟩ := hk.tick s e t hs he htick ht
      rw [List.countP_cons_of_pos htick] at hfew ⊢
      rw [hx] at hafter
      rcases tick_cases as bs x n with ⟨as', heq, -⟩ | ⟨rfl, -, -⟩ | ⟨-, as', bs', heq, -⟩
      · obtain ⟨as'', n', bs'', hlast, hle⟩ := ih hes' hs' hu (hafter.trans heq) (by omega)
        exact ⟨as'', n', bs'', hlast, by omega⟩
      · omega
      · obtain ⟨as'', n', bs'', hlast, hle⟩ := ih hes' hs' hu (hafter.trans heq) (by omega)
        exact ⟨as'', n', bs'', hlast, by omega⟩

/-- **Nor passed over by more ticks than there were sleepers in front.** -/
theorem CountsDown.late (hk : CountsDown step sleepers I D ticks wakes) (hes : ∀ e ∈ es, D e)
    (hs : I s) (hrun : Run.exec step s es = some u) (hx : sleepers s = as ++ (x, n) :: bs)
    (hn : 0 < n) (henough : n + as.length ≤ es.countP ticks) :
    ∃ before e after v w, es = before ++ e :: after ∧ Run.exec step s before = some v ∧
      step v e = some w ∧ ticks e = true ∧ (before.countP ticks : ℤ) + 1 ≤ n + as.length ∧
      wakes w x := by
  -- on the run: each tick takes one off the count or off those in front
  induction es generalizing s as n bs with
  | nil =>
    rw [List.countP_nil] at henough
    omega
  | cons e es ih =>
    obtain ⟨t, ht, hu⟩ := Run.exec_cons.mp hrun
    have he := hes e List.mem_cons_self
    have hes' : ∀ e' ∈ es, D e' := fun e' he' => hes e' (List.mem_cons_of_mem _ he')
    have hs' := hk.inv s e t hs he ht
    cases htick : ticks e with
    | false =>
      obtain ⟨new, hnew⟩ := hk.adds s e t hs he htick ht
      rw [hx, List.append_assoc, List.cons_append] at hnew
      rw [List.countP_cons_of_neg (by simp [htick])] at henough
      obtain ⟨before, e', after, v, w, rfl, hv, hw, htick', hle, hwakes⟩ :=
        ih hes' hs' hu hnew hn henough
      refine ⟨e :: before, e', after, v, w, rfl, Run.exec_cons.mpr ⟨t, ht, hv⟩, hw, htick', ?_,
        hwakes⟩
      rwa [List.countP_cons_of_neg (by simp [htick])]
    | true =>
      obtain ⟨hafter, hwake⟩ := hk.tick s e t hs he htick ht
      rw [List.countP_cons_of_pos htick] at henough
      rw [hx] at hafter hwake
      -- what follows the tick, whatever it took off
      have hlater : ∀ {as' bs' : List (α × ℤ)} {n' : ℤ}, sleepers t = as' ++ (x, n') :: bs' →
          0 < n' → n' + as'.length + 1 = n + as.length →
          ∃ before e' after v w, e :: es = before ++ e' :: after ∧
            Run.exec step s before = some v ∧ step v e' = some w ∧ ticks e' = true ∧
            (before.countP ticks : ℤ) + 1 ≤ n + as.length ∧ wakes w x := by
        intro as' bs' n' hx' hn' hsum
        obtain ⟨before, e', after, v, w, rfl, hv, hw, htick', hle, hwakes⟩ :=
          ih hes' hs' hu hx' hn' (by omega)
        refine ⟨e :: before, e', after, v, w, rfl, Run.exec_cons.mpr ⟨t, ht, hv⟩, hw, htick', ?_,
          hwakes⟩
        rw [List.countP_cons_of_pos htick]
        omega
      rcases tick_cases as bs x n with ⟨as', heq, hlen⟩ | ⟨rfl, hexpired, -⟩ |
        ⟨hone, as', bs', heq, hlen⟩
      · exact hlater (hafter.trans heq) hn (by omega)
      · refine ⟨[], e, es, s, t, rfl, rfl, ht, htick, ?_, hwake x hexpired⟩
        rw [List.countP_nil]
        omega
      · exact hlater (hafter.trans heq) (by omega) (by omega)

end Countdown
