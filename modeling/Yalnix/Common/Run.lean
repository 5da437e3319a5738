import Mathlib.Data.List.Induction
/-!
# Runs of a machine that takes events

A machine is a partial step function: `step s e` is the state after the
event `e`, and `none` where `e` cannot happen in `s`. A run is the list of
events it takes. Three things are said of a run: where it leads (`exec`),
that every step it takes met a condition on the state before it (`Along`),
and that a property held in every state it passed through (`Throughout`).

The rules at the end are the inductions on the run, each made once. What a
machine owes is the matching fact about one step.
-/

namespace Run

variable {σ ε : Type*} (step : σ → ε → Option σ)

/-- The state a list of events leads to, `none` where one of them cannot
happen. -/
def exec : σ → List ε → Option σ
  | s, [] => some s
  | s, e :: es => (step s e).bind fun t => exec t es

/-- **Every step the run takes meets `ok`**, which reads the state the step
starts from. -/
def Along (ok : σ → ε → Prop) : σ → List ε → Prop
  | _, [] => True
  | s, e :: es =>
    match step s e with
    | none => True
    | some t => ok s e ∧ Along ok t es

/-- **`P` holds in every state the run passes through**, the first and the
last included. -/
def Throughout (P : σ → Prop) : σ → List ε → Prop
  | s, [] => P s
  | s, e :: es =>
    P s ∧ match step s e with
      | none => True
      | some t => Throughout P t es

/-- **What a run notes**, where every step it takes notes something of the
state it starts from. -/
def noted {δ : Type*} (note : σ → ε → List δ) : σ → List ε → List δ
  | _, [] => []
  | s, e :: es =>
    match step s e with
    | none => []
    | some t => note s e ++ noted note t es

variable {step} {D : ε → Prop} {I P : σ → Prop} {ok : σ → ε → Prop}
variable {s t u : σ} {e : ε} {es : List ε}

/-- Whether the steps of a run meet a condition can be looked up. -/
instance decidableAlong [∀ s e, Decidable (ok s e)] : ∀ s es, Decidable (Along step ok s es)
  | _, [] => isTrue trivial
  | s, e :: es =>
    match hstep : step s e with
    | none => isTrue (by simp [Along, hstep])
    | some t =>
      have := decidableAlong t es
      decidable_of_iff (ok s e ∧ Along step ok t es) (by simp [Along, hstep])

@[simp] theorem exec_nil : exec step s [] = some s := rfl

@[simp] theorem exec_singleton : exec step s [e] = step s e :=
  Option.bind_fun_some (step s e)

theorem exec_cons : exec step s (e :: es) = some u ↔
    ∃ t, step s e = some t ∧ exec step t es = some u := by
  simp [exec, Option.bind_eq_some_iff]

theorem exec_append {es' : List ε} : exec step s (es ++ es') = some u ↔
    ∃ t, exec step s es = some t ∧ exec step t es' = some u := by
  induction es generalizing s with
  | nil => simp
  | cons e es ih =>
    simp only [List.cons_append, exec_cons, ih]
    constructor
    · rintro ⟨t, ht, t', ht', hu⟩
      exact ⟨t', ⟨t, ht, ht'⟩, hu⟩
    · rintro ⟨t', ⟨t, ht, ht'⟩, hu⟩
      exact ⟨t, ht, t', ht', hu⟩

theorem along_cons (h : step s e = some t) :
    Along step ok s (e :: es) ↔ ok s e ∧ Along step ok t es := by
  simp [Along, h]

/-- A start that leads through a run is there, and so is where it leads. -/
theorem exists_exec {start : Option σ} (h : (start.bind fun s => exec step s es).isSome = true) :
    ∃ s t, start = some s ∧ exec step s es = some t := by
  obtain ⟨t, ht⟩ := Option.isSome_iff_exists.mp h
  obtain ⟨s, hs, hrun⟩ := Option.bind_eq_some_iff.mp ht
  exact ⟨s, t, hs, hrun⟩

theorem throughout_cons (h : step s e = some t) :
    Throughout step P s (e :: es) ↔ P s ∧ Throughout step P t es := by
  simp [Throughout, h]

/-- A run meets a condition when its first part does and its second part
does from there. -/
theorem along_append {es' : List ε} (h : exec step s es = some t) :
    Along step ok s (es ++ es') ↔ Along step ok s es ∧ Along step ok t es' := by
  induction es generalizing s with
  | nil =>
    obtain rfl : s = t := by simpa using h
    simp [Along]
  | cons e es ih =>
    obtain ⟨u, hu, ht⟩ := exec_cons.mp h
    rw [List.cons_append, along_cons hu, along_cons hu, ih ht, and_assoc]

/-- Two conditions a run meets it meets together. -/
theorem Along.and {ok' : σ → ε → Prop} (h : Along step ok s es) (h' : Along step ok' s es) :
    Along step (fun s e => ok s e ∧ ok' s e) s es := by
  induction es generalizing s with
  | nil => trivial
  | cons e es ih =>
    cases ht : step s e with
    | none => simp [Along, ht]
    | some t =>
      obtain ⟨hs, hrest⟩ := (along_cons ht).mp h
      obtain ⟨hs', hrest'⟩ := (along_cons ht).mp h'
      exact (along_cons ht).mpr ⟨⟨hs, hs'⟩, ih hrest hrest'⟩

/-- What follows from a condition is met where it is. -/
theorem Along.mono {ok' : σ → ε → Prop} (h : Along step ok s es) (hok : ∀ s e, ok s e → ok' s e) :
    Along step ok' s es := by
  induction es generalizing s with
  | nil => trivial
  | cons e es ih =>
    cases ht : step s e with
    | none => simp [Along, ht]
    | some t =>
      obtain ⟨hs, hrest⟩ := (along_cons ht).mp h
      exact (along_cons ht).mpr ⟨hok s e hs, ih hrest⟩

/-- A property that holds throughout holds at the start. -/
theorem Throughout.start (h : Throughout step P s es) : P s := by
  cases es with
  | nil => exact h
  | cons e es => exact h.1

/-- And at the end. -/
theorem Throughout.final (h : Throughout step P s es) (hrun : exec step s es = some u) : P u := by
  induction es generalizing s with
  | nil =>
    obtain rfl : s = u := by simpa using hrun
    exact h
  | cons e es ih =>
    obtain ⟨t, ht, hu⟩ := exec_cons.mp hrun
    exact ih ((throughout_cons ht).mp h).2 hu

theorem throughout_of_forall (h : ∀ s, P s) : Throughout step P s es := by
  induction es generalizing s with
  | nil => exact h s
  | cons e es ih =>
    refine ⟨h s, ?_⟩
    cases step s e with
    | none => trivial
    | some t => exact ih

/-- What follows from a property holds where it does. -/
theorem Throughout.mono {Q : σ → Prop} (h : Throughout step P s es) (hpq : ∀ s, P s → Q s) :
    Throughout step Q s es := by
  induction es generalizing s with
  | nil => exact hpq s h
  | cons e es ih =>
    refine ⟨hpq s h.1, ?_⟩
    cases ht : step s e with
    | none => trivial
    | some t => exact ih ((throughout_cons ht).mp h).2

/-- **What a property of states gives of every step taken from them.** -/
theorem Throughout.along_step (h : Throughout step I s es)
    (hok : ∀ s, ∀ e ∈ es, ∀ t, I s → step s e = some t → ok s e) : Along step ok s es := by
  induction es generalizing s with
  | nil => trivial
  | cons e es ih =>
    cases ht : step s e with
    | none => simp [Along, ht]
    | some t =>
      obtain ⟨hs, hrest⟩ := (throughout_cons ht).mp h
      exact (along_cons ht).mpr ⟨hok s e List.mem_cons_self t hs ht,
        ih hrest fun s e he => hok s e (List.mem_cons_of_mem _ he)⟩

/-- And of every step asked for. -/
theorem Throughout.along (h : Throughout step I s es) (hok : ∀ s, ∀ e ∈ es, I s → ok s e) :
    Along step ok s es :=
  h.along_step fun s e he _ hs _ => hok s e he hs

/-- A condition that holds anywhere. -/
theorem along_of_forall (hok : ∀ s, ∀ e ∈ es, ok s e) : Along step ok s es :=
  (throughout_of_forall fun _ => trivial : Throughout step (fun _ => True) s es).along
    fun s e he _ => hok s e he

/-- **Since a step that met `act`, `P` has held**: the run took such a step,
and every state it passed through afterwards has the property. -/
def Since (step : σ → ε → Option σ) (act : σ → ε → Prop) (P : σ → Prop) (s : σ) (es : List ε) :
    Prop :=
  ∃ before e after u t, es = before ++ e :: after ∧ exec step s before = some u ∧ act u e ∧
    step u e = some t ∧ Throughout step P t after

theorem Throughout.snoc (h : Throughout step P s es) (hrun : exec step s es = some t)
    (hstep : step t e = some u) (hu : P u) : Throughout step P s (es ++ [e]) := by
  induction es generalizing s with
  | nil =>
    obtain rfl : s = t := by simpa using hrun
    exact (throughout_cons hstep).mpr ⟨h, hu⟩
  | cons e' es ih =>
    obtain ⟨s', hs', hrun'⟩ := exec_cons.mp hrun
    obtain ⟨hs, hrest⟩ := (throughout_cons hs').mp h
    exact (throughout_cons hs').mpr ⟨hs, ih hrest hrun'⟩

/-- The last step was such a step. -/
theorem Since.now {act : σ → ε → Prop} (hrun : exec step s es = some t)
    (hstep : step t e = some u) (hact : act t e) (hu : P u) : Since step act P s (es ++ [e]) :=
  ⟨es, e, [], t, u, rfl, hrun, hact, hstep, hu⟩

/-- The property holds after one more step. -/
theorem Since.snoc {act : σ → ε → Prop} (h : Since step act P s es)
    (hrun : exec step s es = some t) (hstep : step t e = some u) (hu : P u) :
    Since step act P s (es ++ [e]) := by
  obtain ⟨before, e', after, s', t', rfl, hbefore, hact, hstep', hall⟩ := h
  obtain ⟨s'', hs'', hrest⟩ := exec_append.mp hrun
  obtain rfl := Option.some.inj (hbefore.symm.trans hs'')
  obtain ⟨t'', ht'', hafter⟩ := exec_cons.mp hrest
  obtain rfl := Option.some.inj (hstep'.symm.trans ht'')
  refine ⟨before, e', after ++ [e], s', t', ?_, hbefore, hact, hstep', hall.snoc hafter hstep hu⟩
  rw [List.append_assoc, List.cons_append]

/-! ## The inductions -/

/-- **Induction on a run from its end**, for what is said of a state and of
how it was reached. -/
theorem history_of_exec {H : List ε → σ → Prop} (hnil : H [] s)
    (hsnoc : ∀ es t e u, exec step s es = some t → D e → H es t → step t e = some u →
      H (es ++ [e]) u)
    (hes : ∀ e ∈ es, D e) (hrun : exec step s es = some u) : H es u := by
  induction es using List.reverseRecOn generalizing u with
  | nil =>
    obtain rfl : s = u := by simpa using hrun
    exact hnil
  | append_singleton es e ih =>
    obtain ⟨t, ht, hu⟩ := exec_append.mp hrun
    obtain ⟨u', hstep, hlast⟩ := exec_cons.mp hu
    obtain rfl : u' = u := by simpa using hlast
    exact hsnoc es t e u' ht (hes e (List.mem_append_right _ (List.mem_singleton_self e)))
      (ih (fun e' he' => hes e' (List.mem_append_left _ he')) ht) hstep

/-- **What every step keeps** holds throughout. -/
theorem throughout_of_step (hstep : ∀ s, ∀ e ∈ es, ∀ t, I s → step s e = some t → I t)
    (hs : I s) : Throughout step I s es := by
  induction es generalizing s with
  | nil => exact hs
  | cons e es ih =>
    cases ht : step s e with
    | none => exact ⟨hs, by simp [ht]⟩
    | some t =>
      exact (throughout_cons ht).mpr ⟨hs, ih (fun s e he => hstep s e (List.mem_cons_of_mem _ he))
        (hstep s e List.mem_cons_self t hs ht)⟩

/-- **The invariant rule.** What every step keeps holds where the run ends. -/
theorem inv_of_exec (hstep : ∀ s e t, I s → D e → step s e = some t → I t)
    (hes : ∀ e ∈ es, D e) (hs : I s) (hrun : exec step s es = some u) : I u := by
  induction es generalizing s with
  | nil =>
    obtain rfl : s = u := by simpa using hrun
    exact hs
  | cons e es ih =>
    obtain ⟨t, ht, hu⟩ := exec_cons.mp hrun
    exact ih (fun e' he' => hes e' (List.mem_cons_of_mem _ he'))
      (hstep s e t hs (hes e List.mem_cons_self) ht) hu

/-- **The invariant rule under a condition**: what every step that meets
`ok` keeps holds throughout a run whose steps all meet it. -/
theorem throughout_of_along (hstep : ∀ s e t, I s → D e → ok s e → step s e = some t → I t)
    (hes : ∀ e ∈ es, D e) (hs : I s) (hok : Along step ok s es) :
    Throughout step I s es := by
  induction es generalizing s with
  | nil => exact hs
  | cons e es ih =>
    cases ht : step s e with
    | none => exact ⟨hs, by simp [ht]⟩
    | some t =>
      obtain ⟨hk, hok⟩ := (along_cons ht).mp hok
      exact (throughout_cons ht).mpr ⟨hs, ih (fun e' he' => hes e' (List.mem_cons_of_mem _ he'))
        (hstep s e t hs (hes e List.mem_cons_self) hk ht) hok⟩

/-- **Two conditions that agree as long as the second is met** are met by the
same runs. -/
theorem along_congr_of_keep {ok' : σ → ε → Prop}
    (hkeep : ∀ s e t, I s → D e → ok' s e → step s e = some t → I t)
    (hok : ∀ s e t, I s → D e → step s e = some t → (ok s e ↔ ok' s e)) (hes : ∀ e ∈ es, D e)
    (hs : I s) : Along step ok s es ↔ Along step ok' s es := by
  induction es generalizing s with
  | nil => exact Iff.rfl
  | cons e es ih =>
    have he := hes e List.mem_cons_self
    cases ht : step s e with
    | none => simp [Along, ht]
    | some t =>
      rw [along_cons ht, along_cons ht, hok s e t hs he ht]
      exact and_congr_right fun hk =>
        ih (fun e' he' => hes e' (List.mem_cons_of_mem _ he')) (hkeep s e t hs he hk ht)

/-- **Two conditions that agree in every state a run can reach** are met by
the same runs. -/
theorem along_congr {ok' : σ → ε → Prop} (hstep : ∀ s e t, I s → D e → step s e = some t → I t)
    (hok : ∀ s e, I s → D e → (ok s e ↔ ok' s e)) (hes : ∀ e ∈ es, D e) (hs : I s) :
    Along step ok s es ↔ Along step ok' s es :=
  along_congr_of_keep (fun s e t h he _ => hstep s e t h he) (fun s e _ h he _ => hok s e h he)
    hes hs

/-- **The exact rule for a law.** Where a step that meets `ok` keeps the
invariant, the invariant gives the law, and a step that does not meet `ok`
breaks the law, the law holds throughout a run exactly when all its steps
meet `ok`. -/
theorem throughout_iff_along_of_break
    (hkeep : ∀ s e t, I s → D e → ok s e → step s e = some t → I t)
    (hlaw : ∀ s, I s → P s)
    (hbreak : ∀ s e t, I s → D e → ¬ ok s e → step s e = some t → ¬ P t)
    (hes : ∀ e ∈ es, D e) (hs : I s) :
    Throughout step P s es ↔ Along step ok s es := by
  induction es generalizing s with
  | nil => simp [Throughout, Along, hlaw s hs]
  | cons e es ih =>
    cases ht : step s e with
    | none => simp [Throughout, Along, ht, hlaw s hs]
    | some t =>
      have he := hes e List.mem_cons_self
      have hes' : ∀ e' ∈ es, D e' := fun e' he' => hes e' (List.mem_cons_of_mem _ he')
      rw [throughout_cons ht, along_cons ht]
      constructor
      · rintro ⟨-, h⟩
        have hk : ok s e := by
          by_contra hbad
          exact hbreak s e t hs he hbad ht h.start
        exact ⟨hk, (ih hes' (hkeep s e t hs he hk ht)).mp h⟩
      · rintro ⟨hk, h⟩
        exact ⟨hlaw s hs, (ih hes' (hkeep s e t hs he hk ht)).mpr h⟩

/-- **The exact rule for a property of states.** Where each step, taken
from a state that has the property, keeps it exactly under `ok`, the
property holds throughout a run exactly when all its steps meet `ok`. -/
theorem throughout_iff_along (hinv : ∀ s e t, I s → D e → step s e = some t → I t)
    (hstep : ∀ s e t, I s → P s → D e → step s e = some t → (P t ↔ ok s e))
    (hes : ∀ e ∈ es, D e) (hs : I s) (hp : P s) :
    Throughout step P s es ↔ Along step ok s es := by
  have hkeep : ∀ s e t, I s ∧ P s → D e → ok s e → step s e = some t → I t ∧ P t :=
    fun s e t h he hk ht => ⟨hinv s e t h.1 he ht, (hstep s e t h.1 h.2 he ht).mpr hk⟩
  exact throughout_iff_along_of_break hkeep (fun _ h => h.2)
    (fun s e t h he hbad ht hpt => hbad ((hstep s e t h.1 h.2 he ht).mp hpt)) hes ⟨hs, hp⟩

/-- **The exact rule for a property of histories.** Where each step adds to
the history something good exactly under `ok`, the whole history is good
exactly when all the steps met `ok`. -/
theorem final_iff_along (hinv : ∀ s e t, I s → D e → step s e = some t → I t)
    (hstep : ∀ s e t, I s → D e → step s e = some t → (P t ↔ P s ∧ ok s e))
    (hes : ∀ e ∈ es, D e) (hs : I s) (hrun : exec step s es = some u) :
    P u ↔ P s ∧ Along step ok s es := by
  induction es generalizing s with
  | nil =>
    obtain rfl : s = u := by simpa using hrun
    simp [Along]
  | cons e es ih =>
    obtain ⟨t, ht, hu⟩ := exec_cons.mp hrun
    have he := hes e List.mem_cons_self
    rw [ih (fun e' he' => hes e' (List.mem_cons_of_mem _ he')) (hinv s e t hs he ht) hu,
      hstep s e t hs he ht, along_cons ht, and_assoc]

/-! ## Two machines -/

variable {τ δ : Type*} {a : τ}

/-- A longer run notes more. -/
theorem noted_append {note : σ → ε → List δ} {es' : List ε} (h : exec step s es = some t) :
    noted step note s (es ++ es') = noted step note s es ++ noted step note t es' := by
  induction es generalizing s with
  | nil =>
    obtain rfl : s = t := by simpa using h
    rfl
  | cons e es ih =>
    obtain ⟨u, hu, ht⟩ := exec_cons.mp h
    simp only [List.cons_append, noted, hu, ih ht, List.append_assoc]

theorem noted_singleton {note : σ → ε → List δ} (h : step s e = some t) :
    noted step note s [e] = note s e := by
  simp only [noted, h, List.append_nil]

/-- What every step notes a run notes. -/
theorem forall_noted {note : σ → ε → List δ} {Q : δ → Prop}
    (hnote : ∀ s, ∀ e ∈ es, ∀ x ∈ note s e, Q x) : ∀ x ∈ noted step note s es, Q x := by
  induction es generalizing s with
  | nil => intro x hx; cases hx
  | cons e es ih =>
    intro x hx
    cases ht : step s e with
    | none =>
      simp only [noted, ht] at hx
      cases hx
    | some t =>
      simp only [noted, ht] at hx
      rcases List.mem_append.mp hx with hx | hx
      · exact hnote s e List.mem_cons_self x hx
      · exact ih (fun s e he => hnote s e (List.mem_cons_of_mem _ he)) x hx

/-- **The simulation rule for what a run notes**: what one machine does under
a condition, the notes of it make the other do after it. -/
theorem exec_of_noted {step' : τ → δ → Option τ} {R : σ → τ → Prop} {note : σ → ε → List δ}
    (hnote : ∀ s a e t, R s a → ok s e → step s e = some t →
      ∃ b, exec step' a (note s e) = some b ∧ R t b)
    (hok : Along step ok s es) (hr : R s a) (hrun : exec step s es = some u) :
    ∃ b, exec step' a (noted step note s es) = some b ∧ R u b := by
  induction es generalizing s a with
  | nil =>
    obtain rfl : s = u := by simpa using hrun
    exact ⟨a, rfl, hr⟩
  | cons e es ih =>
    obtain ⟨t, ht, hu⟩ := exec_cons.mp hrun
    obtain ⟨hk, hrest⟩ := (along_cons ht).mp hok
    obtain ⟨b, hb, hr'⟩ := hnote s a e t hr hk ht
    obtain ⟨c, hc, hr''⟩ := ih hrest hr' hu
    have hnoted : noted step note s (e :: es) = note s e ++ noted step note t es := by
      simp only [noted, ht]
    rw [hnoted]
    exact ⟨c, exec_append.mpr ⟨b, hb, hc⟩, hr''⟩

/-- **A machine that does what the steps of another note.** -/
theorem exec_noted {step' : τ → δ → Option τ} {f : σ → τ} {note : σ → ε → List δ}
    (hnote : ∀ s, ∀ e ∈ es, ∀ t, I s → step s e = some t →
      exec step' (f s) (note s e) = some (f t))
    (hall : Throughout step I s es) (hrun : exec step s es = some u) :
    exec step' (f s) (noted step note s es) = some (f u) := by
  have hok : Along step (fun s e => I s ∧ e ∈ es) s es := hall.along fun s e he hs => ⟨hs, he⟩
  have hsim : ∀ s a e t, a = f s → I s ∧ e ∈ es → step s e = some t →
      ∃ b, exec step' a (note s e) = some b ∧ b = f t := by
    intro s a e t ha hs ht
    rw [ha]
    exact ⟨f t, hnote s e hs.2 t hs.1 ht, rfl⟩
  obtain ⟨b, hb, rfl⟩ := exec_of_noted hsim hok rfl hrun
  exact hb

/-- **The simulation rule for a run**: what one machine does under a
condition, the other does after it. -/
theorem exec_of_along {step' : τ → ε → Option τ} {R : σ → τ → Prop}
    (hstep : ∀ s a e t, R s a → ok s e → step s e = some t → ∃ b, step' a e = some b ∧ R t b)
    (hok : Along step ok s es) (hr : R s a) (hrun : exec step s es = some u) :
    ∃ b, exec step' a es = some b ∧ R u b := by
  induction es generalizing s a with
  | nil =>
    obtain rfl : s = u := by simpa using hrun
    exact ⟨a, rfl, hr⟩
  | cons e es ih =>
    obtain ⟨t, ht, hu⟩ := exec_cons.mp hrun
    obtain ⟨hk, hrest⟩ := (along_cons ht).mp hok
    obtain ⟨b, hb, hr'⟩ := hstep s a e t hr hk ht
    obtain ⟨c, hc, hr''⟩ := ih hrest hr' hu
    exact ⟨c, exec_cons.mpr ⟨b, hb, hc⟩, hr''⟩

end Run
