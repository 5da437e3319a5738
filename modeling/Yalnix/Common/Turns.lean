import Yalnix.Common.Run
/-!
# Taking turns

One server and the queue in front of it. Newcomers go to the end, and the
server passes to the head. When it does is not said here, but for the ticks:
a tick passes it on whenever somebody waits.

`served` is what there is to say of it: whoever waits behind `n` others is
served before the ticks outnumber them by two, after these `n` in the order
they stand, and after nobody else.
-/

namespace Turns

variable {ν : Type*}

/-- Who has the server, and who waits for it. -/
structure Turn (ν : Type*) where
  running : ν
  queue : List ν

/-- The server passes to the head of the queue, `new` having come to the
end. -/
def Turn.Passes (a b : Turn ν) : Prop := ∃ new, a.queue ++ new = b.running :: b.queue

/-- Nobody leaves, and newcomers go to the end. -/
def Turn.Stays (a b : Turn ν) : Prop := b.running = a.running ∧ ∃ new, b.queue = a.queue ++ new

/-- **One step of the discipline.** The server is given up to nobody only
where nobody waits. -/
inductive Turn.Moves (a b : Turn ν) : Prop
  | stays (h : a.Stays b)
  | passes (h : a.Passes b)
  | rests (h : a.queue = []) (h' : b.queue = [])

namespace Turn

variable {a b c : Turn ν} {new : List ν} {n p : ν}

theorem Stays.refl (a : Turn ν) : a.Stays a := ⟨rfl, [], (List.append_nil _).symm⟩

theorem Stays.trans (h : a.Stays b) (h' : b.Stays c) : a.Stays c := by
  obtain ⟨hab, new, hb⟩ := h
  obtain ⟨hbc, new', hc⟩ := h'
  refine ⟨hbc.trans hab, new ++ new', ?_⟩
  rw [hc, hb, List.append_assoc]

theorem Stays.passes (h : a.Stays b) (h' : b.Passes c) : a.Passes c := by
  obtain ⟨-, new, hb⟩ := h
  obtain ⟨new', hc⟩ := h'
  refine ⟨new ++ new', ?_⟩
  rw [← List.append_assoc, ← hb, hc]

theorem Passes.stays (h : a.Passes b) (h' : b.Stays c) : a.Passes c := by
  obtain ⟨new, hb⟩ := h
  obtain ⟨hrun, new', hc⟩ := h'
  refine ⟨new ++ new', ?_⟩
  rw [← List.append_assoc, hb, hrun, hc, List.cons_append]

/-- Newcomers first, then any step. -/
theorem Stays.moves (h : a.Stays b) (h' : b.Moves c) : a.Moves c := by
  cases h' with
  | stays hc => exact .stays (h.trans hc)
  | passes hc => exact .passes (h.passes hc)
  | rests hb hc =>
    obtain ⟨-, new, hnew⟩ := h
    rw [hnew] at hb
    exact .rests (List.append_eq_nil_iff.mp hb).1 hc

/-- Whoever is at the head is the next. -/
theorem Passes.cons {rest : List ν} (h : a.Passes b) (ha : a.queue = n :: rest) :
    b.running = n ∧ ∃ new, b.queue = rest ++ new := by
  obtain ⟨new, hb⟩ := h
  rw [ha, List.cons_append] at hb
  obtain ⟨hrun, hrest⟩ := List.cons.inj hb
  exact ⟨hrun.symm, new, hrest.symm⟩

/-- While somebody waits, the server is passed to the head or to nobody. -/
theorem Moves.cons {rest : List ν} (h : a.Moves b) (ha : a.queue = n :: rest) :
    a.Stays b ∨ a.Passes b := by
  cases h with
  | stays hb => exact Or.inl hb
  | passes hb => exact Or.inr hb
  | rests hnil => exact absurd (ha.symm.trans hnil) (List.cons_ne_nil _ _)

end Turn

/-! ## Runs -/

variable {σ ε : Type*} (step : σ → ε → Option σ) (turn : σ → Turn ν) [DecidableEq ν]

/-- Whom a step gives the server to. -/
def given (s : σ) (e : ε) : List ν :=
  match step s e with
  | none => []
  | some t => if (turn t).running = (turn s).running then [] else [(turn t).running]

/-- **Whom a run gives the server to**, in the order it does. -/
def servedIn : σ → List ε → List ν := Run.noted step (given step turn)

theorem servedIn_cons {s t : σ} {e : ε} {es : List ε} (h : step s e = some t) :
    servedIn step turn s (e :: es) =
      (if (turn t).running = (turn s).running then [] else [(turn t).running]) ++
        servedIn step turn t es := by
  simp only [servedIn, Run.noted, given, h]

/-- **A machine that keeps the discipline**, from the states of an
invariant, with events of a kind. -/
structure TakesTurns (I : σ → Prop) (D : ε → Prop) (tick : ε → Bool) : Prop where
  inv : ∀ s e t, I s → D e → step s e = some t → I t
  /-- The one that has the server does not wait for it. -/
  out : ∀ s, I s → (turn s).running ∉ (turn s).queue
  moves : ∀ s e t, I s → D e → step s e = some t → (turn s).Moves (turn t)
  tick : ∀ s e t, I s → D e → tick e = true → step s e = some t → (turn s).queue ≠ [] →
    (turn s).Passes (turn t)

variable {step turn} {I : σ → Prop} {D : ε → Prop} {tick : ε → Bool}
variable {s t u : σ} {e : ε} {es : List ε} {ahead behind : List ν} {p : ν}

omit [DecidableEq ν] in
/-- **One step, to one who waits**: those ahead stay as they are, or the
first of them is served, or it is served itself. -/
theorem TakesTurns.step_cases (hk : TakesTurns step turn I D tick) (hs : I s) (he : D e)
    (ht : step s e = some t) (hqueue : (turn s).queue = ahead ++ p :: behind) :
    (tick e = false ∧ (turn t).running = (turn s).running ∧
      ∃ new, (turn t).queue = ahead ++ p :: (behind ++ new)) ∨
    (turn t).running ≠ (turn s).running ∧
      (ahead = [] ∧ (turn t).running = p ∨
        ∃ rest new, ahead = (turn t).running :: rest ∧
          (turn t).queue = rest ++ p :: (behind ++ new)) := by
  have hne : (turn s).queue ≠ [] := by simp [hqueue]
  obtain ⟨n, rest, hcons⟩ := List.exists_cons_of_ne_nil hne
  have hgo : (tick e = false ∧ (turn s).Stays (turn t)) ∨ (turn s).Passes (turn t) := by
    rcases (hk.moves s e t hs he ht).cons hcons with hstay | hpass
    · cases h : tick e with
      | true => exact Or.inr (hk.tick s e t hs he h ht hne)
      | false => exact Or.inl ⟨rfl, hstay⟩
    · exact Or.inr hpass
  rcases hgo with ⟨hno, hsame, new, hnew⟩ | hpass
  · refine Or.inl ⟨hno, hsame, new, ?_⟩
    rw [hnew, hqueue, List.append_assoc, List.cons_append]
  · right
    have hchanged : (turn t).running ≠ (turn s).running := by
      intro heq
      refine hk.out s hs ?_
      rw [← heq, (hpass.cons hcons).1, hcons]
      exact List.mem_cons_self
    refine ⟨hchanged, ?_⟩
    cases ahead with
    | nil => exact Or.inl ⟨rfl, (hpass.cons hqueue).1⟩
    | cons a rest =>
      have hfront : (turn s).queue = a :: (rest ++ p :: behind) := hqueue
      obtain ⟨hrun, new, hrest⟩ := hpass.cons hfront
      refine Or.inr ⟨rest, new, by rw [hrun], ?_⟩
      rw [hrest, List.append_assoc, List.cons_append]

/-- **Whoever waits is served in turn.** -/
theorem TakesTurns.served (hk : TakesTurns step turn I D tick) (hes : ∀ e ∈ es, D e) (hs : I s)
    (hrun : Run.exec step s es = some u) (hqueue : (turn s).queue = ahead ++ p :: behind)
    (henough : ahead.length < es.countP tick) :
    ∃ es₁ es₂ v, es = es₁ ++ es₂ ∧ Run.exec step s es₁ = some v ∧ (turn v).running = p ∧
      es₁.countP tick ≤ ahead.length + 1 ∧ servedIn step turn s es₁ = ahead ++ [p] := by
  -- on the run: a step leaves `ahead` as it stands, or takes its head off
  induction es generalizing s ahead behind with
  | nil => exact absurd henough (Nat.not_lt_zero _)
  | cons e es ih =>
    obtain ⟨t, ht, hu⟩ := Run.exec_cons.mp hrun
    have he := hes e List.mem_cons_self
    have hes' : ∀ e' ∈ es, D e' := fun e' he' => hes e' (List.mem_cons_of_mem _ he')
    have hs' := hk.inv s e t hs he ht
    have hle : ∀ es' : List ε, (e :: es').countP tick ≤ es'.countP tick + 1 := by
      intro es'
      rw [List.countP_cons]
      split <;> omega
    rcases hk.step_cases hs he ht hqueue with ⟨hno, hsame, new, hqueue'⟩ |
      ⟨hchanged, ⟨rfl, hrunt⟩ | ⟨rest, new, hahead, hqueue'⟩⟩
    · have hskip : ∀ es' : List ε, (e :: es').countP tick = es'.countP tick :=
        fun es' => List.countP_cons_of_neg (by simp [hno])
      rw [hskip] at henough
      obtain ⟨es₁, es₂, v, rfl, hv, hrunv, hbound, hserved⟩ := ih hes' hs' hu hqueue' henough
      refine ⟨e :: es₁, es₂, v, rfl, Run.exec_cons.mpr ⟨t, ht, hv⟩, hrunv, ?_, ?_⟩
      · rw [hskip]
        exact hbound
      · rw [servedIn_cons step turn ht, if_pos hsame, List.nil_append, hserved]
    · refine ⟨[e], es, t, rfl, Run.exec_cons.mpr ⟨t, ht, rfl⟩, hrunt, hle [], ?_⟩
      rw [servedIn_cons step turn ht, if_neg hchanged, hrunt]
      rfl
    · have hlen : ahead.length = rest.length + 1 := by rw [hahead, List.length_cons]
      obtain ⟨es₁, es₂, v, rfl, hv, hrunv, hbound, hserved⟩ :=
        ih hes' hs' hu hqueue' (by have := hle es; omega)
      refine ⟨e :: es₁, es₂, v, rfl, Run.exec_cons.mpr ⟨t, ht, hv⟩, hrunv, ?_, ?_⟩
      · have := hle es₁
        omega
      · rw [servedIn_cons step turn ht, if_neg hchanged, hserved, hahead]
        rfl

end Turns
