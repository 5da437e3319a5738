import Yalnix.Scheduling.Delay.CheckDelay
/-!
# Every sleeper's clock

Runs of delays, clock traps and comings and goings. Where no tick meets an
expiring process with another behind it, a process that asked for `n` ticks
is ready after exactly `n` (`wakesOnTime`); and the ticks that do meet one
are the ones that go wrong (`ticksExactly_iff`).
-/

namespace Yalnix

namespace Clock

variable {Node : Type} [DecidableEq Node]
variable {s t : Sched Node} {xs rs : List Node} {p : Node} {e : Event Node} {es : List (Event Node)}

/-- **The machine in order**: the two queues, with neither the running
process nor idle on them, and no sleeper's counter used up. -/
structure Steady (s : Sched Node) (xs rs : List Node) : Prop extends Queues s xs rs where
  running_off : s.running ∉ xs ∧ s.running ∉ rs
  idle_off : s.idleNode ∉ xs ∧ s.idleNode ∉ rs
  positive : ∀ x ∈ xs, 0 < (s.heap x).code

def Sched.Ok (s : Sched Node) : Prop := ∃ xs rs, Steady s xs rs

/-- **`run_next_ready` takes the first**, or idle: whoever was ready still
is, or runs. -/
theorem Queues.runNextReady_spec (hq : Queues s xs rs)
    (hidle : s.idleNode ∉ xs ∧ s.idleNode ∉ rs) (hpos : ∀ x ∈ xs, 0 < (s.heap x).code) :
    ∃ s' rs', runNextReady s = some s' ∧ Steady s' xs rs' ∧
      (∀ y, (s'.heap y).code = (s.heap y).code) ∧ ∀ p ∈ rs, p ∈ rs' ∨ s'.running = p := by
  cases rs with
  | nil =>
    have hempty : s.ready.isEmpty = true := hq.ready.isEmpty_iff.mpr rfl
    refine ⟨{ s with running := s.idleNode }, [], by simp [runNextReady, hempty],
      ⟨⟨hq.delayed, hq.ready, hq.disjoint⟩, hidle, hidle, hpos⟩, fun _ => rfl,
      fun p hp => absurd hp List.not_mem_nil⟩
  | cons next rest =>
    have hempty : s.ready.isEmpty = false := by
      rw [← Bool.not_eq_true, hq.ready.isEmpty_iff]
      exact List.cons_ne_nil _ _
    obtain ⟨h', q', hrun, hrem⟩ := hq.ready.dequeue
    have hdisj : xs.Disjoint (next :: rest) := hq.disjoint
    have hnext : next ∉ xs := fun hx => hdisj hx List.mem_cons_self
    have hframe : IsList h' s.delayed xs := hq.delayed.frame hrem.frame fun y hy hx => hdisj hx hy
    refine ⟨{ s with heap := h', ready := q', running := next }, rest,
      by simp [runNextReady, hempty, hrun], ⟨⟨hframe, hrem.list, fun y hx hy =>
        hdisj hx (List.mem_cons_of_mem _ hy)⟩, ⟨hnext, (List.nodup_cons.mp hq.ready.nodup).1⟩,
        ⟨hidle.1, fun hr => hidle.2 (List.mem_cons_of_mem _ hr)⟩, fun x hx => ?_⟩,
      hrem.frame.code, fun p hp => ?_⟩
    · rw [hrem.frame.code x]
      exact hpos x hx
    · rcases List.mem_cons.mp hp with rfl | hp
      · exact Or.inr rfl
      · exact Or.inl hp

/-- The nodes off the queues may hold anything. -/
theorem Queues.update (hq : Queues s xs rs) (cell : Cell Node) (hx : p ∉ xs) (hr : p ∉ rs) :
    Queues { s with heap := Function.update s.heap p cell } xs rs where
  delayed := hq.delayed.congr fun y hy => by
    have hyp : y ≠ p := fun he => hx (he ▸ hy)
    simp [hyp]
  ready := hq.ready.congr fun y hy => by
    have hyp : y ≠ p := fun he => hr (he ▸ hy)
    simp [hyp]
  disjoint := hq.disjoint

/-! ## What each event does to the sleepers -/

/-- **`block_delay` puts the running process last**, its counter set. -/
theorem Steady.blockDelay_spec (hs : Steady s xs rs) {n : ℤ} (hn : 0 < n)
    (hrun : s.running ≠ s.idleNode) :
    ∃ t rs', blockDelay s n = some t ∧ Steady t (xs ++ [s.running]) rs' ∧
      (t.heap s.running).code = n ∧ ∀ y, y ≠ s.running → (t.heap y).code = (s.heap y).code := by
  obtain ⟨hx, hr⟩ := hs.running_off
  have hq : Queues { s with heap := s.heap.setCode s.running n } xs rs :=
    hs.toQueues.update _ hx hr
  -- the caller goes to the back of the delayed, and no cell but its own is written
  obtain ⟨h', q', hrun', hlist, hframe⟩ := hq.delayed.enqueue hx
  have hdisj : (s.running :: xs).Disjoint rs := by
    rw [List.disjoint_cons_left]
    exact ⟨hr, hs.disjoint⟩
  have hself : (h' s.running).code = n := by
    rw [hframe.code]
    simp [Heap.setCode]
  have hother : ∀ y, y ≠ s.running → (h' y).code = (s.heap y).code := by
    intro y hy
    rw [hframe.code]
    simp [Heap.setCode, hy]
  have hq' : Queues { s with heap := h', delayed := q' } (xs ++ [s.running]) rs := by
    refine ⟨hlist, hq.ready.frame hframe hdisj, ?_⟩
    rw [List.disjoint_append_left, List.singleton_disjoint]
    exact ⟨hs.disjoint, hr⟩
  have hidle : s.idleNode ∉ xs ++ [s.running] := by
    rw [List.mem_append, List.mem_singleton, not_or]
    exact ⟨hs.idle_off.1, hrun.symm⟩
  have hpos : ∀ x ∈ xs ++ [s.running], 0 < (h' x).code := by
    intro x hx'
    rcases List.mem_append.mp hx' with hx' | hx'
    · rw [hother x fun he => hx (he ▸ hx')]
      exact hs.positive x hx'
    · rw [List.mem_singleton.mp hx', hself]
      exact hn
  obtain ⟨t, rs', hnext, hsteady, hcode, -⟩ := hq'.runNextReady_spec ⟨hidle, hs.idle_off.2⟩ hpos
  refine ⟨t, rs', ?_, hsteady, (hcode _).trans hself, fun y hy => (hcode y).trans (hother y hy)⟩
  simp only [blockDelay, hrun', Option.bind_some, hnext]

/-- **`rr_preempt` only turns the ready queue**: whoever was ready still
is, or runs. -/
theorem Steady.rrPreempt_spec (hs : Steady s xs rs) :
    ∃ t rs', rrPreempt s = some t ∧ Steady t xs rs' ∧
      (∀ y, (t.heap y).code = (s.heap y).code) ∧ ∀ p ∈ rs, p ∈ rs' ∨ t.running = p := by
  unfold rrPreempt
  split
  · exact ⟨s, rs, rfl, hs, fun _ => rfl, fun p hp => Or.inl hp⟩
  · split
    · rename_i hne
      obtain ⟨s', hrun, hq, hsame⟩ := hs.toQueues.ready_spec hs.running_off.1 hs.running_off.2
      have hidle : s'.idleNode ∉ xs ∧ s'.idleNode ∉ rs ++ [s.running] := by
        rw [hsame.idleNode, List.mem_append, List.mem_singleton, not_or]
        exact ⟨hs.idle_off.1, hs.idle_off.2, hne.symm⟩
      have hpos : ∀ x ∈ xs, 0 < (s'.heap x).code := fun x hx => by
        rw [hsame.code]
        exact hs.positive x hx
      obtain ⟨t, rs', hnext, hsteady, hcode, hkeep⟩ := hq.runNextReady_spec hidle hpos
      exact ⟨t, rs', by rw [hrun, Option.bind_some, hnext], hsteady,
        fun y => (hcode y).trans (hsame.code y), fun p hp => hkeep p (List.mem_append_left _ hp)⟩
    · exact hs.toQueues.runNextReady_spec hs.idle_off hs.positive

/-- A call of `check_delay` keeps the machine in order. -/
theorem Steady.checkDelay_spec (hs : Steady s xs rs) :
    ∃ s' xs' rs', checkDelay s = some s' ∧ Steady s' xs' rs' := by
  rcases expires_cases s.heap xs with hall | ⟨as, x, bs, rfl, has, hx⟩
  · refine ⟨_, xs, rs, checkDelay_all hs.toQueues hall, hs.toQueues.tick xs, hs.running_off,
      hs.idle_off, fun y hy => ?_⟩
    have hpos := hs.positive y hy
    have hne := hall y hy
    rw [tick_code, if_pos hy]
    omega
  · obtain ⟨s', hrun, hq, hsame⟩ := checkDelay_first hs.toQueues has hx
    have hoff : ∀ {y}, y ∉ as ++ x :: bs ∧ y ∉ rs → y ∉ as ++ bs ∧ y ∉ rs ++ [x] := by
      simp only [List.mem_append, List.mem_cons, List.not_mem_nil, or_false]
      tauto
    refine ⟨s', as ++ bs, rs ++ [x], hrun, hq, ?_, ?_, fun y hy => ?_⟩
    · rw [hsame.running]
      exact hoff hs.running_off
    · rw [hsame.idleNode]
      exact hoff hs.idle_off
    · have hnd := hs.delayed.nodup
      rw [List.nodup_middle, List.nodup_cons] at hnd
      have hyx : y ≠ x := fun he => hnd.1 (he ▸ hy)
      have hpos := hs.positive y (by
        simp only [List.mem_append, List.mem_cons] at hy ⊢
        tauto)
      rw [hsame.code, tick_code]
      split
      · rename_i hmem
        -- a sleeper ahead of the first to expire is not about to
        have hyas : y ∈ as := (List.mem_append.mp hmem).resolve_right fun h =>
          hyx (List.mem_singleton.mp h)
        have := has y hyas
        omega
      · exact hpos

/-- **What an event does to the sleepers.** -/
inductive Effect (s : Sched Node) (t : Sched Node) : Event Node → Prop
  /-- A delay that is not one changes nothing. -/
  | noDelay {n : ℤ} (hn : n ≤ 0) (ht : t = s) : Effect s t (.delay n)
  /-- The running process goes to sleep. -/
  | delay {n : ℤ} (hn : 0 < n) (hsleep : t.sleepers = s.sleepers ++ [s.running])
      (hself : (t.heap s.running).code = n)
      (hother : ∀ y, y ≠ s.running → (t.heap y).code = (s.heap y).code) : Effect s t (.delay n)
  /-- A tick is a call of `check_delay`, and a turn of the ready queue. -/
  | clock {s' : Sched Node} (hrun : checkDelay s = some s') (hsleep : t.sleepers = s'.sleepers)
      (hcode : ∀ y, (t.heap y).code = (s'.heap y).code)
      (hready : ∀ p ∈ s'.runnable, p ∈ t.runnable ∨ t.running = p) : Effect s t .clock
  /-- A process that leaves is not a sleeper. -/
  | leave {cell : Cell Node} (hsleep : t.sleepers = s.sleepers)
      (hcode : ∀ y ∈ s.sleepers, (t.heap y).code = (s.heap y).code) : Effect s t (.leave cell)
  /-- Nor is one that arrives. -/
  | arrive {proc : Node} {cell : Cell Node} (hsleep : t.sleepers = s.sleepers)
      (hcode : ∀ y ∈ s.sleepers, (t.heap y).code = (s.heap y).code) : Effect s t (.arrive proc cell)

/-- **Every event keeps the machine in order, and has its effect.** -/
theorem Sched.Ok.step (hs : s.Ok) (h : Clock.step s e = some t) : t.Ok ∧ Effect s t e := by
  obtain ⟨xs, rs, hs⟩ := hs
  cases e with
  | delay n =>
    simp only [Clock.step, Option.ite_none_left_eq_some, Option.map_eq_some_iff] at h
    obtain ⟨hrun, ⟨s', o⟩, hk, rfl⟩ := h
    unfold kernelDelay at hk
    -- a delay of no ticks, or of fewer, changes nothing
    by_cases hn : 0 < n
    · obtain ⟨t, rs', hblock, hsteady, hself, hother⟩ := hs.blockDelay_spec hn hrun
      rw [if_neg (Int.not_lt.mpr (Int.le_of_lt hn)), if_pos hn, hblock, Option.map_some,
        Option.some.injEq, Prod.mk.injEq] at hk
      obtain ⟨rfl, -⟩ := hk
      refine ⟨⟨_, _, hsteady⟩, .delay hn ?_ hself hother⟩
      rw [hsteady.sleepers_eq, hs.sleepers_eq]
    · have hs' : s' = s := by
        rw [if_neg hn] at hk
        split at hk
        · exact (Prod.mk.inj (Option.some.inj hk)).1.symm
        · exact (Prod.mk.inj (Option.some.inj hk)).1.symm
      dsimp only
      rw [hs']
      exact ⟨⟨_, _, hs⟩, .noDelay (Int.not_lt.mp hn) rfl⟩
  | clock =>
    obtain ⟨s', xs', rs', hcheck, hs'⟩ := hs.checkDelay_spec
    obtain ⟨t', rs'', hturn, ht, hcode, hkeep⟩ := hs'.rrPreempt_spec
    simp only [Clock.step, trapClock, hcheck, Option.bind_some, hturn, Option.some.injEq] at h
    subst h
    refine ⟨⟨_, _, ht⟩, .clock hcheck ?_ hcode ?_⟩
    · rw [ht.sleepers_eq, hs'.sleepers_eq]
    · rw [ht.runnable_eq, hs'.runnable_eq]
      exact hkeep
  | leave cell =>
    simp only [Clock.step, Option.ite_none_left_eq_some] at h
    obtain ⟨-, h⟩ := h
    have hcell : ∀ y ∈ xs, (Function.update s.heap s.running cell y).code = (s.heap y).code := by
      intro y hy
      have hne : y ≠ s.running := fun he => hs.running_off.1 (he ▸ hy)
      rw [Function.update_of_ne hne]
    obtain ⟨t', rs', hnext, hsteady, hcode, -⟩ :=
      (hs.toQueues.update cell hs.running_off.1 hs.running_off.2).runNextReady_spec
        hs.idle_off fun x hx => by
          dsimp only
          rw [hcell x hx]
          exact hs.positive x hx
    obtain rfl := Option.some.inj (hnext.symm.trans h)
    refine ⟨⟨_, _, hsteady⟩, .leave ?_ fun y hy => ?_⟩
    · rw [hsteady.sleepers_eq, hs.sleepers_eq]
    · exact (hcode y).trans (hcell y (hs.sleepers_eq ▸ hy))
  | arrive proc cell =>
    simp only [Clock.step, Option.ite_none_left_eq_some, not_or, hs.sleepers_eq,
      hs.runnable_eq] at h
    obtain ⟨⟨hrun, hidle, hx, hr⟩, h⟩ := h
    have hcell : ∀ y ∈ xs, (Function.update s.heap proc cell y).code = (s.heap y).code := by
      intro y hy
      have hne : y ≠ proc := fun he => hx (he ▸ hy)
      rw [Function.update_of_ne hne]
    obtain ⟨t', hready, hq, hsame⟩ := (hs.toQueues.update cell hx hr).ready_spec hx hr
    obtain rfl := Option.some.inj (hready.symm.trans h)
    have hoff : ∀ {y}, y ≠ proc → y ∉ xs ∧ y ∉ rs → y ∉ xs ∧ y ∉ rs ++ [proc] := by
      simp only [List.mem_append, List.mem_singleton]
      tauto
    refine ⟨⟨_, _, hq, ?_, ?_, fun y hy => ?_⟩, .arrive ?_ fun y hy => ?_⟩
    · rw [hsame.running]
      exact hoff (Ne.symm hrun) hs.running_off
    · rw [hsame.idleNode]
      exact hoff (Ne.symm hidle) hs.idle_off
    · rw [hsame.code]
      dsimp only
      rw [hcell y hy]
      exact hs.positive y hy
    · rw [hq.sleepers_eq, hs.sleepers_eq]
    · exact (hsame.code y).trans (hcell y (hs.sleepers_eq ▸ hy))

/-! ## Runs -/

/-- Every tick of a run does what a tick should. -/
def TicksExactly (s : Sched Node) : Event Node → Prop
  | .clock => TickExact s
  | _ => True

/-- No tick of a run meets an expiring sleeper with another behind it. -/
def TicksSafely (s : Sched Node) : Event Node → Prop
  | .clock => OnlyLastExpires s
  | _ => True

/-- Whether it does can be looked up. -/
instance decidableTicksSafely (s : Sched Node) : ∀ e, Decidable (TicksSafely s e)
  | .clock => inferInstanceAs (Decidable (∀ x ∈ s.sleepers.dropLast, (s.heap x).code ≠ 1))
  | .delay _ | .leave _ | .arrive _ _ => isTrue trivial

/-- The clock traps of a run. -/
def ticks : List (Event Node) → ℕ
  | [] => 0
  | .clock :: es => ticks es + 1
  | _ :: es => ticks es

/-- **Whoever delays for `n` ticks is woken by the `n`-th**: until then it
sleeps, and after it it is ready, or runs. -/
def WakesOnTime (s : Sched Node) (es : List (Event Node)) : Prop :=
  ∀ es₁ n es₂ u t, es₁ ++ .delay n :: es₂ <+: es → 0 < n → Run.exec step s es₁ = some u →
    Run.exec step s (es₁ ++ .delay n :: es₂) = some t →
      ((ticks es₂ : ℤ) < n → u.running ∈ t.sleepers) ∧
        ((ticks es₂ : ℤ) = n → es₂.getLast? = some .clock →
          u.running ∉ t.sleepers ∧ (u.running ∈ t.runnable ∨ t.running = u.running))

/-- **A sleeper's step**: an exact tick takes one off its counter, or wakes
it when that was the last; nothing else touches it. -/
theorem sleeper_step (hs : s.Ok) (hp : p ∈ s.sleepers) (hexact : TicksExactly s e)
    (h : step s e = some t) :
    (e = .clock ∧ (s.heap p).code = 1 ∧ p ∉ t.sleepers ∧ (p ∈ t.runnable ∨ t.running = p)) ∨
      (p ∈ t.sleepers ∧ (t.heap p).code = (s.heap p).code - ticks [e]) := by
  have hoff : p ≠ s.running := by
    obtain ⟨xs, rs, hs⟩ := hs
    exact fun he => hs.running_off.1 (he ▸ hs.sleepers_eq ▸ hp)
  cases (hs.step h).2 with
  | noDelay hn ht => exact Or.inr ⟨ht ▸ hp, by simp [ht, ticks]⟩
  | delay hn hsleep hself hother =>
    exact Or.inr ⟨hsleep ▸ List.mem_append_left _ hp, by simp [hother p hoff, ticks]⟩
  | clock hrun hsleep hcode hready =>
    obtain ⟨s', hrun', hstay, hwake, htick⟩ := hexact
    obtain rfl := Option.some.inj (hrun.symm.trans hrun')
    by_cases h1 : (s.heap p).code = 1
    · refine Or.inl ⟨rfl, h1, ?_, hready p ?_⟩
      · rw [hsleep, hstay]
        simp [h1]
      · rw [hwake]
        exact List.mem_append_right _ (by simp [hp, h1])
    · refine Or.inr ⟨?_, ?_⟩
      · rw [hsleep, hstay]
        simp [hp, h1]
      · rw [hcode, htick, if_pos hp]
        simp [ticks]
  | leave hsleep hcode => exact Or.inr ⟨hsleep ▸ hp, by simp [hcode p hp, ticks]⟩
  | arrive hsleep hcode => exact Or.inr ⟨hsleep ▸ hp, by simp [hcode p hp, ticks]⟩

omit [DecidableEq Node] in
theorem ticks_cons (e : Event Node) (es : List (Event Node)) :
    ticks (e :: es) = ticks [e] + ticks es := by
  cases e <;> simp [ticks, Nat.add_comm]

omit [DecidableEq Node] in
theorem ticks_append (es es' : List (Event Node)) : ticks (es ++ es') = ticks es + ticks es' := by
  induction es with
  | nil => simp [ticks]
  | cons e es ih => rw [List.cons_append, ticks_cons, ticks_cons e es, ih, Nat.add_assoc]

/-- **A sleeper's run**: short of its counter in ticks, it sleeps, and its
counter is what is left. -/
theorem sleeper_run (hs : s.Ok) (hp : p ∈ s.sleepers) (hexact : Run.Along step TicksExactly s es)
    (hrun : Run.exec step s es = some t) (hlt : (ticks es : ℤ) < (s.heap p).code) :
    t.Ok ∧ p ∈ t.sleepers ∧ (t.heap p).code = (s.heap p).code - ticks es := by
  induction es generalizing s with
  | nil =>
    obtain rfl : s = t := by simpa using hrun
    exact ⟨hs, hp, by simp [ticks]⟩
  | cons e es ih =>
    obtain ⟨u, hu, ht⟩ := Run.exec_cons.mp hrun
    obtain ⟨he, hexact⟩ := (Run.along_cons hu).mp hexact
    rw [ticks_cons] at hlt ⊢
    rcases sleeper_step hs hp he hu with ⟨rfl, h1, -⟩ | ⟨hp', hcode⟩
    · simp only [ticks] at hlt
      omega
    · obtain ⟨hok, hmem, hcode'⟩ := ih (hs.step hu).1 hp' hexact ht (by omega)
      exact ⟨hok, hmem, by omega⟩

/-- **Exact ticks wake everyone on time.** -/
theorem wakesOnTime (hs : s.Ok) (hexact : Run.Along step TicksExactly s es) :
    WakesOnTime s es := by
  intro es₁ n es₂ u t hpre hn hu ht
  obtain ⟨es₃, rfl⟩ := hpre
  have huok : u.Ok := Run.inv_of_exec (D := fun _ => True) (fun _ _ _ hs _ h => (hs.step h).1)
    (fun _ _ => trivial) hs hu
  obtain ⟨u', hu', ht'⟩ := Run.exec_append.mp ht
  obtain rfl : u = u' := Option.some.inj (hu.symm.trans hu')
  -- the part of the run after the call
  have hexact := ((Run.along_append ht).mp hexact).1
  have hexact := ((Run.along_append hu).mp hexact).2
  obtain ⟨v, hv, ht'⟩ := Run.exec_cons.mp ht'
  obtain ⟨-, hexact⟩ := (Run.along_cons hv).mp hexact
  obtain ⟨hvok, heffect⟩ := huok.step hv
  obtain ⟨hmem, hcode⟩ : u.running ∈ v.sleepers ∧ (v.heap u.running).code = n := by
    cases heffect with
    | noDelay hle _ => omega
    | delay _ hsleep hself _ => exact ⟨hsleep ▸ by simp, hself⟩
  refine ⟨fun hlt => (sleeper_run hvok hmem hexact ht' (hcode ▸ hlt)).2.1, fun heq hlast => ?_⟩
  obtain ⟨es₄, rfl⟩ := List.getLast?_eq_some_iff.mp hlast
  obtain ⟨w, hw, htw⟩ := Run.exec_append.mp ht'
  obtain ⟨hexact, hexact'⟩ := (Run.along_append hw).mp hexact
  obtain ⟨t', htick, htt⟩ := Run.exec_cons.mp htw
  obtain rfl : t' = t := by simpa using htt
  obtain ⟨hexact', -⟩ := (Run.along_cons htick).mp hexact'
  rw [ticks_append] at heq
  simp only [ticks] at heq
  obtain ⟨hwok, hwmem, hwcode⟩ := sleeper_run hvok hmem hexact hw (by omega)
  rcases sleeper_step hwok hwmem hexact' htick with ⟨-, -, hwoken⟩ | ⟨hstill, hleft⟩
  · exact hwoken
  · -- a counter that is used up is nobody's
    obtain ⟨xs, rs, ht⟩ := (hwok.step htick).1
    have := ht.positive _ (ht.sleepers_eq ▸ hstill)
    simp only [ticks] at hleft
    omega

/-- **Every tick counts for every sleeper in exactly the runs whose ticks
expire the last sleeper only**, from any state in order: each then does what
a tick should, and whoever delays for `n` ticks is woken by the `n`-th. -/
theorem ticksExactly_iff (hs : s.Ok) :
    (Run.Along step TicksExactly s es ∧ WakesOnTime s es) ↔ Run.Along step TicksSafely s es := by
  have hiff : Run.Along step TicksExactly s es ↔ Run.Along step TicksSafely s es := by
    refine Run.along_congr (D := fun _ => True)
      (fun _ _ _ hs _ h => (hs.step h).1) (fun s e hs _ => ?_) (fun _ _ => trivial) hs
    obtain ⟨xs, rs, hs⟩ := hs
    cases e with
    | clock => exact tickExact_iff hs.toQueues
    | delay n => exact Iff.rfl
    | leave cell => exact Iff.rfl
    | arrive proc cell => exact Iff.rfl
  rw [← hiff]
  exact ⟨And.left, fun h => ⟨h, wakesOnTime hs h⟩⟩

/-- Processes 1 and 2 asleep for `a` and `b` more ticks, process 3 running. -/
def pair (a b : ℤ) : Sched ℕ where
  heap := fun n =>
    if n = 1 then ⟨a, some 2, none⟩ else if n = 2 then ⟨b, none, some 1⟩ else ⟨0, none, none⟩
  running := 3
  ready := ⟨0, none, none⟩
  delayed := ⟨2, some 1, some 2⟩
  idleNode := 0

theorem steady_pair {a b : ℤ} (ha : 0 < a) (hb : 0 < b) : Steady (pair a b) [1, 2] [] where
  delayed := ⟨by simp [Chain.Seg, pair], rfl, rfl, rfl, by decide⟩
  ready := ⟨trivial, rfl, rfl, rfl, List.nodup_nil⟩
  disjoint := fun _ _ h => absurd h List.not_mem_nil
  running_off := by simp [pair]
  idle_off := by simp [pair]
  positive := by simp [pair, ha, hb]

/-- The last of the two expires, then the third, which has gone to sleep behind
the first, and then the first. -/
theorem ticksExactly_pair :
    let es : List (Event ℕ) := [.clock, .delay 1, .clock, .clock]
    (Run.exec step (pair 3 1) es).map Sched.sleepers = some [] ∧
      Run.Along step TicksExactly (pair 3 1) es ∧ WakesOnTime (pair 3 1) es := by
  intro es
  have hruns : (Run.exec step (pair 3 1) es).map Sched.sleepers = some [] := by
    decide +kernel
  have hsafe : Run.Along step TicksSafely (pair 3 1) es := by
    decide +kernel
  have hs := steady_pair (a := 3) (b := 1) (by decide) (by decide)
  exact ⟨hruns, (ticksExactly_iff ⟨_, _, hs⟩).mpr hsafe⟩

/-- **The law fails** where the first of the two expires: the tick is lost
on the second. -/
theorem not_ticksExactly :
    ¬ ∀ (s : Sched ℕ) (es : List (Event ℕ)), s.Ok →
      Run.Along step TicksExactly s es ∧ WakesOnTime s es := by
  intro h
  have hs := steady_pair (a := 1) (b := 5) (by decide) (by decide)
  have hsome : (step (pair 1 5) .clock).isSome = true := by decide +kernel
  obtain ⟨t, ht⟩ := Option.isSome_iff_exists.mp hsome
  have hexact := ((Run.along_cons ht).mp (h (pair 1 5) [.clock] ⟨_, _, hs⟩).1).1
  have honly := (tickExact_iff hs.toQueues).mp hexact
  unfold OnlyLastExpires at honly
  rw [hs.sleepers_eq] at honly
  exact honly 1 (by decide) rfl

end Clock

end Yalnix
