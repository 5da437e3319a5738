import Mathlib.Data.Int.Range
import Yalnix.Machine.Asleep
/-!
# When the machine idles for good

`Machine.AtRest` is a state nothing gets the machine out of, whatever the
clock and the terminals do: idle runs, nobody is ready or delayed, nobody
writes to a terminal, and whoever reads from one finds no room for its line.
From every other state the clock and the terminals can get a process to run,
so that a machine that idles for good has processes waiting for each other
only.
-/

namespace Yalnix

variable {Node Addr : Type} [Paging] [Devices] [DecidableEq Node] [DecidableEq Addr]

open Devices

namespace Machine

omit [Paging] [DecidableEq Node] [DecidableEq Addr] in
/-- **Nothing the hardware does wakes anybody.** -/
structure AtRest (m : Machine Node Addr) : Prop where
  idle : m.kernel.procs.running = m.kernel.procs.idleNode
  ready : m.kernel.procs.ready = []
  delayed : m.kernel.procs.delayed = []
  out : ∀ tty : ℤ, 0 ≤ tty → tty < numTerminals → (m.io.out tty).blocked = []
  input : ∀ tty : ℤ, 0 ≤ tty → tty < numTerminals →
    (m.io.input tty).blocked = [] ∨ (m.io.input tty).buffer.room ≤ 0

instance decidableAtRest (m : Machine Node Addr) : Decidable m.AtRest :=
  decidable_of_iff (m.kernel.procs.running = m.kernel.procs.idleNode ∧
      m.kernel.procs.ready = [] ∧ m.kernel.procs.delayed = [] ∧
      (∀ tty : ℤ, 0 ≤ tty → tty < numTerminals → (m.io.out tty).blocked = []) ∧
      ∀ tty : ℤ, 0 ≤ tty → tty < numTerminals →
        (m.io.input tty).blocked = [] ∨ (m.io.input tty).buffer.room ≤ 0)
    ⟨fun ⟨h₁, h₂, h₃, h₄, h₅⟩ => ⟨h₁, h₂, h₃, h₄, h₅⟩,
      fun h => ⟨h.idle, h.ready, h.delayed, h.out, h.input⟩⟩

omit [Paging] [Devices] [DecidableEq Node] [DecidableEq Addr] in
/-- The transmit traps of every terminal answer transmissions. -/
def AcknowledgesAll (m : Machine Node Addr) (e : Event Node Addr) : Prop :=
  ∀ tty, Acknowledges tty m e

variable {m t u : Machine Node Addr} {e : Event Node Addr} {es : List (Event Node Addr)} {p : Node}

/-! ## Rest is for good -/

omit [Paging] [DecidableEq Addr] in
theorem AtRest.trapClock (h : m.AtRest) : m.trapClock = m := by
  have hcheck : checkDelay m.kernel = m.kernel := by
    unfold checkDelay
    rw [h.delayed]
    rfl
  unfold Machine.trapClock
  dsimp only
  rw [hcheck]
  have hpreempt : rrPreempt m.kernel.procs = m.kernel.procs := if_pos h.ready
  rw [hpreempt]

omit [Paging] [Devices] [DecidableEq Node] [DecidableEq Addr] in
/-- A line that comes in finds nobody, or no room. -/
theorem receive_resting {inp : Ttyio Node} {read : ℤ} (procs : ProcTable Node)
    (landing : ℤ → Byte) (hread : 0 ≤ read) (h : inp.blocked = [] ∨ inp.buffer.room ≤ 0) :
    (receive procs inp landing read).1 = procs ∧
      ((receive procs inp landing read).2.blocked = [] ∨
        (receive procs inp landing read).2.buffer.room ≤ 0) := by
  have hroom : (writeBuffer inp.buffer landing read).1.room =
      inp.buffer.room - min inp.buffer.room read := Buffer.writeBuffer_room
  unfold receive
  dsimp only
  rw [Buffer.writeBuffer_written]
  split
  · rename_i hpos
    have hnobody : inp.blocked = [] := h.resolve_right (by omega)
    refine ⟨?_, Or.inl rfl⟩
    rw [hnobody]
    rfl
  · refine ⟨rfl, h.imp_right fun hfull => ?_⟩
    dsimp only
    omega

theorem atRest_step (h : m.AtRest) (hstep : m.step e = some t) : t.AtRest := by
  rcases step_trap hstep with ⟨s, rfl⟩ | rfl | htrap
  · obtain ⟨-, -, hrun, -⟩ := step_call hstep
    exact absurd h.idle hrun
  · obtain ⟨-, -, hrun, -⟩ := step_resume hstep
    exact absurd h.idle hrun
  · cases htrap with
    | clock =>
      rw [h.trapClock]
      exact h
    | receive tty landing read huser hlo hhi hread =>
      obtain ⟨hprocs, hinput⟩ := receive_resting m.kernel.procs landing hread.1 (h.input tty hlo hhi)
      have hsame : (m.trapTtyReceive tty landing read).kernel.procs = m.kernel.procs := hprocs
      refine ⟨?_, ?_, ?_, h.out, fun tty' hlo' hhi' => ?_⟩
      · rw [hsame]
        exact h.idle
      · rw [hsame]
        exact h.ready
      · rw [hsame]
        exact h.delayed
      · have hset : (m.trapTtyReceive tty landing read).io.input = Function.update m.io.input tty
            (receive m.kernel.procs (m.io.input tty) landing read).2 := rfl
        rw [hset]
        rcases eq_or_ne tty' tty with rfl | hne
        · rw [Function.update_self]
          exact hinput
        · rw [Function.update_of_ne hne]
          exact h.input tty' hlo' hhi'
    | transmit tty huser hlo hhi =>
      have hnobody := h.out tty hlo hhi
      have halert : writeAlert m.kernel.procs (m.io.out tty) =
          (m.kernel.procs, ⟨resetBuffer (m.io.out tty).buffer, [], 0⟩) := by
        unfold writeAlert
        rw [hnobody]
        rfl
      have hsame : (m.trapTtyTransmit tty).kernel.procs = m.kernel.procs :=
        congrArg Prod.fst halert
      refine ⟨?_, ?_, ?_, fun tty' hlo' hhi' => ?_, h.input⟩
      · rw [hsame]
        exact h.idle
      · rw [hsame]
        exact h.ready
      · rw [hsame]
        exact h.delayed
      · have hset : (m.trapTtyTransmit tty).io.out = Function.update m.io.out tty
            (writeAlert m.kernel.procs (m.io.out tty)).2 := rfl
        rw [hset]
        rcases eq_or_ne tty' tty with rfl | hne
        · rw [Function.update_self, halert]
        · rw [Function.update_of_ne hne]
          exact h.out tty' hlo' hhi'

/-! ## Everything else moves on -/

/-- **Somebody gets to run**, by what the hardware does. -/
def MovesOn (m : Machine Node Addr) : Prop :=
  ∃ es u, (∀ e ∈ es, e.InRange) ∧ Run.Along step AcknowledgesAll m es ∧
    Run.exec step m es = some u ∧ u.kernel.procs.running ≠ u.kernel.procs.idleNode

theorem movesOn_of_running (hrun : m.kernel.procs.running ≠ m.kernel.procs.idleNode) :
    m.MovesOn := by
  refine ⟨[], m, ?_, trivial, rfl, hrun⟩
  intro e he
  exact absurd he List.not_mem_nil

theorem MovesOn.of_step (h : t.MovesOn) (hin : e.InRange) (hack : m.AcknowledgesAll e)
    (hstep : m.step e = some t) : m.MovesOn := by
  obtain ⟨es, u, hes, hok, hrun, hgo⟩ := h
  refine ⟨e :: es, u, fun e' he' => ?_, (Run.along_cons hstep).mpr ⟨hack, hok⟩,
    Run.exec_cons.mpr ⟨t, hstep, hrun⟩, hgo⟩
  rcases List.mem_cons.mp he' with rfl | he'
  · exact hin
  · exact hes e' he'

omit [Paging] [DecidableEq Addr] in
/-- Idle is interrupted. -/
theorem Kept.interrupts (h : m.Kept) (hidle : m.kernel.procs.running = m.kernel.procs.idleNode) :
    m.inUser = true := inUser_iff.mpr (hidle ▸ h.idle)

theorem Kept.movesOn_of_clock (h : m.Kept)
    (hidle : m.kernel.procs.running = m.kernel.procs.idleNode)
    (hafter : m.trapClock.Kept → m.trapClock.MovesOn) : m.MovesOn := by
  have hstep : m.step .clock = some m.trapClock := if_pos (h.interrupts hidle)
  have hkept : m.trapClock.Kept := kept_step h (by trivial) hstep
  refine (hafter hkept).of_step (by trivial) ?_ hstep
  intro tty heq
  cases heq

/-- **The clock serves whoever is ready.** -/
theorem Kept.movesOn_of_ready (h : m.Kept) (hready : m.kernel.procs.ready ≠ []) : m.MovesOn := by
  by_cases hidle : m.kernel.procs.running = m.kernel.procs.idleNode
  · refine h.movesOn_of_clock hidle fun _ => movesOn_of_running ?_
    have hstep : m.step .clock = some m.trapClock := if_pos (h.interrupts hidle)
    obtain ⟨n, rest, hqueue⟩ := List.exists_cons_of_ne_nil hready
    obtain ⟨hnext, -⟩ := (turn_trapClock_passes hready).cons hqueue
    rw [step_idleNode h.lawful.sound (by trivial) hstep]
    intro heq
    have hhead : n = m.kernel.procs.idleNode := hnext.symm.trans heq
    refine not_mem_ready h.lawful.sound.idle_not_mem ?_
    rw [hqueue, hhead]
    exact List.mem_cons_self
  · exact movesOn_of_running hidle

/-- **Whoever is awake** gets to run. -/
theorem Kept.movesOn_of_awake (h : m.Kept) (hp : m.kernel.procs.Awake p)
    (hne : p ≠ m.kernel.procs.idleNode) : m.MovesOn := by
  rcases hp with hready | rfl
  · exact h.movesOn_of_ready (List.ne_nil_of_mem hready)
  · exact movesOn_of_running hne

/-! ## The delayed -/

/-- **The clock gets to whoever was delayed first.** -/
theorem Kept.movesOn_of_sleepers {rest : List (Node × ℤ)} {n : ℤ} (h : m.Kept) (hn : 0 < n)
    (hsleepers : m.kernel.sleepers = (p, n) :: rest) : m.MovesOn := by
  -- on the ticks it has left
  induction hk : n.toNat generalizing m n rest with
  | zero => omega
  | succ k ih =>
    by_cases hidle : m.kernel.procs.running = m.kernel.procs.idleNode
    · refine h.movesOn_of_clock hidle fun hkept => ?_
      obtain ⟨htick, hwakes⟩ := sleepers_trapClock h.lawful.sound
      rw [hsleepers] at htick hwakes
      by_cases hone : n = 1
      · have hstep : m.step .clock = some m.trapClock := if_pos (h.interrupts hidle)
        refine hkept.movesOn_of_awake (hwakes p (Countdown.tick_cons_of_eq hone).2) ?_
        rw [step_idleNode h.lawful.sound (by trivial) hstep]
        rintro rfl
        refine h.lawful.sound.idle_not_mem (List.mem_append_right _ (List.mem_append_right _ ?_))
        exact mem_delayed_of_sleepers (hsleepers.trans (List.nil_append _).symm)
      · rw [(Countdown.tick_cons_of_ne hone).1] at htick
        exact ih hkept (by omega) htick (by omega)
    · exact movesOn_of_running hidle

/-- **Whoever is delayed has ticks left.** -/
def Ticking (m : Machine Node Addr) : Prop := ∀ y ∈ m.kernel.sleepers, 0 < y.2

theorem ticking_step (h : m.Ticking) (hs : m.Sound) (hstep : m.step e = some t) : t.Ticking := by
  cases hclock : e.isClock with
  | true =>
    cases e with
    | clock =>
      obtain ⟨-, heq⟩ := Option.ite_none_right_eq_some.mp hstep
      unfold Ticking
      rw [← Option.some.inj heq, (sleepers_trapClock hs).1]
      exact Countdown.tick_pos h
    | _ => cases hclock
  | false =>
    obtain ⟨new, hnew, hpos⟩ := sleepers_step hs hclock hstep
    intro y hy
    rw [hnew] at hy
    rcases List.mem_append.mp hy with hy | hy
    · exact h y hy
    · exact (hpos y hy).1

theorem Kept.movesOn_of_delayed (h : m.Kept) (hticking : m.Ticking)
    (hdelayed : m.kernel.procs.delayed ≠ []) : m.MovesOn := by
  have hne : m.kernel.sleepers ≠ [] := fun hnil => hdelayed (List.map_eq_nil_iff.mp hnil)
  obtain ⟨⟨p, n⟩, rest, hsleepers⟩ := List.exists_cons_of_ne_nil hne
  refine h.movesOn_of_sleepers (hticking (p, n) ?_) hsleepers
  rw [hsleepers]
  exact List.mem_cons_self

/-! ## The terminals -/

/-- **A line that comes in** wakes whoever reads, where there is room. -/
theorem Kept.movesOn_of_input (h : m.Kept) {tty : ℤ} (hlo : 0 ≤ tty) (hhi : tty < numTerminals)
    (hblocked : (m.io.input tty).blocked ≠ []) (hroom : 0 < (m.io.input tty).buffer.room) :
    m.MovesOn := by
  by_cases hidle : m.kernel.procs.running = m.kernel.procs.idleNode
  · have hline := terminalMaxLine_pos
    have hstep : m.step (.ttyReceive tty (fun _ => 0) 1) =
        some (m.trapTtyReceive tty (fun _ => 0) 1) :=
      if_pos ⟨h.interrupts hidle, hlo, hhi, by omega, by omega⟩
    refine (Kept.movesOn_of_ready (kept_step h (by trivial) hstep) ?_).of_step (by trivial) ?_ hstep
    · have hwakes : 0 < (writeBuffer (m.io.input tty).buffer (fun _ => 0) 1).2 := by
        rw [Buffer.writeBuffer_written]
        omega
      have hreceive : (m.trapTtyReceive tty (fun _ => 0) 1).kernel.procs =
          unblockAll m.kernel.procs (m.io.input tty).blocked := by
        show (receive m.kernel.procs (m.io.input tty) (fun _ => 0) 1).1 = _
        unfold receive
        dsimp only
        rw [if_pos hwakes]
      rw [hreceive, unblockAll_ready]
      exact List.append_ne_nil_of_right_ne_nil _ hblocked
    · intro tty' heq
      cases heq
  · exact movesOn_of_running hidle

/-- **A transmission that is answered** wakes whoever comes first. -/
theorem Kept.movesOn_of_transmitting (h : m.Kept) {tty : ℤ} (hlo : 0 ≤ tty)
    (hhi : tty < numTerminals) (hblocked : (m.io.out tty).blocked ≠ [])
    (hbusy : (m.io.out tty).transmitting = 1) : m.MovesOn := by
  by_cases hidle : m.kernel.procs.running = m.kernel.procs.idleNode
  · have hstep : m.step (.ttyTransmit tty) = some (m.trapTtyTransmit tty) :=
      if_pos ⟨h.interrupts hidle, hlo, hhi⟩
    refine (Kept.movesOn_of_ready (kept_step h (by trivial) hstep) ?_).of_step (by trivial) ?_ hstep
    · show (unblockHead m.kernel.procs (m.io.out tty).blocked).1.ready ≠ []
      obtain ⟨p, rest, hqueue⟩ := List.exists_cons_of_ne_nil hblocked
      rw [hqueue]
      exact List.append_ne_nil_of_right_ne_nil _ (List.cons_ne_nil p [])
    · intro tty' heq
      obtain rfl := Event.ttyTransmit.inj heq
      omega
  · exact movesOn_of_running hidle

/-- **Writers asleep are answered**, where transmit traps answer
transmissions. -/
theorem Bedded.movesOn_of_out (h : m.Bedded) {tty : ℤ} (hlo : 0 ≤ tty) (hhi : tty < numTerminals)
    {s : OutState Node} (hr : m.AsOut tty s) (hq : s.QueueInv)
    (hblocked : (m.io.out tty).blocked ≠ []) : m.MovesOn := by
  rcases hr.underway hq hblocked with hbusy | ⟨p, f, hframe, hnot⟩
  · exact h.kept.movesOn_of_transmitting hlo hhi hblocked hbusy
  · -- a writer that was woken is not on the queue, and so on its way
    obtain ⟨hwaits, hsync⟩ := (h.apart p).resolve_left (by simp [hframe])
    have hbed : m.bed p = some (.out tty) := by
      unfold bed
      rw [hwaits, hsync, hframe]
      rfl
    rcases h.housed.found p _ hbed with hawake | hin | ⟨-, id, lock, since, hlost, -⟩
    · refine h.kept.movesOn_of_awake hawake ?_
      rintro rfl
      rw [h.kept.idle.2.2] at hframe
      cases hframe
    · exact absurd hin hnot
    · rw [hsync] at hlost
      cases hlost

/-! ## What is waited for -/

omit [Paging] [DecidableEq Addr] in
/-- **Waits for another process**: for a child to exit, for one to use its
pipe, to release its lock, to signal its condition variable, or to read the
line that is in the way of its own; or for nobody any more. -/
inductive WaitsForOthers (m : Machine Node Addr) (p : Node) : Prop
  | child (c : Proc Node Addr) (kin : Kin Node Addr) (hp : p ∈ m.kernel.procs.waiting)
      (hc : m.kernel.proc p = some c) (hkin : c.kin = some kin) (hnone : kin.dChildren = [])
  | reads (id : ℤ) (hp : p ∈ (m.io.pipeAt id).readblocked)
  | writes (id : ℤ) (hp : p ∈ (m.io.pipeAt id).writeblocked)
  | lock (id : ℤ) (owner : Node) (hp : p ∈ (m.sync.lockAt id).blocked)
      (howner : (m.sync.lockAt id).owner = some owner)
  | cvar (id : ℤ) (hp : p ∈ m.sync.waiters id)
  | line (tty : ℤ) (hp : p ∈ (m.io.input tty).blocked) (hroom : (m.io.input tty).buffer.room ≤ 0)
  | stranded (hp : m.Stranded p)

omit [Paging] [DecidableEq Node] [DecidableEq Addr] in
theorem AtRest.not_awake (h : m.AtRest) (hp : p ≠ m.kernel.procs.idleNode) :
    ¬ m.kernel.procs.Awake p := by
  rintro (hready | hrun)
  · rw [h.ready] at hready
    cases hready
  · exact hp (hrun.trans h.idle)

omit [Paging] [DecidableEq Addr] in
/-- **A lock somebody waits for is held**: the kernel hands it on, and
whoever it was handed to is on its way. -/
theorem AtRest.lock_held (h : m.AtRest) (hb : m.Bedded) {id : ℤ}
    (hp : p ∈ (m.sync.lockAt id).blocked) : ∃ owner, (m.sync.lockAt id).owner = some owner := by
  refine Option.ne_none_iff_exists'.mp fun hfree => ?_
  obtain ⟨q, hq⟩ := List.exists_mem_of_ne_nil _
    (hb.kept.lawful.law.served id hfree (List.ne_nil_of_mem hp))
  have hawake := hb.kept.lawful.awake id q hq
  have hne : q ≠ m.kernel.procs.idleNode := by
    rintro rfl
    exact hb.kept.lawful.not_woken hb.kept.idle.2.1 id hq
  exact h.not_awake hne hawake

omit [Paging] [DecidableEq Addr] in
theorem AtRest.waits (h : m.AtRest) (hb : m.Bedded) {c : Proc Node Addr}
    (hc : m.kernel.proc p = some c) (hlives : c.kin.isSome)
    (hp : p ≠ m.kernel.procs.idleNode) : m.WaitsForOthers p := by
  rcases hb.housed.lives p c hc hlives hp with hawake | ⟨q, hq, hin⟩ | hstranded
  · exact absurd hawake (h.not_awake hp)
  · cases q with
    | waiting =>
      obtain ⟨-, c', kin, hc', hkin, hnone⟩ := hb.kept.lawful.sound.kindred.asleep p hin
      exact .child c' kin hin hc' hkin hnone
    | delayed =>
      have hin : p ∈ m.kernel.procs.delayed := hin
      rw [h.delayed] at hin
      cases hin
    | readers id => exact .reads id hin
    | writers id => exact .writes id hin
    | lock id =>
      obtain ⟨owner, howner⟩ := h.lock_held hb hin
      exact .lock id owner hin howner
    | cvar id => exact .cvar id hin
    | input tty =>
      refine .line tty hin ((h.input tty hq.1 hq.2).resolve_left ?_)
      exact List.ne_nil_of_mem hin
    | out tty =>
      have hin : p ∈ (m.io.out tty).blocked := hin
      rw [h.out tty hq.1 hq.2] at hin
      cases hin
  · exact .stranded hstranded

section Runs

variable {b : Boot Node Addr} {m₀ : Machine Node Addr} {before : List (Event Node Addr)}

theorem ticking_of_run (hb : start b = some m₀) (hpast : ∀ e ∈ before, e.InRange)
    (hbefore : Run.exec step m₀ before = some m) : m.Ticking := by
  have hall : Run.Throughout step (fun s => s.Sound ∧ s.Ticking) m₀ before := by
    refine Run.throughout_of_step (fun s e he t hs ht => ?_) ⟨(start_sound hb).1, ?_⟩
    · exact ⟨(step_owes hs.1 (hpast e he) ht).1, ticking_step hs.2 hs.1 ht⟩
    · obtain ⟨k, hk, rfl⟩ := Option.map_eq_some_iff.mp hb
      intro y hy
      unfold Kernel.sleepers at hy
      dsimp only at hy
      rw [kernelStart_procs hk] at hy
      cases hy
  exact (hall.final hbefore).2

/-- **When the machine idles for good.** In any state a run reaches whose
transmit traps answer transmissions, nothing the clock and the terminals do
gets a process to run if and only if the machine is at rest; and then every
process waits for another. -/
theorem rests_iff (hb : start b = some m₀) (hpast : ∀ e ∈ before, e.InRange)
    (hok : Run.Along step AcknowledgesAll m₀ before)
    (hbefore : Run.exec step m₀ before = some m) :
    (m.AtRest ↔ ∀ es u, (∀ e ∈ es, e.InRange) → Run.Along step AcknowledgesAll m es →
      Run.exec step m es = some u → u.kernel.procs.running = u.kernel.procs.idleNode) ∧
    (m.AtRest → ∀ p c, m.kernel.proc p = some c → c.kin.isSome →
      p ≠ m.kernel.procs.idleNode → m.WaitsForOthers p) := by
  have hbedded : m.Bedded := (throughout_bedded hb hpast).final hbefore
  refine ⟨⟨fun h es u _ _ hrun => ?_, fun hidles => ?_⟩,
    fun h p c hc hlives hp => h.waits hbedded hc hlives hp⟩
  · have hrest : u.AtRest := Run.inv_of_exec (D := fun _ => True)
      (fun _ _ _ hs _ ht => atRest_step hs ht) (fun _ _ => trivial) h hrun
    exact hrest.idle
  · have hstuck : ¬ m.MovesOn := fun ⟨es, u, hes, hok', hrun, hgo⟩ => hgo (hidles es u hes hok' hrun)
    refine ⟨?_, ?_, ?_, fun tty hlo hhi => ?_, fun tty hlo hhi => ?_⟩
    · by_contra hrun
      exact hstuck (movesOn_of_running hrun)
    · by_contra hready
      exact hstuck (hbedded.kept.movesOn_of_ready hready)
    · by_contra hdelayed
      exact hstuck (hbedded.kept.movesOn_of_delayed (ticking_of_run hb hpast hbefore) hdelayed)
    · by_contra hblocked
      obtain ⟨s, -, hr, hq⟩ := asOut_of_run hb hpast hlo hhi
        (hok.mono fun _ _ h => h tty) hbefore m₀.kernel.procs
      exact hstuck (hbedded.movesOn_of_out hlo hhi hr hq hblocked)
    · by_contra hno
      rw [not_or, not_le] at hno
      exact hstuck (hbedded.kept.movesOn_of_input hlo hhi hno.1 hno.2)

end Runs

/-- Init and its child each hold a lock and acquire the other's. -/
def crossed : List (Event ℕ ℕ) :=
  [.call (.lockInit 0x1ff000), .call (.lockInit 0x1ff000), .call (.proc (.fork 2 2 2)),
    .call (.sync (.acquire 0)), .clock, .call (.sync (.acquire 1)), .call (.sync (.acquire 0)),
    .call (.sync (.acquire 1))]

omit [Paging] [Devices] in
/-- The machine they leave is at rest: each waits for the other. -/
theorem rests_iff_crossed :
    let _ := yalnixPaging
    let _ := yalnixDevices
    ∃ m₀ m : Machine ℕ ℕ, start (smallBoot 140) = some m₀ ∧ Run.exec step m₀ crossed = some m ∧
      m.AtRest ∧ (m.sync.lockAt 0).blocked = [2] ∧ (m.sync.lockAt 1).blocked = [0] ∧
      (∀ es u, (∀ e ∈ es, e.InRange) → Run.Along step AcknowledgesAll m es →
        Run.exec step m es = some u → u.kernel.procs.running = u.kernel.procs.idleNode) ∧
      m.WaitsForOthers 0 ∧ m.WaitsForOthers 2 := by
  let _ := yalnixPaging
  let _ := yalnixDevices
  have hruns : ((start (smallBoot 140)).bind fun m₀ : Machine ℕ ℕ =>
      (Run.exec step m₀ crossed).bind fun m => (m.kernel.proc 0).bind fun c₀ =>
        (m.kernel.proc 2).map fun c₂ =>
          (decide m.AtRest, (m.sync.lockAt 0).blocked, (m.sync.lockAt 1).blocked,
            [c₀.kin.isSome, c₂.kin.isSome, decide (m.kernel.procs.idleNode = 1)])) =
      some (true, [2], [0], [true, true, true]) := by
    decide +kernel
  obtain ⟨m₀, hm₀, hruns⟩ := Option.bind_eq_some_iff.mp hruns
  obtain ⟨m, hrun, hruns⟩ := Option.bind_eq_some_iff.mp hruns
  obtain ⟨c₀, hc₀, hruns⟩ := Option.bind_eq_some_iff.mp hruns
  obtain ⟨c₂, hc₂, heq⟩ := Option.map_eq_some_iff.mp hruns
  simp only [Prod.mk.injEq, List.cons.injEq, and_true, decide_eq_true_eq] at heq
  obtain ⟨hrest, hfirst, hsecond, hlives₀, hlives₂, hidle⟩ := heq
  obtain ⟨hiff, hwaits⟩ := rests_iff hm₀ (by simp [crossed, Event.InRange])
    (Run.along_of_forall (by simp [crossed, AcknowledgesAll, Acknowledges])) hrun
  refine ⟨m₀, m, hm₀, hrun, hrest, hfirst, hsecond, hiff.mp hrest, ?_, ?_⟩
  · exact hwaits hrest 0 c₀ hc₀ hlives₀ (by rw [hidle]; decide)
  · exact hwaits hrest 2 c₂ hc₂ hlives₂ (by rw [hidle]; decide)

end Machine

end Yalnix
