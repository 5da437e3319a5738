import Yalnix.Machine.Lawful
import Yalnix.Machine.Projection
import Yalnix.Pilocvario.Tty.Handoff
import Yalnix.Pilocvario.Tty.Input
/-!
# Every terminal of a run is a run of the terminal machines

As with pipes, what a run of the whole kernel does at one terminal is a run
of the two machines of `Pilocvario/Tty`: its writers with the transmit
traps, and its readers with the lines that come in. The hardware traps for
the transmissions it was given and no others, which for the machine with
the whole kernel is a condition on the run.
-/

namespace Yalnix

variable {Node Addr : Type}

/-- The write call in progress on a terminal, as the machine of its output
has it. -/
def IoFrame.outCall (tty : ℤ) : IoFrame → Option TtyFrame
  | .ttyWrite tty' f => if tty' = tty then some f else none
  | _ => none

/-- The read call, as the machine of its input has it. -/
def IoFrame.inCall (tty : ℤ) : IoFrame → Option ℤ
  | .ttyRead tty' _ len => if tty' = tty then some len else none
  | _ => none

/-- Reads ask for something. -/
def Event.TtyLens : Event Node Addr → Prop
  | .call (.ttyRead _ _ len) => 0 < len
  | _ => True

theorem IoFrame.outCall_eq_none {f : IoFrame} {tty : ℤ} (hoff : f.port ≠ .out tty) :
    f.outCall tty = none := by
  cases f with
  | ttyWrite tty' f => exact if_neg fun heq => hoff (congrArg Port.out heq)
  | ttyRead | pipeRead | pipeWrite => rfl

theorem IoFrame.inCall_eq_none {f : IoFrame} {tty : ℤ} (hoff : f.port ≠ .input tty) :
    f.inCall tty = none := by
  cases f with
  | ttyRead tty' buf len => exact if_neg fun heq => hoff (congrArg Port.input heq)
  | ttyWrite | pipeRead | pipeWrite => rfl

section Activations

variable {procs : ProcTable Node} {p : Node}

/-- A reader that finds nothing sleeps. -/
theorem readTty_blocked {inp : Ttyio Node} {len : ℤ} (h : min inp.buffer.filled len = 0) :
    readTty procs inp len = (runNextReady procs,
      { inp with
        buffer := (readBuffer inp.buffer len).1
        blocked := inp.blocked ++ [procs.running] },
      (readBuffer inp.buffer len).2.1, .blocked len) := by
  simp only [readTty, Buffer.readBuffer_read, if_pos h, block_fst, block_snd]

/-- Any other returns with it. -/
theorem readTty_returned {inp : Ttyio Node} {len : ℤ} (h : min inp.buffer.filled len ≠ 0) :
    readTty procs inp len = (procs, { inp with buffer := (readBuffer inp.buffer len).1 },
      (readBuffer inp.buffer len).2.1, .returned (min inp.buffer.filled len)) := by
  simp only [readTty, Buffer.readBuffer_read, if_neg h]

variable [DecidableEq Node]

/-- Whatever the scheduler has ready, a write does the same to the
terminal. -/
theorem OutState.run_eq {s : OutState Node} (hrun : procs.running = p) (f : TtyFrame) :
    (s.run p f).out = (writeTty procs s.out f).2.1 ∧
      (s.run p f).call =
        Function.update s.call p (writeTty procs s.out f).2.2.2.left := by
  by_cases h : f.total < f.len
  · by_cases ht : s.out.transmitting = 0
    · rw [run_transmits h ht, writeTty_transmits h ht, hrun]
      exact ⟨rfl, rfl⟩
    · rw [run_queues h ht, writeTty_queues h ht, hrun]
      exact ⟨rfl, rfl⟩
  · rw [run_returns (not_lt.mp h), writeTty_returns (not_lt.mp h)]
    refine ⟨?_, rfl⟩
    cases s.out.blocked <;> rfl

/-- Likewise a read. -/
theorem InState.run_eq {s : InState Node} (hrun : procs.running = p) (len : ℤ) :
    (s.run p len).inp = (readTty procs s.inp len).2.1 ∧
      (s.run p len).call =
        Function.update s.call p (readTty procs s.inp len).2.2.2.left ∧
      (s.run p len).accepted = s.accepted ∧
      (s.run p len).delivered = s.delivered ++ (readBuffer s.inp.buffer len).2.1 := by
  by_cases hzero : min s.inp.buffer.filled len = 0
  · have hnil : (readBuffer s.inp.buffer len).2.1 = [] := by
      apply List.eq_nil_of_length_eq_zero
      rw [Buffer.length_readBuffer, hzero]
      rfl
    rw [run_blocked hzero, readTty_blocked hzero, hnil, List.append_nil, hrun]
    exact ⟨rfl, rfl, rfl, rfl⟩
  · rw [run_returned hzero, readTty_returned hzero]
    exact ⟨rfl, rfl, rfl, rfl⟩

omit [DecidableEq Node] in
/-- And so do the traps. -/
theorem OutState.alert_eq (s : OutState Node) (procs : ProcTable Node) :
    s.alert.out = (writeAlert procs s.out).2 := by
  unfold OutState.alert writeAlert
  dsimp only
  cases s.out.blocked <;> rfl

omit [DecidableEq Node] in
theorem InState.trap_eq (s : InState Node) (procs : ProcTable Node) (landing : ℤ → Byte)
    (read : ℤ) : (s.trap landing read).inp = (receive procs s.inp landing read).2 := by
  unfold InState.trap receive
  dsimp only
  split <;> rfl

end Activations

namespace Machine

variable [Paging] [Devices] [DecidableEq Node]

open Devices

variable {m t u : Machine Node Addr} {tty : ℤ} {c : Proc Node Addr} {e : Event Node Addr}
  {f : IoFrame} {r : Machine Node Addr × Outcome IoFrame}

omit [Paging] in
/-- Who is running is asleep on no terminal. -/
theorem Sound.running_not_blocked (hs : m.Sound) (hlo : 0 ≤ tty) (hhi : tty < numTerminals) :
    m.kernel.procs.running ∉ (m.io.input tty).blocked ∧
      m.kernel.procs.running ∉ (m.io.out tty).blocked := by
  have hheld := hs.running_not_held
  unfold Machine.held Io.held at hheld
  have hzero : ∀ g : ℤ → ℕ, ttyTotal g = 0 → g tty = 0 := by
    intro g hg
    refine List.sum_eq_zero_iff_forall_eq_nat.mp hg (g tty) (List.mem_map.mpr ⟨tty.toNat, ?_, ?_⟩)
    · rw [List.mem_range]
      omega
    · rw [Int.toNat_of_nonneg hlo]
  rw [← List.count_eq_zero, ← List.count_eq_zero]
  exact ⟨hzero (fun tty => (m.io.input tty).blocked.count _) (by omega),
    hzero (fun tty => (m.io.out tty).blocked.count _) (by omega)⟩

/-! ## Output -/

omit [DecidableEq Node] in
/-- **What an event is to the output of a terminal.** -/
def outEvents (tty : ℤ) (m : Machine Node Addr) (e : Event Node Addr) : List (OutEvent Node) :=
  match e with
  | .ttyTransmit tty' => if tty' = tty then [.trap] else []
  | e =>
    match m.entered e with
    | some (.ttyWrite tty' f) =>
      if tty' = tty then
        [if e.isResume then .resume m.kernel.procs.running
          else .write m.kernel.procs.running f.mem f.len]
      else []
    | _ => []

omit [DecidableEq Node] in
/-- A call on something else is none. -/
theorem outEvents_off (hentered : m.entered e = some f) (hoff : f.port ≠ .out tty) :
    m.outEvents tty e = [] := by
  unfold outEvents
  split
  · rw [entered_trap (by simp) (by simp)] at hentered
    cases hentered
  · rw [hentered]
    cases f with
    | ttyWrite tty' g => exact if_neg fun heq => hoff (congrArg Port.out heq)
    | ttyRead | pipeRead | pipeWrite => rfl

omit [DecidableEq Node] in
theorem outEvents_none (hentered : m.entered e = none) (htransmit : ∀ tty, e ≠ .ttyTransmit tty) :
    m.outEvents tty e = [] := by
  unfold outEvents
  split
  · exact absurd rfl (htransmit _)
  · rw [hentered]

omit [Paging] [Devices] [DecidableEq Node] in
/-- **A transmit trap answers a transmission**: the hardware has one of this
terminal's to answer. -/
def Acknowledges (tty : ℤ) (m : Machine Node Addr) (e : Event Node Addr) : Prop :=
  e = .ttyTransmit tty → (m.io.out tty).transmitting ≠ 0

omit [Paging] [Devices] [DecidableEq Node] in
/-- **The machine has the output as `s` has it.** -/
structure AsOut (m : Machine Node Addr) (tty : ℤ) (s : OutState Node) : Prop where
  out : m.io.out tty = s.out
  call : ∀ p, s.call p = (m.io.frame p).bind (IoFrame.outCall tty)

omit [Paging] [Devices] [DecidableEq Node] in
/-- Nothing happens to the output where neither it nor a call does. -/
theorem AsOut.spared {s : OutState Node} (hr : m.AsOut tty s)
    (hout : t.io.out tty = m.io.out tty) (hframe : t.io.frame = m.io.frame) : t.AsOut tty s := by
  refine ⟨hout.trans hr.out, ?_⟩
  rw [hframe]
  exact hr.call

omit [Paging] [Devices] in
/-- **`write_tty` runs**, and the other machine takes a step. -/
theorem AsOut.writes {s : OutState Node} {g : TtyFrame} {e' : OutEvent Node}
    (hr : m.AsOut tty s) (hasleep : m.kernel.procs.running ∉ (m.io.out tty).blocked)
    (hactive : s.active e' = some (m.kernel.procs.running, g)) :
    ∃ s', s.step e' = some s' ∧
      (leaveIo m.kernel.procs.running (m.runTtyWrite tty g)).AsOut tty s' := by
  obtain ⟨hout, hcall⟩ := OutState.run_eq (s := s) (rfl : m.kernel.procs.running = _) g
  rw [hr.out] at hasleep
  refine ⟨s.run m.kernel.procs.running g, ?_, ?_, calls_leaveIo hr.call rfl ?_⟩
  · unfold OutState.step
    rw [hactive]
    cases e' <;> exact if_neg hasleep
  · rw [leaveIo_out, hout, ← hr.out]
    exact Function.update_self tty _ m.io.out
  · rw [hcall, ← hr.out]
    congr 1
    show _ = (((writeTty m.kernel.procs (m.io.out tty) g).2.2.2.map
      fun f => IoFrame.ttyWrite tty f).left).bind (IoFrame.outCall tty)
    rw [Outcome.left_map]
    cases (writeTty m.kernel.procs (m.io.out tty) g).2.2.2.left with
    | none => rfl
    | some f' => exact (if_pos rfl).symm

/-- **One activation of the four functions**, seen from this output. -/
theorem AsOut.ran {s : OutState Node} (hr : m.AsOut tty s) (hs : m.Sound) (hlo : 0 ≤ tty)
    (hhi : tty < numTerminals) (hentered : m.entered e = some f)
    (huser : e = .resume ∨ m.io.frame m.kernel.procs.running = none)
    (hact : m.Activates c e f r) :
    ∃ s', Run.exec OutState.step s (m.outEvents tty e) = some s' ∧
      (leaveIo m.kernel.procs.running r).AsOut tty s' := by
  obtain ⟨-, hasleep⟩ := hs.running_not_blocked hlo hhi
  by_cases hoff : f.port = .out tty
  · cases hact with
    | ttyRead | pipeRead | pipeWrite | ttyReadBack | pipeReadBack | pipeWriteBack => cases hoff
    | ttyWrite tty' buf len =>
      obtain rfl : tty' = tty := Port.out.inj hoff
      unfold outEvents
      dsimp only
      rw [hentered]
      dsimp only
      rw [if_pos rfl, Run.exec_singleton]
      refine hr.writes hasleep (if_pos ?_)
      rw [hr.call, huser.resolve_left (by simp)]
      rfl
    | ttyWriteBack tty' g hf =>
      obtain rfl : tty' = tty := Port.out.inj hoff
      unfold outEvents
      dsimp only
      rw [hentered]
      dsimp only
      rw [if_pos rfl, Run.exec_singleton]
      refine hr.writes hasleep ?_
      have hcall : s.call m.kernel.procs.running = some g := by
        rw [hr.call, hf]
        exact if_pos rfl
      show (s.call m.kernel.procs.running).map _ = _
      rw [hcall]
      rfl
  · rw [outEvents_off hentered hoff]
    obtain ⟨hframe, -⟩ := hact.kept
    refine ⟨s, rfl, ?_, calls_leaveIo hr.call hframe (calls_unseen hr.call (fun g hg => ?_)
      fun g hg => ?_)⟩
    · rw [leaveIo_out, hact.out hoff]
      exact hr.out
    · rw [hact.frame_before huser hg]
      exact IoFrame.outCall_eq_none hoff
    · exact IoFrame.outCall_eq_none (hact.port_left hg ▸ hoff)

variable [DecidableEq Addr] {b : Boot Node Addr} {es : List (Event Node Addr)}

/-- **One event**, where the hardware answers what it was given. -/
theorem AsOut.step {s : OutState Node} (hr : m.AsOut tty s) (hs : m.Sound) (hq : s.LineCounted)
    (hlo : 0 ≤ tty) (hhi : tty < numTerminals) (hok : Acknowledges tty m e) (h : m.step e = some t) :
    ∃ s', Run.exec OutState.step s (m.outEvents tty e) = some s' ∧ t.AsOut tty s' := by
  cases step_atIo h with
  | spared e t hentered hreceive htransmit hpipe hinput hout hframe =>
    rw [outEvents_none hentered htransmit]
    exact ⟨s, rfl, hr.spared (congrFun hout tty) hframe⟩
  | received tty' landing read =>
    rw [outEvents_none (entered_trap (by simp) (by simp)) (by simp)]
    exact ⟨s, rfl, hr.spared rfl rfl⟩
  | sent tty' =>
    by_cases heq : tty' = tty
    · subst heq
      have hevents : m.outEvents tty' (.ttyTransmit tty') = [.trap] := if_pos rfl
      rw [hevents, Run.exec_singleton]
      have hpending : s.pending ≠ [] := by
        intro hnil
        have hzero := hq.1
        rw [hnil] at hzero
        exact hok rfl ((congrArg Ttyio.transmitting hr.out).trans hzero)
      refine ⟨{ s.alert with pending := s.pending.tail }, if_neg hpending, ?_, hr.call⟩
      show Function.update m.io.out tty' _ tty' = s.alert.out
      rw [Function.update_self, s.alert_eq m.kernel.procs, hr.out]
      rfl
    · have hevents : m.outEvents tty (.ttyTransmit tty') = [] := if_neg heq
      rw [hevents]
      exact ⟨s, rfl, hr.spared (Function.update_of_ne (Ne.symm heq) _ _) rfl⟩
  | ran c e f r hc hrun hentered huser hact =>
    exact hr.ran hs hlo hhi hentered huser hact

omit [DecidableEq Node] [DecidableEq Addr] in
/-- Every trap it notes is accounted for. -/
theorem outEvents_accounted : ∀ a ∈ m.outEvents tty e, OutState.Accounted a := by
  intro a ha
  unfold outEvents at ha
  split at ha
  · obtain ⟨-, ha⟩ := List.mem_ite_nil_right.mp ha
    obtain rfl := List.mem_singleton.mp ha
    trivial
  · split at ha
    · obtain ⟨-, ha⟩ := List.mem_ite_nil_right.mp ha
      obtain rfl := List.mem_singleton.mp ha
      split <;> trivial
    · cases ha

theorem start_asOut (hb : start b = some m) (tty : ℤ) (procs : ProcTable Node) :
    m.AsOut tty (OutState.init procs) := by
  obtain ⟨k, hk, rfl⟩ := Option.map_eq_some_iff.mp hb
  exact ⟨rfl, fun _ => rfl⟩

/-- **A run, as one terminal's output sees it.** -/
theorem asOut_of_run (hb : start b = some m) (hes : ∀ e ∈ es, e.InRange) (hlo : 0 ≤ tty)
    (hhi : tty < numTerminals) (hok : Run.Along Machine.step (Acknowledges tty) m es)
    (hrun : Run.exec Machine.step m es = some u) (procs : ProcTable Node) :
    ∃ s, Run.exec OutState.step (OutState.init procs)
      (Run.noted Machine.step (outEvents tty) m es) = some s ∧ u.AsOut tty s ∧ s.QueueInv := by
  have hall : Run.Along Machine.step (fun m e => m.Lawful ∧ Acknowledges tty m e) m es :=
    ((throughout_lawful hb hes).along fun _ _ _ hm => hm).and hok
  refine Run.exec_of_noted (R := fun m s => m.AsOut tty s ∧ s.QueueInv)
    (fun m s e t hr hm h => ?_) hall ⟨start_asOut hb tty procs, OutState.queueInv_init procs⟩ hrun
  obtain ⟨s', hs', hr'⟩ := hr.1.step hm.1.sound hr.2.counted hlo hhi hm.2 h
  exact ⟨s', hs', hr', Run.inv_of_exec
    (fun _ _ _ hs hd h => OutState.queueInv_step hs hd h) outEvents_accounted hr.2 hs'⟩

omit [Paging] [Devices] [DecidableEq Node] [DecidableEq Addr] in
/-- **Writers asleep** are behind a transmission, or behind one of them that
was woken. -/
theorem AsOut.underway {s : OutState Node} (hr : u.AsOut tty s) (hq : s.QueueInv)
    (hblocked : (u.io.out tty).blocked ≠ []) : (u.io.out tty).transmitting = 1 ∨
      ∃ p f, u.io.frame p = some (.ttyWrite tty f) ∧ p ∉ (u.io.out tty).blocked := by
  rw [hr.out] at hblocked ⊢
  refine (hq.underway hblocked).imp_right ?_
  rintro ⟨p, hcall, hout⟩
  obtain ⟨g, hg⟩ := Option.isSome_iff_exists.mp hcall
  rw [hr.call] at hg
  obtain ⟨f, hf, hview⟩ := Option.bind_eq_some_iff.mp hg
  cases f with
  | ttyWrite tty' f =>
    obtain ⟨rfl, -⟩ := Option.ite_none_right_eq_some.mp hview
    exact ⟨p, f, hf, hout⟩
  | ttyRead | pipeRead | pipeWrite => cases hview

/-- **Every terminal's output is the output machine**, and nobody waits
behind nothing. In a run whose transmit traps answer transmissions, what is
noted of one terminal is a run of the machine of its output; the flag is the
number of its transmissions outstanding, at most one; and where writers
sleep, one is, or a writer that was woken is on its way. -/
theorem outputs_refine (hb : start b = some m) (hes : ∀ e ∈ es, e.InRange) (hlo : 0 ≤ tty)
    (hhi : tty < numTerminals) (hok : Run.Along Machine.step (Acknowledges tty) m es)
    (hrun : Run.exec Machine.step m es = some u) (procs : ProcTable Node) :
    (∃ s, Run.exec OutState.step (OutState.init procs)
      (Run.noted Machine.step (outEvents tty) m es) = some s ∧ u.AsOut tty s ∧
      (u.io.out tty).transmitting = s.pending.length ∧ s.pending.length ≤ 1) ∧
    ((u.io.out tty).blocked ≠ [] → (u.io.out tty).transmitting = 1 ∨
      ∃ p f, u.io.frame p = some (.ttyWrite tty f) ∧ p ∉ (u.io.out tty).blocked) := by
  obtain ⟨s, hexec, hr, hq⟩ := asOut_of_run hb hes hlo hhi hok hrun procs
  obtain ⟨hcount, hone⟩ := hq.counted
  rw [← hr.out] at hcount
  exact ⟨⟨s, hexec, hr, hcount, hone⟩, hr.underway hq⟩

/-- Init transmits a line, its child queues up behind it, and the terminal
answers. -/
def twoWriters : List (Event ℕ ℕ) :=
  [.call (.proc (.fork 2 2 2)), .call (.ttyWrite 0 0x1ff000 4), .call (.ttyWrite 0 0x1ff000 4),
    .ttyTransmit 0, .clock, .resume]

omit [Paging] [Devices] in
theorem outputs_refine_queued :
    let _ := yalnixPaging
    let _ := yalnixDevices
    ∃ m u : Machine ℕ ℕ, start (smallBoot 140) = some m ∧
      Run.exec Machine.step m twoWriters = some u ∧
      (∃ s, Run.exec OutState.step (OutState.init m.kernel.procs)
        (Run.noted Machine.step (outEvents 0) m twoWriters) = some s ∧ u.AsOut 0 s ∧
        (u.io.out 0).transmitting = s.pending.length ∧ s.pending.length ≤ 1) ∧
      ((u.io.out 0).blocked ≠ [] → (u.io.out 0).transmitting = 1 ∨
        ∃ p f, u.io.frame p = some (.ttyWrite 0 f) ∧ p ∉ (u.io.out 0).blocked) := by
  let _ := yalnixPaging
  let _ := yalnixDevices
  have hruns : ((start (smallBoot 140)).bind fun m : Machine ℕ ℕ =>
      (Run.exec Machine.step m (twoWriters.take 3)).bind fun m' =>
        (Run.exec Machine.step m' (twoWriters.drop 3)).map fun _ =>
          decide ((m'.io.out 0).transmitting ≠ 0)) = some true := by
    decide +kernel
  obtain ⟨m, hm, hruns⟩ := Option.bind_eq_some_iff.mp hruns
  obtain ⟨m', hfirst, hruns⟩ := Option.bind_eq_some_iff.mp hruns
  obtain ⟨u, hlast, hbusy⟩ := Option.map_eq_some_iff.mp hruns
  have hrun : Run.exec Machine.step m twoWriters = some u :=
    Run.exec_append.mpr ⟨m', hfirst, hlast⟩
  have hok : Run.Along Machine.step (Acknowledges 0) m twoWriters := by
    refine (Run.along_append hfirst).mpr ⟨?_, ?_⟩
    · exact Run.along_of_forall (by simp [twoWriters, Acknowledges])
    · obtain ⟨t, ht, -⟩ := Run.exec_cons.mp hlast
      exact (Run.along_cons ht).mpr ⟨fun _ => of_decide_eq_true hbusy,
        Run.along_of_forall (by simp [Acknowledges])⟩
  exact ⟨m, u, hm, hrun, outputs_refine hm (by simp [twoWriters, Event.InRange]) le_rfl
    (by decide) hok hrun m.kernel.procs⟩

/-! ## Input -/

section Input

variable {s : InState Node}

omit [DecidableEq Node] [DecidableEq Addr] in
/-- **What an event is to the input of a terminal.** -/
def inEvents (tty : ℤ) (m : Machine Node Addr) (e : Event Node Addr) : List (InEvent Node) :=
  match e with
  | .ttyReceive tty' landing read => if tty' = tty then [.receive landing read] else []
  | e =>
    match m.entered e with
    | some (.ttyRead tty' _ len) =>
      if tty' = tty then
        [if e.isResume then .resume m.kernel.procs.running
          else .read m.kernel.procs.running len]
      else []
    | _ => []

omit [DecidableEq Node] [DecidableEq Addr] in
/-- The bytes a read of the terminal stores at its caller's. -/
def ttyGiven (tty : ℤ) (m : Machine Node Addr) (e : Event Node Addr) : List Byte :=
  match m.entered e with
  | some (.ttyRead tty' _ len) =>
    if tty' = tty then (readBuffer (m.io.input tty).buffer len).2.1 else []
  | _ => []

omit [Paging] [Devices] [DecidableEq Node] [DecidableEq Addr] in
/-- The bytes of a line the buffer has space for. -/
def ttyAccepted (tty : ℤ) (m : Machine Node Addr) : Event Node Addr → List Byte
  | .ttyReceive tty' landing read =>
    if tty' = tty then (bytesAt landing read.toNat).take (m.io.input tty).buffer.room.toNat else []
  | _ => []

omit [Paging] [Devices] [DecidableEq Node] [DecidableEq Addr] in
/-- **The machine has the input as `s` has it.** -/
structure AsIn (m : Machine Node Addr) (tty : ℤ) (s : InState Node) : Prop where
  inp : m.io.input tty = s.inp
  call : ∀ p, s.call p = (m.io.frame p).bind (IoFrame.inCall tty)

omit [Paging] [Devices] [DecidableEq Node] [DecidableEq Addr] in
/-- What a step adds to the bytes handed out, and to those accepted. -/
structure InGains (s t : InState Node) (given accepted : List Byte) : Prop where
  delivered : t.delivered = s.delivered ++ given
  accepted : t.accepted = s.accepted ++ accepted

omit [Paging] [Devices] [DecidableEq Node] [DecidableEq Addr] in
theorem InGains.refl (s : InState Node) : InGains s s [] [] :=
  ⟨(List.append_nil _).symm, (List.append_nil _).symm⟩

omit [Paging] [Devices] [DecidableEq Node] [DecidableEq Addr] in
theorem AsIn.spared (hr : m.AsIn tty s) (hinput : t.io.input tty = m.io.input tty)
    (hframe : t.io.frame = m.io.frame) : t.AsIn tty s := by
  refine ⟨hinput.trans hr.inp, ?_⟩
  rw [hframe]
  exact hr.call

omit [DecidableEq Node] [DecidableEq Addr] in
/-- An event on something else is none, and gains nothing. -/
theorem inEvents_off (hentered : ∀ f, m.entered e = some f → f.port ≠ .input tty)
    (hreceive : ∀ landing read, e ≠ .ttyReceive tty landing read) :
    m.inEvents tty e = [] ∧ m.ttyGiven tty e = [] ∧ m.ttyAccepted tty e = [] := by
  have hcall : ∀ {κ : Type} (x : ℤ → List κ),
      (match m.entered e with
        | some (.ttyRead tty' _ len) => if tty' = tty then x len else []
        | _ => []) = [] := by
    intro κ x
    cases hf : m.entered e with
    | none => rfl
    | some f =>
      cases f with
      | ttyRead tty' buf len => exact if_neg fun heq => hentered _ hf (congrArg Port.input heq)
      | ttyWrite | pipeRead | pipeWrite => rfl
  refine ⟨?_, hcall _, ?_⟩
  · unfold inEvents
    split
    · exact if_neg fun heq => hreceive _ _ (by rw [heq])
    · exact hcall _
  · unfold ttyAccepted
    split
    · exact if_neg fun heq => hreceive _ _ (by rw [heq])
    · rfl

omit [Devices] [DecidableEq Addr] in
/-- **`read_tty` runs**, and the other machine takes a step. -/
theorem AsIn.reads {pt : ℤ → Pte} {buf len : ℤ} {e' : InEvent Node}
    (hr : m.AsIn tty s)
    (hstep : s.step e' = some (s.run m.kernel.procs.running len)) :
    ∃ s', s.step e' = some s' ∧
      (leaveIo m.kernel.procs.running (m.runTtyRead pt tty buf len)).AsIn tty s' ∧
      InGains s s' (readBuffer (m.io.input tty).buffer len).2.1 [] := by
  obtain ⟨hinp, hcall, haccepted, hdelivered⟩ :=
    InState.run_eq (s := s) (rfl : m.kernel.procs.running = _) len
  refine ⟨_, hstep, ⟨?_, calls_leaveIo hr.call rfl ?_⟩, ?_, ?_⟩
  · rw [leaveIo_input, hinp, ← hr.inp]
    exact Function.update_self tty _ m.io.input
  · rw [hcall, ← hr.inp]
    congr 1
    show _ = (((readTty m.kernel.procs (m.io.input tty) len).2.2.2.map
      fun len => IoFrame.ttyRead tty buf len).left).bind (IoFrame.inCall tty)
    rw [Outcome.left_map]
    cases (readTty m.kernel.procs (m.io.input tty) len).2.2.2.left with
    | none => rfl
    | some len' => exact (if_pos rfl).symm
  · rw [hdelivered, hr.inp]
  · rw [haccepted, List.append_nil]

omit [DecidableEq Addr] in
/-- **One activation of the four functions**, seen from this input. -/
theorem AsIn.ran (hr : m.AsIn tty s) (hs : m.Sound) (hlo : 0 ≤ tty) (hhi : tty < numTerminals)
    (hentered : m.entered e = some f)
    (huser : e = .resume ∨ m.io.frame m.kernel.procs.running = none)
    (hact : m.Activates c e f r) :
    ∃ s', Run.exec InState.step s (m.inEvents tty e) = some s' ∧
      (leaveIo m.kernel.procs.running r).AsIn tty s' ∧
      InGains s s' (m.ttyGiven tty e) (m.ttyAccepted tty e) := by
  obtain ⟨hasleep, -⟩ := hs.running_not_blocked hlo hhi
  rw [hr.inp] at hasleep
  by_cases hoff : f.port = .input tty
  · unfold inEvents ttyGiven ttyAccepted
    cases hact with
    | ttyWrite | pipeRead | pipeWrite | ttyWriteBack | pipeReadBack | pipeWriteBack => cases hoff
    | ttyRead tty' buf len =>
      obtain rfl : tty' = tty := Port.input.inj hoff
      dsimp only
      rw [hentered]
      dsimp only
      rw [if_pos rfl, Run.exec_singleton, if_pos rfl]
      refine hr.reads (if_neg (not_or.mpr ⟨hasleep, ?_⟩))
      rw [hr.call, huser.resolve_left (by simp)]
      exact Bool.false_ne_true
    | ttyReadBack tty' buf len hf =>
      obtain rfl : tty' = tty := Port.input.inj hoff
      dsimp only
      rw [hentered]
      dsimp only
      rw [if_pos rfl, Run.exec_singleton, if_pos rfl]
      have hcall : s.call m.kernel.procs.running = some len := by
        rw [hr.call, hf]
        exact if_pos rfl
      refine hr.reads ((if_neg hasleep).trans ?_)
      rw [hcall]
      rfl
  · have hreceive : ∀ landing read, e ≠ .ttyReceive tty landing read := by
      rintro landing read rfl
      rw [entered_trap (by simp) (by simp)] at hentered
      cases hentered
    have hentering : ∀ g, m.entered e = some g → g.port ≠ .input tty :=
      fun g hg => Option.some.inj (hentered.symm.trans hg) ▸ hoff
    obtain ⟨hevents, hgiven, haccepted⟩ := inEvents_off hentering hreceive
    rw [hevents, hgiven, haccepted]
    obtain ⟨hframe, -⟩ := hact.kept
    refine ⟨s, rfl, ⟨?_, calls_leaveIo hr.call hframe (calls_unseen hr.call (fun g hg => ?_)
      fun g hg => ?_)⟩, InGains.refl s⟩
    · rw [leaveIo_input, hact.input hoff]
      exact hr.inp
    · rw [hact.frame_before huser hg]
      exact IoFrame.inCall_eq_none hoff
    · exact IoFrame.inCall_eq_none (hact.port_left hg ▸ hoff)

/-- **One event.** -/
theorem AsIn.step (hr : m.AsIn tty s) (hs : m.Sound) (hlo : 0 ≤ tty) (hhi : tty < numTerminals)
    (h : m.step e = some t) :
    ∃ s', Run.exec InState.step s (m.inEvents tty e) = some s' ∧ t.AsIn tty s' ∧
      InGains s s' (m.ttyGiven tty e) (m.ttyAccepted tty e) := by
  have hspared : m.entered e = none → (∀ landing read, e ≠ .ttyReceive tty landing read) →
      t.io.input tty = m.io.input tty → t.io.frame = m.io.frame →
      ∃ s', Run.exec InState.step s (m.inEvents tty e) = some s' ∧ t.AsIn tty s' ∧
        InGains s s' (m.ttyGiven tty e) (m.ttyAccepted tty e) := by
    intro hentered hreceive hinput hframe
    have hentering : ∀ f, m.entered e = some f → f.port ≠ .input tty :=
      fun f hf => by rw [hentered] at hf; cases hf
    obtain ⟨hevents, hgiven, haccepted⟩ := inEvents_off hentering hreceive
    rw [hevents, hgiven, haccepted]
    exact ⟨s, rfl, hr.spared hinput hframe, InGains.refl s⟩
  cases step_atIo h with
  | spared e t hentered hreceive htransmit hpipe hinput hout hframe =>
    exact hspared hentered (fun landing read => hreceive tty landing read)
      (congrFun hinput tty) hframe
  | sent tty' => exact hspared (entered_trap (by simp) (by simp)) (by simp) rfl rfl
  | ran c e f r hc hrun hentered huser hact =>
    exact hr.ran hs hlo hhi hentered huser hact
  | received tty' landing read =>
    by_cases heq : tty' = tty
    · subst heq
      have hevents : m.inEvents tty' (.ttyReceive tty' landing read) = [.receive landing read] :=
        if_pos rfl
      have hgiven : m.ttyGiven tty' (.ttyReceive tty' landing read) = [] := by
        unfold ttyGiven
        rw [entered_trap (by simp) (by simp)]
      rw [hevents, hgiven, Run.exec_singleton]
      refine ⟨s.trap landing read, rfl, ⟨?_, hr.call⟩, (List.append_nil _).symm, ?_⟩
      · show Function.update m.io.input tty' _ tty' = _
        rw [Function.update_self, s.trap_eq m.kernel.procs, hr.inp]
        rfl
      · unfold ttyAccepted
        dsimp only
        rw [if_pos rfl, hr.inp]
        rfl
    · exact hspared (entered_trap (by simp) (by simp)) (by simp [heq])
        (Function.update_of_ne (Ne.symm heq) _ _) rfl

/-- Reads that ask for something, and lines that fit the landing buffer, are
noted as such. -/
theorem inEvents_inDomain (he : e.TtyLens)
    (h : m.step e = some t) : ∀ a ∈ m.inEvents tty e, a.InDomain := by
  intro a ha
  cases hentered : m.entered e with
  | none =>
    unfold inEvents at ha
    split at ha
    · obtain ⟨-, ha⟩ := List.mem_ite_nil_right.mp ha
      obtain rfl := List.mem_singleton.mp ha
      cases step_atIo h with
      | spared _ _ _ hreceive => exact absurd rfl (hreceive _ _ _)
      | received _ _ _ _ _ hread => exact hread
      | ran _ _ _ _ _ _ hsome =>
        rw [hentered] at hsome
        cases hsome
    · rw [hentered] at ha
      cases ha
  | some f =>
    obtain ⟨c, -, henters⟩ := enters_of_entered hentered
    unfold inEvents at ha
    cases henters with
    | ttyWrite | pipeRead | pipeWrite =>
      dsimp only at ha
      rw [hentered] at ha
      cases ha
    | ttyRead tty' buf len =>
      dsimp only at ha
      rw [hentered] at ha
      obtain ⟨-, ha⟩ := List.mem_ite_nil_right.mp ha
      obtain rfl := List.mem_singleton.mp ha
      exact he
    | back f =>
      dsimp only at ha
      rw [hentered] at ha
      cases f with
      | ttyWrite | pipeRead | pipeWrite => cases ha
      | ttyRead tty' buf len =>
        obtain ⟨-, ha⟩ := List.mem_ite_nil_right.mp ha
        obtain rfl := List.mem_singleton.mp ha
        trivial

/-- **What a run is to one input**, and the bytes that went through it. -/
theorem asIn_of_run (hb : start b = some m) (hes : ∀ e ∈ es, e.InRange) (hlo : 0 ≤ tty)
    (hhi : tty < numTerminals) (hrun : Run.exec Machine.step m es = some u)
    (procs : ProcTable Node) :
    ∃ s, Run.exec InState.step (InState.init procs)
        (Run.noted Machine.step (inEvents tty) m es) = some s ∧ u.AsIn tty s ∧
      s.delivered = Run.noted Machine.step (ttyGiven tty) m es ∧
      s.accepted = Run.noted Machine.step (ttyAccepted tty) m es ∧
      ((∀ e ∈ es, e.TtyLens) → s.Inv) := by
  suffices hhistory : u.Lawful ∧ ∃ s, Run.exec InState.step (InState.init procs)
      (Run.noted Machine.step (inEvents tty) m es) = some s ∧ u.AsIn tty s ∧
      s.delivered = Run.noted Machine.step (ttyGiven tty) m es ∧
      s.accepted = Run.noted Machine.step (ttyAccepted tty) m es ∧
      ((∀ e ∈ es, e.TtyLens) → s.Inv) from hhistory.2
  refine Run.history_of_exec (H := fun es u => u.Lawful ∧ ∃ s,
    Run.exec InState.step (InState.init procs)
      (Run.noted Machine.step (inEvents tty) m es) = some s ∧ u.AsIn tty s ∧
    s.delivered = Run.noted Machine.step (ttyGiven tty) m es ∧
    s.accepted = Run.noted Machine.step (ttyAccepted tty) m es ∧
    ((∀ e ∈ es, e.TtyLens) → s.Inv))
    ⟨start_lawful hb, _, rfl, ?_, rfl, rfl, fun _ => InState.inv_init procs⟩ ?_ hes hrun
  · obtain ⟨k, hk, rfl⟩ := Option.map_eq_some_iff.mp hb
    exact ⟨rfl, fun _ => rfl⟩
  · rintro es t e u hes he ⟨hlawful, s, hexec, hr, hdelivered, haccepted, hinv⟩ hstep
    obtain ⟨s', hs', hr', hgains⟩ := hr.step hlawful.sound hlo hhi hstep
    refine ⟨step_lawful hlawful he hstep, s', ?_, hr', ?_, ?_, fun hlens => ?_⟩
    · rw [Run.noted_append hes, Run.noted_singleton hstep]
      exact Run.exec_append.mpr ⟨s, hexec, hs'⟩
    · rw [Run.noted_append hes, Run.noted_singleton hstep, hgains.delivered, hdelivered]
    · rw [Run.noted_append hes, Run.noted_singleton hstep, hgains.accepted, haccepted]
    · have he' : e.TtyLens := hlens e (List.mem_append_right _ (List.mem_singleton_self e))
      exact Run.inv_of_exec (fun _ _ _ hs hd h => InState.inv_step hs hd h)
        (inEvents_inDomain he' hstep)
        (hinv fun e he => hlens e (List.mem_append_left _ he)) hs'

/-- **Every terminal's input is the input machine, and a stream.** What is
noted of one terminal is a run of the machine of its input. Where every read
asks for something, the bytes reads were given, in order, with those in the
buffer, are what the buffer had space for of each line, and readers sleep on
an empty buffer only. -/
theorem inputs_refine (hb : start b = some m) (hes : ∀ e ∈ es, e.InRange) (hlo : 0 ≤ tty)
    (hhi : tty < numTerminals) (hrun : Run.exec Machine.step m es = some u)
    (procs : ProcTable Node) :
    (∃ s, Run.exec InState.step (InState.init procs)
      (Run.noted Machine.step (inEvents tty) m es) = some s ∧ u.AsIn tty s) ∧
    ((∀ e ∈ es, e.TtyLens) →
      Run.noted Machine.step (ttyGiven tty) m es ++ (u.io.input tty).buffer.content =
        Run.noted Machine.step (ttyAccepted tty) m es ∧
      ((u.io.input tty).blocked ≠ [] → (u.io.input tty).buffer.filled = 0)) := by
  obtain ⟨s, hexec, hr, hdelivered, haccepted, hinv⟩ := asIn_of_run hb hes hlo hhi hrun procs
  refine ⟨⟨s, hexec, hr⟩, fun hlens => ?_⟩
  obtain ⟨hstream, hempty⟩ := (hinv hlens).exact
  rw [hr.inp, ← hdelivered, ← haccepted]
  refine ⟨hstream, fun hblocked => ?_⟩
  obtain ⟨p, hp⟩ := List.exists_mem_of_ne_nil _ hblocked
  exact hempty p hp

end Input

/-- Init's child sleeps in a read, a line comes in, and the child comes back
to it. -/
def readLine : List (Event ℕ ℕ) :=
  [.call (.proc (.fork 2 2 2)), .clock, .call (.ttyRead 0 0x1ff000 4),
    .ttyReceive 0 (fun _ => 7) 3, .clock, .resume]

omit [Paging] [Devices] in
theorem inputs_refine_line :
    let _ := yalnixPaging
    let _ := yalnixDevices
    ∃ m u : Machine ℕ ℕ, start (smallBoot 140) = some m ∧
      Run.exec Machine.step m readLine = some u ∧
      (∃ s, Run.exec InState.step (InState.init m.kernel.procs)
        (Run.noted Machine.step (inEvents 0) m readLine) = some s ∧ u.AsIn 0 s) ∧
      ((∀ e ∈ readLine, e.TtyLens) →
        Run.noted Machine.step (ttyGiven 0) m readLine ++ (u.io.input 0).buffer.content =
          Run.noted Machine.step (ttyAccepted 0) m readLine ∧
        ((u.io.input 0).blocked ≠ [] → (u.io.input 0).buffer.filled = 0)) := by
  let _ := yalnixPaging
  let _ := yalnixDevices
  have hruns : ((start (smallBoot 140)).bind fun m : Machine ℕ ℕ =>
      Run.exec Machine.step m readLine).isSome = true := by
    decide +kernel
  obtain ⟨m, u, hm, hrun⟩ := Run.exists_exec hruns
  exact ⟨m, u, hm, hrun, inputs_refine hm (by simp [readLine, Event.InRange]) le_rfl
    (by decide) hrun m.kernel.procs⟩

end Machine

end Yalnix
