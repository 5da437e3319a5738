import Yalnix.Machine.Delays
import Yalnix.Machine.Progress
import Yalnix.Machine.Terminals
/-!
# Who sleeps where

A process inside a call that is not on its way back is on the queue of that
call: the reads of the pipe it named, the lock, the condition variable, the
terminal, `procs->waiting`. Whoever is on a queue is inside a call that
sleeps there, and each living process is in one place, so that whatever wakes
the queue finds it.
-/

namespace Yalnix

variable {Node Addr : Type}

/-- A queue that processes sleep on. -/
inductive Bed where
  | waiting
  | delayed
  | readers (pipe : ℤ)
  | writers (pipe : ℤ)
  | lock (id : ℤ)
  | cvar (id : ℤ)
  | input (tty : ℤ)
  | out (tty : ℤ)

/-- A queue of a terminal that is there. -/
def Bed.InRange [Devices] : Bed → Prop
  | .input tty => 0 ≤ tty ∧ tty < Devices.numTerminals
  | .out tty => 0 ≤ tty ∧ tty < Devices.numTerminals
  | _ => True

/-- Where a call on pipes and terminals sleeps. -/
def IoFrame.bed : IoFrame → Bed
  | .pipeRead pipe _ _ => .readers pipe
  | .pipeWrite pipe _ => .writers pipe
  | .ttyRead tty _ _ => .input tty
  | .ttyWrite tty _ => .out tty

/-- Where a call on locks and condition variables does. -/
def SyncFrame.bed : SyncFrame → Bed
  | .waiting cvar _ _ => .cvar cvar
  | .acquiring lock _ => .lock lock

/-- It goes to sleep on a queue. -/
def Outcome.SleepsOn (out : Outcome IoFrame) (q : Bed) : Prop := ∃ f, out = .blocked f ∧ f.bed = q

/-- Who sleeps where a call on pipes and terminals does. -/
def Io.asleep [Devices] (io : Io Node) : IoFrame → List Node
  | .pipeRead pipe _ _ => (io.pipeAt pipe).readblocked
  | .pipeWrite pipe _ => (io.pipeAt pipe).writeblocked
  | .ttyRead tty _ _ => (io.input tty).blocked
  | .ttyWrite tty _ => (io.out tty).blocked

namespace Machine

/-- Who is on a queue. -/
def asleep [Devices] (m : Machine Node Addr) : Bed → List Node
  | .waiting => m.kernel.procs.waiting
  | .delayed => m.kernel.procs.delayed
  | .readers pipe => (m.io.pipeAt pipe).readblocked
  | .writers pipe => (m.io.pipeAt pipe).writeblocked
  | .lock id => (m.sync.lockAt id).blocked
  | .cvar id => m.sync.waiters id
  | .input tty => (m.io.input tty).blocked
  | .out tty => (m.io.out tty).blocked

/-- **Where the call a process is inside of sleeps.** -/
def bed (m : Machine Node Addr) (p : Node) : Option Bed :=
  match m.kernel.waits p, m.sync.frame p, m.io.frame p with
  | some _, _, _ => some .waiting
  | none, some f, _ => some f.bed
  | none, none, some f => some f.bed
  | none, none, none => none

variable {m t : Machine Node Addr} {e : Event Node Addr} {p : Node}

theorem bed_eq_none : m.bed p = none ↔
    m.kernel.waits p = none ∧ m.sync.frame p = none ∧ m.io.frame p = none := by
  unfold bed
  cases m.kernel.waits p with
  | some statusPtr => simp
  | none =>
    cases m.sync.frame p with
    | some f => simp
    | none => cases m.io.frame p <;> simp

/-- It is known by the calls in progress. -/
theorem bed_congr (hwaits : t.kernel.waits p = m.kernel.waits p)
    (hsync : t.sync.frame p = m.sync.frame p) (hio : t.io.frame p = m.io.frame p) :
    t.bed p = m.bed p := by
  unfold bed
  rw [hwaits, hsync, hio]

section Io

variable [Paging] [Devices] [DecidableEq Node]

variable {f g : IoFrame} {c : Proc Node Addr} {r : Machine Node Addr × Outcome IoFrame}

/-! ## The queues of pipes and terminals -/

omit [Paging] [DecidableEq Node] in
/-- **Whoever is on a queue of a pipe or a terminal** is inside a call that
sleeps there. -/
def IoAsleep (m : Machine Node Addr) : Prop :=
  ∀ f : IoFrame, f.InRange → ∀ p ∈ m.io.asleep f, ∃ g, m.io.frame p = some g ∧ g.bed = f.bed

omit [Paging] [DecidableEq Node] in
/-- A pipe or terminal that is not the one the function is on. -/
theorem asleep_of_find (hpipe : ∀ id, g.port = .pipe id →
      Filed.find t.io.pipe id = Filed.find m.io.pipe id)
    (hinput : ∀ tty, g.port = .input tty → t.io.input tty = m.io.input tty)
    (hout : ∀ tty, g.port = .out tty → t.io.out tty = m.io.out tty) :
    t.io.asleep g = m.io.asleep g := by
  cases g with
  | pipeRead id buf len =>
    unfold Io.asleep Io.pipeAt
    dsimp only
    rw [hpipe id rfl]
  | pipeWrite id f =>
    unfold Io.asleep Io.pipeAt
    dsimp only
    rw [hpipe id rfl]
  | ttyRead tty buf len => exact congrArg Ttyio.blocked (hinput tty rfl)
  | ttyWrite tty f => exact congrArg Ttyio.blocked (hout tty rfl)

omit [Paging] [DecidableEq Node] in
/-- **What a function does to the queues of its pipe**: whoever is on one
after it was on it before, or is its caller, asleep there. -/
theorem asleep_onPipe {id : ℤ} {pipe pipe' : Pipe Node}
    (hfind : Filed.find m.io.pipe id = some pipe) (hstored : t.io.pipeAt id = pipe')
    {out : Outcome IoFrame} (hread : ∀ q ∈ pipe'.readblocked, q ∈ pipe.readblocked ∨
      q = m.kernel.procs.running ∧ out.SleepsOn (.readers id))
    (hwrite : ∀ q ∈ pipe'.writeblocked, q ∈ pipe.writeblocked ∨
      q = m.kernel.procs.running ∧ out.SleepsOn (.writers id))
    (hport : g.port = .pipe id) (hp : p ∈ t.io.asleep g) :
    p ∈ m.io.asleep g ∨ p = m.kernel.procs.running ∧ out.SleepsOn g.bed := by
  have hat : m.io.pipeAt id = pipe := Io.pipeAt_eq hfind
  cases g with
  | pipeRead id' buf len =>
    obtain rfl : id' = id := Port.pipe.inj hport
    unfold Io.asleep at hp ⊢
    dsimp only at hp ⊢
    rw [hstored] at hp
    rw [hat]
    exact hread p hp
  | pipeWrite id' f =>
    obtain rfl : id' = id := Port.pipe.inj hport
    unfold Io.asleep at hp ⊢
    dsimp only at hp ⊢
    rw [hstored] at hp
    rw [hat]
    exact hwrite p hp
  | ttyRead | ttyWrite => cases hport

omit [DecidableEq Node] in
/-- `read_pipe` puts its caller on the queue of the readers, or empties that
of the writers. -/
theorem asleep_runPipeRead {pt : ℤ → Pte} {id buf len : ℤ} {pipe pipe' : Pipe Node}
    (hfind : Filed.find m.io.pipe id = some pipe) (hread : pipe'.readblocked = pipe.readblocked)
    (hwrite : pipe'.writeblocked = pipe.writeblocked) (hport : g.port = .pipe id)
    (hp : p ∈ (m.runPipeRead pt id pipe' buf len).1.io.asleep g) :
    p ∈ m.io.asleep g ∨
      p = m.kernel.procs.running ∧ (m.runPipeRead pt id pipe' buf len).2.SleepsOn g.bed := by
  have hstored : (m.runPipeRead pt id pipe' buf len).1.io.pipeAt id =
      (readPipe m.kernel.procs pipe' len).2.1 := Io.pipeAt_eq (Filed.find_store_self hfind)
  have hleft : (m.runPipeRead pt id pipe' buf len).2 =
      (readPipe m.kernel.procs pipe' len).2.2.2.map fun len => .pipeRead id buf len := rfl
  by_cases hzero : min pipe'.buffer.filled len = 0
  · rw [readPipe_blocked hzero] at hstored hleft
    refine asleep_onPipe hfind hstored (fun q hq => ?_) (fun q hq => Or.inl ?_) hport hp
    · rw [hread] at hq
      refine (List.mem_append.mp hq).imp_right fun hq => ?_
      exact ⟨List.mem_singleton.mp hq, _, hleft, rfl⟩
    · rwa [hwrite] at hq
  · rw [readPipe_returned hzero] at hstored
    refine asleep_onPipe hfind hstored (fun q hq => Or.inl ?_) (fun q hq => ?_) hport hp
    · rwa [hread] at hq
    · exact absurd hq List.not_mem_nil

omit [Paging] [DecidableEq Node] in
/-- `write_pipe` the other way round. -/
theorem asleep_runPipeWrite {id : ℤ} {w : WriteFrame} {pipe pipe' : Pipe Node}
    (hfind : Filed.find m.io.pipe id = some pipe) (hread : pipe'.readblocked = pipe.readblocked)
    (hwrite : pipe'.writeblocked = pipe.writeblocked) (hport : g.port = .pipe id)
    (hp : p ∈ (m.runPipeWrite id pipe' w).1.io.asleep g) :
    p ∈ m.io.asleep g ∨
      p = m.kernel.procs.running ∧ (m.runPipeWrite id pipe' w).2.SleepsOn g.bed := by
  have hstored : (m.runPipeWrite id pipe' w).1.io.pipeAt id =
      (writePipe m.kernel.procs pipe' w).2.1 := Io.pipeAt_eq (Filed.find_store_self hfind)
  have hleft : (m.runPipeWrite id pipe' w).2 =
      (writePipe m.kernel.procs pipe' w).2.2.map fun w => .pipeWrite id w := rfl
  by_cases hfull : min pipe'.buffer.room w.len < w.lenLeft
  · rw [writePipe_blocked hfull] at hstored hleft
    refine asleep_onPipe hfind hstored (fun q hq => Or.inl ?_) (fun q hq => ?_) hport hp
    · rwa [hread] at hq
    · rw [hwrite] at hq
      refine (List.mem_append.mp hq).imp_right fun hq => ?_
      exact ⟨List.mem_singleton.mp hq, _, hleft, rfl⟩
  · rw [writePipe_returned (not_lt.mp hfull)] at hstored
    refine asleep_onPipe hfind hstored (fun q hq => ?_) (fun q hq => Or.inl ?_) hport hp
    · exact absurd hq List.not_mem_nil
    · rwa [hwrite] at hq

omit [DecidableEq Node] in
/-- `read_tty` queues its caller, or nobody. -/
theorem asleep_runTtyRead {pt : ℤ → Pte} {tty buf len : ℤ} (hport : g.port = .input tty)
    (hp : p ∈ (m.runTtyRead pt tty buf len).1.io.asleep g) :
    p ∈ m.io.asleep g ∨
      p = m.kernel.procs.running ∧ (m.runTtyRead pt tty buf len).2.SleepsOn g.bed := by
  have hstored : (m.runTtyRead pt tty buf len).1.io.input tty =
      (readTty m.kernel.procs (m.io.input tty) len).2.1 := Function.update_self ..
  have hleft : (m.runTtyRead pt tty buf len).2 =
      (readTty m.kernel.procs (m.io.input tty) len).2.2.2.map fun len => .ttyRead tty buf len := rfl
  cases g with
  | ttyRead tty' buf' len' =>
    obtain rfl : tty' = tty := Port.input.inj hport
    unfold Io.asleep at hp ⊢
    dsimp only at hp ⊢
    rw [hstored] at hp
    unfold readTty at hp hleft
    dsimp only at hp hleft
    split at hp
    · rename_i hzero
      rw [if_pos hzero] at hleft
      refine (List.mem_append.mp hp).imp_right fun hp => ?_
      exact ⟨List.mem_singleton.mp hp, _, hleft, rfl⟩
    · exact Or.inl hp
  | ttyWrite | pipeRead | pipeWrite => cases hport

omit [Paging] [DecidableEq Node] in
/-- `write_tty` queues its caller, first or last, or wakes the head. -/
theorem asleep_runTtyWrite {tty : ℤ} {w : TtyFrame} (hport : g.port = .out tty)
    (hp : p ∈ (m.runTtyWrite tty w).1.io.asleep g) :
    p ∈ m.io.asleep g ∨ p = m.kernel.procs.running ∧ (m.runTtyWrite tty w).2.SleepsOn g.bed := by
  have hstored : (m.runTtyWrite tty w).1.io.out tty =
      (writeTty m.kernel.procs (m.io.out tty) w).2.1 := Function.update_self ..
  have hleft : (m.runTtyWrite tty w).2 =
      (writeTty m.kernel.procs (m.io.out tty) w).2.2.2.map fun w => .ttyWrite tty w := rfl
  cases g with
  | ttyWrite tty' w' =>
    obtain rfl : tty' = tty := Port.out.inj hport
    unfold Io.asleep at hp ⊢
    dsimp only at hp ⊢
    rw [hstored] at hp
    by_cases hmore : w.total < w.len
    · by_cases hbusy : (m.io.out tty').transmitting = 0
      · rw [writeTty_transmits hmore hbusy] at hp hleft
        rcases List.mem_cons.mp hp with hp | hp
        · exact Or.inr ⟨hp, _, hleft, rfl⟩
        · exact Or.inl hp
      · rw [writeTty_queues hmore hbusy] at hp hleft
        refine (List.mem_append.mp hp).imp_right fun hp => ?_
        exact ⟨List.mem_singleton.mp hp, _, hleft, rfl⟩
    · rw [writeTty_returns (not_lt.mp hmore)] at hp
      exact Or.inl ((OutState.unblockHead_sublist _ _).subset hp)
  | ttyRead | pipeRead | pipeWrite => cases hport

omit [DecidableEq Node] in
/-- **What an activation does to any queue.** -/
theorem Activates.asleep (h : m.Activates c e f r) (hp : p ∈ r.1.io.asleep g) :
    p ∈ m.io.asleep g ∨ p = m.kernel.procs.running ∧ r.2.SleepsOn g.bed := by
  by_cases hport : g.port = f.port
  · cases h with
    | ttyRead tty buf len => exact asleep_runTtyRead hport hp
    | ttyWrite tty buf len => exact asleep_runTtyWrite hport hp
    | pipeRead id buf len pipe hfind => exact asleep_runPipeRead hfind rfl rfl hport hp
    | pipeWrite id buf len total pipe hfind => exact asleep_runPipeWrite hfind rfl rfl hport hp
    | ttyReadBack tty buf len => exact asleep_runTtyRead hport hp
    | ttyWriteBack tty f => exact asleep_runTtyWrite hport hp
    | pipeReadBack id buf len pipe hfind => exact asleep_runPipeRead hfind rfl rfl hport hp
    | pipeWriteBack id f pipe hfind => exact asleep_runPipeWrite hfind rfl rfl hport hp
  · rw [asleep_of_find (fun id hg => h.find_pipe fun hf => hport (hg.trans hf.symm))
      (fun tty hg => h.input fun hf => hport (hg.trans hf.symm))
      (fun tty hg => h.out fun hf => hport (hg.trans hf.symm))] at hp
    exact Or.inl hp

omit [Paging] [DecidableEq Node] in
/-- The pipes on file, and what became of one that is not. -/
theorem Refiles.pipeAt (h : m.Refiles t) (hn : m.Numbered) (id : ℤ) :
    t.io.pipeAt id = m.io.pipeAt id ∨ t.io.pipeAt id = newPipe := by
  unfold Io.pipeAt
  cases h with
  | same hpipe hcount =>
    rw [hpipe]
    exact Or.inl rfl
  | made hpipe hcount =>
    rw [hpipe, Filed.getD_find_append]
    exact Or.inl rfl
  | removed id' hpipe hcount =>
    rw [hpipe, Filed.getD_find_remove hn.pipe_nodup]
    split
    · exact Or.inr rfl
    · exact Or.inl rfl

omit [Paging] in
/-- Who is running is on none of them. -/
theorem Sound.running_not_on (hs : m.Sound) (hf : f.InRange) :
    m.kernel.procs.running ∉ m.io.asleep f := by
  have hpipe : ∀ id, m.kernel.procs.running ∉ (m.io.pipeAt id).readblocked ∧
      m.kernel.procs.running ∉ (m.io.pipeAt id).writeblocked := by
    intro id
    unfold Io.pipeAt
    cases hfind : Filed.find m.io.pipe id with
    | some pipe => exact hs.running_not_asleep hfind
    | none => exact ⟨List.not_mem_nil, List.not_mem_nil⟩
  cases f with
  | pipeRead id buf len => exact (hpipe id).1
  | pipeWrite id f => exact (hpipe id).2
  | ttyRead tty buf len => exact (hs.running_not_blocked hf.1 hf.2).1
  | ttyWrite tty f => exact (hs.running_not_blocked hf.1 hf.2).2

omit [Paging] [DecidableEq Node] in
/-- What fewer pipes leave of the queues. -/
theorem Refiles.asleep (h : m.Refiles t) (hn : m.Numbered) (hinput : t.io.input = m.io.input)
    (hout : t.io.out = m.io.out) (hp : p ∈ t.io.asleep f) : p ∈ m.io.asleep f := by
  have hpipe : ∀ (q : Pipe Node → List Node) (id : ℤ), q newPipe = [] →
      p ∈ q (t.io.pipeAt id) → p ∈ q (m.io.pipeAt id) := by
    intro q id hnew hin
    rcases h.pipeAt hn id with heq | heq
    · rwa [heq] at hin
    · rw [heq, hnew] at hin
      exact absurd hin List.not_mem_nil
  unfold Io.asleep at hp ⊢
  cases f with
  | pipeRead id buf len => exact hpipe Pipe.readblocked id rfl hp
  | pipeWrite id f => exact hpipe Pipe.writeblocked id rfl hp
  | ttyRead tty buf len => rwa [hinput] at hp
  | ttyWrite tty f => rwa [hout] at hp

/-- **What an event does to the queues of pipes and terminals**: it takes
processes off them, and puts its caller on the one its call sleeps on. -/
theorem asleep_step [DecidableEq Addr] (hn : m.Numbered) (hstep : m.step e = some t)
    (hp : p ∈ t.io.asleep f) : p ∈ m.io.asleep f ∨
      p = m.kernel.procs.running ∧ ∃ g, t.io.frame p = some g ∧ g.bed = f.bed := by
  cases step_atIo hstep with
  | spared e t hnone hreceive htransmit hpipe hinput hout hframe =>
    exact Or.inl (hpipe.asleep hn hinput hout hp)
  | received tty landing read hlo hhi hread =>
    left
    unfold Io.asleep at hp ⊢
    cases f with
    | ttyRead tty' buf len =>
      dsimp only at hp ⊢
      rcases eq_or_ne tty' tty with rfl | hne
      · have hsame : (m.trapTtyReceive tty' landing read).io.input tty' =
            (receive m.kernel.procs (m.io.input tty') landing read).2 := Function.update_self ..
        rw [hsame] at hp
        unfold receive at hp
        dsimp only at hp
        split at hp
        · exact absurd hp List.not_mem_nil
        · exact hp
      · have hsame : (m.trapTtyReceive tty landing read).io.input tty' = m.io.input tty' :=
          Function.update_of_ne hne ..
        rwa [hsame] at hp
    | ttyWrite | pipeRead | pipeWrite => exact hp
  | sent tty hlo hhi =>
    left
    unfold Io.asleep at hp ⊢
    cases f with
    | ttyWrite tty' w =>
      dsimp only at hp ⊢
      rcases eq_or_ne tty' tty with rfl | hne
      · have hsame : (m.trapTtyTransmit tty').io.out tty' =
            (writeAlert m.kernel.procs (m.io.out tty')).2 := Function.update_self ..
        rw [hsame] at hp
        exact (OutState.unblockHead_sublist _ _).subset hp
      · have hsame : (m.trapTtyTransmit tty).io.out tty' = m.io.out tty' :=
          Function.update_of_ne hne ..
        rwa [hsame] at hp
    | ttyRead | pipeRead | pipeWrite => exact hp
  | ran c e f' r hc hrun hentered huser hact =>
    have hsame : (leaveIo m.kernel.procs.running r).io.asleep f = r.1.io.asleep f :=
      asleep_of_find (fun _ _ => by rw [leaveIo_pipe]) (fun _ _ => by rw [leaveIo_input])
        fun _ _ => by rw [leaveIo_out]
    rw [hsame] at hp
    refine (hact.asleep hp).imp_right ?_
    rintro ⟨rfl, g, hleft, hbed⟩
    refine ⟨rfl, g, ?_, hbed⟩
    rw [leaveIo_frame, Function.update_self, hleft]
    rfl

/-- **The queues of pipes and terminals**, event by event. -/
theorem ioAsleep_step [DecidableEq Addr] (h : m.IoAsleep) (hs : m.Lawful)
    (hstep : m.step e = some t) : t.IoAsleep := by
  intro f hf p hp
  rcases asleep_step hs.numbered hstep hp with hold | ⟨-, hnew⟩
  · have hne : p ≠ m.kernel.procs.running := by
      rintro rfl
      exact hs.sound.running_not_on hf hold
    rw [ioFrame_step hstep hne]
    exact h f hf p hold
  · exact hnew

end Io

/-! ## Inside one call at most -/

section Apart

variable [Paging] [Devices] [DecidableEq Node] [DecidableEq Addr]

omit [Paging] [Devices] [DecidableEq Node] [DecidableEq Addr] in
/-- **A call on pipes and terminals is inside no other.** -/
def IoApart (m : Machine Node Addr) : Prop :=
  ∀ p, m.io.frame p = none ∨ m.kernel.waits p = none ∧ m.sync.frame p = none

/-- **Only who is running** comes to be inside another call. -/
theorem bed_step (h : m.Lawful) (he : e.InRange) (hstep : m.step e = some t)
    (hp : p ≠ m.kernel.procs.running) : t.bed p = m.bed p :=
  bed_congr (waits_step h.sound he hstep hp) ((onSync h he hstep).frame_of_ne h hp)
    (ioFrame_step hstep hp)

omit [DecidableEq Node] [DecidableEq Addr] in
theorem Activates.others {f : IoFrame} {c : Proc Node Addr} {r : Machine Node Addr × Outcome IoFrame}
    (h : m.Activates c e f r) : r.1.kernel.waits = m.kernel.waits ∧ r.1.sync = m.sync := by
  cases h <;> exact ⟨rfl, rfl⟩

omit [DecidableEq Node] [DecidableEq Addr] in
/-- Who enters a function of pipes and terminals is inside nothing else. -/
theorem Enters.alone {c : Proc Node Addr} {f : IoFrame} (h : m.Enters c e f)
    (huser : e = .resume ∨ m.inUser = true) :
    m.kernel.waits m.kernel.procs.running = none ∧
      m.sync.frame m.kernel.procs.running = none := by
  cases h with
  | back f hwaits hsync => exact ⟨hwaits, hsync⟩
  | _ =>
    obtain ⟨hwaits, hsync, -⟩ := inUser_iff.mp (huser.resolve_left (by simp))
    exact ⟨hwaits, hsync⟩

theorem ioApart_step (hio : m.IoApart) (h : m.Lawful) (he : e.InRange)
    (hstep : m.step e = some t) : t.IoApart := by
  intro p
  rcases eq_or_ne p m.kernel.procs.running with rfl | hne
  · have huser := step_inUser hstep
    cases step_atIo hstep with
    | spared e t hnone hreceive htransmit hpipe hinput hout hframe =>
      left
      rw [hframe]
      cases hf : m.io.frame m.kernel.procs.running with
      | none => rfl
      | some f =>
        -- it can only have come back, and then to this call
        obtain ⟨hwaits, hsync⟩ := (hio m.kernel.procs.running).resolve_left (by simp [hf])
        rcases huser with rfl | huser
        · obtain ⟨c, hc, -⟩ := step_resume hstep
          rw [entered_of_enters hc (Enters.back f hwaits hsync hf)] at hnone
          cases hnone
        · rw [(inUser_iff.mp huser).2.2] at hf
          cases hf
    | received tty landing read => exact hio _
    | sent tty => exact hio _
    | ran c e f r hc hrun hentered huser' hact =>
      right
      obtain ⟨c', hc', henters⟩ := enters_of_entered hentered
      obtain ⟨hwaits, hsync⟩ := hact.others
      have halone := henters.alone huser
      obtain ⟨t, out⟩ := r
      cases out <;> exact ⟨(congrFun hwaits _).trans halone.1,
        (congrFun (congrArg Sync.frame hsync) _).trans halone.2⟩
  · rw [waits_step h.sound he hstep hne, (onSync h he hstep).frame_of_ne h hne,
      ioFrame_step hstep hne]
    exact hio p

/-! ## Delays -/

omit [Paging] [Devices] [DecidableEq Node] [DecidableEq Addr] in
/-- **Who is delayed** is inside nothing else: `Delay` returns when its
caller is woken. -/
def DelayedOut (m : Machine Node Addr) : Prop := ∀ p ∈ m.kernel.procs.delayed, m.bed p = none

/-- Only `Delay` delays. -/
theorem delayed_step (hs : m.Sound) (hstep : m.step e = some t)
    (hp : p ∈ t.kernel.procs.delayed) : p ∈ m.kernel.procs.delayed ∨
      p = m.kernel.procs.running ∧ ∃ n, e = .call (.delay n) := by
  have hmap : ∀ k : Kernel Node Addr, k.sleepers.map Prod.fst = k.procs.delayed := by
    intro k
    unfold Kernel.sleepers
    rw [List.map_map]
    exact List.map_id _
  rw [← hmap] at hp ⊢
  cases hclock : e.isClock with
  | false =>
    obtain ⟨new, hnew, hall⟩ := sleepers_step hs hclock hstep
    rw [hnew, List.map_append, List.mem_append] at hp
    refine hp.imp_right fun hin => ?_
    obtain ⟨y, hy, rfl⟩ := List.mem_map.mp hin
    exact (hall y hy).2
  | true =>
    left
    cases e with
    | clock =>
      obtain ⟨-, heq⟩ := Option.ite_none_right_eq_some.mp hstep
      rw [← Option.some.inj heq, (sleepers_trapClock hs).1] at hp
      exact (Countdown.tick_sublist _).subset hp
    | _ => cases hclock

theorem delayedOut_step (hout : m.DelayedOut) (h : m.Lawful) (he : e.InRange)
    (hstep : m.step e = some t) : t.DelayedOut := by
  intro p hp
  rcases delayed_step h.sound hstep hp with hold | ⟨rfl, n, rfl⟩
  · rw [bed_step h he hstep (h.sound.of_delayed hold).2]
    exact hout p hold
  · obtain ⟨c, hc, hrun, huser, hcall⟩ := step_call hstep
    obtain rfl := Option.some.inj hcall
    obtain ⟨hwaits, hsync, hio⟩ := inUser_iff.mp huser
    obtain ⟨hio', hsync', -⟩ := kernelDelay_objects (m := m) n
    refine bed_eq_none.mpr ⟨?_, ?_, ?_⟩
    · rw [(trades_kernelDelay hrun h.sound.idle_not_mem n).waits]
      exact hwaits
    · rw [hsync']
      exact hsync
    · rw [hio']
      exact hio

/-! ## Every queue -/

omit [Paging] [DecidableEq Addr] in
/-- **Whoever is on a queue** is inside the call that sleeps there, or inside
none on `procs->delayed`. -/
theorem bed_of_asleep (h : m.Lawful) (hio : m.IoAsleep) (hapart : m.IoApart)
    (hdelayed : m.DelayedOut) {q : Bed} (hq : q.InRange) (hp : p ∈ m.asleep q) :
    m.bed p = some q ∨ q = .delayed ∧ m.bed p = none := by
  have honIo : ∀ f : IoFrame, f.InRange → p ∈ m.io.asleep f → m.bed p = some f.bed := by
    intro f hf hin
    obtain ⟨g, hg, hbed⟩ := hio f hf p hin
    obtain ⟨hwaits, hsync⟩ := (hapart p).resolve_left (by simp [hg])
    unfold bed
    rw [hwaits, hsync, hg, ← hbed]
  have honSync : ∀ f : SyncFrame, m.sync.frame p = some f → m.bed p = some f.bed := by
    intro f hf
    have hwaits := (h.apart p).resolve_right (by simp [hf])
    unfold bed
    rw [hwaits, hf]
  cases q with
  | waiting =>
    obtain ⟨hw, -⟩ := h.sound.kindred.asleep p hp
    obtain ⟨statusPtr, hw⟩ := Option.isSome_iff_exists.mp hw
    left
    unfold bed
    rw [hw]
  | delayed => exact Or.inr ⟨rfl, hdelayed p hp⟩
  | readers pipe => exact Or.inl (honIo (.pipeRead pipe 0 0) trivial hp)
  | writers pipe => exact Or.inl (honIo (.pipeWrite pipe ⟨fun _ => 0, 0, 0, 0, 0⟩) trivial hp)
  | lock id =>
    obtain ⟨waited, hf⟩ := (h.law.lock id).blocked p hp
    exact Or.inl (honSync _ hf)
  | cvar id =>
    obtain ⟨lock, since, serial, hf, -⟩ := (h.law.cvar id).asleep p hp
    exact Or.inl (honSync _ hf)
  | input tty => exact Or.inl (honIo (.ttyRead tty 0 0) hq hp)
  | out tty => exact Or.inl (honIo (.ttyWrite tty ⟨fun _ => 0, 0, 0, 0⟩) hq hp)

omit [Paging] [DecidableEq Addr] in
/-- **Who has a seat** is on the processor, ready, or on one of the
queues. -/
theorem seated_cases (hn : m.Numbered) (hp : 0 < m.seats p) :
    m.kernel.procs.Awake p ∨ ∃ q : Bed, q.InRange ∧ p ∈ m.asleep q := by
  rw [← count_queues, List.count_pos_iff, List.mem_flatten] at hp
  obtain ⟨l, hl, hp⟩ := hp
  rcases List.mem_cons.mp hl with rfl | hl
  · left
    right
    unfold ProcTable.onProcessor at hp
    split at hp
    · cases hp
    · exact List.mem_singleton.mp hp
  unfold queues at hl
  rw [List.mem_append, List.mem_append, List.mem_append, List.mem_append] at hl
  rcases hl with (((hl | hl) | hl) | hl) | hl
  · simp only [List.mem_cons, List.not_mem_nil, or_false] at hl
    rcases hl with rfl | rfl | rfl
    · exact Or.inl (Or.inl hp)
    · exact Or.inr ⟨.waiting, trivial, hp⟩
    · exact Or.inr ⟨.delayed, trivial, hp⟩
  · obtain ⟨r, hr, hl⟩ := List.mem_flatMap.mp hl
    have hat := Io.pipeAt_eq (Filed.find_of_mem hn.pipe_nodup hr)
    simp only [List.mem_cons, List.not_mem_nil, or_false] at hl
    rcases hl with rfl | rfl
    · refine Or.inr ⟨.readers r.code, trivial, ?_⟩
      show p ∈ (m.io.pipeAt r.code).readblocked
      rwa [hat]
    · refine Or.inr ⟨.writers r.code, trivial, ?_⟩
      show p ∈ (m.io.pipeAt r.code).writeblocked
      rwa [hat]
  · obtain ⟨r, hr, rfl⟩ := List.mem_map.mp hl
    have hat := Sync.lockAt_eq (Filed.find_of_mem hn.lock_nodup hr)
    refine Or.inr ⟨.lock r.code, trivial, ?_⟩
    show p ∈ (m.sync.lockAt r.code).blocked
    rwa [hat]
  · obtain ⟨r, hr, rfl⟩ := List.mem_map.mp hl
    have hat := Sync.waiters_eq (Filed.find_of_mem hn.cvar_nodup hr)
    refine Or.inr ⟨.cvar r.code, trivial, ?_⟩
    show p ∈ m.sync.waiters r.code
    rwa [hat]
  · obtain ⟨tty, htty, hl⟩ := List.mem_flatMap.mp hl
    rw [List.mem_range] at htty
    have hrange : (0 : ℤ) ≤ tty ∧ (tty : ℤ) < Devices.numTerminals := by omega
    simp only [List.mem_cons, List.not_mem_nil, or_false] at hl
    rcases hl with rfl | rfl
    · exact Or.inr ⟨.input tty, hrange, hp⟩
    · exact Or.inr ⟨.out tty, hrange, hp⟩

end Apart

/-! ## Who is inside a call lives -/

section Lives

variable [Paging] [Devices] [DecidableEq Node] [DecidableEq Addr]

omit [Devices] in
/-- **Who acts outlives it**, except where the act ends it, which is none
inside `KernelWait`. -/
theorem outlives_effect {k k' : Kernel Node Addr} {c : Proc Node Addr} {kin : Kin Node Addr}
    {act : ProcAct Node Addr} (h : k.Kindred) (hc : k.curr = some c) (hkin : c.kin = some kin)
    (heff : Effect k c kin act k') :
    k'.alive k.procs.running = true ∨ act ≠ .resume ∧ k'.waits = k.waits := by
  have halive : k.alive k.procs.running = true := alive_iff.mpr ⟨c, kin, hc, hkin⟩
  cases heff.move hc with
  | kept _ _ hfamily => exact Or.inl ((alive_congr hfamily _).trans halive)
  | forked child data pid hchild hdata =>
    exact Or.inl ((alive_forked data pid hc hkin hchild _).mpr (Or.inl halive))
  | exited _ k₁ _ c₁ status hc₁ hm hfamily hprocs hwaits hout hstatus hexit =>
    exact Or.inr ⟨hout, (kernelExit_leaves hexit).1.waits.trans hwaits⟩
  | asleep => exact Or.inl halive
  | collected _ statusPtr child rest childPcb hin hd hchild =>
    exact Or.inl ((alive_collected childPcb statusPtr h hc hkin hd _).trans halive)

/-- **Nobody else ends.** -/
theorem alive_step (hs : m.Sound) (he : e.InRange) (hstep : m.step e = some t)
    (hp : p ≠ m.kernel.procs.running) (halive : m.kernel.alive p = true) :
    t.kernel.alive p = true := by
  rcases step_kinds hs he hstep with ⟨c, kin, act, k', hc, hkin, hrun, he', hout, heff, rfl⟩ |
    ⟨ht, -⟩ | ⟨-, hkernel, -⟩
  · have hk : (m.kernel.onStack c).Kindred := hs.kindred.congr rfl rfl rfl rfl
    obtain ⟨c₀, kin₀, hc₀, hkin₀⟩ := alive_iff.mp halive
    obtain ⟨c', hc', hlives, -⟩ := heff.survives hk hc hkin hc₀ (by rw [hkin₀]; rfl) (Or.inl hp)
    obtain ⟨kin', hkin'⟩ := Option.isSome_iff_exists.mp hlives
    exact alive_iff.mpr ⟨c', kin', hc', hkin'⟩
  · rw [alive_congr ht.proc]
    exact halive
  · rw [hkernel]
    exact halive

omit [Paging] [Devices] [DecidableEq Node] [DecidableEq Addr] in
/-- **Who is inside a call lives.** -/
def InsideLives (m : Machine Node Addr) : Prop := ∀ p, m.bed p ≠ none → m.kernel.alive p = true

theorem insideLives_step (hlives : m.InsideLives) (h : m.Lawful) (he : e.InRange)
    (hstep : m.step e = some t) : t.InsideLives := by
  intro p hp
  rcases eq_or_ne p m.kernel.procs.running with rfl | hne
  · rcases step_kinds h.sound he hstep with
      ⟨c, kin, act, k', hc, hkin, hrun, he', hout, heff, rfl⟩ | ⟨ht, -⟩ | ⟨-, hkernel, -⟩
    · have hk : (m.kernel.onStack c).Kindred := h.sound.kindred.congr rfl rfl rfl rfl
      refine (outlives_effect hk hc hkin heff).resolve_right fun ⟨hact, hwaits⟩ => hp ?_
      -- whoever ends was in user mode, and enters nothing
      have huser : m.inUser = true := by
        refine (step_inUser hstep).resolve_left fun heq => ?_
        rcases he' with rfl | ⟨-, hback⟩
        · cases heq
        · exact hact hback
      have hsame : Machine.bed { m with kernel := k' } m.kernel.procs.running =
          m.bed m.kernel.procs.running := bed_congr (congrFun hwaits _) rfl rfl
      exact hsame.trans (bed_eq_none.mpr (inUser_iff.mp huser))
    · rw [alive_congr ht.proc]
      exact h.sound.running_alive
    · rw [hkernel]
      exact h.sound.running_alive
  · rw [bed_step h he hstep hne] at hp
    exact alive_step h.sound he hstep hne (hlives p hp)

/-! ## Who is stranded -/

omit [Paging] [Devices] [DecidableEq Node] [DecidableEq Addr] in
/-- **The condition variable of an id was destroyed.** -/
def CvarGone (m : Machine Node Addr) (id : ℤ) : Prop :=
  id < m.count ∧ id ∉ m.sync.cvar.map Filed.code

/-- Its id is not given out again. -/
theorem cvarGone_step {id : ℤ} (hgone : m.CvarGone id) (h : m.Lawful) (he : e.InRange)
    (hstep : m.step e = some t) : t.CvarGone id := by
  obtain ⟨hlt, hnot⟩ := hgone
  cases onIds h he hstep with
  | kept _ _ _ hpipe hlock hcvar hcount =>
    unfold CvarGone
    rw [hcvar, hcount]
    exact ⟨hlt, hnot⟩
  | made c s r hc hinit =>
    unfold CvarGone
    rcases hinit.made.filed with ⟨hcount, hsync, -⟩ |
      ⟨hcount, ⟨hsync, -⟩ | ⟨-, hsync | ⟨second, hsync⟩⟩⟩
    · rw [hcount, hsync]
      exact ⟨hlt, hnot⟩
    · rw [hcount, hsync]
      exact ⟨by omega, hnot⟩
    · rw [hcount, hsync]
      exact ⟨by omega, hnot⟩
    · rw [hcount, hsync]
      refine ⟨by omega, ?_⟩
      dsimp only
      rw [List.map_append, List.map_singleton, List.mem_append, List.mem_singleton, not_or]
      exact ⟨hnot, ne_of_lt hlt⟩
  | reclaimed c id' size hc =>
    unfold CvarGone kernelReclaim
    cases Filed.find m.io.pipe id' with
    | some pipe =>
      dsimp only
      unfold destroyPipe
      split <;> exact ⟨hlt, hnot⟩
    | none =>
      cases Filed.find m.sync.cvar id' with
      | some cvar =>
        dsimp only
        unfold Sync.destroyCvar
        split
        · exact ⟨hlt, hnot⟩
        · refine ⟨hlt, fun hin => hnot ?_⟩
          exact (Filed.remove_sublist.map Filed.code).subset hin
      | none =>
        cases Filed.find m.sync.lock id' with
        | some lock =>
          dsimp only
          unfold Sync.destroyLock
          split <;> exact ⟨hlt, hnot⟩
        | none => exact ⟨hlt, hnot⟩

omit [Paging] [DecidableEq Addr] in
/-- **Who loses a seat to a reclaim** sat on a condition variable. -/
theorem kernelReclaim_held (hn : m.Numbered) (id : ℤ) (size : ℤ → ℤ) (n : Node) :
    (m.kernelReclaim id size).1.held n = m.held n ∨
    (m.kernelReclaim id size).1.held n < m.held n ∧ n ∈ m.sync.waiters id ∧
      (m.kernelReclaim id size).1.CvarGone id := by
  unfold kernelReclaim
  cases hp : Filed.find m.io.pipe id with
  | some pipe =>
    left
    dsimp only
    unfold destroyPipe
    split
    · rfl
    · rename_i hunused
      rw [not_or, not_or, not_not, not_not] at hunused
      have htotal := Filed.total_remove (f := fun p : Pipe Node => p.held n) hp
      have hzero : pipe.held n = 0 := by
        unfold Pipe.held
        rw [hunused.1, hunused.2.1]
        rfl
      unfold Machine.held Io.held
      dsimp only
      omega
  | none =>
    cases hc : Filed.find m.sync.cvar id with
    | some cvar =>
      dsimp only
      unfold Sync.destroyCvar
      split
      · exact Or.inl rfl
      · have htotal := Filed.total_remove (f := fun c : Cvar Node => c.blocked.count n) hc
        by_cases hin : n ∈ cvar.blocked
        · right
          have hpos := List.count_pos_iff.mpr hin
          refine ⟨?_, ?_, ?_⟩
          · unfold Machine.held Sync.held
            dsimp only
            omega
          · rwa [Sync.waiters_eq hc]
          · have hmem : id ∈ m.sync.cvar.map Filed.code := by
              rw [← Filed.isSome_find, hc]
              rfl
            refine ⟨hn.below id (List.mem_append_right _ hmem), ?_⟩
            dsimp only
            rw [Filed.map_code_remove]
            exact hn.cvar_nodup.not_mem_erase
        · left
          have hzero : cvar.blocked.count n = 0 := List.count_eq_zero.mpr hin
          unfold Machine.held Sync.held
          dsimp only
          omega
    | none =>
      left
      cases hl : Filed.find m.sync.lock id with
      | some lock =>
        dsimp only
        unfold Sync.destroyLock
        split
        · rfl
        · rename_i hunused
          rw [not_or, not_or, not_not] at hunused
          have htotal := Filed.total_remove (f := fun l : Lock Node => l.blocked.count n) hl
          have hzero : lock.blocked.count n = 0 := by
            rw [hunused.2.1]
            rfl
          unfold Machine.held Sync.held
          dsimp only
          omega
      | none => rfl

omit [Paging] [DecidableEq Addr] in
/-- **Asleep on a condition variable that was destroyed**, and in no place
where anybody looks. -/
def Stranded (m : Machine Node Addr) (p : Node) : Prop :=
  m.seats p = 0 ∧ ∃ id lock since, m.sync.frame p = some (.waiting id lock since) ∧ m.CvarGone id

/-- **What a run keeps** of who sleeps where. -/
structure Bedded (m : Machine Node Addr) : Prop where
  kept : m.Kept
  io : m.IoAsleep
  apart : m.IoApart
  delayed : m.DelayedOut
  lives : m.InsideLives
  seats : ∀ n, m.seats n = m.kernel.due n ∨ m.Stranded n

omit [Paging] [DecidableEq Addr] in
/-- Who is inside a call is to have a seat. -/
theorem Bedded.due (h : m.Bedded) (hp : m.bed p ≠ none) : m.kernel.due p = 1 := by
  refine if_pos ⟨h.lives p hp, ?_⟩
  rintro rfl
  exact hp (bed_eq_none.mpr h.kept.idle)

/-- **Nobody comes back for the stranded.** -/
theorem Bedded.stranded (h : m.Bedded) (he : e.InRange) (hstep : m.step e = some t)
    (hp : m.Stranded p) : t.Stranded p := by
  obtain ⟨hseats, id, lock, since, hframe, hgone⟩ := hp
  have hbed : m.bed p ≠ none := fun hnone => by
    rw [(bed_eq_none.mp hnone).2.1] at hframe
    cases hframe
  have hne : p ≠ m.kernel.procs.running := by
    rintro rfl
    have hrun : m.kernel.procs.running ≠ m.kernel.procs.idleNode := by
      intro hidle
      refine hbed ?_
      rw [hidle]
      exact bed_eq_none.mpr h.kept.idle
    have hone := (h.kept.lawful.sound.seats_running hrun).1
    omega
  refine ⟨?_, id, lock, since, ?_, cvarGone_step hgone h.kept.lawful he hstep⟩
  · have hdue := h.due hbed
    rcases (step_owes h.kept.lawful.sound he hstep).2 with hreclaims | howes
    · cases e with
      | call s =>
        cases s with
        | reclaim id size =>
          obtain ⟨c, -, -, -, hcall⟩ := step_call hstep
          obtain rfl := Option.some.inj hcall
          obtain ⟨hkernel, -, hheld⟩ := kernelReclaim_fewer (m := m) id size
          have hle := hheld p
          unfold Machine.seats at hseats ⊢
          rw [hkernel]
          omega
        | _ => exact hreclaims.elim
      | _ => exact hreclaims.elim
    · have howes := howes p
      have hle := due_le t.kernel p
      omega
  · rw [(onSync h.kept.lawful he hstep).frame_of_ne h.kept.lawful hne]
    exact hframe

theorem bedded_step (h : m.Bedded) (he : e.InRange) (hstep : m.step e = some t) : t.Bedded where
  kept := kept_step h.kept he hstep
  io := ioAsleep_step h.io h.kept.lawful hstep
  apart := ioApart_step h.apart h.kept.lawful he hstep
  delayed := delayedOut_step h.delayed h.kept.lawful he hstep
  lives := insideLives_step h.lives h.kept.lawful he hstep
  seats n := by
    rcases h.seats n with hseats | hstranded
    · rcases (step_owes h.kept.lawful.sound he hstep).2 with hreclaims | howes
      · cases e with
        | call s =>
          cases s with
          | reclaim id size =>
            obtain ⟨c, -, -, -, hcall⟩ := step_call hstep
            obtain rfl := Option.some.inj hcall
            have hkernel := (kernelReclaim_fewer (m := m) id size).1
            have hle := due_le m.kernel n
            rcases kernelReclaim_held h.kept.lawful.numbered id size n with
              hheld | ⟨hheld, hin, hgone⟩
            · left
              unfold seats at hseats ⊢
              rw [hkernel, hheld]
              exact hseats
            · right
              refine ⟨?_, ?_⟩
              · unfold seats at hseats ⊢
                rw [hkernel]
                omega
              · obtain ⟨lock, since, serial, hf, -⟩ := (h.kept.lawful.law.cvar id).asleep n hin
                refine ⟨id, lock, since, ?_, hgone⟩
                rw [(kernelReclaim_sync h.kept.lawful.numbered id size).1]
                exact hf
          | _ => exact hreclaims.elim
        | _ => exact hreclaims.elim
      · have := howes n
        left
        omega
    · exact Or.inr (h.stranded he hstep hstranded)

theorem start_bedded {b : Boot Node Addr} (hb : start b = some m) : m.Bedded := by
  have hkept := start_kept hb
  obtain ⟨-, hseats⟩ := start_sound hb
  obtain ⟨k, hk, rfl⟩ := Option.map_eq_some_iff.mp hb
  obtain ⟨-, -, -, -, -, hwaits⟩ := kernelStart_family hk
  have hbed : ∀ p, Machine.bed ⟨k, 0, Sync.init, Io.init⟩ p = none :=
    fun p => bed_eq_none.mpr ⟨congrFun hwaits p, rfl, rfl⟩
  refine ⟨hkept, fun f _ p hp => ?_, fun p => Or.inl rfl, fun p _ => hbed p,
    fun p hp => absurd (hbed p) hp, fun n => Or.inl (hseats n)⟩
  cases f <;> exact absurd hp List.not_mem_nil

/-- **Everybody is where its call put it**, or stranded. Who is inside a call
is on its way back or on the queue of that call; who is on a queue is inside
the call that sleeps there, or delayed; and who lives is on the processor,
ready, or on a queue. -/
structure Housed (m : Machine Node Addr) : Prop where
  found : ∀ p q, m.bed p = some q → m.kernel.procs.Awake p ∨ p ∈ m.asleep q ∨ m.Stranded p
  inside : ∀ q : Bed, q.InRange → ∀ p ∈ m.asleep q,
    m.bed p = some q ∨ q = .delayed ∧ m.bed p = none
  lives : ∀ p c, m.kernel.proc p = some c → c.kin.isSome → p ≠ m.kernel.procs.idleNode →
    m.kernel.procs.Awake p ∨ (∃ q : Bed, q.InRange ∧ p ∈ m.asleep q) ∨ m.Stranded p

omit [Paging] [DecidableEq Addr] in
theorem Bedded.housed (h : m.Bedded) : m.Housed := by
  have hinside : ∀ q : Bed, q.InRange → ∀ p ∈ m.asleep q,
      m.bed p = some q ∨ q = .delayed ∧ m.bed p = none :=
    fun q hq p hp => bed_of_asleep h.kept.lawful h.io h.apart h.delayed hq hp
  have hseated : ∀ p, m.kernel.due p = 1 → m.kernel.procs.Awake p ∨
      (∃ q : Bed, q.InRange ∧ p ∈ m.asleep q) ∨ m.Stranded p := by
    intro p hdue
    rcases h.seats p with hseats | hstranded
    · exact (seated_cases h.kept.lawful.numbered (by omega)).imp_right Or.inl
    · exact Or.inr (Or.inr hstranded)
  refine ⟨fun p q hbed => ?_, hinside, fun p c hc hkin hne => hseated p ?_⟩
  · refine (hseated p (h.due (by simp [hbed]))).imp_right (Or.imp_left ?_)
    rintro ⟨q', hq', hp⟩
    -- a process is inside one call, which says where it sleeps
    rcases hinside q' hq' p hp with hsame | ⟨-, hnone⟩
    · rw [hbed] at hsame
      rwa [Option.some.inj hsame]
    · rw [hbed] at hnone
      cases hnone
  · obtain ⟨kin, hkin⟩ := Option.isSome_iff_exists.mp hkin
    exact if_pos ⟨alive_iff.mpr ⟨c, kin, hc, hkin⟩, hne⟩

section Runs

variable {b : Boot Node Addr} {es : List (Event Node Addr)}

theorem throughout_bedded (hb : start b = some m) (hes : ∀ e ∈ es, e.InRange) :
    Run.Throughout step Bedded m es :=
  Run.throughout_of_step (fun _ e he _ hs ht => bedded_step hs (hes e he) ht) (start_bedded hb)

/-- **Everybody sleeps where its call put it**, in any run, but for who
waited on a condition variable when it was destroyed; and they are stranded
for good. -/
theorem asleep_in_place (hb : start b = some m) (hes : ∀ e ∈ es, e.InRange) :
    Run.Throughout step Housed m es ∧
      Run.Along step (fun s e => ∀ t p, s.step e = some t → s.Stranded p → t.Stranded p) m es := by
  have hall := throughout_bedded hb hes
  refine ⟨hall.mono fun _ hs => hs.housed, hall.along fun s e he hs t p hstep hp => ?_⟩
  exact hs.stranded (hes e he) hstep hp

end Runs

omit [Paging] [Devices] in
/-- Init's child sleeps in `CvarWait`, init reclaims the condition variable,
makes another and signals it. -/
theorem asleep_in_place_stranded :
    let _ := yalnixPaging
    let _ := yalnixDevices
    let es : List (Event ℕ ℕ) := [.call (.cvarInit 0x1ff000 7), .call (.lockInit 0x1ff000),
      .call (.proc (.fork 2 2 2)), .clock, .call (.sync (.acquire 1)),
      .call (.sync (.cvarWait 0 1)), .call (.reclaim 0 fun _ => 0),
      .call (.cvarInit 0x1ff000 7), .call (.sync (.cvarSignal 2)), .clock]
    ∃ m u : Machine ℕ ℕ, start (smallBoot 140) = some m ∧ Run.exec step m es = some u ∧
      (u.sync.frame 2).isSome ∧ 2 ∉ u.kernel.procs.ready ∧ u.sync.waiters 0 = [] ∧
      Run.Throughout step Housed m es ∧
      Run.Along step (fun s e => ∀ t p, s.step e = some t → s.Stranded p → t.Stranded p) m es := by
  let _ := yalnixPaging
  let _ := yalnixDevices
  intro _ _ es
  have hruns : ((start (smallBoot 140)).bind fun m => (Run.exec step m es).map fun u =>
      ((u.sync.frame 2).isSome, decide (2 ∉ u.kernel.procs.ready), u.sync.waiters 0)) =
      some (true, true, []) := by
    decide +kernel
  obtain ⟨m, hm, hruns⟩ := Option.bind_eq_some_iff.mp hruns
  obtain ⟨u, hu, heq⟩ := Option.map_eq_some_iff.mp hruns
  simp only [Prod.mk.injEq, decide_eq_true_eq] at heq
  obtain ⟨hinside, hasleep, hgone⟩ := heq
  exact ⟨m, u, hm, hu, hinside, hasleep, hgone,
    asleep_in_place hm (by simp [es, Event.InRange])⟩

end Lives

end Machine

end Yalnix
