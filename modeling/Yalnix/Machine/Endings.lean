import Yalnix.Machine.Places
import Yalnix.Pilocvario.Sync.Steps
import Yalnix.Process.Contexts
/-!
# How a handler ends

An event of the machine is a trap handler, or what is left of one, up to its
return to user mode or to the `run_next` that gives the processor to somebody
else. `Machine.ending` says which, with the value for `add_return_val`. Where
the handler returns, the process that is running is the one that was; where
it does not, the machine has been handed to the process that is running now.
-/

namespace Yalnix

variable {Node Addr : Type} {κ : Type}

/-- **The end of an activation of a handler**: a return, with the value for
`add_return_val` if there is one, or a call of `run_next`. -/
inductive Ending where
  | returns (r : Option ℤ)
  | runNext

/-- The end of a system call: `block` and `h_block` end in `run_next`. -/
def Outcome.ending : Outcome κ → Ending
  | .returned r => .returns (some r)
  | .blocked _ => .runNext

/-- A call on locks and condition variables either leaves a frame or notes
its result last. -/
def Sync.ending (y : Sync Node) (p : Node) : Ending :=
  if (y.frame p).isSome then .runNext
  else
    match y.log.getLast? with
    | some (.returns _ _ r) => .returns (some r)
    | _ => .returns none

section Kernel

variable [Paging] [DecidableEq Node] [DecidableEq Addr]

/-- How an action of the process `p` ends. An exit ends in `graveyard`, which
calls `run_next_ready`; an `Exec` that is done has no value to add. -/
def Kernel.ending (k : Kernel Node Addr) (p : Node) : ProcAct Node Addr → Option Ending
  | .fork child data pid => (kernelFork k child data pid).map fun r => .returns (some r.2)
  | .exec filename argvec env => (kernelExec k filename argvec env).map fun r =>
    if ¬ r.1.alive p then .runNext
    else if r.2 = successCode then .returns none
    else .returns (some r.2)
  | .exit status => (kernelExit k status).map fun _ => .runNext
  | .wait statusPtr => (kernelWait k statusPtr).map fun r => r.2.ending
  | .brk addr => (kernelUserBrk k addr).map fun r => .returns (some r.2)
  | .fault addr => (trapMemory k addr).map fun k' =>
    if k'.alive p then .returns none else .runNext
  | .store _ _ => some (.returns none)
  | .resume => (k.waits p).bind fun statusPtr =>
    (waitLoop k statusPtr).map fun r => r.2.ending

end Kernel

namespace Machine

variable [Paging] [Devices] [DecidableEq Node] [DecidableEq Addr]

open Devices

/-- How a system call ends. -/
def callEnding (m : Machine Node Addr) (c : Proc Node Addr) : Syscall Node Addr → Option Ending
  | .proc act => (m.kernel.onStack c).ending m.kernel.procs.running act
  | .delay clockTicks => some (m.kernelDelay clockTicks).2.ending
  | .ttyRead tty buf len => some (m.kernelTtyRead c.userpt.pt tty buf len).2.ending
  | .ttyWrite tty buf len => some (m.kernelTtyWrite c.userpt.pt tty buf len).2.ending
  | .pipeInit pipeIdp => some (.returns (some (m.kernelPipeInit c.userpt.pt pipeIdp).2))
  | .pipeRead pipe buf len => some (m.kernelPipeRead c.userpt.pt pipe buf len).2.ending
  | .pipeWrite pipe buf len total =>
    some (m.kernelPipeWrite c.userpt.pt pipe buf len total).2.ending
  | .lockInit lockIdp => some (.returns (some (m.kernelLockInit c.userpt.pt lockIdp).2))
  | .cvarInit cvarIdp second =>
    some (.returns (some (m.kernelCvarInit c.userpt.pt cvarIdp second).2))
  | .sync call =>
    some ((m.sync.call m.kernel.procs c.serial call).2.ending m.kernel.procs.running)
  | .reclaim id size => some (.returns (some (m.kernelReclaim id size).2))

omit [Devices] in
/-- How what is left of a call ends. -/
def resumeEnding (m : Machine Node Addr) (c : Proc Node Addr) : Option Ending :=
  let p := m.kernel.procs.running
  match m.kernel.waits p, m.sync.frame p, m.io.frame p with
  | some _, _, _ => (m.kernel.onStack c).ending p .resume
  | none, some f, _ => (m.sync.resume m.kernel.procs c.serial f).map fun r => r.2.ending p
  | none, none, some f => (m.resumeIo c.userpt.pt f).map fun r => r.2.ending
  | none, none, none => none

/-- **How an event ends.** `rr_preempt` is the last thing `TrapClock` does
before it restores a context, and the traps of the terminals give up
nothing. -/
def ending (m : Machine Node Addr) : Event Node Addr → Option Ending
  | .call call => m.kernel.curr.bind fun c => m.callEnding c call
  | .resume => m.kernel.curr.bind fun c => m.resumeEnding c
  | .clock =>
    some (if (checkDelay m.kernel).procs.ready = [] then .returns none else .runNext)
  | .ttyReceive _ _ _ => some (.returns none)
  | .ttyTransmit _ => some (.returns none)

end Machine

/-- The event is a call of `Exec`. -/
def Event.IsExec : Event Node Addr → Prop
  | .call (.proc act) => act.IsExec
  | _ => False

/-- The handler adds a value: `TrapKernel` does, and it is entered by calls
only. -/
def Event.adds : Event Node Addr → Bool
  | .call (.proc (.fault _)) => false
  | .call (.proc (.store _ _)) => false
  | .call _ => true
  | .resume => true
  | _ => false

/-! ## A handler that returns -/

section Functions

variable [DecidableEq Node] {procs : ProcTable Node} {r : Option ℤ}

omit [DecidableEq Node] in
@[simp] theorem ending_returned (v : ℤ) :
    (Outcome.returned v : Outcome κ).ending = .returns (some v) := rfl

omit [DecidableEq Node] in
@[simp] theorem ending_blocked (f : κ) : (Outcome.blocked f).ending = .runNext := rfl

omit [DecidableEq Node] in
@[simp] theorem ending_map {κ' : Type} (f : κ → κ') (out : Outcome κ) :
    (out.map f).ending = out.ending := by
  cases out <;> rfl

omit [DecidableEq Node] in
theorem unblockHead_running (procs : ProcTable Node) (q : List Node) :
    (unblockHead procs q).1.running = procs.running := by
  cases q <;> rfl

omit [DecidableEq Node] in
theorem readPipe_running {pipe : Pipe Node} {len : ℤ}
    (h : (readPipe procs pipe len).2.2.2.ending = .returns r) :
    (readPipe procs pipe len).1.running = procs.running := by
  unfold readPipe at h ⊢
  dsimp only at h ⊢
  split
  · rename_i hnone
    rw [if_pos hnone] at h
    cases h
  · split
    · exact unblockAll_running _ _
    · rfl

omit [DecidableEq Node] in
theorem writePipe_running {pipe : Pipe Node} {f : WriteFrame}
    (h : (writePipe procs pipe f).2.2.ending = .returns r) :
    (writePipe procs pipe f).1.running = procs.running := by
  unfold writePipe at h ⊢
  dsimp only at h ⊢
  split
  · rename_i hfull
    rw [if_pos hfull] at h
    cases h
  · split
    · exact unblockAll_running _ _
    · rfl

omit [DecidableEq Node] in
theorem readTty_running {inp : Ttyio Node} {len : ℤ}
    (h : (readTty procs inp len).2.2.2.ending = .returns r) :
    (readTty procs inp len).1.running = procs.running := by
  unfold readTty at h ⊢
  dsimp only at h ⊢
  split
  · rename_i hnone
    rw [if_pos hnone] at h
    cases h
  · rfl

omit [DecidableEq Node] in
theorem writeTty_running {out : Ttyio Node} {f : TtyFrame}
    (h : (writeTty procs out f).2.2.2.ending = .returns r) :
    (writeTty procs out f).1.running = procs.running := by
  unfold writeTty at h ⊢
  split
  · rename_i hmore
    rw [if_pos hmore] at h
    split at h <;> cases h
  · exact unblockHead_running _ _

theorem release_running (procs : ProcTable Node) (lock : Lock Node) :
    (release procs lock).1.running = procs.running := by
  unfold release
  split
  · rfl
  · split
    · exact unblockHead_running _ _
    · rfl

namespace Sync

variable {y : Sync Node} {serial : ℕ}

omit [DecidableEq Node] in
/-- A call that has left a frame has given up the processor. -/
theorem ending_of_frame {p : Node} {f : SyncFrame} (h : y.frame p = some f) :
    y.ending p = .runNext :=
  if_pos (by rw [h]; rfl)

/-- `acquire` returns with the lock, or leaves a frame. -/
theorem runAcquire_running {id : ℤ} {l : Lock Node} {waited : Option ℤ}
    (h : (y.runAcquire procs serial id l waited).2.ending procs.running = .returns r) :
    (y.runAcquire procs serial id l waited).1.running = procs.running := by
  unfold runAcquire acquire at h ⊢
  by_cases hfree : ¬ (l.owner = none ∨ l.owner = some procs.running)
  · rw [if_pos hfree] at h
    rw [ending_of_frame (Function.update_self _ _ _)] at h
    cases h
  · rw [if_neg hfree]

omit [DecidableEq Node] in
/-- What has been noted last is what the call returns. -/
theorem ending_noted {p : Node} {q : Node × ℕ} {c : SyncCall} {v : ℤ} {l : List (Note (Node × ℕ))}
    (hlog : y.log = l ++ [.returns q c v]) (h : y.ending p = .returns r) : r = some v := by
  unfold Sync.ending at h
  split at h
  · cases h
  · rw [hlog, List.getLast?_concat] at h
    cases h
    rfl

theorem runAcquire_returns {id : ℤ} {l : Lock Node} {waited : Option ℤ}
    (h : (y.runAcquire procs serial id l waited).2.ending procs.running = .returns r) :
    ∃ v, r = some v := by
  by_cases hfree : ¬ (l.owner = none ∨ l.owner = some procs.running)
  · unfold runAcquire acquire at h
    rw [if_pos hfree, ending_of_frame (Function.update_self _ _ _)] at h
    cases h
  · unfold runAcquire acquire at h
    rw [if_neg hfree] at h
    exact ⟨_, ending_noted rfl h⟩

theorem call_returns {c : SyncCall}
    (h : (y.call procs serial c).2.ending procs.running = .returns r) : ∃ v, r = some v := by
  have hcall := y.called procs serial c
  generalize y.call procs serial c = res at hcall h
  cases hcall with
  | acquire id lock => exact runAcquire_returns h
  | cvarWait cvarId id lock cvar =>
    rw [ending_of_frame (Function.update_self _ _ _)] at h
    cases h
  | _ => exact ⟨_, ending_noted rfl h⟩

theorem resume_returns {f : SyncFrame} {res : ProcTable Node × Sync Node}
    (hr : y.resume procs serial f = some res) (h : res.2.ending procs.running = .returns r) :
    ∃ v, r = some v := by
  cases cameBack hr with
  | waiting cvarId id since lock => exact runAcquire_returns h
  | acquiring id waited lock => exact runAcquire_returns h

theorem call_running {c : SyncCall}
    (h : (y.call procs serial c).2.ending procs.running = .returns r) :
    (y.call procs serial c).1.running = procs.running := by
  have hcall := y.called procs serial c
  generalize y.call procs serial c = res at hcall h ⊢
  cases hcall with
  | refused => rfl
  | acquire id lock => exact runAcquire_running h
  | release id lock => exact release_running procs lock
  | cvarWait cvarId id lock cvar =>
    rw [ending_of_frame (Function.update_self _ _ _)] at h
    cases h
  | cvarSignal id cvar =>
    dsimp only
    unfold signalCvar
    split
    · exact unblockHead_running _ _
    · rfl
  | cvarBroadcast id cvar =>
    dsimp only
    unfold broadcast
    split
    · exact unblockAll_running _ _
    · rfl

theorem resume_running {f : SyncFrame} {res : ProcTable Node × Sync Node}
    (hr : y.resume procs serial f = some res) (h : res.2.ending procs.running = .returns r) :
    res.1.running = procs.running := by
  cases cameBack hr with
  | waiting cvarId id since lock => exact runAcquire_running h
  | acquiring id waited lock => exact runAcquire_running h

end Sync

theorem checkDelayLoop_running (sleepers : List Node) (k : Kernel Node Addr) :
    (checkDelayLoop sleepers k).procs.running = k.procs.running := by
  induction sleepers generalizing k with
  | nil => rfl
  | cons curr rest ih =>
    unfold checkDelayLoop
    cases k.proc curr with
    | none => rfl
    | some c =>
      dsimp only
      split
      · show (unblockDelayed k.procs curr).running = _
        unfold unblockDelayed
        split <;> rfl
      · exact ih _

theorem keeps_checkDelayLoop (sleepers : List Node) {k : Kernel Node Addr} {S : Set Node} :
    Keeps k (checkDelayLoop sleepers k) S := by
  induction sleepers generalizing k with
  | nil => exact Keeps.refl k S
  | cons curr rest ih =>
    unfold checkDelayLoop
    cases k.proc curr with
    | none => exact Keeps.refl k S
    | some c =>
      have hmod : Keeps k (k.modify curr fun c => { c with code := c.code - 1 }) S :=
        keeps_modify (fun _ => rfl) (fun _ => rfl) (fun _ => rfl) fun _ => rfl
      dsimp only
      split
      · exact hmod.trans (Keeps.of_proc_eq rfl rfl)
      · exact hmod.trans ih

end Functions

section Acts

variable [Paging] [DecidableEq Node] [DecidableEq Addr] {k k' : Kernel Node Addr} {n : Node}
  {c : Proc Node Addr} {kin : Kin Node Addr} {act : ProcAct Node Addr} {r : Option ℤ}

/-- The loop of `KernelWait` returns with a child, the processor kept. -/
theorem waitLoop_running {statusPtr : ℤ} {res : Kernel Node Addr × Outcome ℤ}
    (hc : k.curr = some c) (hkin : c.kin = some kin) (h : waitLoop k statusPtr = some res)
    (hend : res.2.ending = .returns r) : res.1.procs.running = k.procs.running := by
  rcases waitLoop_cases hc hkin h with ⟨-, rfl⟩ | ⟨child, rest, childPcb, -, -, rfl⟩
  · cases hend
  · dsimp only
    rw [collected_procs]

omit [Paging] [DecidableEq Addr] in
theorem leaveWait_procs (p : Node) (res : Kernel Node Addr × Outcome ℤ) :
    (Kernel.leaveWait p res).procs = res.1.procs := by
  obtain ⟨k, out⟩ := res
  cases out <;> rfl

/-- **An action that returns** leaves the processor where it was. -/
theorem act_running (hc : k.curr = some c) (hkin : c.kin = some kin)
    (h : k.act k.procs.running c act = some k')
    (hend : k.ending k.procs.running act = some (.returns r)) :
    k'.procs.running = k.procs.running := by
  unfold Kernel.act at h
  unfold Kernel.ending at hend
  cases act with
  | fork child data pid =>
    obtain ⟨res, hr, rfl⟩ := Option.map_eq_some_iff.mp (act_awake h).1
    rcases kernelFork_cases hc hr with ⟨-, rfl⟩ | ⟨-, -, -, rfl⟩ <;> rfl
  | exec filename argvec env =>
    obtain ⟨res, hr, rfl⟩ := Option.map_eq_some_iff.mp (act_awake h).1
    rcases kernelExec_cases hc hr with heq | ⟨args, l, hl, ⟨hcode, heq⟩ | ⟨hcode, hexit⟩⟩
    · rw [heq]
    · rw [heq]
      rfl
    -- a process that was killed does not return
    · have hdead : res.1.alive k.procs.running = false := by
        have hkilled := kernelExit_not_alive hexit
        exact hkilled
      dsimp only at hend
      rw [hr, Option.map_some, if_pos (by rw [hdead]; exact Bool.false_ne_true)] at hend
      cases hend
  | exit status =>
    obtain ⟨res, hr, heq⟩ := Option.map_eq_some_iff.mp hend
    cases heq
  | wait statusPtr =>
    obtain ⟨res, hr, rfl⟩ := Option.map_eq_some_iff.mp (act_awake h).1
    dsimp only at hend
    rw [hr, Option.map_some] at hend
    rw [leaveWait_procs]
    rcases kernelWait_cases hc hkin hr with
      ⟨-, -, rfl⟩ | ⟨-, ⟨-, -, rfl⟩ | ⟨-, hloop⟩⟩
    · rfl
    · rfl
    · exact waitLoop_running hc hkin hloop (Option.some.inj hend)
  | brk addr =>
    obtain ⟨res, hr, rfl⟩ := Option.map_eq_some_iff.mp (act_awake h).1
    rcases kernelUserBrk_set hc hr with heq | ⟨u, mem, heq⟩
    · rw [heq]
    · rw [heq]
      rfl
  | fault addr =>
    have hr := (act_awake h).1
    rcases trapMemory_set hc hr with hexit | ⟨u, mem, rfl⟩
    · have hdead := kernelExit_not_alive hexit
      dsimp only at hend
      rw [hr, Option.map_some, if_neg (by rw [hdead]; exact Bool.false_ne_true)] at hend
      cases hend
    · rfl
  | store addr byte =>
    dsimp only at h
    split at h
    · cases h
    · obtain rfl := Option.some.inj h
      rfl
  | resume =>
    dsimp only at h hend
    cases hw : k.waits k.procs.running with
    | none =>
      rw [hw] at h
      cases h
    | some statusPtr =>
      rw [hw] at h
      rw [hw, Option.bind_some] at hend
      obtain ⟨res, hr, rfl⟩ := Option.map_eq_some_iff.mp h
      rw [hr, Option.map_some] at hend
      rw [leaveWait_procs]
      exact waitLoop_running hc hkin hr (Option.some.inj hend)

/-- An action that can be taken ends. -/
theorem act_ending {p : Node} (h : k.act p c act = some k') :
    ∃ end', k.ending p act = some end' := by
  have hawake : ∀ {α : Type} {β : Type} {o : Option α} {f : α → β} {g : α → Kernel Node Addr},
      (if (k.waits p).isSome then none else o.map g) = some k' → ∃ b, o.map f = some b := by
    intro α β o f g ho
    split at ho
    · cases ho
    · obtain ⟨a, rfl, -⟩ := Option.map_eq_some_iff.mp ho
      exact ⟨f a, rfl⟩
  unfold Kernel.act at h
  unfold Kernel.ending
  cases act with
  | fork child data pid => exact hawake h
  | exec filename argvec env => exact hawake h
  | exit status => exact hawake (g := id) (by rw [Option.map_id]; exact h)
  | wait statusPtr => exact hawake h
  | brk addr => exact hawake h
  | fault addr => exact hawake (g := id) (by rw [Option.map_id]; exact h)
  | store addr byte => exact ⟨_, rfl⟩
  | resume =>
    dsimp only at h ⊢
    cases hw : k.waits p with
    | none =>
      rw [hw] at h
      cases h
    | some statusPtr =>
      rw [hw] at h
      obtain ⟨res, hr, -⟩ := Option.map_eq_some_iff.mp h
      exact ⟨res.2.ending, by rw [Option.bind_some, hr]; rfl⟩

omit [Paging] [DecidableEq Addr] [DecidableEq Node] in
/-- A block or a result: what returns has a value. -/
theorem Outcome.returns_value {out : Outcome κ} (h : out.ending = .returns r) : ∃ v, r = some v := by
  cases out with
  | returned v =>
    cases h
    exact ⟨v, rfl⟩
  | blocked f => cases h

/-- **What an action returns with**: a system call other than `Exec` with a
value, everything else without. -/
theorem act_returns {p : Node} (h : k.ending p act = some (.returns r)) :
    ((Event.call (.proc act) : Event Node Addr).adds = true → ¬ act.IsExec → ∃ v, r = some v) ∧
    ((Event.call (.proc act) : Event Node Addr).adds = false → r = none) := by
  unfold Kernel.ending at h
  cases act with
  | fork child data pid =>
    obtain ⟨res, -, heq⟩ := Option.map_eq_some_iff.mp h
    cases heq
    exact ⟨fun _ _ => ⟨_, rfl⟩, fun hno => by cases hno⟩
  | exec filename argvec env =>
    exact ⟨fun _ hno => absurd trivial hno, fun hno => by cases hno⟩
  | exit status =>
    obtain ⟨res, -, heq⟩ := Option.map_eq_some_iff.mp h
    cases heq
  | wait statusPtr =>
    obtain ⟨res, -, heq⟩ := Option.map_eq_some_iff.mp h
    exact ⟨fun _ _ => Outcome.returns_value heq, fun hno => by cases hno⟩
  | brk addr =>
    obtain ⟨res, -, heq⟩ := Option.map_eq_some_iff.mp h
    cases heq
    exact ⟨fun _ _ => ⟨_, rfl⟩, fun hno => by cases hno⟩
  | fault addr =>
    obtain ⟨res, -, heq⟩ := Option.map_eq_some_iff.mp h
    refine ⟨fun hno => (by cases hno), fun _ => ?_⟩
    split at heq
    · cases heq
      rfl
    · cases heq
  | store addr byte =>
    cases h
    exact ⟨fun hno => (by cases hno), fun _ => rfl⟩
  | resume =>
    obtain ⟨statusPtr, -, hmap⟩ := Option.bind_eq_some_iff.mp h
    obtain ⟨res, -, heq⟩ := Option.map_eq_some_iff.mp hmap
    exact ⟨fun _ _ => Outcome.returns_value heq, fun hno => by cases hno⟩

end Acts

namespace Machine

variable [Paging] [Devices] [DecidableEq Node] {m t : Machine Node Addr}
  {e : Event Node Addr} {c : Proc Node Addr} {r : Option ℤ}
  {res : Machine Node Addr × Outcome IoFrame}

omit [DecidableEq Node] in
/-- **A call on a pipe or a terminal** touches no process, and returns with
the processor. -/
theorem IoCall.running (h : m.IoCall c e res) :
    res.1.kernel.proc = m.kernel.proc ∧ res.1.kernel.born = m.kernel.born ∧
    (res.2.ending = .returns r → res.1.kernel.procs.running = m.kernel.procs.running) := by
  rcases h.cases with ⟨rfl, -⟩ | ⟨f, hact⟩
  · exact ⟨rfl, rfl, fun _ => rfl⟩
  cases hact with
  | ttyRead tty buf len =>
    exact ⟨rfl, rfl, fun hend => readTty_running ((ending_map _ _).symm.trans hend)⟩
  | ttyWrite tty buf len =>
    exact ⟨rfl, rfl, fun hend => writeTty_running ((ending_map _ _).symm.trans hend)⟩
  | pipeRead id buf len pipe =>
    exact ⟨rfl, rfl, fun hend => readPipe_running ((ending_map _ _).symm.trans hend)⟩
  | pipeWrite id buf len total pipe =>
    exact ⟨rfl, rfl, fun hend => writePipe_running ((ending_map _ _).symm.trans hend)⟩
  | ttyReadBack tty buf len =>
    exact ⟨rfl, rfl, fun hend => readTty_running ((ending_map _ _).symm.trans hend)⟩
  | ttyWriteBack tty f =>
    exact ⟨rfl, rfl, fun hend => writeTty_running ((ending_map _ _).symm.trans hend)⟩
  | pipeReadBack id buf len pipe =>
    exact ⟨rfl, rfl, fun hend => readPipe_running ((ending_map _ _).symm.trans hend)⟩
  | pipeWriteBack id f pipe =>
    exact ⟨rfl, rfl, fun hend => writePipe_running ((ending_map _ _).symm.trans hend)⟩

omit [DecidableEq Node] in
/-- A call that makes an object touches no process either. -/
theorem InitCall.proc {s : Syscall Node Addr} {res : Machine Node Addr × ℤ}
    (h : m.InitCall c s res) : res.1.kernel.proc = m.kernel.proc := by
  have hobject : ∀ {pt : ℤ → Pte} {idp : ℤ} {new : ℤ → Machine Node Addr → Machine Node Addr},
      (∀ id m', (new id m').kernel = m'.kernel) →
      (m.initObject pt idp new).1.kernel.proc = m.kernel.proc := by
    intro pt idp new hnew
    rcases initObject_cases (rfl : m.initObject pt idp new = _) with heq | ⟨k, heq, rfl | rfl⟩
    · rw [heq]
    · rw [heq]
      dsimp only
      rw [hnew]
    · rw [heq]
      show (new m.count { m with count := m.count + 1 }).kernel.proc = _
      rw [hnew]
  cases h with
  | pipeInit idp => exact hobject fun _ _ => rfl
  | lockInit idp => exact hobject fun _ _ => rfl
  | cvarInit idp second => exact hobject fun _ _ => rfl

variable [DecidableEq Addr]

/-- **An event that returns** leaves the processor where it was. -/
theorem step_running (hs : m.Sound) (h : m.step e = some t)
    (hend : m.ending e = some (.returns r)) :
    t.kernel.procs.running = m.kernel.procs.running := by
  rcases step_trap h with ⟨s, rfl⟩ | rfl | htrap
  · obtain ⟨c, hc, hrun, huser, hcall⟩ := step_call h
    obtain ⟨c₀, kin, hc₀, hkin⟩ := hs.running_lives hrun
    obtain rfl := Option.some.inj (hc.symm.trans hc₀)
    unfold Machine.ending at hend
    dsimp only at hend
    rw [hc, Option.bind_some] at hend
    cases s with
    | proc act =>
      obtain ⟨k', hk', rfl⟩ := Option.map_eq_some_iff.mp hcall
      exact act_running (k := m.kernel.onStack c) hc hkin hk' hend
    | delay clockTicks =>
      obtain rfl := Option.some.inj hcall
      have hret := Option.some.inj hend
      unfold kernelDelay at hret ⊢
      split
      · rfl
      · rename_i hpos
        split
        · rename_i hdelay
          rw [if_neg hpos, if_pos hdelay] at hret
          cases hret
        · rfl
    | ttyRead tty buf len =>
      obtain rfl := Option.some.inj hcall
      rw [leaveIo_kernel]
      exact (IoCall.ttyRead (c := c) tty buf len).running.2.2 (Option.some.inj hend)
    | ttyWrite tty buf len =>
      obtain rfl := Option.some.inj hcall
      rw [leaveIo_kernel]
      exact (IoCall.ttyWrite (c := c) tty buf len).running.2.2 (Option.some.inj hend)
    | pipeInit idp =>
      obtain rfl := Option.some.inj hcall
      exact congrArg _ (InitCall.pipeInit (c := c) idp).made.procs
    | pipeRead pipe buf len =>
      obtain rfl := Option.some.inj hcall
      rw [leaveIo_kernel]
      exact (IoCall.pipeRead (c := c) pipe buf len).running.2.2 (Option.some.inj hend)
    | pipeWrite pipe buf len total =>
      obtain rfl := Option.some.inj hcall
      rw [leaveIo_kernel]
      exact (IoCall.pipeWrite (c := c) pipe buf len total).running.2.2 (Option.some.inj hend)
    | lockInit idp =>
      obtain rfl := Option.some.inj hcall
      exact congrArg _ (InitCall.lockInit (c := c) idp).made.procs
    | cvarInit idp second =>
      obtain rfl := Option.some.inj hcall
      exact congrArg _ (InitCall.cvarInit (c := c) idp second).made.procs
    | sync call =>
      obtain rfl := Option.some.inj hcall
      exact Sync.call_running (Option.some.inj hend)
    | reclaim id size =>
      obtain rfl := Option.some.inj hcall
      rw [(kernelReclaim_fewer (m := m) id size).1]
  · obtain ⟨c, hc, hrun, hres⟩ := step_resume h
    obtain ⟨c₀, kin, hc₀, hkin⟩ := hs.running_lives hrun
    obtain rfl := Option.some.inj (hc.symm.trans hc₀)
    unfold Machine.ending at hend
    dsimp only at hend
    rw [hc, Option.bind_some] at hend
    unfold resumeEnding at hend
    dsimp only at hend
    rcases resume_cases hres with ⟨hwaits, k', hk', rfl⟩ | ⟨hwaits, f, y, hsync, hr, rfl⟩ |
      ⟨hwaits, hsync, f, y, hio, hr, rfl⟩
    · obtain ⟨statusPtr, hw⟩ := Option.ne_none_iff_exists'.mp hwaits
      rw [hw] at hend
      exact act_running (k := m.kernel.onStack c) hc hkin hk' hend
    · rw [hwaits, hsync] at hend
      dsimp only at hend
      rw [hr, Option.map_some] at hend
      exact Sync.resume_running hr (Option.some.inj hend)
    · rw [hwaits, hsync, hio] at hend
      dsimp only at hend
      rw [hr, Option.map_some] at hend
      rw [leaveIo_kernel]
      exact (IoCall.back (c := c) f y hio hr).running.2.2 (Option.some.inj hend)
  · cases htrap with
    | clock huser =>
      have hnone : (checkDelay m.kernel).procs.ready = [] := by
        by_contra hne
        unfold Machine.ending at hend
        dsimp only at hend
        rw [if_neg hne] at hend
        cases hend
      show (rrPreempt (checkDelay m.kernel).procs).running = _
      unfold rrPreempt
      rw [if_pos hnone]
      exact checkDelayLoop_running _ _
    | receive tty landing read huser hlo hhi hread =>
      show (receive m.kernel.procs (m.io.input tty) landing read).1.running = _
      unfold receive
      dsimp only
      split
      · exact unblockAll_running _ _
      · rfl
    | transmit tty huser hlo hhi => exact unblockHead_running _ _

/-- **Every event that can happen ends.** -/
theorem step_ending (h : m.step e = some t) : ∃ end', m.ending e = some end' := by
  rcases step_trap h with ⟨s, rfl⟩ | rfl | htrap
  · obtain ⟨c, hc, -, -, hcall⟩ := step_call h
    unfold Machine.ending
    dsimp only
    rw [hc, Option.bind_some]
    cases s with
    | proc act =>
      obtain ⟨k', hk', -⟩ := Option.map_eq_some_iff.mp hcall
      exact act_ending hk'
    | _ => exact ⟨_, rfl⟩
  · obtain ⟨c, hc, -, hres⟩ := step_resume h
    unfold Machine.ending
    dsimp only
    rw [hc, Option.bind_some]
    unfold resumeEnding
    dsimp only
    rcases resume_cases hres with ⟨hwaits, k', hk', -⟩ | ⟨hwaits, f, y, hsync, hr, -⟩ |
      ⟨hwaits, hsync, f, y, hio, hr, -⟩
    · obtain ⟨statusPtr, hw⟩ := Option.ne_none_iff_exists'.mp hwaits
      rw [hw]
      exact act_ending hk'
    · rw [hwaits, hsync]
      dsimp only
      exact ⟨_, by rw [hr]; rfl⟩
    · rw [hwaits, hsync, hio]
      dsimp only
      exact ⟨_, by rw [hr]; rfl⟩
  · cases htrap <;> exact ⟨_, rfl⟩

/-- **What an event returns with.** -/
theorem ending_returns (h : m.ending e = some (.returns r)) :
    (e.adds = true → ¬ e.IsExec → ∃ v, r = some v) ∧ (e.adds = false → r = none) := by
  cases e with
  | call s =>
    obtain ⟨c, -, hcall⟩ := Option.bind_eq_some_iff.mp h
    cases s with
    | proc act => exact act_returns hcall
    | sync call =>
      exact ⟨fun _ _ => Sync.call_returns (Option.some.inj hcall), fun hno => by cases hno⟩
    | delay _ | ttyRead _ _ _ | ttyWrite _ _ _ | pipeRead _ _ _ | pipeWrite _ _ _ _ =>
      exact ⟨fun _ _ => Outcome.returns_value (Option.some.inj hcall), fun hno => by cases hno⟩
    | pipeInit _ | lockInit _ | cvarInit _ _ | reclaim _ _ =>
      cases hcall
      exact ⟨fun _ _ => ⟨_, rfl⟩, fun hno => by cases hno⟩
  | resume =>
    refine ⟨fun _ _ => ?_, fun hno => by cases hno⟩
    obtain ⟨c, hc, hres⟩ := Option.bind_eq_some_iff.mp h
    unfold resumeEnding at hres
    dsimp only at hres
    split at hres
    · exact (act_returns hres).1 rfl id
    · obtain ⟨res, hr, heq⟩ := Option.map_eq_some_iff.mp hres
      exact Sync.resume_returns hr heq
    · obtain ⟨res, -, heq⟩ := Option.map_eq_some_iff.mp hres
      exact Outcome.returns_value heq
    · cases hres
  | clock =>
    refine ⟨fun hno => (by cases hno), fun _ => ?_⟩
    have hend := Option.some.inj h
    split at hend
    · cases hend
      rfl
    · cases hend
  | ttyReceive tty landing read =>
    cases h
    exact ⟨fun hno => (by cases hno), fun _ => rfl⟩
  | ttyTransmit tty =>
    cases h
    exact ⟨fun hno => (by cases hno), fun _ => rfl⟩

/-- **What an event keeps**: it makes a child, or everybody who is still
there has what they had, the caller of `Exec` less its context. -/
theorem step_keeps (hs : m.Sound) (h : m.step e = some t) :
    (∃ c child data pid, m.kernel.curr = some c ∧ e = .call (.proc (.fork child data pid)) ∧
      m.kernel.proc child = none ∧
      t = { m with kernel := forked (m.kernel.onStack c) c child data pid }) ∨
    Keeps m.kernel t.kernel {n | e.IsExec ∧ n = m.kernel.procs.running} := by
  rcases step_cases hs h with ⟨c, kin, hc, hkin, hrun, hby⟩ | htrap
  · cases hby with
    | acted e act k' he' hout hsync heff =>
      rcases heff.keepsContexts (k := m.kernel.onStack c) hc with
        ⟨child, data, pid, rfl, hchild, rfl⟩ | hkeeps
      · rcases he' with he' | ⟨-, hres⟩
        · exact Or.inl ⟨c, child, data, pid, hc, he', hchild, rfl⟩
        · cases hres
      · have hkeeps : Keeps m.kernel k' {n | act.IsExec ∧ n = m.kernel.procs.running} :=
          ⟨hkeeps.born, hkeeps.kept⟩
        refine Or.inr (hkeeps.mono fun n hn => ?_)
        rcases he' with rfl | ⟨-, rfl⟩
        · exact hn
        · exact absurd hn.1 id
    | delayed clockTicks hsync =>
      refine Or.inr ?_
      unfold kernelDelay
      split
      · exact Keeps.refl _ _
      · split
        · have hmod : Keeps m.kernel (m.kernel.modify m.kernel.procs.running fun p =>
              { p with code := clockTicks })
              {n | (Event.call (.delay clockTicks) : Event Node Addr).IsExec ∧
                n = m.kernel.procs.running} :=
            keeps_modify (fun _ => rfl) (fun _ => rfl) (fun _ => rfl) fun _ => rfl
          exact hmod.trans (Keeps.of_proc_eq rfl rfl)
        · exact Keeps.refl _ _
    | io _ r hwaits hsync hcall =>
      refine Or.inr (Keeps.of_proc_eq ?_ ?_)
      · rw [leaveIo_kernel]
        exact (hcall.running (r := none)).2.1
      · rw [leaveIo_kernel]
        exact (hcall.running (r := none)).1
    | made s r hsync hinit =>
      exact Or.inr (Keeps.of_proc_eq (congrArg Family.born hinit.made.trades.proc) hinit.proc)
    | synced call hwaits hframe => exact Or.inr (Keeps.of_proc_eq rfl rfl)
    | back f r hwaits hframe hr => exact Or.inr (Keeps.of_proc_eq rfl rfl)
    | reclaimed id size hsync =>
      exact Or.inr (Keeps.of_proc_eq (congrArg _ (kernelReclaim_fewer id size).1)
        (congrArg _ (kernelReclaim_fewer id size).1))
  · cases htrap with
    | clock =>
      exact Or.inr ((keeps_checkDelayLoop _).trans (Keeps.of_proc_eq rfl rfl))
    | receive tty landing read huser hlo hhi => exact Or.inr (Keeps.of_proc_eq rfl rfl)
    | transmit tty huser hlo hhi => exact Or.inr (Keeps.of_proc_eq rfl rfl)

end Machine

end Yalnix
