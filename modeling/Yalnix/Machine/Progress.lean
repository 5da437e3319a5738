import Yalnix.Machine.LockUse
import Yalnix.Machine.PipeUse
import Yalnix.Machine.Projection
import Yalnix.Machine.Spaces
/-!
# Nobody is stuck inside a call

`Machine.step` has no next state where the source would go through a NULL or
freed pointer, and at the end of init, where it halts. In no state a run
reaches does the first happen: who is running is there, idle is inside no
call, whoever was woken inside a call finds what it slept on, and every call
is made to its end.
-/

namespace Yalnix

variable {Node Addr : Type} [Paging] [Devices] [DecidableEq Node] [DecidableEq Addr]

/-! ## The calls of a process -/

section Kernel

/-- **What a call is to be granted**: `malloc` gives `Fork` blocks that are
not in use, the checks of `Exec` load what can be read, and a store is to a
page that takes it. Coming back is not a call. -/
def Kernel.Granted (k : Kernel Node Addr) (c : Proc Node Addr) : ProcAct Node Addr → Prop
  | .fork child data _ => noKernelMemory k (c.userpt.size + 3) = true ∨
    k.proc child = none ∧ k.pcbAt data = none
  | .exec filename argvec _ => checkExec k.mem filename argvec c.userpt.pt ≠ none
  | .store addr _ => writable c.userpt.pt addr = true
  | .resume => False
  | _ => True

/-- **What ends its caller**: an exit, a `LoadProgram` that fails too late,
and a fault that does not grow the stack, or has no frames to. -/
def Kernel.Ends (k : Kernel Node Addr) (c : Proc Node Addr) : ProcAct Node Addr → Prop
  | .exit _ => True
  | .exec filename argvec env =>
    checkExec k.mem filename argvec c.userpt.pt = some true ∧
      (loadProgram k.mem c.userpt c.uc
        (argsAt k.mem c.userpt.pt maxCheck argvec) env).2 = .kill
  | .fault addr =>
    upToPage c.userpt.brk + Paging.pageSize ≤ addr ∧ addr ≤ downToPage c.userpt.stackLow →
      framesLeft k.mem.frames <
        downToPage c.userpt.stackLow / Paging.pageSize - downToPage addr / Paging.pageSize
  | _ => False

variable {k : Kernel Node Addr} {c : Proc Node Addr} {kin : Kin Node Addr}

omit [Devices] in
theorem kernelFork_eq_none (hc : k.curr = some c) {child : Node} {data : Addr} {pid : ℤ} :
    kernelFork k child data pid = none ↔ ¬ k.Granted c (.fork child data pid) := by
  unfold kernelFork Kernel.Granted
  rw [hc]
  dsimp only
  split
  · rename_i hno
    simp [hno]
  · rename_i hno
    split
    · rename_i hused
      simpa [hno, or_iff_not_imp_left, Option.ne_none_iff_isSome] using hused
    · rename_i hfree
      simpa [hno, or_iff_not_imp_left, Option.ne_none_iff_isSome] using hfree

omit [Devices] in
theorem kernelExit_eq_none {status : ℤ} :
    kernelExit k status = none ↔ k.procs.running = k.initNode := by
  unfold kernelExit
  split <;> simp_all

omit [Devices] in
theorem kernelExec_eq_none (hc : k.curr = some c) {filename argvec : ℤ} {env : LoadEnv} :
    kernelExec k filename argvec env = none ↔
      ¬ k.Granted c (.exec filename argvec env) ∨
        k.procs.running = k.initNode ∧ k.Ends c (.exec filename argvec env) := by
  unfold kernelExec Kernel.Ends Kernel.Granted
  rw [hc]
  dsimp only
  split
  · rename_i hfault
    simp [hfault]
  · rename_i hrefused
    simp [hrefused]
  · rename_i hgood
    split
    · rename_i hcode
      simp [hgood, hcode]
    · rename_i hcode
      simp [hgood, hcode]
    · rename_i hcode
      rw [Option.map_eq_none_iff, kernelExit_eq_none]
      exact ⟨fun hinit => Or.inr ⟨hinit, hgood, hcode⟩,
        fun h => (h.resolve_left fun hno => hno (by rw [hgood]; simp)).1⟩

omit [Devices] in
/-- **Who has a dead child collects it**, for it is there. -/
theorem waitLoop_isSome (hk : k.Kindred) (hc : k.curr = some c) (hkin : c.kin = some kin)
    (statusPtr : ℤ) : (waitLoop k statusPtr).isSome := by
  unfold waitLoop
  rw [hc]
  dsimp only
  rw [hkin]
  dsimp only
  cases hd : kin.dChildren with
  | nil => rfl
  | cons child rest =>
    have hin : child ∈ kin.dChildren := by
      rw [hd]
      exact List.mem_cons_self
    obtain ⟨m, hm, -⟩ := hk.kinship.defunct (member_eq hc) hkin hin
    obtain ⟨childPcb, hchild, -⟩ := exists_of_member hm
    dsimp only
    rw [hchild]
    rfl

omit [Devices] in
theorem kernelWait_isSome (hk : k.Kindred) (hc : k.curr = some c) (hkin : c.kin = some kin)
    (statusPtr : ℤ) : (kernelWait k statusPtr).isSome := by
  unfold kernelWait
  rw [hc]
  dsimp only
  split
  · rfl
  · rw [hkin]
    dsimp only
    split
    · rfl
    · exact waitLoop_isSome hk hc hkin statusPtr

omit [Devices] [DecidableEq Addr] in
theorem kernelUserBrk_isSome (hc : k.curr = some c) (addr : ℤ) :
    (kernelUserBrk k addr).isSome := by
  unfold kernelUserBrk
  rw [hc]
  dsimp only
  repeat' split
  all_goals rfl

omit [Devices] in
theorem trapMemory_eq_none (hc : k.curr = some c) {addr : ℤ} :
    trapMemory k addr = none ↔ k.procs.running = k.initNode ∧ k.Ends c (.fault addr) := by
  unfold trapMemory Kernel.Ends
  rw [hc]
  dsimp only
  split
  · rename_i hgrows
    split
    · rename_i hfew
      rw [kernelExit_eq_none]
      exact ⟨fun hinit => ⟨hinit, fun _ => hfew⟩, And.left⟩
    · rename_i henough
      exact iff_of_false (by simp) fun ⟨_, hends⟩ => henough (hends hgrows)
  · rename_i hno
    rw [kernelExit_eq_none]
    exact ⟨fun hinit => ⟨hinit, fun hgrows => absurd hgrows hno⟩, And.left⟩

omit [Devices] in
/-- **A call has no next state** where the host did not grant it, or where
it ends init. -/
theorem act_eq_none {act : ProcAct Node Addr} (hk : k.Kindred) (hc : k.curr = some c)
    (hkin : c.kin = some kin) (hout : k.waits k.procs.running = none) :
    k.act k.procs.running c act = none ↔
      ¬ k.Granted c act ∨ k.procs.running = k.initNode ∧ k.Ends c act := by
  have hgo : ¬ ((k.waits k.procs.running).isSome = true) := by
    rw [hout]
    exact Bool.false_ne_true
  cases act with
  | fork child data pid =>
    show (if _ then none else (kernelFork k child data pid).map Prod.fst) = none ↔ _
    rw [if_neg hgo, Option.map_eq_none_iff, kernelFork_eq_none hc]
    exact ⟨Or.inl, fun h => h.resolve_right And.right⟩
  | exec filename argvec env =>
    show (if _ then none else (kernelExec k filename argvec env).map Prod.fst) = none ↔ _
    rw [if_neg hgo, Option.map_eq_none_iff, kernelExec_eq_none hc]
  | exit status =>
    show (if _ then none else kernelExit k status) = none ↔ _
    rw [if_neg hgo, kernelExit_eq_none]
    exact ⟨fun hinit => Or.inr ⟨hinit, trivial⟩,
      fun h => (h.resolve_left fun hno => hno trivial).1⟩
  | wait statusPtr =>
    show (if _ then none else (kernelWait k statusPtr).map _) = none ↔ _
    rw [if_neg hgo, Option.map_eq_none_iff]
    refine iff_of_false (fun hnone => ?_) fun h => h.elim (fun hno => hno trivial) And.right
    have hsome := kernelWait_isSome hk hc hkin statusPtr
    rw [hnone] at hsome
    cases hsome
  | brk addr =>
    show (if _ then none else (kernelUserBrk k addr).map Prod.fst) = none ↔ _
    rw [if_neg hgo, Option.map_eq_none_iff]
    refine iff_of_false (fun hnone => ?_) fun h => h.elim (fun hno => hno trivial) And.right
    have hsome := kernelUserBrk_isSome hc addr
    rw [hnone] at hsome
    cases hsome
  | fault addr =>
    show (if _ then none else trapMemory k addr) = none ↔ _
    rw [if_neg hgo, trapMemory_eq_none hc]
    exact ⟨Or.inr, fun h => h.resolve_left fun hno => hno trivial⟩
  | store addr byte =>
    show (if _ then none else some _) = none ↔ ¬ writable c.userpt.pt addr = true ∨ _ ∧ False
    rw [hout]
    split <;> simp_all
  | resume =>
    unfold Kernel.act
    dsimp only
    rw [hout]
    exact iff_of_true rfl (Or.inl not_false)

end Kernel

/-! ## What is come back to -/

omit [Paging] [Devices] [DecidableEq Node] [DecidableEq Addr] in
/-- **A lock somebody is inside a call on** is on file. -/
theorem Sync.lock_filed {y : Sync Node} (h : y.Law) (hc : y.CvarsCounted) {p : Node} {id : ℤ}
    (huse : Contends y.frame id p ∨ p ∈ Calling (SyncFrame.WaitsWith id) y.frame) :
    (Filed.find y.lock id).isSome := by
  cases hfind : Filed.find y.lock id with
  | some lock => rfl
  | none =>
    have hnew : y.lockAt id = newLock := by
      unfold Sync.lockAt
      rw [hfind]
      rfl
    have hcounts := (h.lock id).counts
    have hcvar := hc id
    rw [hnew] at hcounts hcvar
    have hunused : LockUnused y.frame id newLock :=
      LockUse.unused ⟨hcounts, hcvar⟩ rfl rfl le_rfl le_rfl
    exact (huse.elim (hunused.acquire p) (hunused.wait p)).elim

omit [Paging] [Devices] [DecidableEq Addr] in
theorem Sync.resume_isSome {y : Sync Node} (h : y.Law) (hc : y.CvarsCounted)
    {procs : ProcTable Node} {serial : ℕ} {p : Node} {f : SyncFrame} (hf : y.frame p = some f) :
    (y.resume procs serial f).isSome := by
  unfold Sync.resume
  cases f with
  | waiting cvar lock since =>
    dsimp only
    rw [Option.isSome_map]
    exact Sync.lock_filed h hc (Or.inr ((calling_of_some hf).mpr rfl))
  | acquiring lock waited =>
    dsimp only
    rw [Option.isSome_map]
    exact Sync.lock_filed h hc (Or.inl ⟨waited, hf⟩)

namespace Machine

variable {m t : Machine Node Addr} {c : Proc Node Addr} {e : Event Node Addr}
  {es : List (Event Node Addr)} {b : Boot Node Addr} {p : Node}

omit [Paging] [DecidableEq Node] [DecidableEq Addr] in
/-- **A pipe somebody is inside a call on** is on file. -/
theorem pipe_filed (h : m.io.PipesCounted) {id : ℤ} (hp : p ∈ m.io.inPipe id) :
    (Filed.find m.io.pipe id).isSome := by
  cases hfind : Filed.find m.io.pipe id with
  | some pipe => rfl
  | none =>
    have hnew : m.io.pipeAt id = newPipe := by
      unfold Io.pipeAt
      rw [hfind]
      rfl
    have hacc := h id
    rw [hnew] at hacc
    have hcounts := hacc.counts.eq_empty le_rfl
    have hin : p ∈ {p | p ∈ m.io.inPipe id ∧ p ∉ (newPipe : Pipe Node).readblocked ∧
        p ∉ (newPipe : Pipe Node).writeblocked} :=
      ⟨hp, List.not_mem_nil, List.not_mem_nil⟩
    rw [hcounts] at hin
    exact hin.elim

omit [DecidableEq Node] [DecidableEq Addr] in
theorem resumeIo_isSome (h : m.io.PipesCounted) {pt : ℤ → Pte} {f : IoFrame}
    (hf : m.io.frame p = some f) : (m.resumeIo pt f).isSome := by
  unfold resumeIo
  cases f with
  | pipeRead id buf len =>
    dsimp only
    rw [Option.isSome_map]
    exact pipe_filed h ((calling_of_some hf).mpr rfl)
  | pipeWrite id f =>
    dsimp only
    rw [Option.isSome_map]
    exact pipe_filed h ((calling_of_some hf).mpr rfl)
  | ttyRead tty buf len => rfl
  | ttyWrite tty f => rfl

/-! ## Idle -/

omit [Paging] [Devices] [DecidableEq Node] [DecidableEq Addr] in
/-- **Idle is inside no call.** -/
def IdleOut (m : Machine Node Addr) : Prop :=
  m.kernel.waits m.kernel.procs.idleNode = none ∧ m.sync.frame m.kernel.procs.idleNode = none ∧
    m.io.frame m.kernel.procs.idleNode = none

/-- **Only who is running** enters a call on pipes and terminals, or leaves
it. -/
theorem ioFrame_step (h : m.step e = some t) (hp : p ≠ m.kernel.procs.running) :
    t.io.frame p = m.io.frame p := by
  cases step_atIo h with
  | spared e t hnone hreceive htransmit hpipe hinput hout hframe => rw [hframe]
  | received tty landing read => rfl
  | sent tty => rfl
  | ran c e f r hc hrun hentered huser hact =>
    rw [leaveIo_frame, Function.update_of_ne hp, hact.kept.1]

omit [Paging] [DecidableEq Addr] in
/-- A trap is no part of any call. -/
theorem ByTrap.calls (hs : m.Sound) (h : m.ByTrap e t) :
    t.kernel.waits = m.kernel.waits ∧ t.sync = m.sync ∧ t.io.frame = m.io.frame := by
  cases h with
  | clock => exact ⟨(trades_trapClock hs.idle_not_mem).waits, rfl, rfl⟩
  | receive => exact ⟨rfl, rfl, rfl⟩
  | transmit => exact ⟨rfl, rfl, rfl⟩

omit [Paging] [Devices] [DecidableEq Node] [DecidableEq Addr] in
/-- **The call a process is inside**, as the machine has it. -/
def callOf (m : Machine Node Addr) (p : Node) : Option ℤ × Option SyncFrame × Option IoFrame :=
  (m.kernel.waits p, m.sync.frame p, m.io.frame p)

/-- **A process goes on with its call, or leaves it,** by itself. -/
theorem callOf_step (h : m.Lawful) (he : e.InRange) (hstep : m.step e = some t)
    (hp : p ≠ m.kernel.procs.running) : t.callOf p = m.callOf p := by
  unfold callOf
  rw [waits_step h.sound he hstep hp, (onSync h he hstep).frame_of_ne h hp, ioFrame_step hstep hp]

theorem idleOut_step (h : m.Lawful) (he : e.InRange) (hstep : m.step e = some t)
    (hout : m.IdleOut) : t.IdleOut := by
  have hidle := step_idleNode h.sound he hstep
  obtain ⟨hwaits, hsync, hio⟩ := hout
  have hcall : t.callOf m.kernel.procs.idleNode = m.callOf m.kernel.procs.idleNode := by
    rcases step_cases h.sound hstep with ⟨c, kin, hc, hkin, hrun, hby⟩ | htrap
    · exact callOf_step h he hstep hrun.symm
    · obtain ⟨hw, hy, hi⟩ := htrap.calls h.sound
      unfold callOf
      rw [hw, hy, hi]
  unfold callOf at hcall
  rw [hwaits, hsync, hio] at hcall
  unfold IdleOut
  rw [hidle]
  simpa only [Prod.mk.injEq] using hcall

/-! ## Every run -/

/-- **What coming back relies on.** -/
structure Kept (m : Machine Node Addr) : Prop where
  lawful : m.Lawful
  cvars : m.sync.CvarsCounted
  pipes : m.io.PipesCounted
  idle : m.IdleOut

theorem kept_step (h : m.Kept) (he : e.InRange) (hstep : m.step e = some t) : t.Kept where
  lawful := step_lawful h.lawful he hstep
  cvars := (onSync h.lawful he hstep).counted h.lawful h.cvars
  pipes := (onPipes h.lawful.sound hstep).counted h.lawful.sound h.lawful.numbered h.pipes
  idle := idleOut_step h.lawful he hstep h.idle

theorem start_kept (hb : start b = some m) : m.Kept := by
  have hlawful := start_lawful hb
  obtain ⟨k, hk, rfl⟩ := Option.map_eq_some_iff.mp hb
  obtain ⟨-, -, -, -, -, hwaits⟩ := kernelStart_family hk
  exact ⟨hlawful, Sync.cvarsCounted_init, Io.pipesCounted_init, congrFun hwaits _, rfl, rfl⟩

/-- **Coming back from a block.** -/
theorem Kept.resume_isSome (h : m.Kept) (hin : m.inUser = false) :
    ∃ t, m.step .resume = some t := by
  have hrun : m.kernel.procs.running ≠ m.kernel.procs.idleNode := by
    intro hidle
    have huser : m.inUser = true := inUser_iff.mpr (hidle ▸ h.idle)
    rw [huser] at hin
    cases hin
  obtain ⟨c, kin, hc, hkin⟩ := h.lawful.sound.running_lives hrun
  suffices hsome : (m.resume c).isSome by
    obtain ⟨t, ht⟩ := Option.isSome_iff_exists.mp hsome
    refine ⟨t, ?_⟩
    unfold step
    dsimp only
    rw [hc]
    exact (if_neg hrun).trans ht
  unfold resume
  dsimp only
  cases hwaits : m.kernel.waits m.kernel.procs.running with
  | some statusPtr =>
    dsimp only
    rw [Option.isSome_map]
    have hk : (m.kernel.onStack c).Kindred := h.lawful.sound.kindred.congr rfl rfl rfl rfl
    have hwaits' : (m.kernel.onStack c).waits m.kernel.procs.running = some statusPtr := hwaits
    unfold Kernel.act
    dsimp only
    rw [hwaits']
    dsimp only
    rw [Option.isSome_map]
    exact waitLoop_isSome hk hc hkin statusPtr
  | none =>
    cases hsync : m.sync.frame m.kernel.procs.running with
    | some f =>
      dsimp only
      rw [Option.isSome_map]
      exact Sync.resume_isSome h.lawful.law h.cvars hsync
    | none =>
      cases hio : m.io.frame m.kernel.procs.running with
      | some f =>
        dsimp only
        rw [Option.isSome_map]
        exact resumeIo_isSome h.pipes hio
      | none =>
        have huser : m.inUser = true := inUser_iff.mpr ⟨hwaits, hsync, hio⟩
        rw [huser] at hin
        cases hin

/-- **A call in user mode has no next step** where it was not granted, or
where it ends init. -/
theorem Kept.call_eq_none_iff (h : m.Kept) (hc : m.kernel.curr = some c) (huser : m.inUser = true)
    (hrun : m.kernel.procs.running ≠ m.kernel.procs.idleNode) {s : Syscall Node Addr} :
    m.step (.call s) = none ↔
      ∃ act, s = .proc act ∧ (¬ (m.kernel.onStack c).Granted c act ∨
        m.kernel.procs.running = m.kernel.initNode ∧ (m.kernel.onStack c).Ends c act) := by
  have hstep : m.step (.call s) = m.syscall c s := by
    unfold step
    dsimp only
    rw [hc]
    exact if_neg (by simp [hrun, huser])
  rw [hstep]
  cases s with
  | proc act =>
    obtain ⟨c', kin, hc', hkin⟩ := h.lawful.sound.running_lives hrun
    obtain rfl := Option.some.inj (hc.symm.trans hc')
    have hk : (m.kernel.onStack c).Kindred := h.lawful.sound.kindred.congr rfl rfl rfl rfl
    have hnone : (m.kernel.onStack c).act (m.kernel.onStack c).procs.running c act = none ↔ _ :=
      act_eq_none hk hc hkin (inUser_iff.mp huser).1
    show Option.map _ _ = none ↔ _
    rw [Option.map_eq_none_iff]
    refine hnone.trans ⟨fun hno => ⟨act, rfl, hno⟩, ?_⟩
    rintro ⟨act', heq, hno⟩
    obtain rfl := Syscall.proc.inj heq
    exact hno
  | _ => exact iff_of_false (Option.some_ne_none _) fun ⟨act, heq, _⟩ => by cases heq

end Machine

end Yalnix
