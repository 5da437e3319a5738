import Yalnix.Machine.Buffers
/-!
# What an event is to one pipe or terminal

Of the events of the whole kernel a pipe sees few: the calls that get past
their checks to `read_pipe` and `write_pipe`, and the processes that come
back to one of them. `entered` reads off an event which of the four
functions it runs, and `AtIo` says what each event leaves of the pipes, the
terminals and the calls on them. The machines of one pipe and of one
terminal are then projections of this one.
-/

namespace Yalnix

variable {Node Addr : Type}

/-- The process comes back from a block. -/
def Event.isResume : Event Node Addr → Bool
  | .resume => true
  | _ => false

/-- What a call is on: a pipe, or one side of a terminal. -/
inductive Port where
  | pipe (id : ℤ)
  | input (tty : ℤ)
  | out (tty : ℤ)

def IoFrame.port : IoFrame → Port
  | .pipeRead pipe _ _ => .pipe pipe
  | .pipeWrite pipe _ => .pipe pipe
  | .ttyRead tty _ _ => .input tty
  | .ttyWrite tty _ => .out tty

/-- The frame a call leaves, where it goes to sleep. -/
def Outcome.left {κ : Type} : Outcome κ → Option κ
  | .returned _ => none
  | .blocked f => some f

theorem Outcome.left_map {κ κ' : Type} (g : κ → κ') (o : Outcome κ) :
    (o.map g).left = o.left.map g := by
  cases o <;> rfl

namespace Machine

section Leave

variable [DecidableEq Node] (p : Node) (r : Machine Node Addr × Outcome IoFrame)

/-- **A call that leaves** changes its own frame and nothing else. -/
theorem leaveIo_frame : (leaveIo p r).io.frame = Function.update r.1.io.frame p r.2.left := by
  obtain ⟨t, out⟩ := r
  cases out <;> rfl

theorem leaveIo_pipe : (leaveIo p r).io.pipe = r.1.io.pipe := by
  obtain ⟨t, out⟩ := r
  cases out <;> rfl

theorem leaveIo_input : (leaveIo p r).io.input = r.1.io.input := by
  obtain ⟨t, out⟩ := r
  cases out <;> rfl

theorem leaveIo_out : (leaveIo p r).io.out = r.1.io.out := by
  obtain ⟨t, out⟩ := r
  cases out <;> rfl

theorem leaveIo_count : (leaveIo p r).count = r.1.count := by
  obtain ⟨t, out⟩ := r
  cases out <;> rfl

/-! ## One projection of the calls in progress -/

variable {p r} {m : Machine Node Addr} {κ : Type} {view : IoFrame → Option κ}
  {call call' : Node → Option κ}

/-- **The calls a machine sees** after one of them leaves. -/
theorem calls_leaveIo (hcall : ∀ q, call q = (m.io.frame q).bind view)
    (hframe : r.1.io.frame = m.io.frame)
    (hcall' : call' = Function.update call p (r.2.left.bind view)) (q : Node) :
    call' q = ((leaveIo p r).io.frame q).bind view := by
  rw [leaveIo_frame, hframe, hcall']
  rcases eq_or_ne q p with rfl | hne
  · rw [Function.update_self, Function.update_self]
  · rw [Function.update_of_ne hne, Function.update_of_ne hne]
    exact hcall q

/-- One that it sees neither before nor after changes none. -/
theorem calls_unseen (hcall : ∀ q, call q = (m.io.frame q).bind view)
    (hbefore : ∀ g, m.io.frame p = some g → view g = none)
    (hafter : ∀ g, r.2 = .blocked g → view g = none) :
    call = Function.update call p (r.2.left.bind view) := by
  have hnone : call p = none := by
    rw [hcall, Option.bind_eq_none_iff]
    exact hbefore
  have hleft : r.2.left.bind view = none := by
    cases hout : r.2 with
    | returned v => rfl
    | blocked g => exact hafter g hout
  rw [hleft, ← hnone, Function.update_eq_self]

end Leave

variable [Paging] [Devices] [DecidableEq Node]

open Paging Devices

variable {m t : Machine Node Addr} {c : Proc Node Addr} {e : Event Node Addr} {f : IoFrame}
  {r : Machine Node Addr × Outcome IoFrame}

omit [DecidableEq Node] in
/-- A trap enters none. -/
theorem entered_trap (hcall : ∀ s, e ≠ .call s) (hresume : e ≠ .resume) :
    m.entered e = none := by
  unfold entered
  cases m.kernel.curr with
  | none => rfl
  | some c =>
    cases e with
    | call s => exact absurd rfl (hcall s)
    | resume => exact absurd rfl hresume
    | clock => rfl
    | ttyReceive tty landing read => rfl
    | ttyTransmit tty => rfl

omit [DecidableEq Node] in
/-- A function that is run is one the event enters. -/
theorem Activates.enters (h : m.Activates c e f r)
    (hwaits : m.kernel.waits m.kernel.procs.running = none)
    (hsync : m.sync.frame m.kernel.procs.running = none) : m.Enters c e f := by
  cases h with
  | ttyRead tty buf len htty hbuf => exact Enters.ttyRead tty buf len htty hbuf
  | ttyWrite tty buf len htty hbuf => exact Enters.ttyWrite tty buf len htty hbuf
  | pipeRead id buf len pipe hfind hbuf => exact Enters.pipeRead id buf len pipe hfind hbuf
  | pipeWrite id buf len total pipe hfind hbuf =>
    exact Enters.pipeWrite id buf len total pipe hfind hbuf
  | ttyReadBack tty buf len hf => exact Enters.back _ hwaits hsync hf
  | ttyWriteBack tty f hf => exact Enters.back _ hwaits hsync hf
  | pipeReadBack id buf len pipe hfind hf => exact Enters.back _ hwaits hsync hf
  | pipeWriteBack id f pipe hfind hf => exact Enters.back _ hwaits hsync hf

omit [DecidableEq Node] in
theorem Activates.kept (h : m.Activates c e f r) :
    r.1.io.frame = m.io.frame ∧ r.1.count = m.count := by
  cases h <;> exact ⟨rfl, rfl⟩

omit [DecidableEq Node] in
/-- Its caller was inside it before, or inside nothing. -/
theorem Activates.frame_before (h : m.Activates c e f r)
    (huser : e = .resume ∨ m.io.frame m.kernel.procs.running = none) {g : IoFrame}
    (hg : m.io.frame m.kernel.procs.running = some g) : g = f := by
  have hback : ∀ {f'}, m.io.frame m.kernel.procs.running = some f' → g = f' :=
    fun hf => Option.some.inj (hg.symm.trans hf)
  rcases huser with rfl | hnone
  · cases h with
    | ttyReadBack tty buf len hf => exact hback hf
    | ttyWriteBack tty f hf => exact hback hf
    | pipeReadBack id buf len pipe hfind hf => exact hback hf
    | pipeWriteBack id f pipe hfind hf => exact hback hf
  · rw [hnone] at hg
    cases hg

omit [DecidableEq Node] in
/-- **A call that goes to sleep** comes back to what it is on. -/
theorem Activates.port_left (h : m.Activates c e f r) {g : IoFrame} (hg : r.2 = .blocked g) :
    g.port = f.port := by
  cases h with
  | ttyRead | pipeRead | ttyReadBack | pipeReadBack =>
    obtain ⟨len', -, rfl⟩ := blocked_of_map hg
    rfl
  | ttyWrite | pipeWrite | ttyWriteBack | pipeWriteBack =>
    obtain ⟨f', -, rfl⟩ := blocked_of_map hg
    rfl

omit [DecidableEq Node] in
/-- **It leaves everything else**: the other pipes. -/
theorem Activates.find_pipe (h : m.Activates c e f r) {id : ℤ} (hoff : f.port ≠ .pipe id) :
    Filed.find r.1.io.pipe id = Filed.find m.io.pipe id := by
  cases h with
  | ttyRead | ttyWrite | ttyReadBack | ttyWriteBack => rfl
  | pipeRead id' | pipeReadBack id' | pipeWrite id' | pipeWriteBack id' =>
    exact Filed.find_store_of_ne fun heq => hoff (congrArg Port.pipe heq.symm)

omit [DecidableEq Node] in
/-- The other inputs. -/
theorem Activates.input (h : m.Activates c e f r) {tty : ℤ} (hoff : f.port ≠ .input tty) :
    r.1.io.input tty = m.io.input tty := by
  cases h with
  | ttyRead tty' | ttyReadBack tty' =>
    exact Function.update_of_ne (fun heq => hoff (congrArg Port.input heq.symm)) _ _
  | ttyWrite | ttyWriteBack | pipeRead | pipeReadBack | pipeWrite | pipeWriteBack => rfl

omit [DecidableEq Node] in
/-- And the other outputs. -/
theorem Activates.out (h : m.Activates c e f r) {tty : ℤ} (hoff : f.port ≠ .out tty) :
    r.1.io.out tty = m.io.out tty := by
  cases h with
  | ttyWrite tty' | ttyWriteBack tty' =>
    exact Function.update_of_ne (fun heq => hoff (congrArg Port.out heq.symm)) _ _
  | ttyRead | ttyReadBack | pipeRead | pipeReadBack | pipeWrite | pipeWriteBack => rfl

/-! ## Every event -/

omit [Paging] [DecidableEq Node] in
/-- What the other calls do to the pipes on file. -/
inductive Refiles (m t : Machine Node Addr) : Prop
  | same (hpipe : t.io.pipe = m.io.pipe) (hcount : m.count ≤ t.count)
  | made (hpipe : t.io.pipe = m.io.pipe ++ [⟨m.count, newPipe⟩]) (hcount : t.count = m.count + 1)
  | removed (id : ℤ) (hpipe : t.io.pipe = Filed.remove m.io.pipe id) (hcount : t.count = m.count)

/-- **What an event leaves of pipes and terminals**: it runs one of the four
functions, or is a trap of a terminal, or leaves the calls in progress
alone. -/
inductive AtIo (m : Machine Node Addr) : Event Node Addr → Machine Node Addr → Prop
  | spared (e : Event Node Addr) (t : Machine Node Addr) (hnone : m.entered e = none)
      (hreceive : ∀ tty landing read, e ≠ .ttyReceive tty landing read)
      (htransmit : ∀ tty, e ≠ .ttyTransmit tty) (hpipe : m.Refiles t)
      (hinput : t.io.input = m.io.input) (hout : t.io.out = m.io.out)
      (hframe : t.io.frame = m.io.frame) : AtIo m e t
  | received (tty : ℤ) (landing : ℤ → Byte) (read : ℤ) (hlo : 0 ≤ tty) (hhi : tty < numTerminals)
      (hread : 0 ≤ read ∧ read ≤ terminalMaxLine) :
      AtIo m (.ttyReceive tty landing read) (m.trapTtyReceive tty landing read)
  | sent (tty : ℤ) (hlo : 0 ≤ tty) (hhi : tty < numTerminals) :
      AtIo m (.ttyTransmit tty) (m.trapTtyTransmit tty)
  | ran (c : Proc Node Addr) (e : Event Node Addr) (f : IoFrame)
      (r : Machine Node Addr × Outcome IoFrame) (hc : m.kernel.curr = some c)
      (hrun : m.kernel.procs.running ≠ m.kernel.procs.idleNode)
      (hentered : m.entered e = some f)
      (huser : e = .resume ∨ m.io.frame m.kernel.procs.running = none)
      (hact : m.Activates c e f r) : AtIo m e (leaveIo m.kernel.procs.running r)

/-- A call that is none of the four and no `Reclaim` or init. -/
theorem atIo_elsewhere {s : Syscall Node Addr}
    (hnone : m.entered (.call s) = none) (hio : t.io = m.io) (hcount : t.count = m.count) :
    m.AtIo (.call s) t := by
  refine AtIo.spared _ t hnone (fun tty landing read h => by cases h) (fun tty h => by cases h)
    (Refiles.same ?_ hcount.ge) ?_ ?_ ?_
  all_goals rw [hio]

theorem IoCall.atIo {s : Syscall Node Addr} (h : m.IoCall c (.call s) r)
    (hc : m.kernel.curr = some c) (hrun : m.kernel.procs.running ≠ m.kernel.procs.idleNode)
    (huser : m.inUser = true) : m.AtIo (.call s) (leaveIo m.kernel.procs.running r) := by
  obtain ⟨hwaits, hsync, hframe⟩ := inUser_iff.mp huser
  rcases h.cases with ⟨rfl, -, hno⟩ | ⟨f, hact⟩
  · rw [leaveIo_refused hframe]
    exact atIo_elsewhere (entered_eq_none hc hno) rfl rfl
  · exact AtIo.ran c _ f r hc hrun (entered_of_enters hc (hact.enters hwaits hsync))
      (Or.inr hframe) hact

omit [DecidableEq Node] in
theorem refiles_initObject {idp : ℤ} {new : ℤ → Machine Node Addr → Machine Node Addr}
    (h : m.Refiles (new m.count { m with count := m.count + 1 })) :
    m.Refiles (m.initObject c.userpt.pt idp new).1 := by
  rcases initObject_cases (rfl : m.initObject c.userpt.pt idp new = _) with heq | ⟨k, heq, -⟩
  · rw [heq]
    exact Refiles.same rfl le_rfl
  · rw [heq]
    cases h with
    | same hpipe hcount => exact Refiles.same hpipe hcount
    | made hpipe hcount => exact Refiles.made hpipe hcount
    | removed id hpipe hcount => exact Refiles.removed id hpipe hcount

/-- **A call that makes an object** leaves the terminals and the calls in
progress alone. -/
theorem atIo_initObject {s : Syscall Node Addr} {idp : ℤ}
    {new : ℤ → Machine Node Addr → Machine Node Addr} (hnone : m.entered (.call s) = none)
    (h : m.Refiles (new m.count { m with count := m.count + 1 }))
    (hio : (new m.count { m with count := m.count + 1 }).io.input = m.io.input ∧
      (new m.count { m with count := m.count + 1 }).io.out = m.io.out ∧
      (new m.count { m with count := m.count + 1 }).io.frame = m.io.frame) :
    m.AtIo (.call s) (m.initObject c.userpt.pt idp new).1 := by
  have hfiles : m.Refiles (m.initObject c.userpt.pt idp new).1 := refiles_initObject h
  rcases initObject_cases (rfl : m.initObject c.userpt.pt idp new = _) with heq | ⟨k, heq, -⟩
  · rw [heq]
    exact atIo_elsewhere hnone rfl rfl
  · rw [heq] at hfiles ⊢
    exact AtIo.spared _ _ hnone (fun tty landing read h => by cases h) (fun tty h => by cases h)
      hfiles hio.1 hio.2.1 hio.2.2

theorem atIo_kernelReclaim (id : ℤ) (size : ℤ → ℤ)
    (hnone : m.entered (.call (.reclaim id size)) = none) :
    m.AtIo (.call (.reclaim id size)) (m.kernelReclaim id size).1 := by
  unfold kernelReclaim
  cases hfind : Filed.find m.io.pipe id with
  | some pipe =>
    dsimp only
    unfold destroyPipe
    split
    · exact atIo_elsewhere hnone rfl rfl
    · exact AtIo.spared _ _ hnone (fun tty landing read h => by cases h) (fun tty h => by cases h)
        (Refiles.removed id rfl rfl) rfl rfl rfl
  | none =>
    cases Filed.find m.sync.cvar id with
    | some cvar => exact atIo_elsewhere hnone rfl rfl
    | none =>
      cases Filed.find m.sync.lock id with
      | some lock => exact atIo_elsewhere hnone rfl rfl
      | none => exact atIo_elsewhere hnone rfl rfl

variable [DecidableEq Addr]

theorem atIo_syscall {s : Syscall Node Addr} (hc : m.kernel.curr = some c)
    (hrun : m.kernel.procs.running ≠ m.kernel.procs.idleNode) (huser : m.inUser = true)
    (h : m.syscall c s = some t) : m.AtIo (.call s) t := by
  cases s with
  | proc act =>
    obtain ⟨k', hk', rfl⟩ := Option.map_eq_some_iff.mp h
    exact atIo_elsewhere (entered_eq_none hc fun f hf => by cases hf) rfl rfl
  | delay clockTicks =>
    obtain rfl := Option.some.inj h
    obtain ⟨hio, -, hcount⟩ := kernelDelay_objects (m := m) clockTicks
    exact atIo_elsewhere (entered_eq_none hc fun f hf => by cases hf) hio hcount
  | ttyRead tty buf len =>
    obtain rfl := Option.some.inj h
    exact (IoCall.ttyRead tty buf len).atIo hc hrun huser
  | ttyWrite tty buf len =>
    obtain rfl := Option.some.inj h
    exact (IoCall.ttyWrite tty buf len).atIo hc hrun huser
  | pipeInit idp =>
    obtain rfl := Option.some.inj h
    exact atIo_initObject (entered_eq_none hc fun f hf => by cases hf)
      (Refiles.made rfl rfl) ⟨rfl, rfl, rfl⟩
  | pipeRead id buf len =>
    obtain rfl := Option.some.inj h
    exact (IoCall.pipeRead id buf len).atIo hc hrun huser
  | pipeWrite id buf len total =>
    obtain rfl := Option.some.inj h
    exact (IoCall.pipeWrite id buf len total).atIo hc hrun huser
  | lockInit idp =>
    obtain rfl := Option.some.inj h
    exact atIo_initObject (entered_eq_none hc fun f hf => by cases hf)
      (Refiles.same rfl (Int.le_add_one le_rfl)) ⟨rfl, rfl, rfl⟩
  | cvarInit idp second =>
    obtain rfl := Option.some.inj h
    exact atIo_initObject (entered_eq_none hc fun f hf => by cases hf)
      (Refiles.same rfl (Int.le_add_one le_rfl)) ⟨rfl, rfl, rfl⟩
  | sync call =>
    obtain rfl := Option.some.inj h
    exact atIo_elsewhere (entered_eq_none hc fun f hf => by cases hf) rfl rfl
  | reclaim id size =>
    obtain rfl := Option.some.inj h
    exact atIo_kernelReclaim id size (entered_eq_none hc fun f hf => by cases hf)

theorem atIo_resume (hc : m.kernel.curr = some c)
    (hrun : m.kernel.procs.running ≠ m.kernel.procs.idleNode) (h : m.resume c = some t) :
    m.AtIo .resume t := by
  have hspared : ∀ t' : Machine Node Addr, m.entered .resume = none → t'.io = m.io →
      t'.count = m.count → m.AtIo .resume t' := by
    intro t' hnone hio hcount
    refine AtIo.spared _ t' hnone (fun tty landing read h => by cases h)
      (fun tty h => by cases h) (Refiles.same ?_ hcount.ge) ?_ ?_ ?_
    all_goals rw [hio]
  rcases resume_cases h with ⟨hwaits, k', -, rfl⟩ | ⟨-, g, r, hsync, -, rfl⟩ |
    ⟨hwaits, hsync, f, r, hio, hr, rfl⟩
  · refine hspared _ (entered_eq_none hc fun f hf => ?_) rfl rfl
    cases hf with
    | back f hnone => exact absurd hnone hwaits
  · refine hspared _ (entered_eq_none hc fun f hf => ?_) rfl rfl
    cases hf with
    | back f _ hnone => exact absurd (hsync.symm.trans hnone) (Option.some_ne_none g)
  · rcases (IoCall.back f r hio hr).cases with ⟨-, hne, -⟩ | ⟨f, hact⟩
    · exact absurd rfl hne
    · exact AtIo.ran c _ f r hc hrun (entered_of_enters hc (hact.enters hwaits hsync))
        (Or.inl rfl) hact

/-- **The cases of an event**, for pipes and terminals. -/
theorem step_atIo (h : m.step e = some t) : m.AtIo e t := by
  rcases step_trap h with ⟨s, rfl⟩ | rfl | htrap
  · obtain ⟨c, hc, hrun, huser, h⟩ := step_call h
    exact atIo_syscall hc hrun huser h
  · obtain ⟨c, hc, hrun, h⟩ := step_resume h
    exact atIo_resume hc hrun h
  · cases htrap with
    | clock huser =>
      exact AtIo.spared _ _ (entered_trap (by simp) (by simp))
        (fun tty landing read h => by cases h) (fun tty h => by cases h)
        (Refiles.same rfl le_rfl) rfl rfl rfl
    | receive tty landing read huser hlo hhi hread =>
      exact AtIo.received tty landing read hlo hhi hread
    | transmit tty huser hlo hhi => exact AtIo.sent tty hlo hhi

end Machine

end Yalnix
