import Yalnix.Machine.Endings
import Yalnix.Machine.Progress
/-!
# The handlers

A handler saves the context of the process it interrupts in the pcb of
`procs->running`, and what it restores at its end it takes from the pcb of
`procs->running` again, which in between may have become another process and
come back. What goes on after a switch is a handler the next process was
switched out of: `KernelContextSwitch` resumes it where it last switched
out, or, for a child, where `copy_kernel` copied its parent's kernel context.

A run is that of the machine with the handler every process is inside. Two
things are kept of it as history: what a process last saved, with all that
its handler has run since, and what was restored to whom.
-/

namespace Yalnix

variable {Node Addr : Type}

/-! ## Traps -/

/-- `regs[0] = r`. -/
def UserContext.answer (uc : UserContext) (r : ℤ) : UserContext :=
  { uc with regs := Function.update uc.regs 0 r }

/-- The context a handler that has this value restores. -/
def UserContext.returned (uc : UserContext) : Option ℤ → UserContext
  | some r => uc.answer r
  | none => uc

/-- What a handler that saves a context is entered for: something the machine
does (`TrapMemory` is `ProcAct.fault`), `GetPid`, or a `code` that
`TrapKernel` does not know, with what `return_val` then has. -/
inductive Trap (Node Addr : Type) where
  | event (e : Event Node Addr)
  | getPid
  | unhandled (returnVal : ℤ)

/-- A trap, and not a store in user mode or what is left of a call. -/
def Event.Traps : Event Node Addr → Bool
  | .call (.proc (.store _ _)) => false
  | .call (.proc .resume) => false
  | .resume => false
  | _ => true

/-- `add_return_val` is called at the end of the handler. -/
def Trap.adds : Trap Node Addr → Bool
  | .event e => e.adds
  | _ => true

def Trap.IsExec : Trap Node Addr → Prop
  | .event e => e.IsExec
  | _ => False

/-- **Where a process was switched out.** -/
inductive Pending (Node : Type) where
  /-- In a block inside a system call, which the machine has a frame of. -/
  | inside
  /-- In `block_delay`. -/
  | delay
  /-- In the `rr_preempt` of `TrapClock`. -/
  | preempted
  /-- Nowhere yet: a copy of the `KernelFork` of its parent, with its locals
  `parent` and, by `child_node`, the child's pid. -/
  | forked (parent : Node) (pid : ℤ)
  /-- In the `copy_kernel` of `idle_setup`. -/
  | boot

/-- Where an event that ends in `run_next` has its process switched out. -/
def Event.pending : Event Node Addr → Pending Node
  | .call (.delay _) => .delay
  | .clock => .preempted
  | _ => .inside

/-- What goes on here is a system call, which has a value to add. -/
def Pending.adds : Pending Node → Bool
  | .preempted => false
  | .boot => false
  | _ => true

/-! ## History -/

/-- Why a process has the context it has saved. -/
inductive Origin (Node Addr : Type) where
  /-- Its own trap. -/
  | own (trap : Trap Node Addr)
  /-- Its own trap, a `Fork` that has made a child of this pid. -/
  | parent (trap : Trap Node Addr) (pid : ℤ)
  /-- The `Fork` it was born in. -/
  | child
  /-- `idle_setup`. -/
  | boot

/-- A handler has run, on this machine, to its end or to a `run_next`. -/
structure Activation (Node Addr : Type) where
  machine : Machine Node Addr
  event : Event Node Addr

/-- What a process last saved, and what its handler has run since, the last
first. -/
structure Entry (Node Addr : Type) where
  uc : UserContext
  origin : Origin Node Addr
  ran : List (Activation Node Addr)

/-- A handler has restored a context. `owner` is the process it returns to,
`pid` and `entry` are the owner's, and `uc` is what the handler takes from the
pcb of `procs->running`. -/
structure Restore (Node Addr : Type) where
  owner : Node
  pid : Option ℤ
  entry : Option (Entry Node Addr)
  value : Option ℤ
  uc : Option UserContext

/-- The machine with its handlers. -/
structure Handlers (Node Addr : Type) where
  machine : Machine Node Addr
  /-- Whose kernel context is executed. -/
  context : Node
  /-- Who is inside a handler, switched out or just switched in. -/
  pending : Node → Option (Pending Node)
  /-- By births. -/
  entry : ℕ → Entry Node Addr
  restored : List (Restore Node Addr)

/-- What can happen: a trap with the context it interrupts; `TrapIllegal` or
`TrapMath`, which save none; a store in user mode; or the process that has
been switched in goes on. -/
inductive TrapEvent (Node Addr : Type) where
  | trap (uc : UserContext) (trap : Trap Node Addr)
  | abort
  | store (addr : ℤ) (byte : Byte)
  | back

/-- The lengths and numbers it hands over are in range. -/
def TrapEvent.InRange : TrapEvent Node Addr → Prop
  | .trap _ (.event e) => e.InRange
  | _ => True

variable [DecidableEq Node]

namespace Machine

/-- `save_uc`. -/
def saveUc (m : Machine Node Addr) (uc : UserContext) : Machine Node Addr :=
  { m with kernel := m.kernel.modify m.kernel.procs.running fun c => { c with uc := uc } }

/-- `add_return_val`. -/
def addReturnVal (m : Machine Node Addr) (r : ℤ) : Machine Node Addr :=
  { m with kernel := m.kernel.modify m.kernel.procs.running fun c => { c with uc := c.uc.answer r } }

/-- The same, in a handler that has a value to add. -/
def addReturn (m : Machine Node Addr) : Option ℤ → Machine Node Addr
  | some r => m.addReturnVal r
  | none => m

end Machine

/-! ## What runs -/

namespace Handlers

/-- History, of the process whose kernel context is executed. -/
def note (s : Handlers Node Addr) (f : Entry Node Addr → Entry Node Addr) :
    Handlers Node Addr :=
  { s with
    entry := match s.machine.kernel.proc s.context with
      | some c => Function.update s.entry c.serial (f (s.entry c.serial))
      | none => s.entry }

/-- History: its handler runs. -/
def ranOn (s : Handlers Node Addr) (e : Event Node Addr) (ent : Entry Node Addr) :
    Entry Node Addr :=
  { ent with ran := ⟨s.machine, e⟩ :: ent.ran }

/-- `restore_uc`, at the end of a handler, after `add_return_val` if there is
a value. -/
def leave (s : Handlers Node Addr) (m : Machine Node Addr) (r : Option ℤ) :
    Handlers Node Addr :=
  let m := m.addReturn r
  let pcb := m.kernel.proc s.context
  { s with
    machine := m
    pending := Function.update s.pending s.context none
    restored := s.restored ++ [⟨s.context, pcb.map Proc.pid, pcb.map fun c => s.entry c.serial, r,
      m.kernel.curr.map Proc.uc⟩] }

/-- `save_uc`, at the entry of a handler. -/
def enter (s : Handlers Node Addr) (uc : UserContext) (trap : Trap Node Addr) :
    Handlers Node Addr :=
  { s.note fun _ => ⟨uc, .own trap, []⟩ with machine := s.machine.saveUc uc }

/-- `KCCopy`: where `Fork` has made a child, the child is inside a copy of
its handler. -/
def kcCopy (s : Handlers Node Addr) (e : Event Node Addr) (t : Machine Node Addr) :
    Handlers Node Addr :=
  match e with
  | .call (.proc (.fork child _ _)) =>
    match s.machine.kernel.proc s.context, s.machine.kernel.proc child, t.kernel.proc child with
    | some c, none, some d => { s with
      pending := Function.update s.pending child
        (some (.forked s.machine.kernel.procs.running d.pid))
      entry := Function.update
        (Function.update s.entry c.serial
          { s.entry c.serial with origin := .parent (.event e) d.pid })
        d.serial ⟨(s.entry c.serial).uc, .child, []⟩ }
    | _, _, _ => s
  | _ => s

/-- `KCSwitch`: the process whose context was executed stays where it is, and
the one that is running now goes on where it was. -/
def kcSwitch (s : Handlers Node Addr) (m : Machine Node Addr) (where' : Pending Node) :
    Handlers Node Addr :=
  { s with
    machine := m
    context := m.kernel.procs.running
    pending := Function.update s.pending s.context (some where') }

variable [Paging] [Devices] [DecidableEq Addr]

/-- The handler runs, to its return or to `run_next`. -/
def goOn (s : Handlers Node Addr) (e : Event Node Addr) : Option (Handlers Node Addr) :=
  match s.machine.step e, s.machine.ending e with
  | some t, some (.returns r) => some (((s.note (s.ranOn e)).kcCopy e t).leave t r)
  | some t, some .runNext => some (((s.note (s.ranOn e)).kcCopy e t).kcSwitch t e.pending)
  | _, _ => none

/-- What the process that has been switched in goes on with. A child asks
who it is: `procs->running == parent`. -/
def resume (s : Handlers Node Addr) : Pending Node → Option (Handlers Node Addr)
  | .inside => s.goOn .resume
  | .delay => some (s.leave s.machine (some 0))
  | .preempted => some (s.leave s.machine none)
  | .forked parent pid =>
    some (s.leave s.machine (some (if s.machine.kernel.procs.running = parent then pid else 0)))
  | .boot => some (s.leave s.machine none)

/-- **One event.** In user mode nobody is inside a handler. -/
def step (s : Handlers Node Addr) : TrapEvent Node Addr → Option (Handlers Node Addr)
  | .trap uc (.event e) =>
    if (s.pending s.context).isSome ∨ ¬ e.Traps then none else (s.enter uc (.event e)).goOn e
  | .trap uc .getPid =>
    if (s.pending s.context).isSome then none
    else s.machine.kernel.curr.map fun c =>
      (s.enter uc .getPid).leave (s.machine.saveUc uc) (some c.pid)
  | .trap uc (.unhandled returnVal) =>
    if (s.pending s.context).isSome then none
    else some ((s.enter uc (.unhandled returnVal)).leave (s.machine.saveUc uc) (some returnVal))
  | .abort =>
    if (s.pending s.context).isSome then none else s.goOn (.call (.proc (.exit errorCode)))
  | .store addr byte =>
    if (s.pending s.context).isSome then none
    else (s.machine.step (.call (.proc (.store addr byte)))).map fun t => { s with machine := t }
  | .back => (s.pending s.context).bind s.resume

/-- `KernelStart`. Init is in user mode when it returns, and idle has yet to
come back from it. -/
def start (b : Boot Node Addr) : Option (Handlers Node Addr) :=
  (Machine.start b).map fun m =>
    { machine := m
      context := m.kernel.procs.running
      pending := fun n => if n = m.kernel.procs.idleNode then some .boot else none
      entry := fun _ => ⟨{ b.uc with pc := b.doIdle, sp := vmem1Limit - 4 }, .boot, []⟩
      restored := [] }

end Handlers

/-! ## Whose result it is -/

variable [Paging] [Devices] [DecidableEq Addr]

/-- **A handler of the process `p`**, activation by activation, the last
first: `p` enters it for `e`, and comes back to the call it was switched out
in, which nobody has touched since. -/
inductive Handled (p : Node) (e : Event Node Addr) : List (Activation Node Addr) → Prop
  | entered {m : Machine Node Addr} : m.kernel.procs.running = p → Handled p e [⟨m, e⟩]
  | back {m t : Machine Node Addr} {a : Activation Node Addr}
      {before : List (Activation Node Addr)} :
    Handled p e (a :: before) → a.machine.step a.event = some t →
      a.machine.ending a.event = some .runNext → m.callOf p = t.callOf p →
      m.kernel.procs.running = p → Handled p e (⟨m, .resume⟩ :: a :: before)

/-- What a handler has for `add_return_val` that has run so far: what it
returned or, back from its `run_next`, what comes after it in `KernelDelay`
and `TrapClock`. -/
def Activation.Gives (a : Activation Node Addr) (r : Option ℤ) : Prop :=
  match a.machine.ending a.event with
  | some (.returns v) => r = v
  | some .runNext =>
    match a.event.pending with
    | .delay => r = some 0
    | .preempted => r = none
    | _ => False
  | none => False

/-- **The result of a trap** of the process `p`, whose handler has run so
far. -/
def Trap.Result (p : Node) (pid : ℤ) (ran : List (Activation Node Addr)) (r : Option ℤ) :
    Trap Node Addr → Prop
  | .event e => Handled p e ran ∧ ∃ a ∈ ran.head?, a.Gives r
  | .getPid => r = some pid
  | .unhandled returnVal => r = some returnVal

/-- What the context of an entry may come back as. -/
def Entry.Answered (ent : Entry Node Addr) (p : Node) (pid : ℤ) (value : Option ℤ)
    (uc : UserContext) : Prop :=
  match ent.origin with
  | .own trap => trap.Result p pid ent.ran value ∧ (trap.IsExec ∨
    if trap.adds then ∃ v, value = some v ∧ uc = ent.uc.answer v else value = none ∧ uc = ent.uc)
  | .parent trap childPid =>
    trap.Result p pid ent.ran value ∧ value = some childPid ∧ uc = ent.uc.answer childPid
  | .child => value = some 0 ∧ uc = ent.uc.answer 0
  | .boot => value = none ∧ uc = ent.uc

/-- **The context that was restored** is that of the process it was restored
for, with only the result of its own call put in. -/
def Restore.Own (r : Restore Node Addr) : Prop :=
  ∃ pid ent uc, r.pid = some pid ∧ r.entry = some ent ∧ r.uc = some uc ∧
    ent.Answered r.owner pid r.value uc

end Yalnix
