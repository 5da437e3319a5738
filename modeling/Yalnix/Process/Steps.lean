import Yalnix.Process.Model
/-!
# What the operations on processes leave alone

Most of what happens to a process is done by its own calls. The walks over
other processes (`orphanAll`, `destroyAll`, `graveyard`) store in their
links, or free them, and keep their memory: `Leaves` says so, and the calls
are put together from it.
-/

namespace Yalnix

variable {Node Addr : Type}

/-- **The same process with other links**: its memory and its identity are
what they were, and it is alive or dead as it was. -/
structure Proc.Same (c c' : Proc Node Addr) : Prop where
  userpt : c'.userpt = c.userpt
  kstack : c'.kstack = c.kstack
  data : c'.data = c.data
  inherited : c'.inherited = c.inherited
  serial : c'.serial = c.serial
  pid : c'.pid = c.pid
  code : c'.code = c.code
  alive : c'.kin.isSome = c.kin.isSome

theorem Proc.Same.refl (c : Proc Node Addr) : c.Same c :=
  ⟨rfl, rfl, rfl, rfl, rfl, rfl, rfl, rfl⟩

theorem Proc.Same.trans {c c' c'' : Proc Node Addr} (h : c.Same c') (h' : c'.Same c'') :
    c.Same c'' where
  userpt := h'.userpt.trans h.userpt
  kstack := h'.kstack.trans h.kstack
  data := h'.data.trans h.data
  inherited := h'.inherited.trans h.inherited
  serial := h'.serial.trans h.serial
  pid := h'.pid.trans h.pid
  code := h'.code.trans h.code
  alive := h'.alive.trans h.alive

/-- **What an operation leaves alone**: the processes outside `S` that are
still there are the same, and nobody is put to sleep in `KernelWait`. -/
structure Leaves (k k' : Kernel Node Addr) (S : Set Node) : Prop where
  idleNode : k'.procs.idleNode = k.procs.idleNode
  initNode : k'.initNode = k.initNode
  waits : k'.waits = k.waits
  brk : k'.brk = k.brk
  keeps : ∀ n, n ∉ S → ∀ c', k'.proc n = some c' → ∃ c, k.proc n = some c ∧ c.Same c'

namespace Leaves

variable {k k' k'' : Kernel Node Addr} {S S' : Set Node}

/-- Where the processes are not touched, all of them are the same. -/
theorem of_proc_eq (hidle : k'.procs.idleNode = k.procs.idleNode) (hinit : k'.initNode = k.initNode)
    (hwaits : k'.waits = k.waits) (hbrk : k'.brk = k.brk) (hproc : k'.proc = k.proc) :
    Leaves k k' S :=
  ⟨hidle, hinit, hwaits, hbrk, fun _ _ c' hc => ⟨c', hproc ▸ hc, Proc.Same.refl c'⟩⟩

theorem refl (k : Kernel Node Addr) (S : Set Node) : Leaves k k S :=
  of_proc_eq rfl rfl rfl rfl rfl

theorem trans (h : Leaves k k' S) (h' : Leaves k' k'' S) : Leaves k k'' S where
  idleNode := h'.idleNode.trans h.idleNode
  initNode := h'.initNode.trans h.initNode
  waits := h'.waits.trans h.waits
  brk := h'.brk.trans h.brk
  keeps := by
    intro n hn c'' hc''
    obtain ⟨c', hc', hsame'⟩ := h'.keeps n hn c'' hc''
    obtain ⟨c, hc, hsame⟩ := h.keeps n hn c' hc'
    exact ⟨c, hc, hsame.trans hsame'⟩

theorem mono (h : Leaves k k' S) (hS : S ⊆ S') : Leaves k k' S' :=
  ⟨h.idleNode, h.initNode, h.waits, h.brk, fun n hn => h.keeps n fun hmem => hn (hS hmem)⟩

end Leaves

section Ops

variable [DecidableEq Node] {k : Kernel Node Addr} {n m : Node}
  {f : Proc Node Addr → Proc Node Addr} {S : Set Node}

theorem modify_self (c : Proc Node Addr) (h : k.proc n = some c) :
    (k.modify n f).proc n = some (f c) := by
  rw [Kernel.modify]
  dsimp only
  rw [Function.update_self, h]
  rfl

theorem modify_of_ne (h : m ≠ n) : (k.modify n f).proc m = k.proc m :=
  Function.update_of_ne h _ _

/-- A store through a node that keeps the process's memory. -/
theorem leaves_modify (hf : ∀ c, k.proc n = some c → Proc.Same c (f c)) :
    Leaves k (k.modify n f) S := by
  refine ⟨rfl, rfl, rfl, rfl, fun m _ c' hc' => ?_⟩
  rcases eq_or_ne m n with rfl | hm
  · rw [Kernel.modify] at hc'
    dsimp only at hc'
    rw [Function.update_self, Option.map_eq_some_iff] at hc'
    obtain ⟨c, hc, rfl⟩ := hc'
    exact ⟨c, hc, hf c hc⟩
  · rw [modify_of_ne hm] at hc'
    exact ⟨c', hc', Proc.Same.refl c'⟩

/-- A store through a node, whatever it does to that one process. -/
theorem leaves_modify_self : Leaves k (k.modify n f) {n} := by
  refine ⟨rfl, rfl, rfl, rfl, fun m hm c' hc' => ?_⟩
  rw [modify_of_ne hm] at hc'
  exact ⟨c', hc', Proc.Same.refl c'⟩

theorem leaves_orphanAll (addrs : List Addr) : Leaves k (orphanAll addrs k) S := by
  induction addrs generalizing k with
  | nil => exact Leaves.refl k S
  | cons curr rest ih =>
    rw [orphanAll]
    cases k.pcbAt curr with
    | none => exact ih
    | some n =>
      have hmod : Leaves k (k.modify n fun c => { c with parent := none }) S :=
        leaves_modify fun c _ => ⟨rfl, rfl, rfl, rfl, rfl, rfl, rfl, rfl⟩
      exact hmod.trans ih

theorem leaves_switchTo (c : Proc Node Addr) : Leaves k (switchTo k n c) S :=
  Leaves.of_proc_eq rfl rfl rfl rfl rfl

@[simp] theorem switchTo_proc (c : Proc Node Addr) : (switchTo k n c).proc = k.proc := rfl

@[simp] theorem switchTo_running (c : Proc Node Addr) :
    (switchTo k n c).procs.running = n := rfl

theorem switchTo_curr {c : Proc Node Addr} (h : k.proc n = some c) :
    (switchTo k n c).curr = some c := h

variable [Paging] [DecidableEq Addr]

theorem leaves_processDestroy : Leaves k (processDestroy k n) S := by
  unfold processDestroy
  cases hk : k.proc n with
  | none => exact Leaves.refl k S
  | some p =>
    refine ⟨rfl, rfl, rfl, rfl, fun m _ c' hc' => ?_⟩
    dsimp only at hc'
    rcases eq_or_ne m n with rfl | hm
    · rw [Function.update_self] at hc'
      cases hc'
    · rw [Function.update_of_ne hm] at hc'
      exact ⟨c', hc', Proc.Same.refl c'⟩

theorem leaves_destroyAll (procs : List Node) : Leaves k (destroyAll procs k) S := by
  induction procs generalizing k with
  | nil => exact Leaves.refl k S
  | cons proc rest ih => exact leaves_processDestroy.trans ih

theorem destroyAll_procs (procs : List Node) : (destroyAll procs k).procs = k.procs := by
  induction procs generalizing k with
  | nil => rfl
  | cons proc rest ih =>
    rw [destroyAll, ih]
    unfold processDestroy
    split <;> rfl

@[simp] theorem reapOrphans_running : (reapOrphans k).procs.running = k.procs.running := by
  unfold reapOrphans
  dsimp only
  rw [destroyAll_procs]

theorem leaves_reapOrphans : Leaves k (reapOrphans k) S :=
  (leaves_destroyAll k.procs.orphans).trans (Leaves.of_proc_eq rfl rfl rfl rfl rfl)

/-- `process_terminate`, of a process that has not been terminated. -/
theorem processTerminate_eq (rc : ℤ) {p : Proc Node Addr} {kin : Kin Node Addr}
    (hp : k.proc n = some p) (hkin : p.kin = some kin) :
    processTerminate k n rc = (destroyDefunct kin.dChildren
      (orphanAll kin.aChildren (releaseUser k n p rc))).modify n fun p => { p with kin := none } := by
  unfold processTerminate
  rw [hp]
  dsimp only
  rw [hkin]

/-- Of one that has, nothing is done. -/
theorem processTerminate_of_dead (rc : ℤ) (h : ∀ p, k.proc n = some p → p.kin = none) :
    processTerminate k n rc = k := by
  unfold processTerminate
  cases hp : k.proc n with
  | none => rfl
  | some p =>
    dsimp only
    rw [h p hp]

omit [DecidableEq Addr] in
theorem leaves_releaseUser (rc : ℤ) (p : Proc Node Addr) : Leaves k (releaseUser k n p rc) {n} := by
  refine ⟨rfl, rfl, rfl, rfl, fun m hm c' hc' => ?_⟩
  unfold releaseUser at hc'
  dsimp only at hc'
  rw [Function.update_of_ne hm] at hc'
  exact ⟨c', hc', Proc.Same.refl c'⟩

theorem leaves_destroyDefunct (procs : List Node) : Leaves k (destroyDefunct procs k) S := by
  cases procs with
  | nil => exact Leaves.refl k S
  | cons curr rest => exact leaves_processDestroy

omit [DecidableEq Node] [Paging] [DecidableEq Addr] in
/-- Alive, or not there, or dead. -/
theorem alive_or_dead (k : Kernel Node Addr) (n : Node) :
    (∃ p kin, k.proc n = some p ∧ p.kin = some kin) ∨ ∀ p, k.proc n = some p → p.kin = none := by
  by_cases h : ∃ p kin, k.proc n = some p ∧ p.kin = some kin
  · exact Or.inl h
  · refine Or.inr fun p hp => ?_
    cases hkin : p.kin with
    | none => rfl
    | some kin => exact absurd ⟨p, kin, hp, hkin⟩ h

theorem leaves_processTerminate (rc : ℤ) : Leaves k (processTerminate k n rc) {n} := by
  rcases alive_or_dead k n with ⟨p, kin, hp, hkin⟩ | hdead
  · rw [processTerminate_eq rc hp hkin]
    have hwalk := (leaves_releaseUser (k := k) (n := n) rc p).trans
      ((leaves_orphanAll kin.aChildren).trans (leaves_destroyDefunct kin.dChildren))
    exact hwalk.trans leaves_modify_self
  · rw [processTerminate_of_dead rc hdead]
    exact Leaves.refl k _

/-- A terminated process is dead. -/
theorem processTerminate_dead (rc : ℤ) {c' : Proc Node Addr}
    (h : (processTerminate k n rc).proc n = some c') : c'.kin = none := by
  rcases alive_or_dead k n with ⟨p, kin, hp, hkin⟩ | hdead
  · rw [processTerminate_eq rc hp hkin, Kernel.modify] at h
    dsimp only at h
    rw [Function.update_self, Option.map_eq_some_iff] at h
    obtain ⟨p', -, rfl⟩ := h
    rfl
  · rw [processTerminate_of_dead rc hdead] at h
    exact hdead c' h

omit [Paging] [DecidableEq Addr] in
theorem checkWait_idleNode (procs : ProcTable Node) (parent : Node) :
    (checkWait procs parent).idleNode = procs.idleNode := by
  unfold checkWait unblockWaiting
  split
  · split <;> rfl
  · rfl

omit [DecidableEq Node] [Paging] in
theorem runNextReady_idleNode (procs : ProcTable Node) :
    (runNextReady procs).idleNode = procs.idleNode := by
  unfold runNextReady
  split <;> rfl

omit [DecidableEq Node] [Paging] in
@[simp] theorem blockWait_idleNode (procs : ProcTable Node) :
    (blockWait procs).idleNode = procs.idleNode := runNextReady_idleNode procs

omit [Paging] [DecidableEq Addr] in
theorem leaves_graveyard : Leaves k (graveyard k) S := by
  unfold graveyard
  dsimp only
  cases k.curr.bind Proc.parent with
  | none =>
    exact Leaves.of_proc_eq (runNextReady_idleNode _) rfl rfl rfl rfl
  | some parent =>
    have hmod : Leaves k (k.modify parent fun p => { p with kin := p.kin.map fun kin =>
        { kin with dChildren := kin.dChildren ++ [k.procs.running] } }) S :=
      leaves_modify fun c _ => ⟨rfl, rfl, rfl, rfl, rfl, rfl, rfl, by simp⟩
    refine hmod.trans (Leaves.of_proc_eq ?_ rfl rfl rfl rfl)
    rw [runNextReady_idleNode]
    exact checkWait_idleNode _ _

/-- **`KernelExit`** leaves everybody else's memory alone, and its caller
dead. -/
theorem kernelExit_leaves {k' : Kernel Node Addr} {status : ℤ}
    (h : kernelExit k status = some k') :
    Leaves k k' {k.procs.running} ∧
      ∀ c', k'.proc k.procs.running = some c' → c'.kin = none := by
  unfold kernelExit at h
  split at h
  · cases h
  · obtain rfl := Option.some.inj h
    have hreap : Leaves k (reapOrphans k) {k.procs.running} := leaves_reapOrphans
    have hterm := leaves_processTerminate (k := reapOrphans k) (n := k.procs.running) status
    rw [reapOrphans_running]
    refine ⟨(hreap.trans hterm).trans leaves_graveyard, fun c' hc' => ?_⟩
    have hgrave := leaves_graveyard (k := processTerminate (reapOrphans k) k.procs.running status)
      (S := ∅)
    obtain ⟨c, hc, hsame⟩ := hgrave.keeps k.procs.running (Set.notMem_empty _) c' hc'
    have hdead := processTerminate_dead status hc
    have halive := hsame.alive
    rw [hdead] at halive
    simpa using halive

end Ops

/-! ## What each call does -/

section Calls

variable [Paging] [DecidableEq Node] [DecidableEq Addr]

open Paging

/-- The kernel with another record for a process, and memory as it then
is. -/
def Kernel.set (k : Kernel Node Addr) (n : Node) (c : Proc Node Addr) (mem : Memory) :
    Kernel Node Addr :=
  { k with mem := mem, proc := Function.update k.proc n (some c) }

variable {k : Kernel Node Addr} {n p : Node} {c : Proc Node Addr} {S : Set Node}

omit [Paging] [DecidableEq Addr] in
theorem leaves_set (c : Proc Node Addr) (mem : Memory) : Leaves k (k.set n c mem) {n} := by
  refine ⟨rfl, rfl, rfl, rfl, fun m hm c' hc' => ?_⟩
  unfold Kernel.set at hc'
  dsimp only at hc'
  rw [Function.update_of_ne hm] at hc'
  exact ⟨c', hc', Proc.Same.refl c'⟩

omit [Paging] [DecidableEq Addr] in
theorem set_self (c : Proc Node Addr) (mem : Memory) : (k.set n c mem).proc n = some c :=
  Function.update_self _ _ _

omit [Paging] [DecidableEq Addr] in
/-- A store to a process that is there, with memory changed first. -/
theorem modify_eq_set (h : k.proc n = some c) (mem : Memory)
    (f : Proc Node Addr → Proc Node Addr) :
    { k with mem := mem }.modify n f = k.set n (f c) mem := by
  unfold Kernel.modify Kernel.set
  dsimp only
  rw [h]
  rfl

omit [DecidableEq Addr] in
/-- **`KernelUserBrk`** gives its caller another page table, or refuses. -/
theorem kernelUserBrk_set {addr : ℤ} {r : Kernel Node Addr × ℤ} (hc : k.curr = some c)
    (h : kernelUserBrk k addr = some r) :
    r.1 = k ∨ ∃ u mem, r.1 = k.set k.procs.running { c with userpt := u } mem := by
  unfold kernelUserBrk at h
  rw [hc] at h
  dsimp only at h
  rw [modify_eq_set hc, modify_eq_set hc] at h
  split at h
  · exact Or.inl (congrArg Prod.fst (Option.some.inj h).symm)
  split at h
  · split at h
    · exact Or.inl (congrArg Prod.fst (Option.some.inj h).symm)
    · exact Or.inr ⟨_, _, congrArg Prod.fst (Option.some.inj h).symm⟩
  · exact Or.inr ⟨_, _, congrArg Prod.fst (Option.some.inj h).symm⟩

/-- **So does `TrapMemory`**, or it ends the process. -/
theorem trapMemory_set {addr : ℤ} {k' : Kernel Node Addr} (hc : k.curr = some c)
    (h : trapMemory k addr = some k') :
    kernelExit k errorCode = some k' ∨
    ∃ u mem, k' = k.set k.procs.running { c with userpt := u } mem := by
  unfold trapMemory at h
  rw [hc] at h
  dsimp only at h
  rw [modify_eq_set hc] at h
  split at h
  · split at h
    · exact Or.inl h
    · exact Or.inr ⟨_, _, (Option.some.inj h).symm⟩
  · exact Or.inl h

/-- The child `KernelFork` makes. -/
def childOf (k : Kernel Node Addr) (c : Proc Node Addr) (data : Addr) (pid : ℤ) :
    Proc Node Addr :=
  { processInit data pid k.born with
    parent := some k.procs.running
    uc := c.uc
    userpt := (copyUserMem k.mem c.userpt newUserPt).2
    kstack := (kcCopy (copyUserMem k.mem c.userpt newUserPt).1 fun _ => invalidPte).2
    inherited := true }

/-- Its parent, after. -/
def parentOf (k : Kernel Node Addr) (c : Proc Node Addr) (data : Addr) : Proc Node Addr :=
  { c with
    kin := c.kin.map fun kin => { kin with aChildren := kin.aChildren ++ [data] }
    children := c.children ++ [k.born] }

/-- The kernel after a `KernelFork` that goes through. -/
def forked (k : Kernel Node Addr) (c : Proc Node Addr) (child : Node) (data : Addr) (pid : ℤ) :
    Kernel Node Addr :=
  { k with
    mem := (kcCopy (copyUserMem k.mem c.userpt newUserPt).1 fun _ => invalidPte).1
    procs := ready k.procs child
    born := k.born + 1
    pcbAt := Function.update k.pcbAt data (some child)
    proc := Function.update (Function.update k.proc k.procs.running (some (parentOf k c data)))
      child (some (childOf k c data pid)) }

/-- **`KernelFork`** refuses, or makes the child. -/
theorem kernelFork_cases {child : Node} {data : Addr} {pid : ℤ} {r : Kernel Node Addr × ℤ}
    (hc : k.curr = some c) (h : kernelFork k child data pid = some r) :
    (noKernelMemory k (c.userpt.size + 3) = true ∧ r = (k, errorCode)) ∨
    (noKernelMemory k (c.userpt.size + 3) = false ∧ k.proc child = none ∧ k.pcbAt data = none ∧
      r = (forked k c child data pid, pid)) := by
  unfold kernelFork at h
  rw [hc] at h
  dsimp only at h
  split at h
  · rename_i hno
    exact Or.inl ⟨hno, (Option.some.inj h).symm⟩
  · rename_i hyes
    split at h
    · cases h
    · rename_i hfresh
      rw [not_or, Bool.not_eq_true, Bool.not_eq_true, Option.isSome_eq_false_iff,
        Option.isSome_eq_false_iff, Option.isNone_iff_eq_none, Option.isNone_iff_eq_none] at hfresh
      refine Or.inr ⟨by simpa using hyes, hfresh.1, hfresh.2, ?_⟩
      rw [← Option.some.inj h]
      unfold copyKernel processCopy
      dsimp only
      rw [Function.update_self]
      dsimp only
      rw [Function.update_idem]
      rfl

/-- The record `KernelExec` leaves the caller with. -/
def loadedProc (c : Proc Node Addr) (r : Loaded × LoadCode) : Proc Node Addr :=
  { c with
    userpt := r.1.userpt
    uc := r.1.uc
    inherited := c.inherited && r.2 ≠ .success }

/-- **`KernelExec`** refuses, or loads; or it has lost the old program and
has no new one, and the process exits. -/
theorem kernelExec_cases {filename argvec : ℤ} {env : LoadEnv} {r : Kernel Node Addr × ℤ}
    (hc : k.curr = some c) (h : kernelExec k filename argvec env = some r) :
    r.1 = k ∨ ∃ args l, loadProgram k.mem c.userpt c.uc args env = l ∧
      ((l.2 ≠ .kill ∧ r.1 = k.set k.procs.running (loadedProc c l) l.1.mem) ∨
        (l.2 = .kill ∧
          kernelExit (k.set k.procs.running (loadedProc c l) l.1.mem) errorCode = some r.1)) := by
  unfold kernelExec at h
  rw [hc] at h
  dsimp only at h
  split at h
  · cases h
  · exact Or.inl (congrArg Prod.fst (Option.some.inj h).symm)
  · obtain ⟨l, hl⟩ : ∃ l, l = loadProgram k.mem c.userpt c.uc
        (argsAt k.mem c.userpt.pt maxCheck argvec) env := ⟨_, rfl⟩
    rw [← hl, modify_eq_set hc] at h
    refine Or.inr ⟨_, l, hl.symm, ?_⟩
    split at h
    · rename_i hcode
      rw [hcode]
      exact Or.inl ⟨by simp, congrArg Prod.fst (Option.some.inj h).symm⟩
    · rename_i hcode
      rw [hcode]
      exact Or.inl ⟨by simp, congrArg Prod.fst (Option.some.inj h).symm⟩
    · rename_i hcode
      rw [Option.map_eq_some_iff] at h
      obtain ⟨k', hk', rfl⟩ := h
      exact Or.inr ⟨hcode, hk'⟩

/-- The kernel after `KernelWait` has collected a child. -/
def collected (k : Kernel Node Addr) (c : Proc Node Addr) (kin : Kin Node Addr) (child : Node)
    (rest : List Node) (childPcb : Proc Node Addr) (statusPtr : ℤ) : Kernel Node Addr :=
  let k := k.set k.procs.running { c with
    kin := some { kin with dChildren := rest }
    children := c.children.erase childPcb.serial } k.mem
  let k :=
    if statusPtr ≠ 0 then storeUser k c.userpt.pt statusPtr (wordBytes childPcb.code) else k
  reapOrphans (processDestroy k child)

/-- **The loop of `KernelWait`** goes to sleep, or collects the first of the
defunct. -/
theorem waitLoop_cases {kin : Kin Node Addr} {statusPtr : ℤ} {r : Kernel Node Addr × Outcome ℤ}
    (hc : k.curr = some c) (hkin : c.kin = some kin) (h : waitLoop k statusPtr = some r) :
    (kin.dChildren = [] ∧ r = ({ k with procs := blockWait k.procs }, .blocked statusPtr)) ∨
    ∃ child rest childPcb, kin.dChildren = child :: rest ∧ k.proc child = some childPcb ∧
      r = (collected k c kin child rest childPcb statusPtr, .returned childPcb.pid) := by
  unfold waitLoop at h
  rw [hc] at h
  dsimp only at h
  rw [hkin] at h
  dsimp only at h
  cases hd : kin.dChildren with
  | nil =>
    rw [hd] at h
    exact Or.inl ⟨rfl, (Option.some.inj h).symm⟩
  | cons child rest =>
    rw [hd] at h
    dsimp only at h
    cases hchild : k.proc child with
    | none =>
      rw [hchild] at h
      cases h
    | some childPcb =>
      rw [hchild] at h
      dsimp only at h
      have hmod := modify_eq_set hc k.mem fun p =>
        { p with
          kin := some { kin with dChildren := rest }
          children := p.children.erase childPcb.serial }
      refine Or.inr ⟨child, rest, childPcb, rfl, hchild, ?_⟩
      rw [← Option.some.inj h]
      unfold collected
      rw [← hmod]

/-- **`KernelWait`** refuses a pointer, or has no children to wait for, or
goes on to its loop. -/
theorem kernelWait_cases {kin : Kin Node Addr} {statusPtr : ℤ} {r : Kernel Node Addr × Outcome ℤ}
    (hc : k.curr = some c) (hkin : c.kin = some kin) (h : kernelWait k statusPtr = some r) :
    (statusPtr ≠ 0 ∧ checkAddr statusPtr protWrite c.userpt.pt = false ∧
      r = (k, .returned errorCode)) ∨
    ((statusPtr = 0 ∨ checkAddr statusPtr protWrite c.userpt.pt = true) ∧
      ((kin.aChildren = [] ∧ kin.dChildren = [] ∧ r = (k, .returned errorCode)) ∨
        (¬ (kin.aChildren = [] ∧ kin.dChildren = []) ∧ waitLoop k statusPtr = some r))) := by
  unfold kernelWait at h
  rw [hc] at h
  dsimp only at h
  split at h
  · rename_i hcheck
    exact Or.inl ⟨hcheck.1, by simpa using hcheck.2, (Option.some.inj h).symm⟩
  · rename_i hcheck
    refine Or.inr ⟨?_, ?_⟩
    · by_contra hcon
      rw [not_or] at hcon
      exact hcheck ⟨hcon.1, hcon.2⟩
    · rw [hkin] at h
      dsimp only at h
      split at h
      · rename_i hnone
        exact Or.inl ⟨hnone.1, hnone.2, (Option.some.inj h).symm⟩
      · rename_i hsome
        exact Or.inr ⟨hsome, h⟩

/-- The process is inside `KernelWait`, past its tests, with this
`status_ptr`: it has just called, or it comes back from the block. -/
def InWait (k : Kernel Node Addr) (c : Proc Node Addr) (kin : Kin Node Addr)
    (act : ProcAct Node Addr) (statusPtr : ℤ) : Prop :=
  (act = .wait statusPtr ∧ (statusPtr = 0 ∨ checkAddr statusPtr protWrite c.userpt.pt = true) ∧
    ¬ (kin.aChildren = [] ∧ kin.dChildren = [])) ∨
  (act = .resume ∧ k.waits k.procs.running = some statusPtr)

/-- **What an activation can do.** -/
inductive Effect (k : Kernel Node Addr) (c : Proc Node Addr) (kin : Kin Node Addr) :
    ProcAct Node Addr → Kernel Node Addr → Prop
  | forkRefused (child : Node) (data : Addr) (pid : ℤ)
      (hno : noKernelMemory k (c.userpt.size + 3) = true) :
      Effect k c kin (.fork child data pid) k
  | forked (child : Node) (data : Addr) (pid : ℤ)
      (hyes : noKernelMemory k (c.userpt.size + 3) = false)
      (hchild : k.proc child = none) (hdata : k.pcbAt data = none) :
      Effect k c kin (.fork child data pid) (forked k c child data pid)
  | execRefused (filename argvec : ℤ) (env : LoadEnv) :
      Effect k c kin (.exec filename argvec env) k
  | loaded (filename argvec : ℤ) (env : LoadEnv) (args : List (List Byte))
      (l : Loaded × LoadCode) (hl : loadProgram k.mem c.userpt c.uc args env = l)
      (hcode : l.2 ≠ .kill) :
      Effect k c kin (.exec filename argvec env)
        (k.set k.procs.running (loadedProc c l) l.1.mem)
  | killed (filename argvec : ℤ) (env : LoadEnv) (args : List (List Byte))
      (l : Loaded × LoadCode) (k' : Kernel Node Addr)
      (hl : loadProgram k.mem c.userpt c.uc args env = l) (hcode : l.2 = .kill)
      (hexit : kernelExit (k.set k.procs.running (loadedProc c l) l.1.mem) errorCode = some k') :
      Effect k c kin (.exec filename argvec env) k'
  | exited (status : ℤ) (k' : Kernel Node Addr) (hexit : kernelExit k status = some k') :
      Effect k c kin (.exit status) k'
  | waitRefused (statusPtr : ℤ)
      (hno : (statusPtr ≠ 0 ∧ checkAddr statusPtr protWrite c.userpt.pt = false) ∨
        (kin.aChildren = [] ∧ kin.dChildren = [])) :
      Effect k c kin (.wait statusPtr) k
  | asleep (act : ProcAct Node Addr) (statusPtr : ℤ) (hin : InWait k c kin act statusPtr)
      (hnone : kin.dChildren = []) :
      Effect k c kin act { k with
        procs := blockWait k.procs
        waits := Function.update k.waits k.procs.running (some statusPtr) }
  | collected (act : ProcAct Node Addr) (statusPtr : ℤ) (child : Node) (rest : List Node)
      (childPcb : Proc Node Addr) (hin : InWait k c kin act statusPtr)
      (hd : kin.dChildren = child :: rest) (hchild : k.proc child = some childPcb) :
      Effect k c kin act { collected k c kin child rest childPcb statusPtr with
        waits := Function.update k.waits k.procs.running none }
  | brk (addr : ℤ) (r : Kernel Node Addr × ℤ) (hr : kernelUserBrk k addr = some r) :
      Effect k c kin (.brk addr) r.1
  | fault (addr : ℤ) (k' : Kernel Node Addr) (hk' : trapMemory k addr = some k') :
      Effect k c kin (.fault addr) k'
  | stored (addr : ℤ) (byte : Byte) (hw : writable c.userpt.pt addr = true) :
      Effect k c kin (.store addr byte) { k with mem := storeByte c.userpt.pt k.mem addr byte }

theorem collected_waits {kin : Kin Node Addr} {child : Node} {rest : List Node}
    {childPcb : Proc Node Addr} {statusPtr : ℤ} :
    (collected k c kin child rest childPcb statusPtr).waits = k.waits := by
  unfold collected
  dsimp only
  rw [(leaves_reapOrphans (S := ∅)).waits, (leaves_processDestroy (S := ∅)).waits]
  split <;> rfl

omit [Paging] [DecidableEq Addr] in
/-- `KernelWait` takes a child off the list. -/
theorem leaves_dequeue {kin : Kin Node Addr} (hc : k.curr = some c) (hkin : c.kin = some kin)
    (rest : List Node) (children : List ℕ) :
    Leaves k (k.set k.procs.running { c with
      kin := some { kin with dChildren := rest }
      children := children } k.mem) S := by
  rw [← modify_eq_set hc k.mem fun c => { c with
    kin := some { kin with dChildren := rest }
    children := children }]
  refine leaves_modify fun c' hc' => ⟨rfl, rfl, rfl, rfl, rfl, rfl, rfl, ?_⟩
  obtain rfl := Option.some.inj (hc.symm.trans hc')
  rw [hkin]
  rfl

theorem leaves_collected {kin : Kin Node Addr} {child : Node} {rest : List Node}
    {childPcb : Proc Node Addr} {statusPtr : ℤ} (hc : k.curr = some c)
    (hkin : c.kin = some kin) :
    Leaves k (collected k c kin child rest childPcb statusPtr) S := by
  unfold collected
  refine (leaves_dequeue hc hkin rest (c.children.erase childPcb.serial)).trans
    (Leaves.trans ?_ (leaves_processDestroy.trans leaves_reapOrphans))
  split
  · exact Leaves.of_proc_eq rfl rfl rfl rfl rfl
  · exact Leaves.refl _ _

/-- The loop of `KernelWait`, inside it. -/
theorem effect_of_waitLoop {kin : Kin Node Addr} {act : ProcAct Node Addr} {statusPtr : ℤ}
    {r : Kernel Node Addr × Outcome ℤ} (hc : k.curr = some c) (hkin : c.kin = some kin)
    (hin : InWait k c kin act statusPtr) (h : waitLoop k statusPtr = some r) :
    Effect k c kin act (Kernel.leaveWait k.procs.running r) := by
  rcases waitLoop_cases hc hkin h with ⟨hnone, rfl⟩ | ⟨child, rest, childPcb, hd, hchild, rfl⟩
  · exact Effect.asleep act statusPtr hin hnone
  · have heff := Effect.collected act statusPtr child rest childPcb hin hd hchild
    unfold Kernel.leaveWait
    dsimp only
    rw [collected_waits]
    exact heff

omit [Paging] [DecidableEq Node] [DecidableEq Addr] in
/-- All actions but `resume` are for a process that is not inside a wait. -/
theorem act_awake {o : Option (Kernel Node Addr)} {k' : Kernel Node Addr}
    (h : (if (k.waits p).isSome then none else o) = some k') : o = some k' ∧ k.waits p = none := by
  obtain ⟨hwaits, ho⟩ := Option.ite_none_left_eq_some.mp h
  exact ⟨ho, by simpa using hwaits⟩

/-- **The cases of an activation.** -/
theorem act_effect {kin : Kin Node Addr} {act : ProcAct Node Addr} {k' : Kernel Node Addr}
    (hc : k.curr = some c) (hkin : c.kin = some kin)
    (h : k.act k.procs.running c act = some k') :
    Effect k c kin act k' ∧ (act = .resume ∨ k.waits k.procs.running = none) := by
  unfold Kernel.act at h
  cases act with
  | fork child data pid =>
    obtain ⟨h, hw⟩ := act_awake h
    obtain ⟨r, hr, rfl⟩ := Option.map_eq_some_iff.mp h
    refine ⟨?_, Or.inr hw⟩
    rcases kernelFork_cases hc hr with ⟨hno, rfl⟩ | ⟨hyes, hchild, hdata, rfl⟩
    · exact Effect.forkRefused child data pid hno
    · exact Effect.forked child data pid hyes hchild hdata
  | exec filename argvec env =>
    obtain ⟨h, hw⟩ := act_awake h
    obtain ⟨r, hr, rfl⟩ := Option.map_eq_some_iff.mp h
    refine ⟨?_, Or.inr hw⟩
    rcases kernelExec_cases hc hr with heq | ⟨args, l, hl, ⟨hcode, heq⟩ | ⟨hcode, hexit⟩⟩
    · rw [heq]
      exact Effect.execRefused filename argvec env
    · rw [heq]
      exact Effect.loaded filename argvec env args l hl hcode
    · exact Effect.killed filename argvec env args l r.1 hl hcode hexit
  | exit status =>
    obtain ⟨h, hw⟩ := act_awake h
    exact ⟨Effect.exited status k' h, Or.inr hw⟩
  | wait statusPtr =>
    obtain ⟨h, hw⟩ := act_awake h
    obtain ⟨r, hr, rfl⟩ := Option.map_eq_some_iff.mp h
    refine ⟨?_, Or.inr hw⟩
    have hsame : Function.update k.waits k.procs.running none = k.waits := by
      rw [← hw]
      exact Function.update_eq_self _ _
    have hleave : Kernel.leaveWait k.procs.running (k, .returned errorCode) = k := by
      unfold Kernel.leaveWait
      dsimp only
      rw [hsame]
    rcases kernelWait_cases hc hkin hr with
      ⟨hne, hno, rfl⟩ | ⟨hptr, ⟨ha, hd, rfl⟩ | ⟨hsome, hloop⟩⟩
    · rw [hleave]
      exact Effect.waitRefused statusPtr (Or.inl ⟨hne, hno⟩)
    · rw [hleave]
      exact Effect.waitRefused statusPtr (Or.inr ⟨ha, hd⟩)
    · exact effect_of_waitLoop hc hkin (Or.inl ⟨rfl, hptr, hsome⟩) hloop
  | brk addr =>
    obtain ⟨h, hw⟩ := act_awake h
    obtain ⟨r, hr, rfl⟩ := Option.map_eq_some_iff.mp h
    exact ⟨Effect.brk addr r hr, Or.inr hw⟩
  | fault addr =>
    obtain ⟨h, hw⟩ := act_awake h
    exact ⟨Effect.fault addr k' h, Or.inr hw⟩
  | store addr byte =>
    dsimp only at h
    split at h
    · cases h
    · rename_i hgo
      rw [not_or, not_not, Bool.not_eq_true, Option.isSome_eq_false_iff,
        Option.isNone_iff_eq_none] at hgo
      obtain rfl := Option.some.inj h
      exact ⟨Effect.stored addr byte hgo.2, Or.inr hgo.1⟩
  | resume =>
    dsimp only at h
    cases hw : k.waits k.procs.running with
    | none =>
      rw [hw] at h
      cases h
    | some statusPtr =>
      rw [hw] at h
      obtain ⟨r, hr, rfl⟩ := Option.map_eq_some_iff.mp h
      exact ⟨effect_of_waitLoop hc hkin (Or.inr ⟨rfl, hw⟩) hr, Or.inl rfl⟩

/-- **The cases of a step**: the process lives, is not idle and is not
asleep, and what follows is one of the effects. -/
theorem step_effect {k' : Kernel Node Addr} {act : ProcAct Node Addr}
    (h : k.step (p, act) = some k') :
    ∃ c kin, k.proc p = some c ∧ c.kin = some kin ∧ p ≠ k.procs.idleNode ∧
      p ∉ k.procs.waiting ∧ (act = .resume ∨ k.waits p = none) ∧
      Effect (switchTo k p c) c kin act k' := by
  unfold Kernel.step at h
  dsimp only at h
  cases hp : k.proc p with
  | none =>
    rw [hp] at h
    cases h
  | some c =>
    rw [hp] at h
    dsimp only at h
    split at h
    · cases h
    · rename_i hgo
      rw [not_or, not_or, Option.isNone_iff_eq_none] at hgo
      obtain ⟨kin, hkin⟩ := Option.ne_none_iff_exists'.mp hgo.1
      obtain ⟨heff, hw⟩ := act_effect (switchTo_curr hp) hkin h
      exact ⟨c, kin, rfl, hkin, hgo.2.1, hgo.2.2, hw, heff⟩

end Calls

end Yalnix
