import Yalnix.Process.Places
/-!
# Who is destroyed

`process_destroy` frees the kernel stack of a process, the node and the
`pcb_t`. It is called of the orphans (`reap_orphans`), of the dead children
of a process that exits, and of the child that `KernelWait` collects. The
first part lists these calls, in the order they are made, each with the
kernel it is made in; the second is that each is of a process that is there
and dead, that none is made twice, and that nobody else is lost.
-/

namespace Yalnix

variable {Node Addr : Type} [Paging] [DecidableEq Node] [DecidableEq Addr]

open Paging

/-! ## The calls -/

/-- Those of `destroyAll`. -/
def destroyAllCalls : List Node → Kernel Node Addr → List (Kernel Node Addr × Node)
  | [], _ => []
  | proc :: rest, k => (k, proc) :: destroyAllCalls rest (processDestroy k proc)

/-- Those of `destroyDefunct`. -/
def destroyDefunctCalls : List Node → Kernel Node Addr → List (Kernel Node Addr × Node)
  | [], _ => []
  | curr :: _, k => [(k, curr)]

/-- Those of `process_terminate`. -/
def processTerminateCalls (k : Kernel Node Addr) (proc : Node) (rc : ℤ) :
    List (Kernel Node Addr × Node) :=
  match k.proc proc with
  | none => []
  | some p =>
    match p.kin with
    | none => []
    | some kin =>
      destroyDefunctCalls kin.dChildren (orphanAll kin.aChildren (releaseUser k proc p rc))

/-- Those of `KernelExit`. -/
def kernelExitCalls (k : Kernel Node Addr) (status : ℤ) : List (Kernel Node Addr × Node) :=
  destroyAllCalls k.procs.orphans k ++
    processTerminateCalls (reapOrphans k) (reapOrphans k).procs.running status

/-- Those of `KernelExec`, of a caller that is killed. -/
def kernelExecCalls (k : Kernel Node Addr) (c : Proc Node Addr) (filename argvec : ℤ)
    (env : LoadEnv) : List (Kernel Node Addr × Node) :=
  if checkExec k.mem filename argvec c.userpt.pt ≠ some true then []
  else
    let l := loadProgram k.mem c.userpt c.uc (argsAt k.mem c.userpt.pt maxCheck argvec) env
    if l.2 = .kill then
      kernelExitCalls (k.set k.procs.running (loadedProc c l) l.1.mem) errorCode
    else []

/-- The kernel in which `KernelWait` destroys the child it collects. -/
def dequeued (k : Kernel Node Addr) (c : Proc Node Addr) (kin : Kin Node Addr)
    (rest : List Node) (childPcb : Proc Node Addr) (statusPtr : ℤ) : Kernel Node Addr :=
  let k := k.set k.procs.running { c with
    kin := some { kin with dChildren := rest }
    children := c.children.erase childPcb.serial } k.mem
  if statusPtr ≠ 0 then storeUser k c.userpt.pt statusPtr (wordBytes childPcb.code) else k

/-- Those of the loop of `KernelWait`. -/
def waitLoopCalls (k : Kernel Node Addr) (c : Proc Node Addr) (statusPtr : ℤ) :
    List (Kernel Node Addr × Node) :=
  match c.kin with
  | none => []
  | some kin =>
    match kin.dChildren with
    | [] => []
    | child :: rest =>
      match k.proc child with
      | none => []
      | some childPcb =>
        let k := dequeued k c kin rest childPcb statusPtr
        (k, child) :: destroyAllCalls (processDestroy k child).procs.orphans
          (processDestroy k child)

/-- Those of `KernelWait`. -/
def kernelWaitCalls (k : Kernel Node Addr) (c : Proc Node Addr) (statusPtr : ℤ) :
    List (Kernel Node Addr × Node) :=
  if statusPtr ≠ 0 ∧ ¬ checkAddr statusPtr protWrite c.userpt.pt then []
  else waitLoopCalls k c statusPtr

/-- Those of `TrapMemory`, of a process that it ends. -/
def trapMemoryCalls (k : Kernel Node Addr) (c : Proc Node Addr) (addr : ℤ) :
    List (Kernel Node Addr × Node) :=
  if upToPage c.userpt.brk + pageSize ≤ addr ∧ addr ≤ downToPage c.userpt.stackLow ∧
      downToPage c.userpt.stackLow / pageSize - downToPage addr / pageSize ≤
        framesLeft k.mem.frames then []
  else kernelExitCalls k errorCode

/-- **The calls of `process_destroy`** that what a process does leads to. -/
def Kernel.destroyCalls (k : Kernel Node Addr) (c : Proc Node Addr) :
    ProcAct Node Addr → List (Kernel Node Addr × Node)
  | .exec filename argvec env => kernelExecCalls k c filename argvec env
  | .exit status => kernelExitCalls k status
  | .wait statusPtr => kernelWaitCalls k c statusPtr
  | .fault addr => trapMemoryCalls k c addr
  | .resume =>
    match k.waits k.procs.running with
    | none => []
    | some statusPtr => waitLoopCalls k c statusPtr
  | _ => []

/-! ## What they do -/

/-- Whoever is still there is who it was, and is alive or dead as it was. -/
def Stays (k k' : Kernel Node Addr) : Prop :=
  ∀ n c', k'.proc n = some c' →
    ∃ c, k.proc n = some c ∧ c'.serial = c.serial ∧ c'.kin.isSome = c.kin.isSome

/-- **The calls destroy the dead**: each is of a process that is there and
dead when it is made, and the scheduler is still at the process whose call
it is; none is made twice; and whoever has gone was destroyed. -/
structure Destroys (k : Kernel Node Addr) (calls : List (Kernel Node Addr × Node))
    (k' : Kernel Node Addr) : Prop where
  procs : ∀ call ∈ calls, ∃ orphans, call.1.procs = { k.procs with orphans := orphans }
  dead : ∀ call ∈ calls, ∃ c c', k.proc call.2 = some c ∧ call.1.proc call.2 = some c' ∧
    c'.serial = c.serial ∧ c.kin = none ∧ c'.kin = none
  nodup : (calls.map Prod.snd).Nodup
  left : ∀ n, (k'.proc n).isSome ↔ (k.proc n).isSome ∧ n ∉ calls.map Prod.snd

section Stays

variable {k k' k₁ : Kernel Node Addr} {n : Node} {c c' : Proc Node Addr}

omit [Paging] [DecidableEq Node] [DecidableEq Addr] in
theorem Leaves.stays (h : Leaves k k' ∅) : Stays k k' := by
  intro n c' hc'
  obtain ⟨c, hc, hsame⟩ := h.keeps n (Set.notMem_empty n) c' hc'
  exact ⟨c, hc, hsame.serial, hsame.alive⟩

omit [Paging] [DecidableEq Addr] in
theorem stays_update (hc : k.proc n = some c)
    (hproc : k'.proc = Function.update k.proc n (some c')) (hserial : c'.serial = c.serial)
    (halive : c'.kin.isSome = c.kin.isSome) : Stays k k' := by
  intro m d hd
  rw [hproc] at hd
  rcases eq_or_ne m n with rfl | hm
  · rw [Function.update_self] at hd
    obtain rfl := Option.some.inj hd
    exact ⟨c, hc, hserial, halive⟩
  · rw [Function.update_of_ne hm] at hd
    exact ⟨d, hd, rfl, rfl⟩

omit [Paging] [DecidableEq Node] [DecidableEq Addr] in
theorem Stays.trans (h : Stays k k₁) (h' : Stays k₁ k') : Stays k k' := by
  intro n c' hc'
  obtain ⟨c₁, hc₁, hserial', halive'⟩ := h' n c' hc'
  obtain ⟨c, hc, hserial, halive⟩ := h n c₁ hc₁
  exact ⟨c, hc, hserial'.trans hserial, halive'.trans halive⟩

end Stays

namespace Destroys

variable {k k' k₁ : Kernel Node Addr} {calls calls' : List (Kernel Node Addr × Node)} {n : Node}
  {c : Proc Node Addr} {kin : Kin Node Addr}

omit [Paging] [DecidableEq Node] [DecidableEq Addr] in
/-- Where nobody goes, nobody was destroyed. -/
theorem nil (h : ∀ n, (k'.proc n).isSome = (k.proc n).isSome) : Destroys k [] k' where
  procs := fun _ hin => absurd hin List.not_mem_nil
  dead := fun _ hin => absurd hin List.not_mem_nil
  nodup := List.nodup_nil
  left := fun n => by rw [h, List.map_nil]; simp

omit [Paging] [DecidableEq Node] [DecidableEq Addr] in
/-- **Calls in a row.** What the second part destroys was there after the
first. -/
theorem trans (h : Destroys k calls k₁) (h' : Destroys k₁ calls' k')
    (hstays : Stays k k₁) (hprocs : ∃ orphans, k₁.procs = { k.procs with orphans := orphans }) :
    Destroys k (calls ++ calls') k' where
  procs := by
    intro call hcall
    rcases List.mem_append.mp hcall with hin | hin
    · exact h.procs call hin
    · obtain ⟨orphans, heq⟩ := hprocs
      obtain ⟨orphans', heq'⟩ := h'.procs call hin
      exact ⟨orphans', by rw [heq', heq]⟩
  dead := by
    intro call hcall
    rcases List.mem_append.mp hcall with hin | hin
    · exact h.dead call hin
    · obtain ⟨c₁, c', hc₁, hc', hserial, hdead₁, hdead⟩ := h'.dead call hin
      obtain ⟨c, hc, hserial₁, halive⟩ := hstays call.2 c₁ hc₁
      refine ⟨c, c', hc, hc', hserial.trans hserial₁, ?_, hdead⟩
      rw [hdead₁, Option.isSome_none] at halive
      exact Option.isSome_eq_false_iff.mp halive.symm |> Option.isNone_iff_eq_none.mp
  nodup := by
    rw [List.map_append]
    refine h.nodup.append h'.nodup fun n hin hin' => ?_
    obtain ⟨call, hcall, rfl⟩ := List.mem_map.mp hin'
    obtain ⟨c₁, -, hc₁, -⟩ := h'.dead call hcall
    have hleft := (h.left call.2).mp (by rw [hc₁]; rfl)
    exact hleft.2 hin
  left := by
    intro n
    rw [h'.left, h.left, List.map_append, List.mem_append, not_or, and_assoc]

omit [Paging] [DecidableEq Node] [DecidableEq Addr] in
/-- The scheduler moves on only after the calls. -/
theorem after (h : Destroys k calls k₁) (hleft : ∀ n, (k'.proc n).isSome = (k₁.proc n).isSome) :
    Destroys k calls k' where
  procs := h.procs
  dead := h.dead
  nodup := h.nodup
  left := fun n => by rw [hleft, h.left]

/-- **One call**, of a process that is there and dead. -/
theorem single (hc : k.proc n = some c) (hdead : c.kin = none) :
    Destroys k [(k, n)] (processDestroy k n) where
  procs := by
    rintro call hin
    obtain rfl := List.mem_singleton.mp hin
    exact ⟨k.procs.orphans, rfl⟩
  dead := by
    rintro call hin
    obtain rfl := List.mem_singleton.mp hin
    exact ⟨c, c, hc, hc, rfl, hdead, hdead⟩
  nodup := List.nodup_singleton n
  left := by
    intro n'
    unfold processDestroy
    rw [hc]
    dsimp only
    rw [List.map_singleton, List.mem_singleton]
    rcases eq_or_ne n' n with rfl | hne
    · rw [Function.update_self]
      simp
    · rw [Function.update_of_ne hne]
      simp [hne]

end Destroys

variable {k k' : Kernel Node Addr} {n : Node} {c : Proc Node Addr} {kin : Kin Node Addr}

theorem processDestroy_procs : (processDestroy k n).procs = k.procs := destroyAll_procs [n]

/-- `destroyAll`, of different processes that are there and dead. -/
theorem destroys_destroyAll {procs : List Node} (hnodup : procs.Nodup)
    (hdead : ∀ n ∈ procs, ∃ c, k.proc n = some c ∧ c.kin = none) :
    Destroys k (destroyAllCalls procs k) (destroyAll procs k) := by
  induction procs generalizing k with
  | nil => exact Destroys.nil fun _ => rfl
  | cons proc rest ih =>
    obtain ⟨hnot, hrest⟩ := List.nodup_cons.mp hnodup
    obtain ⟨c, hc, hkin⟩ := hdead proc List.mem_cons_self
    have hfirst := Destroys.single hc hkin
    refine hfirst.trans (ih hrest fun n hn => ?_) leaves_processDestroy.stays
      ⟨k.procs.orphans, processDestroy_procs⟩
    obtain ⟨c', hc', hkin'⟩ := hdead n (List.mem_cons_of_mem _ hn)
    refine ⟨c', ?_, hkin'⟩
    have hne : n ≠ proc := by
      rintro rfl
      exact hnot hn
    unfold processDestroy
    rw [hc]
    exact (Function.update_of_ne hne _ _).trans hc'

theorem destroys_reapOrphans (hnodup : k.procs.orphans.Nodup)
    (hdead : ∀ n ∈ k.procs.orphans, ∃ c, k.proc n = some c ∧ c.kin = none) :
    Destroys k (destroyAllCalls k.procs.orphans k) (reapOrphans k) :=
  (destroys_destroyAll hnodup hdead).after fun _ => rfl

omit [Paging] [DecidableEq Addr] in
theorem isSome_modify (f : Proc Node Addr → Proc Node Addr) (n' : Node) :
    ((k.modify n f).proc n').isSome = (k.proc n').isSome := by
  rcases eq_or_ne n' n with rfl | hne
  · unfold Kernel.modify
    dsimp only
    rw [Function.update_self, Option.isSome_map]
  · rw [modify_of_ne hne]

omit [Paging] [DecidableEq Addr] in
theorem isSome_set (c' : Proc Node Addr) (mem : Memory) (hc : k.proc n = some c) (n' : Node) :
    ((k.set n c' mem).proc n').isSome = (k.proc n').isSome := by
  rw [← modify_eq_set hc mem fun _ => c']
  exact isSome_modify (k := { k with mem := mem }) _ n'

omit [Paging] [DecidableEq Addr] in
theorem isSome_orphanAll (addrs : List Addr) (n' : Node) :
    ((orphanAll addrs k).proc n').isSome = (k.proc n').isSome := by
  induction addrs generalizing k with
  | nil => rfl
  | cons curr rest ih =>
    rw [orphanAll, ih]
    cases k.pcbAt curr with
    | none => rfl
    | some n => exact isSome_modify _ n'

omit [Paging] [DecidableEq Addr] in
theorem isSome_graveyard (n' : Node) :
    ((graveyard k).proc n').isSome = (k.proc n').isSome := by
  unfold graveyard
  dsimp only
  cases k.curr.bind Proc.parent with
  | none => rfl
  | some parent => exact isSome_modify _ n'

omit [Paging] [DecidableEq Node] [DecidableEq Addr] in
/-- The orphans are there and dead. -/
theorem Kernel.Kindred.orphan_dead (h : k.Kindred) (hn : n ∈ k.procs.orphans) :
    ∃ c, k.proc n = some c ∧ c.kin = none := by
  obtain ⟨hsome, hlaid⟩ := h.orphans n hn
  obtain ⟨c, hc⟩ := Option.isSome_iff_exists.mp hsome
  exact ⟨c, hc, hlaid.1 _ (member_eq hc)⟩

/-! ## The calls of an exit -/

omit [DecidableEq Addr] in
/-- The walks of `process_terminate` keep the scheduler and who is there. -/
theorem destroys_orphanAll (addrs : List Addr) (rc : ℤ) (hc : k.proc n = some c) :
    Destroys k [] (orphanAll addrs (releaseUser k n c rc)) ∧
    Stays k (orphanAll addrs (releaseUser k n c rc)) ∧
    (orphanAll addrs (releaseUser k n c rc)).procs = k.procs ∧
    (orphanAll addrs (releaseUser k n c rc)).family = k.family.orphan addrs := by
  have hrelease : Stays k (releaseUser k n c rc) := stays_update hc rfl rfl rfl
  refine ⟨Destroys.nil fun n' => ?_, hrelease.trans (leaves_orphanAll addrs).stays, ?_, ?_⟩
  · rw [isSome_orphanAll]
    exact isSome_set _ _ hc n'
  · rw [orphanAll_procs]
    rfl
  · rw [family_orphanAll, family_releaseUser rc hc]

/-- **`process_terminate`** destroys the first of the process's dead. -/
theorem destroys_processTerminate (rc : ℤ) (h : k.family.Kinship) (hc : k.proc n = some c)
    (hkin : c.kin = some kin) :
    Destroys k (processTerminateCalls k n rc) (processTerminate k n rc) := by
  obtain ⟨hnone, hstays, hprocs, hfamily⟩ := destroys_orphanAll kin.aChildren rc hc
  have hcalls : processTerminateCalls k n rc =
      destroyDefunctCalls kin.dChildren (orphanAll kin.aChildren (releaseUser k n c rc)) := by
    unfold processTerminateCalls
    rw [hc]
    dsimp only
    rw [hkin]
  rw [hcalls, processTerminate_eq rc hc hkin]
  refine Destroys.after ?_ (isSome_modify _)
  cases hd : kin.dChildren with
  | nil => exact hnone
  | cons curr rest =>
    obtain ⟨m, hm, hdead, -⟩ := h.defunct (member_eq hc) hkin (hd ▸ List.mem_cons_self)
    obtain ⟨m', hm', -, hkin', -⟩ := Family.orphan_forth kin.aChildren hm
    rw [← hfamily] at hm'
    obtain ⟨c', hc', rfl⟩ := exists_of_member hm'
    exact hnone.trans (Destroys.single hc' (hkin'.trans hdead)) hstays
      ⟨k.procs.orphans, hprocs⟩

/-- **`KernelExit`** destroys the orphans and the first of its caller's
dead. -/
theorem destroys_kernelExit {status : ℤ} (h : k.Kindred) (hnodup : k.procs.orphans.Nodup)
    (hc : k.curr = some c) (hkin : c.kin = some kin) (hexit : kernelExit k status = some k') :
    Destroys k (kernelExitCalls k status) k' := by
  have hreap := destroys_reapOrphans hnodup fun n hn => h.orphan_dead hn
  obtain ⟨c', hc', hm, hkinship⟩ := reaped_self h hc hkin
  have hkin' : c'.kin = some kin := (congrArg Member.kin hm).trans hkin
  have hprocs : (reapOrphans k).procs = { k.procs with orphans := [] } := reapOrphans_procs k
  unfold kernelExitCalls
  rw [reapOrphans_running, kernelExit_eq hexit]
  exact (hreap.trans (destroys_processTerminate status hkinship hc' hkin') leaves_reapOrphans.stays
    ⟨[], hprocs⟩).after fun n => isSome_graveyard n

/-! ## The calls of the others -/

/-- **`KernelWait`** destroys the child it collects, and the orphans. -/
theorem destroys_collected {child : Node} {rest : List Node} {childPcb : Proc Node Addr}
    {statusPtr : ℤ} (h : k.Kindred) (hnodup : k.procs.orphans.Nodup) (hc : k.curr = some c)
    (hkin : c.kin = some kin) (hd : kin.dChildren = child :: rest)
    (hchild : k.proc child = some childPcb) :
    Destroys k (waitLoopCalls k c statusPtr)
      (collected k c kin child rest childPcb statusPtr) := by
  obtain ⟨m, hm, hdead, -⟩ := h.kinship.defunct (member_eq hc) hkin (hd ▸ List.mem_cons_self)
  obtain ⟨childPcb', hchild', rfl⟩ := exists_of_member hm
  obtain rfl := Option.some.inj (hchild.symm.trans hchild')
  -- `kd` has the child off the list, and the status stored
  obtain ⟨kd, hkd⟩ : ∃ kd, kd = dequeued k c kin rest childPcb statusPtr := ⟨_, rfl⟩
  have hproc : kd.proc = Function.update k.proc k.procs.running (some { c with
      kin := some { kin with dChildren := rest }
      children := c.children.erase childPcb.serial }) := by
    rw [hkd]
    unfold dequeued
    dsimp only
    split <;> rfl
  have hprocs : kd.procs = k.procs := by
    rw [hkd]
    unfold dequeued
    dsimp only
    split <;> rfl
  have hstays : Stays k kd := stays_update hc hproc rfl (by rw [hkin]; rfl)
  have hsome : ∀ n, (kd.proc n).isSome = (k.proc n).isSome := fun n => by
    rw [hproc]
    exact isSome_set (k := k) _ k.mem hc n
  -- the dead are not the caller
  have hother : ∀ {n d}, k.proc n = some d → d.kin = none → kd.proc n = some d := by
    intro n d hn hnone
    rw [hproc, Function.update_of_ne, hn]
    rintro rfl
    obtain rfl := Option.some.inj (hc.symm.trans hn)
    rw [hkin] at hnone
    cases hnone
  have hcalls : waitLoopCalls k c statusPtr = [] ++ ([(kd, child)] ++
      destroyAllCalls (processDestroy kd child).procs.orphans (processDestroy kd child)) := by
    unfold waitLoopCalls
    rw [hkin]
    dsimp only
    rw [hd]
    dsimp only
    rw [hchild, hkd]
    rfl
  have heq : collected k c kin child rest childPcb statusPtr =
      reapOrphans (processDestroy kd child) := by
    rw [hkd]
    rfl
  have horphans : (processDestroy kd child).procs.orphans = k.procs.orphans := by
    rw [processDestroy_procs, hprocs]
  have hreap : Destroys (processDestroy kd child)
      (destroyAllCalls (processDestroy kd child).procs.orphans (processDestroy kd child))
      (reapOrphans (processDestroy kd child)) := by
    refine destroys_reapOrphans (horphans ▸ hnodup) fun n hn => ?_
    rw [horphans] at hn
    obtain ⟨d, hd', hnone⟩ := h.orphan_dead hn
    have hne : n ≠ child := by
      rintro rfl
      exact (h.orphans n hn).2.2 (member_eq hc) hkin (hd ▸ List.mem_cons_self)
    refine ⟨d, ?_, hnone⟩
    unfold processDestroy
    rw [hother hchild hdead]
    exact (Function.update_of_ne hne _ _).trans (hother hd' hnone)
  rw [hcalls, heq]
  exact (Destroys.nil hsome).trans
    ((Destroys.single (hother hchild hdead) hdead).trans hreap leaves_processDestroy.stays
      ⟨kd.procs.orphans, processDestroy_procs⟩)
    hstays ⟨k.procs.orphans, hprocs⟩

/-- **`KernelExec`** destroys nobody, or its caller exits. -/
theorem destroys_kernelExec {filename argvec : ℤ} {env : LoadEnv} {r : Kernel Node Addr × ℤ}
    (h : k.Kindred) (hnodup : k.procs.orphans.Nodup) (hc : k.curr = some c)
    (hkin : c.kin = some kin) (hr : kernelExec k filename argvec env = some r) :
    Destroys k (kernelExecCalls k c filename argvec env) r.1 := by
  unfold kernelExec at hr
  rw [hc] at hr
  dsimp only at hr
  unfold kernelExecCalls
  split at hr
  · cases hr
  · rename_i hrefused
    obtain rfl := Option.some.inj hr
    rw [if_pos (by rw [hrefused]; simp)]
    exact Destroys.nil fun _ => rfl
  · rename_i haccepted
    rw [if_neg (not_not_intro haccepted)]
    obtain ⟨l, hl⟩ : ∃ l, l = loadProgram k.mem c.userpt c.uc
        (argsAt k.mem c.userpt.pt maxCheck argvec) env := ⟨_, rfl⟩
    rw [← hl, modify_eq_set hc] at hr
    rw [← hl]
    -- the process with the memory it has after the attempt
    have hset : Destroys k [] (k.set k.procs.running (loadedProc c l) l.1.mem) :=
      Destroys.nil (isSome_set _ _ hc)
    have hstays : Stays k (k.set k.procs.running (loadedProc c l) l.1.mem) :=
      stays_update hc rfl rfl rfl
    dsimp only
    split at hr
    · rename_i hcode
      rw [if_neg (by rw [hcode]; simp)]
      obtain rfl := Option.some.inj hr
      exact hset
    · rename_i hcode
      rw [if_neg (by rw [hcode]; simp)]
      obtain rfl := Option.some.inj hr
      exact hset
    · rename_i hcode
      rw [if_pos hcode]
      obtain ⟨k', hexit, rfl⟩ := Option.map_eq_some_iff.mp hr
      have hfamily : (k.set k.procs.running (loadedProc c l) l.1.mem).family = k.family :=
        family_set _ hc rfl
      have hcurr : (k.set k.procs.running (loadedProc c l) l.1.mem).curr =
        some (loadedProc c l) := set_self _ _
      exact hset.trans (destroys_kernelExit (h.congr hfamily rfl rfl rfl) hnodup hcurr hkin hexit)
        hstays ⟨k.procs.orphans, rfl⟩

/-- **`TrapMemory`** destroys nobody, or its process exits. -/
theorem destroys_trapMemory {addr : ℤ} (h : k.Kindred) (hnodup : k.procs.orphans.Nodup)
    (hc : k.curr = some c) (hkin : c.kin = some kin) (hr : trapMemory k addr = some k') :
    Destroys k (trapMemoryCalls k c addr) k' := by
  unfold trapMemory at hr
  rw [hc] at hr
  dsimp only at hr
  rw [modify_eq_set hc] at hr
  unfold trapMemoryCalls
  split at hr
  · rename_i hwithin
    split at hr
    · rename_i hfew
      rw [if_neg fun hall => absurd hfew (not_lt.mpr hall.2.2)]
      exact destroys_kernelExit h hnodup hc hkin hr
    · rename_i hfit
      rw [if_pos ⟨hwithin.1, hwithin.2, not_lt.mp hfit⟩]
      obtain rfl := Option.some.inj hr
      exact Destroys.nil (isSome_set _ _ hc)
  · rename_i hwithout
    rw [if_neg fun hall => hwithout ⟨hall.1, hall.2.1⟩]
    exact destroys_kernelExit h hnodup hc hkin hr

/-- The loop of `KernelWait`, going to sleep or not. -/
theorem destroys_waitLoop {statusPtr : ℤ} {r : Kernel Node Addr × Outcome ℤ} (h : k.Kindred)
    (hnodup : k.procs.orphans.Nodup) (hc : k.curr = some c) (hkin : c.kin = some kin)
    (hr : waitLoop k statusPtr = some r) : Destroys k (waitLoopCalls k c statusPtr) r.1 := by
  rcases waitLoop_cases hc hkin hr with ⟨hd, rfl⟩ | ⟨child, rest, childPcb, hd, hchild, rfl⟩
  · unfold waitLoopCalls
    rw [hkin]
    dsimp only
    rw [hd]
    exact Destroys.nil fun _ => rfl
  · exact destroys_collected h hnodup hc hkin hd hchild

omit [Paging] [DecidableEq Addr] in
theorem leaveWait_proc (p : Node) (r : Kernel Node Addr × Outcome ℤ) :
    (Kernel.leaveWait p r).proc = r.1.proc := by
  obtain ⟨k, out⟩ := r
  cases out <;> rfl

/-- **What an action destroys**: a process is made, or the calls are of the
dead. -/
theorem destroys_act {act : ProcAct Node Addr} (h : k.Kindred) (hnodup : k.procs.orphans.Nodup)
    (hc : k.curr = some c) (hkin : c.kin = some kin)
    (hact : k.act k.procs.running c act = some k') :
    (∃ child data pid, act = .fork child data pid ∧ k.proc child = none ∧
      k' = forked k c child data pid) ∨ Destroys k (k.destroyCalls c act) k' := by
  have hleave : ∀ {r : Kernel Node Addr × Outcome ℤ} (n : Node),
      ((Kernel.leaveWait k.procs.running r).proc n).isSome = (r.1.proc n).isSome :=
    fun n => by rw [leaveWait_proc]
  unfold Kernel.act at hact
  unfold Kernel.destroyCalls
  cases act with
  | fork child data pid =>
    obtain ⟨r, hr, rfl⟩ := Option.map_eq_some_iff.mp (act_awake hact).1
    rcases kernelFork_cases hc hr with ⟨-, rfl⟩ | ⟨-, hchild, -, rfl⟩
    · exact Or.inr (Destroys.nil fun _ => rfl)
    · exact Or.inl ⟨child, data, pid, rfl, hchild, rfl⟩
  | exec filename argvec env =>
    obtain ⟨r, hr, rfl⟩ := Option.map_eq_some_iff.mp (act_awake hact).1
    exact Or.inr (destroys_kernelExec h hnodup hc hkin hr)
  | exit status => exact Or.inr (destroys_kernelExit h hnodup hc hkin (act_awake hact).1)
  | wait statusPtr =>
    obtain ⟨r, hr, rfl⟩ := Option.map_eq_some_iff.mp (act_awake hact).1
    refine Or.inr (Destroys.after ?_ hleave)
    dsimp only
    unfold kernelWaitCalls
    rcases kernelWait_cases hc hkin hr with ⟨hptr, hbad, rfl⟩ | ⟨hgood, hloop⟩
    · rw [if_pos ⟨hptr, by simp [hbad]⟩]
      exact Destroys.nil fun _ => rfl
    · rw [if_neg fun hno => by rcases hgood with h0 | h1; exacts [hno.1 h0, hno.2 h1]]
      rcases hloop with ⟨-, hd, rfl⟩ | ⟨-, hloop⟩
      · unfold waitLoopCalls
        rw [hkin]
        dsimp only
        rw [hd]
        exact Destroys.nil fun _ => rfl
      · exact destroys_waitLoop h hnodup hc hkin hloop
  | brk addr =>
    obtain ⟨r, hr, rfl⟩ := Option.map_eq_some_iff.mp (act_awake hact).1
    refine Or.inr (Destroys.nil fun n => ?_)
    rcases kernelUserBrk_set hc hr with heq | ⟨u, mem, heq⟩
    · rw [heq]
    · rw [heq]
      exact isSome_set _ _ hc n
  | fault addr => exact Or.inr (destroys_trapMemory h hnodup hc hkin (act_awake hact).1)
  | store addr byte =>
    dsimp only at hact
    split at hact
    · cases hact
    · obtain rfl := Option.some.inj hact
      exact Or.inr (Destroys.nil fun _ => rfl)
  | resume =>
    dsimp only at hact ⊢
    cases hw : k.waits k.procs.running with
    | none =>
      rw [hw] at hact
      cases hact
    | some statusPtr =>
      rw [hw] at hact
      obtain ⟨r, hr, rfl⟩ := Option.map_eq_some_iff.mp hact
      exact Or.inr ((destroys_waitLoop h hnodup hc hkin hr).after hleave)

/-! ## The orphans -/

/-- **Nobody is an orphan twice.** -/
theorem Move.orphans_nodup {act : ProcAct Node Addr} (h : k.Kindred)
    (hnodup : k.procs.orphans.Nodup) (hkin : c.kin = some kin) (hmove : Move k c kin act k') :
    k'.procs.orphans.Nodup := by
  cases hmove with
  | kept act k' hfamily horphans => rwa [horphans]
  | forked child data pid => exact hnodup
  | exited act k₁ k' c₁ status hc₁ hm hfamily hprocs hwaits hact hstatus hexit =>
    have h₁ : k₁.Kindred := h.congr hfamily (congrArg _ hprocs) (congrArg _ hprocs) hwaits
    rw [(kernelExit_moves h₁ hc₁ ((congrArg Member.kin hm).trans hkin) hexit).2.2.2]
    split
    · exact List.nodup_nil
    · exact List.nodup_singleton _
  | asleep act statusPtr =>
    have horphans : (Yalnix.blockWait k.procs).orphans = k.procs.orphans := runNextReady_orphans _
    exact horphans ▸ hnodup
  | collected act statusPtr child rest childPcb =>
    show (Yalnix.collected k c kin child rest childPcb statusPtr).procs.orphans.Nodup
    rw [collected_procs]
    exact List.nodup_nil

end Yalnix
