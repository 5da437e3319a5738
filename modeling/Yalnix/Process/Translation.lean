import Yalnix.Memory.Translation
import Yalnix.Process.Places
/-!
# Translations and the calls of a process

What each call of `syscalls.c` and `traps.c` does to the translations in use,
up to its return or to the switch it ends in. A call that returns has flushed
all it changed, and the table in use is the one its process has then; one
that kills its process leaves region 1 to the flush of `KCSwitch`.
-/

namespace Yalnix

variable {Node Addr : Type} [Paging] [DecidableEq Node] [DecidableEq Addr]

open Paging

/-! ## The calls -/

/-- `KernelExit`: the memory of the process is given up, while it is in
use. -/
def kernelExitOps (k : Kernel Node Addr) : List TlbOp :=
  let k := reapOrphans k
  match k.curr with
  | none => []
  | some c => destroyUsermemOps k.mem.frames c.userpt

omit [DecidableEq Node] [DecidableEq Addr] in
/-- `KernelFork`. -/
def kernelForkOps (k : Kernel Node Addr) (c : Proc Node Addr) : List TlbOp :=
  if noKernelMemory k (c.userpt.size + 3) then []
  else
    copyUserMemOps k.mem c.userpt ++ kcCopyOps (copyUserMem k.mem c.userpt newUserPt).1

/-- `KernelExec`. -/
def kernelExecOps (k : Kernel Node Addr) (c : Proc Node Addr) (filename argvec : ℤ)
    (env : LoadEnv) : List TlbOp :=
  if checkExec k.mem filename argvec c.userpt.pt ≠ some true then []
  else
    let args := argsAt k.mem c.userpt.pt maxCheck argvec
    let l := loadProgram k.mem c.userpt c.uc args env
    loadProgramOps k.mem.frames c.userpt args env ++
      if l.2 = .kill then kernelExitOps (k.set k.procs.running (loadedProc c l) l.1.mem) else []

omit [DecidableEq Node] [DecidableEq Addr] in
/-- `KernelUserBrk`. -/
def kernelUserBrkOps (k : Kernel Node Addr) (c : Proc Node Addr) (addr : ℤ) : List TlbOp :=
  let userpt := c.userpt
  if downToPage userpt.stackLow - pageSize ≤ addr ∨ addr < upToPage userpt.dataEnd then []
  else
    let currBrkVpn := upToPage userpt.brk / pageSize - 1
    let nextBrkVpn := upToPage addr / pageSize - 1
    if currBrkVpn < nextBrkVpn then
      if framesLeft k.mem.frames < nextBrkVpn - currBrkVpn then []
      else
        mapOps (protRead ||| protWrite) flushPage
          (pages (currBrkVpn + 1 - basePage1) (nextBrkVpn + 1 - basePage1))
          k.mem.frames userpt.pt
    else
      unmapOps flushPage
        (pages (nextBrkVpn + 1 - basePage1) (currBrkVpn + 1 - basePage1)).reverse
        k.mem.frames userpt.pt

/-- `TrapMemory`. -/
def trapMemoryOps (k : Kernel Node Addr) (c : Proc Node Addr) (addr : ℤ) : List TlbOp :=
  let userpt := c.userpt
  if upToPage userpt.brk + pageSize ≤ addr ∧ addr ≤ downToPage userpt.stackLow then
    let currVpn := downToPage userpt.stackLow / pageSize
    let nextVpn := downToPage addr / pageSize
    if framesLeft k.mem.frames < currVpn - nextVpn then kernelExitOps k
    else
      mapOps (protRead ||| protWrite) flushPage
        (pages (nextVpn - basePage1) (currVpn - basePage1)).reverse k.mem.frames userpt.pt
  else kernelExitOps k

/-- What a process does. The other calls store to no table that is in use. -/
def Kernel.actOps (k : Kernel Node Addr) (c : Proc Node Addr) : ProcAct Node Addr → List TlbOp
  | .fork _ _ _ => kernelForkOps k c
  | .exec filename argvec env => kernelExecOps k c filename argvec env
  | .exit _ => kernelExitOps k
  | .brk addr => kernelUserBrkOps k c addr
  | .fault addr => trapMemoryOps k c addr
  | .wait _ => []
  | .store _ _ => []
  | .resume => []

/-! ## They check -/

section Calls

variable {k k' : Kernel Node Addr} {c c' : Proc Node Addr} {T : Vpage → Option (ℤ × ℕ)}
  {addr filename argvec : ℤ} {env : LoadEnv} {r : Kernel Node Addr × ℤ}

omit [Paging] in
theorem kstack_subset : tlbFlushKstack ⊆ {p : Vpage | p ≠ .scratch} := by
  rintro p ⟨i, rfl⟩ heq
  cases heq

theorem tidy_kernelExitOps :
    Tlb.Tidy tlbFlushKstack tlbFlush1 (kernelExitOps k) tlbFlush1 := by
  unfold kernelExitOps
  dsimp only
  split
  · exact Tlb.Tidy.nil subset_rfl
  · exact tidy_destroyUsermemOps _

omit [DecidableEq Node] [DecidableEq Addr] in
theorem tidy_kernelForkOps :
    Tlb.Tidy {p | p ≠ .scratch} ∅ (kernelForkOps k c) ∅ := by
  unfold kernelForkOps
  split
  · exact Tlb.Tidy.nil subset_rfl
  · exact (tidy_copyUserMemOps _ _).append (tidy_kcCopyOps _)

theorem tidy_kernelExecOps :
    Tlb.Tidy tlbFlushKstack ∅ (kernelExecOps k c filename argvec env) tlbFlush1 := by
  unfold kernelExecOps
  split
  · exact Tlb.Tidy.nil (Set.empty_subset _)
  · have hload : Tlb.Tidy tlbFlushKstack ∅ (loadProgramOps k.mem.frames c.userpt
        (argsAt k.mem c.userpt.pt maxCheck argvec) env) tlbFlush1 := by
      refine (tidy_loadProgramOps k.mem c.userpt c.uc _ env).1.mono subset_rfl
        (Set.empty_subset _) ?_
      split
      · exact Set.empty_subset _
      · exact subset_rfl
    refine hload.append ?_
    split
    · exact tidy_kernelExitOps
    · exact Tlb.Tidy.nil subset_rfl

omit [DecidableEq Node] [DecidableEq Addr] in
theorem tidy_kernelUserBrkOps :
    Tlb.Tidy tlbFlushKstack ∅ (kernelUserBrkOps k c addr) ∅ := by
  unfold kernelUserBrkOps
  dsimp only
  split
  · exact Tlb.Tidy.nil subset_rfl
  · split
    · split
      · exact Tlb.Tidy.nil subset_rfl
      · exact tidy_mapOps trails_flushPage _
    · exact tidy_unmapOps trails_flushPage _

theorem tidy_trapMemoryOps :
    Tlb.Tidy tlbFlushKstack ∅ (trapMemoryOps k c addr) tlbFlush1 := by
  have hexit : Tlb.Tidy tlbFlushKstack ∅ (kernelExitOps k) tlbFlush1 :=
    tidy_kernelExitOps.mono subset_rfl (Set.empty_subset _) subset_rfl
  unfold trapMemoryOps
  dsimp only
  split
  · split
    · exact hexit
    · exact (tidy_mapOps trails_flushPage _).mono subset_rfl subset_rfl (Set.empty_subset _)
  · exact hexit

/-- **Whatever a process does**, only region 1 is left to flush. -/
theorem tidy_actOps (act : ProcAct Node Addr) :
    Tlb.Tidy tlbFlushKstack ∅ (k.actOps c act) tlbFlush1 := by
  cases act with
  | fork => exact tidy_kernelForkOps.mono kstack_subset subset_rfl (Set.empty_subset _)
  | exec => exact tidy_kernelExecOps
  | exit => exact tidy_kernelExitOps.mono subset_rfl (Set.empty_subset _) subset_rfl
  | brk => exact tidy_kernelUserBrkOps.mono subset_rfl subset_rfl (Set.empty_subset _)
  | fault => exact tidy_trapMemoryOps
  | wait | store | resume => exact Tlb.Tidy.nil (Set.empty_subset _)

/-! ## The calls that return -/

/-- **`KernelExec`** kills its process, or has flushed what it changed; then
the table in use is that of the new program. -/
theorem kernelExec_views (hc : k.curr = some c)
    (h : kernelExec k filename argvec env = some r)
    (hc' : r.1.proc k.procs.running = some c') (hT : Views c.userpt.pt c.kstack T) :
    r.1.alive k.procs.running = false ∨
      (Tlb.Tidy tlbFlushKstack ∅ (kernelExecOps k c filename argvec env) ∅ ∧
        Views c'.userpt.pt c'.kstack
          (Tlb.tableAfter T (kernelExecOps k c filename argvec env))) := by
  unfold kernelExec at h
  rw [hc] at h
  dsimp only at h
  unfold kernelExecOps
  split at h
  · cases h
  · rename_i hno
    obtain rfl := Option.some.inj h
    obtain rfl := Option.some.inj (hc.symm.trans hc')
    rw [if_pos (by rw [hno]; simp)]
    exact Or.inr ⟨Tlb.Tidy.nil subset_rfl, hT⟩
  · rename_i hyes
    rw [if_neg (not_not_intro hyes)]
    dsimp only
    obtain ⟨args, hargs⟩ : ∃ args, argsAt k.mem c.userpt.pt maxCheck argvec = args := ⟨_, rfl⟩
    rw [hargs, modify_eq_set hc] at h
    rw [hargs]
    obtain ⟨htidy, herror⟩ := tidy_loadProgramOps k.mem c.userpt c.uc args env
    have hviews := hT.loadProgramOps k.mem c.uc args env
    obtain ⟨l, hl⟩ : ∃ l, l = loadProgram k.mem c.userpt c.uc args env := ⟨_, rfl⟩
    rw [← hl] at h htidy herror hviews ⊢
    split at h
    · rename_i hcode
      obtain rfl := Option.some.inj h
      obtain rfl := Option.some.inj ((set_self _ _).symm.trans hc')
      rw [hcode, if_pos rfl] at htidy
      rw [hcode, if_neg (by decide), List.append_nil]
      exact Or.inr ⟨htidy.mono subset_rfl (Set.empty_subset _) subset_rfl, hviews⟩
    · rename_i hcode
      obtain rfl := Option.some.inj h
      obtain rfl := Option.some.inj ((set_self _ _).symm.trans hc')
      rw [hcode, if_neg (by decide), List.append_nil]
      refine Or.inr ⟨?_, hviews⟩
      rw [herror hcode]
      exact Tlb.Tidy.nil subset_rfl
    · obtain ⟨k₁, hexit, rfl⟩ := Option.map_eq_some_iff.mp h
      have hdead := kernelExit_not_alive hexit
      exact Or.inl hdead

omit [DecidableEq Addr] in
/-- **`KernelUserBrk`**. -/
theorem kernelUserBrk_views (hc : k.curr = some c) (h : kernelUserBrk k addr = some r)
    (hc' : r.1.proc k.procs.running = some c') (hT : Views c.userpt.pt c.kstack T) :
    Views c'.userpt.pt c'.kstack (Tlb.tableAfter T (kernelUserBrkOps k c addr)) := by
  have hpage := trails_flushPage (D := ∅)
  have hsame : ∀ {r : Kernel Node Addr × ℤ}, (k, errorCode) = r →
      r.1.proc k.procs.running = some c' → Views c'.userpt.pt c'.kstack T := by
    rintro _ rfl hc'
    obtain rfl := Option.some.inj (hc.symm.trans hc')
    exact hT
  unfold kernelUserBrk at h
  rw [hc] at h
  dsimp only at h
  rw [modify_eq_set hc, modify_eq_set hc] at h
  unfold kernelUserBrkOps
  dsimp only
  split at h
  · rename_i hno
    rw [if_pos hno]
    exact hsame (Option.some.inj h) hc'
  · rename_i hyes
    rw [if_neg hyes]
    split at h
    · rename_i hgrow
      rw [if_pos hgrow]
      split at h
      · rename_i hfull
        rw [if_pos hfull]
        exact hsame (Option.some.inj h) hc'
      · rename_i hroom
        rw [if_neg hroom]
        obtain rfl := Option.some.inj h
        obtain rfl := Option.some.inj ((set_self _ _).symm.trans hc')
        exact hT.mapOps hpage _
    · rename_i hshrink
      rw [if_neg hshrink]
      obtain rfl := Option.some.inj h
      obtain rfl := Option.some.inj ((set_self _ _).symm.trans hc')
      exact hT.unmapOps hpage _

/-- **`TrapMemory`** kills the process, or gives it the pages. -/
theorem trapMemory_views (hc : k.curr = some c) (h : trapMemory k addr = some k')
    (hc' : k'.proc k.procs.running = some c') (hT : Views c.userpt.pt c.kstack T) :
    k'.alive k.procs.running = false ∨
      (Tlb.Tidy tlbFlushKstack ∅ (trapMemoryOps k c addr) ∅ ∧
        Views c'.userpt.pt c'.kstack (Tlb.tableAfter T (trapMemoryOps k c addr))) := by
  have hpage := trails_flushPage (D := ∅)
  unfold trapMemory at h
  rw [hc] at h
  dsimp only at h
  rw [modify_eq_set hc] at h
  unfold trapMemoryOps
  dsimp only
  split at h
  · rename_i hstack
    rw [if_pos hstack]
    split at h
    · exact Or.inl (kernelExit_not_alive h)
    · rename_i hroom
      rw [if_neg hroom]
      obtain rfl := Option.some.inj h
      obtain rfl := Option.some.inj ((set_self _ _).symm.trans hc')
      exact Or.inr ⟨tidy_mapOps hpage _, hT.mapOps hpage _⟩
  · exact Or.inl (kernelExit_not_alive h)

/-- **`KernelFork`** leaves its caller the tables it had. -/
theorem kernelFork_views {child : Node} {data : Addr} {pid : ℤ} (hc : k.curr = some c)
    (h : kernelFork k child data pid = some r) (hc' : r.1.proc k.procs.running = some c')
    (hT : Views c.userpt.pt c.kstack T) :
    Views c'.userpt.pt c'.kstack (Tlb.tableAfter T (kernelForkOps k c)) := by
  refine Views.scratch tidy_kernelForkOps ?_
  rcases kernelFork_cases hc h with ⟨-, rfl⟩ | ⟨-, hfresh, -, rfl⟩
  · obtain rfl := Option.some.inj (hc.symm.trans hc')
    exact hT
  · have hne : k.procs.running ≠ child := by
      rintro rfl
      cases hc.symm.trans hfresh
    unfold forked at hc'
    dsimp only at hc'
    rw [Function.update_of_ne hne, Function.update_self] at hc'
    obtain rfl := Option.some.inj hc'
    exact hT

end Calls

end Yalnix
