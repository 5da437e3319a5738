import Yalnix.Process.Places
/-!
# What `KernelWait` stores, and through which page table

Of what a process does, only `KernelWait` has the kernel answer through its
memory: the status of the child it collects, at a pointer that was checked
when the call was made. Whoever is asleep has the page table it fell asleep
with.
-/

namespace Yalnix

variable {Node Addr : Type} [Paging] [DecidableEq Node] [DecidableEq Addr]

variable {k k' : Kernel Node Addr} {n p : Node} {c : Proc Node Addr} {kin : Kin Node Addr}
  {act : ProcAct Node Addr}

/-! ## Nothing stored -/

omit [Paging] [DecidableEq Addr] in
theorem orphanAll_misstored (addrs : List Addr) : (orphanAll addrs k).misstored = k.misstored := by
  induction addrs generalizing k with
  | nil => rfl
  | cons curr rest ih =>
    rw [orphanAll, ih]
    split <;> rfl

theorem processDestroy_misstored : (processDestroy k n).misstored = k.misstored := by
  unfold processDestroy
  split <;> rfl

theorem reapOrphans_misstored : (reapOrphans k).misstored = k.misstored := by
  have hall : ∀ (procs : List Node) (k : Kernel Node Addr),
      (destroyAll procs k).misstored = k.misstored := by
    intro procs
    induction procs with
    | nil => exact fun k => rfl
    | cons proc rest ih =>
      intro k
      rw [destroyAll, ih, processDestroy_misstored]
  exact hall k.procs.orphans k

theorem processTerminate_misstored (rc : ℤ) :
    (processTerminate k n rc).misstored = k.misstored := by
  rcases alive_or_dead k n with ⟨c, kin, hc, hkin⟩ | hdead
  · rw [processTerminate_eq rc hc hkin]
    have hwalk : (destroyDefunct kin.dChildren (orphanAll kin.aChildren
        (releaseUser k n c rc))).misstored = (releaseUser k n c rc).misstored := by
      cases kin.dChildren with
      | nil => exact orphanAll_misstored _
      | cons curr rest => exact processDestroy_misstored.trans (orphanAll_misstored _)
    exact hwalk
  · rw [processTerminate_of_dead rc hdead]

theorem kernelExit_misstored {status : ℤ} (hexit : kernelExit k status = some k') :
    k'.misstored = k.misstored := by
  have hgrave : ∀ k : Kernel Node Addr, (graveyard k).misstored = k.misstored := by
    intro k
    unfold graveyard
    dsimp only
    cases k.curr.bind Proc.parent <;> rfl
  rw [kernelExit_eq hexit, hgrave, processTerminate_misstored, reapOrphans_misstored]

/-! ## The status -/

/-- **The call comes to store a status** at this pointer: the process is
past the tests of `KernelWait`, and a child is there to be collected. -/
def StoresStatus (k : Kernel Node Addr) (c : Proc Node Addr) (kin : Kin Node Addr)
    (act : ProcAct Node Addr) (statusPtr : ℤ) : Prop :=
  InWait k c kin act statusPtr ∧ kin.dChildren ≠ [] ∧ statusPtr ≠ 0

/-- What a store of `n` bytes to the caller adds to the record. -/
def unwritable (pt : ℤ → Pte) (addr : ℤ) (n : ℕ) : List ℤ :=
  (bytesAt (fun i => addr + i) n).filter fun a => !writable pt a

omit [DecidableEq Node] [DecidableEq Addr] in
theorem InWait.unique {statusPtr statusPtr' : ℤ} (h : InWait k c kin act statusPtr)
    (h' : InWait k c kin act statusPtr') : statusPtr = statusPtr' := by
  rcases h with ⟨rfl, -⟩ | ⟨rfl, hw⟩
  · rcases h' with ⟨heq, -⟩ | ⟨heq, -⟩
    · exact ProcAct.wait.inj heq
    · cases heq
  · rcases h' with ⟨heq, -⟩ | ⟨-, hw'⟩
    · cases heq
    · exact Option.some.inj (hw.symm.trans hw')

omit [DecidableEq Node] [DecidableEq Addr] in
/-- Any other call is not `KernelWait`. -/
theorem not_inWait (hwait : ∀ ptr, act ≠ .wait ptr) (hresume : act ≠ .resume) (ptr : ℤ) :
    ¬ InWait k c kin act ptr := by
  rintro (⟨heq, -⟩ | ⟨heq, -⟩)
  · exact hwait ptr heq
  · exact hresume heq

/-- **An activation stores a status, or nothing.** -/
theorem Effect.misstored (hc : k.curr = some c) (heff : Effect k c kin act k') :
    (k'.misstored = k.misstored ∧ ∀ ptr, ¬ StoresStatus k c kin act ptr) ∨
    ∃ ptr, StoresStatus k c kin act ptr ∧
      k'.misstored = k.misstored ++ unwritable c.userpt.pt ptr 4 := by
  -- outside a wait nothing is stored for the caller
  have hno : (∀ ptr, ¬ InWait k c kin act ptr) → k'.misstored = k.misstored →
      (k'.misstored = k.misstored ∧ ∀ ptr, ¬ StoresStatus k c kin act ptr) ∨
      ∃ ptr, StoresStatus k c kin act ptr ∧
        k'.misstored = k.misstored ++ unwritable c.userpt.pt ptr 4 :=
    fun hin hsame => Or.inl ⟨hsame, fun ptr h => hin ptr h.1⟩
  cases heff with
  | forkRefused => exact hno (not_inWait (by simp) (by simp)) rfl
  | forked => exact hno (not_inWait (by simp) (by simp)) rfl
  | execRefused => exact hno (not_inWait (by simp) (by simp)) rfl
  | loaded => exact hno (not_inWait (by simp) (by simp)) rfl
  | killed filename argvec env args l k' hl hcode hexit =>
    exact hno (not_inWait (by simp) (by simp))
      (by rw [kernelExit_misstored hexit]; rfl)
  | exited status k' hexit =>
    exact hno (not_inWait (by simp) (by simp))
      (kernelExit_misstored hexit)
  | waitRefused statusPtr hrefused =>
    refine hno (fun ptr h => ?_) rfl
    rcases h with ⟨heq, hptr, hsome⟩ | ⟨heq, -⟩
    · obtain rfl := ProcAct.wait.inj heq
      rcases hrefused with ⟨hne, hfalse⟩ | hnone
      · exact hptr.elim hne (by rw [hfalse]; exact Bool.false_ne_true)
      · exact hsome hnone
    · cases heq
  | asleep act statusPtr hin hnone => exact Or.inl ⟨rfl, fun ptr h => h.2.1 hnone⟩
  | collected act statusPtr child rest childPcb hin hd hchild =>
    have hcollected : (Yalnix.collected k c kin child rest childPcb statusPtr).misstored =
        k.misstored ++ if statusPtr ≠ 0 then unwritable c.userpt.pt statusPtr 4 else [] := by
      unfold Yalnix.collected
      dsimp only
      rw [reapOrphans_misstored, processDestroy_misstored]
      split
      · rfl
      · exact (List.append_nil _).symm
    by_cases hzero : statusPtr = 0
    · rw [if_neg (not_not.mpr hzero), List.append_nil] at hcollected
      refine Or.inl ⟨hcollected, fun ptr h => h.2.2 ?_⟩
      rw [← hzero]
      exact h.1.unique hin
    · rw [if_pos hzero] at hcollected
      exact Or.inr ⟨statusPtr, ⟨hin, by rw [hd]; exact List.cons_ne_nil _ _, hzero⟩, hcollected⟩
  | brk addr r hr =>
    refine hno (not_inWait (by simp) (by simp)) ?_
    rcases kernelUserBrk_set hc hr with heq | ⟨u, mem, heq⟩
    · rw [heq]
    · rw [heq]
      rfl
  | fault addr k' hk' =>
    refine hno (not_inWait (by simp) (by simp)) ?_
    rcases trapMemory_set hc hk' with hexit | ⟨u, mem, heq⟩
    · exact kernelExit_misstored hexit
    · rw [heq]
      rfl
  | stored => exact hno (not_inWait (by simp) (by simp)) rfl

/-- Only who is inside `KernelWait` comes back to it. -/
theorem Effect.inWait_of_resume (heff : Effect k c kin .resume k') :
    ∃ ptr, k.waits k.procs.running = some ptr := by
  have hin : ∀ {ptr : ℤ}, InWait k c kin .resume ptr → k.waits k.procs.running = some ptr := by
    rintro ptr (⟨heq, -⟩ | ⟨-, hw⟩)
    · cases heq
    · exact hw
  cases heff with
  | asleep _ statusPtr h => exact ⟨statusPtr, hin h⟩
  | collected _ statusPtr child rest childPcb h => exact ⟨statusPtr, hin h⟩

/-- **Who comes to be inside `KernelWait`** was there before, or has called it
with a pointer that passed its check. -/
theorem Effect.waits_running {ptr : ℤ} (hc : k.curr = some c) (heff : Effect k c kin act k')
    (hw : k'.waits k.procs.running = some ptr) : k.waits k.procs.running = some ptr ∨
      k'.proc = k.proc ∧ (ptr = 0 ∨ checkAddr ptr protWrite c.userpt.pt = true) := by
  cases heff.move hc with
  | kept _ _ hfamily horphans hwaiting hwaits => exact Or.inl (hwaits ▸ hw)
  | forked => exact Or.inl hw
  | exited _ k₁ _ c₁ status hc₁ hm hfamily hprocs hwaits hact hstatus hexit =>
    rw [(kernelExit_leaves hexit).1.waits, hwaits] at hw
    exact Or.inl hw
  | asleep act statusPtr hin hnone =>
    dsimp only at hw
    rw [Function.update_self] at hw
    obtain rfl := Option.some.inj hw
    rcases hin with ⟨-, hptr, -⟩ | ⟨-, hold⟩
    · exact Or.inr ⟨rfl, hptr⟩
    · exact Or.inl hold
  | collected =>
    dsimp only at hw
    rw [Function.update_self] at hw
    cases hw

/-! ## The page table -/

/-- **An activation leaves the others as they are**, and its caller, where it
comes back from `KernelWait`. -/
theorem Effect.keeps {c₀ c' : Proc Node Addr} (hc : k.curr = some c) (hkin : c.kin = some kin)
    (heff : Effect k c kin act k') (hn : k.proc n = some c₀)
    (hstay : n ≠ k.procs.running ∨ act = .resume) (hc' : k'.proc n = some c') : c₀.Same c' := by
  have hleaves : ∀ {k₁ : Kernel Node Addr} {S : Set Node}, Leaves k k₁ S → n ∉ S →
      k₁.proc n = some c' → c₀.Same c' := by
    intro k₁ S h hS h₁
    obtain ⟨c₁, hc₁, hsame⟩ := h.keeps n hS c' h₁
    obtain rfl := Option.some.inj (hn.symm.trans hc₁)
    exact hsame
  -- for all but `resume` the process that stays is not the one that acts
  have hother : act ≠ .resume → n ∉ ({k.procs.running} : Set Node) := fun hact hin =>
    hstay.elim (fun hne => hne (Set.mem_singleton_iff.mp hin)) hact
  cases heff with
  | forkRefused => exact hleaves (Leaves.refl k ∅) (Set.notMem_empty n) hc'
  | forked child data pid hyes hchild hdata =>
    have hne : n ≠ child := by
      rintro rfl
      rw [hn] at hchild
      cases hchild
    have hrun : n ≠ k.procs.running := fun heq => hother (by simp) (Set.mem_singleton_iff.mpr heq)
    have hproc : (Yalnix.forked k c child data pid).proc n = k.proc n := by
      unfold Yalnix.forked
      dsimp only
      rw [Function.update_of_ne hne, Function.update_of_ne hrun]
    rw [hproc, hn] at hc'
    obtain rfl := Option.some.inj hc'
    exact Proc.Same.refl c₀
  | execRefused => exact hleaves (Leaves.refl k ∅) (Set.notMem_empty n) hc'
  | loaded => exact hleaves (leaves_set _ _) (hother (by simp)) hc'
  | killed filename argvec env args l k' hl hcode hexit =>
    exact hleaves ((leaves_set _ _).trans (kernelExit_leaves hexit).1) (hother (by simp)) hc'
  | exited status k' hexit =>
    exact hleaves (kernelExit_leaves hexit).1 (hother (by simp)) hc'
  | waitRefused => exact hleaves (Leaves.refl k ∅) (Set.notMem_empty n) hc'
  | asleep => exact hleaves (Leaves.refl k ∅) (Set.notMem_empty n) hc'
  | collected act statusPtr child rest childPcb =>
    have hcollected : Leaves k (Yalnix.collected k c kin child rest childPcb statusPtr) ∅ :=
      leaves_collected hc hkin
    exact hleaves hcollected (Set.notMem_empty n) hc'
  | brk addr r hr =>
    rcases kernelUserBrk_set hc hr with heq | ⟨u, mem, heq⟩
    · rw [heq] at hc'
      exact hleaves (Leaves.refl k ∅) (Set.notMem_empty n) hc'
    · rw [heq] at hc'
      exact hleaves (leaves_set _ _) (hother (by simp)) hc'
  | fault addr k' hk' =>
    rcases trapMemory_set hc hk' with hexit | ⟨u, mem, heq⟩
    · exact hleaves (kernelExit_leaves hexit).1 (hother (by simp)) hc'
    · rw [heq] at hc'
      exact hleaves (leaves_set _ _) (hother (by simp)) hc'
  | stored => exact hleaves (Leaves.refl k ∅) (Set.notMem_empty n) hc'

/-- **Who stays alive keeps its page table.** -/
theorem Effect.keepsUser {c₀ : Proc Node Addr} (h : k.Kindred) (hc : k.curr = some c)
    (hkin : c.kin = some kin) (heff : Effect k c kin act k') (hn : k.proc n = some c₀)
    (halive : c₀.kin.isSome) (hstay : n ≠ k.procs.running ∨ act = .resume) :
    ∃ c', k'.proc n = some c' ∧ c'.kin.isSome ∧ c'.userpt = c₀.userpt := by
  have hlives : n ≠ k.procs.running ∨ k'.alive k.procs.running = true := by
    refine hstay.imp_right fun hact => ?_
    have hrun : k.alive k.procs.running = true := alive_iff.mpr ⟨c, kin, hc, hkin⟩
    subst hact
    cases heff with
    | asleep => exact hrun
    | collected act statusPtr child rest childPcb hin hd hchild =>
      exact (alive_collected childPcb statusPtr h hc hkin hd _).trans hrun
  obtain ⟨c', hc', halive', -⟩ := heff.survives h hc hkin hn halive hlives
  exact ⟨c', hc', halive', (heff.keeps hc hkin hn hstay hc').userpt⟩

end Yalnix
