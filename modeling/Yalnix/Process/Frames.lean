import Yalnix.Process.Images
/-!
# Physical frames among processes

Every valid entry of every page table the processes have is a slot, and the
law is that each slot's frame is in use and is its own. The operations keep
it as long as the frames they ask for are there: each works on one table,
with everybody else's frames left alone (`Owned.set`, `Owned.processDestroy`,
`Owned.forked`).

All of them ask for no more than they have checked for, except `KernelFork`,
whose check goes by a page count that a forked process has wrong. The law
fails in exactly the runs in which some `Fork` passes the check with too few
frames left (`throughout_exclusive_iff`).
-/

namespace Yalnix

/-- An entry of a page table: a process's region 1, or its kernel stack. -/
inductive Slot (Node : Type) where
  | user (n : Node) (i : ℤ)
  | kstack (n : Node) (i : ℤ)

variable {Node Addr : Type}

/-- What is in a slot. -/
def Kernel.pte (k : Kernel Node Addr) : Slot Node → Pte
  | .user n i => ((k.proc n).map fun c => c.userpt.pt i).getD invalidPte
  | .kstack n i => ((k.proc n).map fun c => c.kstack i).getD invalidPte

theorem Slot.user_injective (n : Node) : Function.Injective (Slot.user n) := by
  intro i j h
  cases h
  rfl

theorem Slot.kstack_injective (n : Node) : Function.Injective (Slot.kstack n) := by
  intro i j h
  cases h
  rfl

variable [Paging]

open Paging

/-- **Frame exclusivity**: every valid entry names a frame that is one of
the machine's and marked used, no two name the same, and `vacate_frame` has
only been called on frames that were marked used. -/
structure Kernel.Exclusive (k : Kernel Node Addr) : Prop where
  used : ∀ e, (k.pte e).valid = true → baseFrame ≤ (k.pte e).pfn ∧
    (k.pte e).pfn < baseFrame + k.mem.frames.size ∧
    getBit k.mem.frames.bitVector ((k.pte e).pfn - baseFrame) = true
  alone : ∀ e e', (k.pte e).valid = true → (k.pte e').valid = true →
    (k.pte e).pfn = (k.pte e').pfn → e = e'
  strays : k.mem.frames.strays = []

/-- **What the operations keep**: exclusivity, and the allocator in order. -/
structure Kernel.Owned (k : Kernel Node Addr) : Prop where
  ok : k.mem.frames.Ok
  size_nonneg : 0 ≤ k.mem.frames.size
  held : Held k.mem.frames k.pte ∅
  strays : k.mem.frames.strays = []

variable {k k' : Kernel Node Addr} {n p : Node} {c : Proc Node Addr}

/-- An entry that holds `ERROR` names no frame. -/
theorem not_exclusive_of_error {prot : ℕ} (e : Slot Node) (h : k.pte e = ⟨true, errorCode, prot⟩) :
    ¬ k.Exclusive := by
  intro hex
  have hused := (hex.used e (by rw [h])).1
  rw [h] at hused
  have hbase := baseFrame_nonneg
  have herr : baseFrame ≤ (-1 : ℤ) := hused
  omega

theorem Kernel.Owned.exclusive (h : k.Owned) : k.Exclusive where
  used e he := FreeFrame.mem_used.mp (h.held.used e he)
  alone e e' := h.held.inj e e'
  strays := h.strays

omit [Paging] in
/-- The tables of the same processes hold the same. -/
theorem Leaves.pte_eq (h : Leaves k k' ∅) (e : Slot Node) (he : (k'.pte e).valid = true) :
    k'.pte e = k.pte e := by
  cases e with
  | user n i =>
    cases hn : k'.proc n with
    | none => simp [Kernel.pte, hn, invalidPte] at he
    | some c' =>
      obtain ⟨c, hc, hsame⟩ := h.keeps n (Set.notMem_empty n) c' hn
      simp [Kernel.pte, hn, hc, hsame.userpt]
  | kstack n i =>
    cases hn : k'.proc n with
    | none => simp [Kernel.pte, hn, invalidPte] at he
    | some c' =>
      obtain ⟨c, hc, hsame⟩ := h.keeps n (Set.notMem_empty n) c' hn
      simp [Kernel.pte, hn, hc, hsame.kstack]

/-- **What touches no frame and no table** keeps the law. -/
theorem Kernel.Owned.of_leaves (h : k.Owned) (hl : Leaves k k' ∅)
    (hf : k'.mem.frames = k.mem.frames) : k'.Owned where
  ok := hf ▸ h.ok
  size_nonneg := hf ▸ h.size_nonneg
  held := hf ▸ h.held.mono hl.pte_eq
  strays := hf ▸ h.strays

/-- What is kept by a change of anything else. -/
theorem Kernel.Owned.of_eq (h : k.Owned) (hproc : k'.proc = k.proc)
    (hf : k'.mem.frames = k.mem.frames) : k'.Owned := by
  have hpte : k'.pte = k.pte := by
    funext e
    cases e <;> simp only [Kernel.pte, hproc]
  exact ⟨hf ▸ h.ok, hf ▸ h.size_nonneg, by rw [hf, hpte]; exact h.held, hf ▸ h.strays⟩

/-- The user part of the whole. -/
theorem Kernel.Owned.user (h : k.Owned) (hc : k.proc n = some c) :
    Held k.mem.frames c.userpt.pt (heldOutside k.pte (Slot.user n)) := by
  have hpart := h.held.localize (Slot.user_injective n)
  have heq : (fun i => k.pte (Slot.user n i)) = c.userpt.pt := by
    funext i
    simp [Kernel.pte, hc]
  rwa [heq] at hpart

section Ops

variable [DecidableEq Node]

omit [Paging] in
/-- A store through a node that leaves both of its tables alone. -/
theorem pte_modify {f : Proc Node Addr → Proc Node Addr}
    (hf : ∀ c, (f c).userpt = c.userpt ∧ (f c).kstack = c.kstack) (e : Slot Node) :
    (k.modify n f).pte e = k.pte e := by
  have hmap : ∀ {α : Type} (g : Proc Node Addr → α) (m : Node), (∀ c, g (f c) = g c) →
      ((k.modify n f).proc m).map g = (k.proc m).map g := by
    intro α g m hg
    unfold Kernel.modify
    dsimp only
    rcases eq_or_ne m n with rfl | hm
    · rw [Function.update_self, Option.map_map]
      exact congrArg (fun φ => (k.proc m).map φ) (funext hg)
    · rw [Function.update_of_ne hm]
  cases e with
  | user m i =>
    exact congrArg (Option.getD · invalidPte) (hmap _ m fun c => by rw [(hf c).1])
  | kstack m i =>
    exact congrArg (Option.getD · invalidPte) (hmap _ m fun c => by rw [(hf c).2])

/-- **A call that works on its own user page table** keeps the law. -/
theorem Kernel.Owned.set {c' : Proc Node Addr} {mem : Memory} {j : ℤ} (h : k.Owned)
    (hc : k.proc n = some c) (hkstack : c'.kstack = c.kstack)
    (hpart : Held mem.frames c'.userpt.pt (heldOutside k.pte (Slot.user n)))
    (hran : Ran k.mem.frames mem.frames j) : (k.set n c' mem).Owned where
  ok := hran.ok
  size_nonneg := by
    show 0 ≤ mem.frames.size
    rw [hran.size_eq]
    exact h.size_nonneg
  held := by
    refine h.held.glue hpart (fun i _ => ?_) fun e he hv => ?_
    · show ((Function.update k.proc n (some c') n).map _).getD _ = _
      rw [Function.update_self]
      rfl
    · cases e with
      | user m i =>
        have hm : m ≠ n := fun hmn => he ⟨i, hmn ▸ rfl⟩
        show ((Function.update k.proc n (some c') m).map _).getD _ = _
        rw [Function.update_of_ne hm]
        rfl
      | kstack m i =>
        show ((Function.update k.proc n (some c') m).map _).getD _ = _
        rcases eq_or_ne m n with rfl | hm
        · rw [Function.update_self]
          simp [Kernel.pte, hc, hkstack]
        · rw [Function.update_of_ne hm]
          rfl
  strays := hran.strays_eq.trans h.strays

variable [DecidableEq Addr]

/-- **`process_destroy`** gives the kernel stack back. -/
theorem Kernel.Owned.processDestroy (h : k.Owned) : (processDestroy k n).Owned := by
  unfold Yalnix.processDestroy
  cases hn : k.proc n with
  | none => exact h
  | some c =>
    have hpart := h.held.localize (Slot.kstack_injective n)
    have heq : (fun i => k.pte (Slot.kstack n i)) = c.kstack := by
      funext i
      simp [Kernel.pte, hn]
    rw [heq] at hpart
    obtain ⟨hheld, j, hran⟩ := hpart.unmapValid h.ok (pages 0 numKstackPages)
    refine ⟨hran.ok, ?_, ?_, hran.strays_eq.trans h.strays⟩
    · show 0 ≤ (unmapValid (pages 0 numKstackPages) k.mem.frames c.kstack).1.size
      rw [hran.size_eq]
      exact h.size_nonneg
    · -- the slots of the process are gone, everybody else's are as they were
      have hnone : ∀ e, (∃ i, e = Slot.user n i ∨ e = Slot.kstack n i) →
          ¬ (({ k with
            mem := { k.mem with frames := (destroyKstack k.mem.frames c.kstack).1 }
            proc := Function.update k.proc n none
            pcbAt := Function.update k.pcbAt c.data none } : Kernel Node Addr).pte e).valid = true := by
        rintro e ⟨i, rfl | rfl⟩
        · simp [Kernel.pte, invalidPte]
        · simp [Kernel.pte, invalidPte]
      refine h.held.glue hheld (fun i hv => absurd hv (hnone _ ⟨i, Or.inr rfl⟩)) fun e he hv => ?_
      cases e with
      | user m i =>
        rcases eq_or_ne m n with rfl | hm
        · exact absurd hv (hnone _ ⟨i, Or.inl rfl⟩)
        · show ((Function.update k.proc n none m).map _).getD _ = _
          rw [Function.update_of_ne hm]
          rfl
      | kstack m i =>
        have hm : m ≠ n := fun hmn => he ⟨i, hmn ▸ rfl⟩
        show ((Function.update k.proc n none m).map _).getD _ = _
        rw [Function.update_of_ne hm]
        rfl

theorem Kernel.Owned.destroyAll (h : k.Owned) (procs : List Node) :
    (destroyAll procs k).Owned := by
  induction procs generalizing k with
  | nil => exact h
  | cons proc rest ih => exact ih h.processDestroy

theorem Kernel.Owned.reapOrphans (h : k.Owned) : (reapOrphans k).Owned :=
  (h.destroyAll k.procs.orphans).of_leaves (Leaves.of_proc_eq rfl rfl rfl rfl rfl) rfl

omit [Paging] [DecidableEq Addr] in
theorem orphanAll_mem (addrs : List Addr) : (orphanAll addrs k).mem = k.mem := by
  induction addrs generalizing k with
  | nil => rfl
  | cons curr rest ih =>
    rw [orphanAll, ih]
    cases k.pcbAt curr <;> rfl

/-- **`process_terminate`** gives the user memory back, and a child's kernel
stack. -/
theorem Kernel.Owned.processTerminate (h : k.Owned) (rc : ℤ) :
    (processTerminate k n rc).Owned := by
  rcases alive_or_dead k n with ⟨c, kin, hc, hkin⟩ | hdead
  · rw [processTerminate_eq rc hc hkin]
    have hrelease : (releaseUser k n c rc).Owned := by
      obtain ⟨hheld, j, hran⟩ := (h.user hc).unmapValid h.ok (pages 0 numPages1)
      exact h.set hc rfl hheld hran
    have horphan : (orphanAll kin.aChildren (releaseUser k n c rc)).Owned :=
      hrelease.of_leaves (leaves_orphanAll _) (by rw [orphanAll_mem])
    have hdestroy : (destroyDefunct kin.dChildren
        (orphanAll kin.aChildren (releaseUser k n c rc))).Owned := by
      cases kin.dChildren with
      | nil => exact horphan
      | cons curr rest => exact horphan.processDestroy
    -- marking the process dead changes no table
    refine ⟨hdestroy.ok, hdestroy.size_nonneg, hdestroy.held.mono fun e _ => ?_, hdestroy.strays⟩
    exact pte_modify (fun _ => by exact ⟨rfl, rfl⟩) e
  · rw [processTerminate_of_dead rc hdead]
    exact h

omit [Paging] [DecidableEq Addr] in
theorem graveyard_mem : (graveyard k).mem = k.mem := by
  unfold graveyard
  dsimp only
  cases k.curr.bind Proc.parent <;> rfl

/-- **`KernelExit`** keeps the law. -/
theorem Kernel.Owned.kernelExit {status : ℤ} (h : k.Owned) (hexit : kernelExit k status = some k') :
    k'.Owned := by
  unfold Yalnix.kernelExit at hexit
  split at hexit
  · cases hexit
  · obtain rfl := Option.some.inj hexit
    exact (h.reapOrphans.processTerminate status).of_leaves leaves_graveyard (by rw [graveyard_mem])

omit [DecidableEq Addr] in
/-- **`LoadProgram`** keeps the law, whatever comes of it. -/
theorem Kernel.Owned.loaded {args : List (List Byte)} {env : LoadEnv}
    {r : Loaded × LoadCode} (h : k.Owned) (hc : k.proc n = some c)
    (henv : ∀ li, env.info = some li → li.WellFormed)
    (hr : loadProgram k.mem c.userpt c.uc args env = r) :
    (k.set n (loadedProc c r) r.1.mem).Owned := by
  by_cases herr : r.2 = .error
  · have hsame : r.1.mem = k.mem ∧ r.1.userpt = c.userpt := by
      subst hr
      exact loadProgram_error herr
    refine h.set hc rfl ?_ (j := 0) ?_
    · show Held r.1.mem.frames r.1.userpt.pt _
      rw [hsame.1, hsame.2]
      exact h.user hc
    · rw [hsame.1]
      exact Ran.refl h.ok
  · obtain ⟨li, hinfo, -, heq⟩ :=
      loadProgram_committed (show (loadProgram k.mem c.userpt c.uc args env).2 ≠ .error by rwa [hr])
    rw [hr] at heq
    obtain ⟨hfree, j, hran⟩ := (h.user hc).unmapValid h.ok (pages 0 numPages1)
    rcases loadSegments_cases heq.symm with ⟨-, hf, hu⟩ | ⟨-, hleft, hmapped⟩
    · -- not enough frames: the old memory is gone, and that is all
      refine h.set hc rfl ?_ (j := j) ?_
      · show Held r.1.mem.frames r.1.userpt.pt _
        rw [hf, hu]
        exact hfree
      · rw [hf]
        exact hran
    · obtain ⟨hheld, j', hran'⟩ := hfree.mapSegments hran.ok (henv li hinfo) hleft
      refine h.set hc rfl ?_ (j := j + j') ?_
      · show Held r.1.mem.frames r.1.userpt.pt _
        rw [hmapped.frames_eq]
        exact hheld.congr fun i => ⟨hmapped.valid_eq i, hmapped.pfn_eq i⟩
      · rw [hmapped.frames_eq]
        exact hran.trans hran'

/-- The tables with a new process's among them. -/
def withTables (k : Kernel Node Addr) (child : Node) (pt kstack : ℤ → Pte) : Slot Node → Pte
  | .user n i => if n = child then pt i else k.pte (.user n i)
  | .kstack n i => if n = child then kstack i else k.pte (.kstack n i)

omit [DecidableEq Addr] in
/-- **A new process**, its region 1 and then its kernel stack in frames that
were free, keeps the law. -/
theorem Kernel.Owned.withTables {child : Node} {pt kstack : ℤ → Pte} {f : FreeFrame} {i j : ℤ}
    (h : k.Owned)
    (huser : ∀ others, (∀ x ∈ others, x ∈ k.mem.frames.used) → Held f pt others)
    (hran : Ran k.mem.frames f i)
    (hstack : ∀ others, (∀ x ∈ others, x ∈ f.used) → Held k'.mem.frames kstack others)
    (hran' : Ran f k'.mem.frames j) (hpte : k'.pte = withTables k child pt kstack) :
    k'.Owned := by
  -- first the region, with no kernel stack
  obtain ⟨t, ht⟩ : ∃ t : Slot Node → Pte, t = Yalnix.withTables k child pt fun i =>
      k.pte (.kstack child i) := ⟨_, rfl⟩
  have hone : Held f t ∅ := by
    refine h.held.glue (huser _ (h.held.localize (Slot.user_injective child)).others_used)
      (fun i _ => ?_) fun e he _ => ?_
    · rw [ht]
      exact if_pos rfl
    · rw [ht]
      cases e with
      | user n i => exact if_neg fun hn => he ⟨i, by rw [hn]⟩
      | kstack n i =>
        show (if n = child then k.pte (.kstack child i) else k.pte (.kstack n i)) = _
        split
        · rename_i hn
          rw [hn]
        · rfl
  have hboth := hran.trans hran'
  refine ⟨hboth.ok, ?_, ?_, hboth.strays_eq.trans h.strays⟩
  · rw [hboth.size_eq]
    exact h.size_nonneg
  · refine hone.glue (hstack _ (hone.localize (Slot.kstack_injective child)).others_used)
      (fun i _ => ?_) fun e he _ => ?_
    · rw [hpte]
      exact if_pos rfl
    · rw [hpte, ht]
      cases e with
      | user n i => rfl
      | kstack n i =>
        have hn : n ≠ child := fun hn => he ⟨i, by rw [hn]⟩
        show (if n = child then _ else _) = if n = child then _ else _
        rw [if_neg hn, if_neg hn]

omit [Paging] [DecidableEq Addr] in
/-- The slots of a kernel that differs by a new process, and by links. -/
theorem pte_of_new {child : Node} {c' : Proc Node Addr} (hnew : k'.proc child = some c')
    (hrest : ∀ n, n ≠ child → ∀ i,
      k'.pte (.user n i) = k.pte (.user n i) ∧ k'.pte (.kstack n i) = k.pte (.kstack n i)) :
    k'.pte = withTables k child c'.userpt.pt c'.kstack := by
  funext e
  cases e with
  | user n i =>
    show _ = if n = child then c'.userpt.pt i else k.pte (.user n i)
    split
    · rename_i hn
      rw [hn]
      simp [Kernel.pte, hnew]
    · rename_i hn
      exact (hrest n hn i).1
  | kstack n i =>
    show _ = if n = child then c'.kstack i else k.pte (.kstack n i)
    split
    · rename_i hn
      rw [hn]
      simp [Kernel.pte, hnew]
    · rename_i hn
      exact (hrest n hn i).2

/-- What the slots are after a `Fork`. -/
theorem forked_pte {child : Node} {data : Addr} {pid : ℤ} (hc : k.curr = some c) :
    (forked k c child data pid).pte = withTables k child
      (copyUserMem k.mem c.userpt newUserPt).2.pt
      (kcCopy (copyUserMem k.mem c.userpt newUserPt).1 fun _ => invalidPte).2 := by
  have hrun : k.proc k.procs.running = some c := hc
  have hnew : (forked k c child data pid).proc child = some (childOf k c data pid) :=
    Function.update_self _ _ _
  refine pte_of_new hnew fun n hn i => ?_
  have hproc : (forked k c child data pid).proc n =
      if n = k.procs.running then some (parentOf k c data) else k.proc n := by
    show Function.update (Function.update k.proc k.procs.running _) child _ n = _
    rw [Function.update_of_ne hn, Function.update_apply]
  rcases eq_or_ne n k.procs.running with rfl | hn'
  · simp [Kernel.pte, hproc, hrun, parentOf]
  · simp [Kernel.pte, hproc, hn']

/-- **`KernelFork` with the frames it needs** keeps the law. -/
theorem Kernel.Owned.forked {child : Node} {data : Addr} {pid : ℤ} (h : k.Owned)
    (hc : k.curr = some c) (hleft : c.userpt.count + numKstackPages ≤ framesLeft k.mem.frames) :
    (forked k c child data pid).Owned := by
  have hk := numKstackPages_pos
  unfold framesLeft at hleft
  have hblank : ∀ others : Set ℤ, (∀ x ∈ others, x ∈ k.mem.frames.used) →
      Held k.mem.frames newUserPt.pt others := fun _ ho => Held.of_invalid (fun _ => rfl) ho
  have huser := fun others ho => (hblank others ho).copyUserMem (u := c.userpt) h.ok
    (by unfold framesLeft; omega)
  have hran := (huser ∅ fun x hx => absurd hx (Set.notMem_empty x)).2
  have hnone : ∀ others : Set ℤ, (∀ x ∈ others,
      x ∈ (copyUserMem k.mem c.userpt newUserPt).1.frames.used) →
      Held (copyUserMem k.mem c.userpt newUserPt).1.frames (fun _ : ℤ => invalidPte) others :=
    fun _ ho => Held.of_invalid (fun _ => rfl) ho
  have hstack := fun others ho => (hnone others ho).kcCopy hran.ok (by
    unfold framesLeft
    rw [hran.size_eq, hran.filled_eq]
    omega)
  have hran' := (hstack ∅ fun x hx => absurd hx (Set.notMem_empty x)).2
  exact h.withTables (fun others ho => (huser others ho).1) hran
    (fun others ho => (hstack others ho).1) hran' (forked_pte hc)

/-- **`KernelFork` without them** breaks it: the last entry of the child's
kernel stack is valid and names no frame. -/
theorem not_exclusive_forked {child : Node} {data : Addr} {pid : ℤ} (h : k.Owned)
    (hc : k.curr = some c) (hleft : framesLeft k.mem.frames < c.userpt.count + numKstackPages) :
    ¬ (forked k c child data pid).Exclusive := by
  have hk := numKstackPages_pos
  have hfull := h.ok.filled_le h.size_nonneg
  have hasked : Asked k.mem.frames (copyUserMem k.mem c.userpt newUserPt).1.frames c.userpt.count :=
    asked_copyValid h.ok hfull
  have hlast : (kcCopy (copyUserMem k.mem c.userpt newUserPt).1 fun _ => invalidPte).2
      (numKstackPages - 1) = ⟨true, errorCode, protRead ||| protWrite⟩ := by
    have hsize := hasked.size_eq
    have hfilled := hasked.filled_eq
    unfold framesLeft at hleft
    refine kcCopy_last hasked.ok ?_ ?_
    · omega
    · unfold framesLeft
      omega
  have hpte : (forked k c child data pid).pte (Slot.kstack child (numKstackPages - 1)) =
      ⟨true, errorCode, protRead ||| protWrite⟩ := by
    rw [forked_pte hc, ← hlast]
    exact if_pos rfl
  exact not_exclusive_of_error (Slot.kstack child (numKstackPages - 1)) hpte

omit [DecidableEq Addr] in
/-- A heap or a stack that grows by frames there are, or a heap that
shrinks. -/
theorem Kernel.Owned.setUser {r : FreeFrame × UserPt} {j : ℤ} (h : k.Owned)
    (hc : k.proc n = some c) (hpart : Held r.1 r.2.pt (heldOutside k.pte (Slot.user n)))
    (hran : Ran k.mem.frames r.1 j) : (k.setUser n c r).Owned :=
  h.set hc rfl hpart hran

/-! ## The law -/

/-- **The frames a `Fork` needs are there** if its check says so: one for
each page of the caller, and the new kernel stack's. -/
def ForkFits (k : Kernel Node Addr) : Node × ProcAct Node Addr → Prop
  | (p, .fork _ _ _) => ∀ c, k.proc p = some c →
      noKernelMemory k (c.userpt.size + 3) = false →
      c.userpt.count + numKstackPages ≤ framesLeft k.mem.frames
  | _ => True

/-- **What one activation does to the frames**, where a `Fork` has those it
needs. -/
theorem owned_step {e : Node × ProcAct Node Addr} (h : k.Owned) (himg : k.Imaged)
    (he : e.2.InDomain) (hfits : ForkFits k e) (hstep : k.step e = some k') : k'.Owned := by
  obtain ⟨p, act⟩ := e
  obtain ⟨c, kin, hp, hkin, hidle, -, -, heff⟩ := step_effect hstep
  have h₀ : (switchTo k p c).Owned := h.of_leaves (leaves_switchTo c) rfl
  obtain ⟨⟨d, b, s, hl⟩, -⟩ := himg p c hp (by rw [hkin]; rfl) hidle
  have hc : (switchTo k p c).curr = some c := switchTo_curr hp
  -- a fork, an exec and a grown heap or stack take frames; an exec, an exit and a shrunk
  -- heap give them back
  cases heff with
  | forkRefused => exact h₀
  | forked child data pid hyes hchild hdata => exact h₀.forked hc (hfits c hp hyes)
  | execRefused => exact h₀
  | loaded filename argvec env args l hload hcode => exact h₀.loaded hc he hload
  | killed filename argvec env args l k' hload hcode hexit =>
    exact (h₀.loaded hc he hload).kernelExit hexit
  | exited status k' hexit => exact h₀.kernelExit hexit
  | waitRefused => exact h₀
  | asleep => exact h₀.of_eq rfl rfl
  | collected act statusPtr child rest childPcb =>
    have hdequeue := h₀.of_leaves
      (leaves_dequeue hc hkin rest (c.children.erase childPcb.serial)) rfl
    refine Kernel.Owned.of_eq (k := collected (switchTo k p c) c kin child rest childPcb statusPtr)
      (Kernel.Owned.reapOrphans (Kernel.Owned.processDestroy ?_)) rfl rfl
    split
    · exact hdequeue.of_eq rfl (storeBytes_frames _)
    · exact hdequeue
  | brk addr r hr =>
    rcases kernelUserBrk_cases hc hl hr with
      heq | ⟨b', -, -, ⟨hlo, hhi, hleft, heq⟩ | ⟨hlo, hhi, heq⟩⟩
    · rw [heq]
      exact h₀
    · rw [heq]
      have hlen := length_pages hlo.le
      obtain ⟨hheld, hran⟩ := (h₀.user hc).mapPages h₀.ok (protRead ||| protWrite) (pages b b')
        (by rw [hlen]; exact hleft)
      exact h₀.setUser hc hheld hran
    · rw [heq]
      obtain ⟨hheld, hran⟩ := (h₀.user hc).unmapPages h₀.ok (pages b' b).reverse
        (List.nodup_reverse.mpr nodup_pages) fun i hi => by
          rw [List.mem_reverse, mem_pages] at hi
          exact hl.heap i (by omega) hi.2
      exact h₀.setUser hc hheld hran
  | fault addr k' hk' =>
    rcases trapMemory_cases hc hl hk' with hexit | ⟨s', hlo, hhi, hleft, heq⟩
    · exact h₀.kernelExit hexit
    · rw [heq]
      have hlen := length_pages hhi
      obtain ⟨hheld, hran⟩ := (h₀.user hc).mapPages h₀.ok (protRead ||| protWrite)
        (pages s' s).reverse (by rw [List.length_reverse, hlen]; exact hleft)
      exact h₀.setUser hc hheld hran
  | stored => exact h₀.of_eq rfl rfl

/-- **And where a `Fork` has not**, and its check lets it go on. -/
theorem not_exclusive_step {e : Node × ProcAct Node Addr} (h : k.Owned) (hfits : ¬ ForkFits k e)
    (hstep : k.step e = some k') : ¬ k'.Exclusive := by
  obtain ⟨p, act⟩ := e
  obtain ⟨c, kin, hp, hkin, -, -, -, heff⟩ := step_effect hstep
  have h₀ : (switchTo k p c).Owned := h.of_leaves (leaves_switchTo c) rfl
  have hc : (switchTo k p c).curr = some c := switchTo_curr hp
  cases act with
  | fork child data pid =>
    cases heff with
    | forkRefused _ _ _ hno =>
      refine absurd (fun c' hc' hyes => ?_) hfits
      obtain rfl := Option.some.inj (hp.symm.trans hc')
      exact absurd (hno.symm.trans hyes) (by simp)
    | forked _ _ _ hyes hchild hdata =>
      refine not_exclusive_forked h₀ hc ?_
      by_contra hge
      refine hfits fun c' hc' _ => ?_
      obtain rfl := Option.some.inj (hp.symm.trans hc')
      exact not_lt.mp hge
    | asleep _ _ hin => rcases hin with ⟨hact, -⟩ | ⟨hact, -⟩ <;> cases hact
    | collected _ _ _ _ _ hin => rcases hin with ⟨hact, -⟩ | ⟨hact, -⟩ <;> cases hact
  | _ => exact absurd trivial hfits

end Ops

end Yalnix
