import Yalnix.Process.Frames
/-!
# Frame exclusivity, from boot on

`KernelStart` asks for frames too, and looks at no answer: for region 0 and
for idle. A machine with the frames for both (`BootFits`) starts out with
every frame its own, and one without does not. From there the law holds as
long as every `Fork` that passes its check has the frames it needs
(`throughout_exclusive_iff`).
-/

namespace Yalnix

variable {Node Addr : Type} [Paging]

open Paging

/-! ## Region 0 -/

section VmSetup

variable {dataStart brk vpn : ℤ} {free : FreeFrame} {pt : ℤ → Pte} {vpns : List ℤ}

/-- One page of region 0 is mapped to the frame of its number, or is not. -/
theorem vmSetupPage_cases (dataStart brk : ℤ) (free : FreeFrame) (pt : ℤ → Pte) (vpn : ℤ) :
    (vpn < basePageKstack ∧ vmSetupPage dataStart brk free pt vpn =
      (free, Function.update pt (vpn - basePage0) (setPte (pt (vpn - basePage0)) false 0 0))) ∨
    ∃ prot, vmSetupPage dataStart brk free pt vpn = ((getFrame free vpn false).1,
      Function.update pt (vpn - basePage0) ⟨true, (getFrame free vpn false).2, prot⟩) := by
  unfold vmSetupPage
  split
  · exact Or.inr ⟨_, rfl⟩
  · split
    · exact Or.inr ⟨_, rfl⟩
    · rename_i hno
      exact Or.inl ⟨not_le.mp (not_or.mp hno).2, rfl⟩

theorem vmSetup_cons : vmSetup dataStart brk (vpn :: vpns) free pt =
    vmSetup dataStart brk vpns (vmSetupPage dataStart brk free pt vpn).1
      (vmSetupPage dataStart brk free pt vpn).2 := rfl

theorem vmSetup_of_not_mem (h : vpn ∉ vpns) :
    (vmSetup dataStart brk vpns free pt).2 (vpn - basePage0) = pt (vpn - basePage0) := by
  induction vpns generalizing free pt with
  | nil => rfl
  | cons v vpns ih =>
    rw [List.mem_cons, not_or] at h
    have hne : vpn - basePage0 ≠ v - basePage0 := fun he => h.1 (by omega)
    rw [vmSetup_cons, ih h.2]
    rcases vmSetupPage_cases dataStart brk free pt v with ⟨-, heq⟩ | ⟨prot, heq⟩
    · rw [heq]
      exact Function.update_of_ne hne _ _
    · rw [heq]
      exact Function.update_of_ne hne _ _

/-- A page of the list is as its own turn leaves it. -/
theorem vmSetup_of_mem (hnd : vpns.Nodup) (hv : vpn ∈ vpns) :
    ∃ free' pt', (vmSetup dataStart brk vpns free pt).2 (vpn - basePage0) =
      (vmSetupPage dataStart brk free' pt' vpn).2 (vpn - basePage0) := by
  induction vpns generalizing free pt with
  | nil => cases hv
  | cons v vpns ih =>
    obtain ⟨hnot, hnd⟩ := List.nodup_cons.mp hnd
    rw [vmSetup_cons]
    rcases List.mem_cons.mp hv with rfl | hv
    · exact ⟨_, _, vmSetup_of_not_mem hnot⟩
    · exact ih hnd hv

/-- **`VM_setup`**, with frames of those numbers, gives each page its own. -/
theorem Held.vmSetup (h : Held free pt ∅) (hf : free.Ok) (dataStart brk : ℤ) (hnd : vpns.Nodup)
    (hrange : ∀ v ∈ vpns, baseFrame ≤ v ∧ v < baseFrame + free.size)
    (hfresh : ∀ v ∈ vpns, v ∉ free.used) :
    Held (vmSetup dataStart brk vpns free pt).1 (vmSetup dataStart brk vpns free pt).2 ∅ ∧
      ∃ j, Ran free (Yalnix.vmSetup dataStart brk vpns free pt).1 j := by
  induction vpns generalizing free pt with
  | nil => exact ⟨h, 0, Ran.refl hf⟩
  | cons vpn vpns ih =>
    obtain ⟨hv, hnd⟩ := List.nodup_cons.mp hnd
    obtain ⟨hlo, hhi⟩ := hrange vpn List.mem_cons_self
    have hnew := hfresh vpn List.mem_cons_self
    rw [vmSetup_cons]
    -- the page stays invalid, or gets the frame of its own number
    rcases vmSetupPage_cases dataStart brk free pt vpn with ⟨-, heq⟩ | ⟨prot, heq⟩
    · rw [heq]
      refine ih (h.mono fun i hi => ?_) hf hnd
        (fun v hv => hrange v (List.mem_cons_of_mem _ hv))
        (fun v hv => hfresh v (List.mem_cons_of_mem _ hv))
      rcases eq_or_ne i (vpn - basePage0) with rfl | hne
      · dsimp only at hi
        rw [Function.update_self] at hi
        cases hi
      · exact Function.update_of_ne hne _ _
    · have hgot : FreeFrame.Got free (getFrame free vpn false).1 (getFrame free vpn false).2 := by
        obtain ⟨hgot, heq⟩ := hf.getFrame_fixed (hf.filled_lt hlo hhi hnew) hlo hhi hnew
        rw [heq]
        exact hgot
      have hpfn := (hf.getFrame_fixed (hf.filled_lt hlo hhi hnew) hlo hhi hnew).2
      rw [heq]
      obtain ⟨hheld, j, hran⟩ := ih (h.insert hgot (vpn - basePage0) prot) hgot.ok hnd
        (fun v hv => by
          rw [hgot.size_eq]
          exact hrange v (List.mem_cons_of_mem _ hv))
        (fun w hw => by
          rw [hgot.used_eq, hpfn, Finset.mem_insert, not_or]
          exact ⟨fun he => hv (he ▸ hw), hfresh w (List.mem_cons_of_mem _ hw)⟩)
      exact ⟨hheld, _, hgot.ran.trans hran⟩

/-- The page of the kernel stack is mapped, if not to the frame of its
number then to none. -/
theorem vmSetup_entry (dataStart brk : ℤ) (free : FreeFrame) (pt : ℤ → Pte) (hnd : vpns.Nodup)
    (hv : vpn ∈ vpns) (hstack : basePageKstack ≤ vpn) :
    ∃ pfn prot, (vmSetup dataStart brk vpns free pt).2 (vpn - basePage0) = ⟨true, pfn, prot⟩ ∧
      (pfn = vpn ∨ pfn = errorCode) := by
  obtain ⟨free', pt', hturn⟩ := @vmSetup_of_mem _ dataStart brk vpn free pt vpns hnd hv
  rw [hturn]
  rcases vmSetupPage_cases dataStart brk free' pt' vpn with ⟨hlt, -⟩ | ⟨prot, heq⟩
  · omega
  · rw [heq]
    exact ⟨_, prot, Function.update_self _ _ _, getFrame_fixed_pfn⟩

theorem vmSetup_size : (vmSetup dataStart brk vpns free pt).1.size = free.size := by
  induction vpns generalizing free pt with
  | nil => rfl
  | cons v vpns ih =>
    rw [vmSetup_cons, ih]
    rcases vmSetupPage_cases dataStart brk free pt v with ⟨-, heq⟩ | ⟨prot, heq⟩
    · rw [heq]
    · rw [heq]
      exact getFrame_size

end VmSetup

/-! ## Init and idle -/

section Boot

variable [DecidableEq Node] [DecidableEq Addr] {b : Boot Node Addr} {k k' : Kernel Node Addr}
  {n : Node} {c : Proc Node Addr}

/-- **The machine has the frames `KernelStart` asks for**: all of region 0,
and idle's page and kernel stack once init is loaded. -/
structure BootFits (b : Boot Node Addr) : Prop where
  region0 : limPage0 ≤ baseFrame + b.pmemSize / pageSize
  idle : ∀ k, initLoad b = some k → 1 + numKstackPages ≤ framesLeft k.mem.frames

omit [DecidableEq Node] [DecidableEq Addr] in
/-- **After `VM_setup`** the kernel stack's frames are its own. -/
theorem bootMem_held (h : limPage0 ≤ baseFrame + b.pmemSize / pageSize) :
    (bootMem b).frames.Ok ∧ 0 ≤ (bootMem b).frames.size ∧ (bootMem b).frames.strays = [] ∧
      Held (bootMem b).frames (bootMem b).kernelStack ∅ := by
  have hbase := baseFrame_le
  have hkstack := basePage0_lt
  have hklim := basePageKstack_lt
  have hlim := limPageKstack_eq
  obtain ⟨hok, hused⟩ := newFreeFrame_ok (show 0 ≤ b.pmemSize / pageSize by omega)
  have hsize : (newFreeFrame b.pmemSize).size = b.pmemSize / pageSize := rfl
  have hblank : Held (newFreeFrame b.pmemSize) (fun _ : ℤ => invalidPte) ∅ :=
    Held.of_invalid (fun _ => rfl) fun x hx => absurd hx (Set.notMem_empty x)
  obtain ⟨hheld, j, hran⟩ := hblank.vmSetup hok b.kernelDataStart b.brk
    (show (pages basePage0 limPage0).Nodup from nodup_pages)
    (fun v hv => by rw [mem_pages] at hv; rw [hsize]; omega)
    (fun v _ => by rw [hused]; exact Finset.notMem_empty v)
  refine ⟨hran.ok, ?_, hran.strays_eq, ?_⟩
  · show 0 ≤ (vmSetup b.kernelDataStart b.brk (pages basePage0 limPage0)
      (newFreeFrame b.pmemSize) fun _ => invalidPte).1.size
    rw [hran.size_eq, hsize]
    omega
  · -- the stack's entries are some of region 0's
    obtain ⟨pt, hpt⟩ : ∃ pt, pt = (vmSetup b.kernelDataStart b.brk (pages basePage0 limPage0)
      (newFreeFrame b.pmemSize) fun _ => invalidPte).2 := ⟨_, rfl⟩
    rw [← hpt] at hheld
    have hentry : ∀ i, (kstackOf pt i).valid = true →
        kstackOf pt i = pt (basePageKstack + i - basePage0) := by
      intro i hi
      unfold kstackOf at hi ⊢
      split at hi
      · rename_i hin
        rw [if_pos hin]
      · cases hi
    have hstack : (bootMem b).kernelStack = kstackOf pt := by rw [hpt]; rfl
    rw [hstack]
    refine ⟨fun i hi => ?_, fun _ _ => Set.notMem_empty _, fun i i' hi hi' he => ?_,
      fun x hx => absurd hx (Set.notMem_empty x)⟩
    · have heq := hentry i hi
      rw [heq] at hi ⊢
      exact hheld.used _ hi
    · have heq := hentry i hi
      have heq' := hentry i' hi'
      rw [heq] at hi he
      rw [heq'] at hi' he
      have := hheld.inj _ _ hi hi' he
      omega

/-- **After `init_load`** every frame of init is its own. -/
theorem initLoad_owned (h : limPage0 ≤ baseFrame + b.pmemSize / pageSize)
    (henv : ∀ li, b.env.info = some li → li.WellFormed) (hk : initLoad b = some k) : k.Owned := by
  obtain ⟨hok, hsize, hstrays, hheld⟩ := bootMem_held h
  obtain ⟨r, hr, -, hmem, -, hproc⟩ := initLoad_eq hk
  obtain ⟨c₀, hc₀⟩ : ∃ c₀ : Proc Node Addr, c₀ = { processInit b.initData b.initPid 0 with
    uc := b.uc
    kstack := (bootMem b).kernelStack } := ⟨_, rfl⟩
  -- the kernel before the load: one PCB, its user table empty, its stack in use
  obtain ⟨k₀, hk₀⟩ : ∃ k₀ : Kernel Node Addr, k₀ = { k with
    mem := bootMem b
    proc := Function.update (fun _ => none) b.initNode (some c₀) } := ⟨_, rfl⟩
  have hinit : k₀.proc b.initNode = some c₀ := by
    rw [hk₀]
    show Function.update (fun _ => none) b.initNode (some c₀) b.initNode = _
    rw [Function.update_self]
  have hother : ∀ m, m ≠ b.initNode → k₀.proc m = none := by
    intro m hm
    rw [hk₀]
    show Function.update (fun _ => none) b.initNode (some c₀) m = _
    rw [Function.update_of_ne hm]
  have hstack : ∀ e, (k₀.pte e).valid = true →
      ∃ i, e = Slot.kstack b.initNode i ∧ k₀.pte e = (bootMem b).kernelStack i := by
    intro e he
    cases e with
    | user m i =>
      rcases eq_or_ne m b.initNode with rfl | hm
      · simp [Kernel.pte, hinit, hc₀, processInit, newUserPt, invalidPte] at he
      · simp [Kernel.pte, hother m hm, invalidPte] at he
    | kstack m i =>
      rcases eq_or_ne m b.initNode with rfl | hm
      · exact ⟨i, rfl, by simp [Kernel.pte, hinit, hc₀]⟩
      · simp [Kernel.pte, hother m hm, invalidPte] at he
  have hmem₀ : k₀.mem = bootMem b := by rw [hk₀]
  have howned : k₀.Owned := by
    refine ⟨hmem₀ ▸ hok, hmem₀ ▸ hsize, ⟨fun e he => ?_, fun _ _ => Set.notMem_empty _,
      fun e e' he he' heq => ?_, fun x hx => absurd hx (Set.notMem_empty x)⟩, hmem₀ ▸ hstrays⟩
    · obtain ⟨i, -, hi⟩ := hstack e he
      rw [hi] at he ⊢
      rw [hmem₀]
      exact hheld.used i he
    · obtain ⟨i, rfl, hi⟩ := hstack e he
      obtain ⟨i', rfl, hi'⟩ := hstack e' he'
      rw [hi] at he heq
      rw [hi'] at he' heq
      rw [hheld.inj i i' he he' heq]
  have hload : loadProgram k₀.mem c₀.userpt c₀.uc b.cmdArgs b.env = r := by
    rw [hmem₀, hc₀]
    exact hr
  refine (howned.loaded hinit henv hload).of_eq ?_ (by rw [hmem]; rfl)
  rw [hproc]
  show _ = Function.update k₀.proc b.initNode (some (loadedProc c₀ r))
  rw [hk₀, Function.update_idem, hc₀]
  rfl

omit [DecidableEq Addr] in
/-- What the slots are after `idle_setup`. -/
theorem idleSetup_pte [DecidableEq Addr] (b : Boot Node Addr) (k : Kernel Node Addr) :
    (idleSetup b k).pte = withTables k b.idleNode (idleProc b k).userpt.pt
      (idleProc b k).kstack := by
  have hnew : (idleSetup b k).proc b.idleNode = some (idleProc b k) := by
    rw [idleSetup_eq]
    exact Function.update_self _ _ _
  refine pte_of_new hnew fun n hn i => ?_
  have hproc : (idleSetup b k).proc n = k.proc n := by
    rw [idleSetup_eq]
    exact Function.update_of_ne hn _ _
  exact ⟨by simp only [Kernel.pte, hproc], by simp only [Kernel.pte, hproc]⟩

/-- **After `idle_setup`**, with frames for it, so is every frame of idle. -/
theorem idleSetup_owned (h : k.Owned) (hleft : 1 + numKstackPages ≤ framesLeft k.mem.frames) :
    (idleSetup b k).Owned := by
  have hk := numKstackPages_pos
  unfold framesLeft at hleft
  have hgot : FreeFrame.Got k.mem.frames (getFrame k.mem.frames 0 true).1
      (getFrame k.mem.frames 0 true).2 := h.ok.getFrame_auto (by omega)
  have huser : ∀ others : Set ℤ, (∀ x ∈ others, x ∈ k.mem.frames.used) →
      Held (getFrame k.mem.frames 0 true).1 (idleProc b k).userpt.pt others :=
    fun others ho => (Held.of_invalid (fun _ => rfl) ho).insert hgot _ _
  obtain ⟨mem, hmem⟩ : ∃ mem, mem = { k.mem with frames := (getFrame k.mem.frames 0 true).1 } :=
    ⟨_, rfl⟩
  have hnone : ∀ others : Set ℤ, (∀ x ∈ others, x ∈ mem.frames.used) →
      Held mem.frames (fun _ : ℤ => invalidPte) others :=
    fun _ ho => Held.of_invalid (fun _ => rfl) ho
  -- the stack's frames are taken after the user table's
  have hstack := fun others ho => (hnone others ho).kcCopy (by rw [hmem]; exact hgot.ok) (by
    rw [hmem]
    show numKstackPages ≤
      (getFrame k.mem.frames 0 true).1.size - (getFrame k.mem.frames 0 true).1.filled
    rw [hgot.size_eq, hgot.filled_eq]
    omega)
  have hran' := (hstack ∅ fun x hx => absurd hx (Set.notMem_empty x)).2
  have hframes : (idleSetup b k).mem.frames = (kcCopy mem fun _ => invalidPte).1.frames := by
    rw [idleSetup_eq, hmem]
    rfl
  refine h.withTables huser hgot.ran ?_ (j := numKstackPages) ?_ (idleSetup_pte b k)
  · intro others ho
    rw [hframes]
    have hkstack : (idleProc b k).kstack = (kcCopy mem fun _ => invalidPte).2 := by
      rw [hmem]
      rfl
    rw [hkstack]
    exact (hstack others (by rw [hmem]; exact ho)).1
  · rw [hframes]
    rw [hmem] at hran' ⊢
    exact hran'

/-- **And without frames for it** its kernel stack ends in an entry that
names no frame. -/
theorem not_exclusive_idleSetup (h : k.Owned)
    (hleft : framesLeft k.mem.frames < 1 + numKstackPages) : ¬ (idleSetup b k).Exclusive := by
  have hk := numKstackPages_pos
  have hfull := h.ok.filled_le h.size_nonneg
  have hasked := asked_getFrame h.ok hfull
  obtain ⟨mem, hmem⟩ : ∃ mem, mem = { k.mem with frames := (getFrame k.mem.frames 0 true).1 } :=
    ⟨_, rfl⟩
  have hlast : (idleProc b k).kstack (numKstackPages - 1) =
      ⟨true, errorCode, protRead ||| protWrite⟩ := by
    have hsize := hasked.size_eq
    have hfilled := hasked.filled_eq
    have hframes : mem.frames = (getFrame k.mem.frames 0 true).1 := by rw [hmem]
    unfold framesLeft at hleft
    have hrun : (kcCopy mem fun _ => invalidPte).2 (numKstackPages - 1) =
        ⟨true, errorCode, protRead ||| protWrite⟩ := by
      refine kcCopy_last (hframes ▸ hasked.ok) ?_ ?_
      · rw [hframes]
        omega
      · unfold framesLeft
        rw [hframes]
        omega
    rw [← hrun, hmem]
    rfl
  have hpte : (idleSetup b k).pte (Slot.kstack b.idleNode (numKstackPages - 1)) =
      ⟨true, errorCode, protRead ||| protWrite⟩ := by
    rw [idleSetup_pte, ← hlast]
    exact if_pos rfl
  exact not_exclusive_of_error (Slot.kstack b.idleNode (numKstackPages - 1)) hpte

/-- **A machine too small for region 0** starts with the kernel stack in a
frame it has not got. -/
theorem not_exclusive_region0 (hb : kernelStart b = some k)
    (hsmall : baseFrame + b.pmemSize / pageSize < limPage0) : ¬ k.Exclusive := by
  have hlim := limPageKstack_eq
  have hklt := basePageKstack_lt
  have hlt := basePage0_lt
  unfold kernelStart at hb
  split at hb
  · cases hb
  · rename_i hne
    obtain ⟨k₁, hk₁, rfl⟩ := Option.map_eq_some_iff.mp hb
    obtain ⟨r, hr, hcode, hmem, -, hproc⟩ := initLoad_eq hk₁
    have hinit : (idleSetup b k₁).proc b.initNode = k₁.proc b.initNode := by
      rw [idleSetup_eq]
      exact Function.update_of_ne (not_or.mp hne).1 _ _
    have hsize : (idleSetup b k₁).mem.frames.size = b.pmemSize / pageSize := by
      rw [idleSetup_eq]
      show (copyKstack (pages 0 numKstackPages) _ _).1.frames.size = _
      rw [copyKstack_size]
      show (getFrame k₁.mem.frames 0 true).1.size = _
      rw [getFrame_size, hmem, loadProgram_size hr]
      exact vmSetup_size
    -- region 0 ends beyond the last frame, and its last page is the kernel stack's
    obtain ⟨pfn, prot, hentry, hpfn⟩ := vmSetup_entry b.kernelDataStart b.brk
      (newFreeFrame b.pmemSize) (fun _ => invalidPte)
      (show (pages basePage0 limPage0).Nodup from nodup_pages)
      (mem_pages.mpr (show basePage0 ≤ limPage0 - 1 ∧ limPage0 - 1 < limPage0 by omega)) (by omega)
    have hpte : (idleSetup b k₁).pte (Slot.kstack b.initNode (numKstackPages - 1)) =
        ⟨true, pfn, prot⟩ := by
      have hin : 0 ≤ numKstackPages - 1 ∧ numKstackPages - 1 < numKstackPages := by
        have := numKstackPages_pos
        omega
      have hidx : basePageKstack + (numKstackPages - 1) - basePage0 = limPage0 - 1 - basePage0 := by
        unfold numKstackPages
        omega
      simp only [Kernel.pte, hinit, hproc, Function.update_self, Option.map_some, Option.getD_some]
      show kstackOf _ (numKstackPages - 1) = _
      rw [kstackOf, if_pos hin, hidx]
      exact hentry
    rcases hpfn with rfl | rfl
    · intro hex
      have hused := (hex.used (Slot.kstack b.initNode (numKstackPages - 1)) (by rw [hpte])).2.1
      rw [hpte, hsize] at hused
      dsimp only at hused
      omega
    · exact not_exclusive_of_error _ hpte

end Boot

/-! ## Every run -/

section Runs

variable [DecidableEq Node] [DecidableEq Addr] {b : Boot Node Addr} {s : Kernel Node Addr}

/-- Booting keeps the law exactly where the machine has the frames. -/
theorem kernelStart_owned (henv : ∀ li, b.env.info = some li → li.WellFormed)
    (hb : kernelStart b = some s) (hfits : BootFits b) : s.Owned := by
  unfold kernelStart at hb
  split at hb
  · cases hb
  · obtain ⟨k, hk, rfl⟩ := Option.map_eq_some_iff.mp hb
    exact idleSetup_owned (initLoad_owned hfits.region0 henv hk) (hfits.idle k hk)

theorem not_exclusive_kernelStart (henv : ∀ li, b.env.info = some li → li.WellFormed)
    (hb : kernelStart b = some s) (hfits : ¬ BootFits b) : ¬ s.Exclusive := by
  by_cases hsmall : baseFrame + b.pmemSize / pageSize < limPage0
  · exact not_exclusive_region0 hb hsmall
  · unfold kernelStart at hb
    split at hb
    · cases hb
    · obtain ⟨k, hk, rfl⟩ := Option.map_eq_some_iff.mp hb
      refine not_exclusive_idleSetup (initLoad_owned (not_lt.mp hsmall) henv hk) ?_
      by_contra hleft
      refine hfits ⟨not_lt.mp hsmall, fun k' hk' => ?_⟩
      obtain rfl := Option.some.inj (hk.symm.trans hk')
      exact not_lt.mp hleft

/-- **Frame exclusivity holds throughout a run exactly when** the machine
had the frames to boot and every `Fork` that passes its check has those it
needs. -/
theorem throughout_exclusive_iff {es : List (Node × ProcAct Node Addr)}
    (hb : kernelStart b = some s) (henv : ∀ li, b.env.info = some li → li.WellFormed)
    (hes : ∀ e ∈ es, e.2.InDomain) :
    Run.Throughout Kernel.step Kernel.Exclusive s es ↔
      BootFits b ∧ Run.Along Kernel.step ForkFits s es := by
  by_cases hfits : BootFits b
  · have hrun : Run.Throughout Kernel.step Kernel.Exclusive s es ↔
        Run.Along Kernel.step ForkFits s es := Run.throughout_iff_along_of_break
      (D := fun e => e.2.InDomain) (I := fun k => k.Owned ∧ k.Imaged)
      (fun k e k' hk he hok ht => ⟨owned_step hk.1 hk.2 he hok ht, imaged_step hk.2 he ht⟩)
      (fun k hk => hk.1.exclusive)
      (fun k e k' hk _ hbad ht => not_exclusive_step hk.1 hbad ht) hes
      ⟨kernelStart_owned henv hb hfits, kernelStart_imaged hb henv⟩
    rw [hrun]
    exact ⟨fun h => ⟨hfits, h⟩, fun h => h.2⟩
  · constructor
    · exact fun h => absurd h.start (not_exclusive_kernelStart henv hb hfits)
    · exact fun h => absurd h.1 hfits

omit [Paging] in
/-- The small machine has the frames it needs to boot. -/
theorem bootFits_smallBoot :
    let _ := yalnixPaging
    BootFits (smallBoot 140) := by
  let _ := yalnixPaging
  have hload : (initLoad (smallBoot 140)).map (fun k => decide
      (1 + numKstackPages ≤ framesLeft k.mem.frames)) = some true := by
    decide +kernel
  refine ⟨by decide, fun k hk => ?_⟩
  rw [hk] at hload
  simpa using hload

omit [Paging] in
/-- Init forks on a machine with frames to spare. -/
theorem throughout_exclusive_iff_forked :
    let _ := yalnixPaging
    ∃ k k', kernelStart (smallBoot 140) = some k ∧ k.step (0, .fork 2 2 2) = some k' ∧
      Run.Throughout Kernel.step Kernel.Exclusive k [(0, .fork 2 2 2)] := by
  let _ := yalnixPaging
  have hrun : ((kernelStart (smallBoot 140)).bind fun k =>
      (Kernel.step k (0, .fork 2 2 2)).bind fun _ => (k.proc 0).map fun c =>
        decide (c.userpt.count + numKstackPages ≤ framesLeft k.mem.frames)) = some true := by
    decide +kernel
  obtain ⟨k, hk, hrun⟩ := Option.bind_eq_some_iff.mp hrun
  obtain ⟨k', hk', hrun⟩ := Option.bind_eq_some_iff.mp hrun
  obtain ⟨c, hc, hfits⟩ := Option.map_eq_some_iff.mp hrun
  have hes : ∀ e ∈ [((0 : ℕ), (.fork 2 2 2 : ProcAct ℕ ℕ))], e.2.InDomain := by
    simp [ProcAct.InDomain]
  refine ⟨k, k', hk, hk', (throughout_exclusive_iff hk onePage_wellFormed hes).mpr
    ⟨bootFits_smallBoot, ?_⟩⟩
  rw [Run.along_cons hk']
  refine ⟨fun c' hc' _ => ?_, trivial⟩
  obtain rfl := Option.some.inj (hc.symm.trans hc')
  exact of_decide_eq_true hfits

omit [Paging] in
/-- **The law fails when a forked process forks**: init has 39 pages, its
child has a copy of them and a count of none, and its own `Fork` passes the
check with 39 frames left. They all go to the pages of the new process, and
its kernel stack gets none. -/
theorem not_throughout_exclusive : ¬ ∀ (_ : Paging) (b : Boot ℕ ℕ) (s : Kernel ℕ ℕ)
    (es : List (ℕ × ProcAct ℕ ℕ)), kernelStart b = some s →
    (∀ li, b.env.info = some li → li.WellFormed) → (∀ e ∈ es, e.2.InDomain) →
    Run.Throughout Kernel.step Kernel.Exclusive s es := by
  intro h
  let _ := yalnixPaging
  have hrun : ((kernelStart (smallBoot 128)).bind fun k =>
      (Run.exec Kernel.step k [(0, .brk 0x14c000), (0, .fork 2 2 2), (2, .fork 3 3 3)]).map
        fun k' => ((k'.pte (Slot.kstack 3 1)).valid, (k'.pte (Slot.kstack 3 1)).pfn)) =
      some (true, errorCode) := by
    decide +kernel
  obtain ⟨k, hk, hrun⟩ := Option.bind_eq_some_iff.mp hrun
  obtain ⟨k', hk', hpte⟩ := Option.map_eq_some_iff.mp hrun
  obtain ⟨hvalid, hpfn⟩ := Prod.mk.inj hpte
  have hall := h yalnixPaging (smallBoot 128) k
    [(0, .brk 0x14c000), (0, .fork 2 2 2), (2, .fork 3 3 3)] hk onePage_wellFormed
    (by simp [ProcAct.InDomain])
  have hbase := ((hall.final hk').used (Slot.kstack 3 1) hvalid).1
  rw [hpfn] at hbase
  exact absurd hbase (by decide)

end Runs

end Yalnix
