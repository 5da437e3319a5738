import Yalnix.Memory.Image
import Yalnix.Process.Boot
import Yalnix.Process.Steps
/-!
# The image of every process, in every run

Every process that may run has the layout of `Memory.Image`, and what its
page count is worth is known: it is exact for a process that was loaded, and
too small for one whose memory came by `Fork`, since `copy_user_mem` leaves
the count of the copy at zero. `size_eq_count_iff` says so of every run.
-/

namespace Yalnix

variable {Node Addr : Type} [Paging]

open Paging

/-- **What is known of an image**: its layout, and how its count compares
with the number of its pages. -/
def Imaged (u : UserPt) (inherited : Bool) : Prop :=
  (∃ d b s, Layout u d b s) ∧ if inherited then u.size < u.count else u.size = u.count

/-- An operation that changes the count by as much as the number of pages. -/
theorem Imaged.shift {u u' : UserPt} {inherited : Bool} {j : ℤ} (h : Imaged u inherited)
    (hlayout : ∃ d b s, Layout u' d b s) (hsize : u'.size = u.size + j)
    (hcount : (u'.count : ℤ) = u.count + j) : Imaged u' inherited := by
  refine ⟨hlayout, ?_⟩
  have hcmp := h.2
  cases inherited with
  | true =>
    rw [if_pos rfl] at hcmp ⊢
    omega
  | false =>
    rw [if_neg Bool.false_ne_true] at hcmp ⊢
    omega

/-- **Every process that lives, idle apart, has an image.** Idle has one page
and runs no program. -/
def Kernel.Imaged (k : Kernel Node Addr) : Prop :=
  ∀ n c, k.proc n = some c → c.kin.isSome → n ≠ k.procs.idleNode → Yalnix.Imaged c.userpt c.inherited

/-- What leaves a process alone leaves its image alone. -/
theorem Leaves.imaged {k k' : Kernel Node Addr} {S : Set Node} (h : Leaves k k' S)
    (hk : k.Imaged)
    (hS : ∀ n ∈ S, ∀ c', k'.proc n = some c' → c'.kin.isSome → Imaged c'.userpt c'.inherited) :
    k'.Imaged := by
  intro n c' hc' halive hidle
  by_cases hn : n ∈ S
  · exact hS n hn c' hc' halive
  · obtain ⟨c, hc, hsame⟩ := h.keeps n hn c' hc'
    rw [hsame.userpt, hsame.inherited]
    rw [hsame.alive] at halive
    rw [h.idleNode] at hidle
    exact hk n c hc halive hidle

section Step

variable [DecidableEq Node] [DecidableEq Addr] {k k' : Kernel Node Addr} {p : Node}
  {c : Proc Node Addr} {d b s : ℤ}

/-- The kernel with another page table for a process, and the allocator as
it then is. -/
def Kernel.setUser (k : Kernel Node Addr) (n : Node) (c : Proc Node Addr) (r : FreeFrame × UserPt) :
    Kernel Node Addr :=
  k.set n { c with userpt := r.2 } { k.mem with frames := r.1 }

omit [DecidableEq Node] [DecidableEq Addr] in
/-- Where a new break lands: on a page from the end of the data to below the
page under the stack, past the test of `KernelUserBrk`. -/
theorem Layout.brk_range {u : UserPt} (hl : Layout u d b s) (addr : ℤ) :
    ∃ b', upToPage addr = (basePage1 + b') * pageSize ∧
      (¬ (downToPage u.stackLow - pageSize ≤ addr ∨ addr < upToPage u.dataEnd) →
        d ≤ b' ∧ b' < s) := by
  refine ⟨(addr + pageSize - 1) / pageSize - basePage1, ?_, fun hrange => ?_⟩
  · rw [upToPage]
    congr 1
    omega
  · rw [hl.stackLow_eq, hl.dataEnd_eq, upToPage_mul, downToPage_mul, not_or, not_le,
      not_lt] at hrange
    have hmul : (basePage1 + s) * pageSize - pageSize = (basePage1 + s - 1) * pageSize := by
      rw [Int.sub_mul, Int.one_mul]
    have hlo := (Int.le_ediv_iff_mul_le pageSize_pos).mpr
      (show (basePage1 + d) * pageSize ≤ addr + pageSize - 1 by have := pageSize_pos; omega)
    have hhi := (ediv_up_le_iff addr (basePage1 + s - 1)).mpr (by omega)
    omega

omit [DecidableEq Node] [DecidableEq Addr] in
/-- Where a fault lands: on a page above the one over the break and not
above the stack's lowest, past the test of `TrapMemory`. -/
theorem Layout.fault_range {u : UserPt} (hl : Layout u d b s) (addr : ℤ) :
    ∃ s', downToPage addr / pageSize = basePage1 + s' ∧
      (upToPage u.brk + pageSize ≤ addr ∧ addr ≤ downToPage u.stackLow → b < s' ∧ s' ≤ s) := by
  refine ⟨addr / pageSize - basePage1, ?_, fun hrange => ?_⟩
  · rw [downToPage, mul_pageSize_ediv]
    omega
  · rw [hl.brk_eq, hl.stackLow_eq, upToPage_mul, downToPage_mul] at hrange
    have hmul : (basePage1 + b) * pageSize + pageSize = (basePage1 + b + 1) * pageSize := by
      rw [Int.add_mul _ 1, Int.one_mul]
    have hlo := (le_ediv_iff addr (basePage1 + b + 1)).mpr (by omega)
    have hhi : addr / pageSize < basePage1 + s + 1 := by
      refine (Int.ediv_lt_iff_lt_mul pageSize_pos).mpr ?_
      have := pageSize_pos
      rw [Int.add_mul _ 1, Int.one_mul]
      omega
    omega

omit [DecidableEq Addr] in
/-- **`KernelUserBrk`, by page indices**: `b'` is the page the new break
lands on. -/
theorem kernelUserBrk_eq (hc : k.curr = some c) (hl : Layout c.userpt d b s) (addr : ℤ) :
    ∃ b', upToPage addr = (basePage1 + b') * pageSize ∧
      (¬ (downToPage c.userpt.stackLow - pageSize ≤ addr ∨ addr < upToPage c.userpt.dataEnd) →
        d ≤ b' ∧ b' < s) ∧
      kernelUserBrk k addr = some (
        if downToPage c.userpt.stackLow - pageSize ≤ addr ∨ addr < upToPage c.userpt.dataEnd then
          (k, errorCode)
        else if b < b' then
          if framesLeft k.mem.frames < b' - b then (k, errorCode)
          else (k.setUser k.procs.running c (growHeap k.mem.frames c.userpt b b'), successCode)
        else (k.setUser k.procs.running c (shrinkHeap k.mem.frames c.userpt b b'), successCode)) := by
  obtain ⟨b', hup, hrange⟩ := hl.brk_range addr
  refine ⟨b', hup, hrange, ?_⟩
  -- the page numbers that the code computes from the two addresses
  have hvpn : ∀ j : ℤ, (basePage1 + j) * pageSize / pageSize - 1 + 1 - basePage1 = j := by
    intro j
    rw [mul_pageSize_ediv]
    omega
  have hsub : ∀ i j : ℤ, (basePage1 + j) * pageSize / pageSize - 1 -
      ((basePage1 + i) * pageSize / pageSize - 1) = j - i := by
    intro i j
    rw [mul_pageSize_ediv, mul_pageSize_ediv]
    omega
  have hlt : (basePage1 + b) * pageSize / pageSize - 1 < (basePage1 + b') * pageSize / pageSize - 1 ↔
      b < b' := by
    rw [mul_pageSize_ediv, mul_pageSize_ediv]
    omega
  unfold kernelUserBrk
  rw [hc]
  dsimp only
  rw [hl.brk_eq, hup, upToPage_mul, hvpn, hvpn, hsub, hsub, modify_eq_set hc, modify_eq_set hc]
  split
  · rfl
  · by_cases hgrow : b < b'
    · rw [if_pos (hlt.mpr hgrow), if_pos hgrow]
      split <;> rfl
    · rw [if_neg fun h => hgrow (hlt.mp h), if_neg hgrow]
      rfl

omit [DecidableEq Addr] in
/-- **`KernelUserBrk`** refuses, or moves the break to a page from the end of
the data to below the page under the stack. -/
theorem kernelUserBrk_cases {addr : ℤ} {r : Kernel Node Addr × ℤ} (hc : k.curr = some c)
    (hl : Layout c.userpt d b s) (h : kernelUserBrk k addr = some r) :
    r.1 = k ∨ ∃ b', upToPage addr = (basePage1 + b') * pageSize ∧
      (basePage1 + d) * pageSize ≤ addr ∧ ((b < b' ∧ b' < s ∧ b' - b ≤ framesLeft k.mem.frames ∧
        r.1 = k.setUser k.procs.running c (growHeap k.mem.frames c.userpt b b')) ∨
      (d ≤ b' ∧ b' ≤ b ∧
        r.1 = k.setUser k.procs.running c (shrinkHeap k.mem.frames c.userpt b b'))) := by
  obtain ⟨b', hup, hrange, heq⟩ := kernelUserBrk_eq hc hl addr
  obtain rfl := Option.some.inj (heq.symm.trans h)
  split
  · exact Or.inl rfl
  · rename_i hok
    obtain ⟨hlo, hhi⟩ := hrange hok
    have hdata : (basePage1 + d) * pageSize ≤ addr := by
      rw [not_or, hl.dataEnd_eq, upToPage_mul, not_lt] at hok
      exact hok.2
    split
    · rename_i hgrow
      split
      · exact Or.inl rfl
      · rename_i hleft
        exact Or.inr ⟨b', hup, hdata, Or.inl ⟨hgrow, hhi, not_lt.mp hleft, rfl⟩⟩
    · rename_i hshrink
      exact Or.inr ⟨b', hup, hdata, Or.inr ⟨hlo, not_lt.mp hshrink, rfl⟩⟩

/-- **`TrapMemory`, by page indices**: `s'` is the page of the address. -/
theorem trapMemory_eq (hc : k.curr = some c) (hl : Layout c.userpt d b s) (addr : ℤ) :
    ∃ s', downToPage addr / pageSize = basePage1 + s' ∧
      (upToPage c.userpt.brk + pageSize ≤ addr ∧ addr ≤ downToPage c.userpt.stackLow →
        b < s' ∧ s' ≤ s) ∧
      trapMemory k addr =
        if upToPage c.userpt.brk + pageSize ≤ addr ∧ addr ≤ downToPage c.userpt.stackLow then
          if framesLeft k.mem.frames < s - s' then kernelExit k errorCode
          else some (k.setUser k.procs.running c (growStack k.mem.frames c.userpt s s'))
        else kernelExit k errorCode := by
  obtain ⟨s', hdown, hrange⟩ := hl.fault_range addr
  refine ⟨s', hdown, hrange, ?_⟩
  -- the page numbers that the code computes from the two addresses
  have hsub : ∀ j : ℤ, basePage1 + j - basePage1 = j := fun j => by omega
  have hdiff : basePage1 + s - (basePage1 + s') = s - s' := by omega
  have hpage : downToPage c.userpt.stackLow / pageSize = basePage1 + s := by
    rw [hl.stackLow_eq, downToPage_mul, mul_pageSize_ediv]
  unfold trapMemory
  rw [hc]
  dsimp only
  rw [hpage, hdown, hsub, hsub, hdiff, modify_eq_set hc]
  rfl

/-- **`TrapMemory`** ends the process, or moves the stack down to a page
above the one over the break. -/
theorem trapMemory_cases {addr : ℤ} (hc : k.curr = some c) (hl : Layout c.userpt d b s)
    (h : trapMemory k addr = some k') :
    kernelExit k errorCode = some k' ∨
    ∃ s', b < s' ∧ s' ≤ s ∧ s - s' ≤ framesLeft k.mem.frames ∧
      k' = k.setUser k.procs.running c (growStack k.mem.frames c.userpt s s') := by
  obtain ⟨s', -, hrange, heq⟩ := trapMemory_eq hc hl addr
  rw [heq] at h
  split at h
  · rename_i hok
    obtain ⟨hlo, hhi⟩ := hrange hok
    split at h
    · exact Or.inl h
    · rename_i hleft
      exact Or.inr ⟨s', hlo, hhi, not_lt.mp hleft, (Option.some.inj h).symm⟩
  · exact Or.inl h

omit [DecidableEq Addr] in
/-- A call that gives its process another page table. -/
theorem imaged_setUser {r : FreeFrame × UserPt} (hk : k.Imaged)
    (hr : Imaged r.2 c.inherited) : (k.setUser p c r).Imaged := by
  refine (leaves_set _ _).imaged hk fun n hn c' hc' _ => ?_
  rw [Set.mem_singleton_iff.mp hn] at hc'
  obtain rfl := Option.some.inj ((set_self _ _).symm.trans hc')
  exact hr

theorem imaged_kernelExit {status : ℤ} (hk : k.Imaged) (h : kernelExit k status = some k') :
    k'.Imaged := by
  obtain ⟨hleaves, hdead⟩ := kernelExit_leaves h
  refine hleaves.imaged hk fun n hn c' hc' halive => ?_
  rw [Set.mem_singleton_iff.mp hn] at hc'
  rw [hdead c' hc'] at halive
  cases halive

/-- **`Fork`** gives the child the layout of the parent, and no count. -/
theorem imaged_forked {child : Node} {data : Addr} {pid : ℤ} (hk : k.Imaged)
    (hc : k.curr = some c) (hi : Imaged c.userpt c.inherited) (hchild : k.proc child = none) :
    (forked k c child data pid).Imaged := by
  have hne : k.procs.running ≠ child := by
    rintro rfl
    rw [Kernel.curr, hchild] at hc
    cases hc
  intro n c' hc' halive hidle
  unfold forked at hc'
  dsimp only at hc'
  rcases eq_or_ne n child with rfl | hn
  · -- the child: its count is what `new_user_pt` set
    rw [Function.update_self] at hc'
    obtain rfl := Option.some.inj hc'
    obtain ⟨⟨d, b, s, hl⟩, -⟩ := hi
    refine ⟨⟨d, b, s, hl.copy _⟩, ?_⟩
    have hcount := hl.count_copy k.mem
    have hpos := hl.count_pos
    have hsize : (copyUserMem k.mem c.userpt newUserPt).2.size = 0 := rfl
    show (copyUserMem k.mem c.userpt newUserPt).2.size
      < ((copyUserMem k.mem c.userpt newUserPt).2.count : ℤ)
    rw [hcount, hsize]
    omega
  · rw [Function.update_of_ne hn] at hc'
    rcases eq_or_ne n k.procs.running with rfl | hn'
    · rw [Function.update_self] at hc'
      obtain rfl := Option.some.inj hc'
      exact hi
    · rw [Function.update_of_ne hn'] at hc'
      exact hk n c' hc' halive hidle

omit [DecidableEq Node] [DecidableEq Addr] in
/-- **`LoadProgram` that succeeds** has mapped the segments of the
executable, in a page table that was empty. -/
theorem loadProgram_mapped {mem : Memory} {u : UserPt} {uc : UserContext}
    {args : List (List Byte)} {env : LoadEnv} {r : Loaded × LoadCode}
    (hout : ∀ i, i < 0 ∨ numPages1 ≤ i → (u.pt i).valid = false)
    (h : loadProgram mem u uc args env = r) (hr : r.2 = .success) :
    ∃ li free pt, env.info = some li ∧ stackNpg args + li.dataPg1 + li.dataNpg < maxPtLen ∧
      (∀ i, (pt i).valid = false) ∧ Mapped free pt li args r.1 := by
  subst h
  obtain ⟨li, hinfo, hroom, heq⟩ :=
    loadProgram_committed (show (loadProgram mem u uc args env).2 ≠ .error by rw [hr]; simp)
  rw [heq] at hr ⊢
  rcases loadSegments_cases rfl with ⟨hkill, -⟩ | ⟨-, -, hmapped⟩
  · rw [hr] at hkill
    cases hkill
  · exact ⟨li, _, _, hinfo, hroom, destroyUsermem_invalid mem.frames hout, hmapped⟩

omit [DecidableEq Node] [DecidableEq Addr] in
/-- **`LoadProgram`** that succeeds makes the count exact. -/
theorem imaged_loadProgram {mem : Memory} {u : UserPt} {uc : UserContext}
    {args : List (List Byte)} {env : LoadEnv} {r : Loaded × LoadCode}
    (hout : ∀ i, i < 0 ∨ numPages1 ≤ i → (u.pt i).valid = false)
    (henv : ∀ li, env.info = some li → li.WellFormed)
    (h : loadProgram mem u uc args env = r) (hr : r.2 = .success) :
    Imaged r.1.userpt false := by
  obtain ⟨li, free, pt, hinfo, hroom, hnone, hmapped⟩ := loadProgram_mapped hout h hr
  have hwf := henv li hinfo
  exact ⟨⟨_, _, _, hmapped.layout hwf hroom hnone⟩, hmapped.count hwf hroom hnone⟩

omit [DecidableEq Node] [DecidableEq Addr] in
/-- **`Exec`** makes the count exact, or changes nothing. -/
theorem imaged_loadedProc {mem : Memory} {args : List (List Byte)} {env : LoadEnv}
    {r : Loaded × LoadCode} (hi : Imaged c.userpt c.inherited)
    (henv : ∀ li, env.info = some li → li.WellFormed)
    (h : loadProgram mem c.userpt c.uc args env = r) (hr : r.2 ≠ .kill) :
    Imaged (loadedProc c r).userpt (loadedProc c r).inherited := by
  obtain ⟨⟨d, b, s, hl⟩, -⟩ := id hi
  cases hcode : r.2 with
  | success =>
    have hnew := imaged_loadProgram hl.outside henv h hcode
    unfold loadedProc
    dsimp only
    rw [hcode]
    simpa using hnew
  | error =>
    have hsame : r.1.userpt = c.userpt := by
      subst h
      exact (loadProgram_error hcode).2
    unfold loadedProc
    dsimp only
    rw [hsame, hcode]
    simpa using hi
  | kill => exact absurd hcode hr

end Step

/-! ## Runs -/

/-- **What is assumed of the executables a run loads**: that they are linked
for Yalnix. -/
def ProcAct.InDomain : ProcAct Node Addr → Prop
  | .exec _ _ env => ∀ li, env.info = some li → li.WellFormed
  | _ => True

variable [DecidableEq Node] [DecidableEq Addr] {k k' : Kernel Node Addr}

omit [DecidableEq Node] [DecidableEq Addr] in
/-- A process keeps its image where only links and stored bytes change. -/
theorem Leaves.imaged_all (h : Leaves k k' ∅) (hk : k.Imaged) : k'.Imaged :=
  h.imaged hk fun n hn => absurd hn (Set.notMem_empty n)

/-- **What one activation does to the images.** -/
theorem imaged_step {e : Node × ProcAct Node Addr} (hk : k.Imaged) (he : e.2.InDomain)
    (h : k.step e = some k') : k'.Imaged := by
  obtain ⟨p, act⟩ := e
  obtain ⟨c, kin, hp, hkin, hidle, -, -, heff⟩ := step_effect h
  have hk₀ : (switchTo k p c).Imaged := (leaves_switchTo c).imaged_all hk
  have hc : (switchTo k p c).curr = some c := switchTo_curr hp
  have hi : Imaged c.userpt c.inherited := hk p c hp (by rw [hkin]; rfl) hidle
  generalize switchTo k p c = k₀ at heff hk₀ hc
  cases heff with
  | forkRefused => exact hk₀
  | forked child data pid _ hchild _ => exact imaged_forked hk₀ hc hi hchild
  | execRefused => exact hk₀
  | loaded filename argvec env args l hl hcode =>
    refine (leaves_set _ _).imaged hk₀ fun n hn c' hc' _ => ?_
    rw [Set.mem_singleton_iff.mp hn] at hc'
    obtain rfl := Option.some.inj ((set_self _ _).symm.trans hc')
    exact imaged_loadedProc hi he hl hcode
  | killed filename argvec env args l k' hl hcode hexit =>
    -- the caller has lost its image, and is dead at the end
    obtain ⟨hleaves, hdead⟩ := kernelExit_leaves hexit
    refine ((leaves_set _ _).trans hleaves).imaged hk₀ fun n hn c' hc' halive => ?_
    rw [Set.mem_singleton_iff.mp hn] at hc'
    rw [hdead c' hc'] at halive
    cases halive
  | exited status k' hexit => exact imaged_kernelExit hk₀ hexit
  | waitRefused => exact hk₀
  | asleep =>
    intro n c' hc' halive hn
    rw [blockWait_idleNode] at hn
    exact hk₀ n c' hc' halive hn
  | collected act statusPtr child rest childPcb =>
    have hleaves : Leaves k₀ (collected k₀ c kin child rest childPcb statusPtr) ∅ :=
      leaves_collected hc hkin
    exact hleaves.imaged_all hk₀
  | brk addr r hr =>
    obtain ⟨⟨d, b, s, hl⟩, -⟩ := id hi
    rcases kernelUserBrk_cases hc hl hr with
      heq | ⟨b', -, -, ⟨hlo, hhi, -, heq⟩ | ⟨hlo, hhi, heq⟩⟩
    · rw [heq]
      exact hk₀
    · rw [heq]
      exact imaged_setUser hk₀ (hi.shift ⟨d, b', s, hl.growHeap hlo.le hhi _⟩ rfl
        (hl.count_growHeap hlo.le hhi _))
    · rw [heq]
      refine imaged_setUser hk₀ (hi.shift ⟨d, b', s, hl.shrinkHeap hlo hhi _⟩ ?_
        (hl.count_shrinkHeap hlo hhi _))
      exact Int.sub_eq_add_neg
  | fault addr k' hk' =>
    obtain ⟨⟨d, b, s, hl⟩, -⟩ := id hi
    rcases trapMemory_cases hc hl hk' with hexit | ⟨s', hlo, hhi, -, heq⟩
    · exact imaged_kernelExit hk₀ hexit
    · rw [heq]
      exact imaged_setUser hk₀ (hi.shift ⟨d, b, s', hl.growStack hlo hhi _⟩ rfl
        (hl.count_growStack hlo hhi _))
  | stored => exact (Leaves.of_proc_eq rfl rfl rfl rfl rfl).imaged_all hk₀

/-! ## Booting -/

theorem idleSetup_leaves (b : Boot Node Addr) : Leaves k (idleSetup b k) {b.idleNode} := by
  rw [idleSetup_eq]
  refine ⟨rfl, rfl, rfl, rfl, fun n hn c' hc' => ?_⟩
  rw [Set.mem_singleton_iff] at hn
  dsimp only at hc'
  rw [Function.update_of_ne hn] at hc'
  exact ⟨c', hc', Proc.Same.refl c'⟩

/-- **After `KernelStart`** there is init, which was loaded, and idle. -/
theorem kernelStart_init {b : Boot Node Addr} {n : Node} {c : Proc Node Addr}
    (hb : kernelStart b = some k) (hc : k.proc n = some c) (hn : n ≠ k.procs.idleNode) :
    ∃ r, loadProgram (bootMem b) newUserPt b.uc b.cmdArgs b.env = r ∧ r.2 = .success ∧
      n = b.initNode ∧ c.userpt = r.1.userpt ∧ c.inherited = false := by
  unfold kernelStart at hb
  split at hb
  · cases hb
  · obtain ⟨k₁, hk₁, rfl⟩ := Option.map_eq_some_iff.mp hb
    obtain ⟨r, hr, hcode, -, hidle₁, hproc⟩ := initLoad_eq hk₁
    have hleaves := idleSetup_leaves (k := k₁) b
    rw [hleaves.idleNode, hidle₁] at hn
    obtain ⟨c₁, hc₁, hsame⟩ := hleaves.keeps n hn c hc
    rw [hproc] at hc₁
    rcases eq_or_ne n b.initNode with rfl | hninit
    · rw [Function.update_self] at hc₁
      obtain rfl := Option.some.inj hc₁
      exact ⟨r, hr, hcode, rfl, hsame.userpt, hsame.inherited⟩
    · rw [Function.update_of_ne hninit] at hc₁
      cases hc₁

/-- **After `KernelStart` init has an image**, and nobody else has. -/
theorem kernelStart_imaged {b : Boot Node Addr} (hb : kernelStart b = some k)
    (henv : ∀ li, b.env.info = some li → li.WellFormed) : k.Imaged := by
  intro n c hc _ hn
  obtain ⟨r, hr, hcode, -, huser, hinherited⟩ := kernelStart_init hb hc hn
  rw [huser, hinherited]
  exact imaged_loadProgram (fun _ _ => rfl) henv hr hcode

/-- **The page count is exact for the processes that were loaded**, in every
state of every run, and for no others. -/
theorem size_eq_count_iff {b : Boot Node Addr} {es : List (Node × ProcAct Node Addr)} {n : Node}
    {c : Proc Node Addr} (hb : kernelStart b = some k)
    (henv : ∀ li, b.env.info = some li → li.WellFormed) (hes : ∀ e ∈ es, e.2.InDomain)
    (hrun : Run.exec Kernel.step k es = some k') (hc : k'.proc n = some c)
    (halive : c.kin.isSome) (hidle : n ≠ k'.procs.idleNode) :
    c.userpt.size = c.userpt.count ↔ c.inherited = false := by
  have himaged : k'.Imaged := Run.inv_of_exec (D := fun e => e.2.InDomain)
    (fun _ _ _ hk he ht => imaged_step hk he ht) hes (kernelStart_imaged hb henv) hrun
  have hcmp := (himaged n c hc halive hidle).2
  cases hi : c.inherited with
  | true =>
    rw [hi, if_pos rfl] at hcmp
    simp only [reduceCtorEq, iff_false]
    omega
  | false =>
    rw [hi, if_neg Bool.false_ne_true] at hcmp
    simpa using hcmp

omit [Paging] in
/-- Init forks. Its own count is exact, and that of its child is not, which
has inherited its memory. -/
theorem size_eq_count_iff_forked :
    let _ := yalnixPaging
    ∃ k k' c c', kernelStart (smallBoot 140) = some k ∧
      Run.exec Kernel.step k [(0, .fork 2 2 2)] = some k' ∧
      k'.proc 0 = some c ∧ k'.proc 2 = some c' ∧
      c.inherited = false ∧ c.userpt.size = c.userpt.count ∧
      c'.inherited = true ∧ c'.userpt.size ≠ c'.userpt.count := by
  let _ := yalnixPaging
  have hrun : ((kernelStart (smallBoot 140)).bind fun k =>
      (Run.exec Kernel.step k [(0, .fork 2 2 2)]).bind fun k' =>
        (k'.proc 0).bind fun c => (k'.proc 2).map fun c' =>
          (c.kin.isSome, c'.kin.isSome, k'.procs.idleNode, c.inherited, c'.inherited)) =
      some (true, true, 1, false, true) := by
    decide +kernel
  obtain ⟨k, hk, hrun⟩ := Option.bind_eq_some_iff.mp hrun
  obtain ⟨k', hk', hrun⟩ := Option.bind_eq_some_iff.mp hrun
  obtain ⟨c, hc, hrun⟩ := Option.bind_eq_some_iff.mp hrun
  obtain ⟨c', hc', hrun⟩ := Option.map_eq_some_iff.mp hrun
  simp only [Prod.mk.injEq] at hrun
  obtain ⟨halive, halive', hidle, hown, hinherited⟩ := hrun
  have hes : ∀ e ∈ [((0 : ℕ), (.fork 2 2 2 : ProcAct ℕ ℕ))], e.2.InDomain := by
    simp [ProcAct.InDomain]
  have hiff := size_eq_count_iff hk onePage_wellFormed hes hk' hc halive (by rw [hidle]; decide)
  have hiff' := size_eq_count_iff hk onePage_wellFormed hes hk' hc' halive' (by rw [hidle]; decide)
  exact ⟨k, k', c, c', hk, hk', hc, hc', hown, hiff.mpr hown, hinherited,
    hiff'.not.mpr (by rw [hinherited]; decide)⟩

omit [Paging] in
/-- **The count is not exact for a forked process**: the child of init has
two pages and a count of none. -/
theorem not_size_eq_count : ¬ ∀ (_ : Paging) (b : Boot ℕ ℕ) (es : List (ℕ × ProcAct ℕ ℕ))
    (k k' : Kernel ℕ ℕ) (n : ℕ) (c : Proc ℕ ℕ),
    kernelStart b = some k → (∀ li, b.env.info = some li → li.WellFormed) →
    (∀ e ∈ es, e.2.InDomain) → Run.exec Kernel.step k es = some k' → k'.proc n = some c →
    c.kin.isSome → n ≠ k'.procs.idleNode → c.userpt.size = c.userpt.count := by
  intro h
  let _ := yalnixPaging
  have hrun : ((kernelStart (smallBoot 140)).bind fun k =>
      (Run.exec Kernel.step k [(0, .fork 2 2 2)]).bind fun k' =>
        (k'.proc 2).map fun c =>
          (c.kin.isSome, k'.procs.idleNode, c.userpt.size, c.userpt.count)) = some (true, 1, 0, 2) := by
    decide +kernel
  obtain ⟨k, hk, hrun⟩ := Option.bind_eq_some_iff.mp hrun
  obtain ⟨k', hk', hrun⟩ := Option.bind_eq_some_iff.mp hrun
  obtain ⟨c, hc, hrun⟩ := Option.map_eq_some_iff.mp hrun
  simp only [Prod.mk.injEq] at hrun
  obtain ⟨halive, hidle, hsize, hcount⟩ := hrun
  have hes : ∀ e ∈ [((0 : ℕ), (.fork 2 2 2 : ProcAct ℕ ℕ))], e.2.InDomain := by
    simp [ProcAct.InDomain]
  have heq := h yalnixPaging (smallBoot 140) _ k k' 2 c hk onePage_wellFormed hes hk' hc halive
    (by rw [hidle]; decide)
  rw [hsize, hcount] at heq
  exact absurd heq (by decide)

end Yalnix
