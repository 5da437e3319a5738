import Yalnix.Process.Exclusive
import Yalnix.Process.Places
/-!
# Moving the break and the stack

What `KernelUserBrk` and `TrapMemory` do to the image of their process. A
`Brk` that is granted leaves no trace of where the break was before: the
layout, the count and the number of frames left depend on its argument alone.
-/

namespace Yalnix

variable {Node Addr : Type} [Paging]

open Paging

/-! ## The break -/

section Break

variable {free free' free'' : FreeFrame} {u u' u'' : UserPt} {d b b' s : ℤ}

/-- **The break moved from page `b` to page `b'`**, with the pages between
taken from the allocator or given back to it. -/
structure BrkMoved (free free' : FreeFrame) (u u' : UserPt) (d b b' s : ℤ) : Prop where
  layout : Layout u' d b' s
  size_eq : u'.size = u.size + (b' - b)
  left_eq : framesLeft free' = framesLeft free - (b' - b)
  program : ∀ i, i < d → u'.pt i = u.pt i

/-- Growing the heap. -/
theorem brkMoved_growHeap (hl : Layout u d b s) (hb : b ≤ b') (hs : b' < s)
    (hleft : b' - b ≤ framesLeft free) :
    BrkMoved free (growHeap free u b b').1 u (growHeap free u b b').2 d b b' s where
  layout := hl.growHeap hb hs free
  size_eq := rfl
  left_eq := by
    have hlen := length_pages hb
    have hrun := @framesLeft_mapPages _ (protRead ||| protWrite) (pages b b') free u.pt
      (by rw [hlen]; exact hleft)
    rw [hlen] at hrun
    exact hrun
  program i hi := by
    have hd := hl.d_le
    rw [growHeap_pt, mapPages_of_not_mem (by rw [mem_pages]; omega)]

/-- Shrinking it. -/
theorem brkMoved_shrinkHeap (hl : Layout u d b s) (hd : d ≤ b') (hb : b' ≤ b) :
    BrkMoved free (shrinkHeap free u b b').1 u (shrinkHeap free u b b').2 d b b' s where
  layout := hl.shrinkHeap hd hb free
  size_eq := by
    show u.size - (b - b') = u.size + (b' - b)
    omega
  left_eq := by
    have hlen := length_pages hb
    have hrun := @framesLeft_unmapPages _ (pages b' b).reverse free u.pt
    rw [List.length_reverse, hlen] at hrun
    refine hrun.trans ?_
    omega
  program i hi := by
    rw [shrinkHeap_pt, unmapPages_of_not_mem (by rw [List.mem_reverse, mem_pages]; omega)]

/-- Two moves are one. -/
theorem BrkMoved.trans {b'' : ℤ} (h : BrkMoved free free' u u' d b b' s)
    (h' : BrkMoved free' free'' u' u'' d b' b'' s) : BrkMoved free free'' u u'' d b b'' s where
  layout := h'.layout
  size_eq := by
    rw [h'.size_eq, h.size_eq]
    omega
  left_eq := by
    rw [h'.left_eq, h.left_eq]
    omega
  program i hi := (h'.program i hi).trans (h.program i hi)

/-- What a program can tell of its break: where it is, its count, which
pages are valid, and the frames that are left. -/
def brkView (free : FreeFrame) (u : UserPt) : ℤ × ℤ × (ℤ → Bool) × ℤ :=
  (u.brk, u.size, fun i => (u.pt i).valid, framesLeft free)

/-- The layout says which pages are valid, but for the program's. -/
theorem Layout.valid_congr (hl : Layout u d b s) (hl' : Layout u' d b s)
    (hprogram : ∀ i, i < d → u'.pt i = u.pt i) (i : ℤ) : (u'.pt i).valid = (u.pt i).valid := by
  by_cases hd : i < d
  · rw [hprogram i hd]
  by_cases hb : i < b
  · rw [hl.heap i (not_lt.mp hd) hb, hl'.heap i (not_lt.mp hd) hb]
  by_cases hs : i < s
  · rw [hl.gap i (not_lt.mp hb) hs, hl'.gap i (not_lt.mp hb) hs]
  by_cases hn : i < numPages1
  · rw [hl.stack i (not_lt.mp hs) hn, hl'.stack i (not_lt.mp hs) hn]
  · rw [hl.outside i (Or.inr (not_lt.mp hn)), hl'.outside i (Or.inr (not_lt.mp hn))]

/-- **Where the break ends is all that shows** of how it got there. -/
theorem BrkMoved.view_eq (h : BrkMoved free free' u u' d b b' s)
    (h' : BrkMoved free free'' u u'' d b b' s) : brkView free' u' = brkView free'' u'' := by
  unfold brkView
  have hvalid : (fun i => (u'.pt i).valid) = fun i => (u''.pt i).valid := by
    funext i
    exact h'.layout.valid_congr h.layout (fun i hi => by rw [h.program i hi, h'.program i hi]) i
  rw [h.layout.brk_eq, h'.layout.brk_eq, h.size_eq, h'.size_eq, hvalid, h.left_eq, h'.left_eq]

/-- **Whether a `Brk` is granted**: its address is in range, and there are
frames for the pages it adds. -/
def BrkGranted (free : FreeFrame) (u : UserPt) (addr b b' : ℤ) : Prop :=
  ¬ (downToPage u.stackLow - pageSize ≤ addr ∨ addr < upToPage u.dataEnd) ∧
    b' - b ≤ framesLeft free

/-- One that was granted before does not count. -/
theorem BrkMoved.granted_iff (h : BrkMoved free free' u u' d b b' s) (hl : Layout u d b s)
    (addr b'' : ℤ) : BrkGranted free' u' addr b' b'' ↔ BrkGranted free u addr b b'' := by
  unfold BrkGranted
  rw [h.layout.stackLow_eq, hl.stackLow_eq, h.layout.dataEnd_eq, hl.dataEnd_eq, h.left_eq]
  refine and_congr Iff.rfl ⟨fun hle => by omega, fun hle => by omega⟩

end Break

section Calls

variable [DecidableEq Node] [DecidableEq Addr] {k k' : Kernel Node Addr} {c c' : Proc Node Addr}
  {d b s addr : ℤ}

omit [Paging] [DecidableEq Addr] in
theorem curr_setUser (r : FreeFrame × UserPt) :
    (k.setUser k.procs.running c r).curr = some { c with userpt := r.2 } := set_self _ _

/-- The page a break lands on, as `KernelUserBrk` rounds it. -/
def brkPage (addr : ℤ) : ℤ := upToPage addr / pageSize - basePage1

omit [DecidableEq Addr] in
/-- **`KernelUserBrk` moves the break, or does nothing.** -/
theorem kernelUserBrk_spec (hc : k.curr = some c) (hl : Layout c.userpt d b s)
    (hleft : 0 ≤ framesLeft k.mem.frames) (addr : ℤ) :
    (BrkGranted k.mem.frames c.userpt addr b (brkPage addr) → ∃ k' c',
      kernelUserBrk k addr = some (k', successCode) ∧ k'.curr = some c' ∧
      BrkMoved k.mem.frames k'.mem.frames c.userpt c'.userpt d b (brkPage addr) s) ∧
    (¬ BrkGranted k.mem.frames c.userpt addr b (brkPage addr) →
      kernelUserBrk k addr = some (k, errorCode)) := by
  obtain ⟨b', hup, hrange, heq⟩ := kernelUserBrk_eq hc hl addr
  have hpage : brkPage addr = b' := by
    rw [brkPage, hup, mul_pageSize_ediv]
    omega
  rw [hpage]
  constructor
  · intro hfits
    obtain ⟨hlo, hhi⟩ := hrange hfits.1
    rw [heq, if_neg hfits.1]
    by_cases hgrow : b < b'
    · rw [if_pos hgrow, if_neg (not_lt.mpr hfits.2)]
      exact ⟨_, _, rfl, curr_setUser _, brkMoved_growHeap hl hgrow.le hhi hfits.2⟩
    · rw [if_neg hgrow]
      exact ⟨_, _, rfl, curr_setUser _, brkMoved_shrinkHeap hl hlo (not_lt.mp hgrow)⟩
  · intro hfits
    rw [heq]
    split
    · rfl
    · rename_i hok
      -- in range, so it was the frames that were missing
      have hfew : framesLeft k.mem.frames < b' - b := not_le.mp fun hle => hfits ⟨hok, hle⟩
      rw [if_pos (by omega), if_pos hfew]

omit [DecidableEq Addr] in
/-- One that says `ERROR` has done nothing. -/
theorem kernelUserBrk_error (hc : k.curr = some c) (hl : Layout c.userpt d b s)
    (hleft : 0 ≤ framesLeft k.mem.frames) (h : kernelUserBrk k addr = some (k', errorCode)) :
    k' = k := by
  obtain ⟨hgrant, hrefuse⟩ := kernelUserBrk_spec hc hl hleft addr
  by_cases hfits : BrkGranted k.mem.frames c.userpt addr b (brkPage addr)
  · obtain ⟨k₁, -, hr, -⟩ := hgrant hfits
    have hcode := (Prod.mk.inj (Option.some.inj (hr.symm.trans h))).2
    exact absurd hcode successCode_ne_errorCode
  · exact (Prod.mk.inj (Option.some.inj ((hrefuse hfits).symm.trans h))).1.symm

omit [DecidableEq Addr] in
/-- One that does not was granted. -/
theorem kernelUserBrk_success (hc : k.curr = some c) (hl : Layout c.userpt d b s)
    (hleft : 0 ≤ framesLeft k.mem.frames) (h : kernelUserBrk k addr = some (k', successCode)) :
    BrkGranted k.mem.frames c.userpt addr b (brkPage addr) ∧ ∃ c', k'.curr = some c' ∧
      BrkMoved k.mem.frames k'.mem.frames c.userpt c'.userpt d b (brkPage addr) s := by
  obtain ⟨hgrant, hrefuse⟩ := kernelUserBrk_spec hc hl hleft addr
  by_cases hfits : BrkGranted k.mem.frames c.userpt addr b (brkPage addr)
  · obtain ⟨k₁, c', hr, hc', hmoved⟩ := hgrant hfits
    obtain rfl := (Prod.mk.inj (Option.some.inj (hr.symm.trans h))).1
    exact ⟨hfits, c', hc', hmoved⟩
  · have hcode := (Prod.mk.inj (Option.some.inj ((hrefuse hfits).symm.trans h))).2
    exact absurd hcode.symm successCode_ne_errorCode

omit [DecidableEq Addr] in
/-- **A `Brk` is refused whole, and a granted one leaves no trace** in the
next: that is granted where it would have been, and ends where it would have
ended. -/
theorem brk_path_independent (hc : k.curr = some c) (hl : Layout c.userpt d b s)
    (hf : k.mem.frames.Ok) (hsize : 0 ≤ k.mem.frames.size) (addr addr' : ℤ) :
    (∀ k₁, kernelUserBrk k addr = some (k₁, errorCode) → k₁ = k) ∧
    ∀ k₁, kernelUserBrk k addr = some (k₁, successCode) →
      ∃ k₂ k₃ code, kernelUserBrk k₁ addr' = some (k₂, code) ∧
        kernelUserBrk k addr' = some (k₃, code) ∧
        (code = successCode → ∃ c₂ c₃, k₂.curr = some c₂ ∧ k₃.curr = some c₃ ∧
          brkView k₂.mem.frames c₂.userpt = brkView k₃.mem.frames c₃.userpt) := by
  have hleft := hf.framesLeft_nonneg hsize
  refine ⟨fun k₁ h => kernelUserBrk_error hc hl hleft h, fun k₁ h => ?_⟩
  obtain ⟨hfits, c₁, hc₁, hmoved⟩ := kernelUserBrk_success hc hl hleft h
  have hleft₁ : 0 ≤ framesLeft k₁.mem.frames := by
    rw [hmoved.left_eq]
    have := hfits.2
    omega
  obtain ⟨hgrant, hrefuse⟩ := kernelUserBrk_spec hc₁ hmoved.layout hleft₁ addr'
  obtain ⟨hgrant', hrefuse'⟩ := kernelUserBrk_spec hc hl hleft addr'
  rw [hmoved.granted_iff hl] at hgrant hrefuse
  by_cases hfits' : BrkGranted k.mem.frames c.userpt addr' b (brkPage addr')
  · obtain ⟨k₂, c₂, hr₂, hc₂, hmoved₂⟩ := hgrant hfits'
    obtain ⟨k₃, c₃, hr₃, hc₃, hmoved₃⟩ := hgrant' hfits'
    exact ⟨k₂, k₃, successCode, hr₂, hr₃, fun _ =>
      ⟨c₂, c₃, hc₂, hc₃, (hmoved.trans hmoved₂).view_eq hmoved₃⟩⟩
  · exact ⟨k₁, k, errorCode, hrefuse hfits', hrefuse' hfits', fun hcode =>
      absurd hcode.symm successCode_ne_errorCode⟩

omit [Paging] [DecidableEq Node] [DecidableEq Addr] in
/-- Init as it is started on a small machine. -/
theorem smallBoot_started :
    let _ := yalnixPaging
    ∃ (k : Kernel ℕ ℕ) (c : Proc ℕ ℕ) (d b s : ℤ), kernelStart (smallBoot 140) = some k ∧
      k.curr = some c ∧ c.kin.isSome ∧ Layout c.userpt d b s ∧ k.mem.frames.Ok ∧
      0 ≤ k.mem.frames.size := by
  let _ := yalnixPaging
  have hruns : ((kernelStart (smallBoot 140)).bind fun k => k.curr.map fun c =>
      (c.kin.isSome, decide (k.procs.running ≠ k.procs.idleNode),
        decide (0 ≤ k.mem.frames.size))) = some (true, true, true) := by
    decide +kernel
  obtain ⟨k, hk, hruns⟩ := Option.bind_eq_some_iff.mp hruns
  obtain ⟨c, hc, heq⟩ := Option.map_eq_some_iff.mp hruns
  simp only [Prod.mk.injEq, decide_eq_true_eq] at heq
  obtain ⟨hkin, hidle, hsize⟩ := heq
  obtain ⟨⟨d, b, s, hl⟩, -⟩ := kernelStart_imaged hk onePage_wellFormed _ c hc hkin hidle
  have howned : k.Owned := kernelStart_owned onePage_wellFormed hk bootFits_smallBoot
  exact ⟨k, c, d, b, s, hk, hc, hkin, hl, howned.ok, hsize⟩

omit [Paging] [DecidableEq Node] [DecidableEq Addr] in
/-- Init grows its heap by three pages and takes two of them back, which is
as growing it by one. -/
theorem brk_path_independent_init :
    let _ := yalnixPaging
    ∃ (k k₁ k₂ k₃ : Kernel ℕ ℕ) (c₂ c₃ : Proc ℕ ℕ), kernelStart (smallBoot 140) = some k ∧
      kernelUserBrk k (132 * pageSize) = some (k₁, successCode) ∧
      kernelUserBrk k₁ (130 * pageSize) = some (k₂, successCode) ∧
      kernelUserBrk k (130 * pageSize) = some (k₃, successCode) ∧
      k₂.curr = some c₂ ∧ k₃.curr = some c₃ ∧
      brkView k₂.mem.frames c₂.userpt = brkView k₃.mem.frames c₃.userpt := by
  let _ := yalnixPaging
  obtain ⟨k, c, d, b, s, hk, hc, -, hl, hf, hsize⟩ := smallBoot_started
  have hruns : ((kernelStart (smallBoot 140)).bind fun k =>
      (kernelUserBrk k (132 * pageSize)).bind fun r =>
        (kernelUserBrk r.1 (130 * pageSize)).map fun r' => (r.2, r'.2)) =
      some (successCode, successCode) := by
    decide +kernel
  rw [hk, Option.bind_some] at hruns
  obtain ⟨⟨k₁, code₁⟩, hr₁, hruns⟩ := Option.bind_eq_some_iff.mp hruns
  obtain ⟨⟨k₂', code₂⟩, hr₂, heq⟩ := Option.map_eq_some_iff.mp hruns
  obtain ⟨rfl, rfl⟩ := Prod.mk.inj heq
  obtain ⟨k₂, k₃, code, h₂, h₃, hview⟩ :=
    (brk_path_independent hc hl hf hsize (132 * pageSize) (130 * pageSize)).2 k₁ hr₁
  obtain rfl := (Prod.mk.inj (Option.some.inj (hr₂.symm.trans h₂))).2
  obtain ⟨c₂, c₃, hc₂, hc₃, heq⟩ := hview rfl
  exact ⟨k, k₁, k₂, k₃, c₂, c₃, hk, hr₁, h₂, h₃, hc₂, hc₃, heq⟩

end Calls

/-! ## The stack -/

/-- The page of region 1 an address is on. -/
def userPage (addr : ℤ) : ℤ := addr / pageSize - basePage1

/-- **The stack grown to cover an address**: the pages from the address's to
the old end are new, and that is all that is. -/
structure StackGrown (u u' : UserPt) (addr : ℤ) : Prop where
  new : (u.pt (userPage addr)).valid = false ∧ (u'.pt (userPage addr)).valid = true
  covered : ∀ i, userPage addr ≤ i → i < userPage u.stackLow →
    (u.pt i).valid = false ∧ (u'.pt i).valid = true
  stackLow_eq : u'.stackLow = downToPage addr
  size_eq : u'.size = u.size + (userPage u.stackLow - userPage addr)
  rest : ∀ i, ¬ (userPage addr ≤ i ∧ i < userPage u.stackLow) → u'.pt i = u.pt i
  brk_eq : u'.brk = u.brk
  dataEnd_eq : u'.dataEnd = u.dataEnd

section Fault

variable {free : FreeFrame} {u : UserPt} {d b s s' addr : ℤ}

theorem Layout.userPage_stackLow (hl : Layout u d b s) : userPage u.stackLow = s := by
  rw [userPage, hl.stackLow_eq, mul_pageSize_ediv]
  omega

/-- Growing the stack below where it was. -/
theorem stackGrown_growStack (hl : Layout u d b s) (haddr : addr / pageSize = basePage1 + s')
    (hb : b < s') (hs : s' < s) : StackGrown u (growStack free u s s').2 addr := by
  have hpage : userPage addr = s' := by
    rw [userPage, haddr]
    omega
  have hmem : ∀ i, i ∈ (pages s' s).reverse ↔ s' ≤ i ∧ i < s := fun i => by
    rw [List.mem_reverse, mem_pages]
  have hnew : ∀ i, s' ≤ i → i < s →
      (u.pt i).valid = false ∧ ((growStack free u s s').2.pt i).valid = true :=
    fun i hlo hhi => ⟨hl.gap i (by omega) hhi, (mapPages_of_mem ((hmem i).mpr ⟨hlo, hhi⟩)).1⟩
  constructor
  · rw [hpage]
    exact hnew s' le_rfl hs
  · rw [hpage, hl.userPage_stackLow]
    exact hnew
  · rw [downToPage, haddr]
    rfl
  · rw [hpage, hl.userPage_stackLow]
    rfl
  · rw [hpage, hl.userPage_stackLow]
    exact fun i hi => mapPages_of_not_mem (by rwa [hmem])
  · rfl
  · rfl

/-- Growing it by no page. -/
theorem growStack_self (hl : Layout u d b s) : growStack free u s s = (free, u) := by
  have hnone : (pages s s).reverse = [] := by
    rw [pages, Int.sub_self]
    rfl
  unfold growStack
  rw [hnone, ← hl.stackLow_eq, Int.sub_self, Int.add_zero]
  rfl

end Fault

section Faults

variable [DecidableEq Node] [DecidableEq Addr] {k k' : Kernel Node Addr} {c : Proc Node Addr}
  {d b s addr : ℤ}

/-- **A fault makes progress or ends its process**: where the process still
lives the stack has grown over the address. When init ends the machine
halts. -/
def FaultProgress (k : Kernel Node Addr) (c : Proc Node Addr) (addr : ℤ) : Prop :=
  match trapMemory k addr with
  | none => k.procs.running = k.initNode
  | some k' => k'.alive k.procs.running = false ∨
      ∃ c', k'.proc k.procs.running = some c' ∧ StackGrown c.userpt c'.userpt addr

/-- `KernelExit` ends its process. -/
theorem faultProgress_of_exit (h : trapMemory k addr = kernelExit k errorCode) :
    FaultProgress k c addr := by
  unfold FaultProgress
  rw [h]
  cases hexit : kernelExit k errorCode with
  | none =>
    unfold kernelExit at hexit
    split at hexit
    · assumption
    · cases hexit
  | some k' => exact Or.inl (kernelExit_not_alive hexit)

/-- **A fault just at the end of the stack is resumed, and nothing has
changed.** -/
theorem trapMemory_stackLow (hc : k.curr = some c) (hl : Layout c.userpt d b s)
    (hleft : 0 ≤ framesLeft k.mem.frames) :
    trapMemory k (downToPage c.userpt.stackLow) = some k := by
  obtain ⟨s', hdown, -, heq⟩ := trapMemory_eq hc hl (downToPage c.userpt.stackLow)
  have hs : s' = s := by
    rw [hl.stackLow_eq, downToPage_mul, downToPage_mul, mul_pageSize_ediv] at hdown
    omega
  have hroom : upToPage c.userpt.brk + pageSize ≤ downToPage c.userpt.stackLow := by
    have hbs := hl.b_lt
    have hmul := Int.mul_le_mul_of_nonneg_right (show basePage1 + b + 1 ≤ basePage1 + s by omega)
      pageSize_pos.le
    rw [Int.add_mul _ 1, Int.one_mul] at hmul
    rw [hl.brk_eq, hl.stackLow_eq, upToPage_mul, downToPage_mul]
    exact hmul
  rw [heq, if_pos ⟨hroom, le_rfl⟩, if_neg (by omega), hs, growStack_self hl]
  unfold Kernel.setUser Kernel.set
  rw [Function.update_eq_self_iff.mpr hc.symm]

theorem not_progress_stackLow (hc : k.curr = some c) (hkin : c.kin.isSome)
    (hl : Layout c.userpt d b s) (hleft : 0 ≤ framesLeft k.mem.frames) :
    ¬ FaultProgress k c (downToPage c.userpt.stackLow) := by
  unfold FaultProgress
  rw [trapMemory_stackLow hc hl hleft]
  rintro (hdead | ⟨c', -, hgrown⟩)
  · rw [Kernel.alive, show k.proc k.procs.running = some c from hc, Option.bind_some, hkin] at hdead
    cases hdead
  · -- its page was there already
    have hold := hgrown.new.1
    have hpage : userPage (downToPage c.userpt.stackLow) = s := by
      rw [userPage, hl.stackLow_eq, downToPage_mul, mul_pageSize_ediv]
      omega
    rw [hpage, hl.stack s le_rfl hl.s_lt] at hold
    cases hold

/-- **Every fault but that one makes progress or ends its process.** -/
theorem faultProgress_iff (hc : k.curr = some c) (hkin : c.kin.isSome)
    (hl : Layout c.userpt d b s) (hf : k.mem.frames.Ok) (hsize : 0 ≤ k.mem.frames.size)
    (addr : ℤ) : FaultProgress k c addr ↔ addr ≠ downToPage c.userpt.stackLow := by
  have hleft := hf.framesLeft_nonneg hsize
  constructor
  · rintro h rfl
    exact not_progress_stackLow hc hkin hl hleft h
  · intro hne
    obtain ⟨s', hdown, hrange, heq⟩ := trapMemory_eq hc hl addr
    have haddr : addr / pageSize = basePage1 + s' := by
      rw [← hdown, downToPage, mul_pageSize_ediv]
    split at heq
    · rename_i hok
      obtain ⟨hlo, -⟩ := hrange hok
      -- below the end of the stack, so on a page below its lowest
      have hlt : s' < s := by
        have hbelow : addr < (basePage1 + s) * pageSize := by
          rw [← downToPage_mul, ← hl.stackLow_eq]
          exact lt_of_le_of_ne hok.2 hne
        have := (Int.ediv_lt_iff_lt_mul pageSize_pos).mpr hbelow
        omega
      split at heq
      · exact faultProgress_of_exit heq
      · unfold FaultProgress
        rw [heq]
        exact Or.inr ⟨_, set_self _ _, stackGrown_growStack hl haddr hlo hlt⟩
    · exact faultProgress_of_exit heq

omit [Paging] [DecidableEq Node] [DecidableEq Addr] in
/-- A fault far below the stack of init. -/
theorem faultProgress_iff_below :
    let _ := yalnixPaging
    ∃ (k : Kernel ℕ ℕ) (c : Proc ℕ ℕ), kernelStart (smallBoot 140) = some k ∧
      k.curr = some c ∧ FaultProgress k c (200 * pageSize + 5) := by
  let _ := yalnixPaging
  obtain ⟨k, c, d, b, s, hk, hc, hkin, hl, hf, hsize⟩ := smallBoot_started
  have hruns : ((kernelStart (smallBoot 140)).bind fun k => k.curr.map fun c =>
      decide (200 * pageSize + 5 ≠ downToPage c.userpt.stackLow)) = some true := by
    decide +kernel
  rw [hk, Option.bind_some, hc, Option.map_some, Option.some_inj] at hruns
  exact ⟨k, c, hk, hc, (faultProgress_iff hc hkin hl hf hsize _).mpr (of_decide_eq_true hruns)⟩

omit [Paging] [DecidableEq Node] [DecidableEq Addr] in
/-- **Init jumps to the start of its stack**, which is mapped and not
executable: the fault is resumed with nothing changed, and comes again. -/
theorem not_faultProgress :
    let _ := yalnixPaging
    ∃ (k : Kernel ℕ ℕ) (c : Proc ℕ ℕ) (d b s : ℤ), kernelStart (smallBoot 140) = some k ∧
      k.curr = some c ∧ c.kin.isSome ∧ Layout c.userpt d b s ∧ k.mem.frames.Ok ∧
      0 ≤ k.mem.frames.size ∧ (c.userpt.pt (userPage (255 * pageSize))).valid = true ∧
      (c.userpt.pt (userPage (255 * pageSize))).prot = protRead ||| protWrite ∧
      trapMemory k (255 * pageSize) = some k ∧ ¬ FaultProgress k c (255 * pageSize) := by
  let _ := yalnixPaging
  obtain ⟨k, c, d, b, s, hk, hc, hkin, hl, hf, hsize⟩ := smallBoot_started
  have hruns : ((kernelStart (smallBoot 140)).bind fun k => k.curr.map fun c =>
      decide (0 ≤ framesLeft k.mem.frames ∧ 255 * pageSize = downToPage c.userpt.stackLow ∧
        (c.userpt.pt (userPage (255 * pageSize))).valid = true ∧
        (c.userpt.pt (userPage (255 * pageSize))).prot = protRead ||| protWrite)) =
      some true := by
    decide +kernel
  rw [hk, Option.bind_some, hc, Option.map_some, Option.some_inj] at hruns
  obtain ⟨hleft, hlow, hvalid, hprot⟩ := of_decide_eq_true hruns
  refine ⟨k, c, d, b, s, hk, hc, hkin, hl, hf, hsize, hvalid, hprot, ?_, ?_⟩
  · rw [hlow]
    exact trapMemory_stackLow hc hl hleft
  · rw [hlow]
    exact not_progress_stackLow hc hkin hl hleft

end Faults

end Yalnix
