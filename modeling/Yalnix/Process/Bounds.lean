import Yalnix.Process.Images
/-!
# Heap and stack never meet

`Brk` moves the top of the heap, a fault the bottom of the stack, and a
child starts with its parent's. Between the two there is always a page that
is not mapped: `heap_below_stack` says so of every process in every run,
with what is mapped on either side of it, and that no page table is ever
read or written outside region 1.

Where the data of a program starts is not kept by the kernel. `Placed` keeps
it beside the kernel, a number for each process.
-/

namespace Yalnix

open Paging

variable {Node Addr : Type} [Paging]

/-! ## One process -/

/-- **The heap ends at least a page below the stack**, both at page
boundaries, and from the start of the data on exactly the pages of the two
are mapped. -/
structure Apart (u : UserPt) (start : ℤ) : Prop where
  brk_aligned : pageSize ∣ u.brk
  stackLow_aligned : pageSize ∣ u.stackLow
  below : u.brk + pageSize ≤ u.stackLow
  valid_iff : ∀ i, start ≤ i → ((u.pt i).valid = true ↔
    (basePage1 + i) * pageSize < u.brk ∨
      u.stackLow ≤ (basePage1 + i) * pageSize ∧ (basePage1 + i) * pageSize < vmem1Limit)

/-- A layout with the page `a` where the data starts: from there to the
break everything is mapped. -/
structure Seated (u : UserPt) (a d b s : ℤ) : Prop extends Layout u d b s where
  start_le : a ≤ d
  data : ∀ i, a ≤ i → i < d → (u.pt i).valid = true

namespace Seated

variable {u : UserPt} {a d b s : ℤ}

theorem apart (h : Seated u a d b s) : Apart u a := by
  have hps := pageSize_pos
  have hlt : ∀ i j : ℤ, i * pageSize < j * pageSize ↔ i < j := fun i j =>
    Int.mul_lt_mul_right hps
  refine ⟨?_, ?_, ?_, fun i hi => ?_⟩
  · rw [h.brk_eq]
    exact Int.dvd_mul_left _ _
  · rw [h.stackLow_eq]
    exact Int.dvd_mul_left _ _
  · rw [h.brk_eq, h.stackLow_eq]
    have hle := (mul_le_mul_iff (basePage1 + b + 1) (basePage1 + s)).mpr (by have := h.b_lt; omega)
    rwa [Int.add_mul _ 1, Int.one_mul] at hle
  · rw [h.brk_eq, h.stackLow_eq, vmem1Limit, hlt, hlt, mul_le_mul_iff]
    have hb := h.b_lt
    have hn : numPages1 = limPage1 - basePage1 := rfl
    constructor
    · intro hvalid
      by_contra hout
      have hnone : (u.pt i).valid = false := by
        by_cases his : i < s
        · exact h.gap i (by omega) his
        · exact h.outside i (Or.inr (by omega))
      rw [hnone] at hvalid
      cases hvalid
    · rintro (hheap | ⟨hstack, hlim⟩)
      · by_cases hd : i < d
        · exact h.data i hi hd
        · exact h.heap i (by omega) (by omega)
      · exact h.stack i (by omega) (by omega)

theorem growHeap (h : Seated u a d b s) {b' : ℤ} (hb : b ≤ b') (hb' : b' < s) (free : FreeFrame) :
    Seated (Yalnix.growHeap free u b b').2 a d b' s where
  toLayout := h.toLayout.growHeap hb hb' free
  start_le := h.start_le
  data i hai hid := mapPages_valid_iff.mpr (Or.inr (h.data i hai hid))

theorem shrinkHeap (h : Seated u a d b s) {b' : ℤ} (hd : d ≤ b') (hb : b' ≤ b)
    (free : FreeFrame) : Seated (Yalnix.shrinkHeap free u b b').2 a d b' s where
  toLayout := h.toLayout.shrinkHeap hd hb free
  start_le := h.start_le
  data i hai hid := by
    rw [shrinkHeap_pt, unmapPages_of_not_mem (by rw [List.mem_reverse, mem_pages]; omega)]
    exact h.data i hai hid

theorem growStack (h : Seated u a d b s) {s' : ℤ} (hb : b < s') (hs : s' ≤ s)
    (free : FreeFrame) : Seated (Yalnix.growStack free u s s').2 a d b s' where
  toLayout := h.toLayout.growStack hb hs free
  start_le := h.start_le
  data i hai hid := mapPages_valid_iff.mpr (Or.inr (h.data i hai hid))

/-- A copy has its data where the original has. -/
theorem copy (h : Seated u a d b s) (mem : Memory) :
    Seated (copyUserMem mem u newUserPt).2 a d b s where
  toLayout := h.toLayout.copy mem
  start_le := h.start_le
  data i hai hid := by
    rw [h.copy_valid]
    exact h.data i hai hid

end Seated

/-- **`LoadProgram`** seats the program with its data where the executable
has it. -/
theorem Mapped.seated {free : FreeFrame} {pt : ℤ → Pte} {li : LoadInfo} {args : List (List Byte)}
    {l : Loaded} (h : Mapped free pt li args l) (hli : li.WellFormed)
    (hroom : stackNpg args + li.dataPg1 + li.dataNpg < maxPtLen)
    (hpt : ∀ i, (pt i).valid = false) :
    Seated l.userpt li.dataPg1 (li.dataPg1 + li.dataNpg - 1) (li.dataPg1 + li.dataNpg)
      (numPages1 - stackNpg args) where
  toLayout := h.layout hli hroom hpt
  start_le := by
    have := hli.data_pos
    omega
  data i hai hid := by
    exact (h.valid_iff hpt i).mpr (Or.inr (Or.inl ⟨hai, by omega⟩))

theorem seated_loadProgram {mem : Memory} {u : UserPt} {uc : UserContext}
    {args : List (List Byte)} {env : LoadEnv} {r : Loaded × LoadCode}
    (hout : ∀ i, i < 0 ∨ numPages1 ≤ i → (u.pt i).valid = false)
    (henv : ∀ li, env.info = some li → li.WellFormed)
    (h : loadProgram mem u uc args env = r) (hr : r.2 = .success) :
    ∃ li d b s, env.info = some li ∧ Seated r.1.userpt li.dataPg1 d b s := by
  obtain ⟨li, free, pt, hinfo, hroom, hnone, hmapped⟩ := loadProgram_mapped hout h hr
  exact ⟨li, _, _, _, hinfo, hmapped.seated (henv li hinfo) hroom hnone⟩

/-! ## The entries each call uses -/

/-- The entries `KernelUserBrk` sets, in its order. -/
def brkPages (userpt : UserPt) (addr : ℤ) : List ℤ :=
  if downToPage userpt.stackLow - pageSize ≤ addr ∨ addr < upToPage userpt.dataEnd then []
  else
    let currBrkVpn := upToPage userpt.brk / pageSize - 1
    let nextBrkVpn := upToPage addr / pageSize - 1
    if currBrkVpn < nextBrkVpn then
      pages (currBrkVpn + 1 - basePage1) (nextBrkVpn + 1 - basePage1)
    else (pages (nextBrkVpn + 1 - basePage1) (currBrkVpn + 1 - basePage1)).reverse

/-- The entries `TrapMemory` sets, in its order. -/
def faultPages (userpt : UserPt) (addr : ℤ) : List ℤ :=
  if upToPage userpt.brk + pageSize ≤ addr ∧ addr ≤ downToPage userpt.stackLow then
    (pages (downToPage addr / pageSize - basePage1)
      (downToPage userpt.stackLow / pageSize - basePage1)).reverse
  else []

/-- The entries `LoadProgram` uses: all those of the old program, and the
segments of the new one. -/
def loadPages (args : List (List Byte)) (li : LoadInfo) : List ℤ :=
  if maxPtLen ≤ stackNpg args + li.dataPg1 + li.dataNpg then []
  else pages 0 numPages1 ++ li.segments args

/-- **The entries of its page table a call uses**, `copy_user_mem` and
`destroy_usermem` going through all of them. -/
def ProcAct.pages (k : Kernel Node Addr) (c : Proc Node Addr) : ProcAct Node Addr → List ℤ
  | .fork _ _ _ => Yalnix.pages 0 numPages1
  | .exec _ argvec env =>
    (env.info.map (loadPages (argsAt k.mem c.userpt.pt maxCheck argvec))).getD []
  | .exit _ => Yalnix.pages 0 numPages1
  | .brk addr => brkPages c.userpt addr
  | .fault addr => faultPages c.userpt addr ++ Yalnix.pages 0 numPages1
  | _ => []

section Pages

variable [DecidableEq Node] {k k' : Kernel Node Addr} {c : Proc Node Addr} {addr : ℤ}

/-- **`KernelUserBrk` sets the entries listed for it**, and no others. -/
theorem kernelUserBrk_pages {r : Kernel Node Addr × ℤ} (hc : k.curr = some c)
    (h : kernelUserBrk k addr = some r) :
    r.1 = k ∨ ∃ free u, r.1 = k.setUser k.procs.running c (free, u) ∧
      ((free, u.pt) = mapPages (protRead ||| protWrite) (brkPages c.userpt addr)
          k.mem.frames c.userpt.pt ∨
        (free, u.pt) = unmapPages (brkPages c.userpt addr) k.mem.frames c.userpt.pt) := by
  unfold kernelUserBrk at h
  rw [hc] at h
  dsimp only at h
  rw [modify_eq_set hc, modify_eq_set hc] at h
  unfold brkPages
  split at h
  · exact Or.inl (congrArg Prod.fst (Option.some.inj h).symm)
  · rename_i hok
    rw [if_neg hok]
    split at h
    · rename_i hgrow
      split at h
      · exact Or.inl (congrArg Prod.fst (Option.some.inj h).symm)
      · rw [← Option.some.inj h]
        exact Or.inr ⟨_, _, rfl, Or.inl (by dsimp only; rw [if_pos hgrow])⟩
    · rename_i hshrink
      rw [← Option.some.inj h]
      exact Or.inr ⟨_, _, rfl, Or.inr (by dsimp only; rw [if_neg hshrink])⟩

/-- **So does `TrapMemory`**, where it does not end the process. -/
theorem trapMemory_pages [DecidableEq Addr] (hc : k.curr = some c)
    (h : trapMemory k addr = some k') :
    kernelExit k errorCode = some k' ∨
    ∃ free u, k' = k.setUser k.procs.running c (free, u) ∧
      (free, u.pt) = mapPages (protRead ||| protWrite) (faultPages c.userpt addr)
        k.mem.frames c.userpt.pt := by
  unfold trapMemory at h
  rw [hc] at h
  dsimp only at h
  rw [modify_eq_set hc] at h
  unfold faultPages
  split at h
  · rename_i hok
    rw [if_pos hok]
    split at h
    · exact Or.inl h
    · rw [← Option.some.inj h]
      exact Or.inr ⟨_, _, rfl, rfl⟩
  · exact Or.inl h

omit [DecidableEq Node] in
/-- **`LoadProgram` changes none but those listed for it**, whether it loads
the program, refuses to or loses the process. -/
theorem loadProgram_pages {mem : Memory} {u : UserPt} {uc : UserContext} {args : List (List Byte)}
    {env : LoadEnv} {i : ℤ} (hi : i ∉ (env.info.map (loadPages args)).getD []) :
    (loadProgram mem u uc args env).1.userpt.pt i = u.pt i := by
  by_cases hcode : (loadProgram mem u uc args env).2 = .error
  · rw [(loadProgram_error hcode).2]
  · obtain ⟨li, hinfo, hroom, heq⟩ := loadProgram_committed hcode
    rw [hinfo, Option.map_some, Option.getD_some, loadPages, if_neg (not_le.mpr hroom)] at hi
    rw [heq, loadSegments_pt hi]

omit [DecidableEq Node] in
/-- **They are all entries of region 1**, of a process that is seated. -/
theorem Layout.pages_inside {d b s : ℤ} (h : Layout c.userpt d b s) {act : ProcAct Node Addr}
    (hact : act.InDomain) {i : ℤ} (hi : i ∈ act.pages k c) : 0 ≤ i ∧ i < numPages1 := by
  have hd := h.d_nonneg
  have hdb := h.d_le
  have hbs := h.b_lt
  have hs := h.s_lt
  cases act with
  | fork => exact mem_pages.mp hi
  | exit => exact mem_pages.mp hi
  | exec filename argvec env =>
    unfold ProcAct.pages at hi
    dsimp only at hi
    cases hinfo : env.info with
    | none =>
      rw [hinfo] at hi
      cases hi
    | some li =>
      rw [hinfo] at hi
      have hwf := hact li hinfo
      dsimp only [Option.map_some, Option.getD_some] at hi
      unfold loadPages at hi
      split at hi
      · cases hi
      · rename_i hroom
        rcases List.mem_append.mp hi with hi | hi
        · exact mem_pages.mp hi
        · exact mem_pages.mp (hwf.ordered.segments_region (not_le.mp hroom) hi)
  | brk addr =>
    -- the pages from the old break to the new one, in either direction
    obtain ⟨b', hup, hrange⟩ := h.brk_range addr
    unfold ProcAct.pages brkPages at hi
    dsimp only at hi
    split at hi
    · cases hi
    · rename_i hok
      obtain ⟨hlo, hhi⟩ := hrange hok
      rw [hup, h.brk_eq, upToPage_mul, mul_pageSize_ediv, mul_pageSize_ediv] at hi
      split at hi
      · rw [mem_pages] at hi
        omega
      · rw [List.mem_reverse, mem_pages] at hi
        omega
  | fault addr =>
    -- the pages down to the new stack bottom, or the whole table of a process that is killed
    obtain ⟨s', hdown, hrange⟩ := h.fault_range addr
    rcases List.mem_append.mp hi with hi | hi
    · unfold faultPages at hi
      split at hi
      · rename_i hok
        obtain ⟨hlo, hhi⟩ := hrange hok
        rw [List.mem_reverse, mem_pages, hdown, h.stackLow_eq, downToPage_mul,
          mul_pageSize_ediv] at hi
        omega
      · cases hi
    · exact mem_pages.mp hi
  | wait => cases hi
  | store => cases hi
  | resume => cases hi

end Pages

/-! ## Where the data starts -/

/-- The kernel, and the page where the data of each process's program
starts. -/
structure Placed (Node Addr : Type) where
  kernel : Kernel Node Addr
  start : Node → ℤ

variable [DecidableEq Node] [DecidableEq Addr]

/-- The program a process runs when its `KernelExec` has returned 0. -/
def Kernel.program (k : Kernel Node Addr) : Node × ProcAct Node Addr → Option LoadInfo
  | (p, .exec filename argvec env) =>
    match k.proc p with
    | none => none
    | some c =>
      match kernelExec (switchTo k p c) filename argvec env with
      | none => none
      | some (_, code) => if code = successCode then env.info else none
  | _ => none

/-- A program brings its own, and a child has its parent's. -/
def Placed.starts (t : Placed Node Addr) (k' : Kernel Node Addr) :
    Node × ProcAct Node Addr → Node → ℤ
  | (p, .fork child _ _) =>
    if (t.kernel.proc child).isNone ∧ (k'.proc child).isSome then
      Function.update t.start child (t.start p)
    else t.start
  | e =>
    match t.kernel.program e with
    | none => t.start
    | some li => Function.update t.start e.1 li.dataPg1

/-- One activation. -/
def Placed.step (t : Placed Node Addr) (e : Node × ProcAct Node Addr) :
    Option (Placed Node Addr) :=
  (t.kernel.step e).map fun k' => ⟨k', t.starts k' e⟩

/-- **Every process that lives is seated**, idle apart, which runs no
program. -/
def Placed.Seated (t : Placed Node Addr) : Prop :=
  ∀ n c, t.kernel.proc n = some c → c.kin.isSome → n ≠ t.kernel.procs.idleNode →
    ∃ d b s, Yalnix.Seated c.userpt (t.start n) d b s

/-- **The heap of every process that lives ends a page below its stack.** -/
def Placed.Apart (t : Placed Node Addr) : Prop :=
  ∀ n c, t.kernel.proc n = some c → c.kin.isSome → n ≠ t.kernel.procs.idleNode →
    Yalnix.Apart c.userpt (t.start n)

/-- **Only these entries change**, of the page tables of those that live on. -/
def Kernel.ChangesOnly (k k' : Kernel Node Addr) (is : List ℤ) : Prop :=
  ∀ n c c', k.proc n = some c → k'.proc n = some c' → c'.kin.isSome →
    ∀ i, i ∉ is → c'.userpt.pt i = c.userpt.pt i

/-- **No page table is read or written outside region 1**: the entries listed
for an activation are inside it, and it changes no others. -/
def Placed.Inside (t : Placed Node Addr) : Node × ProcAct Node Addr → Prop
  | (p, act) => ∀ c, t.kernel.proc p = some c → c.kin.isSome → p ≠ t.kernel.procs.idleNode →
      (∀ i ∈ act.pages (switchTo t.kernel p c) c, 0 ≤ i ∧ i < numPages1) ∧
      ∀ k', t.kernel.step (p, act) = some k' →
        t.kernel.ChangesOnly k' (act.pages (switchTo t.kernel p c) c)

section Step

variable {k k' : Kernel Node Addr} {t t' : Placed Node Addr} {start' : Node → ℤ} {p : Node}
  {c : Proc Node Addr} {filename argvec : ℤ} {env : LoadEnv}

/-- **The result of `KernelExec`**: 0 with the new program loaded, or an
error with the old one still there, or lost and the process ended. -/
theorem kernelExec_result {r : Kernel Node Addr × ℤ} (hc : k.curr = some c)
    (h : kernelExec k filename argvec env = some r) :
    (r.2 = successCode ∧ ∃ l, loadProgram k.mem c.userpt c.uc
        (argsAt k.mem c.userpt.pt maxCheck argvec) env = l ∧
      l.2 = .success ∧ r.1 = k.set k.procs.running (loadedProc c l) l.1.mem) ∨
    (r.2 = errorCode ∧ (r.1 = k ∨ ∃ c' mem, (c'.userpt = c.userpt ∧
        r.1 = k.set k.procs.running c' mem) ∨
      kernelExit (k.set k.procs.running c' mem) errorCode = some r.1)) := by
  unfold kernelExec at h
  rw [hc] at h
  dsimp only at h
  split at h
  · cases h
  · rw [← Option.some.inj h]
    exact Or.inr ⟨rfl, Or.inl rfl⟩
  · obtain ⟨l, hl⟩ : ∃ l, l = loadProgram k.mem c.userpt c.uc
        (argsAt k.mem c.userpt.pt maxCheck argvec) env := ⟨_, rfl⟩
    rw [← hl, modify_eq_set hc] at h
    split at h
    · rename_i hcode
      refine Or.inl ⟨congrArg Prod.snd (Option.some.inj h).symm, l, hl.symm, hcode, ?_⟩
      rw [← Option.some.inj h]
      rfl
    · rename_i hcode
      rw [← Option.some.inj h]
      refine Or.inr ⟨rfl, Or.inr ⟨_, _, Or.inl ⟨?_, rfl⟩⟩⟩
      dsimp only
      rw [hl] at hcode ⊢
      exact (loadProgram_error hcode).2
    · obtain ⟨k₁, hexit, rfl⟩ := Option.map_eq_some_iff.mp h
      exact Or.inr ⟨rfl, Or.inr ⟨_, _, Or.inr hexit⟩⟩

/-- An activation in `Exec` is the call. -/
theorem step_exec (hp : k.proc p = some c) (h : k.step (p, .exec filename argvec env) = some k') :
    ∃ r, kernelExec (switchTo k p c) filename argvec env = some r ∧ r.1 = k' := by
  unfold Kernel.step at h
  dsimp only at h
  rw [hp] at h
  dsimp only at h
  split at h
  · cases h
  · unfold Kernel.act at h
    dsimp only at h
    split at h
    · cases h
    · exact Option.map_eq_some_iff.mp h

/-- **How the page table of a process that lives came about**, where `p` was
given the processor with the layout of `c`: it is the one there was, a copy
of the parent's, a new program's, or that of `p` with its break or its stack
moved. -/
inductive TableOf (k : Kernel Node Addr) (p : Node) (c : Proc Node Addr) (d b s : ℤ) (n : Node) :
    ProcAct Node Addr → UserPt → Prop
  | same (act : ProcAct Node Addr) (c₀ : Proc Node Addr) (hn : k.proc n = some c₀)
      (halive : c₀.kin.isSome) (hprogram : n = p → k.program (p, act) = none) :
      TableOf k p c d b s n act c₀.userpt
  | born (data : Addr) (pid : ℤ) (mem : Memory) (hn : k.proc n = none) :
      TableOf k p c d b s n (.fork n data pid) (copyUserMem mem c.userpt newUserPt).2
  | loaded (act : ProcAct Node Addr) (li : LoadInfo) (free : FreeFrame) (pt : ℤ → Pte)
      (args : List (List Byte)) (l : Loaded) (hn : n = p)
      (hprogram : k.program (p, act) = some li) (hli : li.WellFormed)
      (hroom : stackNpg args + li.dataPg1 + li.dataNpg < maxPtLen)
      (hpt : ∀ i, (pt i).valid = false) (hmapped : Mapped free pt li args l) :
      TableOf k p c d b s n act l.userpt
  | grown (addr b' : ℤ) (free : FreeFrame) (hn : n = p) (hlo : b < b') (hhi : b' < s) :
      TableOf k p c d b s n (.brk addr) (growHeap free c.userpt b b').2
  | shrunk (addr b' : ℤ) (free : FreeFrame) (hn : n = p)
      (haddr : upToPage addr = (basePage1 + b') * pageSize)
      (hdata : (basePage1 + d) * pageSize ≤ addr) (hlo : d ≤ b') (hhi : b' ≤ b) :
      TableOf k p c d b s n (.brk addr) (shrinkHeap free c.userpt b b').2
  | deepened (addr s' : ℤ) (free : FreeFrame) (hn : n = p) (hlo : b < s') (hhi : s' ≤ s) :
      TableOf k p c d b s n (.fault addr) (growStack free c.userpt s s').2

/-- Every page table after an activation. -/
def Tabled (k : Kernel Node Addr) (p : Node) (c : Proc Node Addr) (d b s : ℤ)
    (act : ProcAct Node Addr) (k' : Kernel Node Addr) : Prop :=
  k'.procs.idleNode = k.procs.idleNode ∧
    ∀ n c', k'.proc n = some c' → c'.kin.isSome → TableOf k p c d b s n act c'.userpt

section Tabled

variable {act : ProcAct Node Addr} {d b s : ℤ}

/-- What leaves processes alone leaves their page tables alone. -/
theorem Leaves.tabled {S : Set Node} (h : Leaves k k' S)
    (hprogram : p ∉ S → k.program (p, act) = none)
    (hS : ∀ n ∈ S, ∀ c', k'.proc n = some c' → c'.kin.isSome →
      TableOf k p c d b s n act c'.userpt) : Tabled k p c d b s act k' := by
  refine ⟨h.idleNode, fun n c' hc' halive => ?_⟩
  by_cases hn : n ∈ S
  · exact hS n hn c' hc' halive
  · obtain ⟨c₀, hc₀, hsame⟩ := h.keeps n hn c' hc'
    rw [hsame.alive] at halive
    rw [hsame.userpt]
    exact TableOf.same act c₀ hc₀ halive fun hnp => hprogram (hnp ▸ hn)

theorem Leaves.tabled_all (h : Leaves k k' ∅) (hprogram : k.program (p, act) = none) :
    Tabled k p c d b s act k' :=
  h.tabled (fun _ => hprogram) fun n hn => absurd hn (Set.notMem_empty n)

/-- The process that exits is dead. -/
theorem tabled_exit {k₀ : Kernel Node Addr} {status : ℤ} (h : Leaves k k₀ {p})
    (hrunning : k₀.procs.running = p) (hexit : kernelExit k₀ status = some k') :
    Tabled k p c d b s act k' := by
  obtain ⟨hleaves, hdead⟩ := kernelExit_leaves hexit
  rw [hrunning] at hleaves hdead
  refine (h.trans hleaves).tabled (fun hnot => absurd rfl hnot) fun n hn c' hc' halive => ?_
  rw [Set.mem_singleton_iff.mp hn] at hc'
  rw [hdead c' hc'] at halive
  cases halive

/-- A call that gives its process another page table. -/
theorem tabled_set {k₀ : Kernel Node Addr} {c' : Proc Node Addr} {mem : Memory}
    (h : Leaves k k₀ ∅) (hrunning : k₀.procs.running = p)
    (hself : TableOf k p c d b s p act c'.userpt) :
    Tabled k p c d b s act (k₀.set k₀.procs.running c' mem) := by
  rw [hrunning]
  have hset := (h.mono (Set.empty_subset {p})).trans (leaves_set (n := p) c' mem)
  refine hset.tabled (fun hnot => absurd rfl hnot) fun n hn c'' hc'' _ => ?_
  rw [Set.mem_singleton_iff] at hn
  subst hn
  obtain rfl := Option.some.inj ((set_self _ _).symm.trans hc'')
  exact hself

/-- **`Fork`** copies the page table of the parent for the child. -/
theorem tabled_forked {child : Node} {data : Addr} {pid : ℤ} (hp : k.proc p = some c)
    (halive : c.kin.isSome) (hchild : k.proc child = none) :
    Tabled k p c d b s (.fork child data pid)
      (forked (switchTo k p c) c child data pid) := by
  refine ⟨rfl, fun n c' hc' hlive => ?_⟩
  unfold Yalnix.forked at hc'
  dsimp only at hc'
  rw [switchTo_running, switchTo_proc] at hc'
  rcases eq_or_ne n child with rfl | hnc
  · rw [Function.update_self] at hc'
    obtain rfl := Option.some.inj hc'
    exact TableOf.born data pid _ hchild
  · rw [Function.update_of_ne hnc] at hc'
    rcases eq_or_ne n p with rfl | hnp
    · rw [Function.update_self] at hc'
      obtain rfl := Option.some.inj hc'
      exact TableOf.same _ c hp halive fun _ => rfl
    · rw [Function.update_of_ne hnp] at hc'
      exact TableOf.same _ c' hc' hlive fun heq => absurd heq hnp

/-- **`Exec`** maps the program that was loaded, or leaves the old one. -/
theorem tabled_exec (hp : k.proc p = some c) (halive : c.kin.isSome)
    (hl : Layout c.userpt d b s) (henv : ∀ li, env.info = some li → li.WellFormed)
    (h : k.step (p, .exec filename argvec env) = some k') :
    Tabled k p c d b s (.exec filename argvec env) k' := by
  obtain ⟨r, hr, rfl⟩ := step_exec hp h
  have hc : (switchTo k p c).curr = some c := switchTo_curr hp
  have hleaves : Leaves k (switchTo k p c) ∅ := leaves_switchTo c
  have hprogram : k.program (p, .exec filename argvec env) =
      if r.2 = successCode then env.info else none := by
    unfold Kernel.program
    dsimp only
    rw [hp]
    dsimp only
    rw [hr]
  rcases kernelExec_result hc hr with
    ⟨hcode, l, hload, hsuccess, heq⟩ | ⟨hcode, hrefused⟩
  · obtain ⟨li, free, pt, hinfo, hroom, hnone, hmapped⟩ :=
      loadProgram_mapped hl.outside hload hsuccess
    rw [if_pos hcode, hinfo] at hprogram
    rw [heq]
    exact tabled_set hleaves rfl
      (TableOf.loaded _ li free pt _ l.1 rfl hprogram (henv li hinfo) hroom hnone hmapped)
  · rw [if_neg (by rw [hcode]; decide)] at hprogram
    rcases hrefused with heq | ⟨c', mem, ⟨huser, heq⟩ | hexit⟩
    · rw [heq]
      exact hleaves.tabled_all hprogram
    · rw [heq]
      refine tabled_set hleaves rfl ?_
      rw [huser]
      exact TableOf.same _ c hp halive fun _ => hprogram
    · exact tabled_exit ((hleaves.mono (Set.empty_subset {p})).trans (leaves_set c' mem)) rfl hexit

/-- **Every page table after an activation**, by how it came about. -/
theorem tabled_step (hp : k.proc p = some c) (hl : Layout c.userpt d b s)
    (he : act.InDomain) (h : k.step (p, act) = some k') : Tabled k p c d b s act k' := by
  obtain ⟨c₀, kin, hp₀, hkin, hidle, -, -, heff⟩ := step_effect h
  obtain rfl := Option.some.inj (hp.symm.trans hp₀)
  have halive : c.kin.isSome := by rw [hkin]; rfl
  have hc : (switchTo k p c).curr = some c := switchTo_curr hp
  have hleaves : Leaves k (switchTo k p c) ∅ := leaves_switchTo c
  -- inside `KernelWait` the process has called it, or comes back to it
  have hwait : ∀ {act : ProcAct Node Addr} {statusPtr : ℤ},
      InWait (switchTo k p c) c kin act statusPtr → k.program (p, act) = none := by
    rintro act statusPtr (⟨rfl, -⟩ | ⟨rfl, -⟩) <;> rfl
  cases heff with
  | forkRefused child data pid => exact hleaves.tabled_all rfl
  | forked child data pid _ hchild _ => exact tabled_forked hp halive hchild
  | execRefused => exact tabled_exec hp halive hl he h
  | loaded => exact tabled_exec hp halive hl he h
  | killed => exact tabled_exec hp halive hl he h
  | exited status k' hexit => exact tabled_exit (leaves_switchTo c) rfl hexit
  | waitRefused => exact hleaves.tabled_all rfl
  | asleep _ statusPtr hin =>
    refine ⟨blockWait_idleNode _, fun n c' hc' hlive => ?_⟩
    exact TableOf.same _ c' hc' hlive fun _ => hwait hin
  | collected _ statusPtr child rest childPcb hin =>
    have hcollected : Leaves (switchTo k p c)
        (collected (switchTo k p c) c kin child rest childPcb statusPtr) ∅ :=
      leaves_collected hc hkin
    refine ⟨hcollected.idleNode, fun n c' hc' hlive => ?_⟩
    exact ((hleaves.trans hcollected).tabled_all (hwait hin)).2 n c' hc' hlive
  | brk addr r hr =>
    rcases kernelUserBrk_cases hc hl hr with
      heq | ⟨b', haddr, hdata, ⟨hlo, hhi, -, heq⟩ | ⟨hlo, hhi, heq⟩⟩
    · rw [heq]
      exact hleaves.tabled_all rfl
    · rw [heq]
      exact tabled_set hleaves rfl (TableOf.grown addr b' _ rfl hlo hhi)
    · rw [heq]
      exact tabled_set hleaves rfl (TableOf.shrunk addr b' _ rfl haddr hdata hlo hhi)
  | fault addr k' hk' =>
    rcases trapMemory_cases hc hl hk' with hexit | ⟨s', hlo, hhi, -, heq⟩
    · exact tabled_exit (leaves_switchTo c) rfl hexit
    · rw [heq]
      exact tabled_set hleaves rfl (TableOf.deepened addr s' _ rfl hlo hhi)
  | stored => exact (hleaves.trans (Leaves.of_proc_eq rfl rfl rfl rfl rfl)).tabled_all rfl

/-! ### Which entries it changes -/

/-- **`Exec`** changes the entries `LoadProgram` uses. -/
theorem changesOnly_exec (hp : k.proc p = some c)
    (h : k.step (p, .exec filename argvec env) = some k') {c' : Proc Node Addr} {i : ℤ}
    (hc' : k'.proc p = some c') (halive : c'.kin.isSome)
    (hi : i ∉ ProcAct.pages (switchTo k p c) c (.exec filename argvec env)) :
    c'.userpt.pt i = c.userpt.pt i := by
  obtain ⟨r, hr, rfl⟩ := step_exec hp h
  have hself : ∀ {d : Proc Node Addr} {mem : Memory},
      ((switchTo k p c).set (switchTo k p c).procs.running d mem).proc p = some d := set_self _ _
  rcases kernelExec_result (switchTo_curr hp) hr with
    ⟨-, l, hl, -, heq⟩ | ⟨-, heq | ⟨d, mem, ⟨huser, heq⟩ | hexit⟩⟩
  · have hloaded : l.1.userpt.pt i = c.userpt.pt i := by
      unfold ProcAct.pages at hi
      dsimp only at hi
      rw [← hl]
      exact loadProgram_pages hi
    rw [heq] at hc'
    obtain rfl := Option.some.inj (hself.symm.trans hc')
    exact hloaded
  · rw [heq, switchTo_proc] at hc'
    rw [Option.some.inj (hp.symm.trans hc')]
  · rw [heq] at hc'
    obtain rfl := Option.some.inj (hself.symm.trans hc')
    rw [huser]
  · rw [(kernelExit_leaves hexit).2 c' hc'] at halive
    cases halive

/-- **`Brk`** changes those between the breaks. -/
theorem changesOnly_brk {addr : ℤ} (hp : k.proc p = some c)
    (h : k.step (p, .brk addr) = some k') {c' : Proc Node Addr} {i : ℤ}
    (hc' : k'.proc p = some c') (hi : i ∉ brkPages c.userpt addr) :
    c'.userpt.pt i = c.userpt.pt i := by
  obtain ⟨c₀, kin, hp₀, -, -, -, -, heff⟩ := step_effect h
  obtain rfl := Option.some.inj (hp.symm.trans hp₀)
  cases heff with
  | brk _ r hr =>
    rcases kernelUserBrk_pages (switchTo_curr hp) hr with heq | ⟨free, u, heq, htable⟩
    · rw [heq, switchTo_proc] at hc'
      rw [Option.some.inj (hp.symm.trans hc')]
    · rw [heq] at hc'
      obtain rfl := Option.some.inj ((set_self _ _).symm.trans hc')
      rcases htable with hmap | hunmap
      · exact (congrFun (congrArg Prod.snd hmap) i).trans (mapPages_of_not_mem hi)
      · exact (congrFun (congrArg Prod.snd hunmap) i).trans (unmapPages_of_not_mem hi)
  | asleep _ _ hin => rcases hin with ⟨hact, -⟩ | ⟨hact, -⟩ <;> cases hact
  | collected _ _ _ _ _ hin => rcases hin with ⟨hact, -⟩ | ⟨hact, -⟩ <;> cases hact

/-- **A fault** changes those down to the new bottom of the stack. -/
theorem changesOnly_fault {addr : ℤ} (hp : k.proc p = some c)
    (h : k.step (p, .fault addr) = some k') {c' : Proc Node Addr} {i : ℤ}
    (hc' : k'.proc p = some c') (halive : c'.kin.isSome) (hi : i ∉ faultPages c.userpt addr) :
    c'.userpt.pt i = c.userpt.pt i := by
  obtain ⟨c₀, kin, hp₀, -, -, -, -, heff⟩ := step_effect h
  obtain rfl := Option.some.inj (hp.symm.trans hp₀)
  cases heff with
  | fault _ k' hk' =>
    rcases trapMemory_pages (switchTo_curr hp) hk' with hexit | ⟨free, u, heq, hmap⟩
    · rw [(kernelExit_leaves hexit).2 c' hc'] at halive
      cases halive
    · rw [heq] at hc'
      obtain rfl := Option.some.inj ((set_self _ _).symm.trans hc')
      exact (congrFun (congrArg Prod.snd hmap) i).trans (mapPages_of_not_mem hi)
  | asleep _ _ hin => rcases hin with ⟨hact, -⟩ | ⟨hact, -⟩ <;> cases hact
  | collected _ _ _ _ _ hin => rcases hin with ⟨hact, -⟩ | ⟨hact, -⟩ <;> cases hact

/-- **An activation changes the entries listed for it**, and no others. -/
theorem changesOnly_step (hp : k.proc p = some c) (hl : Layout c.userpt d b s)
    (he : act.InDomain) (h : k.step (p, act) = some k') :
    k.ChangesOnly k' (act.pages (switchTo k p c) c) := by
  intro n c₀ c' hn hc' halive i hi
  have htable := (tabled_step hp hl he h).2 n c' hc' halive
  generalize hu : c'.userpt = u at htable
  cases htable with
  | same _ c₁ hn₁ => rw [Option.some.inj (hn.symm.trans hn₁)]
  | born data pid mem hnone =>
    rw [hn] at hnone
    cases hnone
  | loaded _ li free pt args l hnp hprogram =>
    subst hnp
    obtain rfl := Option.some.inj (hp.symm.trans hn)
    cases act with
    | exec filename argvec env => rw [← hu, changesOnly_exec hp h hc' halive hi]
    | _ => cases hprogram
  | grown addr b' free hnp =>
    subst hnp
    obtain rfl := Option.some.inj (hp.symm.trans hn)
    rw [← hu, changesOnly_brk hp h hc' hi]
  | shrunk addr b' free hnp =>
    subst hnp
    obtain rfl := Option.some.inj (hp.symm.trans hn)
    rw [← hu, changesOnly_brk hp h hc' hi]
  | deepened addr s' free hnp =>
    subst hnp
    obtain rfl := Option.some.inj (hp.symm.trans hn)
    rw [← hu, changesOnly_fault hp h hc' halive fun hin => hi (List.mem_append_left _ hin)]

end Tabled

/-! ## Where the data starts, after an activation -/

/-- Who has the page table it had has its start. -/
theorem Placed.starts_same {act : ProcAct Node Addr} {n : Node} (hn : t.kernel.proc n = some c)
    (hprogram : n = p → t.kernel.program (p, act) = none) :
    t.starts k' (p, act) n = t.start n := by
  have hother : (match t.kernel.program (p, act) with
      | none => t.start
      | some li => Function.update t.start p li.dataPg1) n = t.start n := by
    cases hli : t.kernel.program (p, act) with
    | none => rfl
    | some li =>
      refine Function.update_of_ne (fun hnp => ?_) _ _
      rw [hprogram hnp] at hli
      cases hli
  cases act with
  | fork child data pid =>
    unfold Placed.starts
    dsimp only
    split
    · rename_i hborn
      refine Function.update_of_ne ?_ _ _
      rintro rfl
      rw [hn] at hborn
      exact absurd hborn.1 (by simp)
    · rfl
  | _ => exact hother

/-- **Every activation keeps everybody seated.** -/
theorem placed_step {e : Node × ProcAct Node Addr} (ht : t.Seated) (he : e.2.InDomain)
    (h : t.step e = some t') : t'.Seated := by
  obtain ⟨k', hk', rfl⟩ := Option.map_eq_some_iff.mp h
  obtain ⟨p, act⟩ := e
  obtain ⟨c, kin, hp, hkin, hidle, -⟩ := step_effect hk'
  obtain ⟨d, b, s, hseat⟩ := ht p c hp (by rw [hkin]; rfl) hidle
  obtain ⟨hidleNode, htables⟩ := tabled_step hp hseat.toLayout he hk'
  -- only a fork and an exec say where somebody's data starts
  intro n c' hc' halive hn
  dsimp only at hc' hn ⊢
  rw [hidleNode] at hn
  have htable := htables n c' hc' halive
  generalize c'.userpt = u at htable
  cases htable with
  | same _ c₀ hn₀ halive₀ hprogram =>
    rw [Placed.starts_same hn₀ hprogram]
    exact ht n c₀ hn₀ halive₀ hn
  | born data pid mem hn₀ =>
    have hstart : t.starts k' (p, .fork n data pid) n = t.start p := by
      unfold Placed.starts
      dsimp only
      rw [hn₀, hc', if_pos ⟨rfl, rfl⟩, Function.update_self]
    rw [hstart]
    exact ⟨d, b, s, hseat.copy mem⟩
  | loaded _ li free pt args l hnp hprogram hli hroom hpt hmapped =>
    subst hnp
    have hstart : t.starts k' (n, act) n = li.dataPg1 := by
      cases act with
      | exec filename argvec env =>
        unfold Placed.starts
        dsimp only
        rw [hprogram]
        exact Function.update_self _ _ _
      | _ => cases hprogram
    rw [hstart]
    exact ⟨_, _, _, hmapped.seated hli hroom hpt⟩
  | grown addr b' free hnp hlo hhi =>
    subst hnp
    exact ⟨d, b', s, hseat.growHeap hlo.le hhi free⟩
  | shrunk addr b' free hnp haddr hdata hlo hhi =>
    subst hnp
    exact ⟨d, b', s, hseat.shrinkHeap hlo hhi free⟩
  | deepened addr s' free hnp hlo hhi =>
    subst hnp
    exact ⟨d, b, s', hseat.growStack hlo hhi free⟩

end Step

/-! ## Every run -/

/-- **After `KernelStart` init is seated**, and nobody else runs a program. -/
theorem kernelStart_seated {b : Boot Node Addr} {k : Kernel Node Addr}
    (hb : kernelStart b = some k) (henv : ∀ li, b.env.info = some li → li.WellFormed) :
    Placed.Seated ⟨k, fun _ => (b.env.info.map LoadInfo.dataPg1).getD 0⟩ := by
  intro n c hc _ hn
  obtain ⟨r, hr, hcode, -, huser, -⟩ := kernelStart_init hb hc hn
  obtain ⟨li, d, br, s, hinfo, hseat⟩ := seated_loadProgram (fun _ _ => rfl) henv hr hcode
  dsimp only
  rw [huser, hinfo]
  exact ⟨d, br, s, hseat⟩

/-- **Heap and stack never meet**, in any process and any run of well-formed
programs, and no page table is used outside region 1. -/
theorem heap_below_stack {b : Boot Node Addr} {k : Kernel Node Addr}
    {es : List (Node × ProcAct Node Addr)} (hb : kernelStart b = some k)
    (henv : ∀ li, b.env.info = some li → li.WellFormed) (hes : ∀ e ∈ es, e.2.InDomain) :
    Run.Throughout Placed.step Placed.Apart
      ⟨k, fun _ => (b.env.info.map LoadInfo.dataPg1).getD 0⟩ es ∧
    Run.Along Placed.step Placed.Inside
      ⟨k, fun _ => (b.env.info.map LoadInfo.dataPg1).getD 0⟩ es := by
  have hall : Run.Throughout Placed.step Placed.Seated
      ⟨k, fun _ => (b.env.info.map LoadInfo.dataPg1).getD 0⟩ es :=
    Run.throughout_of_step (fun t e he t' ht h => placed_step ht (hes e he) h)
      (kernelStart_seated hb henv)
  refine ⟨hall.mono fun t ht n c hc halive hn => ?_, hall.along fun t e he ht c hc halive hn => ?_⟩
  · obtain ⟨d, br, s, hseat⟩ := ht n c hc halive hn
    exact hseat.apart
  · obtain ⟨d, br, s, hseat⟩ := ht e.1 c hc halive hn
    exact ⟨fun i hi => hseat.pages_inside (hes e he) hi,
      fun k' h => changesOnly_step hc hseat.toLayout (hes e he) h⟩

omit [Paging] in
/-- Init moves its break, forks, and the child's stack grows. -/
theorem heap_below_stack_forked :
    let _ := yalnixPaging
    let es : List (ℕ × ProcAct ℕ ℕ) :=
      [(0, .brk 0x104000), (0, .fork 2 2 2), (2, .fault 0x1f0000)]
    ∃ k t, kernelStart (smallBoot 140) = some k ∧
      Run.exec Placed.step ⟨k, fun _ => 0⟩ es = some t ∧
      (t.kernel.proc 2).map (fun c => c.kin.isSome) = some true ∧
      Run.Throughout Placed.step Placed.Apart ⟨k, fun _ => 0⟩ es ∧
      Run.Along Placed.step Placed.Inside ⟨k, fun _ => 0⟩ es := by
  let _ := yalnixPaging
  intro _ es
  have hruns : ((kernelStart (smallBoot 140)).bind fun k =>
      (Run.exec Placed.step ⟨k, fun _ => 0⟩ es).map fun t =>
        (t.kernel.proc 2).map fun c => c.kin.isSome) = some (some true) := by
    decide +kernel
  obtain ⟨k, hk, hruns⟩ := Option.bind_eq_some_iff.mp hruns
  obtain ⟨t, ht, halive⟩ := Option.map_eq_some_iff.mp hruns
  exact ⟨k, t, hk, ht, halive,
    heap_below_stack hk onePage_wellFormed (by simp [es, ProcAct.InDomain])⟩

end Yalnix
