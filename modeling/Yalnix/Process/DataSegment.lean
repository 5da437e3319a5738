import Yalnix.Process.Bounds
/-!
# The data segment of a program

`LoadProgram` sets `data_end` to the base of the last data page, where
`KernelUserBrk` takes it for the end of the segment: its test lets through
the addresses in that page, and at the base of the page the page is given
back. `keeps_data_iff` says for which calls of `Brk` the data segment stays,
in any run.

`WithData` keeps beside the kernel what the segment of each process is: its
pages, and the frames they were mapped to when the program was loaded or the
process was born.
-/

namespace Yalnix

open Paging

variable {Node Addr : Type} [Paging]

/-! ## One process -/

omit [Paging] in
/-- The data and bss pages of a program, and the frames they are in. -/
structure DataSegment where
  dataPg1 : ℤ
  dataNpg : ℤ
  pfn : ℤ → ℤ

/-- Where the segment ends. -/
def DataSegment.lim (seg : DataSegment) : ℤ := (basePage1 + seg.dataPg1 + seg.dataNpg) * pageSize

/-- The base of its last page. -/
theorem DataSegment.lim_sub (seg : DataSegment) :
    seg.lim - pageSize = (basePage1 + (seg.dataPg1 + seg.dataNpg - 1)) * pageSize := by
  have hlast : basePage1 + (seg.dataPg1 + seg.dataNpg - 1) =
      basePage1 + seg.dataPg1 + seg.dataNpg - 1 := by omega
  rw [hlast, Int.sub_mul, Int.one_mul, lim]

/-- The segment of so many pages from a page on, as a page table has it. -/
def UserPt.dataSegment (u : UserPt) (dataPg1 dataNpg : ℤ) : DataSegment where
  dataPg1 := dataPg1
  dataNpg := dataNpg
  pfn := fun i => (u.pt i).pfn

/-- **The segment is all there**, in its own frames. -/
def UserPt.Keeps (u : UserPt) (seg : DataSegment) : Prop :=
  ∀ i, seg.dataPg1 ≤ i → i < seg.dataPg1 + seg.dataNpg →
    (u.pt i).valid = true ∧ (u.pt i).pfn = seg.pfn i

/-- A layout with its break past the data segment. -/
structure Holds (u : UserPt) (seg : DataSegment) (b s : ℤ) : Prop
    extends Seated u seg.dataPg1 (seg.dataPg1 + seg.dataNpg - 1) b s where
  whole : seg.dataPg1 + seg.dataNpg ≤ b
  frames : ∀ i, seg.dataPg1 ≤ i → i < seg.dataPg1 + seg.dataNpg → (u.pt i).pfn = seg.pfn i

namespace Holds

variable {u : UserPt} {seg : DataSegment} {b s : ℤ}

theorem keeps (h : Holds u seg b s) : u.Keeps seg := by
  intro i hlo hhi
  refine ⟨?_, h.frames i hlo hhi⟩
  by_cases hlast : i < seg.dataPg1 + seg.dataNpg - 1
  · exact h.data i hlo hlast
  · have := h.whole
    exact h.heap i (by omega) (by omega)

theorem growHeap (h : Holds u seg b s) {b' : ℤ} (hb : b ≤ b') (hb' : b' < s) (free : FreeFrame) :
    Holds (Yalnix.growHeap free u b b').2 seg b' s where
  toSeated := h.toSeated.growHeap hb hb' free
  whole := h.whole.trans hb
  frames i hlo hhi := by
    have := h.whole
    rw [growHeap_pt, mapPages_of_not_mem (by rw [mem_pages]; omega)]
    exact h.frames i hlo hhi

theorem shrinkHeap (h : Holds u seg b s) {b' : ℤ} (hwhole : seg.dataPg1 + seg.dataNpg ≤ b')
    (hb : b' ≤ b) (free : FreeFrame) : Holds (Yalnix.shrinkHeap free u b b').2 seg b' s where
  toSeated := h.toSeated.shrinkHeap (by omega) hb free
  whole := hwhole
  frames i hlo hhi := by
    rw [shrinkHeap_pt, unmapPages_of_not_mem (by rw [List.mem_reverse, mem_pages]; omega)]
    exact h.frames i hlo hhi

theorem growStack (h : Holds u seg b s) {s' : ℤ} (hb : b < s') (hs : s' ≤ s)
    (free : FreeFrame) : Holds (Yalnix.growStack free u s s').2 seg b s' where
  toSeated := h.toSeated.growStack hb hs free
  whole := h.whole
  frames i hlo hhi := by
    have := h.whole
    rw [growStack_pt, mapPages_of_not_mem (by rw [List.mem_reverse, mem_pages]; omega)]
    exact h.frames i hlo hhi

/-- A copy has frames of its own. -/
theorem copy (h : Holds u seg b s) (mem : Memory) :
    Holds (copyUserMem mem u newUserPt).2
      ((copyUserMem mem u newUserPt).2.dataSegment seg.dataPg1 seg.dataNpg) b s where
  toSeated := h.toSeated.copy mem
  whole := h.whole
  frames _ _ _ := rfl

end Holds

theorem Mapped.holds {free : FreeFrame} {pt : ℤ → Pte} {li : LoadInfo} {args : List (List Byte)}
    {l : Loaded} (h : Mapped free pt li args l) (hli : li.WellFormed)
    (hroom : stackNpg args + li.dataPg1 + li.dataNpg < maxPtLen)
    (hpt : ∀ i, (pt i).valid = false) :
    Holds l.userpt (l.userpt.dataSegment li.dataPg1 li.dataNpg) (li.dataPg1 + li.dataNpg)
      (numPages1 - stackNpg args) where
  toSeated := h.seated hli hroom hpt
  whole := le_rfl
  frames _ _ _ := rfl

section Brk

variable [DecidableEq Node] {k : Kernel Node Addr} {c : Proc Node Addr} {d b s addr : ℤ}

/-- **Below the end of the page `d`**, which is in use, `KernelUserBrk`
refuses what is below the page, and nothing else. -/
theorem kernelUserBrk_below (hc : k.curr = some c) (hl : Layout c.userpt d b s) (hdb : d < b)
    (haddr : addr < (basePage1 + d + 1) * pageSize) :
    kernelUserBrk k addr = some (k, errorCode) ↔ addr < (basePage1 + d) * pageSize := by
  obtain ⟨b', hup, -, heq⟩ := kernelUserBrk_eq hc hl addr
  rw [heq, hl.stackLow_eq, hl.dataEnd_eq, upToPage_mul, downToPage_mul]
  constructor
  · intro hrefused
    by_contra hdata
    -- the stack is two pages up, so the test lets the address through
    have hstack : (basePage1 + d + 1) * pageSize ≤ (basePage1 + s) * pageSize - pageSize := by
      have hmul := (mul_le_mul_iff (basePage1 + d + 1) (basePage1 + s - 1)).mpr
        (by have := hl.b_lt; omega)
      rwa [Int.sub_mul, Int.one_mul] at hmul
    -- and the break does not go up
    have hle : b' ≤ b := by
      have hpage : upToPage addr ≤ (basePage1 + d + 1) * pageSize := by
        rw [upToPage, mul_le_mul_iff, ediv_up_le_iff]
        exact haddr.le
      rw [hup, mul_le_mul_iff] at hpage
      omega
    rw [if_neg (by omega), if_neg (not_lt.mpr hle)] at hrefused
    have hcode := congrArg Prod.snd (Option.some.inj hrefused)
    exact absurd hcode successCode_ne_errorCode
  · intro hbelow
    rw [if_pos (Or.inr hbelow)]

end Brk

/-! ## All of them -/

omit [Paging] in
/-- The kernel, and the data segment of each process's program. -/
structure WithData (Node Addr : Type) where
  kernel : Kernel Node Addr
  data : Node → DataSegment

variable [DecidableEq Node] [DecidableEq Addr]

/-- A program brings its own, and a child has a copy of its parent's. -/
def WithData.segments (t : WithData Node Addr) (k' : Kernel Node Addr) :
    Node × ProcAct Node Addr → Node → DataSegment
  | (p, .fork child _ _) =>
    match t.kernel.proc child, k'.proc child with
    | none, some c => Function.update t.data child
        (c.userpt.dataSegment (t.data p).dataPg1 (t.data p).dataNpg)
    | _, _ => t.data
  | e =>
    match t.kernel.program e, k'.proc e.1 with
    | some li, some c => Function.update t.data e.1 (c.userpt.dataSegment li.dataPg1 li.dataNpg)
    | _, _ => t.data

/-- One activation. -/
def WithData.step (t : WithData Node Addr) (e : Node × ProcAct Node Addr) :
    Option (WithData Node Addr) :=
  (t.kernel.step e).map fun k' => ⟨k', t.segments k' e⟩

/-- What `KernelStart` leaves, with the segment of init. -/
def WithData.start (b : Boot Node Addr) (k : Kernel Node Addr) : WithData Node Addr where
  kernel := k
  data := fun n =>
    match b.env.info, k.proc n with
    | some li, some c => c.userpt.dataSegment li.dataPg1 li.dataNpg
    | _, _ => ⟨0, 0, fun _ => 0⟩

/-- **Every process that lives keeps its data segment**, idle apart, which
runs no program. -/
def WithData.Kept (t : WithData Node Addr) : Prop :=
  ∀ n c, t.kernel.proc n = some c → c.kin.isSome → n ≠ t.kernel.procs.idleNode →
    c.userpt.Keeps (t.data n)

/-- **A `Brk` below the end of the data segment** returns `ERROR` and changes
nothing. -/
def WithData.Refuses (t : WithData Node Addr) : Node × ProcAct Node Addr → Prop
  | (p, .brk addr) => ∀ c, t.kernel.proc p = some c → addr < (t.data p).lim →
      kernelUserBrk (switchTo t.kernel p c) addr = some (switchTo t.kernel p c, errorCode)
  | _ => True

/-- **No `Brk` with an address in the last page of the data segment.** -/
def WithData.Spares (t : WithData Node Addr) : Node × ProcAct Node Addr → Prop
  | (p, .brk addr) => ¬ ((t.data p).lim - pageSize ≤ addr ∧ addr < (t.data p).lim)
  | _ => True

/-- Whether it has can be looked up. -/
instance WithData.decidableSpares (t : WithData Node Addr) : ∀ e, Decidable (t.Spares e)
  | (p, .brk addr) =>
    inferInstanceAs (Decidable ¬ ((t.data p).lim - pageSize ≤ addr ∧ addr < (t.data p).lim))
  | (_, .fork _ _ _) | (_, .exec _ _ _) | (_, .exit _) | (_, .wait _) | (_, .fault _)
  | (_, .store _ _) | (_, .resume) => isTrue trivial

/-- Every process that lives holds its segment, idle apart. -/
def WithData.Held (t : WithData Node Addr) : Prop :=
  ∀ n c, t.kernel.proc n = some c → c.kin.isSome → n ≠ t.kernel.procs.idleNode →
    ∃ b s, Holds c.userpt (t.data n) b s

section Step

variable {t t' : WithData Node Addr} {k' : Kernel Node Addr} {p n : Node} {c c' : Proc Node Addr}
  {act : ProcAct Node Addr} {li : LoadInfo}

/-! ## The segments after an activation -/

/-- Who has the page table it had has its segment. -/
theorem WithData.segments_same (hn : t.kernel.proc n = some c)
    (hprogram : n = p → t.kernel.program (p, act) = none) :
    t.segments k' (p, act) n = t.data n := by
  have hother : (match t.kernel.program (p, act), k'.proc p with
      | some li, some c => Function.update t.data p (c.userpt.dataSegment li.dataPg1 li.dataNpg)
      | _, _ => t.data) n = t.data n := by
    cases hli : t.kernel.program (p, act) with
    | none => rfl
    | some li =>
      cases hc' : k'.proc p with
      | none => rfl
      | some c' =>
        refine Function.update_of_ne (fun hnp => ?_) _ _
        rw [hprogram hnp] at hli
        cases hli
  cases act with
  | fork child data pid =>
    unfold WithData.segments
    dsimp only
    cases hnone : t.kernel.proc child with
    | some c₀ => rfl
    | none =>
      cases hc' : k'.proc child with
      | none => rfl
      | some c' =>
        refine Function.update_of_ne ?_ _ _
        rintro rfl
        rw [hn] at hnone
        cases hnone
  | _ => exact hother

/-- A child has its parent's pages, in its own frames. -/
theorem WithData.segments_born {data : Addr} {pid : ℤ} (hn : t.kernel.proc n = none)
    (hc' : k'.proc n = some c') : t.segments k' (p, .fork n data pid) n =
      c'.userpt.dataSegment (t.data p).dataPg1 (t.data p).dataNpg := by
  unfold WithData.segments
  dsimp only
  rw [hn, hc']
  exact Function.update_self _ _ _

/-- A program brings its own. -/
theorem WithData.segments_loaded (hprogram : t.kernel.program (p, act) = some li)
    (hc' : k'.proc p = some c') : t.segments k' (p, act) p =
      c'.userpt.dataSegment li.dataPg1 li.dataNpg := by
  cases act with
  | exec filename argvec env =>
    unfold WithData.segments
    dsimp only
    rw [hprogram, hc']
    exact Function.update_self _ _ _
  | _ => cases hprogram

/-- **An activation that spares the data segment** leaves everybody's where
it is. -/
theorem held_step {e : Node × ProcAct Node Addr} (ht : t.Held) (he : e.2.InDomain)
    (hspares : t.Spares e) (h : t.step e = some t') : t'.Held := by
  obtain ⟨k', hk', rfl⟩ := Option.map_eq_some_iff.mp h
  obtain ⟨p, act⟩ := e
  obtain ⟨c, kin, hp, hkin, hidle, -⟩ := step_effect hk'
  obtain ⟨b, s, hholds⟩ := ht p c hp (by rw [hkin]; rfl) hidle
  obtain ⟨hidleNode, htables⟩ := tabled_step hp hholds.toLayout he hk'
  intro n c' hc' halive hn
  dsimp only at hc' hn ⊢
  rw [hidleNode] at hn
  have htable := htables n c' hc' halive
  -- a process whose own table was moved has the segment it had
  have hsame : n = p → t.kernel.program (p, act) = none →
      t.segments k' (p, act) n = t.data p := by
    rintro rfl hprogram
    exact WithData.segments_same hp fun _ => hprogram
  obtain ⟨u, hu⟩ : ∃ u, u = c'.userpt := ⟨_, rfl⟩
  rw [← hu] at htable ⊢
  cases htable with
  | same _ c₀ hn₀ halive₀ hprogram =>
    rw [WithData.segments_same hn₀ hprogram]
    exact ht n c₀ hn₀ halive₀ hn
  | born data pid mem hn₀ =>
    rw [WithData.segments_born hn₀ hc', ← hu]
    exact ⟨b, s, hholds.copy mem⟩
  | loaded _ li free pt args l hnp hprogram hli hroom hpt hmapped =>
    subst hnp
    rw [WithData.segments_loaded hprogram hc', ← hu]
    exact ⟨_, _, hmapped.holds hli hroom hpt⟩
  | grown addr b' free hnp hlo hhi =>
    rw [hsame hnp rfl]
    exact ⟨b', s, hholds.growHeap hlo.le hhi free⟩
  | shrunk addr b' free hnp haddr hdata hlo hhi =>
    rw [hsame hnp rfl]
    refine ⟨b', s, hholds.shrinkHeap ?_ hhi free⟩
    -- the break would have to come to the base of the last page
    by_contra hlast
    obtain rfl : b' = (t.data p).dataPg1 + (t.data p).dataNpg - 1 := by omega
    refine hspares ⟨by rwa [DataSegment.lim_sub], ?_⟩
    have hle : addr ≤ upToPage addr := (ediv_up_le_iff addr _).mp le_rfl
    rw [haddr, ← DataSegment.lim_sub] at hle
    have hps := pageSize_pos
    omega
  | deepened addr s' free hnp hlo hhi =>
    rw [hsame hnp rfl]
    exact ⟨b, s', hholds.growStack hlo hhi free⟩

/-- **`Brk` refuses what is below the end of the segment** exactly where the
address spares the last page. -/
theorem refuses_iff {e : Node × ProcAct Node Addr} (ht : t.Held) (h : t.step e = some t') :
    t.Refuses e ↔ t.Spares e := by
  obtain ⟨k', hk', -⟩ := Option.map_eq_some_iff.mp h
  obtain ⟨p, act⟩ := e
  obtain ⟨c, kin, hp, hkin, hidle, -⟩ := step_effect hk'
  obtain ⟨b, s, hholds⟩ := ht p c hp (by rw [hkin]; rfl) hidle
  cases act with
  | brk addr =>
    have hlim : (basePage1 + ((t.data p).dataPg1 + (t.data p).dataNpg - 1) + 1) * pageSize =
        (t.data p).lim := by
      unfold DataSegment.lim
      congr 1
      omega
    have hwhole := hholds.whole
    have hbelow := fun haddr => kernelUserBrk_below (switchTo_curr hp) hholds.toLayout (by omega)
      (show addr < _ from haddr)
    rw [hlim, ← DataSegment.lim_sub] at hbelow
    constructor
    · rintro hrefuses ⟨hlo, hhi⟩
      have := (hbelow hhi).mp (hrefuses c hp hhi)
      omega
    · intro hspares c' hc' hhi
      obtain rfl := Option.some.inj (hp.symm.trans hc')
      refine (hbelow hhi).mpr (not_le.mp fun hlo => hspares ⟨hlo, hhi⟩)
  | _ => exact Iff.rfl

end Step

/-! ## Every run -/

/-- **After `KernelStart`** init holds its segment. -/
theorem kernelStart_held {b : Boot Node Addr} {k : Kernel Node Addr} (hb : kernelStart b = some k)
    (henv : ∀ li, b.env.info = some li → li.WellFormed) : (WithData.start b k).Held := by
  intro n c hc _ hn
  obtain ⟨r, hr, hcode, -, huser, -⟩ := kernelStart_init hb hc hn
  obtain ⟨li, free, pt, hinfo, hroom, hnone, hmapped⟩ :=
    loadProgram_mapped (fun _ _ => rfl) hr hcode
  unfold WithData.start at hc ⊢
  dsimp only at hc ⊢
  rw [hinfo, hc]
  dsimp only
  rw [huser]
  exact ⟨_, _, hmapped.holds (henv li hinfo) hroom hnone⟩

/-- **When the data segment is safe**: in every run of well-formed programs,
every process keeps the pages of its data segment in their frames and every
`Brk` below the end of the segment is refused, exactly if no `Brk` of the run
has an address in the last page of its caller's segment. -/
theorem keeps_data_iff {b : Boot Node Addr} {k : Kernel Node Addr}
    {es : List (Node × ProcAct Node Addr)} (hb : kernelStart b = some k)
    (henv : ∀ li, b.env.info = some li → li.WellFormed) (hes : ∀ e ∈ es, e.2.InDomain) :
    Run.Throughout WithData.step WithData.Kept (WithData.start b k) es ∧
      Run.Along WithData.step WithData.Refuses (WithData.start b k) es ↔
    Run.Along WithData.step WithData.Spares (WithData.start b k) es := by
  have hstart := kernelStart_held hb henv
  have hkeep : ∀ (t : WithData Node Addr) (e : Node × ProcAct Node Addr) t', t.Held →
      e.2.InDomain → t.Spares e → t.step e = some t' → t'.Held :=
    fun t e t' ht he hspares h => held_step ht he hspares h
  have hrefuses := Run.along_congr_of_keep
    (D := fun e : Node × ProcAct Node Addr => e.2.InDomain) hkeep
    (fun t e t' ht _ h => refuses_iff ht h) hes hstart
  rw [hrefuses]
  refine and_iff_right_of_imp fun hspares => ?_
  have hheld := Run.throughout_of_along (D := fun e => e.2.InDomain) hkeep hes hstart hspares
  refine hheld.mono fun t ht n c hc halive hn => ?_
  obtain ⟨b', s, hholds⟩ := ht n c hc halive hn
  exact hholds.keeps

omit [Paging] in
/-- Init moves its break up and back to the end of its data, forks, and the
child does the same. -/
theorem keeps_data_iff_forked :
    let _ := yalnixPaging
    let es : List (ℕ × ProcAct ℕ ℕ) :=
      [(0, .brk 0x104000), (0, .brk 0x102000), (0, .fork 2 2 2), (2, .brk 0x106000)]
    ∃ k t, kernelStart (smallBoot 140) = some k ∧
      Run.exec WithData.step (WithData.start (smallBoot 140) k) es = some t ∧
      Run.Along WithData.step WithData.Spares (WithData.start (smallBoot 140) k) es ∧
      Run.Throughout WithData.step WithData.Kept (WithData.start (smallBoot 140) k) es ∧
      Run.Along WithData.step WithData.Refuses (WithData.start (smallBoot 140) k) es := by
  let _ := yalnixPaging
  intro _ es
  have hruns : ((kernelStart (smallBoot 140)).bind fun k =>
      (Run.exec WithData.step (WithData.start (smallBoot 140) k) es).map fun _ =>
        decide (Run.Along WithData.step WithData.Spares (WithData.start (smallBoot 140) k) es)) =
      some true := by
    decide +kernel
  obtain ⟨k, hk, hruns⟩ := Option.bind_eq_some_iff.mp hruns
  obtain ⟨t, ht, hdec⟩ := Option.map_eq_some_iff.mp hruns
  have hspares : Run.Along WithData.step WithData.Spares (WithData.start (smallBoot 140) k) es :=
    of_decide_eq_true hdec
  exact ⟨k, t, hk, ht, hspares,
    (keeps_data_iff hk onePage_wellFormed (by simp [es, ProcAct.InDomain])).mpr hspares⟩

omit [Paging] in
/-- **The data segment is not safe**: init moves its break to the base of its
one page of data. The call succeeds, and the page is gone. -/
theorem not_keeps_data :
    let _ := yalnixPaging
    ∃ k, kernelStart (smallBoot 140) = some k ∧
      (∀ li, (smallBoot 140).env.info = some li → li.WellFormed) ∧
      ¬ Run.Throughout WithData.step WithData.Kept (WithData.start (smallBoot 140) k)
        [(0, .brk 0x100000)] ∧
      ¬ Run.Along WithData.step WithData.Refuses (WithData.start (smallBoot 140) k)
        [(0, .brk 0x100000)] := by
  let _ := yalnixPaging
  -- the break back at the start of region 1: accepted, and the data page is unmapped
  have hrun : ((kernelStart (smallBoot 140)).bind fun k => (k.proc 0).bind fun c =>
      (WithData.step (WithData.start (smallBoot 140) k) (0, .brk 0x100000)).bind fun t =>
        (t.kernel.proc 0).map fun c' =>
          ((((WithData.start (smallBoot 140) k).data 0).lim,
            (kernelUserBrk (switchTo k 0 c) 0x100000).map Prod.snd),
            (c'.kin.isSome, t.kernel.procs.idleNode),
            (t.data 0).dataPg1, (t.data 0).dataNpg, (c'.userpt.pt 0).valid)) =
      some ((0x102000, some successCode), (true, 1), 0, 1, false) := by
    decide +kernel
  obtain ⟨k, hk, hrun⟩ := Option.bind_eq_some_iff.mp hrun
  obtain ⟨c, hc, hrun⟩ := Option.bind_eq_some_iff.mp hrun
  obtain ⟨t, ht, hrun⟩ := Option.bind_eq_some_iff.mp hrun
  obtain ⟨c', hc', hrun⟩ := Option.map_eq_some_iff.mp hrun
  simp only [Prod.mk.injEq] at hrun
  obtain ⟨⟨hlim, hcode⟩, ⟨halive, hidle⟩, hpg1, hnpg, hgone⟩ := hrun
  refine ⟨k, hk, onePage_wellFormed, fun hkept => ?_, fun hrefuses => ?_⟩
  · have hafter := ((Run.throughout_cons ht).mp hkept).2.start
    have hpage := (hafter 0 c' hc' halive (by rw [hidle]; decide) 0 (by omega) (by omega)).1
    rw [hgone] at hpage
    cases hpage
  · have hrefused : kernelUserBrk (switchTo k 0 c) 0x100000 = some (switchTo k 0 c, errorCode) :=
      ((Run.along_cons ht).mp hrefuses).1 c hc (by rw [hlim]; decide)
    rw [hrefused] at hcode
    exact absurd (Option.some.inj hcode) successCode_ne_errorCode.symm

end Yalnix
