import Yalnix.Memory.Arguments
import Yalnix.Memory.Copy
/-!
# What a store reaches

The kernel stores through page tables, and takes frames that were free. So
the bytes in a frame that is neither free nor mapped by the table it works on
are the same after `LoadProgram`, after the two loops that copy pages, and
after any row of bytes stored to mapped pages.
-/

namespace Yalnix

variable [Paging]

open Paging

variable {mem mem' mem'' : Memory} {pt : ℤ → Pte} {kept : Set ℤ} {addr lo hi x : ℤ}
  {bytes : List Byte}

/-- **The frames of the set have the bytes they had.** -/
def SameOn (kept : Set ℤ) (mem mem' : Memory) : Prop := ∀ x ∈ kept, mem'.pmem x = mem.pmem x

omit [Paging] in
theorem SameOn.refl (kept : Set ℤ) (mem : Memory) : SameOn kept mem mem := fun _ _ => rfl

omit [Paging] in
theorem SameOn.trans (h : SameOn kept mem mem') (h' : SameOn kept mem' mem'') :
    SameOn kept mem mem'' := fun x hx => (h' x hx).trans (h x hx)

omit [Paging] in
theorem SameOn.mono {kept' : Set ℤ} (h : SameOn kept mem mem') (hsub : kept' ⊆ kept) :
    SameOn kept' mem mem' := fun x hx => h x (hsub hx)

/-- No page the table maps has one of these frames. -/
def Avoids (pt : ℤ → Pte) (kept : Set ℤ) : Prop := ∀ a, mapped pt a → (pteAt pt a).pfn ∉ kept

/-- Every address of the range is mapped. -/
def MappedTo (pt : ℤ → Pte) (lo hi : ℤ) : Prop := ∀ a, lo ≤ a → a < hi → mapped pt a

/-- The address of a valid page of region 1 is mapped. -/
theorem mapped_of_index (hi : addr / pageSize - basePage1 ∈ pages 0 numPages1)
    (hv : (pt (addr / pageSize - basePage1)).valid = true) : mapped pt addr := by
  rw [mem_pages] at hi
  unfold numPages1 at hi
  refine ⟨(le_ediv_iff addr basePage1).mp (by omega), ?_, hv⟩
  exact (Int.ediv_lt_iff_lt_mul pageSize_pos).mp (by omega)

theorem Held.avoids {free : FreeFrame} (h : Held free pt kept) : Avoids pt kept :=
  fun _ ha => h.apart _ ha.2.2

theorem Avoids.congr {pt' : ℤ → Pte} (h : Avoids pt kept)
    (heq : ∀ i, (pt' i).valid = (pt i).valid ∧ (pt' i).pfn = (pt i).pfn) : Avoids pt' kept := by
  intro a ⟨hlo, hhi, hv⟩ hin
  refine h a ⟨hlo, hhi, (heq _).1.symm.trans hv⟩ ?_
  rwa [← show (pteAt pt' a).pfn = (pteAt pt a).pfn from (heq _).2]

theorem MappedTo.congr {pt' : ℤ → Pte} (h : MappedTo pt lo hi)
    (heq : ∀ i, (pt' i).valid = (pt i).valid ∧ (pt' i).pfn = (pt i).pfn) : MappedTo pt' lo hi := by
  intro a hlo hhi
  obtain ⟨hbase, hlim, hv⟩ := h a hlo hhi
  exact ⟨hbase, hlim, (heq _).1.trans hv⟩

theorem MappedTo.mono {lo' hi' : ℤ} (h : MappedTo pt lo hi) (hlo : lo ≤ lo') (hhi : hi' ≤ hi) :
    MappedTo pt lo' hi' := fun a hla hah => h a (hlo.trans hla) (lt_of_lt_of_le hah hhi)

/-! ## Rows of bytes -/

theorem sameOn_storeByte (havoids : Avoids pt kept) (ha : mapped pt addr) (byte : Byte) :
    SameOn kept mem (storeByte pt mem addr byte) := by
  intro x hx
  refine Function.update_of_ne ?_ _ _
  rintro rfl
  exact havoids addr ha hx

theorem sameOn_storeBytes (havoids : Avoids pt kept) (hin : MappedTo pt lo hi) (hlo : lo ≤ addr)
    (hhi : addr + bytes.length ≤ hi) : SameOn kept mem (storeBytes pt bytes mem addr) := by
  induction bytes generalizing mem addr with
  | nil => exact SameOn.refl kept mem
  | cons byte bytes ih =>
    rw [List.length_cons] at hhi
    push_cast at hhi
    rw [storeBytes]
    exact (sameOn_storeByte havoids (hin addr hlo (by omega)) byte).trans
      (ih (by omega) (by omega))

/-- The loop of `LoadProgram` that sets `argv` and copies the strings. -/
theorem sameOn_storeArgs {args : List (List Byte)} {cpp cp : ℤ} (havoids : Avoids pt kept)
    (hin : MappedTo pt lo hi) (hcpp : lo ≤ cpp) (hcpp' : cpp + 4 * args.length ≤ hi)
    (hcp : lo ≤ cp) (hcp' : cp + argSize args ≤ hi) :
    SameOn kept mem (storeArgs pt args mem cpp cp).1 := by
  induction args generalizing mem cpp cp with
  | nil => exact SameOn.refl kept mem
  | cons arg args ih =>
    have hword := length_wordBytes cp
    have hsize : argSize (arg :: args) = arg.length + 1 + argSize args := by
      unfold argSize
      rw [List.map_cons, List.sum_cons]
    have hrest := argSize_nonneg args
    rw [List.length_cons] at hcpp'
    push_cast at hcpp'
    rw [storeArgs]
    refine ((sameOn_storeBytes havoids hin hcpp (by omega)).trans
      (sameOn_storeBytes havoids hin hcp ?_)).trans (ih (by omega) (by omega) (by omega) (by omega))
    rw [List.length_append, List.length_singleton]
    push_cast
    omega

/-- The argument list, on the new stack. -/
theorem sameOn_buildArgs {args : List (List Byte)} (havoids : Avoids pt kept)
    (hin : MappedTo pt (argCpp args) vmem1Limit) : SameOn kept mem (buildArgs pt mem args) := by
  have hwords := argCpp_add_le args
  have hstrings := argCp_add_argSize args
  have hsize := argSize_nonneg args
  have hword := length_wordBytes args.length
  have hnull := length_wordBytes 0
  unfold buildArgs
  dsimp only
  rw [storeArgs_cpp]
  -- zeros to the top, then `argc`, then the pointers with their strings, then two NULLs
  refine ((((sameOn_storeBytes havoids hin le_rfl ?_).trans
    (sameOn_storeBytes havoids hin le_rfl (by omega))).trans
    (sameOn_storeArgs havoids hin (by omega) (by omega) (by omega) (by omega))).trans
    (sameOn_storeBytes havoids hin (by omega) (by omega))).trans
    (sameOn_storeBytes havoids hin (by omega) (by omega))
  rw [List.length_replicate]
  omega

/-! ## Copying pages -/

theorem sameOn_copyKstack {kstack : ℤ → Pte} {is : List ℤ} (hf : mem.frames.Ok)
    (hleft : (is.length : ℤ) ≤ framesLeft mem.frames) (hkept : ∀ x ∈ kept, x ∈ mem.frames.used) :
    SameOn kept mem (copyKstack is mem kstack).1 := by
  induction is generalizing mem kstack with
  | nil => exact SameOn.refl kept mem
  | cons i is ih =>
    rw [List.length_cons] at hleft
    push_cast at hleft
    unfold framesLeft at hleft
    have hgot : FreeFrame.Got mem.frames (getFrame mem.frames 0 true).1 (copyPfn mem) :=
      hf.getFrame_auto (by omega)
    have hstep : SameOn kept mem (copyPage mem (mem.kernelStack i)).1 := by
      intro x hx
      refine Function.update_of_ne ?_ _ _
      rintro rfl
      exact hgot.fresh (hkept _ hx)
    rw [copyKstack_cons]
    refine hstep.trans (ih hgot.ok ?_ fun x hx => ?_)
    · unfold framesLeft
      rw [copyPage_frames, hgot.size_eq, hgot.filled_eq]
      omega
    · rw [copyPage_frames, hgot.used_eq]
      exact Finset.mem_insert_of_mem (hkept x hx)

/-! ## `LoadProgram` -/

/-- **An executable as the linker leaves it**: both segments start on a page,
and the bss ends with the data's pages. -/
structure LoadInfo.Linked (li : LoadInfo) : Prop extends li.WellFormed where
  text_page : pageSize ∣ li.tVaddr
  data_page : pageSize ∣ li.idVaddr
  idNpg_nonneg : 0 ≤ li.idNpg
  udNpg_nonneg : 0 ≤ li.udNpg
  idEnd_ge : li.idVaddr ≤ li.idEnd
  udEnd_le : li.udEnd ≤ li.idVaddr + li.dataNpg * pageSize

/-- **What `LoadProgram` is answered**: by such an executable, and by reads
that deliver no more than they were asked for. -/
structure LoadEnv.Linked (env : LoadEnv) : Prop where
  info : ∀ li, env.info = some li → li.Linked
  text : ∀ li bytes, env.info = some li → env.text = some bytes →
    (bytes.length : ℤ) ≤ li.tNpg * pageSize
  data : ∀ li bytes, env.info = some li → env.data = some bytes →
    (bytes.length : ℤ) ≤ li.idNpg * pageSize

/-- The pages of a segment that starts on a page. -/
theorem index_of_segment {vaddr npg : ℤ} (hpage : pageSize ∣ vaddr) (hlo : vaddr ≤ addr)
    (hhi : addr < vaddr + npg * pageSize) :
    addr / pageSize - basePage1 ∈
      pages ((vaddr - vmem1Base) / pageSize) ((vaddr - vmem1Base) / pageSize + npg) := by
  obtain ⟨v, rfl⟩ := hpage
  have hpg : (pageSize * v - vmem1Base) / pageSize = v - basePage1 := by
    rw [vmem1Base, Int.mul_comm pageSize v, ← Int.sub_mul, mul_pageSize_ediv]
  have hge : v ≤ addr / pageSize := by
    rw [le_ediv_iff, Int.mul_comm]
    exact hlo
  have hlt : addr / pageSize < v + npg := by
    refine (Int.ediv_lt_iff_lt_mul pageSize_pos).mpr ?_
    rw [Int.add_mul, Int.mul_comm v]
    exact hhi
  rw [hpg, mem_pages]
  omega

section Load

variable {free : FreeFrame} {u : UserPt} {uc : UserContext} {args : List (List Byte)}
  {env : LoadEnv} {li : LoadInfo}

/-- The segments, once mapped, can be stored to. -/
theorem mappedTo_segments {old : ℤ → Pte} (hli : li.Linked)
    (hroom : stackNpg args + li.dataPg1 + li.dataNpg < maxPtLen) :
    let pt := (mapSegments free old li (stackNpg args)).2
    MappedTo pt li.tVaddr (li.tVaddr + li.tNpg * pageSize) ∧
      MappedTo pt li.idVaddr (li.idVaddr + li.dataNpg * pageSize) ∧
      MappedTo pt (argSp args) vmem1Limit := by
  intro pt
  have hsegment : ∀ a, a / pageSize - basePage1 ∈ li.segments args → mapped pt a := by
    intro a ha
    refine mapped_of_index (hli.ordered.segments_region hroom ha) ?_
    show ((mapSegments free old li (stackNpg args)).2 _).valid = true
    rw [mapSegments_eq]
    exact mapPages_valid_iff.mpr (Or.inl ha)
  refine ⟨fun a hlo hhi => hsegment a ?_, fun a hlo hhi => hsegment a ?_,
    fun a hlo hhi => hsegment a ?_⟩
  · exact LoadInfo.mem_segments.mpr (Or.inl (index_of_segment hli.text_page hlo hhi))
  · exact LoadInfo.mem_segments.mpr (Or.inr (Or.inl (index_of_segment hli.data_page hlo hhi)))
  · exact LoadInfo.mem_segments.mpr (Or.inr (Or.inr (stackPages_cover hlo hhi)))

/-- A read into a segment stores what it delivers. -/
theorem sameOn_read {vaddr npg : ℤ} {read : Option (List Byte)} (havoids : Avoids pt kept)
    (hin : MappedTo pt vaddr (vaddr + npg * pageSize)) (hnpg : 0 ≤ npg)
    (hlen : ∀ bytes, read = some bytes → (bytes.length : ℤ) ≤ npg * pageSize) :
    SameOn kept mem (storeBytes pt (read.getD []) mem vaddr) := by
  have hpos := Int.mul_nonneg hnpg pageSize_pos.le
  refine sameOn_storeBytes havoids hin le_rfl ?_
  cases hread : read with
  | none => simpa using hpos
  | some bytes =>
    have := hlen bytes hread
    rw [Option.getD_some]
    omega

/-- The bss is zeroed within the data's pages, and the arguments go on the
stack. -/
theorem sameOn_finish {is : List ℤ} (hli : li.Linked) (havoids : Avoids pt kept)
    (hdata : MappedTo pt li.idVaddr (li.idVaddr + li.dataNpg * pageSize))
    (hstack : MappedTo pt (argSp args) vmem1Limit) :
    SameOn kept mem (buildArgs (protectText is pt)
      (storeBytes (protectText is pt) (List.replicate (li.udEnd - li.idEnd).toNat 0) mem li.idEnd)
      args) := by
  have hentry : ∀ i, (protectText is pt i).valid = (pt i).valid ∧
      (protectText is pt i).pfn = (pt i).pfn := fun _ => protectText_entry is
  have hframe := initialStackFrameSize_nonneg
  have hidEnd := hli.idEnd_ge
  have hudEnd := hli.udEnd_le
  have hnpg := Int.mul_nonneg hli.data_pos.le pageSize_pos.le
  have hbss : SameOn kept mem (storeBytes (protectText is pt)
      (List.replicate (li.udEnd - li.idEnd).toNat 0) mem li.idEnd) := by
    rcases le_total li.udEnd li.idEnd with hle | hle
    · rw [Int.toNat_of_nonpos (by omega)]
      exact SameOn.refl kept mem
    · refine sameOn_storeBytes (havoids.congr hentry) (hdata.congr hentry) hidEnd ?_
      rw [List.length_replicate]
      omega
  refine hbss.trans (sameOn_buildArgs (havoids.congr hentry) ((hstack.congr hentry).mono ?_ le_rfl))
  unfold argSp
  omega

/-- **`LoadProgram` stores to its own pages only**, whatever comes of it. -/
theorem sameOn_loadProgram {r : Loaded × LoadCode} (hf : mem.frames.Ok)
    (hheld : Held mem.frames u.pt kept) (henv : env.Linked)
    (hr : loadProgram mem u uc args env = r) : SameOn kept mem r.1.mem := by
  by_cases herr : r.2 = .error
  · subst hr
    rw [(loadProgram_error herr).1]
    exact SameOn.refl kept mem
  obtain ⟨li, hinfo, hroom, heq⟩ :=
    loadProgram_committed (show (loadProgram mem u uc args env).2 ≠ .error by rwa [hr])
  have hli := henv.info li hinfo
  obtain ⟨hfree, j, hran⟩ := hheld.unmapValid hf (pages 0 numPages1)
  rw [← hr, heq]
  unfold loadSegments
  dsimp only
  split
  · exact SameOn.refl kept mem
  rename_i hleft
  -- the segments are mapped to frames of their own
  have hmapped : Held (mapSegments (destroyUsermem mem.frames u).1
      (destroyUsermem mem.frames u).2.pt li (stackNpg args)).1 (mapSegments
      (destroyUsermem mem.frames u).1 (destroyUsermem mem.frames u).2.pt li (stackNpg args)).2
      kept := (hfree.mapSegments hran.ok hli.toWellFormed (not_lt.mp hleft)).1
  have hin := @mappedTo_segments _ (destroyUsermem mem.frames u).1 args li
    (destroyUsermem mem.frames u).2.pt hli hroom
  dsimp only at hin
  generalize (mapSegments (destroyUsermem mem.frames u).1 (destroyUsermem mem.frames u).2.pt li
    (stackNpg args)) = r at hmapped hin ⊢
  obtain ⟨htext, hdata, hstack⟩ := hin
  have hinit := hdata.mono le_rfl (show li.idVaddr + li.idNpg * pageSize ≤ _ by
    have := Int.mul_nonneg hli.udNpg_nonneg pageSize_pos.le
    rw [LoadInfo.dataNpg, Int.add_mul]
    omega)
  have hone : SameOn kept mem (storeBytes r.2 (env.text.getD []) { mem with frames := r.1 }
      li.tVaddr) :=
    sameOn_read hmapped.avoids htext hli.tNpg_nonneg fun bytes => henv.text li bytes hinfo
  split
  · exact hone
  have htwo := hone.trans (sameOn_read hmapped.avoids hinit hli.idNpg_nonneg
    fun bytes => henv.data li bytes hinfo)
  split
  · exact htwo
  · exact htwo.trans (sameOn_finish hli hmapped.avoids hdata hstack)

end Load

end Yalnix
