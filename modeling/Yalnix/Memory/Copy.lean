import Yalnix.Memory.Image
import Yalnix.Memory.UserAccess
/-!
# Copies of an address space

`copy_user_mem` goes through one scratch page of the kernel, which it points
at a new frame for every page it copies. The first part is about tables that
share no frame: what is written through one is not seen through another. The
second part is the copy.
-/

namespace Yalnix

variable [Paging]

open Paging

/-! ## Tables that share no frame -/

section Unshared

variable {ι : Type} {tables : ι → ℤ → Pte} {mem mem' : Memory} {p : ι} {addr : ℤ}

/-- A byte written in user mode by one of several processes. -/
structure UserWrite (ι : Type) where
  who : ι
  addr : ℤ
  byte : Byte

/-- Writes, each through the table of who writes. -/
def runWrites (tables : ι → ℤ → Pte) : List (UserWrite ι) → Memory → Memory
  | [], mem => mem
  | w :: ws, mem => runWrites tables ws (storeByte (tables w.who) mem w.addr w.byte)

/-- **No two tables map one frame.** -/
def Unshared (tables : ι → ℤ → Pte) : Prop :=
  ∀ p q, p ≠ q → ∀ a b, mapped (tables p) a → mapped (tables q) b →
    (pteAt (tables p) a).pfn ≠ (pteAt (tables q) b).pfn

/-- Two memories a process cannot tell apart. -/
def Alike (pt : ℤ → Pte) (mem mem' : Memory) : Prop :=
  ∀ a, mapped pt a → mem.pmem (pteAt pt a).pfn = mem'.pmem (pteAt pt a).pfn

theorem Alike.byteAt (h : Alike (tables p) mem mem') (ha : mapped (tables p) addr) :
    Yalnix.byteAt mem (tables p) addr = Yalnix.byteAt mem' (tables p) addr :=
  congrFun (h addr ha) _

/-- A write of one's own. -/
theorem Alike.own (h : Alike (tables p) mem mem') (byte : Byte) (ha : mapped (tables p) addr) :
    Alike (tables p) (storeByte (tables p) mem addr byte)
      (storeByte (tables p) mem' addr byte) := by
  intro b hb
  unfold storeByte
  dsimp only
  by_cases heq : (pteAt (tables p) b).pfn = (pteAt (tables p) addr).pfn
  · rw [heq, Function.update_self, Function.update_self, h addr ha]
  · rw [Function.update_of_ne heq, Function.update_of_ne heq]
    exact h b hb

/-- **A write of somebody else's** is not seen. -/
theorem Alike.other (h : Alike (tables p) mem mem') (hunshared : Unshared tables) {q : ι}
    (hne : q ≠ p) (byte : Byte) (ha : mapped (tables q) addr) :
    Alike (tables p) (storeByte (tables q) mem addr byte) mem' := by
  intro b hb
  unfold storeByte
  dsimp only
  rw [Function.update_of_ne (hunshared p q hne.symm b addr hb ha)]
  exact h b hb

/-- **What a process reads is what it has written**, whatever the others
write in between. -/
theorem runWrites_own [DecidableEq ι] (hunshared : Unshared tables) {ws : List (UserWrite ι)}
    (hws : ∀ w ∈ ws, mapped (tables w.who) w.addr) (p : ι) {a : ℤ} (ha : mapped (tables p) a) :
    byteAt (runWrites tables ws mem) (tables p) a =
      byteAt (runWrites tables (ws.filter fun w => w.who = p) mem) (tables p) a := by
  have hall : ∀ (ws : List (UserWrite ι)) (mem mem' : Memory),
      (∀ w ∈ ws, mapped (tables w.who) w.addr) → Alike (tables p) mem mem' →
      Alike (tables p) (runWrites tables ws mem)
        (runWrites tables (ws.filter fun w => w.who = p) mem') := by
    intro ws
    induction ws with
    | nil => exact fun _ _ _ h => h
    | cons w ws ih =>
      intro mem mem' hws h
      have hw := hws w List.mem_cons_self
      have hrest : ∀ w ∈ ws, mapped (tables w.who) w.addr :=
        fun w hw => hws w (List.mem_cons_of_mem _ hw)
      by_cases heq : w.who = p
      · rw [List.filter_cons_of_pos (by simpa using heq)]
        subst heq
        exact ih _ _ hrest (h.own w.byte hw)
      · rw [List.filter_cons_of_neg (by simpa using heq)]
        exact ih _ _ hrest (h.other hunshared heq w.byte hw)
  exact (hall ws mem mem hws fun _ _ => rfl).byteAt ha

end Unshared

/-! ## The copy -/

section Copied

variable {mem mem' : Memory} {origin dst : ℤ → Pte} {is : List ℤ} {u u' : UserPt} {addr i x : ℤ}

/-- The entry of a mapped address is one of the table's, and valid. -/
theorem mapped.index (h : mapped origin addr) :
    addr / pageSize - basePage1 ∈ pages 0 numPages1 ∧
      (origin (addr / pageSize - basePage1)).valid = true := by
  obtain ⟨hlo, hhi, hvalid⟩ := h
  refine ⟨mem_pages.mpr ?_, hvalid⟩
  have hbase : basePage1 ≤ addr / pageSize := (le_ediv_iff addr basePage1).mpr hlo
  have hlim : ¬ limPage1 ≤ addr / pageSize := by
    rw [le_ediv_iff]
    exact not_le.mpr hhi
  unfold numPages1
  omega

/-- The other pages of the kernel are left alone. -/
theorem copyValid_kernelStack : (copyValid origin is mem dst).1.kernelStack = mem.kernelStack := by
  induction is generalizing mem dst with
  | nil => rfl
  | cons i is ih =>
    rw [copyValid_cons]
    split
    · exact ih
    · exact ih

/-- **What the loop does to the frames**: those that were in use keep their
bytes, and each page copied gets those of its original. -/
theorem copyValid_pmem (hf : mem.frames.Ok) (hnd : is.Nodup)
    (hused : ∀ i ∈ is, (origin i).valid = true → (origin i).pfn ∈ mem.frames.used)
    (hleft : (validCount origin is : ℤ) ≤ framesLeft mem.frames) :
    (∀ x ∈ mem.frames.used, (copyValid origin is mem dst).1.pmem x = mem.pmem x) ∧
    ∀ i ∈ is, (origin i).valid = true →
      (copyValid origin is mem dst).1.pmem ((copyValid origin is mem dst).2 i).pfn =
        mem.pmem (origin i).pfn := by
  induction is generalizing mem dst with
  | nil => exact ⟨fun _ _ => rfl, fun _ hi => absurd hi List.not_mem_nil⟩
  | cons i is ih =>
    obtain ⟨hi, hnd⟩ := List.nodup_cons.mp hnd
    have hused' : ∀ j ∈ is, (origin j).valid = true → (origin j).pfn ∈ mem.frames.used :=
      fun j hj => hused j (List.mem_cons_of_mem _ hj)
    rw [copyValid_cons]
    by_cases hv : (origin i).valid = true
    · rw [validCount_cons_pos hv] at hleft
      unfold framesLeft at hleft
      have hgot : FreeFrame.Got mem.frames (getFrame mem.frames 0 true).1 (copyPfn mem) :=
        hf.getFrame_auto (by omega)
      have hmono : ∀ x ∈ mem.frames.used, x ∈ (copyPage mem (origin i)).1.frames.used := by
        intro x hx
        rw [copyPage_frames, hgot.used_eq]
        exact Finset.mem_insert_of_mem hx
      -- the frame taken is none that was in use, and is in use from here on
      have hold : ∀ x ∈ mem.frames.used, (copyPage mem (origin i)).1.pmem x = mem.pmem x :=
        fun x hx => Function.update_of_ne
          (fun heq : x = copyPfn mem => hgot.fresh (heq ▸ hx)) _ _
      have hnew : (copyPage mem (origin i)).1.pmem (copyPfn mem) = mem.pmem (origin i).pfn :=
        Function.update_self _ _ _
      have hin : copyPfn mem ∈ (copyPage mem (origin i)).1.frames.used := by
        rw [copyPage_frames, hgot.used_eq]
        exact Finset.mem_insert_self _ _
      rw [if_pos hv]
      obtain ⟨hkept, hcopied⟩ := @ih (copyPage mem (origin i)).1
        (Function.update dst i ⟨true, copyPfn mem, (origin i).prot⟩) hgot.ok hnd
        (fun j hj hvj => hmono _ (hused' j hj hvj)) (by
          unfold framesLeft
          rw [copyPage_frames, hgot.size_eq, hgot.filled_eq]
          omega)
      refine ⟨fun x hx => (hkept x (hmono x hx)).trans (hold x hx), fun j hj hvj => ?_⟩
      rcases List.mem_cons.mp hj with rfl | hj
      · rw [copyValid_of_not_mem hi, Function.update_self]
        exact (hkept _ hin).trans hnew
      · exact (hcopied j hj hvj).trans (hold _ (hused' j hj hvj))
    · rw [validCount_cons_neg hv] at hleft
      rw [if_neg hv]
      obtain ⟨hkept, hcopied⟩ := @ih mem dst hf hnd hused' hleft
      refine ⟨hkept, fun j hj hvj => ?_⟩
      rcases List.mem_cons.mp hj with rfl | hj
      · exact absurd hvj hv
      · exact hcopied j hj hvj

/-- **The copy of an address space**, with the memory after it. -/
structure Copied (mem mem' : Memory) (u u' : UserPt) : Prop where
  /-- The same pages, with the same protection. -/
  valid : ∀ i ∈ pages 0 numPages1, (u'.pt i).valid = (u.pt i).valid
  prot : ∀ i ∈ pages 0 numPages1, (u.pt i).valid = true → (u'.pt i).prot = (u.pt i).prot
  content : ∀ a, mapped u.pt a → mapped u'.pt a ∧ byteAt mem' u'.pt a = byteAt mem u.pt a
  brk : u'.brk = u.brk
  dataEnd : u'.dataEnd = u.dataEnd
  stackLow : u'.stackLow = u.stackLow
  /-- On frames that were free, a frame for each page. -/
  fresh : ∀ i ∈ pages 0 numPages1, (u'.pt i).valid = true → (u'.pt i).pfn ∉ mem.frames.used
  distinct : ∀ i ∈ pages 0 numPages1, ∀ j ∈ pages 0 numPages1, (u'.pt i).valid = true →
    (u'.pt j).valid = true → (u'.pt i).pfn = (u'.pt j).pfn → i = j
  taken : ∀ i ∈ pages 0 numPages1, (u'.pt i).valid = true → (u'.pt i).pfn ∈ mem'.frames.used
  count : framesLeft mem'.frames = framesLeft mem.frames - u.count
  ok : mem'.frames.Ok
  /-- Nothing else has changed. -/
  kept : ∀ x ∈ mem.frames.used, x ∈ mem'.frames.used ∧ mem'.pmem x = mem.pmem x
  kernelStack : mem'.kernelStack = mem.kernelStack
  scratch : mem'.scratch.valid = false
  /-- Neither table shows what is written through the other. -/
  apart : ∀ (ws : List (UserWrite Bool)) (who : Bool) (a : ℤ),
    let tables : Bool → ℤ → Pte := fun copy => if copy then u'.pt else u.pt
    (∀ w ∈ ws, mapped (tables w.who) w.addr) → mapped (tables who) a →
    byteAt (runWrites tables ws mem') (tables who) a =
      byteAt (runWrites tables (ws.filter fun w => w.who = who) mem') (tables who) a

/-- **`copy_user_mem` copies**, with frames to spare, a table whose pages are
on frames in use. -/
theorem copyUserMem_copied (hf : mem.frames.Ok)
    (hused : ∀ i ∈ pages 0 numPages1, (u.pt i).valid = true → (u.pt i).pfn ∈ mem.frames.used)
    (hleft : (u.count : ℤ) ≤ framesLeft mem.frames) :
    Copied mem (copyUserMem mem u newUserPt).1 u (copyUserMem mem u newUserPt).2 := by
  have hblank : Held mem.frames newUserPt.pt {x | x ∈ mem.frames.used} :=
    Held.of_invalid (fun _ => rfl) fun _ hx => hx
  obtain ⟨hheld, hran⟩ := hblank.copyUserMem hf hleft
  obtain ⟨hkept, hcopied⟩ := @copyValid_pmem _ mem u.pt newUserPt.pt _ hf nodup_pages hused hleft
  have hentry : ∀ i ∈ pages 0 numPages1,
      ((copyUserMem mem u newUserPt).2.pt i).valid = (u.pt i).valid ∧ ((u.pt i).valid = true →
        ((copyUserMem mem u newUserPt).2.pt i).prot = (u.pt i).prot) :=
    fun i hi => copyValid_valid (fun _ _ => rfl) nodup_pages hi
  have hmapped : ∀ a, mapped u.pt a ↔ mapped (copyUserMem mem u newUserPt).2.pt a := by
    intro a
    constructor
    · intro h
      exact ⟨h.1, h.2.1, (hentry _ h.index.1).1.trans h.2.2⟩
    · intro h
      exact ⟨h.1, h.2.1, (hentry _ h.index.1).1.symm.trans h.2.2⟩
  have hunshared : Unshared fun copy : Bool =>
      if copy then (copyUserMem mem u newUserPt).2.pt else u.pt := by
    have hne : ∀ a b, mapped u.pt a → mapped (copyUserMem mem u newUserPt).2.pt b →
        (pteAt u.pt a).pfn ≠ (pteAt (copyUserMem mem u newUserPt).2.pt b).pfn := by
      intro a b ha hb heq
      have hin := hused _ ha.index.1 ha.index.2
      exact hheld.apart _ hb.index.2 (heq ▸ hin)
    intro p q hpq a b ha hb
    cases p <;> cases q
    · exact absurd rfl hpq
    · exact hne a b ha hb
    · exact (hne b a hb ha).symm
    · exact absurd rfl hpq
  refine ⟨fun i hi => (hentry i hi).1, fun i hi => (hentry i hi).2, fun a ha => ?_, rfl, rfl, rfl,
    fun i _ hv => hheld.apart i hv, fun i _ j _ hvi hvj => hheld.inj i j hvi hvj,
    fun i _ hv => hheld.used i hv, ?_, hran.ok,
    fun x hx => ⟨hheld.others_used x hx, hkept x hx⟩, copyValid_kernelStack, rfl,
    fun ws who a hws ha => runWrites_own hunshared hws who ha⟩
  · exact ⟨(hmapped a).mp ha, congrFun (hcopied _ ha.index.1 ha.index.2) _⟩
  · unfold framesLeft
    rw [hran.size_eq, hran.filled_eq]
    omega

end Copied

end Yalnix
