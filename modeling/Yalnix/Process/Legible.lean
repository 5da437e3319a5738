import Yalnix.Memory.Built
import Yalnix.Memory.Checks
import Yalnix.Process.Bodies
/-!
# Every page that is mapped can be read

The pages of a program are mapped for reading and writing; its text is then
made read-only. None ever has another protection, so that what passes the
checks of `memory.c` as valid can be loaded, and of the checks that load only
`check_args` can fault: at a pointer that is cut by the end of the valid
pages.
-/

namespace Yalnix

variable [Paging]

open Paging

/-- **A pointer of the vector runs onto a page that is not valid**, and the
check gets to it. -/
def VectorCut (mem : Memory) (pt : ℤ → Pte) (args : ℤ) : Prop :=
  ∃ n < maxCheck,
    (∀ i < n, pointerReadable pt args i ∧ pointersFrom mem pt args i ≠ 0 ∧
      StringReadable mem pt (pointersFrom mem pt args i)) ∧
    mapped pt (args + 4 * (n : ℕ)) ∧ ∃ b : ℕ, b < 4 ∧ ¬ mapped pt (args + 4 * (n : ℕ) + b)

/-- **Every valid entry has `PROT_READ`.** -/
def Legible (pt : ℤ → Pte) : Prop := ∀ i, (pt i).valid = true → (pt i).prot &&& protRead ≠ 0

section Tables

variable {pt : ℤ → Pte} {free : FreeFrame} {is : List ℤ} {prot : ℕ} {mem : Memory} {u : UserPt}
  {addr : ℤ}

/-- What is mapped can be loaded. -/
theorem Legible.readable (h : Legible pt) (hmapped : mapped pt addr) : readable pt addr = true :=
  readable_iff.mpr ⟨hmapped, h _ hmapped.2.2⟩

theorem Legible.grants (h : Legible pt) (hmapped : mapped pt addr) : grants pt protRead addr :=
  h _ hmapped.2.2

/-- A string is checked without a fault. -/
theorem Legible.checkString_ne_none (h : Legible pt) : checkString mem addr pt ≠ none :=
  checkString_ne_none_iff.mpr fun _ _ _ hmapped => h.grants hmapped

/-- **A vector is**, but for one that is cut. -/
theorem Legible.checkArgs_eq_none_iff (h : Legible pt) :
    checkArgs mem addr pt = none ↔ VectorCut mem pt addr := by
  have hpointer : ∀ n : ℕ, pointerReadable pt addr n ↔
      ∀ b : ℕ, b < 4 → mapped pt (addr + 4 * n + b) := fun n =>
    forall₂_congr fun b _ => and_iff_left_of_imp h.grants
  have hstring : ∀ a, StringGranted mem pt a := fun _ _ _ _ hmapped => h.grants hmapped
  rw [← not_iff_not, ← ne_eq, checkArgs_ne_none_iff]
  unfold ArgsGranted VectorCut
  constructor
  · rintro hgranted ⟨n, hn, hbefore, hmapped, b, hb, hcut⟩
    exact hcut ((hpointer n).mp (hgranted n hn hbefore hmapped).1 b hb)
  · intro huncut n hn hbefore hmapped
    refine ⟨(hpointer n).mpr fun b hb => ?_, fun _ => hstring _⟩
    by_contra hcut
    exact huncut ⟨n, hn, hbefore, hmapped, b, hb, hcut⟩

/-- So are the arguments of an `Exec`. -/
theorem Legible.checkExec_eq_none_iff (h : Legible pt) {filename argvec : ℤ} :
    checkExec mem filename argvec pt = none ↔
      StringReadable mem pt filename ∧ VectorCut mem pt argvec := by
  unfold checkExec
  rw [← h.checkArgs_eq_none_iff, ← checkString_iff]
  cases hstring : checkString mem filename pt with
  | none => exact absurd hstring h.checkString_ne_none
  | some ok => cases ok <;> simp

theorem Legible.mapPages (h : Legible pt) (hprot : prot &&& protRead ≠ 0) :
    Legible (mapPages prot is free pt).2 := by
  intro i hv
  by_cases hi : i ∈ is
  · rw [(mapPages_of_mem hi).2]
    exact hprot
  · rw [mapPages_of_not_mem hi] at hv ⊢
    exact h i hv

theorem Legible.unmapPages (h : Legible pt) : Legible (unmapPages is free pt).2 := by
  intro i hv
  by_cases hi : i ∈ is
  · rw [unmapPages_of_mem hi] at hv
    cases hv
  · rw [unmapPages_of_not_mem hi] at hv ⊢
    exact h i hv

/-- A copy is for reading where its origin is. -/
theorem Legible.copy (h : Legible u.pt) : Legible (copyUserMem mem u newUserPt).2.pt := by
  intro i hv
  have hcopied : ((copyValid u.pt (pages 0 numPages1) mem newUserPt.pt).2 i).valid = true := hv
  by_cases hi : i ∈ pages 0 numPages1
  · have hentry : ((copyValid u.pt (pages 0 numPages1) mem newUserPt.pt).2 i).valid =
        (u.pt i).valid ∧ ((u.pt i).valid = true →
          ((copyValid u.pt (pages 0 numPages1) mem newUserPt.pt).2 i).prot = (u.pt i).prot) :=
      copyValid_valid (fun _ _ => rfl) nodup_pages hi
    rw [hentry.1] at hcopied
    show ((copyValid u.pt (pages 0 numPages1) mem newUserPt.pt).2 i).prot &&& protRead ≠ 0
    rw [hentry.2 hcopied]
    exact h i hcopied
  · rw [copyValid_of_not_mem hi] at hcopied
    cases hcopied

end Tables

variable {Node Addr : Type}

/-- **Every process that lives, idle apart, can be read** where it has
memory. -/
def Kernel.Legible (k : Kernel Node Addr) : Prop :=
  ∀ n c, k.proc n = some c → c.kin.isSome → n ≠ k.procs.idleNode → Yalnix.Legible c.userpt.pt

variable {k k' : Kernel Node Addr}

omit [Paging] in
theorem Leaves.legible {S : Set Node} (h : Leaves k k' S) (hk : k.Legible)
    (hS : ∀ n ∈ S, ∀ c', k'.proc n = some c' → c'.kin.isSome → Legible c'.userpt.pt) :
    k'.Legible := by
  intro n c' hc' halive hidle
  by_cases hn : n ∈ S
  · exact hS n hn c' hc' halive
  · obtain ⟨c, hc, hsame⟩ := h.keeps n hn c' hc'
    rw [hsame.userpt]
    rw [hsame.alive] at halive
    rw [h.idleNode] at hidle
    exact hk n c hc halive hidle

omit [Paging] in
/-- Who lives, and with what pages, is all there is to it. -/
theorem Kernel.Legible.of_body (h : k.Legible) (hbody : k'.body = k.body)
    (hidle : k'.procs.idleNode = k.procs.idleNode) : k'.Legible := by
  intro n c hc halive hn
  obtain ⟨c₀, hc₀, hlives, huserpt, -, -⟩ := body_forth hbody hc
  rw [hidle] at hn
  rw [← huserpt]
  exact h n c₀ hc₀ (by rw [hlives]; exact halive) hn

section Step

variable [DecidableEq Node] {c : Proc Node Addr} {p : Node}

omit [Paging] in
/-- A call that gives its process another record. -/
theorem Kernel.Legible.set {c' : Proc Node Addr} {mem : Memory} (hk : k.Legible)
    (hc' : Yalnix.Legible c'.userpt.pt) : (k.set p c' mem).Legible := by
  refine (leaves_set _ _).legible hk fun n hn d hd _ => ?_
  rw [Set.mem_singleton_iff.mp hn] at hd
  obtain rfl := Option.some.inj ((set_self _ _).symm.trans hd)
  exact hc'

variable [DecidableEq Addr]

theorem Kernel.Legible.kernelExit {status : ℤ} (hk : k.Legible)
    (h : kernelExit k status = some k') : k'.Legible := by
  obtain ⟨hleaves, hdead⟩ := kernelExit_leaves h
  refine hleaves.legible hk fun n hn c' hc' halive => ?_
  rw [Set.mem_singleton_iff.mp hn] at hc'
  rw [hdead c' hc'] at halive
  cases halive

/-- **`Fork`** gives the child pages as the parent has them. -/
theorem Kernel.Legible.forked {child : Node} {data : Addr} {pid : ℤ} (hk : k.Legible)
    (hc : Yalnix.Legible c.userpt.pt) : (forked k c child data pid).Legible := by
  intro n c' hc' halive hidle
  unfold Yalnix.forked at hc'
  dsimp only at hc'
  rcases eq_or_ne n child with rfl | hn
  · rw [Function.update_self] at hc'
    obtain rfl := Option.some.inj hc'
    exact hc.copy
  · rw [Function.update_of_ne hn] at hc'
    rcases eq_or_ne n k.procs.running with rfl | hn'
    · rw [Function.update_self] at hc'
      obtain rfl := Option.some.inj hc'
      exact hc
    · rw [Function.update_of_ne hn'] at hc'
      exact hk n c' hc' halive hidle

end Step

end Yalnix
