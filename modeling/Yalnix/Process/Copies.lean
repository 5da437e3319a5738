import Yalnix.Memory.Copy
import Yalnix.Process.Exclusive
/-!
# The address space of a child

`process_copy` fills the page table of the child with `copy_user_mem`, and
stores to no other table.
-/

namespace Yalnix

variable {Node Addr : Type} [Paging] [DecidableEq Node] [DecidableEq Addr]

open Paging

variable {k : Kernel Node Addr} {parent child : Node} {p : Proc Node Addr}

/-- The page tables in memory. -/
def Kernel.table (k : Kernel Node Addr) (n : Node) : ℤ → Pte := fun i => k.pte (.user n i)

/-- **A child has a copy of its parent's memory**, and no other table
changes. -/
theorem processCopy_copies (hp : k.proc parent = some p) (hf : k.mem.frames.Ok)
    (hused : ∀ i ∈ pages 0 numPages1, (p.userpt.pt i).valid = true →
      (p.userpt.pt i).pfn ∈ k.mem.frames.used)
    (hleft : (p.userpt.count : ℤ) ≤ framesLeft k.mem.frames) (child : Node) (data : Addr)
    (pid : ℤ) :
    (∃ c, (processCopy k parent p child data pid).proc child = some c ∧
      Copied k.mem (processCopy k parent p child data pid).mem p.userpt c.userpt) ∧
    ∀ n, n ≠ child → ((processCopy k parent p child data pid).proc n).map Proc.userpt =
      (k.proc n).map Proc.userpt := by
  constructor
  · exact ⟨_, Function.update_self _ _ _, copyUserMem_copied hf hused hleft⟩
  · intro n hne
    have hproc : (processCopy k parent p child data pid).proc n =
        Function.update k.proc parent (some { p with
          kin := p.kin.map fun kin => { kin with aChildren := kin.aChildren ++ [data] }
          children := p.children ++ [k.born] }) n := Function.update_of_ne hne _ _
    rw [hproc]
    rcases eq_or_ne n parent with rfl | hn
    · rw [Function.update_self, hp]
      rfl
    · rw [Function.update_of_ne hn]

omit [Paging] [DecidableEq Node] [DecidableEq Addr] in
/-- The first child of init. -/
theorem processCopy_copies_init :
    let _ := yalnixPaging
    ∃ (k : Kernel ℕ ℕ) (p : Proc ℕ ℕ), kernelStart (smallBoot 140) = some k ∧
      k.proc 0 = some p ∧ p.userpt.count = 2 ∧
      (∃ c, (processCopy k 0 p 2 2 2).proc 2 = some c ∧
        Copied k.mem (processCopy k 0 p 2 2 2).mem p.userpt c.userpt) ∧
      ∀ n, n ≠ 2 → ((processCopy k 0 p 2 2 2).proc n).map Proc.userpt =
        (k.proc n).map Proc.userpt := by
  let _ := yalnixPaging
  have hruns : ((kernelStart (smallBoot 140)).bind fun k => (k.proc 0).map fun p =>
      (p.userpt.count, decide ((p.userpt.count : ℤ) ≤ framesLeft k.mem.frames))) =
      some (2, true) := by
    decide +kernel
  obtain ⟨k, hk, hruns⟩ := Option.bind_eq_some_iff.mp hruns
  obtain ⟨p, hp, heq⟩ := Option.map_eq_some_iff.mp hruns
  obtain ⟨hcount, hleft⟩ := Prod.mk.inj heq
  have howned : k.Owned := kernelStart_owned onePage_wellFormed hk bootFits_smallBoot
  exact ⟨k, p, hk, hp, hcount, processCopy_copies hp howned.ok
    (fun i _ hv => (howned.user hp).used i hv) (of_decide_eq_true hleft) 2 2 2⟩

end Yalnix
