import Yalnix.Process.Growth
/-!
# An `Exec` that is refused

`LoadProgram` refuses before it releases anything, and what it leaves is the
process as it was, unless it is the buffer for the arguments that it does
not get: by then the stack pointer is the new program's.
-/

namespace Yalnix

variable [Paging]

open Paging

/-! ## `LoadProgram` -/

/-- The executable is linked for Yalnix, and leaves a page between its heap
and its stack. -/
def LoadInfo.Fits (li : LoadInfo) (args : List (List Byte)) : Prop :=
  vmem1Base ≤ li.entry ∧ stackNpg args + li.dataPg1 + li.dataNpg < maxPtLen

/-- **The late refusal**: every check is passed, and `malloc` returns NULL. -/
def RefusedLate (args : List (List Byte)) (env : LoadEnv) : Prop :=
  env.opens = true ∧ (∃ li, env.info = some li ∧ li.Fits args) ∧ env.malloc = false

section Load

variable {mem : Memory} {u : UserPt} {uc : UserContext} {args : List (List Byte)} {env : LoadEnv}
  {li : LoadInfo}

/-- With the checks passed and the buffer there, it goes on to its second
half. -/
theorem loadProgram_fits (hopens : env.opens = true) (hinfo : env.info = some li)
    (hfits : li.Fits args) (hmalloc : env.malloc = true) : loadProgram mem u uc args env =
      loadSegments mem u { uc with sp := argSp args } args env li := by
  unfold loadProgram
  rw [if_neg (not_not.mpr hopens), hinfo]
  dsimp only
  rw [if_neg (not_lt.mpr hfits.1), if_neg (not_le.mpr hfits.2), if_neg (not_not.mpr hmalloc)]

/-- A program that does not fit is closed again. -/
theorem loadProgram_misfit (hopens : env.opens = true) (hinfo : env.info = some li)
    (hfits : ¬ li.Fits args) : loadProgram mem u uc args env = (⟨mem, u, uc, 1, 0⟩, .error) := by
  unfold loadProgram
  rw [if_neg (not_not.mpr hopens), hinfo]
  dsimp only
  rw [LoadInfo.Fits, not_and_or, not_le, not_lt] at hfits
  rcases hfits with hentry | hroom
  · rw [if_pos hentry]
  · rw [if_pos hroom, ite_self]

/-- A late refusal leaves the new stack pointer, and the file open. -/
theorem loadProgram_late (h : RefusedLate args env) :
    loadProgram mem u uc args env = (⟨mem, u, { uc with sp := argSp args }, 0, 0⟩, .error) := by
  obtain ⟨hopens, ⟨li, hinfo, hentry, hroom⟩, hmalloc⟩ := h
  unfold loadProgram
  rw [if_neg (not_not.mpr hopens), hinfo]
  dsimp only
  rw [if_neg (not_lt.mpr hentry), if_neg (not_le.mpr hroom), if_pos (by simp [hmalloc])]

/-- Any other leaves the context. -/
theorem loadProgram_early (h : (loadProgram mem u uc args env).2 = .error)
    (hlate : ¬ RefusedLate args env) : (loadProgram mem u uc args env).1.uc = uc := by
  by_cases hopens : env.opens = true
  · cases hinfo : env.info with
    | none =>
      unfold loadProgram
      rw [if_neg (not_not.mpr hopens), hinfo]
    | some li =>
      by_cases hfits : li.Fits args
      · by_cases hmalloc : env.malloc = true
        · -- with the buffer there, it is past refusing
          rw [loadProgram_fits hopens hinfo hfits hmalloc] at h
          rcases loadSegments_cases rfl with ⟨hkill, -⟩ | ⟨hne, -⟩
          · rw [hkill] at h
            cases h
          · exact absurd h hne
        · exact absurd ⟨hopens, ⟨li, hinfo, hfits⟩, Bool.eq_false_iff.mpr hmalloc⟩ hlate
      · rw [loadProgram_misfit hopens hinfo hfits]
  · unfold loadProgram
    rw [if_pos hopens]

/-- **A refused load leaves the process as it was**: its context, its image,
memory and the allocator. -/
def RefusalKeeps (mem : Memory) (u : UserPt) (uc : UserContext) (args : List (List Byte))
    (env : LoadEnv) : Prop :=
  (loadProgram mem u uc args env).2 = .error →
    (loadProgram mem u uc args env).1.uc = uc ∧
    (loadProgram mem u uc args env).1.userpt = u ∧ (loadProgram mem u uc args env).1.mem = mem

end Load

/-- **A refused load leaves the process as it was but for the late refusal**,
which moves the stack pointer. -/
theorem refusalKeeps_iff (mem : Memory) (u : UserPt) (uc : UserContext)
    (args : List (List Byte)) (env : LoadEnv) :
    RefusalKeeps mem u uc args env ↔ ¬ (RefusedLate args env ∧ uc.sp ≠ argSp args) := by
  constructor
  · rintro hkeeps ⟨hlate, hsp⟩
    unfold RefusalKeeps at hkeeps
    rw [loadProgram_late hlate] at hkeeps
    exact hsp (congrArg UserContext.sp (hkeeps rfl).1).symm
  · intro hnot herr
    obtain ⟨hmem, hu⟩ := loadProgram_error herr
    refine ⟨?_, hu, hmem⟩
    by_cases hlate : RefusedLate args env
    · have hsp : uc.sp = argSp args := not_not.mp fun hne => hnot ⟨hlate, hne⟩
      rw [loadProgram_late hlate]
      dsimp only
      rw [← hsp]
    · exact loadProgram_early herr hlate

omit [Paging] in
/-- **Init, with another stack pointer than it was started with, execs its
program again with no arguments** and no kernel memory for the buffer. -/
theorem not_refusalKeeps :
    let _ := yalnixPaging
    ∃ (k : Kernel ℕ ℕ) (c : Proc ℕ ℕ), kernelStart (smallBoot 140) = some k ∧ k.curr = some c ∧
      ¬ RefusalKeeps k.mem c.userpt { c.uc with sp := 2097000 } []
        { onePage with malloc := false } := by
  let _ := yalnixPaging
  obtain ⟨k, c, -, -, -, hk, hc, -⟩ := smallBoot_started
  refine ⟨k, c, hk, hc, fun hkeeps => ?_⟩
  have hlate : RefusedLate [] { onePage with malloc := false } :=
    ⟨rfl, ⟨_, rfl, by decide, by decide⟩, rfl⟩
  unfold RefusalKeeps at hkeeps
  rw [loadProgram_late hlate] at hkeeps
  have hsp : argSp [] = 2097000 := congrArg UserContext.sp (hkeeps rfl).1
  exact absurd hsp (by decide)

/-! ## `KernelExec` -/

variable {Node Addr : Type} [DecidableEq Node] [DecidableEq Addr] {k k' : Kernel Node Addr}
  {c : Proc Node Addr} {filename argvec : ℤ} {env : LoadEnv}

/-- **An `Exec` that returns to its caller with an error** has changed
nothing, or its stack pointer; in any other the caller has been killed. -/
theorem kernelExec_refused (hc : k.curr = some c)
    (h : kernelExec k filename argvec env = some (k', errorCode)) :
    k' = k ∨
    (env.malloc = false ∧ ∃ args, k' = k.set k.procs.running
      { c with uc := { c.uc with sp := argSp args } } k.mem) ∨
    ∃ k₀, kernelExit k₀ errorCode = some k' := by
  unfold kernelExec at h
  rw [hc] at h
  dsimp only at h
  split at h
  · cases h
  · exact Or.inl (Prod.mk.inj (Option.some.inj h)).1.symm
  · obtain ⟨args, hargs⟩ : ∃ args, args = argsAt k.mem c.userpt.pt maxCheck argvec := ⟨_, rfl⟩
    obtain ⟨l, hl⟩ : ∃ l, l = loadProgram k.mem c.userpt c.uc args env := ⟨_, rfl⟩
    rw [← hargs, ← hl, modify_eq_set hc] at h
    split at h
    · -- the program was loaded, and the call does not return to its caller
      exact absurd (Prod.mk.inj (Option.some.inj h)).2 successCode_ne_errorCode
    · rename_i hcode
      obtain rfl := (Prod.mk.inj (Option.some.inj h)).1
      have hrec : ({ c with
          userpt := l.1.userpt
          uc := l.1.uc
          inherited := c.inherited && decide (l.2 ≠ .success) } : Proc Node Addr) =
          { c with uc := l.1.uc } := by
        rw [hcode, hl, (loadProgram_error (hl ▸ hcode)).2]
        simp
      rw [hrec, show l.1.mem = k.mem by rw [hl]; exact (loadProgram_error (hl ▸ hcode)).1]
      by_cases hlate : RefusedLate args env
      · refine Or.inr (Or.inl ⟨hlate.2.2, args, ?_⟩)
        rw [hl, loadProgram_late hlate]
      · refine Or.inl ?_
        rw [hl, loadProgram_early (hl ▸ hcode) hlate]
        unfold Kernel.set
        rw [Function.update_eq_self_iff.mpr hc.symm]
    · obtain ⟨k₁, hexit, heq⟩ := Option.map_eq_some_iff.mp h
      obtain rfl := (Prod.mk.inj heq).1
      exact Or.inr (Or.inr ⟨_, hexit⟩)

end Yalnix
