import Yalnix.Memory.Built
import Yalnix.Process.Refused
/-!
# What `LoadProgram` gives back

The descriptor it opens and the buffer it saves the arguments in, on each of
its nine ways out. The refusals before `malloc` close the file, and so does
each of the two failed reads; only the return that succeeds frees the
buffer.
-/

namespace Yalnix

variable [Paging]

open Paging

variable {mem : Memory} {u : UserPt} {uc : UserContext} {args : List (List Byte)} {env : LoadEnv}
  {li : LoadInfo}

instance : Decidable (li.Fits args) := inferInstanceAs (Decidable (_ ∧ _))

/-- `LoadProgram` gets its buffer: the file is there and is a program that
fits, and `malloc` has room. -/
def takesBuffer (args : List (List Byte)) (env : LoadEnv) : Bool :=
  env.opens && env.malloc && env.info.any fun li => li.Fits args

/-- **The file is closed once if it was opened**, and the buffer freed once
if it was allocated. -/
def Releases (mem : Memory) (u : UserPt) (uc : UserContext) (args : List (List Byte))
    (env : LoadEnv) : Prop :=
  (loadProgram mem u uc args env).1.closes = env.opens.toNat ∧
  (loadProgram mem u uc args env).1.frees = (takesBuffer args env).toNat

/-- **Nothing goes wrong once the checks are passed**: `malloc` has room,
there is a frame for each page, and both reads are complete. -/
def Unbroken (mem : Memory) (u : UserPt) (args : List (List Byte)) (env : LoadEnv) : Prop :=
  ∀ li, env.opens = true → env.info = some li → li.Fits args →
    env.malloc = true ∧ li.pagesNeeded args ≤ framesLeft mem.frames + u.count ∧
    (env.text.map fun bytes => (bytes.length : ℤ)) = some (li.tNpg * pageSize) ∧
    (env.data.map fun bytes => (bytes.length : ℤ)) = some (li.idNpg * pageSize)

/-- **The second half of `LoadProgram`** frees the buffer where it succeeds. -/
theorem loadSegments_frees : (loadSegments mem u uc args env li).1.frees = 1 ↔
    li.pagesNeeded args ≤ framesLeft mem.frames + u.count ∧
    (env.text.map fun bytes => (bytes.length : ℤ)) = some (li.tNpg * pageSize) ∧
    (env.data.map fun bytes => (bytes.length : ℤ)) = some (li.idNpg * pageSize) := by
  have hfree : framesLeft (destroyUsermem mem.frames u).1 = framesLeft mem.frames + u.count :=
    framesLeft_unmapValid nodup_pages
  unfold loadSegments LoadInfo.pagesNeeded
  dsimp only
  rw [hfree]
  split
  · rename_i hleft
    exact iff_of_false Nat.zero_ne_one fun h => not_lt.mpr h.1 hleft
  · rename_i hleft
    split
    · rename_i htext
      exact iff_of_false Nat.zero_ne_one fun h => htext h.2.1
    · rename_i htext
      split
      · rename_i hdata
        exact iff_of_false Nat.zero_ne_one fun h => hdata h.2.2
      · rename_i hdata
        exact iff_of_true rfl ⟨not_lt.mp hleft, not_not.mp htext, not_not.mp hdata⟩

/-- Where the buffer is freed the file has been closed. -/
theorem loadSegments_closes (h : (loadSegments mem u uc args env li).1.frees = 1) :
    (loadSegments mem u uc args env li).1.closes = 1 := by
  unfold loadSegments at h ⊢
  dsimp only at h ⊢
  split
  · rename_i hleft
    rw [if_pos hleft] at h
    exact absurd h Nat.zero_ne_one
  · split
    · rfl
    · split <;> rfl

/-- **`LoadProgram` releases what it took exactly where nothing goes wrong
once the checks are passed.** -/
theorem releases_iff (mem : Memory) (u : UserPt) (uc : UserContext) (args : List (List Byte))
    (env : LoadEnv) : Releases mem u uc args env ↔ Unbroken mem u args env := by
  unfold Releases
  by_cases hopens : env.opens = true
  · cases hinfo : env.info with
    | none =>
      have hrun : loadProgram mem u uc args env = (⟨mem, u, uc, 1, 0⟩, .error) := by
        unfold loadProgram
        rw [if_neg (not_not.mpr hopens), hinfo]
      refine iff_of_true ?_ fun li _ hli => ?_
      · rw [hrun, takesBuffer, hinfo, hopens]
        simp
      · rw [hinfo] at hli
        cases hli
    | some li =>
      have hunbroken : Unbroken mem u args env ↔ (li.Fits args → env.malloc = true ∧
          li.pagesNeeded args ≤ framesLeft mem.frames + u.count ∧
          (env.text.map fun bytes => (bytes.length : ℤ)) = some (li.tNpg * pageSize) ∧
          (env.data.map fun bytes => (bytes.length : ℤ)) = some (li.idNpg * pageSize)) := by
        constructor
        · exact fun h => h li hopens hinfo
        · intro h li' _ hli'
          obtain rfl := Option.some.inj (hinfo.symm.trans hli')
          exact h
      rw [hunbroken]
      by_cases hfits : li.Fits args
      · rw [forall_prop_of_true hfits]
        by_cases hmalloc : env.malloc = true
        · have htakes : takesBuffer args env = true := by
            rw [takesBuffer, hopens, hmalloc, hinfo]
            simp [hfits]
          rw [loadProgram_fits hopens hinfo hfits hmalloc, htakes, hopens, ← loadSegments_frees]
          exact ⟨fun h => ⟨hmalloc, h.2⟩, fun h => ⟨loadSegments_closes h.2, h.2⟩⟩
        · -- the file stays open
          rw [loadProgram_late ⟨hopens, ⟨li, hinfo, hfits⟩, Bool.eq_false_iff.mpr hmalloc⟩, hopens]
          exact iff_of_false (fun h => absurd h.1 Nat.zero_ne_one) fun h => hmalloc h.1
      · rw [forall_prop_of_false hfits, loadProgram_misfit hopens hinfo hfits, takesBuffer, hinfo,
          hopens]
        simp [hfits]
  · rw [Bool.not_eq_true] at hopens
    have hrun : loadProgram mem u uc args env = (⟨mem, u, uc, 0, 0⟩, .error) := by
      unfold loadProgram
      rw [hopens, if_pos Bool.false_ne_true]
    refine iff_of_true ?_ fun li hli => ?_
    · rw [hrun, takesBuffer, hopens]
      exact ⟨rfl, rfl⟩
    · rw [hopens] at hli
      cases hli

omit [Paging] in
/-- **Three ways to keep something**: no kernel memory for the buffer, which
leaves the file open, no frames for the image, which leaves both, and a text
that cannot be read, which leaves the buffer. -/
theorem not_releases :
    let _ := yalnixPaging
    ¬ Releases twoPagesMem twoPagesPt ⟨0, 0, fun _ => 0⟩ [[65]]
      { threePages with malloc := false } ∧
    ¬ Releases { twoPagesMem with frames := newFreeFrame 0 } newUserPt ⟨0, 0, fun _ => 0⟩ [[65]]
      threePages ∧
    ¬ Releases twoPagesMem twoPagesPt ⟨0, 0, fun _ => 0⟩ [[65]]
      { threePages with text := none } := by
  intro _
  refine ⟨fun h => ?_, fun h => ?_, fun h => ?_⟩
  · exact absurd h.1 (by decide +kernel)
  · exact absurd h.1 (by decide +kernel)
  · exact absurd h.2 (by decide +kernel)

end Yalnix
