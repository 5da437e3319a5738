import Yalnix.Memory.Tallied
import Yalnix.Process.Bodies
import Yalnix.Process.Copies
import Yalnix.Process.Destroyed
/-!
# No frame is lost

Every frame in use is in a slot of a process that has not been destroyed, or
is the kernel's own. It is the converse of exclusivity, and the other half
of what a maintainer wants of the frames: a process that goes gives back all
it had. That takes knowing where its pages are (`Proc.Tidy`): an exit walks
the pages of region 1, and `process_destroy` those of the kernel stack and
no others, so that a process must have no user memory left by then.
-/

namespace Yalnix

open Paging

section Tidy

variable {Node Addr : Type} [Paging] {k k' : Kernel Node Addr} {n : Node} {c c' : Proc Node Addr}

/-- **A process's pages are where its end will look for them**, and one that
is dead has none in region 1. -/
structure Proc.Tidy (c : Proc Node Addr) : Prop where
  user : ∀ i, (c.userpt.pt i).valid = true → i ∈ pages 0 numPages1
  kstack : ∀ i, (c.kstack i).valid = true → i ∈ pages 0 numKstackPages
  spent : c.kin = none → ∀ i, (c.userpt.pt i).valid = false

/-- **The frames in use are those of the slots, and the kernel's `own`.** -/
structure Kernel.Balanced (own : Set ℤ) (k : Kernel Node Addr) : Prop where
  tallied : Tallied k.mem.frames k.pte own
  tidy : ∀ n c, k.proc n = some c → c.Tidy

variable {own : Set ℤ}

theorem Proc.Tidy.congr (h : c.Tidy) (hkin : c.kin.isSome = c'.kin.isSome)
    (huserpt : c.userpt = c'.userpt) (hkstack : c.kstack = c'.kstack) : c'.Tidy where
  user := huserpt ▸ h.user
  kstack := hkstack ▸ h.kstack
  spent hdead := by
    rw [hdead, Option.isSome_none, Option.isSome_eq_false_iff, Option.isNone_iff_eq_none] at hkin
    rw [← huserpt]
    exact h.spent hkin

/-- What touches no frame and nobody's body. -/
theorem Kernel.Balanced.of_body (h : k.Balanced own) (hbody : k'.body = k.body)
    (hf : k'.mem.frames = k.mem.frames) : k'.Balanced own where
  tallied := by
    rw [hf, pte_of_body hbody]
    exact h.tallied
  tidy n c' hc' := by
    obtain ⟨c, hc, hlives, huserpt, hkstack, -⟩ := body_forth hbody hc'
    exact (h.tidy n c hc).congr hlives huserpt hkstack

end Tidy

/-! ## The operations -/

variable {Node Addr : Type} [Paging] [DecidableEq Node] {k k' : Kernel Node Addr} {n : Node}
  {c c' : Proc Node Addr} {mem : Memory} {own : Set ℤ}

omit [DecidableEq Node] in
/-- The user part of the whole. -/
theorem Kernel.Balanced.user (h : k.Balanced own) (hc : k.proc n = some c) :
    Tallied k.mem.frames c.userpt.pt (heldOutside k.pte (Slot.user n) ∪ own) := by
  have hpart := h.tallied.localize (Slot.user_injective n)
  have heq : (fun i => k.pte (Slot.user n i)) = c.userpt.pt := by
    funext i
    simp [Kernel.pte, hc]
  rwa [heq] at hpart

omit [Paging] in
/-- A process that is stored keeps the slots of the others, and its kernel
stack's. -/
theorem set_pte_of_not_mem (hc : k.proc n = some c) (hkstack : c'.kstack = c.kstack)
    {e : Slot Node} (he : e ∉ Set.range (Slot.user n)) : (k.set n c' mem).pte e = k.pte e := by
  cases e with
  | user m i =>
    have hm : m ≠ n := fun hmn => he ⟨i, hmn ▸ rfl⟩
    show ((Function.update k.proc n (some c') m).map _).getD _ = _
    rw [Function.update_of_ne hm]
    rfl
  | kstack m i =>
    show ((Function.update k.proc n (some c') m).map _).getD _ = _
    rcases eq_or_ne m n with rfl | hm
    · rw [Function.update_self]
      simp [Kernel.pte, hc, hkstack]
    · rw [Function.update_of_ne hm]
      rfl

/-- **A call that works on its own user page table.** -/
theorem Kernel.Balanced.set (h : k.Balanced own) (hc : k.proc n = some c)
    (hkstack : c'.kstack = c.kstack) (htidy : c'.Tidy)
    (hpart : Tallied mem.frames c'.userpt.pt (heldOutside k.pte (Slot.user n) ∪ own)) :
    (k.set n c' mem).Balanced own where
  tallied := by
    refine h.tallied.glue hpart (fun i _ => ?_) fun e he _ => set_pte_of_not_mem hc hkstack he
    show ((Function.update k.proc n (some c') n).map _).getD _ = _
    rw [Function.update_self]
    rfl
  tidy m d hd := by
    unfold Kernel.set at hd
    dsimp only at hd
    rcases eq_or_ne m n with rfl | hm
    · rw [Function.update_self] at hd
      exact Option.some.inj hd ▸ htidy
    · rw [Function.update_of_ne hm] at hd
      exact h.tidy m d hd

/-- **A page table walked over all its pages** maps nothing. -/
theorem unmapValid_invalid (free : FreeFrame) {pt : ℤ → Pte} {is : List ℤ}
    (h : ∀ i, (pt i).valid = true → i ∈ is) (i : ℤ) :
    ((unmapValid is free pt).2 i).valid = false := by
  by_cases hi : i ∈ is
  · exact unmapValid_of_mem hi
  · rw [unmapValid_of_not_mem hi]
    by_contra hv
    exact hi (h i (by simpa using hv))

variable [DecidableEq Addr]

/-- **`process_destroy`**, of the dead. -/
theorem Kernel.Balanced.processDestroy (h : k.Balanced own) (howned : k.Owned)
    (hdead : ∀ c, k.proc n = some c → c.kin = none) : (processDestroy k n).Balanced own := by
  unfold Yalnix.processDestroy
  cases hn : k.proc n with
  | none => exact h
  | some c =>
    have htidy := h.tidy n c hn
    have heq : (fun i => k.pte (Slot.kstack n i)) = c.kstack := by
      funext i
      simp [Kernel.pte, hn]
    have hpart := h.tallied.localize (Slot.kstack_injective n)
    rw [heq] at hpart
    have hafter := hpart.unmapValid howned.ok (pages 0 numKstackPages)
    have hblank := unmapValid_invalid k.mem.frames htidy.kstack
    refine ⟨h.tallied.glue hafter (fun i hv => ?_) fun e he hv => ?_, fun m d hd => ?_⟩
    · rcases hv with hv | hv
      · simp [Kernel.pte, invalidPte] at hv
      · rw [hblank i] at hv
        cases hv
    · cases e with
      | user m i =>
        rcases eq_or_ne m n with rfl | hm
        · have hnone := htidy.spent (hdead c hn) i
          simp [Kernel.pte, hn, hnone, invalidPte] at hv
        · show ((Function.update k.proc n none m).map _).getD _ = _
          rw [Function.update_of_ne hm]
          rfl
      | kstack m i =>
        have hm : m ≠ n := fun hmn => he ⟨i, hmn ▸ rfl⟩
        show ((Function.update k.proc n none m).map _).getD _ = _
        rw [Function.update_of_ne hm]
        rfl
    · dsimp only at hd
      rcases eq_or_ne m n with rfl | hm
      · rw [Function.update_self] at hd
        cases hd
      · rw [Function.update_of_ne hm] at hd
        exact h.tidy m d hd

/-- Whoever is left after a `process_destroy` was there. -/
theorem proc_of_processDestroy {m : Node} {d : Proc Node Addr}
    (hd : (processDestroy k n).proc m = some d) : k.proc m = some d := by
  unfold processDestroy at hd
  cases hn : k.proc n with
  | none =>
    rw [hn] at hd
    exact hd
  | some c =>
    rw [hn] at hd
    dsimp only at hd
    rcases eq_or_ne m n with rfl | hm
    · rw [Function.update_self] at hd
      cases hd
    · rwa [Function.update_of_ne hm] at hd

theorem Kernel.Balanced.destroyAll {procs : List Node} (h : k.Balanced own) (howned : k.Owned)
    (hdead : ∀ n ∈ procs, ∀ c, k.proc n = some c → c.kin = none) :
    (destroyAll procs k).Balanced own := by
  induction procs generalizing k with
  | nil => exact h
  | cons proc rest ih =>
    exact ih (h.processDestroy howned (hdead proc List.mem_cons_self)) howned.processDestroy
      fun m hm d hd => hdead m (List.mem_cons_of_mem _ hm) d (proc_of_processDestroy hd)

/-- **`reap_orphans`.** -/
theorem Kernel.Balanced.reapOrphans (h : k.Balanced own) (howned : k.Owned)
    (hdead : ∀ n ∈ k.procs.orphans, ∀ c, k.proc n = some c → c.kin = none) :
    (reapOrphans k).Balanced own :=
  (h.destroyAll howned hdead).of_body rfl rfl

/-- **`process_terminate`**, of a process whose dead children are dead. -/
theorem Kernel.Balanced.processTerminate {kin : Kin Node Addr} (h : k.Balanced own)
    (howned : k.Owned) (rc : ℤ) (hc : k.proc n = some c) (hkin : c.kin = some kin)
    (hdead : ∀ d ∈ kin.dChildren, ∀ c', k.proc d = some c' → c'.kin = none) :
    (processTerminate k n rc).Balanced own := by
  rw [processTerminate_eq rc hc hkin]
  have hblank := unmapValid_invalid k.mem.frames (h.tidy n c hc).user
  have hrelease : (releaseUser k n c rc).Balanced own := by
    refine h.set hc rfl ⟨fun i hv => ?_, (h.tidy n c hc).kstack, fun _ => hblank⟩
      ((h.user hc).unmapValid howned.ok (pages 0 numPages1))
    rw [hblank i] at hv
    cases hv
  have howned₁ : (releaseUser k n c rc).Owned := by
    obtain ⟨hheld, j, hran⟩ := (howned.user hc).unmapValid howned.ok (pages 0 numPages1)
    exact howned.set hc rfl hheld hran
  have horphan : (orphanAll kin.aChildren (releaseUser k n c rc)).Balanced own :=
    hrelease.of_body (body_orphanAll _) (by rw [orphanAll_mem])
  have howned₂ : (orphanAll kin.aChildren (releaseUser k n c rc)).Owned :=
    howned₁.of_leaves (leaves_orphanAll _) (by rw [orphanAll_mem])
  have hwalk : (destroyDefunct kin.dChildren
      (orphanAll kin.aChildren (releaseUser k n c rc))).Balanced own := by
    cases hd : kin.dChildren with
    | nil => exact horphan
    | cons curr rest =>
      refine horphan.processDestroy howned₂ fun d hdproc => ?_
      obtain ⟨d₁, hd₁, hsame⟩ := (leaves_orphanAll kin.aChildren).keeps curr
        (Set.notMem_empty curr) d hdproc
      have hin : curr ∈ kin.dChildren := hd ▸ List.mem_cons_self
      have hne : curr ≠ n := by
        rintro rfl
        have := hdead _ hin c hc
        rw [hkin] at this
        cases this
      have hold : k.proc curr = some d₁ := (Function.update_of_ne hne _ _).symm.trans hd₁
      have halive := hsame.alive
      rw [hdead _ hin d₁ hold] at halive
      exact Option.isNone_iff_eq_none.mp (Option.isSome_eq_false_iff.mp halive)
  -- what is left is to mark the process dead
  have hleaves : Leaves (releaseUser k n c rc) (destroyDefunct kin.dChildren
      (orphanAll kin.aChildren (releaseUser k n c rc))) ∅ :=
    (leaves_orphanAll kin.aChildren).trans (leaves_destroyDefunct kin.dChildren)
  generalize destroyDefunct kin.dChildren (orphanAll kin.aChildren (releaseUser k n c rc)) = k₁
    at hwalk hleaves
  have hpte : (k₁.modify n fun p => { p with kin := none }).pte = k₁.pte :=
    funext fun e => pte_modify (fun _ => by exact ⟨rfl, rfl⟩) e
  refine ⟨hpte ▸ hwalk.tallied, fun m d hd => ?_⟩
  rcases eq_or_ne m n with rfl | hm
  · obtain ⟨d₁, hd₁, rfl⟩ := Option.map_eq_some_iff.mp
      ((Function.update_self m _ k₁.proc).symm.trans hd)
    obtain ⟨d₀, hd₀, hsame⟩ := hleaves.keeps m (Set.notMem_empty m) d₁ hd₁
    obtain rfl := Option.some.inj ((Function.update_self m _ k.proc).symm.trans hd₀)
    refine ⟨(hwalk.tidy m d₁ hd₁).user, (hwalk.tidy m d₁ hd₁).kstack, fun _ i => ?_⟩
    show (d₁.userpt.pt i).valid = false
    rw [hsame.userpt]
    exact hblank i
  · rw [modify_of_ne hm] at hd
    exact hwalk.tidy m d hd

/-- **`KernelExit`.** -/
theorem Kernel.Balanced.kernelExit {kin : Kin Node Addr} {status : ℤ} (h : k.Balanced own)
    (howned : k.Owned) (hk : k.Kindred) (hc : k.curr = some c) (hkin : c.kin = some kin)
    (hexit : kernelExit k status = some k') : k'.Balanced own := by
  obtain ⟨c₁, hc₁, hm, hkinship⟩ := reaped_self hk hc hkin
  have hkin₁ : c₁.kin = some kin := (congrArg Member.kin hm).trans hkin
  have hreaped : (Yalnix.reapOrphans k).Balanced own := by
    refine h.reapOrphans howned fun m hm d hd => ?_
    obtain ⟨d', hd', hdead⟩ := hk.orphan_dead hm
    exact Option.some.inj (hd'.symm.trans hd) ▸ hdead
  rw [kernelExit_eq hexit]
  refine Kernel.Balanced.of_body (hreaped.processTerminate howned.reapOrphans status hc₁ hkin₁
    fun d hd c' hc' => ?_) body_graveyard (by rw [graveyard_mem])
  obtain ⟨m, hm, hdead, -⟩ := hkinship.defunct (member_eq hc₁) hkin₁ hd
  obtain ⟨c'', hc'', rfl⟩ := exists_of_member hm
  exact Option.some.inj (hc''.symm.trans hc') ▸ hdead

omit [DecidableEq Addr] in
/-- **`LoadProgram`**, whatever comes of it. -/
theorem Kernel.Balanced.loaded {args : List (List Byte)} {env : LoadEnv} {r : Loaded × LoadCode}
    (h : k.Balanced own) (hok : k.mem.frames.Ok) (hc : k.proc n = some c) (halive : c.kin ≠ none)
    (henv : ∀ li, env.info = some li → li.WellFormed)
    (hr : loadProgram k.mem c.userpt c.uc args env = r) :
    (k.set n (loadedProc c r) r.1.mem).Balanced own := by
  have htidy := h.tidy n c hc
  have hset : (∀ i, (r.1.userpt.pt i).valid = true → i ∈ pages 0 numPages1) →
      Tallied r.1.mem.frames r.1.userpt.pt (heldOutside k.pte (Slot.user n) ∪ own) →
      (k.set n (loadedProc c r) r.1.mem).Balanced own :=
    fun huser hpart =>
      h.set hc rfl ⟨huser, htidy.kstack, fun hdead => absurd hdead halive⟩ hpart
  by_cases herr : r.2 = .error
  · have hsame : r.1.mem = k.mem ∧ r.1.userpt = c.userpt := by
      subst hr
      exact loadProgram_error herr
    refine hset ?_ ?_
    · rw [hsame.2]
      exact htidy.user
    · rw [hsame.1, hsame.2]
      exact h.user hc
  · obtain ⟨li, hinfo, hroom, heq⟩ :=
      loadProgram_committed (show (loadProgram k.mem c.userpt c.uc args env).2 ≠ .error by rwa [hr])
    rw [hr] at heq
    have hblank := unmapValid_invalid k.mem.frames htidy.user
    have hfree := (h.user hc).unmapValid hok (pages 0 numPages1)
    obtain ⟨-, j, hran⟩ := (h.user hc).toHeld.unmapValid hok (pages 0 numPages1)
    rcases loadSegments_cases heq.symm with ⟨-, hf, hu⟩ | ⟨-, hleft, hmapped⟩
    · -- not enough frames: the old memory has been given back
      refine hset (fun i hv => ?_) ?_
      · rw [hu] at hv
        exact absurd (hv.symm.trans (hblank i)) (by simp)
      · rw [hf, hu]
        exact hfree
    · have hli := henv li hinfo
      refine hset (fun i hv => ?_) ?_
      · exact hli.ordered.segments_region hroom ((hmapped.valid_iff_mem hblank i).mp hv)
      · rw [hmapped.frames_eq]
        exact (hfree.mapSegments hran.ok hli hroom hleft hblank).congr fun i =>
          ⟨hmapped.valid_eq i, hmapped.pfn_eq i⟩

omit [DecidableEq Addr] in
/-- **A new process**, in frames that were free. -/
theorem Kernel.Balanced.withTables {child : Node} {pt kstack : ℤ → Pte} {f : FreeFrame}
    (h : k.Balanced own) (hchild : k.proc child = none)
    (huser : ∀ others, Tallied k.mem.frames (fun _ : ℤ => invalidPte) others →
      Tallied f pt others)
    (hstack : ∀ others, Tallied f (fun _ : ℤ => invalidPte) others →
      Tallied mem.frames kstack others) :
    Tallied mem.frames (withTables k child pt kstack) own := by
  have hnone : ∀ i, k.pte (Slot.user child i) = invalidPte ∧
      k.pte (Slot.kstack child i) = invalidPte := fun i => by simp [Kernel.pte, hchild]
  -- first the region, with no kernel stack
  obtain ⟨t, ht⟩ : ∃ t : Slot Node → Pte, t = Yalnix.withTables k child pt fun _ => invalidPte :=
    ⟨_, rfl⟩
  have hone : Tallied f t own := by
    have hpart := h.tallied.localize (Slot.user_injective child)
    rw [show (fun i => k.pte (Slot.user child i)) = fun _ => invalidPte from
      funext fun i => (hnone i).1] at hpart
    refine h.tallied.glue (huser _ hpart) (fun i _ => ?_) fun e he hv => ?_
    · rw [ht]
      exact if_pos rfl
    · rw [ht]
      cases e with
      | user n i => exact if_neg fun hn => he ⟨i, by rw [hn]⟩
      | kstack n i =>
        rcases eq_or_ne n child with rfl | hn
        · exact (if_pos rfl).trans (hnone i).2.symm
        · exact if_neg hn
  have hpart := hone.localize (Slot.kstack_injective child)
  rw [show (fun i => t (Slot.kstack child i)) = fun _ => invalidPte from
    funext fun i => by rw [ht]; exact if_pos rfl] at hpart
  refine hone.glue (hstack _ hpart) (fun i _ => if_pos rfl) fun e he _ => ?_
  rw [ht]
  cases e with
  | user n i => rfl
  | kstack n i =>
    have hn : n ≠ child := fun hn => he ⟨i, by rw [hn]⟩
    exact (if_neg hn).trans (if_neg hn).symm

/-- **`KernelFork` with the frames it needs.** -/
theorem Kernel.Balanced.forked {child : Node} {data : Addr} {pid : ℤ} (h : k.Balanced own)
    (howned : k.Owned) (hc : k.curr = some c) (hchild : k.proc child = none)
    (hleft : c.userpt.count + numKstackPages ≤ framesLeft k.mem.frames) :
    (forked k c child data pid).Balanced own := by
  have hkp := numKstackPages_pos
  have hcopied := copyUserMem_copied howned.ok (fun i _ hv => (howned.user hc).used i hv)
    (show (c.userpt.count : ℤ) ≤ framesLeft k.mem.frames by omega)
  have hleft' := hcopied.count
  have hrun : k.proc k.procs.running = some c := hc
  refine ⟨?_, fun m d hd => ?_⟩
  · rw [forked_pte hc]
    refine h.withTables (f := (copyUserMem k.mem c.userpt newUserPt).1.frames) hchild
      (fun others ho => ?_) fun others ho => ?_
    · exact ho.copyValid howned.ok (by unfold UserPt.count at hleft; omega) nodup_pages
        fun _ _ => rfl
    · exact ho.copyKstack hcopied.ok (by rw [length_kstackPages, hleft']; omega) nodup_pages
        fun _ _ => rfl
  · have hd' : Function.update (Function.update k.proc k.procs.running (some (parentOf k c data)))
        child (some (childOf k c data pid)) m = some d := hd
    rcases eq_or_ne m child with rfl | hm
    · rw [Function.update_self] at hd'
      obtain rfl := Option.some.inj hd'
      refine ⟨fun i hv => ?_, fun i hv => ?_, fun hdead => nomatch hdead⟩
      · by_contra hi
        rw [show ((childOf k c data pid).userpt.pt i) = invalidPte from
          copyValid_of_not_mem hi] at hv
        cases hv
      · by_contra hi
        rw [show ((childOf k c data pid).kstack i) = invalidPte from
          copyKstack_of_not_mem hi] at hv
        cases hv
    · rw [Function.update_of_ne hm] at hd'
      rcases eq_or_ne m k.procs.running with rfl | hm'
      · rw [Function.update_self] at hd'
        obtain rfl := Option.some.inj hd'
        refine (h.tidy _ c hrun).congr ?_ rfl rfl
        cases hkin : c.kin <;> simp [parentOf, hkin]
      · rw [Function.update_of_ne hm'] at hd'
        exact h.tidy m d hd'

/-- **What `KernelWait` collects.** -/
theorem Kernel.Balanced.collected {kin : Kin Node Addr} {child : Node} {rest : List Node}
    {childPcb : Proc Node Addr} {statusPtr : ℤ} (h : k.Balanced own) (howned : k.Owned)
    (hk : k.Kindred) (hc : k.curr = some c) (hkin : c.kin = some kin)
    (hd : kin.dChildren = child :: rest) :
    (collected k c kin child rest childPcb statusPtr).Balanced own := by
  obtain ⟨kd, hkd⟩ : ∃ kd, kd = dequeued k c kin rest childPcb statusPtr := ⟨_, rfl⟩
  have hbody : kd.body = k.body := by
    have hset : (k.set k.procs.running { c with
        kin := some { kin with dChildren := rest }
        children := c.children.erase childPcb.serial } k.mem).body = k.body :=
      body_set k.mem hc (by rw [hkin]; rfl) rfl rfl rfl
    rw [hkd]
    unfold dequeued
    dsimp only
    split
    · exact hset
    · exact hset
  have hframes : kd.mem.frames = k.mem.frames := by
    rw [hkd]
    unfold dequeued
    dsimp only
    split
    · exact storeBytes_frames _
    · rfl
  have hprocs : kd.procs = k.procs := by
    rw [hkd]
    unfold dequeued
    dsimp only
    split <;> rfl
  -- the dead are as dead as they were
  have hdead : ∀ {m m' d}, k.proc m = some m' → m'.kin = none → kd.proc m = some d →
      d.kin = none := by
    intro m m' d hm hnone hd
    obtain ⟨d₀, hd₀, hlives, -⟩ := body_forth hbody hd
    obtain rfl := Option.some.inj (hm.symm.trans hd₀)
    rw [hnone] at hlives
    exact Option.isNone_iff_eq_none.mp (Option.isSome_eq_false_iff.mp hlives.symm)
  have howned' : kd.Owned := howned.of_body hbody hframes
  have hdestroyed : (Yalnix.processDestroy kd child).Balanced own := by
    refine (h.of_body hbody hframes).processDestroy howned' fun d hdproc => ?_
    obtain ⟨m, hm, hnone, -⟩ := hk.kinship.defunct (member_eq hc) hkin (hd ▸ List.mem_cons_self)
    obtain ⟨m', hm', rfl⟩ := exists_of_member hm
    exact hdead hm' hnone hdproc
  have heq : Yalnix.collected k c kin child rest childPcb statusPtr =
      Yalnix.reapOrphans (Yalnix.processDestroy kd child) := by
    rw [hkd]
    rfl
  rw [heq]
  refine hdestroyed.reapOrphans howned'.processDestroy fun m hm d hdproc => ?_
  rw [processDestroy_procs, hprocs] at hm
  obtain ⟨m', hm', hnone⟩ := hk.orphan_dead hm
  exact hdead hm' hnone (proc_of_processDestroy hdproc)

omit [DecidableEq Node] [DecidableEq Addr] in
/-- The pages of an image are pages of region 1. -/
theorem Layout.within {u : UserPt} {d b s : ℤ} (hl : Layout u d b s) (i : ℤ)
    (hv : (u.pt i).valid = true) : i ∈ pages 0 numPages1 := by
  rw [mem_pages]
  by_contra hi
  rw [hl.outside i (by omega)] at hv
  cases hv

/-- **What one activation does to the frames.** -/
theorem balanced_step {e : Node × ProcAct Node Addr} (h : k.Balanced own) (howned : k.Owned)
    (himg : k.Imaged) (hk : k.Kindred) (he : e.2.InDomain) (hfits : ForkFits k e)
    (hstep : k.step e = some k') : k'.Balanced own := by
  obtain ⟨p, act⟩ := e
  obtain ⟨c, kin, hp, hkin, hidle, -, -, heff⟩ := step_effect hstep
  have h₀ : (switchTo k p c).Balanced own := h.of_body rfl rfl
  have howned₀ : (switchTo k p c).Owned := howned.of_leaves (leaves_switchTo c) rfl
  have hk₀ : (switchTo k p c).Kindred := hk.congr rfl rfl rfl rfl
  obtain ⟨⟨d, b, s, hl⟩, -⟩ := himg p c hp (by rw [hkin]; rfl) hidle
  have hc : (switchTo k p c).curr = some c := switchTo_curr hp
  have htidy := h.tidy p c hp
  have halive : c.kin ≠ none := by
    rw [hkin]
    exact Option.some_ne_none _
  have hset : ∀ r : FreeFrame × UserPt,
      (∀ i, (r.2.pt i).valid = true → i ∈ pages 0 numPages1) →
      Tallied r.1 r.2.pt (heldOutside (switchTo k p c).pte (Slot.user p) ∪ own) →
      ((switchTo k p c).setUser p c r).Balanced own :=
    fun r huser hpart =>
      h₀.set hp rfl ⟨huser, htidy.kstack, fun hdead => absurd hdead halive⟩ hpart
  cases heff with
  | forkRefused => exact h₀
  | forked child data pid hyes hchild hdata =>
    exact h₀.forked howned₀ hc hchild (hfits c hp hyes)
  | execRefused => exact h₀
  | loaded filename argvec env args l hload hcode => exact h₀.loaded howned₀.ok hc halive he hload
  | killed filename argvec env args l k' hload hcode hexit =>
    have hfamily : ((switchTo k p c).set p (loadedProc c l) l.1.mem).family =
        (switchTo k p c).family := family_set _ hp rfl
    exact (h₀.loaded howned₀.ok hc halive he hload).kernelExit (howned₀.loaded hc he hload)
      (hk₀.congr hfamily rfl rfl rfl) (set_self _ _) hkin hexit
  | exited status k' hexit => exact h₀.kernelExit howned₀ hk₀ hc hkin hexit
  | waitRefused => exact h₀
  | asleep => exact h₀.of_body rfl rfl
  | collected act statusPtr child rest childPcb hin hd =>
    exact (h₀.collected howned₀ hk₀ hc hkin hd).of_body rfl rfl
  | brk addr r hr =>
    rcases kernelUserBrk_cases hc hl hr with
      heq | ⟨b', -, -, ⟨hlo, hhi, hleft, heq⟩ | ⟨hlo, hhi, heq⟩⟩
    · rw [heq]
      exact h₀
    · rw [heq]
      have hlen := length_pages hlo.le
      refine hset _ (hl.growHeap hlo.le hhi _).within ((h₀.user hp).mapPages howned₀.ok _
        (by rw [hlen]; exact hleft) nodup_pages fun i hi => ?_)
      rw [mem_pages] at hi
      exact hl.gap i hi.1 (by omega)
    · rw [heq]
      refine hset _ (hl.shrinkHeap hlo hhi _).within ((h₀.user hp).unmapPages howned₀.ok
        (List.nodup_reverse.mpr nodup_pages) fun i hi => ?_)
      rw [List.mem_reverse, mem_pages] at hi
      exact hl.heap i (by omega) hi.2
  | fault addr k' hk' =>
    rcases trapMemory_cases hc hl hk' with hexit | ⟨s', hlo, hhi, hleft, heq⟩
    · exact h₀.kernelExit howned₀ hk₀ hc hkin hexit
    · rw [heq]
      have hlen := length_pages hhi
      refine hset _ (hl.growStack hlo hhi _).within ((h₀.user hp).mapPages howned₀.ok _
        (by rw [List.length_reverse, hlen]; exact hleft) (List.nodup_reverse.mpr nodup_pages)
        fun i hi => ?_)
      rw [List.mem_reverse, mem_pages] at hi
      exact hl.gap i (by omega) hi.2
  | stored => exact h₀.of_body rfl rfl

/-! ## Booting -/

section Boot

variable {b : Boot Node Addr}

omit [DecidableEq Node] [DecidableEq Addr] in
/-- **`VM_setup`** takes the frames of the pages it maps. -/
theorem Tallied.vmSetup {vpns : List ℤ} {free : FreeFrame} {pt : ℤ → Pte}
    (h : Tallied free pt ∅) (hf : free.Ok) (dataStart brk : ℤ) (hnd : vpns.Nodup)
    (hrange : ∀ v ∈ vpns, baseFrame ≤ v ∧ v < baseFrame + free.size)
    (hfresh : ∀ v ∈ vpns, v ∉ free.used) (hblank : ∀ v ∈ vpns, (pt (v - basePage0)).valid = false)
    (hself : ∀ i, (pt i).valid = true → (pt i).pfn = basePage0 + i) :
    Tallied (vmSetup dataStart brk vpns free pt).1 (vmSetup dataStart brk vpns free pt).2 ∅ ∧
      ∀ i, ((Yalnix.vmSetup dataStart brk vpns free pt).2 i).valid = true →
        ((Yalnix.vmSetup dataStart brk vpns free pt).2 i).pfn = basePage0 + i := by
  induction vpns generalizing free pt with
  | nil => exact ⟨h, hself⟩
  | cons vpn vpns ih =>
    obtain ⟨hv, hnd⟩ := List.nodup_cons.mp hnd
    obtain ⟨hlo, hhi⟩ := hrange vpn List.mem_cons_self
    have hnew := hfresh vpn List.mem_cons_self
    have hold := hblank vpn List.mem_cons_self
    have hrest : ∀ {pte : Pte}, ∀ w ∈ vpns,
        (Function.update pt (vpn - basePage0) pte (w - basePage0)).valid = false := by
      intro pte w hw
      have hne : w - basePage0 ≠ vpn - basePage0 := fun he => hv (by rwa [← show w = vpn by omega])
      rw [Function.update_of_ne hne]
      exact hblank w (List.mem_cons_of_mem _ hw)
    rw [vmSetup_cons]
    rcases vmSetupPage_cases dataStart brk free pt vpn with ⟨-, heq⟩ | ⟨prot, heq⟩
    · have hsame : Function.update pt (vpn - basePage0)
          (setPte (pt (vpn - basePage0)) false 0 0) = pt := by
        rw [show setPte (pt (vpn - basePage0)) false 0 0 = pt (vpn - basePage0) by
          rw [setPte, if_neg Bool.false_ne_true, ← hold], Function.update_eq_self]
      rw [heq, hsame]
      exact ih h hf hnd (fun v hv => hrange v (List.mem_cons_of_mem _ hv))
        (fun v hv => hfresh v (List.mem_cons_of_mem _ hv))
        (fun v hv => hblank v (List.mem_cons_of_mem _ hv)) hself
    · obtain ⟨hgot, hpfn⟩ := hf.getFrame_fixed (hf.filled_lt hlo hhi hnew) hlo hhi hnew
      rw [heq, hpfn]
      refine ih (h.insert hgot hold prot) hgot.ok hnd (fun w hw => ?_) (fun w hw => ?_) hrest
        fun i hi => ?_
      · rw [hgot.size_eq]
        exact hrange w (List.mem_cons_of_mem _ hw)
      · rw [hgot.used_eq, Finset.mem_insert, not_or]
        exact ⟨fun he => hv (he ▸ hw), hfresh w (List.mem_cons_of_mem _ hw)⟩
      · dsimp only at hi ⊢
        rcases eq_or_ne i (vpn - basePage0) with rfl | hne
        · rw [Function.update_self]
          dsimp only
          omega
        · rw [Function.update_of_ne hne] at hi ⊢
          exact hself i hi

/-- `kernel_pt` after `VM_setup`. -/
def Boot.kernelPt (b : Boot Node Addr) : ℤ → Pte :=
  (Yalnix.vmSetup b.kernelDataStart b.brk (pages basePage0 limPage0)
    (newFreeFrame b.pmemSize) fun _ => invalidPte).2

/-- **The kernel's own frames**: those of the pages of region 0 that are
mapped below the kernel stack. -/
def Boot.kernelFrames (b : Boot Node Addr) : Set ℤ :=
  {x | x < basePageKstack ∧ (b.kernelPt (x - basePage0)).valid = true}

omit [DecidableEq Node] [DecidableEq Addr] in
/-- **After `VM_setup`** the frames in use are the kernel's own, and its
stack's. -/
theorem bootMem_tallied (h : limPage0 ≤ baseFrame + b.pmemSize / pageSize) :
    Tallied (bootMem b).frames (bootMem b).kernelStack b.kernelFrames := by
  have hbase := baseFrame_le
  have hkstack := basePage0_lt
  have hklim := basePageKstack_lt
  have hlim := limPageKstack_eq
  obtain ⟨-, -, -, hheld⟩ := bootMem_held h
  obtain ⟨hok, hused⟩ := newFreeFrame_ok (show 0 ≤ b.pmemSize / pageSize by omega)
  have hsize : (newFreeFrame b.pmemSize).size = b.pmemSize / pageSize := rfl
  have hblank : Tallied (newFreeFrame b.pmemSize) (fun _ : ℤ => invalidPte) ∅ := by
    refine ⟨Held.of_invalid (fun _ => rfl) fun x hx => absurd hx (Set.notMem_empty x), ?_⟩
    rw [hused]
    exact fun x hx => absurd hx (Finset.notMem_empty x)
  obtain ⟨hacc, hself⟩ := hblank.vmSetup hok b.kernelDataStart b.brk
    (show (pages basePage0 limPage0).Nodup from nodup_pages)
    (fun v hv => by rw [mem_pages] at hv; rw [hsize]; omega)
    (fun v _ => by rw [hused]; exact Finset.notMem_empty v) (fun _ _ => rfl) nofun
  have hpt : ∀ i, (b.kernelPt i).valid = true → (b.kernelPt i).pfn = basePage0 + i := hself
  have hstack : ∀ i, ((bootMem b).kernelStack i).valid = true →
      (0 ≤ i ∧ i < numKstackPages) ∧ ((bootMem b).kernelStack i).pfn = basePageKstack + i := by
    intro i hi
    have heq : (bootMem b).kernelStack i = kstackOf b.kernelPt i := rfl
    rw [heq] at hi ⊢
    unfold kstackOf at hi ⊢
    split at hi
    · rename_i hin
      rw [if_pos hin]
      refine ⟨hin, ?_⟩
      rw [hpt _ hi]
      omega
    · cases hi
  refine ⟨⟨hheld.used, fun i hi ho => ?_, hheld.inj, fun x hx => ?_⟩, fun x hx => ?_⟩
  · have hlt := ho.1
    obtain ⟨⟨hlo, -⟩, hpfn⟩ := hstack i hi
    omega
  · have hmem := hacc.used (x - basePage0) hx.2
    rwa [hself _ hx.2, show basePage0 + (x - basePage0) = x by omega] at hmem
  · obtain ⟨i, hi, rfl⟩ := (hacc.covers x hx).resolve_left (Set.notMem_empty x)
    rw [hself i hi]
    rcases lt_or_ge (basePage0 + i) basePageKstack with hlt | hge
    · left
      refine ⟨hlt, ?_⟩
      rw [show basePage0 + i - basePage0 = i by omega]
      exact hi
    · -- a page of the stack: nothing beyond region 0 was mapped
      right
      have hin : i < limPage0 - basePage0 := by
        by_contra hout
        have hnot : basePage0 + i ∉ pages basePage0 limPage0 := by
          rw [mem_pages]
          omega
        have hsame : b.kernelPt (basePage0 + i - basePage0) = invalidPte := vmSetup_of_not_mem hnot
        rw [show basePage0 + i - basePage0 = i by omega] at hsame
        have hv : (b.kernelPt i).valid = true := hi
        rw [hsame] at hv
        cases hv
      have heq : (bootMem b).kernelStack (basePage0 + i - basePageKstack) = b.kernelPt i := by
        show kstackOf b.kernelPt _ = _
        unfold kstackOf numKstackPages
        rw [if_pos (by omega),
          show basePageKstack + (basePage0 + i - basePageKstack) - basePage0 = i by omega]
      exact ⟨basePage0 + i - basePageKstack, by rw [heq]; exact hi, by rw [heq]; exact hpt i hi⟩

/-- **After `init_load`.** -/
theorem initLoad_balanced (h : limPage0 ≤ baseFrame + b.pmemSize / pageSize)
    (henv : ∀ li, b.env.info = some li → li.WellFormed) (hk : initLoad b = some k) :
    k.Balanced b.kernelFrames := by
  have hacc := bootMem_tallied h
  obtain ⟨hok, -⟩ := bootMem_held h
  obtain ⟨r, hr, -, hmem, -, hproc⟩ := initLoad_eq hk
  obtain ⟨c₀, hc₀⟩ : ∃ c₀ : Proc Node Addr, c₀ = { processInit b.initData b.initPid 0 with
    uc := b.uc
    kstack := (bootMem b).kernelStack } := ⟨_, rfl⟩
  -- the kernel before the load: one process, its user table empty, its stack in use
  obtain ⟨k₀, hk₀⟩ : ∃ k₀ : Kernel Node Addr, k₀ = { k with
    mem := bootMem b
    proc := Function.update (fun _ => none) b.initNode (some c₀) } := ⟨_, rfl⟩
  have hinit : k₀.proc b.initNode = some c₀ := by
    rw [hk₀]
    show Function.update (fun _ => none) b.initNode (some c₀) b.initNode = _
    rw [Function.update_self]
  have hother : ∀ m, m ≠ b.initNode → k₀.proc m = none := by
    intro m hm
    rw [hk₀]
    show Function.update (fun _ => none) b.initNode (some c₀) m = _
    rw [Function.update_of_ne hm]
  have hmem₀ : k₀.mem = bootMem b := by rw [hk₀]
  have hstack : ∀ i, k₀.pte (Slot.kstack b.initNode i) = (bootMem b).kernelStack i :=
    fun i => by simp [Kernel.pte, hinit, hc₀]
  have hslot : ∀ e, (k₀.pte e).valid = true → ∃ i, e = Slot.kstack b.initNode i := by
    intro e he
    cases e with
    | user m i =>
      rcases eq_or_ne m b.initNode with rfl | hm
      · simp [Kernel.pte, hinit, hc₀, processInit, newUserPt, invalidPte] at he
      · simp [Kernel.pte, hother m hm, invalidPte] at he
    | kstack m i =>
      rcases eq_or_ne m b.initNode with rfl | hm
      · exact ⟨i, rfl⟩
      · simp [Kernel.pte, hother m hm, invalidPte] at he
  have hwhole : Tallied k₀.mem.frames k₀.pte b.kernelFrames := by
    rw [hmem₀]
    refine ⟨⟨fun e he => ?_, fun e he => ?_, fun e e' he he' heq => ?_, hacc.others_used⟩,
      fun x hx => ?_⟩
    · obtain ⟨i, rfl⟩ := hslot e he
      rw [hstack] at he ⊢
      exact hacc.used i he
    · obtain ⟨i, rfl⟩ := hslot e he
      rw [hstack] at he ⊢
      exact hacc.apart i he
    · obtain ⟨i, rfl⟩ := hslot e he
      obtain ⟨i', rfl⟩ := hslot e' he'
      rw [hstack] at he heq
      rw [hstack] at he' heq
      rw [hacc.inj i i' he he' heq]
    · rcases hacc.covers x hx with ho | ⟨i, hi, rfl⟩
      · exact Or.inl ho
      · exact Or.inr ⟨Slot.kstack b.initNode i, by rw [hstack]; exact hi, by rw [hstack]⟩
  have hbalanced : k₀.Balanced b.kernelFrames := by
    refine ⟨hwhole, fun n c hc => ?_⟩
    rcases eq_or_ne n b.initNode with rfl | hn
    · obtain rfl := Option.some.inj (hinit.symm.trans hc)
      rw [hc₀]
      refine Proc.Tidy.mk (fun i hi => ?_) (fun i hi => ?_) fun hdead => ?_
      · cases hi
      · have hi' : (kstackOf b.kernelPt i).valid = true := hi
        unfold kstackOf at hi'
        rw [mem_pages]
        by_contra hout
        rw [if_neg hout] at hi'
        cases hi'
      · cases hdead
    · rw [hother n hn] at hc
      cases hc
  have hload : loadProgram k₀.mem c₀.userpt c₀.uc b.cmdArgs b.env = r := by
    rw [hmem₀, hc₀]
    exact hr
  have halive : c₀.kin ≠ none := by
    rw [hc₀]
    exact Option.some_ne_none _
  have hloaded := hbalanced.loaded (hmem₀ ▸ hok) hinit halive henv hload
  have hsame : k.proc = (k₀.set b.initNode (loadedProc c₀ r) r.1.mem).proc := by
    rw [hproc]
    show _ = Function.update k₀.proc b.initNode (some (loadedProc c₀ r))
    rw [hk₀, Function.update_idem, hc₀]
    rfl
  refine hloaded.of_body ?_ (by rw [hmem]; rfl)
  unfold Kernel.body
  rw [hsame]

/-- **After `idle_setup`**, with frames for it. -/
theorem idleSetup_balanced (h : k.Balanced own) (hok : k.mem.frames.Ok)
    (hidle : k.proc b.idleNode = none) (hleft : 1 + numKstackPages ≤ framesLeft k.mem.frames) :
    (idleSetup b k).Balanced own := by
  have hkp := numKstackPages_pos
  have hgot : FreeFrame.Got k.mem.frames (getFrame k.mem.frames 0 true).1
      (getFrame k.mem.frames 0 true).2 :=
    hok.getFrame_auto (by unfold framesLeft at hleft; omega)
  have hframes : (idleSetup b k).mem.frames =
      (kcCopy { k.mem with frames := (getFrame k.mem.frames 0 true).1 }
        fun _ => invalidPte).1.frames := by
    rw [idleSetup_eq]
    rfl
  refine ⟨?_, fun m d hd => ?_⟩
  · rw [idleSetup_pte]
    refine h.withTables hidle (fun others ho => ho.insert hgot rfl (protRead ||| protWrite))
      fun others ho => ?_
    rw [hframes]
    have hleft' : ((pages 0 numKstackPages).length : ℤ) ≤
        framesLeft (getFrame k.mem.frames 0 true).1 := by
      rw [length_kstackPages, hgot.left]
      omega
    exact @Tallied.copyKstack _ _ _ { k.mem with frames := (getFrame k.mem.frames 0 true).1 } _
      ho hgot.ok hleft' nodup_pages fun _ _ => rfl
  · rw [idleSetup_eq] at hd
    dsimp only at hd
    rcases eq_or_ne m b.idleNode with rfl | hm
    · rw [Function.update_self] at hd
      obtain rfl := Option.some.inj hd
      refine ⟨fun i hv => ?_, fun i hv => ?_, fun hdead => nomatch hdead⟩
      · have hpos := basePage1_lt
        have hin : i = limPage1 - 1 - basePage1 := by
          by_contra hne
          rw [show (idleProc b k).userpt.pt i = invalidPte from Function.update_of_ne hne _ _] at hv
          cases hv
        rw [mem_pages, hin]
        unfold numPages1
        omega
      · by_contra hi
        rw [show (idleProc b k).kstack i = invalidPte from copyKstack_of_not_mem hi] at hv
        cases hv
    · rw [Function.update_of_ne hm] at hd
      exact h.tidy m d hd

/-- **Booting uses the frames it must**, and no others. -/
theorem kernelStart_balanced (henv : ∀ li, b.env.info = some li → li.WellFormed)
    (hb : kernelStart b = some k) (hfits : BootFits b) : k.Balanced b.kernelFrames := by
  unfold kernelStart at hb
  split at hb
  · cases hb
  · rename_i hdistinct
    obtain ⟨k₀, hk₀, rfl⟩ := Option.map_eq_some_iff.mp hb
    obtain ⟨r, -, -, -, -, hproc⟩ := initLoad_eq hk₀
    have hidle : k₀.proc b.idleNode = none := by
      rw [hproc]
      exact Function.update_of_ne (fun he => hdistinct (Or.inl he.symm)) _ _
    exact idleSetup_balanced (initLoad_balanced hfits.region0 henv hk₀)
      (initLoad_owned hfits.region0 henv hk₀).ok hidle (hfits.idle k₀ hk₀)

end Boot

end Yalnix
