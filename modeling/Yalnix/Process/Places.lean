import Yalnix.Process.Lifecycle
import Yalnix.Scheduling.Places
/-!
# Where the processes of the kernel are

A process that lives and is not idle is due one place. The calls that make
and end processes keep what the scheduler's places and the living owe each
other: a child is put on the ready queue, and one that exits gives up the
processor.
-/

namespace Yalnix

variable {Node Addr : Type}

/-- The process has not been terminated. -/
def Kernel.alive (k : Kernel Node Addr) (n : Node) : Bool := ((k.proc n).bind Proc.kin).isSome

/-- **In how many places a process is due.** -/
def Kernel.due [DecidableEq Node] (k : Kernel Node Addr) (n : Node) : ℕ :=
  if k.alive n ∧ n ≠ k.procs.idleNode then 1 else 0

variable {k k' : Kernel Node Addr} {n p : Node} {c : Proc Node Addr} {kin : Kin Node Addr}

theorem alive_iff : k.alive n = true ↔ ∃ c kin, k.proc n = some c ∧ c.kin = some kin := by
  unfold Kernel.alive
  rw [Option.isSome_iff_exists]
  constructor
  · rintro ⟨kin, h⟩
    obtain ⟨c, hc, hkin⟩ := Option.bind_eq_some_iff.mp h
    exact ⟨c, kin, hc, hkin⟩
  · rintro ⟨c, kin, hc, hkin⟩
    exact ⟨kin, Option.bind_eq_some_iff.mpr ⟨c, hc, hkin⟩⟩

/-- Who lives can be read off the family. -/
theorem alive_eq (k : Kernel Node Addr) (n : Node) :
    k.alive n = ((k.family.member n).bind Member.kin).isSome := by
  show _ = (((k.proc n).map Proc.member).bind Member.kin).isSome
  unfold Kernel.alive
  cases k.proc n <;> rfl

theorem alive_congr (h : k'.family = k.family) (n : Node) : k'.alive n = k.alive n := by
  rw [alive_eq, alive_eq, h]

section Places

variable [DecidableEq Node] {procs : ProcTable Node}

theorem due_congr (halive : k'.alive n = k.alive n)
    (hidle : k'.procs.idleNode = k.procs.idleNode) : k'.due n = k.due n := by
  unfold Kernel.due
  rw [halive, hidle]

theorem due_le (k : Kernel Node Addr) (n : Node) : k.due n ≤ 1 := by
  unfold Kernel.due
  split <;> omega

theorem alive_of_due (h : 0 < k.due n) : k.alive n = true := by
  unfold Kernel.due at h
  split at h
  · rename_i hn
    exact hn.1
  · cases h

theorem due_idle (k : Kernel Node Addr) : k.due k.procs.idleNode = 0 :=
  if_neg fun h => h.2 rfl

theorem count_erase_add {l : List Node} (h : p ∈ l) (n : Node) :
    (l.erase p).count n + [p].count n = l.count n := by
  have := (List.perm_cons_erase h).count_eq n
  have hsplit : (p :: l.erase p).count n = [p].count n + (l.erase p).count n := by
    rw [← List.count_append]
    rfl
  omega

/-- A process woken from `waiting` is on the ready queue. -/
theorem count_checkWait (procs : ProcTable Node) (parent n : Node) :
    (checkWait procs parent).places.count n = procs.places.count n := by
  unfold checkWait unblockWaiting
  split
  · rename_i hin
    rw [if_neg (List.ne_nil_of_mem hin), count_ready, count_places, count_places]
    have := count_erase_add hin n
    have hfront : ({ procs with waiting := procs.waiting.erase parent } :
        ProcTable Node).onProcessor = procs.onProcessor := rfl
    rw [hfront]
    dsimp only
    omega
  · rfl

theorem onProcessor_checkWait (procs : ProcTable Node) (parent : Node) :
    (checkWait procs parent).onProcessor = procs.onProcessor := by
  unfold checkWait unblockWaiting
  split
  · split <;> rfl
  · rfl

/-- **`graveyard`** gives up the processor. -/
theorem count_graveyard (hidle : k.procs.idleNode ∉ k.procs.places) (n : Node) :
    (graveyard k).procs.places.count n + k.procs.onProcessor.count n =
      k.procs.places.count n := by
  have hgo : ∀ procs : ProcTable Node, procs.onProcessor = k.procs.onProcessor →
      procs.idleNode = k.procs.idleNode →
      (∀ n, procs.places.count n = k.procs.places.count n) →
      (runNextReady procs).places.count n + k.procs.onProcessor.count n =
        k.procs.places.count n := by
    intro procs hfront hsame hcount
    have hnot : procs.idleNode ∉ procs.places := by
      rw [← List.count_eq_zero, hsame, hcount, List.count_eq_zero]
      exact hidle
    rw [← hfront, ← hcount]
    exact count_runNextReady (not_mem_ready hnot) n
  unfold graveyard
  dsimp only
  cases k.curr.bind Proc.parent with
  | none => exact hgo _ rfl rfl fun _ => rfl
  | some parent =>
    exact hgo _ (onProcessor_checkWait k.procs parent) (checkWait_idleNode _ _)
      fun n => count_checkWait k.procs parent n

end Places

section Calls

variable [DecidableEq Node] [DecidableEq Addr] [Paging]

theorem reapOrphans_procs (k : Kernel Node Addr) :
    (reapOrphans k).procs = { k.procs with orphans := [] } := by
  unfold reapOrphans
  dsimp only
  rw [destroyAll_procs]

theorem count_kernelExit {status : ℤ} (hidle : k.procs.idleNode ∉ k.procs.places)
    (hexit : kernelExit k status = some k') (n : Node) :
    k'.procs.places.count n + k.procs.onProcessor.count n = k.procs.places.count n := by
  have hprocs : (processTerminate (reapOrphans k) k.procs.running status).procs =
      { k.procs with orphans := [] } := by
    rw [processTerminate_procs, reapOrphans_procs]
  have hgrave := @count_graveyard Node Addr
    (processTerminate (reapOrphans k) k.procs.running status) _
  rw [hprocs] at hgrave
  rw [kernelExit_eq hexit]
  exact hgrave hidle n

/-- **An exit ends its process.** -/
theorem kernelExit_not_alive {status : ℤ} (hexit : kernelExit k status = some k') :
    k'.alive k.procs.running = false := by
  rw [Bool.eq_false_iff]
  intro halive
  obtain ⟨c', kin', hc', hkin'⟩ := alive_iff.mp halive
  rw [(kernelExit_leaves hexit).2 c' hc'] at hkin'
  cases hkin'

/-- **An exit ends one process.** -/
theorem alive_kernelExit {status : ℤ} (h : k.Kindred) (hc : k.curr = some c)
    (hkin : c.kin = some kin) (hexit : kernelExit k status = some k') (n : Node) :
    k'.alive n = true ↔ k.alive n = true ∧ n ≠ k.procs.running := by
  obtain ⟨hleaves, hdead⟩ := kernelExit_leaves hexit
  rw [alive_iff, alive_iff]
  constructor
  · rintro ⟨c', kin', hc', hkin'⟩
    have hne : n ≠ k.procs.running := by
      rintro rfl
      rw [hdead c' hc'] at hkin'
      cases hkin'
    obtain ⟨c₀, hc₀, hsame⟩ := hleaves.keeps n hne c' hc'
    have halive := hsame.alive
    rw [hkin', Option.isSome_some, eq_comm] at halive
    obtain ⟨kin₀, hkin₀⟩ := Option.isSome_iff_exists.mp halive
    exact ⟨⟨c₀, kin₀, hc₀, hkin₀⟩, hne⟩
  · rintro ⟨⟨c₀, kin₀, hc₀, hkin₀⟩, hne⟩
    obtain ⟨c', hc', -, hk'⟩ := kernelExit_forth h hc hkin hexit hc₀ hkin₀ hne
    exact ⟨c', _, hc', hk'⟩

/-- A collection ends none that lives. -/
theorem alive_collected {child : Node} {rest : List Node} (childPcb : Proc Node Addr)
    (statusPtr : ℤ) (h : k.Kindred) (hc : k.curr = some c) (hkin : c.kin = some kin)
    (hd : kin.dChildren = child :: rest) (n : Node) :
    (collected k c kin child rest childPcb statusPtr).alive n = k.alive n := by
  rw [Bool.eq_iff_iff, alive_iff, alive_iff]
  constructor
  · rintro ⟨c', kin', hc', hkin'⟩
    have hleaves : Leaves k (collected k c kin child rest childPcb statusPtr) ∅ :=
      leaves_collected hc hkin
    obtain ⟨c₀, hc₀, hsame⟩ := hleaves.keeps n (Set.notMem_empty n) c' hc'
    have halive := hsame.alive
    rw [hkin', Option.isSome_some, eq_comm] at halive
    obtain ⟨kin₀, hkin₀⟩ := Option.isSome_iff_exists.mp halive
    exact ⟨c₀, kin₀, hc₀, hkin₀⟩
  · rintro ⟨c₀, kin₀, hc₀, hkin₀⟩
    rcases eq_or_ne n k.procs.running with rfl | hne
    · have hself : (k.family.collect k.procs.running kin rest childPcb.serial).member
          k.procs.running = some { c.member with
            kin := some { kin with dChildren := rest }
            children := c.children.erase childPcb.serial } := Family.modify_self _ (member_eq hc)
      obtain ⟨c', hc', hm'⟩ := exists_of_member
        (h.member_collected hc hkin hd childPcb statusPtr hself rfl)
      exact ⟨c', _, hc', congrArg Member.kin hm'⟩
    · obtain ⟨c', hc', hm'⟩ := collected_forth childPcb statusPtr h hc hkin hd hc₀ hkin₀ hne
      exact ⟨c', kin₀, hc', (congrArg Member.kin hm').trans hkin₀⟩

theorem alive_forked {child : Node} (data : Addr) (pid : ℤ) (hc : k.curr = some c)
    (hkin : c.kin = some kin) (hchild : k.proc child = none) (n : Node) :
    (forked k c child data pid).alive n = true ↔ k.alive n = true ∨ n = child := by
  have hp : k.family.member k.procs.running = some c.member := member_eq hc
  have hnone : k.family.member child = none := member_none.mpr hchild
  rw [alive_eq, alive_eq, family_forked child data pid hc]
  rcases eq_or_ne n child with rfl | hne
  · rw [Family.adopt_child]
    simp
  · cases hn : k.family.member n with
    | none =>
      have hnp : n ≠ k.procs.running := by
        rintro rfl
        rw [hp] at hn
        cases hn
      rw [Family.adopt_other hne hnp, hn]
      simp [hne]
    | some m =>
      obtain ⟨-, m', hm', -, -, -, -, hk⟩ := Family.adopt_forth data hp hkin hnone hn
      rw [hm', Option.bind_some, Option.bind_some, hk, Option.isSome_map]
      simp [hne]

/-- **What the scheduler's places and the living owe each other.** -/
def Owes (k k' : Kernel Node Addr) : Prop :=
  ∀ n, k'.procs.places.count n + k.due n = k.procs.places.count n + k'.due n

omit [DecidableEq Addr] [Paging] in
theorem owes_of_eq (hfamily : k'.family = k.family) (hprocs : k'.procs = k.procs) :
    Owes k k' := by
  intro n
  rw [hprocs, due_congr (alive_congr hfamily n) (congrArg _ hprocs)]

/-- **One that exits** gives up its place. -/
theorem owes_kernelExit {status : ℤ} (h : k.Kindred) (hc : k.curr = some c)
    (hkin : c.kin = some kin) (hrun : k.procs.running ≠ k.procs.idleNode)
    (hidle : k.procs.idleNode ∉ k.procs.places) (hexit : kernelExit k status = some k') :
    Owes k k' := by
  intro n
  have hcount := count_kernelExit hidle hexit n
  have hdies := alive_kernelExit h hc hkin hexit n
  have hsame : k'.procs.idleNode = k.procs.idleNode := (kernelExit_leaves hexit).1.idleNode
  rw [onProcessor_of_ne hrun] at hcount
  rcases eq_or_ne n k.procs.running with rfl | hne
  · have hone : k.due k.procs.running = 1 := if_pos ⟨alive_iff.mpr ⟨c, kin, hc, hkin⟩, hrun⟩
    have hzero : k'.due k.procs.running = 0 := if_neg fun hd => (hdies.mp hd.1).2 rfl
    rw [List.count_singleton_self] at hcount
    omega
  · have halive : k'.alive n = k.alive n := by
      rw [Bool.eq_iff_iff, hdies]
      exact and_iff_left hne
    rw [List.count_eq_zero.mpr fun hin => hne (List.mem_singleton.mp hin)] at hcount
    rw [due_congr halive hsame]
    omega

/-- **A child** is put on the ready queue. -/
theorem owes_forked {child : Node} (data : Addr) (pid : ℤ) (hc : k.curr = some c)
    (hkin : c.kin = some kin) (hlives : k.alive k.procs.idleNode = true)
    (hchild : k.proc child = none) : Owes k (forked k c child data pid) := by
  intro n
  have hcount : (forked k c child data pid).procs.places.count n =
      k.procs.places.count n + [child].count n := count_ready k.procs child n
  have hborn := alive_forked data pid hc hkin hchild n
  have hdead : ¬ k.alive child = true := by
    rw [alive_iff, hchild]
    rintro ⟨c₀, kin₀, hc₀, -⟩
    cases hc₀
  rcases eq_or_ne n child with rfl | hne
  · have hidle : n ≠ k.procs.idleNode := fun heq => hdead (heq ▸ hlives)
    have hone : (forked k c n data pid).due n = 1 := if_pos ⟨hborn.mpr (Or.inr rfl), hidle⟩
    have hzero : k.due n = 0 := if_neg fun hd => hdead hd.1
    rw [List.count_singleton_self] at hcount
    omega
  · have halive : (forked k c child data pid).alive n = k.alive n := by
      rw [Bool.eq_iff_iff, hborn]
      exact or_iff_left hne
    have hdue : (forked k c child data pid).due n = k.due n := due_congr halive rfl
    rw [List.count_eq_zero.mpr fun hin => hne (List.mem_singleton.mp hin)] at hcount
    omega

omit [DecidableEq Addr] [Paging] in
/-- **`block_wait`** moves its caller to the waiting. -/
theorem count_blockWait {procs : ProcTable Node} (hrun : procs.running ≠ procs.idleNode)
    (hidle : procs.idleNode ∉ procs.places) (n : Node) :
    (blockWait procs).places.count n = procs.places.count n := by
  have hcount := count_runNextReady (not_mem_ready hidle) n
  have hwait : (blockWait procs).places.count n =
      (runNextReady procs).places.count n + [procs.running].count n := by
    rw [count_places, count_places]
    have hwaiting : (blockWait procs).waiting = procs.waiting ++ [procs.running] := rfl
    have hready : (blockWait procs).ready = (runNextReady procs).ready := rfl
    have hdelayed : (blockWait procs).delayed = (runNextReady procs).delayed := rfl
    have hfront : (blockWait procs).onProcessor = (runNextReady procs).onProcessor := rfl
    rw [hwaiting, hready, hdelayed, hfront, List.count_append, runNextReady_waiting]
    omega
  rw [onProcessor_of_ne hrun] at hcount
  omega

/-- **An activation** gives a place to who comes to life, and takes one from
who dies. -/
theorem Effect.owes {act : ProcAct Node Addr} (h : k.Kindred) (hc : k.curr = some c)
    (hkin : c.kin = some kin) (hrun : k.procs.running ≠ k.procs.idleNode)
    (hidle : k.procs.idleNode ∉ k.procs.places) (hlives : k.alive k.procs.idleNode = true)
    (heff : Effect k c kin act k') : Owes k k' := by
  -- an exit by itself, or after an exec that has left `k₁` with other memory only
  have hexited : ∀ {k₁ : Kernel Node Addr} {c₁ : Proc Node Addr} {status : ℤ},
      k₁.curr = some c₁ → c₁.member = c.member → k₁.family = k.family → k₁.procs = k.procs →
      k₁.waits = k.waits → kernelExit k₁ status = some k' → Owes k k' := by
    intro k₁ c₁ status hc₁ hm hfamily hprocs hwaits hexit n
    have h₁ : k₁.Kindred := h.congr hfamily (congrArg _ hprocs) (congrArg _ hprocs) hwaits
    have howes := owes_kernelExit h₁ hc₁ ((congrArg Member.kin hm).trans hkin)
      (by rw [hprocs]; exact hrun) (by rw [hprocs]; exact hidle) hexit n
    rwa [hprocs, due_congr (alive_congr hfamily n) (congrArg _ hprocs)] at howes
  cases heff with
  | forkRefused => exact owes_of_eq rfl rfl
  | forked child data pid _ hchild hdata => exact owes_forked data pid hc hkin hlives hchild
  | execRefused => exact owes_of_eq rfl rfl
  | loaded => exact owes_of_eq (family_set _ hc rfl) rfl
  | killed filename argvec env args l k' hl hcode hexit =>
    have hset : (k.set k.procs.running (loadedProc c l) l.1.mem).curr = some (loadedProc c l) :=
      set_self _ _
    exact hexited hset rfl (family_set _ hc rfl) rfl rfl hexit
  | exited status k' hexit => exact hexited hc rfl rfl rfl rfl hexit
  | waitRefused => exact owes_of_eq rfl rfl
  | asleep act statusPtr hin hnone =>
    intro n
    have hdue : Kernel.due { k with
        procs := blockWait k.procs
        waits := Function.update k.waits k.procs.running (some statusPtr) } n = k.due n :=
      due_congr rfl (blockWait_idleNode _)
    rw [hdue]
    dsimp only
    rw [count_blockWait hrun hidle]
  | collected act statusPtr child rest childPcb hin hd hchild =>
    intro n
    have hprocs := collected_procs k c kin child rest childPcb statusPtr
    have hdue : Kernel.due { Yalnix.collected k c kin child rest childPcb statusPtr with
        waits := Function.update k.waits k.procs.running none } n = k.due n := by
      refine due_congr (alive_collected childPcb statusPtr h hc hkin hd n) ?_
      dsimp only
      rw [hprocs]
    rw [hdue]
    dsimp only
    rw [hprocs]
    rfl
  | brk addr r hr =>
    obtain ⟨hfamily, hprocs, -⟩ := kernelUserBrk_keeps hc hr
    exact owes_of_eq hfamily hprocs
  | fault addr k' hk' =>
    rcases trapMemory_keeps hc hk' with hexit | ⟨hfamily, hprocs, -⟩
    · exact hexited hc rfl rfl rfl rfl hexit
    · exact owes_of_eq hfamily hprocs
  | stored => exact owes_of_eq rfl rfl

/-- **Who survives an activation** is who it was: everybody but one that
exits. -/
theorem Effect.survives {act : ProcAct Node Addr} {c₀ : Proc Node Addr} (h : k.Kindred)
    (hc : k.curr = some c) (hkin : c.kin = some kin) (heff : Effect k c kin act k')
    (hn : k.proc n = some c₀) (halive : c₀.kin.isSome)
    (hlives : n ≠ k.procs.running ∨ k'.alive k.procs.running = true) :
    ∃ c', k'.proc n = some c' ∧ c'.kin.isSome ∧ c'.serial = c₀.serial := by
  obtain ⟨kin₀, hkin₀⟩ := Option.isSome_iff_exists.mp halive
  -- it is enough to find it in the family
  have hmember : ∀ m, k'.family.member n = some m → m.kin.isSome → m.serial = c₀.serial →
      ∃ c', k'.proc n = some c' ∧ c'.kin.isSome ∧ c'.serial = c₀.serial := by
    intro m hm hk hs
    obtain ⟨c', hc', rfl⟩ := exists_of_member hm
    exact ⟨c', hc', hk, hs⟩
  cases heff.move hc with
  | kept _ _ hfamily => exact hmember c₀.member (by rw [hfamily, member_eq hn]) halive rfl
  | forked child data pid hchild hdata =>
    obtain ⟨-, m', hm', -, -, hs, -, hk⟩ := Family.adopt_forth data (member_eq hc) hkin
      (member_none.mpr hchild) (member_eq hn)
    rw [← family_forked child data pid hc] at hm'
    refine hmember m' hm' ?_ hs
    rw [hk, Option.isSome_map]
    exact halive
  | exited _ k₁ _ c₁ status hc₁ hm hfamily hprocs hwaits hact _ hexit =>
    have hrunning : k₁.procs.running = k.procs.running := congrArg _ hprocs
    have h₁ : k₁.Kindred := h.congr hfamily (congrArg _ hprocs) (congrArg _ hprocs) hwaits
    have hkin₁ : c₁.kin = some kin := (congrArg Member.kin hm).trans hkin
    have hne : n ≠ k₁.procs.running := by
      rw [hrunning]
      refine hlives.resolve_right fun hself => ?_
      rw [← hrunning] at hself
      exact ((alive_kernelExit h₁ hc₁ hkin₁ hexit _).mp hself).2 rfl
    obtain ⟨c₂, hc₂, hm₂⟩ := exists_of_member (hfamily ▸ member_eq hn)
    obtain ⟨c', hc', -, hk'⟩ := kernelExit_forth h₁ hc₁ hkin₁ hexit hc₂
      ((congrArg Member.kin hm₂).trans hkin₀) hne
    obtain ⟨c₃, hc₃, hsame⟩ := (kernelExit_leaves hexit).1.keeps n hne c' hc'
    obtain rfl := Option.some.inj (hc₂.symm.trans hc₃)
    refine ⟨c', hc', by rw [hk']; rfl, hsame.serial.trans (congrArg Member.serial hm₂)⟩
  | asleep => exact ⟨c₀, hn, halive, rfl⟩
  | collected _ statusPtr child rest childPcb hin hd hchild =>
    rcases eq_or_ne n k.procs.running with rfl | hne
    · obtain rfl := Option.some.inj (hc.symm.trans hn)
      have hself : (k.family.collect k.procs.running kin rest childPcb.serial).member
          k.procs.running = some { c.member with
            kin := some { kin with dChildren := rest }
            children := c.children.erase childPcb.serial } := Family.modify_self _ (member_eq hc)
      exact hmember _ (h.member_collected hc hkin hd childPcb statusPtr hself rfl) rfl rfl
    · obtain ⟨c', hc', hm'⟩ := collected_forth childPcb statusPtr h hc hkin hd hn hkin₀ hne
      refine ⟨c', hc', ?_, congrArg Member.serial hm'⟩
      rw [show c'.kin = c₀.kin from congrArg Member.kin hm']
      exact halive

/-- Only its caller enters `KernelWait`, or leaves it. -/
theorem Effect.waits_of_ne {act : ProcAct Node Addr} (hc : k.curr = some c)
    (heff : Effect k c kin act k') (hn : n ≠ k.procs.running) :
    k'.waits n = k.waits n := by
  cases heff.move hc with
  | kept _ _ hfamily horphans hwaiting hwaits => rw [hwaits]
  | forked => rfl
  | exited _ k₁ _ c₁ status hc₁ hm hfamily hprocs hwaits hact hstatus hexit =>
    rw [(kernelExit_leaves hexit).1.waits, hwaits]
  | asleep => exact Function.update_of_ne hn _ _
  | collected => exact Function.update_of_ne hn _ _

/-- Idle stays idle. -/
theorem Effect.idleNode {act : ProcAct Node Addr} (hc : k.curr = some c)
    (heff : Effect k c kin act k') : k'.procs.idleNode = k.procs.idleNode := by
  cases heff with
  | forkRefused => rfl
  | forked => rfl
  | execRefused => rfl
  | loaded => rfl
  | killed filename argvec env args l k' hl hcode hexit => exact (kernelExit_leaves hexit).1.idleNode
  | exited status k' hexit => exact (kernelExit_leaves hexit).1.idleNode
  | waitRefused => rfl
  | asleep => exact blockWait_idleNode _
  | collected act statusPtr child rest childPcb =>
    dsimp only
    rw [collected_procs]
  | brk addr r hr => exact congrArg _ (kernelUserBrk_keeps hc hr).2.1
  | fault addr k' hk' =>
    rcases trapMemory_keeps hc hk' with hexit | ⟨-, hprocs, -⟩
    · exact (kernelExit_leaves hexit).1.idleNode
    · exact congrArg _ hprocs
  | stored => rfl

end Calls

end Yalnix
