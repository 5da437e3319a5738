import Yalnix.Process.Kindred
/-!
# Families over whole runs

Every activation keeps `Kindred`, whatever the calls were handed. An
activation keeps `Homely` where no process waits whose children have all
been collected (`WaitFits`) and none exits with a stranger's block among its
`a_children` (`ExitsOwn`).
-/

namespace Yalnix

variable {Node Addr : Type} [DecidableEq Node]
variable {k k' : Kernel Node Addr} {n p : Node} {c : Proc Node Addr} {kin : Kin Node Addr}

section Calls

variable [Paging] [DecidableEq Addr]

omit [DecidableEq Node] [Paging] [DecidableEq Addr] in
/-- A process that lives is not laid. -/
theorem not_laid (hc : k.proc n = some c) (hkin : c.kin = some kin) : ¬ k.family.Laid n := by
  intro hlaid
  have hdead : c.kin = none := hlaid.1 _ (member_eq hc)
  rw [hkin] at hdead
  cases hdead

/-! ## An exit -/

section Exit

variable (h : k.Kindred) (hc : k.curr = some c) (hkin : c.kin = some kin)

include h hc hkin

/-- The caller as it is once the orphans have been freed, and its family
then. -/
theorem reaped_self : ∃ c', (reapOrphans k).proc k.procs.running = some c' ∧ c'.member = c.member ∧
    (reapOrphans k).family.Kinship := by
  have hlaid : ∀ n ∈ k.procs.orphans, k.family.Laid n := fun n hn => (h.orphans n hn).2
  have hnot : k.procs.running ∉ k.procs.orphans := fun hin => not_laid hc hkin (hlaid _ hin)
  have hm : (reapOrphans k).family.member k.procs.running = some c.member := by
    rw [family_reapOrphans, Family.destroyAll_member, if_neg hnot, member_eq hc]
  obtain ⟨c', hc', heq⟩ := exists_of_member hm
  exact ⟨c', hc', heq, by rw [family_reapOrphans]; exact h.kinship.destroyAll hlaid⟩

/-- **`KernelExit`** on the tree and on the queues. -/
theorem kernelExit_moves {status : ℤ} (hexit : kernelExit k status = some k') :
    k'.family = (((reapOrphans k).family.terminate k.procs.running kin).grave k.procs.running) ∧
    k'.waits = k.waits ∧
    k'.procs.waiting = (match ((((reapOrphans k).family.terminate k.procs.running kin).member
        k.procs.running).bind Member.parent) with
      | some p => k.procs.waiting.erase p
      | none => k.procs.waiting) ∧
    k'.procs.orphans = (match ((((reapOrphans k).family.terminate k.procs.running kin).member
        k.procs.running).bind Member.parent) with
      | some _ => []
      | none => [k.procs.running]) := by
  obtain ⟨c', hc', hm, hkinship⟩ := reaped_self h hc hkin
  have hkin' : c'.kin = some kin := (congrArg Member.kin hm).trans hkin
  have hnot : k.procs.running ∉ kin.dChildren.take 1 :=
    hkinship.not_mem_take (member_eq hc') hkin' (member_eq hc')
      (Option.isSome_iff_exists.mpr ⟨kin, hkin'⟩)
  -- `kt` is between the two halves: terminated, not yet in a graveyard
  obtain ⟨kt, hkt⟩ : ∃ kt, kt = processTerminate (reapOrphans k) k.procs.running status := ⟨_, rfl⟩
  have hterm : kt.family = (reapOrphans k).family.terminate k.procs.running kin := by
    rw [hkt]
    exact family_processTerminate status hc' hkin' hnot
  have hprocs : kt.procs = (reapOrphans k).procs := by
    rw [hkt]
    exact processTerminate_procs status
  have hrunning : kt.procs.running = k.procs.running := by
    rw [hprocs, reapOrphans_running]
  have hparent : kt.curr.bind Proc.parent =
      ((((reapOrphans k).family.terminate k.procs.running kin).member
        k.procs.running).bind Member.parent) := by
    rw [← hterm, ← hrunning]
    show (kt.proc kt.procs.running).bind Proc.parent =
      ((kt.proc kt.procs.running).map Proc.member).bind Member.parent
    cases kt.proc kt.procs.running <;> rfl
  have hwaiting : kt.procs.waiting = k.procs.waiting := by
    rw [hprocs]
    unfold reapOrphans
    dsimp only
    rw [destroyAll_procs]
  have horphans : kt.procs.orphans = [] := by
    rw [hprocs]
    rfl
  have hleaves : kt.waits = k.waits := by
    rw [hkt, (leaves_processTerminate status).waits, (leaves_reapOrphans (S := ∅)).waits]
  obtain ⟨hw, ho⟩ := graveyard_queues kt
  rw [kernelExit_eq hexit, ← hkt]
  refine ⟨by rw [family_graveyard, hterm, hrunning], ?_, ?_, ?_⟩
  · rw [(leaves_graveyard (S := ∅)).waits, hleaves]
  · rw [hparent, hwaiting] at hw
    exact hw
  · rw [hparent, horphans, hrunning] at ho
    exact ho

/-- **The living after an exit** have the lists they had, and the parent of
the process has it among its dead. -/
theorem kernelExit_forth {status : ℤ} (hexit : kernelExit k status = some k')
    {c₁ : Proc Node Addr} {kin₁ : Kin Node Addr} (hn : k.proc n = some c₁)
    (hkin₁ : c₁.kin = some kin₁) (hne : n ≠ k.procs.running) :
    ∃ c', k'.proc n = some c' ∧ c'.children = c₁.children ∧
      c'.kin = some (if ((((reapOrphans k).family.terminate k.procs.running kin).member
          k.procs.running).bind Member.parent) = some n then
        { kin₁ with dChildren := kin₁.dChildren ++ [k.procs.running] } else kin₁) := by
  obtain ⟨c', hc', hm, hkinship⟩ := reaped_self h hc hkin
  have hkin' : c'.kin = some kin := (congrArg Member.kin hm).trans hkin
  have hlaid : ∀ n ∈ k.procs.orphans, k.family.Laid n := fun n hn => (h.orphans n hn).2
  have hstill : (reapOrphans k).family.member n = some c₁.member := by
    rw [family_reapOrphans, Family.destroyAll_member, if_neg, member_eq hn]
    exact fun hin => not_laid hn hkin₁ (hlaid n hin)
  obtain ⟨m', hm', hchildren, hk⟩ := hkinship.exit_forth (member_eq hc') hkin' hstill hkin₁ hne
  rw [← (kernelExit_moves h hc hkin hexit).1] at hm'
  obtain ⟨c₂, hc₂, rfl⟩ := exists_of_member hm'
  exact ⟨c₂, hc₂, hchildren, hk⟩

/-- **`KernelExit` keeps the law**, called by a process that is awake. -/
theorem kindred_kernelExit {status : ℤ} (hawake : k.procs.running ∉ k.procs.waiting)
    (hout : k.waits k.procs.running = none) (hexit : kernelExit k status = some k') :
    k'.Kindred := by
  obtain ⟨hfamily, hwaits, hwaiting, horphans⟩ := kernelExit_moves h hc hkin hexit
  obtain ⟨c', hc', hm, hkinship⟩ := reaped_self h hc hkin
  have hkin' : c'.kin = some kin := (congrArg Member.kin hm).trans hkin
  have hkeep := fun {n c₁ kin₁} => @kernelExit_forth Node Addr _ k k' n c kin _ _ h hc hkin
    status hexit c₁ kin₁
  obtain ⟨hself, hlaid⟩ := hkinship.exit_self (member_eq hc') hkin'
  have hsub : ∀ q ∈ k'.procs.waiting, q ∈ k.procs.waiting := by
    intro q hq
    rw [hwaiting] at hq
    split at hq
    · exact List.mem_of_mem_erase hq
    · exact hq
  constructor
  · rw [hfamily]
    exact hkinship.exit (member_eq hc') hkin'
  · intro n hn
    rw [horphans] at hn
    split at hn
    · cases hn
    · rename_i hnone
      rw [List.mem_singleton] at hn
      subst hn
      refine ⟨?_, hfamily ▸ hlaid hnone⟩
      obtain ⟨m, hm', -⟩ := hself
      rw [← hfamily] at hm'
      obtain ⟨c₂, hc₂, -⟩ := exists_of_member hm'
      rw [hc₂]
      rfl
  · rw [hwaiting]
    split
    · exact h.waiting_nodup.erase _
    · exact h.waiting_nodup
  · intro q hq
    obtain ⟨hw, c₁, kin₁, hc₁, hkin₁, hd⟩ := h.asleep q (hsub q hq)
    have hne : q ≠ k.procs.running := by
      rintro rfl
      exact hawake (hsub _ hq)
    obtain ⟨c₂, hc₂, -, hk₂⟩ := hkeep hc₁ hkin₁ hne
    -- the parent is off the queue, so it is not the one
    have hother : ((((reapOrphans k).family.terminate k.procs.running kin).member
        k.procs.running).bind Member.parent) ≠ some q := by
      intro heq
      rw [heq] at hwaiting
      dsimp only at hwaiting
      rw [hwaiting] at hq
      exact (h.waiting_nodup.not_mem_erase) hq
    rw [if_neg hother] at hk₂
    exact ⟨hwaits ▸ hw, c₂, kin₁, hc₂, hk₂, hd⟩
  · intro q hq
    rw [hwaits] at hq
    obtain ⟨c₁, kin₁, hc₁, hkin₁, hd⟩ := h.awake q hq
    have hne : q ≠ k.procs.running := by
      rintro rfl
      rw [hout] at hq
      cases hq
    obtain ⟨c₂, hc₂, -, hk₂⟩ := hkeep hc₁ hkin₁ hne
    refine ⟨c₂, _, hc₂, hk₂, ?_⟩
    split
    · exact Or.inr (by simp)
    · rename_i hother
      refine hd.imp_left fun hin => ?_
      rw [hwaiting]
      split
      · rename_i r heq
        have hqr : q ≠ r := by
          rintro rfl
          exact hother heq
        exact (List.mem_erase_of_ne hqr).mpr hin
      · exact hin

end Exit

/-! ## A birth, a collection, and going to sleep -/

/-- **`KernelFork` keeps the law.** -/
theorem Kernel.Kindred.forked {child : Node} {data : Addr} {pid : ℤ} (h : k.Kindred)
    (hc : k.curr = some c) (hkin : c.kin = some kin) (hchild : k.proc child = none)
    (hdata : k.pcbAt data = none) : (forked k c child data pid).Kindred := by
  have hp : k.family.member k.procs.running = some c.member := member_eq hc
  have hnone : k.family.member child = none := member_none.mpr hchild
  have hfamily := family_forked child data pid hc
  -- who was there has the dead it had
  have hkeep : ∀ {q c₁ kin₁}, k.proc q = some c₁ → c₁.kin = some kin₁ →
      ∃ c₂ kin₂, (Yalnix.forked k c child data pid).proc q = some c₂ ∧ c₂.kin = some kin₂ ∧
        kin₂.dChildren = kin₁.dChildren := by
    intro q c₁ kin₁ hq hkin₁
    obtain ⟨-, m', hm', -, -, -, -, hk⟩ := Family.adopt_forth data hp hkin hnone (member_eq hq)
    rw [← hfamily] at hm'
    obtain ⟨c₂, hc₂, rfl⟩ := exists_of_member hm'
    have hk' : c₂.kin = some (if q = k.procs.running then
        { kin₁ with aChildren := kin₁.aChildren ++ [data] } else kin₁) := by
      refine Eq.trans hk ?_
      rw [show c₁.member.kin = some kin₁ from hkin₁]
      rfl
    exact ⟨c₂, _, hc₂, hk', by split <;> rfl⟩
  constructor
  · rw [hfamily]
    exact h.kinship.adopt hp hkin hnone hdata
  · intro n hn
    obtain ⟨hsome, hlaid⟩ := h.orphans n hn
    have hne : n ≠ child := by
      rintro rfl
      rw [hchild] at hsome
      cases hsome
    obtain ⟨c₁, hc₁⟩ := Option.isSome_iff_exists.mp hsome
    obtain ⟨-, m', hm', -⟩ := Family.adopt_forth data hp hkin hnone (member_eq hc₁)
    rw [← hfamily] at hm'
    obtain ⟨c₂, hc₂, -⟩ := exists_of_member hm'
    exact ⟨by rw [hc₂]; rfl, hfamily ▸ hlaid.adopt hne hp hkin hnone⟩
  · exact h.waiting_nodup
  · intro q hq
    obtain ⟨hw, c₁, kin₁, hc₁, hkin₁, hd⟩ := h.asleep q hq
    obtain ⟨c₂, kin₂, hc₂, hkin₂, hd₂⟩ := hkeep hc₁ hkin₁
    exact ⟨hw, c₂, kin₂, hc₂, hkin₂, hd₂.trans hd⟩
  · intro q hq
    obtain ⟨c₁, kin₁, hc₁, hkin₁, hd⟩ := h.awake q hq
    obtain ⟨c₂, kin₂, hc₂, hkin₂, hd₂⟩ := hkeep hc₁ hkin₁
    exact ⟨c₂, kin₂, hc₂, hkin₂, hd.imp_right fun hne => by rwa [hd₂]⟩

section Collected

variable {child : Node} {rest : List Node} {childPcb : Proc Node Addr} {statusPtr : ℤ}

omit [DecidableEq Addr] in
theorem collected_procs [DecidableEq Addr] (k : Kernel Node Addr) (c : Proc Node Addr)
    (kin : Kin Node Addr) (child : Node) (rest : List Node) (childPcb : Proc Node Addr)
    (statusPtr : ℤ) :
    (collected k c kin child rest childPcb statusPtr).procs =
      { k.procs with orphans := [] } := by
  obtain ⟨k₁, hk₁⟩ : ∃ k₁, k₁ = (if statusPtr ≠ 0 then
      storeUser (k.set k.procs.running { c with
        kin := some { kin with dChildren := rest }
        children := c.children.erase childPcb.serial } k.mem) c.userpt.pt statusPtr
          (wordBytes childPcb.code)
      else k.set k.procs.running { c with
        kin := some { kin with dChildren := rest }
        children := c.children.erase childPcb.serial } k.mem) := ⟨_, rfl⟩
  have heq : collected k c kin child rest childPcb statusPtr =
      reapOrphans (processDestroy k₁ child) := by
    rw [hk₁]
    rfl
  have hprocs : (processDestroy k₁ child).procs = k.procs := by
    have : (processDestroy k₁ child).procs = k₁.procs := destroyAll_procs [child]
    rw [this, hk₁]
    split <;> rfl
  rw [heq]
  unfold reapOrphans
  dsimp only
  rw [destroyAll_procs, hprocs]

omit [Paging] in
/-- Whom `KernelWait` may free: the child it collected and the orphans. -/
theorem Kernel.Kindred.laid_collected (h : k.Kindred) (hc : k.curr = some c)
    (hkin : c.kin = some kin) (hd : kin.dChildren = child :: rest) (s : ℕ) :
    (k.family.collect k.procs.running kin rest s).Laid child ∧
    ∀ n ∈ k.procs.orphans,
      ((k.family.collect k.procs.running kin rest s).destroy child).Laid n := by
  have hp : k.family.member k.procs.running = some c.member := member_eq hc
  exact ⟨h.kinship.laid_collect hp hkin hd s,
    fun n hn => ((h.orphans n hn).2.collect hp hkin hd s).destroy⟩

/-- Nobody living is freed by it. -/
theorem Kernel.Kindred.member_collected (h : k.Kindred) (hc : k.curr = some c)
    (hkin : c.kin = some kin) (hd : kin.dChildren = child :: rest) (childPcb : Proc Node Addr)
    (statusPtr : ℤ) {m : Member Node Addr}
    (hm : (k.family.collect k.procs.running kin rest childPcb.serial).member n = some m)
    (halive : m.kin.isSome) :
    (collected k c kin child rest childPcb statusPtr).family.member n = some m := by
  obtain ⟨hlaid, horphans⟩ := h.laid_collected hc hkin hd childPcb.serial
  have hnot : ∀ {f : Family Node Addr}, f.member n = some m → ¬ f.Laid n := by
    intro f hm hlaid
    rw [hlaid.1 _ hm] at halive
    cases halive
  have hne : n ≠ child := by
    rintro rfl
    exact hnot hm hlaid
  have hm' := (Family.destroy_of_ne (f := k.family.collect k.procs.running kin rest childPcb.serial)
    hne).trans hm
  rw [family_collected hc, Family.destroyAll_member, if_neg, hm']
  exact fun hin => hnot hm' (horphans n hin)

/-- The others are as they were. -/
theorem collected_forth (childPcb : Proc Node Addr) (statusPtr : ℤ) (h : k.Kindred)
    (hc : k.curr = some c) (hkin : c.kin = some kin) (hd : kin.dChildren = child :: rest)
    {c₁ : Proc Node Addr} {kin₁ : Kin Node Addr} (hn : k.proc n = some c₁)
    (hkin₁ : c₁.kin = some kin₁) (hne : n ≠ k.procs.running) :
    ∃ c₂, (collected k c kin child rest childPcb statusPtr).proc n = some c₂ ∧
      c₂.member = c₁.member := by
  have hm₁ : (k.family.collect k.procs.running kin rest childPcb.serial).member n =
      some c₁.member := by
    rw [Family.collect_of_ne hne, member_eq hn]
  have halive : c₁.member.kin.isSome := by
    rw [show c₁.member.kin = some kin₁ from hkin₁]
    rfl
  exact exists_of_member (h.member_collected hc hkin hd childPcb statusPtr hm₁ halive)

/-- **`KernelWait` keeps the law** when it collects. -/
theorem Kernel.Kindred.collected (h : k.Kindred) (hc : k.curr = some c) (hkin : c.kin = some kin)
    (hd : kin.dChildren = child :: rest) (hchild : k.proc child = some childPcb)
    (hawake : k.procs.running ∉ k.procs.waiting) :
    Kernel.Kindred { collected k c kin child rest childPcb statusPtr with
      waits := Function.update k.waits k.procs.running none } := by
  have hp : k.family.member k.procs.running = some c.member := member_eq hc
  obtain ⟨hlaid, horphans⟩ := h.laid_collected hc hkin hd childPcb.serial
  -- the child leaves its parent's lists, then its PCB goes, then the orphans' do
  have hkinship : (Yalnix.collected k c kin child rest childPcb statusPtr).family.Kinship := by
    rw [family_collected hc]
    exact ((h.kinship.collect hp hkin hd (member_eq hchild)).destroy hlaid).destroyAll horphans
  have hprocs := collected_procs k c kin child rest childPcb statusPtr
  constructor
  · exact hkinship
  · intro n hn
    rw [hprocs] at hn
    cases hn
  · show (Yalnix.collected k c kin child rest childPcb statusPtr).procs.waiting.Nodup
    rw [hprocs]
    exact h.waiting_nodup
  · intro q hq
    replace hq : q ∈ k.procs.waiting := by
      rw [hprocs] at hq
      exact hq
    obtain ⟨hw, c₁, kin₁, hc₁, hkin₁, hd₁⟩ := h.asleep q hq
    have hne : q ≠ k.procs.running := by
      rintro rfl
      exact hawake hq
    obtain ⟨c₂, hc₂, hm₂⟩ := collected_forth childPcb statusPtr h hc hkin hd hc₁ hkin₁ hne
    refine ⟨?_, c₂, kin₁, hc₂, (congrArg Member.kin hm₂).trans hkin₁, hd₁⟩
    dsimp only
    rw [Function.update_of_ne hne]
    exact hw
  · intro q hq
    have hne : q ≠ k.procs.running := by
      rintro rfl
      dsimp only at hq
      rw [Function.update_self] at hq
      cases hq
    dsimp only at hq
    rw [Function.update_of_ne hne] at hq
    obtain ⟨c₁, kin₁, hc₁, hkin₁, hd₁⟩ := h.awake q hq
    obtain ⟨c₂, hc₂, hm₂⟩ := collected_forth childPcb statusPtr h hc hkin hd hc₁ hkin₁ hne
    refine ⟨c₂, kin₁, hc₂, (congrArg Member.kin hm₂).trans hkin₁, hd₁.imp_left fun hin => ?_⟩
    dsimp only
    rw [hprocs]
    exact hin

end Collected

omit [Paging] [DecidableEq Addr] in
/-- **`block_wait` keeps the law**, in a process with nothing to collect. -/
theorem Kernel.Kindred.blockWait (h : k.Kindred) (hc : k.curr = some c) (hkin : c.kin = some kin)
    (hd : kin.dChildren = []) (hawake : k.procs.running ∉ k.procs.waiting) (statusPtr : ℤ) :
    Kernel.Kindred { k with
      procs := Yalnix.blockWait k.procs
      waits := Function.update k.waits k.procs.running (some statusPtr) } := by
  have hwaiting : (Yalnix.blockWait k.procs).waiting = k.procs.waiting ++ [k.procs.running] := rfl
  constructor
  · exact h.kinship
  · intro n hn
    refine h.orphans n ?_
    have : (Yalnix.blockWait k.procs).orphans = k.procs.orphans := runNextReady_orphans _
    rwa [← this]
  · show (Yalnix.blockWait k.procs).waiting.Nodup
    rw [hwaiting]
    refine h.waiting_nodup.append (List.nodup_singleton _) ?_
    rw [List.disjoint_singleton]
    exact hawake
  · intro q hq
    dsimp only at hq ⊢
    rw [hwaiting, List.mem_append, List.mem_singleton] at hq
    rcases eq_or_ne q k.procs.running with rfl | hne
    · exact ⟨by rw [Function.update_self]; rfl, c, kin, hc, hkin, hd⟩
    · rw [Function.update_of_ne hne]
      exact h.asleep q (hq.resolve_right hne)
  · intro q hq
    dsimp only at hq ⊢
    rw [hwaiting]
    rcases eq_or_ne q k.procs.running with rfl | hne
    · exact ⟨c, kin, hc, hkin, Or.inl (List.mem_append_right _ (List.mem_singleton_self _))⟩
    · rw [Function.update_of_ne hne] at hq
      obtain ⟨c₁, kin₁, hc₁, hkin₁, hd₁⟩ := h.awake q hq
      exact ⟨c₁, kin₁, hc₁, hkin₁, hd₁.imp_left fun hin => List.mem_append_left _ hin⟩

/-! ## Every activation -/

/-- What the process exits with, if it does. -/
def ProcAct.status : ProcAct Node Addr → ℤ
  | .exit status => status
  | _ => errorCode

/-- **What an activation does** is to keep its family and the queues of the
waiting and the orphans as they are, or one of the four moves. -/
inductive Move (k : Kernel Node Addr) (c : Proc Node Addr) (kin : Kin Node Addr) :
    ProcAct Node Addr → Kernel Node Addr → Prop
  | kept (act : ProcAct Node Addr) (k' : Kernel Node Addr) (hfamily : k'.family = k.family)
      (horphans : k'.procs.orphans = k.procs.orphans)
      (hwaiting : k'.procs.waiting = k.procs.waiting) (hwaits : k'.waits = k.waits) :
      Move k c kin act k'
  | forked (child : Node) (data : Addr) (pid : ℤ) (hchild : k.proc child = none)
      (hdata : k.pcbAt data = none) :
      Move k c kin (.fork child data pid) (forked k c child data pid)
  | exited (act : ProcAct Node Addr) (k₁ k' : Kernel Node Addr) (c₁ : Proc Node Addr)
      (status : ℤ) (hc : k₁.curr = some c₁) (hm : c₁.member = c.member)
      (hfamily : k₁.family = k.family) (hprocs : k₁.procs = k.procs)
      (hwaits : k₁.waits = k.waits) (hout : act ≠ .resume) (hstatus : status = act.status)
      (hexit : kernelExit k₁ status = some k') : Move k c kin act k'
  | asleep (act : ProcAct Node Addr) (statusPtr : ℤ) (hin : InWait k c kin act statusPtr)
      (hnone : kin.dChildren = []) :
      Move k c kin act { k with
        procs := Yalnix.blockWait k.procs
        waits := Function.update k.waits k.procs.running (some statusPtr) }
  | collected (act : ProcAct Node Addr) (statusPtr : ℤ) (child : Node) (rest : List Node)
      (childPcb : Proc Node Addr) (hin : InWait k c kin act statusPtr)
      (hd : kin.dChildren = child :: rest) (hchild : k.proc child = some childPcb) :
      Move k c kin act { collected k c kin child rest childPcb statusPtr with
        waits := Function.update k.waits k.procs.running none }

omit [DecidableEq Addr] in
/-- `KernelUserBrk` and a stack that grows touch nobody's links. -/
theorem kernelUserBrk_keeps {addr : ℤ} {r : Kernel Node Addr × ℤ} (hc : k.curr = some c)
    (h : kernelUserBrk k addr = some r) :
    r.1.family = k.family ∧ r.1.procs = k.procs ∧ r.1.waits = k.waits := by
  rcases kernelUserBrk_set hc h with heq | ⟨u, mem, heq⟩
  · rw [heq]
    exact ⟨rfl, rfl, rfl⟩
  · rw [heq]
    exact ⟨family_set _ hc rfl, rfl, rfl⟩

theorem trapMemory_keeps {addr : ℤ} (hc : k.curr = some c) (h : trapMemory k addr = some k') :
    kernelExit k errorCode = some k' ∨
    k'.family = k.family ∧ k'.procs = k.procs ∧ k'.waits = k.waits := by
  rcases trapMemory_set hc h with hexit | ⟨u, mem, heq⟩
  · exact Or.inl hexit
  · rw [heq]
    exact Or.inr ⟨family_set _ hc rfl, rfl, rfl⟩

theorem Effect.move {act : ProcAct Node Addr} (hc : k.curr = some c)
    (heff : Effect k c kin act k') : Move k c kin act k' := by
  have hkept : ∀ {act : ProcAct Node Addr} {c' : Proc Node Addr} (mem : Memory),
      c'.member = c.member → Move k c kin act (k.set k.procs.running c' mem) :=
    fun mem hm => Move.kept _ _ (family_set mem hc hm) rfl rfl rfl
  cases heff with
  | forkRefused => exact Move.kept _ _ rfl rfl rfl rfl
  | forked child data pid _ hchild hdata => exact Move.forked child data pid hchild hdata
  | execRefused => exact Move.kept _ _ rfl rfl rfl rfl
  | loaded => exact hkept _ rfl
  | killed filename argvec env args l k' hl hcode hexit =>
    exact Move.exited _ (k.set k.procs.running (loadedProc c l) l.1.mem) _ (loadedProc c l)
      errorCode (set_self _ _) rfl
      (family_set _ hc rfl) rfl rfl (by simp) rfl hexit
  | exited status k' hexit =>
    exact Move.exited _ k _ c status hc rfl rfl rfl rfl (by simp) rfl hexit
  | waitRefused => exact Move.kept _ _ rfl rfl rfl rfl
  | asleep act statusPtr hin hnone => exact Move.asleep act statusPtr hin hnone
  | collected act statusPtr child rest childPcb hin hd hchild =>
    exact Move.collected act statusPtr child rest childPcb hin hd hchild
  | brk addr r hr =>
    obtain ⟨hfamily, hprocs, hwaits⟩ := kernelUserBrk_keeps hc hr
    exact Move.kept _ _ hfamily (congrArg _ hprocs) (congrArg _ hprocs) hwaits
  | fault addr k' hk' =>
    rcases trapMemory_keeps hc hk' with hexit | ⟨hfamily, hprocs, hwaits⟩
    · exact Move.exited _ k _ c errorCode hc rfl rfl rfl rfl (by simp) rfl hexit
    · exact Move.kept _ _ hfamily (congrArg _ hprocs) (congrArg _ hprocs) hwaits
  | stored => exact Move.kept _ _ rfl rfl rfl rfl

/-- **Only an exit ends a process.** -/
theorem Move.exit {act : ProcAct Node Addr} {c' : Proc Node Addr} (h : k.Kindred)
    (hc : k.curr = some c) (hkin : c.kin = some kin) (hmove : Move k c kin act k')
    (hc' : k'.proc k.procs.running = some c') (hdead : c'.kin = none) :
    ∃ k₁ c₁, k₁.curr = some c₁ ∧ c₁.member = c.member ∧ k₁.family = k.family ∧
      k₁.procs = k.procs ∧ k₁.waits = k.waits ∧ kernelExit k₁ act.status = some k' := by
  have hm : k.family.member k.procs.running = some c.member := member_eq hc
  have hgone : ∀ {m : Member Node Addr}, k'.family.member k.procs.running = some m →
      m.kin.isSome → False := by
    intro m hm halive
    rw [member_eq hc'] at hm
    rw [← Option.some.inj hm, show c'.member.kin = none from hdead] at halive
    cases halive
  have halive : c.member.kin.isSome := by
    rw [show c.member.kin = some kin from hkin]
    rfl
  -- no other move leaves the running process without kin
  cases hmove with
  | kept _ _ hfamily => exact (hgone (by rw [hfamily]; exact hm) halive).elim
  | forked child data pid hchild =>
    obtain ⟨-, m', hm', -, -, -, -, hk⟩ :=
      Family.adopt_forth data hm hkin (member_none.mpr hchild) hm
    rw [← family_forked child data pid hc] at hm'
    refine (hgone hm' ?_).elim
    rw [hk, Option.isSome_map]
    exact halive
  | exited _ k₁ _ c₁ status hc₁ hm₁ hfamily hprocs hwaits _ hstatus hexit =>
    exact ⟨k₁, c₁, hc₁, hm₁, hfamily, hprocs, hwaits, hstatus ▸ hexit⟩
  | asleep => exact (hgone hm halive).elim
  | collected _ statusPtr child rest childPcb hin hd =>
    have hself : (k.family.collect k.procs.running kin rest childPcb.serial).member
        k.procs.running = some { c.member with
          kin := some { kin with dChildren := rest }
          children := c.children.erase childPcb.serial } := Family.modify_self _ hm
    exact (hgone (h.member_collected hc hkin hd childPcb statusPtr hself rfl) rfl).elim

/-- **An activation keeps the law.** -/
theorem Kernel.Kindred.move {act : ProcAct Node Addr} (h : k.Kindred) (hc : k.curr = some c)
    (hkin : c.kin = some kin) (hawake : k.procs.running ∉ k.procs.waiting)
    (hout : act = .resume ∨ k.waits k.procs.running = none) (hmove : Move k c kin act k') :
    k'.Kindred := by
  cases hmove with
  | kept act k' hfamily horphans hwaiting hwaits => exact h.congr hfamily horphans hwaiting hwaits
  | forked child data pid hchild hdata => exact h.forked hc hkin hchild hdata
  | exited act k₁ k' c₁ status hc₁ hm hfamily hprocs hwaits hact _ hexit =>
    have h₁ : k₁.Kindred := h.congr hfamily (congrArg _ hprocs) (congrArg _ hprocs) hwaits
    refine kindred_kernelExit h₁ hc₁ ((congrArg Member.kin hm).trans hkin) ?_ ?_ hexit
    · rw [hprocs]
      exact hawake
    · rw [hprocs, hwaits]
      exact hout.resolve_left hact
  | asleep act statusPtr hin hnone => exact h.blockWait hc hkin hnone hawake statusPtr
  | collected act statusPtr child rest childPcb hin hd hchild =>
    exact h.collected hc hkin hd hchild hawake

/-- **Every activation keeps the law**, whatever it is handed. -/
theorem kindred_step {e : Node × ProcAct Node Addr} (h : k.Kindred) (hstep : k.step e = some k') :
    k'.Kindred := by
  obtain ⟨p, act⟩ := e
  obtain ⟨c, kin, hc, hkin, -, hwait, hout, heff⟩ := step_effect hstep
  have h₀ : (switchTo k p c).Kindred := h.congr rfl rfl rfl rfl
  exact h₀.move (switchTo_curr hc) hkin hwait hout (heff.move (switchTo_curr hc))

/-! ## Where everybody can be found -/

/-- **A process that waits has somebody to wait for**: with a pointer that
passes the check, it has never forked or has a child it has not
collected. -/
def WaitFits (k : Kernel Node Addr) : Node × ProcAct Node Addr → Prop
  | (p, .wait statusPtr) => ∀ c kin, k.proc p = some c → c.kin = some kin →
      (statusPtr = 0 ∨ checkAddr statusPtr protWrite c.userpt.pt = true) →
      kin.aChildren = [] ∨ c.children ≠ []
  | _ => True

/-- Whether it has can be looked up. -/
instance decidableWaitFits (k : Kernel Node Addr) : ∀ e, Decidable (WaitFits k e)
  | (p, .wait statusPtr) =>
    decidable_of_iff (∀ c ∈ k.proc p, ∀ kin ∈ c.kin,
      (statusPtr = 0 ∨ checkAddr statusPtr protWrite c.userpt.pt = true) →
        kin.aChildren = [] ∨ c.children ≠ [])
      ⟨fun h c kin hc hkin => h c hc kin hkin, fun h c hc kin hkin => h c kin hc hkin⟩
  | (_, .fork _ _ _) | (_, .exec _ _ _) | (_, .exit _) | (_, .brk _) | (_, .fault _)
  | (_, .store _ _) | (_, .resume) => isTrue trivial

/-- **A process that exits has only children of its own to orphan**: whoever
lives in a block its `a_children` point at has it as parent. -/
def ExitsOwn (k : Kernel Node Addr) : Node × ProcAct Node Addr → Prop
  | (p, act) => ∀ k' c' c kin, k.step (p, act) = some k' → k'.proc p = some c' → c'.kin = none →
      k.proc p = some c → c.kin = some kin → ∀ a ∈ kin.aChildren, ∀ n d,
        k.pcbAt a = some n → k.proc n = some d → d.kin.isSome → d.parent = some p

/-- Whether it has can be looked up. -/
instance decidableExitsOwn (k : Kernel Node Addr) : ∀ e, Decidable (ExitsOwn k e)
  | (p, act) =>
    have : ∀ kin : Kin Node Addr, Decidable (∀ a ∈ kin.aChildren, ∀ n ∈ k.pcbAt a,
        ∀ d ∈ k.proc n, d.kin.isSome → d.parent = some p) := fun _ => inferInstance
    decidable_of_iff (∀ k' ∈ k.step (p, act), ∀ c' ∈ k'.proc p, c'.kin.isNone →
      ∀ c ∈ k.proc p, ∀ kin ∈ c.kin, ∀ a ∈ kin.aChildren, ∀ n ∈ k.pcbAt a, ∀ d ∈ k.proc n,
        d.kin.isSome → d.parent = some p)
      ⟨fun h k' c' c kin hk' hc' hnone hc hkin a ha n d hn hd =>
        h k' hk' c' hc' (Option.isNone_iff_eq_none.mpr hnone) c hc kin hkin a ha n hn d hd,
      fun h k' hk' c' hc' hnone c hc kin hkin a ha n hn d hd =>
        h k' c' c kin hk' hc' (Option.isNone_iff_eq_none.mp hnone) hc hkin a ha n d hn hd⟩

/-- The children of one who forks can be found. -/
theorem Kernel.Homely.forked {child : Node} {data : Addr} {pid : ℤ} (hh : k.Homely)
    (hk : k.Kindred) (hc : k.curr = some c) (hkin : c.kin = some kin)
    (hchild : k.proc child = none) : (forked k c child data pid).Homely := by
  have hp : k.family.member k.procs.running = some c.member := member_eq hc
  have hnone : k.family.member child = none := member_none.mpr hchild
  have hfamily := family_forked child data pid hc
  constructor
  · rw [hfamily]
    exact hh.atHome.adopt hp hkin hnone
  · intro q hq c' hc'
    obtain ⟨c₁, kin₁, hc₁, -⟩ := hk.awake q hq
    have hne := hh.hopeful q hq c₁ hc₁
    obtain ⟨-, m', hm', -, -, -, hch, -⟩ := Family.adopt_forth data hp hkin hnone (member_eq hc₁)
    rw [← hfamily, member_eq hc'] at hm'
    obtain rfl := Option.some.inj hm'
    intro hnil
    rw [show c'.member.children = [] from hnil] at hch
    split at hch
    · exact List.append_ne_nil_of_right_ne_nil _ (List.cons_ne_nil _ _) hch.symm
    · exact hne hch.symm

/-- **An exit leaves every other parent its children**, where it orphans
only its own. -/
theorem homely_kernelExit {status : ℤ} (hh : k.Homely) (h : k.Kindred) (hc : k.curr = some c)
    (hkin : c.kin = some kin) (hout : k.waits k.procs.running = none)
    (hown : ∀ a ∈ kin.aChildren, ∀ n d, k.pcbAt a = some n → k.proc n = some d → d.kin.isSome →
      d.parent = some k.procs.running)
    (hexit : kernelExit k status = some k') : k'.Homely := by
  obtain ⟨c', hc', hm, hkinship⟩ := reaped_self h hc hkin
  have hkin' : c'.kin = some kin := (congrArg Member.kin hm).trans hkin
  have hlaid : ∀ n ∈ k.procs.orphans, k.family.Laid n := fun n hn => (h.orphans n hn).2
  have hhome : (reapOrphans k).family.AtHome := by
    rw [family_reapOrphans]
    exact hh.atHome.destroyAll hlaid
  obtain ⟨hfamily, hwaits, -, -⟩ := kernelExit_moves h hc hkin hexit
  constructor
  · rw [hfamily]
    refine hhome.exit hkinship (member_eq hc') hkin' fun a ha n m hat hmem halive => ?_
    rw [family_reapOrphans] at hat hmem
    rw [Family.destroyAll_member] at hmem
    split at hmem
    · cases hmem
    · obtain ⟨d, hd, rfl⟩ := exists_of_member hmem
      exact hown a ha n d (Family.destroyAll_pcbAt hat) hd halive
  · intro q hq c₂ hc₂
    rw [hwaits] at hq
    obtain ⟨c₁, kin₁, hc₁, hkin₁, -⟩ := h.awake q hq
    have hne : q ≠ k.procs.running := by
      rintro rfl
      rw [hout] at hq
      cases hq
    obtain ⟨c₃, hc₃, hch, -⟩ := kernelExit_forth h hc hkin hexit hc₁ hkin₁ hne
    obtain rfl := Option.some.inj (hc₂.symm.trans hc₃)
    rw [hch]
    exact hh.hopeful q hq c₁ hc₁

/-- A collection leaves the others where they were. -/
theorem Kernel.Homely.collected {child : Node} {rest : List Node} {childPcb : Proc Node Addr}
    (statusPtr : ℤ) (hh : k.Homely) (h : k.Kindred) (hc : k.curr = some c)
    (hkin : c.kin = some kin) (hd : kin.dChildren = child :: rest)
    (hchild : k.proc child = some childPcb) :
    Kernel.Homely { collected k c kin child rest childPcb statusPtr with
      waits := Function.update k.waits k.procs.running none } := by
  have hp : k.family.member k.procs.running = some c.member := member_eq hc
  obtain ⟨hlaid, horphans⟩ := h.laid_collected hc hkin hd childPcb.serial
  have hhome : (Yalnix.collected k c kin child rest childPcb statusPtr).family.AtHome := by
    rw [family_collected hc]
    exact ((hh.atHome.collect h.kinship hp hkin hd (member_eq hchild)).destroy hlaid).destroyAll
      horphans
  constructor
  · exact hhome
  · intro q hq c₂ hc₂
    have hne : q ≠ k.procs.running := by
      rintro rfl
      dsimp only at hq
      rw [Function.update_self] at hq
      cases hq
    dsimp only at hq hc₂
    rw [Function.update_of_ne hne] at hq
    obtain ⟨c₁, kin₁, hc₁, hkin₁, -⟩ := h.awake q hq
    obtain ⟨c₃, hc₃, hm₃⟩ := collected_forth childPcb statusPtr h hc hkin hd hc₁ hkin₁ hne
    obtain rfl := Option.some.inj (hc₂.symm.trans hc₃)
    rw [show c₂.children = c₁.children from congrArg Member.children hm₃]
    exact hh.hopeful q hq c₁ hc₁

/-- **An activation leaves everybody where they can be found**, where the
process waits for somebody and orphans only its own. -/
theorem homely_step {e : Node × ProcAct Node Addr} (hh : k.Homely) (h : k.Kindred)
    (hwait : WaitFits k e) (hown : ExitsOwn k e) (hstep : k.step e = some k') : k'.Homely := by
  obtain ⟨p, act⟩ := e
  obtain ⟨c, kin, hc, hkin, -, -, hout, heff⟩ := step_effect hstep
  have h₀ : (switchTo k p c).Kindred := h.congr rfl rfl rfl rfl
  have hh₀ : (switchTo k p c).Homely := hh.congr rfl rfl
  have hcurr : (switchTo k p c).curr = some c := switchTo_curr hc
  cases heff.move hcurr with
  | kept _ _ hfamily _ _ hwaits => exact hh₀.congr hfamily hwaits
  | forked child data pid hchild hdata => exact hh₀.forked h₀ hcurr hkin hchild
  | exited _ k₁ _ c₁ status hc₁ hm hfamily hprocs hwaits hact _ hexit =>
    have h₁ : k₁.Kindred := h₀.congr hfamily (congrArg _ hprocs) (congrArg _ hprocs) hwaits
    have hkin₁ : c₁.kin = some kin := (congrArg Member.kin hm).trans hkin
    have hrunning : k₁.procs.running = p := congrArg ProcTable.running hprocs
    -- the process is dead, so the condition is about this exit
    obtain ⟨c', hc', hm', hkinship⟩ := reaped_self h₁ hc₁ hkin₁
    have hkin' : c'.kin = some kin := (congrArg Member.kin hm').trans hkin₁
    obtain ⟨m, hdead, hnone⟩ := (hkinship.exit_self (member_eq hc') hkin').1
    rw [← (kernelExit_moves h₁ hc₁ hkin₁ hexit).1, hrunning] at hdead
    obtain ⟨c₂, hc₂, rfl⟩ := exists_of_member hdead
    refine homely_kernelExit (hh₀.congr hfamily hwaits) h₁ hc₁ hkin₁ ?_ ?_ hexit
    · rw [hrunning, hwaits]
      exact hout.resolve_left hact
    · intro a ha n d hat hd halive
      rw [hrunning]
      have hat₀ : k.pcbAt a = some n := by
        have : k₁.pcbAt = k.pcbAt := congrArg Family.pcbAt hfamily
        rwa [this] at hat
      obtain ⟨d₀, hd₀, hmd⟩ := exists_of_member (k := k) (n := n) (m := d.member) (by
        have hfam : k₁.family = k.family := hfamily
        rw [← hfam]
        exact member_eq hd)
      have halive₀ : d₀.kin.isSome := by
        rw [show d₀.kin = d.kin from congrArg Member.kin hmd]
        exact halive
      have := hown _ c₂ c kin hstep hc₂ hnone hc hkin a ha n d₀ hat₀ hd₀ halive₀
      rw [show d.parent = d₀.parent from (congrArg Member.parent hmd).symm]
      exact this
  | asleep _ statusPtr hin hnone =>
    constructor
    · exact hh₀.atHome
    · intro q hq c₂ hc₂
      rcases eq_or_ne q p with rfl | hne
      · obtain rfl := Option.some.inj (hc.symm.trans hc₂)
        rcases hin with ⟨rfl, hptr, hsome⟩ | ⟨-, hwaits⟩
        · rcases hwait c kin hc hkin hptr with hnever | hsome'
          · exact absurd ⟨hnever, hnone⟩ hsome
          · exact hsome'
        · exact hh.hopeful q (by
            have : k.waits q = some statusPtr := hwaits
            rw [this]
            rfl) c hc
      · refine hh.hopeful q ?_ c₂ hc₂
        have : Function.update k.waits p (some statusPtr) q = k.waits q :=
          Function.update_of_ne hne _ _
        rw [← this]
        exact hq
  | collected _ statusPtr child rest childPcb hin hd hchild =>
    exact hh₀.collected statusPtr h₀ hcurr hkin hd hchild

end Calls

end Yalnix
