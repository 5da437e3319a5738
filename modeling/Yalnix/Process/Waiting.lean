import Yalnix.Process.Boot
import Yalnix.Process.Lifecycle
/-!
# Waiting for children

`KernelWait` says there is nobody to wait for when both lists of children
are empty. But `a_children` is only ever added to, so that a process that
has forked is never told so again: once all its children are collected, its
next `Wait` never returns (`not_served`). `waitsExactly_iff` is the exact
condition, call by call, and what it gives for everybody on the queue.
-/

namespace Yalnix

variable {Node Addr : Type} [DecidableEq Node] [DecidableEq Addr] [Paging]

/-! ## After `KernelStart` -/

section Boot

variable {b : Boot Node Addr} {k : Kernel Node Addr}

omit [DecidableEq Node] [DecidableEq Addr] [Paging] in
/-- **A family of strangers**: nobody has a parent or a child. -/
theorem kinship_strangers {f : Family Node Addr}
    (hpcb : ∀ n m, f.member n = some m → f.pcbAt m.data = some n)
    (hlt : ∀ n m, f.member n = some m → m.serial < f.born)
    (hinj : ∀ n n' m m', f.member n = some m → f.member n' = some m' →
      m.serial = m'.serial → n = n')
    (hnone : ∀ n m, f.member n = some m →
      m.parent = none ∧ m.kin = some ⟨[], []⟩ ∧ m.children = []) : f.Kinship := by
  have hkin : ∀ {n m kin}, f.member n = some m → m.kin = some kin → kin = ⟨[], []⟩ := by
    intro n m kin hm hk
    rw [(hnone n m hm).2.1] at hk
    exact (Option.some.inj hk).symm
  -- without parent, child or list, what speaks of kin holds of nobody
  constructor
  · exact fun hm => hpcb _ _ hm
  · exact fun hm => hlt _ _ hm
  · exact fun hm hm' => hinj _ _ _ _ hm hm'
  · intro n m s hm hs
    rw [(hnone n m hm).2.2] at hs
    cases hs
  · intro n m hm
    rw [(hnone n m hm).2.2]
    exact List.nodup_nil
  · intro n n' m m' s hm _ hs
    rw [(hnone n m hm).2.2] at hs
    cases hs
  · intro n m p hm _ hp
    rw [(hnone n m hm).1] at hp
    cases hp
  · intro p mp kin n hp hk hn
    rw [hkin hp hk] at hn
    cases hn
  · intro p mp kin hp hk
    rw [hkin hp hk]
    exact List.nodup_nil
  · intro p mp kin hp _ hne
    exact absurd (hnone p mp hp).2.2 hne

/-- The queues and the blocks `init_load` leaves. -/
theorem initLoad_queues (h : initLoad b = some k) :
    k.procs.waiting = [] ∧ k.procs.orphans = [] ∧ (k.waits = fun _ => none) ∧ k.born = 1 ∧
      k.pcbAt = Function.update (fun _ => none) b.initData (some b.initNode) := by
  unfold initLoad at h
  dsimp only at h
  split at h
  · cases h
  · rw [← Option.some.inj h]
    exact ⟨rfl, rfl, rfl, rfl, rfl⟩

/-- **The family after `KernelStart`** is init and idle. -/
theorem kernelStart_family (hb : kernelStart b = some k) :
    b.idleNode ≠ b.initNode ∧ b.idleData ≠ b.initData ∧
    k.family =
      { member := Function.update (Function.update (fun _ => none) b.initNode
          (some ⟨b.initData, none, some ⟨[], []⟩, 0, []⟩)) b.idleNode
            (some ⟨b.idleData, none, some ⟨[], []⟩, 1, []⟩)
        pcbAt := Function.update (Function.update (fun _ => none) b.initData (some b.initNode))
          b.idleData (some b.idleNode)
        born := 2 } ∧
    k.procs.waiting = [] ∧ k.procs.orphans = [] ∧ k.waits = fun _ => none := by
  unfold kernelStart at hb
  split at hb
  · cases hb
  rename_i hne
  rw [not_or] at hne
  obtain ⟨k₁, hk₁, rfl⟩ := Option.map_eq_some_iff.mp hb
  obtain ⟨r, -, -, -, -, hproc⟩ := initLoad_eq hk₁
  obtain ⟨hwaiting, horphans, hwaits, hborn, hpcb⟩ := initLoad_queues hk₁
  rw [idleSetup_eq]
  refine ⟨fun h => hne.1 h.symm, fun h => hne.2 h.symm, ?_, hwaiting, horphans, hwaits⟩
  unfold Kernel.family
  dsimp only
  rw [hproc, hpcb, hborn]
  -- two PCBs, the idle process's made last
  congr 1
  funext n
  rcases eq_or_ne n b.idleNode with rfl | h₁
  · rw [Function.update_self, Function.update_self, ← hborn]
    rfl
  · rw [Function.update_of_ne h₁, Function.update_of_ne h₁]
    rcases eq_or_ne n b.initNode with rfl | h₂
    · rw [Function.update_self, Function.update_self]
      rfl
    · rw [Function.update_of_ne h₂, Function.update_of_ne h₂]
      rfl

/-- They are strangers. -/
theorem kernelStart_member (hb : kernelStart b = some k) {n : Node} {m : Member Node Addr}
    (hm : k.family.member n = some m) :
    (n = b.idleNode ∧ m = ⟨b.idleData, none, some ⟨[], []⟩, 1, []⟩) ∨
    (n = b.initNode ∧ m = ⟨b.initData, none, some ⟨[], []⟩, 0, []⟩) := by
  rw [(kernelStart_family hb).2.2.1] at hm
  dsimp only at hm
  rcases eq_or_ne n b.idleNode with rfl | h₁
  · rw [Function.update_self] at hm
    exact Or.inl ⟨rfl, (Option.some.inj hm).symm⟩
  · rw [Function.update_of_ne h₁] at hm
    rcases eq_or_ne n b.initNode with rfl | h₂
    · rw [Function.update_self] at hm
      exact Or.inr ⟨rfl, (Option.some.inj hm).symm⟩
    · rw [Function.update_of_ne h₂] at hm
      cases hm

/-- **After `KernelStart`** there are init and idle, and nobody waits. -/
theorem kernelStart_kindred (hb : kernelStart b = some k) : k.Kindred ∧ k.Homely := by
  obtain ⟨-, hdata, hfamily, hwaiting, horphans, hwaits⟩ := kernelStart_family hb
  have hmember := fun {n m} => @kernelStart_member Node Addr _ _ _ b k hb n m
  have hpcb := congrArg Family.pcbAt hfamily
  have hborn := congrArg Family.born hfamily
  have hkinship : k.family.Kinship := by
    refine kinship_strangers (fun n m hm => ?_) (fun n m hm => ?_) (fun n n' m m' hm hm' => ?_)
      fun n m hm => ?_
    · rw [hpcb]
      rcases hmember hm with ⟨rfl, rfl⟩ | ⟨rfl, rfl⟩
      · exact Function.update_self _ _ _
      · dsimp only
        rw [Function.update_of_ne (Ne.symm hdata), Function.update_self]
    · rw [hborn]
      rcases hmember hm with ⟨-, rfl⟩ | ⟨-, rfl⟩ <;> simp
    · rcases hmember hm with ⟨rfl, rfl⟩ | ⟨rfl, rfl⟩ <;>
        rcases hmember hm' with ⟨rfl, rfl⟩ | ⟨rfl, rfl⟩ <;> simp
    · rcases hmember hm with ⟨-, rfl⟩ | ⟨-, rfl⟩ <;> exact ⟨rfl, rfl, rfl⟩
  refine ⟨⟨hkinship, ?_, ?_, ?_, ?_⟩, ⟨?_, ?_⟩⟩
  · rw [horphans]
    intro n hn
    cases hn
  · rw [hwaiting]
    exact List.nodup_nil
  · rw [hwaiting]
    intro p hp
    cases hp
  · rw [hwaits]
    intro p hp
    cases hp
  · intro p mp kin s hp _ hs
    rcases hmember hp with ⟨-, rfl⟩ | ⟨-, rfl⟩ <;> cases hs
  · rw [hwaits]
    intro p hp
    cases hp

end Boot

/-! ## What `KernelWait` answers -/

/-- **Nobody waits in vain**: whoever is on `procs->waiting` has a living
child that will hand itself over. -/
def Kernel.Served (k : Kernel Node Addr) : Prop :=
  ∀ p ∈ k.procs.waiting, ∃ c, k.proc p = some c ∧
    ∃ n d, k.proc n = some d ∧ d.kin.isSome ∧ d.parent = some p ∧ d.serial ∈ c.children

/-- **`KernelWait` refuses exactly those without children**: handed NULL or
a pointer that passes the check, it returns `ERROR` at once, with nothing
changed, exactly when every child has been collected. -/
def WaitsExactly (k : Kernel Node Addr) : Node × ProcAct Node Addr → Prop
  | (p, .wait statusPtr) => ∀ c kin, k.proc p = some c → c.kin = some kin →
      (statusPtr = 0 ∨ checkAddr statusPtr protWrite c.userpt.pt = true) →
      (kernelWait (switchTo k p c) statusPtr =
        some (switchTo k p c, .returned errorCode) ↔ c.children = [])
  | _ => True

section Answers

variable {k : Kernel Node Addr} {c : Proc Node Addr} {kin : Kin Node Addr} {statusPtr : ℤ}

/-- It goes by the two lists. -/
theorem kernelWait_error_iff (hc : k.curr = some c) (hkin : c.kin = some kin)
    (hptr : statusPtr = 0 ∨ checkAddr statusPtr protWrite c.userpt.pt = true) :
    kernelWait k statusPtr = some (k, .returned errorCode) ↔
      kin.aChildren = [] ∧ kin.dChildren = [] := by
  constructor
  · intro h
    rcases kernelWait_cases hc hkin h with ⟨hne, hno, -⟩ | ⟨-, ⟨ha, hd, -⟩ | ⟨-, hloop⟩⟩
    · rcases hptr with rfl | hyes
      · exact absurd rfl hne
      · rw [hno] at hyes
        cases hyes
    · exact ⟨ha, hd⟩
    · rcases waitLoop_cases hc hkin hloop with ⟨-, heq⟩ | ⟨child, rest, childPcb, -, hchild, heq⟩
      · cases congrArg Prod.snd heq
      · -- a child it returned with would still be there
        have hsame : k = collected k c kin child rest childPcb statusPtr := congrArg Prod.fst heq
        have hgone : k.family.member child = none := by
          rw [hsame, family_collected hc, Family.destroyAll_member, Family.destroy_member]
          simp
        rw [member_eq hchild] at hgone
        cases hgone
  · rintro ⟨ha, hd⟩
    unfold kernelWait
    rw [hc]
    dsimp only
    rw [if_neg, hkin]
    · dsimp only
      rw [if_pos ⟨ha, hd⟩]
    · rintro ⟨hne, hno⟩
      rcases hptr with rfl | hyes
      · exact hne rfl
      · exact hno hyes

/-- Under the law the answer is right where the caller has never forked or
has a child left. -/
theorem waitsExactly_step_iff (h : k.Kindred) (e : Node × ProcAct Node Addr) :
    WaitsExactly k e ↔ WaitFits k e := by
  obtain ⟨p, act⟩ := e
  cases act with
  | wait statusPtr =>
    refine forall_congr' fun c => forall_congr' fun kin => forall_congr' fun hc =>
      forall_congr' fun hkin => forall_congr' fun hptr => ?_
    have hcurr : (switchTo k p c).curr = some c := switchTo_curr hc
    rw [kernelWait_error_iff hcurr hkin hptr]
    have hlisted : c.children ≠ [] → kin.aChildren ≠ [] := h.kinship.listed (member_eq hc) hkin
    have hdefunct : kin.dChildren ≠ [] → c.children ≠ [] := by
      intro hne
      obtain ⟨n, hn⟩ := List.exists_mem_of_ne_nil _ hne
      obtain ⟨m, -, -, hin⟩ := h.kinship.defunct (member_eq hc) hkin hn
      exact List.ne_nil_of_mem hin
    constructor
    · intro hiff
      by_cases hch : c.children = []
      · exact Or.inl (hiff.mpr hch).1
      · exact Or.inr hch
    · rintro (ha | hch)
      · have hch : c.children = [] := by
          by_contra hne
          exact hlisted hne ha
        have hd : kin.dChildren = [] := by
          by_contra hne
          exact hdefunct hne hch
        exact ⟨fun _ => hch, fun _ => ⟨ha, hd⟩⟩
      · exact ⟨fun hnone => absurd hnone.1 (hlisted hch), fun hnil => absurd hnil hch⟩
  | _ => exact Iff.rfl

omit [DecidableEq Node] [DecidableEq Addr] [Paging] in
/-- **Under the laws nobody waits in vain.** -/
theorem Kernel.Homely.served (hh : k.Homely) (h : k.Kindred) : k.Served := by
  intro p hp
  obtain ⟨hw, c, kin, hc, hkin, hd⟩ := h.asleep p hp
  obtain ⟨s, hs⟩ := List.exists_mem_of_ne_nil _ (hh.hopeful p hw c hc)
  obtain ⟨n, m, hm, hserial, hwhere⟩ := hh.atHome (member_eq hc) hkin hs
  obtain ⟨d, hdn, rfl⟩ := exists_of_member hm
  rcases hwhere with ⟨halive, hpar⟩ | ⟨-, hin⟩
  · have hin : d.serial ∈ c.children := by
      rw [show d.serial = s from hserial]
      exact hs
    exact ⟨c, hc, n, d, hdn, halive, hpar, hin⟩
  · rw [hd] at hin
    cases hin

end Answers

/-! ## Every run -/

section Runs

variable {b : Boot Node Addr} {s : Kernel Node Addr}

/-- **`KernelWait` answers rightly exactly where** each call is made by a
process that has never forked or has a child it has not collected; and where
each exit orphans only children of its own, too, nobody waits in vain. -/
theorem waitsExactly_iff {es : List (Node × ProcAct Node Addr)} (hb : kernelStart b = some s) :
    (Run.Along Kernel.step WaitsExactly s es ↔ Run.Along Kernel.step WaitFits s es) ∧
    (Run.Along Kernel.step (fun k e => WaitFits k e ∧ ExitsOwn k e) s es →
      Run.Throughout Kernel.step Kernel.Served s es) := by
  obtain ⟨hkindred, hhomely⟩ := kernelStart_kindred hb
  constructor
  · exact Run.along_congr (D := fun _ => True) (fun k e k' hk _ ht => kindred_step hk ht)
      (fun k e hk _ => waitsExactly_step_iff hk e) (fun _ _ => trivial) hkindred
  · intro hok
    have hall : Run.Throughout Kernel.step (fun k => k.Kindred ∧ k.Homely) s es :=
      Run.throughout_of_along (D := fun _ => True)
        (fun k e k' hk _ hfits ht =>
          ⟨kindred_step hk.1 ht, homely_step hk.2 hk.1 hfits.1 hfits.2 ht⟩)
        (fun _ _ => trivial) ⟨hkindred, hhomely⟩ hok
    exact hall.mono fun k hk => hk.2.served hk.1

omit [Paging] in
/-- Init forks two processes, collects the first, and waits for the second;
the second forks, waits, collects its child and exits. -/
theorem waitsExactly_iff_forked :
    let _ := yalnixPaging
    let es : List (ℕ × ProcAct ℕ ℕ) := [(0, .fork 2 2 2), (0, .fork 3 3 3), (2, .exit 5),
      (0, .wait 0), (0, .wait 0), (3, .fork 4 4 4), (3, .wait 0), (4, .exit 6), (3, .resume),
      (3, .exit 7), (0, .resume)]
    ∃ k k', kernelStart (smallBoot 140) = some k ∧ Run.exec Kernel.step k es = some k' ∧
      k'.procs.waiting = [] ∧ Run.Along Kernel.step WaitFits k es ∧
      Run.Along Kernel.step WaitsExactly k es ∧
      Run.Throughout Kernel.step Kernel.Served k es := by
  let _ := yalnixPaging
  intro _ es
  have hruns : ((kernelStart (smallBoot 140)).bind fun k =>
      (Run.exec Kernel.step k es).map fun k' => (k'.procs.waiting,
        decide (Run.Along Kernel.step WaitFits k es),
        decide (Run.Along Kernel.step ExitsOwn k es))) = some ([], true, true) := by
    decide +kernel
  obtain ⟨k, hk, hruns⟩ := Option.bind_eq_some_iff.mp hruns
  obtain ⟨k', hk', heq⟩ := Option.map_eq_some_iff.mp hruns
  obtain ⟨hnobody, heq⟩ := Prod.mk.inj heq
  obtain ⟨hwait, hown⟩ := Prod.mk.inj heq
  have hfits : Run.Along Kernel.step WaitFits k es := of_decide_eq_true hwait
  have hexits : Run.Along Kernel.step ExitsOwn k es := of_decide_eq_true hown
  exact ⟨k, k', hk, hk', hnobody, hfits, (waitsExactly_iff hk).1.mpr hfits,
    (waitsExactly_iff hk).2 (hfits.and hexits)⟩

omit [Paging] in
/-- **`Wait` fails after the last child**: init forks a process, collects it
when it has exited, and calls `Wait` again. It goes to sleep, and nobody is
left to wake it. -/
theorem not_served : ¬ ∀ (_ : Paging) (b : Boot ℕ ℕ) (s : Kernel ℕ ℕ)
    (es : List (ℕ × ProcAct ℕ ℕ)), kernelStart b = some s →
    Run.Along Kernel.step WaitsExactly s es ∧ Run.Throughout Kernel.step Kernel.Served s es := by
  intro h
  let _ := yalnixPaging
  have hrun : ((kernelStart (smallBoot 140)).bind fun k =>
      (Run.exec Kernel.step k [(0, .fork 2 2 2), (2, .exit 0), (0, .wait 0), (0, .wait 0)]).bind
        fun k' => (k'.proc 0).map fun c => (k'.procs.waiting, c.children)) = some ([0], []) := by
    decide +kernel
  obtain ⟨k, hk, hrun⟩ := Option.bind_eq_some_iff.mp hrun
  obtain ⟨k', hk', hrun⟩ := Option.bind_eq_some_iff.mp hrun
  obtain ⟨c, hc, heq⟩ := Option.map_eq_some_iff.mp hrun
  obtain ⟨hwaiting, hchildren⟩ := Prod.mk.inj heq
  have hserved := ((h yalnixPaging (smallBoot 140) k _ hk).2).final hk'
  obtain ⟨c', hc', n, d, -, -, -, hin⟩ := hserved 0 (by rw [hwaiting]; exact List.mem_singleton_self 0)
  obtain rfl := Option.some.inj (hc.symm.trans hc')
  rw [hchildren] at hin
  cases hin

end Runs

end Yalnix
