import Yalnix.Process.Waiting
/-!
# What an exit does to the others

Two laws about `process_terminate` and `graveyard`. A process that exits is
handed to its parent or kept among the orphans, once, and no wakeup is lost
on the way (`nobody_lost`): that holds in every run. But the walk over
`a_children` goes by addresses, and an address outlives the child whose
block it was: `touchesOwn_iff` says exactly when the walk changes nobody
else's parent.
-/

namespace Yalnix

variable {Node Addr : Type} [DecidableEq Node] [DecidableEq Addr] [Paging]
variable {k k' : Kernel Node Addr} {n p : Node} {c : Proc Node Addr} {kin : Kin Node Addr}

/-- The activation ends the process: it exits, or is killed. -/
def Ends (k : Kernel Node Addr) (e : Node × ProcAct Node Addr) (k' : Kernel Node Addr) : Prop :=
  k.step e = some k' ∧ ∃ c', k'.proc e.1 = some c' ∧ c'.kin = none

/-! ## Where the dead go -/

/-- **A process that waits has no dead child to collect.** -/
def Kernel.NoLostWakeup (k : Kernel Node Addr) : Prop :=
  ∀ p ∈ k.procs.waiting, ∃ c kin, k.proc p = some c ∧ c.kin = some kin ∧ kin.dChildren = []

/-- **A living process's parent lives**, with its lists. -/
def Kernel.ParentsLive (k : Kernel Node Addr) : Prop :=
  ∀ n c p, k.proc n = some c → c.kin.isSome → c.parent = some p →
    ∃ cp, k.proc p = some cp ∧ cp.kin.isSome

/-- **A process that exits is on one list, once**: that of the parent it
has, which lives, or the orphans'. -/
def BuriedOnce (k : Kernel Node Addr) (e : Node × ProcAct Node Addr) : Prop :=
  ∀ k', Ends k e k' →
    (∃ q c cq kin, k.proc e.1 = some c ∧ c.parent = some q ∧ k'.proc q = some cq ∧
      cq.kin = some kin ∧ kin.dChildren.count e.1 = 1 ∧ e.1 ∉ k'.procs.orphans ∧
      ∀ r cr kinr, r ≠ q → k'.proc r = some cr → cr.kin = some kinr → e.1 ∉ kinr.dChildren) ∨
    (k'.procs.orphans.count e.1 = 1 ∧
      ∀ r cr kinr, k'.proc r = some cr → cr.kin = some kinr → e.1 ∉ kinr.dChildren)

omit [Paging] in
/-- Nobody else has the process on a list after an exit. -/
theorem Family.Kinship.exit_place {f : Family Node Addr} {x : Node} {mx : Member Node Addr}
    (h : f.Kinship) (hx : f.member x = some mx) (hkin : mx.kin = some kin)
    (hp : ((f.terminate x kin).member x).bind Member.parent = some p) :
    mx.parent = some p ∧
    (∃ mp kinp, ((f.terminate x kin).grave x).member p = some mp ∧ mp.kin = some kinp ∧
      kinp.dChildren.count x = 1) ∧
    ∀ r mr kinr, r ≠ p → ((f.terminate x kin).grave x).member r = some mr →
      mr.kin = some kinr → x ∉ kinr.dChildren := by
  obtain ⟨mx', hmx', hpar⟩ := Option.bind_eq_some_iff.mp hp
  obtain ⟨hpar₀, hne, mp, kinp, hmp, hkinp, hnew, -⟩ := h.parent_terminate hx hkin hmx' hpar
  refine ⟨hpar₀, ?_, ?_⟩
  · refine ⟨{ mp with kin := mp.kin.map fun kin => { kin with dChildren := kin.dChildren ++ [x] } },
      { kinp with dChildren := kinp.dChildren ++ [x] }, ?_, by rw [hkinp]; rfl, ?_⟩
    · rw [Family.grave_member, hmp, Option.map_some, if_pos hp]
    · dsimp only
      rw [List.count_append, List.count_eq_zero_of_not_mem hnew, List.count_singleton_self]
  · intro r mr kinr hrp hr hkinr
    rw [Family.grave_member, hp, Option.map_eq_some_iff] at hr
    obtain ⟨mt, hmt, rfl⟩ := hr
    rw [if_neg (by simpa using Ne.symm hrp)] at hkinr
    obtain ⟨-, m, hm, -, -, -, hk, -⟩ := Family.terminate_back hmt
    split at hk
    · rw [hk] at hkinr
      cases hkinr
    · exact h.not_defunct hx hkin hm (hk ▸ hkinr)

/-- **The activation gets to `KernelExit`**, with the family as it was. -/
theorem Ends.exits {act : ProcAct Node Addr} (h : k.Kindred) (hends : Ends k (p, act) k') :
    ∃ c kin k₁ c₁, k.proc p = some c ∧ c.kin = some kin ∧ k₁.Kindred ∧ k₁.curr = some c₁ ∧
      c₁.member = c.member ∧ k₁.family = k.family ∧ k₁.procs = dispatch k.procs p ∧
      kernelExit k₁ act.status = some k' := by
  obtain ⟨hstep, c', hc', hdead⟩ := hends
  obtain ⟨c, kin, hc, hkin, -, -, -, heff⟩ := step_effect hstep
  have h₀ : (switchTo k p c).Kindred := h.congr rfl rfl rfl rfl
  have hcurr : (switchTo k p c).curr = some c := switchTo_curr hc
  obtain ⟨k₁, c₁, hc₁, hm, hfamily, hprocs, hwaits, hexit⟩ :=
    (heff.move hcurr).exit h₀ hcurr hkin hc' hdead
  have h₁ : k₁.Kindred := h₀.congr hfamily (congrArg _ hprocs) (congrArg _ hprocs) hwaits
  exact ⟨c, kin, k₁, c₁, hc, hkin, h₁, hc₁, hm, hfamily, hprocs, hexit⟩

/-- **An exit buries the process once.** -/
theorem buriedOnce (h : k.Kindred) (e : Node × ProcAct Node Addr) : BuriedOnce k e := by
  obtain ⟨p, act⟩ := e
  intro k' hends
  obtain ⟨c, kin, k₁, c₁, hc, hkin, h₁, hc₁, hm, -, hprocs, hexit⟩ := hends.exits h
  have hkin₁ : c₁.kin = some kin := (congrArg Member.kin hm).trans hkin
  have hrunning : k₁.procs.running = p := congrArg ProcTable.running hprocs
  obtain ⟨c₂, hc₂, hm₂, hkinship⟩ := reaped_self h₁ hc₁ hkin₁
  have hkin₂ : c₂.kin = some kin := (congrArg Member.kin hm₂).trans hkin₁
  obtain ⟨hfamily', -, -, horphans⟩ := kernelExit_moves h₁ hc₁ hkin₁ hexit
  rw [hrunning] at hfamily' horphans hc₂
  cases hpar : (((reapOrphans k₁).family.terminate p kin).member p).bind Member.parent with
  | none =>
    -- nobody to collect it: it is the one orphan and on no list of defunct children
    right
    rw [hpar] at horphans
    refine ⟨by rw [horphans]; exact List.count_singleton_self, ?_⟩
    intro r cr kinr hr hkinr
    have hlaid := (hkinship.exit_self (member_eq hc₂) hkin₂).2 hpar
    rw [← hfamily'] at hlaid
    exact hlaid.2 (member_eq hr) hkinr
  | some q =>
    -- its parent's list of defunct children has it once, and no other list has it
    left
    rw [hpar] at horphans
    obtain ⟨hparent, ⟨mq, kinq, hmq, hkinq, hcount⟩, hothers⟩ :=
      hkinship.exit_place (member_eq hc₂) hkin₂ hpar
    rw [← hfamily'] at hmq hothers
    obtain ⟨cq, hcq, rfl⟩ := exists_of_member hmq
    refine ⟨q, c, cq, kinq, hc, ?_, hcq, hkinq, hcount, ?_, ?_⟩
    · have : c₂.parent = c.parent :=
        (congrArg Member.parent hm₂).trans (congrArg Member.parent hm)
      rw [← this]
      exact hparent
    · rw [horphans]
      exact List.not_mem_nil
    · exact fun r cr kinr hne hr hkinr => hothers r _ kinr hne (member_eq hr) hkinr


/-! ## What the walk changes -/

/-- **An exit touches its own children only**: whoever has another parent
after it had the process for one, and every block the walk over
`a_children` stores to is somebody's `pcb_t` when it does. -/
def TouchesOwn (k : Kernel Node Addr) (e : Node × ProcAct Node Addr) : Prop :=
  ∀ k' c kin, Ends k e k' → k.proc e.1 = some c → c.kin = some kin →
    (∀ n d d', k.proc n = some d → k'.proc n = some d' → d'.parent ≠ d.parent →
      d.parent = some e.1) ∧
    ∀ a ∈ kin.aChildren, ((reapOrphans k).pcbAt a).isSome

/-- **The list is in order when the process exits**: each block on
`a_children` is in use, by a child of the process, by somebody without a
parent, or by the dead child that goes with the process. -/
def ListsOwn (k : Kernel Node Addr) (e : Node × ProcAct Node Addr) : Prop :=
  ∀ k' c kin, Ends k e k' → k.proc e.1 = some c → c.kin = some kin →
    ∀ a ∈ kin.aChildren, ∃ n, (reapOrphans k).pcbAt a = some n ∧
      ∀ d, (reapOrphans k).proc n = some d →
        d.parent = some e.1 ∨ d.parent = none ∨ n ∈ kin.dChildren.take 1

/-- Whether it is can be looked up. -/
instance decidableListsOwn (k : Kernel Node Addr) (e : Node × ProcAct Node Addr) :
    Decidable (ListsOwn k e) :=
  decidable_of_iff (∀ k' ∈ k.step e, (∃ c' ∈ k'.proc e.1, c'.kin.isNone) →
    ∀ c ∈ k.proc e.1, ∀ kin ∈ c.kin, ∀ a ∈ kin.aChildren, ∃ n ∈ (reapOrphans k).pcbAt a,
      ∀ d ∈ (reapOrphans k).proc n,
        d.parent = some e.1 ∨ d.parent = none ∨ n ∈ kin.dChildren.take 1)
    ⟨fun h k' c kin hends hc hkin =>
      h k' hends.1 (hends.2.imp fun _ hc' => ⟨hc'.1, Option.isNone_iff_eq_none.mpr hc'.2⟩)
        c hc kin hkin,
    fun h k' hk' hdead c hc kin hkin =>
      h k' c kin ⟨hk', hdead.imp fun _ hc' => ⟨hc'.1, Option.isNone_iff_eq_none.mp hc'.2⟩⟩
        hc hkin⟩

omit [Paging] in
/-- **Everybody's parent after an exit.** -/
theorem Family.exit_parent {f : Family Node Addr} {x : Node} :
    (((f.terminate x kin).grave x).member n).map Member.parent =
      if n ∈ kin.dChildren.take 1 then none
      else (f.member n).map fun m =>
        if ∃ a ∈ kin.aChildren, f.pcbAt a = some n then none else m.parent := by
  have hgrave : (((f.terminate x kin).grave x).member n).map Member.parent =
      ((f.terminate x kin).member n).map Member.parent := by
    rw [Family.grave_member, Option.map_map]
    congr 1
    funext m
    dsimp only [Function.comp_apply]
    split <;> rfl
  rw [hgrave, Family.terminate_member]
  split
  · rfl
  · rw [Family.orphan_member, Option.map_map, Option.map_map]
    congr 1
    funext m
    dsimp only [Function.comp_apply]
    split <;> split <;> rfl

/-- The same of the kernel: an activation that ends the process does to
everybody's parent what the walk does. -/
theorem Ends.parent {act : ProcAct Node Addr} (h : k.Kindred) (hends : Ends k (p, act) k')
    (hc : k.proc p = some c) (hkin : c.kin = some kin) :
    (k'.proc n).map Proc.parent =
      if n ∈ kin.dChildren.take 1 then none
      else ((reapOrphans k).proc n).map fun d =>
        if ∃ a ∈ kin.aChildren, (reapOrphans k).pcbAt a = some n then none else d.parent := by
  obtain ⟨c₀, kin₀, k₁, c₁, hc₀, hkin₀, h₁, hc₁, hm, hfamily, hprocs, hexit⟩ := hends.exits h
  obtain rfl := Option.some.inj (hc.symm.trans hc₀)
  obtain rfl := Option.some.inj (hkin.symm.trans hkin₀)
  have hkin₁ : c₁.kin = some kin := (congrArg Member.kin hm).trans hkin
  obtain ⟨hfamily', -⟩ := kernelExit_moves h₁ hc₁ hkin₁ hexit
  have hrunning : k₁.procs.running = p := congrArg ProcTable.running hprocs
  -- the orphans are the same, and so is the family without them
  have hreaped : (reapOrphans k₁).family = (reapOrphans k).family := by
    rw [family_reapOrphans, family_reapOrphans, hfamily, hprocs]
    rfl
  have hmap : ∀ k : Kernel Node Addr, (k.proc n).map Proc.parent =
      (k.family.member n).map Member.parent := by
    intro k
    show _ = ((k.proc n).map Proc.member).map Member.parent
    rw [Option.map_map]
    rfl
  rw [hmap, hfamily', hrunning, hreaped, Family.exit_parent]
  split
  · rfl
  · show ((((reapOrphans k).proc n).map Proc.member).map _) = _
    rw [Option.map_map]
    rfl

/-- Whoever is there after the orphans are freed was there. -/
theorem exists_of_reapOrphans {d : Proc Node Addr} (hd : (reapOrphans k).proc n = some d) :
    ∃ d₀, k.proc n = some d₀ ∧ d₀.parent = d.parent := by
  have hm := member_eq hd
  rw [family_reapOrphans, Family.destroyAll_member] at hm
  split at hm
  · cases hm
  · obtain ⟨d₀, hd₀, heq⟩ := exists_of_member hm
    exact ⟨d₀, hd₀, congrArg Member.parent heq⟩

/-- **The list decides**, in every state that keeps the law. -/
theorem touchesOwn_step_iff (h : k.Kindred) (e : Node × ProcAct Node Addr) :
    TouchesOwn k e ↔ ListsOwn k e := by
  obtain ⟨p, act⟩ := e
  refine forall_congr' fun k' => forall_congr' fun c => forall_congr' fun kin =>
    forall_congr' fun hends => forall_congr' fun hc => forall_congr' fun hkin => ?_
  have hparent := fun n => hends.parent (n := n) h hc hkin
  constructor
  · rintro ⟨hown, hused⟩ a ha
    obtain ⟨n, hn⟩ := Option.isSome_iff_exists.mp (hused a ha)
    refine ⟨n, hn, fun d hd => ?_⟩
    -- the first of the defunct is destroyed before the walk
    by_cases hin : n ∈ kin.dChildren.take 1
    · exact Or.inr (Or.inr hin)
    obtain ⟨d₀, hd₀, hpar⟩ := exists_of_reapOrphans hd
    have hafter := hparent n
    rw [if_neg hin, hd, Option.map_some, if_pos ⟨a, ha, hn⟩, Option.map_eq_some_iff] at hafter
    obtain ⟨d', hd', hnone⟩ := hafter
    by_cases hsame : d.parent = none
    · exact Or.inr (Or.inl hsame)
    · refine Or.inl ?_
      rw [← hpar]
      refine hown n d₀ d' hd₀ hd' ?_
      rw [hnone, hpar]
      exact Ne.symm hsame
  · intro hlists
    refine ⟨fun n d d' hd hd' hne => ?_, fun a ha => ?_⟩
    · have hafter := hparent n
      rw [hd', Option.map_some] at hafter
      split at hafter
      · cases hafter
      rename_i hnot
      obtain ⟨d₁, hd₁, hif⟩ := Option.map_eq_some_iff.mp hafter.symm
      obtain ⟨d₀, hd₀, hpar⟩ := exists_of_reapOrphans hd₁
      obtain rfl := Option.some.inj (hd.symm.trans hd₀)
      rw [hpar] at hne ⊢
      split at hif
      · -- the walk came by
        rename_i hlisted
        obtain ⟨a, ha, hat⟩ := hlisted
        obtain ⟨n', hn', hcases⟩ := hlists a ha
        obtain rfl := Option.some.inj (hat.symm.trans hn')
        rcases hcases d₁ hd₁ with hp | hnone | hin
        · exact hp
        · exact absurd (hif.symm.trans hnone.symm) hne
        · exact absurd hin hnot
      · exact absurd hif.symm hne
    · obtain ⟨n, hn, -⟩ := hlists a ha
      rw [hn]
      rfl

/-! ## Every run -/

section Runs

variable {b : Boot Node Addr} {s : Kernel Node Addr} {es : List (Node × ProcAct Node Addr)}

/-- **Nobody is lost between an exit and a wait**: in every state of a run
nobody sleeps who has a dead child to collect, and the parents of the living
live; and every exit leaves the process on one list, once. -/
theorem nobody_lost (hb : kernelStart b = some s) :
    Run.Throughout Kernel.step (fun k => k.NoLostWakeup ∧ k.ParentsLive) s es ∧
    Run.Along Kernel.step BuriedOnce s es := by
  have hlives : ∀ k : Kernel Node Addr, k.Kindred → k.NoLostWakeup ∧ k.ParentsLive := by
    intro k h
    refine ⟨fun p hp => (h.asleep p hp).2, fun n c p hc halive hpar => ?_⟩
    obtain ⟨mp, kin, hmp, hkin, -, -⟩ := h.kinship.parent_lives (member_eq hc) halive hpar
    obtain ⟨cp, hcp, rfl⟩ := exists_of_member hmp
    refine ⟨cp, hcp, ?_⟩
    rw [show cp.kin = some kin from hkin]
    rfl
  have hall : Run.Throughout Kernel.step Kernel.Kindred s es :=
    Run.throughout_of_step (fun _ _ _ _ hk ht => kindred_step hk ht) (kernelStart_kindred hb).1
  exact ⟨hall.mono hlives, hall.along fun _ e _ hk => buriedOnce hk e⟩

omit [Paging] in
/-- Init forks, and waits for the child. -/
theorem nobody_lost_forked :
    let _ := yalnixPaging
    let es : List (ℕ × ProcAct ℕ ℕ) := [(0, .fork 2 2 2), (0, .wait 0), (2, .exit 0)]
    ∃ k k', kernelStart (smallBoot 140) = some k ∧ Run.exec Kernel.step k es = some k' ∧
      Run.Throughout Kernel.step (fun k => k.NoLostWakeup ∧ k.ParentsLive) k es ∧
      Run.Along Kernel.step BuriedOnce k es := by
  let _ := yalnixPaging
  intro _ es
  have hruns : ((kernelStart (smallBoot 140)).bind fun k =>
      Run.exec Kernel.step k es).isSome = true := by
    decide +kernel
  obtain ⟨k, k', hk, hk'⟩ := Run.exists_exec hruns
  exact ⟨k, k', hk, hk', nobody_lost hk⟩

/-- **An exit touches its own children only exactly where** the list it
goes by is in order. -/
theorem touchesOwn_iff (hb : kernelStart b = some s) :
    Run.Along Kernel.step TouchesOwn s es ↔ Run.Along Kernel.step ListsOwn s es :=
  Run.along_congr (D := fun _ => True) (fun _ _ _ hk _ ht => kindred_step hk ht)
    (fun _ e hk _ => touchesOwn_step_iff hk e) (fun _ _ => trivial) (kernelStart_kindred hb).1

omit [Paging] in
/-- A process with a dead child and a living one exits, and the living one is
an orphan. -/
theorem touchesOwn_iff_forked :
    let _ := yalnixPaging
    let es : List (ℕ × ProcAct ℕ ℕ) := [(0, .fork 2 2 2), (2, .fork 3 3 3), (2, .fork 4 4 4),
      (3, .exit 1), (2, .exit 0)]
    ∃ k k', kernelStart (smallBoot 140) = some k ∧ Run.exec Kernel.step k es = some k' ∧
      (k'.proc 4).map (fun c => (c.kin.isSome, c.parent)) = some (true, none) ∧
      Run.Along Kernel.step ListsOwn k es ∧ Run.Along Kernel.step TouchesOwn k es := by
  let _ := yalnixPaging
  intro _ es
  have hruns : ((kernelStart (smallBoot 140)).bind fun k =>
      (Run.exec Kernel.step k es).map fun k' =>
        ((k'.proc 4).map fun c => (c.kin.isSome, c.parent),
          decide (Run.Along Kernel.step ListsOwn k es))) = some (some (true, none), true) := by
    decide +kernel
  obtain ⟨k, hk, hruns⟩ := Option.bind_eq_some_iff.mp hruns
  obtain ⟨k', hk', heq⟩ := Option.map_eq_some_iff.mp hruns
  obtain ⟨horphan, hdec⟩ := Prod.mk.inj heq
  have hlists : Run.Along Kernel.step ListsOwn k es := of_decide_eq_true hdec
  exact ⟨k, k', hk, hk', horphan, hlists, (touchesOwn_iff hk).mpr hlists⟩

omit [Paging] in
/-- **A stranger loses its parent**: process 3 collects its child 4, init
forks process 5, whose `pcb_t` is given the block that was 4's, and 3
exits. -/
theorem not_touchesOwn : ¬ ∀ (_ : Paging) (b : Boot ℕ ℕ) (s : Kernel ℕ ℕ)
    (es : List (ℕ × ProcAct ℕ ℕ)), kernelStart b = some s →
    Run.Along Kernel.step TouchesOwn s es := by
  intro h
  let _ := yalnixPaging
  let es : List (ℕ × ProcAct ℕ ℕ) := [(0, .fork 3 3 3), (3, .fork 4 4 4), (4, .exit 0),
    (3, .wait 0), (0, .fork 5 4 5)]
  have hrun : ((kernelStart (smallBoot 140)).bind fun k =>
      (Run.exec Kernel.step k es).bind fun k₁ => (k₁.step (3, .exit 0)).bind fun k₂ =>
        (k₁.proc 3).bind fun c => c.kin.bind fun _ => (k₂.proc 3).bind fun c' =>
          (k₁.proc 5).bind fun d => (k₂.proc 5).map fun d' =>
            (c'.kin.isNone, d.parent, d'.parent)) = some (true, some 0, none) := by
    decide +kernel
  obtain ⟨k, hk, hrun⟩ := Option.bind_eq_some_iff.mp hrun
  obtain ⟨k₁, hk₁, hrun⟩ := Option.bind_eq_some_iff.mp hrun
  obtain ⟨k₂, hk₂, hrun⟩ := Option.bind_eq_some_iff.mp hrun
  obtain ⟨c, hc, hrun⟩ := Option.bind_eq_some_iff.mp hrun
  obtain ⟨kin, hkin, hrun⟩ := Option.bind_eq_some_iff.mp hrun
  obtain ⟨c', hc', hrun⟩ := Option.bind_eq_some_iff.mp hrun
  obtain ⟨d, hd, hrun⟩ := Option.bind_eq_some_iff.mp hrun
  obtain ⟨d', hd', heq⟩ := Option.map_eq_some_iff.mp hrun
  obtain ⟨hdead, heq⟩ := Prod.mk.inj heq
  obtain ⟨hbefore, hafter⟩ := Prod.mk.inj heq
  have hown := ((Run.along_cons hk₂).mp ((Run.along_append hk₁).mp
    (h yalnixPaging (smallBoot 140) k (es ++ [(3, .exit 0)]) hk)).2).1
  have hends : Ends k₁ (3, .exit 0) k₂ := ⟨hk₂, c', hc', by simpa using hdead⟩
  have hpar := (hown k₂ c kin hends hc hkin).1 5 d d' hd hd' (by rw [hbefore, hafter]; simp)
  rw [hbefore] at hpar
  cases hpar

end Runs

end Yalnix
