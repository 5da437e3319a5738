import Yalnix.Process.Kindred
/-!
# Kernel stacks and saved contexts

What a process is switched in with is in its `pcb_t`: its kernel stack, and
the context its last trap saved. Of both a process that is still there has
what it had, whatever call another makes; `Exec` replaces the context of its
caller, and `Fork` makes a process with a stack of its own.
-/

namespace Yalnix

variable {Node Addr : Type}

/-- **The processes that are still there** are who they were, with their
kernel stacks and, outside `S`, their saved contexts; and nobody is born. -/
structure Keeps (k k' : Kernel Node Addr) (S : Set Node) : Prop where
  born : k'.born = k.born
  kept : ∀ n c', k'.proc n = some c' → ∃ c, k.proc n = some c ∧ c'.serial = c.serial ∧
    c'.pid = c.pid ∧ c'.kstack = c.kstack ∧ (n ∉ S → c'.uc = c.uc)

namespace Keeps

variable {k k' k'' : Kernel Node Addr} {S S' : Set Node}

theorem of_proc_eq (hborn : k'.born = k.born) (h : k'.proc = k.proc) : Keeps k k' S :=
  ⟨hborn, fun _ c' hc' => ⟨c', h ▸ hc', rfl, rfl, rfl, fun _ => rfl⟩⟩

theorem refl (k : Kernel Node Addr) (S : Set Node) : Keeps k k S := of_proc_eq rfl rfl

theorem trans (h : Keeps k k' S) (h' : Keeps k' k'' S) : Keeps k k'' S where
  born := h'.born.trans h.born
  kept := by
    intro n c'' hc''
    obtain ⟨c', hc', hserial', hpid', hstack', huc'⟩ := h'.kept n c'' hc''
    obtain ⟨c, hc, hserial, hpid, hstack, huc⟩ := h.kept n c' hc'
    exact ⟨c, hc, hserial'.trans hserial, hpid'.trans hpid, hstack'.trans hstack,
      fun hn => (huc' hn).trans (huc hn)⟩

theorem mono (h : Keeps k k' S) (hS : S ⊆ S') : Keeps k k' S' where
  born := h.born
  kept := by
    intro n c' hc'
    obtain ⟨c, hc, hserial, hpid, hstack, huc⟩ := h.kept n c' hc'
    exact ⟨c, hc, hserial, hpid, hstack, fun hn => huc fun hin => hn (hS hin)⟩

end Keeps

variable [DecidableEq Node] {k k' : Kernel Node Addr} {n : Node} {c : Proc Node Addr}
  {S : Set Node}

/-- A store to one process that keeps these. -/
theorem keeps_update {k' : Kernel Node Addr} {c' : Proc Node Addr} (hc : k.proc n = some c)
    (hborn : k'.born = k.born) (hproc : k'.proc = Function.update k.proc n (some c'))
    (hserial : c'.serial = c.serial)
    (hpid : c'.pid = c.pid) (hstack : c'.kstack = c.kstack) (huc : n ∉ S → c'.uc = c.uc) :
    Keeps k k' S := by
  refine ⟨hborn, fun m c'' hc'' => ?_⟩
  rw [hproc] at hc''
  rcases eq_or_ne m n with rfl | hm
  · rw [Function.update_self] at hc''
    obtain rfl := Option.some.inj hc''
    exact ⟨c, hc, hserial, hpid, hstack, huc⟩
  · rw [Function.update_of_ne hm] at hc''
    exact ⟨c'', hc'', rfl, rfl, rfl, fun _ => rfl⟩

theorem keeps_modify {f : Proc Node Addr → Proc Node Addr} (hserial : ∀ c, (f c).serial = c.serial)
    (hpid : ∀ c, (f c).pid = c.pid) (hstack : ∀ c, (f c).kstack = c.kstack)
    (huc : ∀ c, (f c).uc = c.uc) : Keeps k (k.modify n f) S := by
  cases hn : k.proc n with
  | none =>
    refine Keeps.of_proc_eq rfl ?_
    unfold Kernel.modify
    dsimp only
    rw [hn, Option.map_none, ← hn, Function.update_eq_self]
  | some c =>
    refine keeps_update hn rfl ?_ (hserial c) (hpid c) (hstack c) fun _ => huc c
    unfold Kernel.modify
    dsimp only
    rw [hn]
    rfl

theorem keeps_orphanAll (addrs : List Addr) : Keeps k (orphanAll addrs k) S := by
  induction addrs generalizing k with
  | nil => exact Keeps.refl k S
  | cons curr rest ih =>
    rw [orphanAll]
    cases k.pcbAt curr with
    | none => exact ih
    | some n =>
      have hmod : Keeps k (k.modify n fun c => { c with parent := none }) S :=
        keeps_modify (fun _ => rfl) (fun _ => rfl) (fun _ => rfl) fun _ => rfl
      exact hmod.trans ih

theorem keeps_graveyard : Keeps k (graveyard k) S := by
  unfold graveyard
  dsimp only
  cases k.curr.bind Proc.parent with
  | none => exact Keeps.of_proc_eq rfl rfl
  | some parent =>
    have hmod : Keeps k (k.modify parent fun p => { p with kin := p.kin.map fun kin =>
        { kin with dChildren := kin.dChildren ++ [k.procs.running] } }) S :=
      keeps_modify (fun _ => rfl) (fun _ => rfl) (fun _ => rfl) fun _ => rfl
    exact hmod.trans (Keeps.of_proc_eq rfl rfl)

section Calls

variable [DecidableEq Addr] [Paging]

theorem keeps_processDestroy : Keeps k (processDestroy k n) S := by
  unfold processDestroy
  cases hn : k.proc n with
  | none => exact Keeps.refl k S
  | some p =>
    refine ⟨rfl, fun m c' hc' => ?_⟩
    dsimp only at hc'
    rcases eq_or_ne m n with rfl | hm
    · rw [Function.update_self] at hc'
      cases hc'
    · rw [Function.update_of_ne hm] at hc'
      exact ⟨c', hc', rfl, rfl, rfl, fun _ => rfl⟩

theorem keeps_destroyAll (procs : List Node) : Keeps k (destroyAll procs k) S := by
  induction procs generalizing k with
  | nil => exact Keeps.refl k S
  | cons proc rest ih => exact keeps_processDestroy.trans ih

theorem keeps_reapOrphans : Keeps k (reapOrphans k) S :=
  (keeps_destroyAll k.procs.orphans).trans (Keeps.of_proc_eq rfl rfl)

theorem keeps_processTerminate (rc : ℤ) : Keeps k (processTerminate k n rc) S := by
  rcases alive_or_dead k n with ⟨p, kin, hp, hkin⟩ | hdead
  · rw [processTerminate_eq rc hp hkin]
    have hrelease : Keeps k (releaseUser k n p rc) S :=
      keeps_update hp rfl rfl rfl rfl rfl fun _ => rfl
    have hdefunct : ∀ k₀ : Kernel Node Addr, Keeps k₀ (destroyDefunct kin.dChildren k₀) S := by
      intro k₀
      cases kin.dChildren with
      | nil => exact Keeps.refl k₀ S
      | cons curr rest => exact keeps_processDestroy
    exact ((hrelease.trans (keeps_orphanAll _)).trans (hdefunct _)).trans
      (keeps_modify (fun _ => rfl) (fun _ => rfl) (fun _ => rfl) fun _ => rfl)
  · rw [processTerminate_of_dead rc hdead]
    exact Keeps.refl k S

theorem keeps_kernelExit {status : ℤ} (h : kernelExit k status = some k') : Keeps k k' S := by
  rw [kernelExit_eq h]
  exact (keeps_reapOrphans.trans (keeps_processTerminate status)).trans keeps_graveyard

theorem keeps_collected {kin : Kin Node Addr} {child : Node} {rest : List Node}
    {childPcb : Proc Node Addr} {statusPtr : ℤ} (hc : k.curr = some c) :
    Keeps k (collected k c kin child rest childPcb statusPtr) S := by
  unfold collected
  have hset : Keeps k (k.set k.procs.running { c with
      kin := some { kin with dChildren := rest }
      children := c.children.erase childPcb.serial } k.mem) S :=
    keeps_update hc rfl rfl rfl rfl rfl fun _ => rfl
  refine hset.trans (Keeps.trans ?_ (keeps_processDestroy.trans keeps_reapOrphans))
  split
  · exact Keeps.of_proc_eq rfl rfl
  · exact Keeps.refl _ _

/-- The call may replace the context of its caller. -/
def ProcAct.IsExec : ProcAct Node Addr → Prop
  | .exec _ _ _ => True
  | _ => False

/-- **What an activation keeps**: it makes a child, or everybody who is still
there has what they had, the caller of `Exec` less its context. -/
theorem Effect.keepsContexts {kin : Kin Node Addr} {act : ProcAct Node Addr} (hc : k.curr = some c)
    (heff : Effect k c kin act k') :
    (∃ child data pid, act = .fork child data pid ∧ k.proc child = none ∧
      k' = Yalnix.forked k c child data pid) ∨
    Keeps k k' {n | act.IsExec ∧ n = k.procs.running} := by
  cases heff with
  | forkRefused => exact Or.inr (Keeps.refl _ _)
  | forked child data pid hyes hchild hdata => exact Or.inl ⟨child, data, pid, rfl, hchild, rfl⟩
  | execRefused => exact Or.inr (Keeps.refl _ _)
  | loaded filename argvec env args l hl hcode =>
    exact Or.inr (keeps_update hc rfl rfl rfl rfl rfl fun hn => absurd ⟨trivial, rfl⟩ hn)
  | killed filename argvec env args l k' hl hcode hexit =>
    have hset : Keeps k (k.set k.procs.running (loadedProc c l) l.1.mem)
        {n | (ProcAct.exec filename argvec env : ProcAct Node Addr).IsExec ∧
          n = k.procs.running} :=
      keeps_update hc rfl rfl rfl rfl rfl fun hn => absurd ⟨trivial, rfl⟩ hn
    exact Or.inr (hset.trans (keeps_kernelExit hexit))
  | exited status k' hexit => exact Or.inr (keeps_kernelExit hexit)
  | waitRefused => exact Or.inr (Keeps.refl _ _)
  | asleep => exact Or.inr (Keeps.of_proc_eq rfl rfl)
  | collected act statusPtr child rest childPcb hin hd hchild =>
    exact Or.inr ((keeps_collected hc).trans (Keeps.of_proc_eq rfl rfl))
  | brk addr r hr =>
    rcases kernelUserBrk_set hc hr with heq | ⟨u, mem, heq⟩
    · rw [heq]
      exact Or.inr (Keeps.refl _ _)
    · rw [heq]
      exact Or.inr (keeps_update hc rfl rfl rfl rfl rfl fun _ => rfl)
  | fault addr k' hk' =>
    rcases trapMemory_set hc hk' with hexit | ⟨u, mem, rfl⟩
    · exact Or.inr (keeps_kernelExit hexit)
    · exact Or.inr (keeps_update hc rfl rfl rfl rfl rfl fun _ => rfl)
  | stored => exact Or.inr (Keeps.of_proc_eq rfl rfl)

/-- **What `Fork` makes**: everybody keeps what they had, and the child has
the context its parent has saved. -/
theorem forked_proc (child : Node) (data : Addr) (pid : ℤ) (hc : k.curr = some c) :
    (∀ m, m ≠ child → ∀ c', (forked k c child data pid).proc m = some c' → ∃ c₀,
      k.proc m = some c₀ ∧ c'.serial = c₀.serial ∧ c'.pid = c₀.pid ∧ c'.kstack = c₀.kstack ∧
        c'.uc = c₀.uc) ∧
    ∃ c', (forked k c child data pid).proc child = some c' ∧ c'.serial = k.born ∧ c'.pid = pid ∧
      c'.uc = c.uc := by
  refine ⟨fun m hm c' hc' => ?_, childOf k c data pid, Function.update_self _ _ _, rfl, rfl, rfl⟩
  unfold forked at hc'
  dsimp only at hc'
  rw [Function.update_of_ne hm] at hc'
  rcases eq_or_ne m k.procs.running with rfl | hne
  · rw [Function.update_self] at hc'
    obtain rfl := Option.some.inj hc'
    exact ⟨c, hc, rfl, rfl, rfl, rfl⟩
  · rw [Function.update_of_ne hne] at hc'
    exact ⟨c', hc', rfl, rfl, rfl, rfl⟩

end Calls

end Yalnix
