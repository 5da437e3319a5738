import Yalnix.Process.Family.Moves
/-!
# The families the kernel keeps

The kernel's processes as a family tree, and the system calls as moves on
it: each function of `process.c` and `scheduling.c` that touches links is
one of the operations of `Family/Tree.lean`. From that, what every run
keeps: `Kindred` puts the queues `waiting` and `orphans` beside the tree.
-/

namespace Yalnix

variable {Node Addr : Type}

/-- What the family tree has of a process. -/
def Proc.member (c : Proc Node Addr) : Member Node Addr :=
  ⟨c.data, c.parent, c.kin, c.serial, c.children⟩

/-- **The kernel's family tree.** -/
def Kernel.family (k : Kernel Node Addr) : Family Node Addr where
  member n := (k.proc n).map Proc.member
  pcbAt := k.pcbAt
  born := k.born

variable {k k' : Kernel Node Addr} {n p : Node} {c : Proc Node Addr}

theorem member_eq (h : k.proc n = some c) : k.family.member n = some c.member := by
  unfold Kernel.family
  dsimp only
  rw [h]
  rfl

theorem member_none : k.family.member n = none ↔ k.proc n = none := Option.map_eq_none_iff

theorem exists_of_member {m : Member Node Addr} (h : k.family.member n = some m) :
    ∃ c, k.proc n = some c ∧ c.member = m := Option.map_eq_some_iff.mp h

/-! ## The functions, as operations on the tree -/

section Moves

variable [DecidableEq Node]

theorem family_modify {f : Proc Node Addr → Proc Node Addr}
    {g : Member Node Addr → Member Node Addr} (h : ∀ c, (f c).member = g c.member) :
    (k.modify n f).family = k.family.modify n g := by
  unfold Kernel.family Kernel.modify Family.modify
  dsimp only
  congr 1
  funext n'
  rcases eq_or_ne n' n with rfl | hne
  · rw [Function.update_self, Function.update_self, Option.map_map, Option.map_map]
    congr 1
    funext c
    exact h c
  · rw [Function.update_of_ne hne, Function.update_of_ne hne]

/-- A store that touches no links keeps the family. -/
theorem family_modify_self {f : Proc Node Addr → Proc Node Addr}
    (h : ∀ c, (f c).member = c.member) : (k.modify n f).family = k.family := by
  have hsame := family_modify (k := k) (n := n) (f := f) (g := fun m => m) h
  rw [hsame]
  unfold Family.modify
  rw [Option.map_id', Function.update_eq_self]

variable [Paging] [DecidableEq Addr]

omit [Paging] [DecidableEq Addr] in
/-- **A store that keeps a process's links** keeps the family. -/
theorem family_set {c' : Proc Node Addr} (mem : Memory) (hc : k.proc n = some c)
    (h : c'.member = c.member) : (k.set n c' mem).family = k.family := by
  unfold Kernel.family Kernel.set
  dsimp only
  congr 1
  funext n'
  rcases eq_or_ne n' n with rfl | hne
  · rw [Function.update_self, hc, Option.map_some, Option.map_some, h]
  · rw [Function.update_of_ne hne]

theorem family_processDestroy : (processDestroy k n).family = k.family.destroy n := by
  unfold processDestroy Family.destroy
  cases hn : k.proc n with
  | none =>
    have hm : k.family.member n = none := member_none.mpr hn
    rw [hm]
  | some c =>
    rw [member_eq hn]
    unfold Kernel.family
    dsimp only
    congr 1
    funext n'
    rcases eq_or_ne n' n with rfl | hne
    · rw [Function.update_self, Function.update_self]
      rfl
    · rw [Function.update_of_ne hne, Function.update_of_ne hne]

theorem family_destroyAll (procs : List Node) :
    (destroyAll procs k).family = Family.destroyAll procs k.family := by
  induction procs generalizing k with
  | nil => rfl
  | cons proc rest ih => rw [destroyAll, ih, family_processDestroy, Family.destroyAll]

theorem family_reapOrphans :
    (reapOrphans k).family = Family.destroyAll k.procs.orphans k.family :=
  family_destroyAll k.procs.orphans

omit [Paging] [DecidableEq Addr] in
theorem family_orphanAll (addrs : List Addr) :
    (orphanAll addrs k).family = k.family.orphan addrs := by
  induction addrs generalizing k with
  | nil =>
    unfold orphanAll Family.orphan Kernel.family
    simp only [List.not_mem_nil, false_and, exists_false, if_false, Option.map_map]
    rfl
  | cons a rest ih =>
    rw [orphanAll, ih]
    cases ha : k.pcbAt a with
    | none =>
      -- nobody owns the block any more, and the walk goes on
      unfold Family.orphan
      have : ∀ n, (∃ b ∈ a :: rest, k.family.pcbAt b = some n) ↔
          ∃ b ∈ rest, k.family.pcbAt b = some n := by
        intro n
        have hne : k.family.pcbAt a ≠ some n := by
          show k.pcbAt a ≠ some n
          rw [ha]
          exact (Option.some_ne_none n).symm
        simp [hne]
      simp only [this]
    | some n₀ =>
      -- its owner has lost its parent, whatever the rest of the walk does
      dsimp only
      rw [family_modify (g := fun m => { m with parent := none }) fun _ => rfl]
      unfold Family.orphan Family.modify
      congr 1
      funext n
      have hat : ∀ n, k.family.pcbAt a = some n ↔ n = n₀ := by
        intro n
        show k.pcbAt a = some n ↔ _
        rw [ha, Option.some.injEq, eq_comm]
      dsimp only
      simp only [List.exists_mem_cons_iff, hat]
      rcases eq_or_ne n n₀ with rfl | hne
      · rw [Function.update_self, Option.map_map]
        congr 1
        funext m
        simp
      · rw [Function.update_of_ne hne]
        simp [hne]

omit [DecidableEq Addr] in
theorem family_releaseUser (rc : ℤ) (hc : k.proc n = some c) :
    (releaseUser k n c rc).family = k.family :=
  family_set _ hc rfl

omit [Paging] in
theorem bereave_destroyAll {f : Family Node Addr} {x : Node} {l : List Node} (h : x ∉ l) :
    (Family.destroyAll l f).bereave x = Family.destroyAll l (f.bereave x) := by
  induction l generalizing f with
  | nil => rfl
  | cons n rest ih =>
    rw [List.mem_cons, not_or] at h
    rw [Family.destroyAll, Family.destroyAll, ih h.2]
    congr 1
    unfold Family.destroy Family.bereave
    rw [Family.modify_of_ne _ (Ne.symm h.1)]
    cases hn : f.member n with
    | none => rfl
    | some m =>
      unfold Family.modify
      dsimp only
      rw [Function.update_of_ne h.1, Function.update_comm h.1]

/-- **`process_terminate`**, of a process not on its own list. -/
theorem family_processTerminate {x : Node} {kin : Kin Node Addr} (rc : ℤ)
    (hx : k.proc x = some c) (hkin : c.kin = some kin) (hnot : x ∉ kin.dChildren.take 1) :
    (processTerminate k x rc).family = k.family.terminate x kin := by
  rw [processTerminate_eq rc hx hkin, family_modify (g := fun m => { m with kin := none })
    fun _ => rfl]
  have hdefunct : ∀ k₀ : Kernel Node Addr, (destroyDefunct kin.dChildren k₀).family =
      Family.destroyAll (kin.dChildren.take 1) k₀.family := by
    intro k₀
    cases kin.dChildren with
    | nil => rfl
    | cons n rest => exact family_processDestroy
  rw [hdefunct, family_orphanAll, family_releaseUser rc hx]
  exact bereave_destroyAll hnot

omit [Paging] [DecidableEq Addr] in
theorem family_graveyard : (graveyard k).family = k.family.grave k.procs.running := by
  unfold graveyard Family.grave
  have hcurr : (k.family.member k.procs.running).bind Member.parent =
      k.curr.bind Proc.parent := by
    show ((k.proc k.procs.running).map Proc.member).bind Member.parent =
      (k.proc k.procs.running).bind Proc.parent
    cases k.proc k.procs.running <;> rfl
  rw [hcurr]
  dsimp only
  cases k.curr.bind Proc.parent with
  | none => rfl
  | some parent =>
    exact family_modify (g := fun m => { m with kin := m.kin.map fun kin =>
      { kin with dChildren := kin.dChildren ++ [k.procs.running] } }) fun _ => rfl

/-- **`KernelFork`** is a birth. -/
theorem family_forked (child : Node) (data : Addr) (pid : ℤ) (hc : k.curr = some c) :
    (forked k c child data pid).family = k.family.adopt k.procs.running child data := by
  have hproc : k.proc k.procs.running = some c := hc
  unfold Kernel.family forked Family.adopt Family.modify
  dsimp only
  congr 1
  funext n
  rcases eq_or_ne n child with rfl | h₁
  · rw [Function.update_self, Function.update_self]
    rfl
  · rw [Function.update_of_ne h₁, Function.update_of_ne h₁]
    rcases eq_or_ne n k.procs.running with rfl | h₂
    · rw [Function.update_self, Function.update_self, hproc]
      rfl
    · rw [Function.update_of_ne h₂, Function.update_of_ne h₂]

/-- **`KernelWait`** is a collection, and the freeing of those who have
nobody. -/
theorem family_collected {kin : Kin Node Addr} {child : Node} {rest : List Node}
    {childPcb : Proc Node Addr} {statusPtr : ℤ} (hc : k.curr = some c) :
    (collected k c kin child rest childPcb statusPtr).family =
      Family.destroyAll k.procs.orphans
        ((k.family.collect k.procs.running kin rest childPcb.serial).destroy child) := by
  obtain ⟨k₁, hk₁⟩ : ∃ k₁, k₁ = k.set k.procs.running { c with
      kin := some { kin with dChildren := rest }
      children := c.children.erase childPcb.serial } k.mem := ⟨_, rfl⟩
  have hfamily : k₁.family = k.family.collect k.procs.running kin rest childPcb.serial := by
    rw [hk₁, ← modify_eq_set hc k.mem fun c => { c with
      kin := some { kin with dChildren := rest }
      children := c.children.erase childPcb.serial }]
    exact family_modify fun _ => rfl
  obtain ⟨k₂, hk₂⟩ : ∃ k₂, k₂ = (if statusPtr ≠ 0 then
      storeUser k₁ c.userpt.pt statusPtr (wordBytes childPcb.code) else k₁) := ⟨_, rfl⟩
  have hfamily₂ : k₂.family = k₁.family := by
    rw [hk₂]
    split <;> rfl
  have horphans : (processDestroy k₂ child).procs.orphans = k.procs.orphans := by
    have : (processDestroy k₂ child).procs = k₂.procs := destroyAll_procs [child]
    rw [this, hk₂, hk₁]
    split <;> rfl
  have heq : collected k c kin child rest childPcb statusPtr =
      reapOrphans (processDestroy k₂ child) := by
    rw [hk₂, hk₁]
    rfl
  rw [heq, family_reapOrphans, horphans, family_processDestroy, hfamily₂, hfamily]

omit [Paging] [DecidableEq Addr] in
theorem checkWait_waiting (procs : ProcTable Node) (parent : Node) :
    (checkWait procs parent).waiting = procs.waiting.erase parent := by
  unfold checkWait unblockWaiting
  split
  · rename_i hin
    rw [if_neg (List.ne_nil_of_mem hin)]
    rfl
  · rename_i hnot
    exact (List.erase_of_not_mem hnot).symm

omit [Paging] [DecidableEq Addr] in
theorem checkWait_orphans (procs : ProcTable Node) (parent : Node) :
    (checkWait procs parent).orphans = procs.orphans := by
  unfold checkWait unblockWaiting
  split
  · split <;> rfl
  · rfl

omit [Paging] [DecidableEq Node] [DecidableEq Addr] in
@[simp] theorem runNextReady_waiting (procs : ProcTable Node) :
    (runNextReady procs).waiting = procs.waiting := by
  unfold runNextReady
  split <;> rfl

omit [Paging] [DecidableEq Node] [DecidableEq Addr] in
@[simp] theorem runNextReady_orphans (procs : ProcTable Node) :
    (runNextReady procs).orphans = procs.orphans := by
  unfold runNextReady
  split <;> rfl

omit [Paging] [DecidableEq Addr] in
/-- **What `graveyard` does to the queues**: it wakes the parent it hands
the process to, and keeps the process where it has none. -/
theorem graveyard_queues (k : Kernel Node Addr) :
    (graveyard k).procs.waiting = (match k.curr.bind Proc.parent with
      | some p => k.procs.waiting.erase p
      | none => k.procs.waiting) ∧
    (graveyard k).procs.orphans = (match k.curr.bind Proc.parent with
      | some _ => k.procs.orphans
      | none => k.procs.orphans ++ [k.procs.running]) := by
  unfold graveyard
  dsimp only
  cases k.curr.bind Proc.parent with
  | none => exact ⟨runNextReady_waiting _, runNextReady_orphans _⟩
  | some p =>
    exact ⟨(runNextReady_waiting _).trans (checkWait_waiting _ p),
      (runNextReady_orphans _).trans (checkWait_orphans _ p)⟩


omit [Paging] [DecidableEq Addr] in
theorem orphanAll_procs (addrs : List Addr) : (orphanAll addrs k).procs = k.procs := by
  induction addrs generalizing k with
  | nil => rfl
  | cons a rest ih =>
    rw [orphanAll, ih]
    split <;> rfl

theorem processTerminate_procs (rc : ℤ) : (processTerminate k n rc).procs = k.procs := by
  rcases alive_or_dead k n with ⟨c, kin, hc, hkin⟩ | hdead
  · rw [processTerminate_eq rc hc hkin]
    have hdefunct : ∀ k₀ : Kernel Node Addr,
        (destroyDefunct kin.dChildren k₀).procs = k₀.procs := by
      intro k₀
      cases kin.dChildren with
      | nil => rfl
      | cons n _ => exact destroyAll_procs [n]
    show (destroyDefunct kin.dChildren _).procs = _
    rw [hdefunct, orphanAll_procs]
    rfl
  · rw [processTerminate_of_dead rc hdead]

theorem kernelExit_eq {status : ℤ} (h : kernelExit k status = some k') :
    k' = graveyard (processTerminate (reapOrphans k) k.procs.running status) := by
  unfold kernelExit at h
  split at h
  · cases h
  · rw [← Option.some.inj h, reapOrphans_running]

end Moves

/-! ## What every run keeps -/

section Kindred

/-- **The families and the queues beside them.** -/
structure Kernel.Kindred (k : Kernel Node Addr) : Prop where
  kinship : k.family.Kinship
  /-- The orphans are there to be freed. -/
  orphans : ∀ n ∈ k.procs.orphans, (k.proc n).isSome ∧ k.family.Laid n
  waiting_nodup : k.procs.waiting.Nodup
  /-- **Whoever waits has no dead to collect.** -/
  asleep : ∀ p ∈ k.procs.waiting, (k.waits p).isSome ∧
    ∃ c kin, k.proc p = some c ∧ c.kin = some kin ∧ kin.dChildren = []
  /-- Whoever was woken has. -/
  awake : ∀ p, (k.waits p).isSome → ∃ c kin, k.proc p = some c ∧ c.kin = some kin ∧
    (p ∈ k.procs.waiting ∨ kin.dChildren ≠ [])

/-- **Waiters and children can find each other**: every child that was not
collected is at home, and nobody waits who has none. -/
structure Kernel.Homely (k : Kernel Node Addr) : Prop where
  atHome : k.family.AtHome
  hopeful : ∀ p, (k.waits p).isSome → ∀ c, k.proc p = some c → c.children ≠ []

/-- What has the same family and queues keeps the law. -/
theorem Kernel.Kindred.congr (h : k.Kindred) (hfamily : k'.family = k.family)
    (horphans : k'.procs.orphans = k.procs.orphans)
    (hwaiting : k'.procs.waiting = k.procs.waiting) (hwaits : k'.waits = k.waits) :
    k'.Kindred := by
  -- a process with its links is found by its member
  have hforth : ∀ {p c kin}, k.proc p = some c → c.kin = some kin →
      ∃ c', k'.proc p = some c' ∧ c'.kin = some kin := by
    intro p c kin hc hkin
    obtain ⟨c', hc', hm⟩ := exists_of_member (hfamily ▸ member_eq hc)
    exact ⟨c', hc', by rw [← hkin]; exact congrArg Member.kin hm⟩
  constructor
  · rw [hfamily]
    exact h.kinship
  · intro n hn
    rw [horphans] at hn
    obtain ⟨hsome, hlaid⟩ := h.orphans n hn
    obtain ⟨c, hc⟩ := Option.isSome_iff_exists.mp hsome
    obtain ⟨c', hc', -⟩ := exists_of_member (hfamily ▸ member_eq hc)
    exact ⟨by rw [hc']; rfl, hfamily ▸ hlaid⟩
  · rw [hwaiting]
    exact h.waiting_nodup
  · intro p hp
    rw [hwaiting] at hp
    obtain ⟨hw, c, kin, hc, hkin, hd⟩ := h.asleep p hp
    obtain ⟨c', hc', hkin'⟩ := hforth hc hkin
    exact ⟨hwaits ▸ hw, c', kin, hc', hkin', hd⟩
  · intro p hp
    rw [hwaits] at hp
    obtain ⟨c, kin, hc, hkin, hd⟩ := h.awake p hp
    obtain ⟨c', hc', hkin'⟩ := hforth hc hkin
    exact ⟨c', kin, hc', hkin', hwaiting ▸ hd⟩

theorem Kernel.Homely.congr (h : k.Homely) (hfamily : k'.family = k.family)
    (hwaits : k'.waits = k.waits) : k'.Homely := by
  constructor
  · rw [hfamily]
    exact h.atHome
  · intro p hp c' hc'
    rw [hwaits] at hp
    obtain ⟨c, hc, hm⟩ := exists_of_member (hfamily ▸ member_eq hc')
    have := h.hopeful p hp c hc
    rwa [show c'.children = c.children from (congrArg Member.children hm).symm]

end Kindred

end Yalnix
