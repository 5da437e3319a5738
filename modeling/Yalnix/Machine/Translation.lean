import Yalnix.Machine.Spaces
import Yalnix.Machine.Switching
import Yalnix.Process.Translation
/-!
# No stale translation

The machine with its page tables behind the hardware's cache. The cache
keeps and drops translations when it likes, between any two operations of
the kernel. At every access the kernel makes, on its own stack, through the
scratch page or to the memory of a process, and whenever a process runs,
what the hardware goes by is what the tables say, and the tables are those
of the process that is running (`translations_current`).
-/

namespace Yalnix

open Paging

variable {Node Addr : Type} [Paging] [DecidableEq Node] [DecidableEq Addr]

section Acts

variable {k k' : Kernel Node Addr} {c c' : Proc Node Addr} {kin : Kin Node Addr}
  {act : ProcAct Node Addr} {T : Vpage → Option (ℤ × ℕ)} {r : Option ℤ}

/-- Waiting, and a store of its own, leave a process its tables. -/
theorem Effect.unloaded (hc : k.curr = some c) (hkin : c.kin = some kin)
    (heff : Effect k c kin act k') (hc' : k'.proc k.procs.running = some c')
    (hact : (∃ statusPtr, act = .wait statusPtr) ∨ (∃ addr byte, act = .store addr byte) ∨
      act = .resume) : c'.userpt = c.userpt ∧ c'.kstack = c.kstack := by
  have hsame : k.proc k.procs.running = some c' → c'.userpt = c.userpt ∧ c'.kstack = c.kstack := by
    intro hproc
    obtain rfl := Option.some.inj (hc.symm.trans hproc)
    exact ⟨rfl, rfl⟩
  cases heff with
  | waitRefused => exact hsame hc'
  | asleep => exact hsame hc'
  | stored => exact hsame hc'
  | collected act statusPtr child rest childPcb hin hd hchild =>
    obtain ⟨c₀, hc₀, hkept⟩ := (leaves_collected (S := ∅) hc hkin).keeps k.procs.running
      (Set.notMem_empty _) c' hc'
    obtain rfl := Option.some.inj (hc.symm.trans hc₀)
    exact ⟨hkept.userpt, hkept.kstack⟩
  | _ => rcases hact with ⟨_, heq⟩ | ⟨_, _, heq⟩ | heq <;> cases heq

/-- **An action that returns** has flushed what it changed, and the table in
use is the one its process has then. -/
theorem act_views (hc : k.curr = some c) (hkin : c.kin = some kin)
    (h : k.act k.procs.running c act = some k')
    (hend : k.ending k.procs.running act = some (.returns r))
    (hc' : k'.proc k.procs.running = some c') (hT : Views c.userpt.pt c.kstack T) :
    Tlb.Tidy tlbFlushKstack ∅ (k.actOps c act) ∅ ∧
      Views c'.userpt.pt c'.kstack (Tlb.tableAfter T (k.actOps c act)) := by
  have hidle : ((∃ statusPtr, act = .wait statusPtr) ∨ (∃ addr byte, act = .store addr byte) ∨
      act = .resume) → Tlb.Tidy tlbFlushKstack ∅ ([] : List TlbOp) ∅ ∧
        Views c'.userpt.pt c'.kstack T := by
    intro hact
    obtain ⟨huserpt, hkstack⟩ := (act_effect hc hkin h).1.unloaded hc hkin hc' hact
    rw [huserpt, hkstack]
    exact ⟨Tlb.Tidy.nil subset_rfl, hT⟩
  unfold Kernel.act at h
  unfold Kernel.ending at hend
  cases act with
  | fork child data pid =>
    obtain ⟨res, hr, rfl⟩ := Option.map_eq_some_iff.mp (act_awake h).1
    exact ⟨tidy_kernelForkOps.mono kstack_subset subset_rfl subset_rfl,
      kernelFork_views hc hr hc' hT⟩
  | exec filename argvec env =>
    obtain ⟨res, hr, rfl⟩ := Option.map_eq_some_iff.mp (act_awake h).1
    refine (kernelExec_views hc hr hc' hT).resolve_left fun hdead => ?_
    dsimp only at hend
    rw [hr, Option.map_some, if_pos (by rw [hdead]; exact Bool.false_ne_true)] at hend
    cases hend
  | exit status =>
    obtain ⟨res, hr, heq⟩ := Option.map_eq_some_iff.mp hend
    cases heq
  | brk addr =>
    obtain ⟨res, hr, rfl⟩ := Option.map_eq_some_iff.mp (act_awake h).1
    exact ⟨tidy_kernelUserBrkOps, kernelUserBrk_views hc hr hc' hT⟩
  | fault addr =>
    have hr := (act_awake h).1
    refine (trapMemory_views hc hr hc' hT).resolve_left fun hdead => ?_
    dsimp only at hend
    rw [hr, Option.map_some, if_neg (by rw [hdead]; exact Bool.false_ne_true)] at hend
    cases hend
  | wait statusPtr => exact hidle (Or.inl ⟨statusPtr, rfl⟩)
  | store addr byte => exact hidle (Or.inr (Or.inl ⟨addr, byte, rfl⟩))
  | resume => exact hidle (Or.inr (Or.inr rfl))

end Acts

namespace Machine

variable [Devices] {m m₀ t : Machine Node Addr} {e : Event Node Addr} {b : Boot Node Addr}
  {T : Vpage → Option (ℤ × ℕ)} {r : Option ℤ}

omit [Devices] in
/-- What an event does to the translations before it returns or switches. -/
def bodyOps (m : Machine Node Addr) (e : Event Node Addr) : List TlbOp :=
  match m.kernel.curr, e with
  | some c, .call (.proc act) => (m.kernel.onStack c).actOps c act
  | _, _ => []

/-- `KCSwitch`, where the event ends in `run_next`. -/
def switchOps (m : Machine Node Addr) (e : Event Node Addr) : List TlbOp :=
  match m.ending e, (m.step e).bind fun t => t.kernel.curr with
  | some .runNext, some c => kcSwitchOps c.userpt.pt c.kstack
  | _, _ => []

/-- **What an event does to the translations.** The handler reads what it
was called with, and runs on the kernel stack until it is on the stack
`KernelContextSwitch` provides. -/
def mmuOps (m : Machine Node Addr) (e : Event Node Addr) : List TlbOp :=
  .use Set.univ :: ((m.bodyOps e).flatMap (fun op => [op, .use tlbFlushKstack]) ++ m.switchOps e)

omit [Devices] [DecidableEq Node] [DecidableEq Addr] in
/-- The table in use is that of the process that is running. -/
def Translates (m : Machine Node Addr) (T : Vpage → Option (ℤ × ℕ)) : Prop :=
  ∃ c, m.kernel.curr = some c ∧ Views c.userpt.pt c.kstack T

omit [Devices] in
theorem tidy_bodyOps : Tlb.Tidy tlbFlushKstack ∅ (m.bodyOps e) tlbFlush1 := by
  unfold bodyOps
  split
  · exact tidy_actOps _
  · exact Tlb.Tidy.nil (Set.empty_subset _)

omit [Paging] [DecidableEq Node] [DecidableEq Addr] [Devices] in
theorem curr_of_alive {k : Kernel Node Addr} (h : k.alive k.procs.running = true) :
    ∃ c, k.curr = some c := by
  obtain ⟨c, -, hc, -⟩ := alive_iff.mp h
  exact ⟨c, hc⟩

/-- **An event that returns** has flushed what it changed, and the process
goes on with the table it has. -/
theorem step_views (hs : m.Sound) (he : e.InRange) (h : m.step e = some t)
    (hend : m.ending e = some (.returns r)) (hT : m.Translates T) :
    Tlb.Tidy tlbFlushKstack ∅ (m.bodyOps e) ∅ ∧
      t.Translates (Tlb.tableAfter T (m.bodyOps e)) := by
  obtain ⟨c, hc, hviews⟩ := hT
  obtain ⟨c', hc'⟩ := curr_of_alive (step_owes hs he h).1.running_alive
  have hrunning := step_running hs h hend
  have hproc : t.kernel.proc m.kernel.procs.running = some c' := hrunning ▸ hc'
  by_cases hact : ∃ act, e = .call (.proc act)
  · obtain ⟨act, rfl⟩ := hact
    obtain ⟨c₀, hc₀, hrun, -, hcall⟩ := step_call h
    obtain rfl := Option.some.inj (hc.symm.trans hc₀)
    obtain ⟨c₁, kin, hc₁, hkin⟩ := hs.running_lives hrun
    obtain rfl := Option.some.inj (hc.symm.trans hc₁)
    obtain ⟨k', hk', rfl⟩ := Option.map_eq_some_iff.mp hcall
    unfold Machine.ending at hend
    dsimp only at hend
    rw [hc, Option.bind_some] at hend
    obtain ⟨htidy, htable⟩ :=
      act_views (k := m.kernel.onStack c) hc hkin hk' hend hproc hviews
    unfold bodyOps
    rw [hc]
    exact ⟨htidy, c', hc', htable⟩
  -- nothing but a call of a process stores to its tables
  · have hnone : m.bodyOps e = [] := by
      unfold bodyOps
      split
      · exact absurd ⟨_, rfl⟩ hact
      · rfl
    rw [hnone]
    refine ⟨Tlb.Tidy.nil subset_rfl, c', hc', ?_⟩
    obtain ⟨huserpt, hkstack⟩ : c'.userpt = c.userpt ∧ c'.kstack = c.kstack := by
      rcases step_kernel hs h with ⟨c₀, kin, act, k', hc₀, hkin, he', heff, -, rfl⟩ | hquiet
      · obtain rfl := Option.some.inj (hc.symm.trans hc₀)
        rcases he' with rfl | ⟨-, rfl⟩
        · exact absurd ⟨act, rfl⟩ hact
        · exact heff.unloaded (k := m.kernel.onStack c) hc hkin hproc (Or.inr (Or.inr rfl))
      · obtain ⟨c₀, hc₀, -, huserpt, hkstack, -⟩ := body_forth hquiet.body hproc
        obtain rfl := Option.some.inj (hc.symm.trans hc₀)
        exact ⟨huserpt.symm, hkstack.symm⟩
    rw [huserpt, hkstack]
    exact hviews

/-- **Every event keeps the translations**, whether it returns or switches. -/
theorem step_kept :
    Tlb.Kept (step : Machine Node Addr → Event Node Addr → Option (Machine Node Addr)) mmuOps
      Sound Event.InRange Translates := by
  have hkstack : Disjoint tlbFlushKstack (∅ : Set Vpage) := Set.disjoint_empty _
  refine ⟨fun m e t hs he h => (step_owes hs he h).1, fun m e t hs he h => ?_,
    fun m e t hs he h T hT => ?_⟩
  all_goals
    obtain ⟨c', hc'⟩ := curr_of_alive (step_owes hs he h).1.running_alive
    obtain ⟨end', hend⟩ := step_ending h
    unfold mmuOps switchOps
    rw [hend, h, Option.bind_some, hc']
  · refine ⟨Set.disjoint_empty _, ?_⟩
    cases end' with
    | returns r =>
      obtain ⟨c, hc⟩ := curr_of_alive hs.running_alive
      obtain ⟨htidy, -⟩ := step_views hs he h hend ⟨c, hc, views_kcSwitchOps fun _ => none⟩
      exact (htidy.busy hkstack).append subset_rfl
    | runNext => exact (tidy_bodyOps.busy hkstack).append leaves_kcSwitchOps
  · show t.Translates (Tlb.tableAfter T (_ ++ _))
    rw [Tlb.tableAfter_append, Tlb.tableAfter_busy]
    cases end' with
    | returns r => exact (step_views hs he h hend hT).2
    | runNext => exact ⟨c', hc', views_kcSwitchOps _⟩

/-! ## Boot -/

/-- What `VM_setup` leaves in use: the kernel's table, and an empty region 1. -/
def vmTable (b : Boot Node Addr) : Vpage → Option (ℤ × ℕ)
  | .user i => (newUserPt.pt i).entry
  | .kstack i => ((bootMem b).kernelStack i).entry
  | .scratch => (bootMem b).scratch.entry

/-- What `init_load` and `idle_setup` do to the translations. -/
def startOps (b : Boot Node Addr) : List TlbOp :=
  let l := (loadProgram (bootMem b) newUserPt b.uc b.cmdArgs b.env).1
  let free := (mapPage (protRead ||| protWrite) l.mem.frames newUserPt.pt
    (limPage1 - 1 - basePage1)).1
  [.point tlbFlush1 (userEntry newUserPt.pt)] ++
    (loadProgramOps (bootMem b).frames newUserPt b.cmdArgs b.env ++
      kcCopyOps { l.mem with frames := free })

/-- The machine `KernelStart` leaves, with all of that still to do and
nothing in the cache. -/
def translating (b : Boot Node Addr) (m : Machine Node Addr) :
    Tlb.State (Machine Node Addr) Vpage (ℤ × ℕ) where
  machine := m
  mmu := ⟨vmTable b, fun _ => none⟩
  pending := startOps b

theorem translating_checked (hb : start b = some m) :
    Tlb.Checked Sound Translates (translating b m) := by
  have hsound := (start_sound hb).1
  have hwrong : (translating b m).mmu.Wrong ∅ := by
    intro p _ e he
    cases he
  obtain ⟨k, hk, rfl⟩ := Option.map_eq_some_iff.mp hb
  have hrun := congrArg ProcTable.running (kernelStart_procs hk)
  obtain ⟨hne, -⟩ := kernelStart_family hk
  unfold kernelStart at hk
  split at hk
  · cases hk
  obtain ⟨k₁, hk₁, rfl⟩ := Option.map_eq_some_iff.mp hk
  obtain ⟨l, hl, hcode, -, -, hproc⟩ := initLoad_eq hk₁
  obtain ⟨htidy, -⟩ := tidy_loadProgramOps (bootMem b) newUserPt b.uc b.cmdArgs b.env
  rw [hl, hcode, if_pos rfl] at htidy
  refine ⟨hsound, ⟨∅, hwrong, ?_⟩, ?_⟩
  · have hpoint : Tlb.Leaves ∅
        [(.point tlbFlush1 (userEntry newUserPt.pt) : TlbOp)] tlbFlush1 :=
      Tlb.Leaves.point.mono subset_rfl (Set.empty_union _).subset
    exact hpoint.append (htidy.leaves.append (tidy_kcCopyOps _).leaves)
  · rw [idleSetup_eq] at hrun ⊢
    dsimp only at hrun
    refine ⟨{ (processInit b.initData b.initPid 0 : Proc Node Addr) with
      kstack := (bootMem b).kernelStack
      userpt := l.1.userpt
      uc := l.1.uc }, ?_, ?_⟩
    · show (Function.update k₁.proc b.idleNode _) k₁.procs.running = _
      rw [hrun, Function.update_of_ne hne.symm, hproc, Function.update_self]
    · have hstart : Views newUserPt.pt (bootMem b).kernelStack
          ((Tlb.Op.point tlbFlush1 (userEntry newUserPt.pt) : TlbOp).table (vmTable b)) := by
        refine ⟨fun i => if_pos ⟨i, rfl⟩, fun i _ _ => if_neg ?_⟩
        rintro ⟨j, hj⟩
        cases hj
      have hloaded := hstart.loadProgramOps (bootMem b) b.uc b.cmdArgs b.env
      rw [hl] at hloaded
      show Views l.1.userpt.pt (bootMem b).kernelStack (Tlb.tableAfter _ (_ ++ (_ ++ _)))
      rw [Tlb.tableAfter_append, Tlb.tableAfter_append]
      exact hloaded.scratch (tidy_kcCopyOps _)

/-- Boot gets to its end. -/
theorem exec_startOps (b : Boot Node Addr) (m : Machine Node Addr) :
    ∃ mmu, Run.exec (Tlb.State.step step mmuOps) (translating b m)
      ((startOps b).map fun _ => .go) = some ⟨m, mmu, []⟩ :=
  Tlb.State.exec_go step mmuOps (translating b m)

/-- **No stale translation.** In every run, whatever the hardware keeps in
its cache and whenever it drops it, each access of the kernel goes by what
the tables say; and between events every access does, and the tables are
those of the process that is running. -/
theorem translations_current {es : List (Tlb.Move (Event Node Addr) Vpage)}
    (hb : start b = some m₀) (hes : ∀ e ∈ es, e.InDomain Event.InRange) :
    Run.Throughout (Tlb.State.step step mmuOps) (Tlb.Current Translates) (translating b m₀) es :=
  step_kept.throughout (translating_checked hb) hes

omit [Paging] [Devices] [DecidableEq Node] [DecidableEq Addr] in
/-- Init grows its heap by a page, which the hardware looks up, and shrinks
it again: the translation in the cache is stale until the flush. -/
theorem translations_current_brk :
    let _ := yalnixPaging
    let _ := yalnixDevices
    let up : Event ℕ ℕ := .call (.proc (.brk 0x104000))
    let down : Event ℕ ℕ := .call (.proc (.brk 0x102000))
    let boot : List (Tlb.Move (Event ℕ ℕ) Vpage) := (startOps (smallBoot 140)).map fun _ => .go
    let es : List (Tlb.Move (Event ℕ ℕ) Vpage) := boot ++ (.event up :: List.replicate 5 .go)
    ∃ m₀ s t, start (smallBoot 140) = some m₀ ∧
      Run.exec (Tlb.State.step step mmuOps) (translating (smallBoot 140) m₀)
        (es ++ [.fill (.user 1), .event down, .go, .go]) = some s ∧
      s.mmu.cache (.user 1) = some (9, protRead ||| protWrite) ∧ s.mmu.table (.user 1) = none ∧
      Run.exec (Tlb.State.step step mmuOps) s (List.replicate 3 .go) = some t ∧
      t.pending = [] ∧ t.mmu.translate (.user 1) = none ∧
      Run.Throughout (Tlb.State.step step mmuOps) (Tlb.Current Translates)
        (translating (smallBoot 140) m₀)
        (es ++ [.fill (.user 1), .event down, .go, .go] ++ List.replicate 3 .go) := by
  let _ := yalnixPaging
  let _ := yalnixDevices
  intro _ _ up down boot es
  have hruns : ((start (smallBoot 140)).bind fun m₀ => (m₀.step up).bind fun m₁ =>
      (m₁.step down).bind fun m₂ => m₁.kernel.curr.bind fun c₁ => m₂.kernel.curr.map fun c₂ =>
        ([(mmuOps m₀ up).length, (mmuOps m₁ down).length],
          (m₁.bodyOps down).head?.bind Tlb.Op.unmaps,
          [(c₁.userpt.pt 1).entry, (c₂.userpt.pt 1).entry])) =
      some ([5, 5], some (.user 1), [some (9, protRead ||| protWrite), none]) := by
    decide +kernel
  obtain ⟨m₀, hm₀, hruns⟩ := Option.bind_eq_some_iff.mp hruns
  obtain ⟨m₁, hup, hruns⟩ := Option.bind_eq_some_iff.mp hruns
  obtain ⟨m₂, hdown, hruns⟩ := Option.bind_eq_some_iff.mp hruns
  obtain ⟨c₁, hc₁, hruns⟩ := Option.bind_eq_some_iff.mp hruns
  obtain ⟨c₂, hc₂, heq⟩ := Option.map_eq_some_iff.mp hruns
  simp only [Prod.mk.injEq, List.cons.injEq, and_true] at heq
  obtain ⟨⟨hlen₁, hlen₂⟩, hset, hentry₁, hentry₂⟩ := heq
  have hdomain : ∀ e ∈ es ++ [.fill (.user 1), .event down, .go, .go] ++ List.replicate 3 .go,
      e.InDomain Event.InRange := by
    intro e he
    simp only [es, boot, List.mem_append, List.mem_map, List.mem_cons, List.mem_replicate,
      List.not_mem_nil, or_false] at he
    obtain ((⟨op, -, rfl⟩ | rfl | ⟨-, rfl⟩) | rfl | rfl | rfl | rfl) | ⟨-, rfl⟩ := he <;> trivial
  have hall := translations_current hm₀ hdomain
  -- the heap has grown, and nothing is cached
  obtain ⟨mmu₀, hboot⟩ := exec_startOps (smallBoot 140) m₀
  obtain ⟨mmu₁, hgo₁⟩ := Tlb.State.exec_go step mmuOps ⟨m₁, mmu₀, mmuOps m₀ up⟩
  rw [List.map_const', hlen₁] at hgo₁
  have hgrown : Run.exec (Tlb.State.step step mmuOps) (translating (smallBoot 140) m₀) es =
      some ⟨m₁, mmu₁, []⟩ := by
    refine Run.exec_append.mpr ⟨_, hboot, Run.exec_cons.mpr ⟨_, ?_, hgo₁⟩⟩
    unfold Tlb.State.step
    dsimp only [translating]
    rw [hup]
    rfl
  obtain ⟨hsame₁, c, hc, hviews₁⟩ := ((translations_current hm₀ fun e he => hdomain e
    (List.mem_append_left _ (List.mem_append_left _ he))).final hgrown).between rfl
  obtain rfl := Option.some.inj (hc₁.symm.trans hc)
  have hlooked : mmu₁.translate (.user 1) = some (9, protRead ||| protWrite) :=
    (hsame₁ _).trans ((hviews₁.user 1).trans hentry₁)
  -- the store to the entry comes before the flush
  obtain ⟨op, hop, hset⟩ := Option.bind_eq_some_iff.mp hset
  obtain ⟨rest, hbody⟩ := List.head?_eq_some_iff.mp hop
  obtain rfl := Tlb.Op.unmaps_eq_some hset
  obtain ⟨pending, hops⟩ : ∃ pending, mmuOps m₁ down =
      .use Set.univ :: .set (.user 1) none :: pending := by
    unfold mmuOps
    rw [hbody]
    exact ⟨_, rfl⟩
  rw [hops, List.length_cons, List.length_cons] at hlen₂
  have hlen : pending.length = 3 := by omega
  let s : Tlb.State (Machine ℕ ℕ) Vpage (ℤ × ℕ) :=
    ⟨m₂, ((mmu₁.fill (.user 1)).apply (.use Set.univ)).apply (.set (.user 1) none), pending⟩
  have hstale : Run.exec (Tlb.State.step step mmuOps) (translating (smallBoot 140) m₀)
      (es ++ [.fill (.user 1), .event down, .go, .go]) = some s := by
    refine Run.exec_append.mpr ⟨_, hgrown, Run.exec_cons.mpr ⟨_, rfl, Run.exec_cons.mpr
      ⟨⟨m₂, mmu₁.fill (.user 1), mmuOps m₁ down⟩, ?_, ?_⟩⟩⟩
    · unfold Tlb.State.step
      dsimp only
      rw [hdown]
      rfl
    · rw [hops]
      rfl
  obtain ⟨mmu₂, hgo₂⟩ := Tlb.State.exec_go step mmuOps s
  rw [List.map_const', show s.pending.length = 3 from hlen] at hgo₂
  obtain ⟨hsame₂, c', hc', hviews₂⟩ :=
    (hall.final (Run.exec_append.mpr ⟨s, hstale, hgo₂⟩)).between rfl
  obtain rfl := Option.some.inj (hc₂.symm.trans hc')
  refine ⟨m₀, s, _, hm₀, hstale, ?_, ?_, hgo₂, rfl, ?_, hall⟩
  · exact (mmu₁.fill_cache_self (.user 1)).trans hlooked
  · exact Tlb.Op.table_set_self _ _ _
  · exact (hsame₂ _).trans ((hviews₂.user 1).trans hentry₂)

end Machine

end Yalnix
