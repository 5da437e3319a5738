import Yalnix.LinkedList.Refine
import Yalnix.Memory.Image
import Yalnix.Process.Destroyed
import Yalnix.Process.Frames
/-!
# The walk over the dead children

`process_terminate` goes over `d_children` with `curr = curr->next`, and
destroys `curr` in the body. What it goes on from is a node it has freed,
and `destroy_node` has set its links to NULL, so that the walk ends after
the first. The walk is run here over the nodes themselves, with what is
freed and which freed node is read.
-/

namespace Yalnix

variable {Node Addr : Type} [DecidableEq Node]

/-- The nodes in memory. -/
structure NodeMem (Node : Type) where
  heap : Heap Node
  /-- The nodes given to `free`. -/
  freed : List Node
  /-- History: the nodes that were read after that. -/
  stale : List Node

namespace NodeMem

/-- `destroy_node`. -/
def destroyNode (s : NodeMem Node) (node : Node) : NodeMem Node where
  heap := (LinkedList.unlink s.heap node).setCode node (-1)
  freed := s.freed ++ [node]
  stale := s.stale

/-- The node is read. -/
def touch (s : NodeMem Node) (node : Node) : NodeMem Node :=
  { s with stale := if node ∈ s.freed then s.stale ++ [node] else s.stale }

end NodeMem

section Walk

variable [Paging] [DecidableEq Addr]

/-- The loop of `process_terminate` over `d_children` from `curr` on, at most
`fuel` times round. -/
def defunctLoop : ℕ → Option Node → Kernel Node Addr → NodeMem Node →
    Option (Kernel Node Addr × NodeMem Node)
  | 0, _, _, _ => none
  | _ + 1, none, k, s => some (k, s)
  | fuel + 1, some curr, k, s =>
    let s := (s.destroyNode curr).touch curr
    defunctLoop fuel (s.heap curr).next (processDestroy k curr) s

/-- `process_terminate`, with the list `d_children` as memory has it. A list
has no more nodes than its size, so that the fuel suffices
(`terminateNodes_eq`). -/
def terminateNodes (k : Kernel Node Addr) (proc : Node) (rc : ℤ) (dChildren : LinkedList Node)
    (s : NodeMem Node) : Option (Kernel Node Addr × NodeMem Node) :=
  match k.proc proc with
  | none => none
  | some p =>
    match p.kin with
    | none => none
    | some kin =>
      (defunctLoop (dChildren.size.toNat + 1) dChildren.head
        (orphanAll kin.aChildren (releaseUser k proc p rc)) s).map fun (k, s) =>
          (k.modify proc fun p => { p with kin := none }, s)

variable {k k' : Kernel Node Addr} {proc n : Node} {p : Proc Node Addr} {kin : Kin Node Addr}
  {s s' : NodeMem Node} {l : LinkedList Node} {ds : List Node}

/-- **What the walk does to the nodes**: it frees the first, and reads it. -/
def NodeMem.walked (s : NodeMem Node) : List Node → NodeMem Node
  | [] => s
  | curr :: _ => (s.destroyNode curr).touch curr

/-- **The walk ends after the first child.** -/
theorem defunctLoop_eq (hl : IsList s.heap l ds) (k : Kernel Node Addr) :
    defunctLoop (l.size.toNat + 1) l.head k s = some (destroyDefunct ds k, s.walked ds) := by
  rw [hl.head, hl.size, Int.toNat_natCast]
  cases ds with
  | nil => rfl
  | cons curr rest =>
    -- the link the walk goes on from is the one `destroy_node` has cleared
    have hnext : ((((s.destroyNode curr).touch curr).heap) curr).next = none := by
      simp [NodeMem.touch, NodeMem.destroyNode, Heap.setCode]
    rw [List.head?_cons, List.length_cons, defunctLoop, hnext]
    rfl

theorem terminateNodes_eq (rc : ℤ) (hp : k.proc proc = some p) (hkin : p.kin = some kin)
    (hl : IsList s.heap l kin.dChildren) :
    terminateNodes k proc rc l s = some (processTerminate k proc rc, s.walked kin.dChildren) := by
  unfold terminateNodes
  rw [hp]
  dsimp only
  rw [hkin]
  dsimp only
  rw [defunctLoop_eq hl, processTerminate_eq rc hp hkin]
  rfl

omit [Paging] [DecidableEq Addr] in
theorem walked_stale : (s.walked ds).stale = s.stale ++ ds.head?.toList := by
  cases ds with
  | nil => exact (List.append_nil _).symm
  | cons curr rest =>
    have hin : curr ∈ (s.destroyNode curr).freed := List.mem_append_right _ List.mem_cons_self
    exact if_pos hin

/-! ## What is to be freed -/

/-- The pages of a process's kernel stack. -/
def Kernel.kstackCount (k : Kernel Node Addr) (n : Node) : ℕ :=
  (k.proc n).elim 0 fun c => validCount c.kstack (pages 0 numKstackPages)

/-- **What an exit owes its dead children**: each is destroyed and its kernel
stack given back, with the user pages of who exits and no others; and no
node is read that has been freed. -/
structure FreesDefunct (k k' : Kernel Node Addr) (p : Proc Node Addr) (ds : List Node)
    (s s' : NodeMem Node) : Prop where
  destroyed : ∀ n ∈ ds, k'.proc n = none
  vacated : ∀ n ∈ ds, ∀ c, k.proc n = some c → ∀ i ∈ pages 0 numKstackPages,
    (c.kstack i).valid = true → k'.mem.frames.isUsed (c.kstack i).pfn = false
  frames : framesLeft k'.mem.frames =
    framesLeft k.mem.frames + p.userpt.count + (ds.map k.kstackCount).sum
  fresh : s'.stale = s.stale

omit [DecidableEq Addr] in
/-- The frames of who exits. -/
theorem framesLeft_releaseUser (rc : ℤ) :
    framesLeft (releaseUser k proc p rc).mem.frames = framesLeft k.mem.frames + p.userpt.count :=
  framesLeft_unmapValid nodup_pages

/-- **A childless exit** gives back its own pages. -/
theorem framesLeft_processTerminate (rc : ℤ) (hp : k.proc proc = some p) (hkin : p.kin = some kin)
    (hnil : kin.dChildren = []) : framesLeft (processTerminate k proc rc).mem.frames =
      framesLeft k.mem.frames + p.userpt.count := by
  rw [processTerminate_eq rc hp hkin, hnil]
  have hmem : ((destroyDefunct [] (orphanAll kin.aChildren (releaseUser k proc p rc))).modify proc
      fun p => { p with kin := none }).mem = (releaseUser k proc p rc).mem :=
    orphanAll_mem kin.aChildren
  rw [hmem, framesLeft_releaseUser]

theorem processDestroy_self : (processDestroy k n).proc n = none := by
  unfold processDestroy
  cases hn : k.proc n with
  | none => exact hn
  | some c => exact Function.update_self _ _ _

theorem processDestroy_of_ne {n' : Node} (hne : n' ≠ n) :
    (processDestroy k n).proc n' = k.proc n' := by
  unfold processDestroy
  cases k.proc n with
  | none => rfl
  | some c => exact Function.update_of_ne hne _ _

/-- **A child past the first** is as dead after the exit as before. -/
theorem isSome_processTerminate (rc : ℤ) (hp : k.proc proc = some p) (hkin : p.kin = some kin)
    (hne : n ≠ proc) (hhead : kin.dChildren.head? ≠ some n) :
    ((processTerminate k proc rc).proc n).isSome = (k.proc n).isSome := by
  rw [processTerminate_eq rc hp hkin, isSome_modify]
  have hwalk : ((orphanAll kin.aChildren (releaseUser k proc p rc)).proc n).isSome =
      (k.proc n).isSome := by
    rw [isSome_orphanAll]
    exact congrArg Option.isSome (Function.update_of_ne hne _ _)
  cases hds : kin.dChildren with
  | nil => exact hwalk
  | cons curr rest =>
    rw [hds, List.head?_cons] at hhead
    have hcurr : n ≠ curr := fun heq => hhead (congrArg some heq.symm)
    rw [← hwalk, destroyDefunct, processDestroy_of_ne hcurr]

/-- **The first is gone.** -/
theorem processTerminate_head (rc : ℤ) (hp : k.proc proc = some p) (hkin : p.kin = some kin)
    (hne : n ≠ proc) (hhead : kin.dChildren.head? = some n) :
    (processTerminate k proc rc).proc n = none := by
  rw [processTerminate_eq rc hp hkin, modify_of_ne hne]
  cases hds : kin.dChildren with
  | nil =>
    rw [hds] at hhead
    cases hhead
  | cons curr rest =>
    rw [hds, List.head?_cons] at hhead
    obtain rfl := Option.some.inj hhead
    exact processDestroy_self

/-- **An exit frees its dead children** exactly where it has none. Where all
of them are in memory, it destroys them all exactly where it has at most
one. -/
theorem freesDefunct_iff (rc : ℤ) (hp : k.proc proc = some p) (hkin : p.kin = some kin)
    (hl : IsList s.heap l kin.dChildren) :
    ((∃ k' s', terminateNodes k proc rc l s = some (k', s') ∧
      FreesDefunct k k' p kin.dChildren s s') ↔ kin.dChildren = []) ∧
    ((∀ n ∈ kin.dChildren, n ≠ proc ∧ (k.proc n).isSome) →
      ((∀ n ∈ kin.dChildren, (processTerminate k proc rc).proc n = none) ↔
        kin.dChildren.length ≤ 1)) := by
  rw [terminateNodes_eq rc hp hkin hl]
  constructor
  · constructor
    · rintro ⟨k', s', heq, hfrees⟩
      obtain ⟨rfl, rfl⟩ := Prod.mk.inj (Option.some.inj heq)
      have hfresh := hfrees.fresh
      rw [walked_stale] at hfresh
      cases hds : kin.dChildren with
      | nil => rfl
      | cons curr rest => simp [hds] at hfresh
    · intro hnil
      refine ⟨_, _, rfl, ?_⟩
      rw [hnil]
      refine ⟨by simp, by simp, ?_, rfl⟩
      rw [framesLeft_processTerminate rc hp hkin hnil]
      simp
  · intro hin
    constructor
    · intro hall
      by_contra hlen
      obtain ⟨d, d', rest, hds⟩ : ∃ d d' rest, kin.dChildren = d :: d' :: rest := by
        match hds : kin.dChildren with
        | [] => simp [hds] at hlen
        | [d] => simp [hds] at hlen
        | d :: d' :: rest => exact ⟨d, d', rest, rfl⟩
      -- the second child is still there
      have hmem : d' ∈ kin.dChildren := by simp [hds]
      have hnd := hl.nodup
      rw [hds, List.nodup_cons] at hnd
      have hhead : kin.dChildren.head? ≠ some d' := by
        rw [hds, List.head?_cons]
        intro heq
        exact hnd.1 (Option.some.inj heq ▸ List.mem_cons_self)
      have hsome := isSome_processTerminate rc hp hkin (hin d' hmem).1 hhead
      rw [hall d' hmem, (hin d' hmem).2] at hsome
      cases hsome
    · intro hlen n hn
      refine processTerminate_head rc hp hkin (hin n hn).1 ?_
      match hds : kin.dChildren with
      | [] => simp [hds] at hn
      | [d] =>
        rw [hds, List.mem_singleton] at hn
        rw [hn]
        rfl
      | d :: d' :: rest => simp [hds] at hlen

end Walk

/-! ## None, one and two dead children -/

/-- Nodes that are on no list, or alone on one. -/
def aloneMem : NodeMem ℕ where
  heap := fun _ => ⟨0, none, none⟩
  freed := []
  stale := []

/-- Of two children of init's child one is dead: it is freed by the exit of
its parent, and all is in order where the other, which has none, exits. -/
theorem freesDefunct_iff_alone :
    let _ := yalnixPaging
    ∃ (k₀ k : Kernel ℕ ℕ) (p q : Proc ℕ ℕ) (kin kin' : Kin ℕ ℕ),
      kernelStart (smallBoot 140) = some k₀ ∧
      Run.exec Kernel.step k₀ [(0, .fork 3 3 3), (3, .fork 4 4 4), (3, .fork 5 5 5), (4, .exit 0)] =
        some k ∧
      k.proc 3 = some p ∧ p.kin = some kin ∧ kin.dChildren = [4] ∧
      (¬ ∃ k' s', terminateNodes k 3 0 ⟨1, some 4, some 4⟩ aloneMem = some (k', s') ∧
        FreesDefunct k k' p kin.dChildren aloneMem s') ∧
      (processTerminate k 3 0).proc 4 = none ∧
      k.proc 5 = some q ∧ q.kin = some kin' ∧
      ∃ k' s', terminateNodes k 5 0 ⟨0, none, none⟩ aloneMem = some (k', s') ∧
        FreesDefunct k k' q kin'.dChildren aloneMem s' := by
  let _ := yalnixPaging
  let es : List (ℕ × ProcAct ℕ ℕ) := [(0, .fork 3 3 3), (3, .fork 4 4 4), (3, .fork 5 5 5),
    (4, .exit 0)]
  have hruns : ((kernelStart (smallBoot 140)).bind fun k => (Run.exec Kernel.step k es).bind
      fun k => (k.proc 3).bind fun p => (k.proc 5).bind fun q => p.kin.bind fun kin =>
        q.kin.map fun kin' => (kin.dChildren, kin'.dChildren, (k.proc 4).isSome)) =
      some ([4], [], true) := by
    decide +kernel
  obtain ⟨k₀, hk₀, hruns⟩ := Option.bind_eq_some_iff.mp hruns
  obtain ⟨k, hk, hruns⟩ := Option.bind_eq_some_iff.mp hruns
  obtain ⟨p, hp, hruns⟩ := Option.bind_eq_some_iff.mp hruns
  obtain ⟨q, hq, hruns⟩ := Option.bind_eq_some_iff.mp hruns
  obtain ⟨kin, hkin, hruns⟩ := Option.bind_eq_some_iff.mp hruns
  obtain ⟨kin', hkin', heq⟩ := Option.map_eq_some_iff.mp hruns
  simp only [Prod.mk.injEq] at heq
  obtain ⟨hds, hds', hsome⟩ := heq
  have hone : IsList aloneMem.heap ⟨1, some 4, some 4⟩ kin.dChildren := by
    rw [hds]
    exact ⟨⟨rfl, rfl, trivial⟩, rfl, rfl, rfl, by decide⟩
  have hnone : IsList aloneMem.heap ⟨0, none, none⟩ kin'.dChildren := by
    rw [hds']
    exact ⟨trivial, rfl, rfl, rfl, by decide⟩
  obtain ⟨hall, hdestroys⟩ := freesDefunct_iff 0 hp hkin hone
  refine ⟨k₀, k, p, q, kin, kin', hk₀, hk, hp, hkin, hds, ?_, ?_, hq, hkin',
    (freesDefunct_iff 0 hq hkin' hnone).1.mpr hds'⟩
  · exact hall.not.mpr (by rw [hds]; decide)
  · refine (hdestroys fun n hn => ?_).mpr (by rw [hds]; decide) 4 (by rw [hds]; decide)
    rw [hds, List.mem_singleton] at hn
    subst hn
    exact ⟨by decide, hsome⟩

/-- Nodes 4 and 5 on a list. -/
def pairMem : NodeMem ℕ where
  heap := fun n => if n = 4 then ⟨0, some 5, none⟩ else ⟨0, none, some 4⟩
  freed := []
  stale := []

theorem isList_pairMem : IsList pairMem.heap ⟨2, some 4, some 5⟩ [4, 5] :=
  ⟨⟨rfl, rfl, rfl, rfl, trivial⟩, rfl, rfl, rfl, by decide⟩

/-- A child of init has two dead children when it exits. The second of them
stays, with the two frames of its kernel stack. -/
theorem not_freesDefunct :
    let _ := yalnixPaging
    ∃ (k₀ k : Kernel ℕ ℕ) (p : Proc ℕ ℕ) (kin : Kin ℕ ℕ),
      kernelStart (smallBoot 140) = some k₀ ∧
      Run.exec Kernel.step k₀ [(0, .fork 3 3 3), (3, .fork 4 4 4), (3, .fork 5 5 5), (4, .exit 0),
        (5, .exit 0)] = some k ∧
      k.proc 3 = some p ∧ p.kin = some kin ∧ kin.dChildren = [4, 5] ∧
      ((processTerminate k 3 0).proc 5).isSome = true ∧
      framesLeft (processTerminate k 3 0).mem.frames + 2 = framesLeft k.mem.frames +
        p.userpt.count + (kin.dChildren.map k.kstackCount).sum ∧
      ¬ ∃ k' s', terminateNodes k 3 0 ⟨2, some 4, some 5⟩ pairMem = some (k', s') ∧
        FreesDefunct k k' p kin.dChildren pairMem s' := by
  let _ := yalnixPaging
  let es : List (ℕ × ProcAct ℕ ℕ) := [(0, .fork 3 3 3), (3, .fork 4 4 4), (3, .fork 5 5 5),
    (4, .exit 0), (5, .exit 0)]
  have hruns : ((kernelStart (smallBoot 140)).bind fun k => (Run.exec Kernel.step k es).bind
      fun k => (k.proc 3).bind fun p => p.kin.map fun kin =>
        (kin.dChildren, ((processTerminate k 3 0).proc 5).isSome,
          decide (framesLeft (processTerminate k 3 0).mem.frames + 2 = framesLeft k.mem.frames +
            p.userpt.count + (kin.dChildren.map k.kstackCount).sum))) =
      some ([4, 5], true, true) := by
    decide +kernel
  obtain ⟨k₀, hk₀, hruns⟩ := Option.bind_eq_some_iff.mp hruns
  obtain ⟨k, hk, hruns⟩ := Option.bind_eq_some_iff.mp hruns
  obtain ⟨p, hp, hruns⟩ := Option.bind_eq_some_iff.mp hruns
  obtain ⟨kin, hkin, heq⟩ := Option.map_eq_some_iff.mp hruns
  obtain ⟨hds, heq⟩ := Prod.mk.inj heq
  obtain ⟨hsome, hframes⟩ := Prod.mk.inj heq
  refine ⟨k₀, k, p, kin, hk₀, hk, hp, hkin, hds, hsome, of_decide_eq_true hframes, ?_⟩
  rintro ⟨k', s', hrun, hfrees⟩
  rw [terminateNodes_eq 0 hp hkin (hds ▸ isList_pairMem)] at hrun
  obtain ⟨rfl, -⟩ := Prod.mk.inj (Option.some.inj hrun)
  have hgone := hfrees.destroyed 5 (by simp [hds])
  rw [show (processTerminate k 3 0).proc 5 = none from hgone] at hsome
  cases hsome

end Yalnix
