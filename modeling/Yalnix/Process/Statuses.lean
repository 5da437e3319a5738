import Yalnix.Process.Family.Books
import Yalnix.Process.Waiting
/-!
# Exit statuses

What `Exit` passes and what `Wait` brings back, over whole runs. `Chronicle`
writes down beside the kernel who was born to whom, who exited with which
status, and what each successful `Wait` returned, so that the two ends can be
compared: where no block is used for two `pcb_t`s, each parent is told of its
children in the order they exited, each with its own pid and status
(`statuses_delivered`).
-/

namespace Yalnix

open Paging

variable {Node Addr : Type} [Paging]

/-! ## What is written down -/

/-- An exit: who, under which pid, and the status. -/
structure Exit where
  serial : ℕ
  pid : ℤ
  status : ℤ

/-- A `Wait` that succeeded: whose, the child it freed, the pid it returned,
and what was at its pointer then, where that was not NULL. -/
structure Told where
  parent : ℕ
  child : ℕ
  pid : ℤ
  status : Option ℤ

/-- **The kernel and its chronicle.** -/
structure Chronicle (Node Addr : Type) where
  kernel : Kernel Node Addr
  /-- Every block that has been a `pcb_t`. -/
  blocks : List Addr
  births : List (ℕ × ℕ)
  exits : List Exit
  told : List Told

section Record

variable [DecidableEq Node] [DecidableEq Addr]

/-- A birth: the block, the parent and the child. -/
def Kernel.birth (k k' : Kernel Node Addr) : Node × ProcAct Node Addr → Option (Addr × ℕ × ℕ)
  | (p, .fork _ data _) =>
    if k.born < k'.born then (k.proc p).map fun c => (data, c.serial, k.born) else none
  | _ => none

/-- A process that lived and lives no more, with what it passed to `Exit`. -/
def Kernel.death (k k' : Kernel Node Addr) : Node × ProcAct Node Addr → Option Exit
  | (p, act) =>
    match k.proc p, k'.proc p with
    | some c, some c' =>
      if c.kin.isSome ∧ c'.kin.isNone then some ⟨c.serial, c.pid, act.status⟩ else none
    | _, _ => none

/-- The pointer of a `KernelWait` that is past its tests. -/
def Kernel.pastTests (k : Kernel Node Addr) (p : Node) (c : Proc Node Addr) :
    ProcAct Node Addr → Option ℤ
  | .wait statusPtr =>
    if statusPtr ≠ 0 ∧ ¬ checkAddr statusPtr protWrite c.userpt.pt then none
    else if c.kin.map Kin.aChildren = some [] ∧ c.kin.map Kin.dChildren = some [] then none
    else some statusPtr
  | .resume => k.waits p
  | _ => none

/-- The first of a process's dead. -/
def Kernel.firstDead (k : Kernel Node Addr) (c : Proc Node Addr) : Option (Proc Node Addr) :=
  (c.kin.bind fun kin => kin.dChildren.head?).bind k.proc

/-- What a `KernelWait` brings back that returns from its loop. -/
def Kernel.answer (k : Kernel Node Addr) : Node × ProcAct Node Addr → Option Told
  | (p, act) =>
    match k.proc p with
    | none => none
    | some c =>
      match k.pastTests p c act with
      | none => none
      | some statusPtr =>
        match waitLoop (switchTo k p c) statusPtr with
        | some (k', .returned pid) =>
          (k.firstDead c).map fun child => ⟨c.serial, child.serial, pid,
            if statusPtr = 0 then none else some (wordAt k'.mem c.userpt.pt statusPtr)⟩
        | _ => none

/-- What is written down of an activation that leaves the kernel as `k'`. -/
def Chronicle.after (t : Chronicle Node Addr) (k' : Kernel Node Addr)
    (e : Node × ProcAct Node Addr) : Chronicle Node Addr where
  kernel := k'
  blocks := t.blocks ++ ((t.kernel.birth k' e).map Prod.fst).toList
  births := t.births ++ ((t.kernel.birth k' e).map Prod.snd).toList
  exits := t.exits ++ (t.kernel.death k' e).toList
  told := t.told ++ (t.kernel.answer e).toList

/-- One activation. -/
def Chronicle.step (t : Chronicle Node Addr) (e : Node × ProcAct Node Addr) :
    Option (Chronicle Node Addr) :=
  (t.kernel.step e).map fun k' => t.after k' e

/-- **`malloc` gives no block to a second `pcb_t`.** -/
def Chronicle.Fresh (t : Chronicle Node Addr) (e : Node × ProcAct Node Addr) : Prop :=
  ∀ k' birth, t.kernel.step e = some k' → t.kernel.birth k' e = some birth →
    birth.1 ∉ t.blocks

end Record

namespace Chronicle

/-- The chronicle's books. -/
def books (t : Chronicle Node Addr) : Books Addr where
  blocks := t.blocks
  births := t.births
  exits := t.exits.map Exit.serial
  told := t.told.map fun d => (d.parent, d.child)

/-- The exits of a process's children, in order. -/
def exitsOf (t : Chronicle Node Addr) (σ : ℕ) : List Exit :=
  t.exits.filter fun x => t.births.contains (σ, x.serial)

/-- What a process was told, in order. -/
def toldTo (t : Chronicle Node Addr) (σ : ℕ) : List Told := t.told.filter fun d => d.parent = σ

/-- **An answer to an exit**: the same process and pid, and the status as an
`int` has it. -/
def Answers (d : Told) (x : Exit) : Prop :=
  d.child = x.serial ∧ d.pid = x.pid ∧ ∀ word, d.status = some word → word = x.status % 2 ^ 32

/-- **Statuses are delivered once, to the right parent, in order.** -/
structure Delivered (t : Chronicle Node Addr) : Prop where
  /-- What a parent was told answers its children's exits, from the first on. -/
  in_order : ∀ σ, ∃ answered rest, t.exitsOf σ = answered ++ rest ∧
    List.Forall₂ Answers (t.toldTo σ) answered
  /-- Nobody is collected twice. -/
  once : (t.told.map Told.child).Nodup
  /-- Nobody is collected by another than the parent. -/
  own : ∀ d ∈ t.told, (d.parent, d.child) ∈ t.births

variable [DecidableEq Node] [DecidableEq Addr]

/-- **What the chronicle owes the kernel**: its books are in order, every
dead process still there is the one that exited, and every answer is that to
the child's exit. -/
structure Faithful (t : Chronicle Node Addr) : Prop where
  kindred : t.kernel.Kindred
  in_order : t.kernel.family.InOrder t.books
  noted : ∀ n c, t.kernel.proc n = some c → c.kin = none →
    ∃ x ∈ t.exits, x.serial = c.serial ∧ x.pid = c.pid ∧ x.status = c.code
  answered : ∀ d ∈ t.told, ∃ x ∈ t.exits, Answers d x

/-! ## Why that is enough -/

omit [Paging] [DecidableEq Node] [DecidableEq Addr] in
/-- A list without repetitions in any part, whose parts have nothing in
common, has none. -/
theorem nodup_map_of_parts {α β γ : Type*} [DecidableEq β] {f : α → β} {g : α → γ} {l : List α}
    (hpart : ∀ σ, ((l.filter fun a => f a = σ).map g).Nodup)
    (happart : ∀ a ∈ l, ∀ a' ∈ l, g a = g a' → f a = f a') : (l.map g).Nodup := by
  induction l with
  | nil => exact List.nodup_nil
  | cons a l ih =>
    rw [List.map_cons, List.nodup_cons]
    refine ⟨fun hin => ?_, ih (fun σ => ?_) fun b hb b' hb' =>
      happart b (List.mem_cons_of_mem _ hb) b' (List.mem_cons_of_mem _ hb')⟩
    · obtain ⟨b, hb, hg⟩ := List.mem_map.mp hin
      have hf := happart b (List.mem_cons_of_mem _ hb) a List.mem_cons_self hg
      have hcons := hpart (f a)
      rw [List.filter_cons_of_pos (by simp), List.map_cons, List.nodup_cons] at hcons
      exact hcons.1 (List.mem_map.mpr ⟨b, List.mem_filter.mpr ⟨hb, by simpa using hf⟩, hg⟩)
    · have hcons := hpart σ
      rw [List.filter_cons] at hcons
      split at hcons
      · exact (List.nodup_cons.mp hcons).2
      · exact hcons

omit [Paging] [DecidableEq Node] [DecidableEq Addr] in
theorem map_exitsOf (t : Chronicle Node Addr) (σ : ℕ) :
    (t.exitsOf σ).map Exit.serial = t.books.exitsOf σ := by
  unfold exitsOf Books.exitsOf books
  dsimp only
  rw [List.filter_map]
  exact congrArg _ (List.filter_congr fun x _ => List.contains_eq_mem _ _)

omit [Paging] [DecidableEq Node] [DecidableEq Addr] in
theorem map_toldTo (t : Chronicle Node Addr) (σ : ℕ) :
    (t.toldTo σ).map Told.child = t.books.toldTo σ := by
  unfold toldTo Books.toldTo books
  dsimp only
  rw [List.filter_map, List.map_map]
  rfl

omit [Paging] [DecidableEq Node] [DecidableEq Addr] in
theorem eq_of_serial {t : Chronicle Node Addr} (h : (t.exits.map Exit.serial).Nodup) {x y : Exit}
    (hx : x ∈ t.exits) (hy : y ∈ t.exits) (heq : x.serial = y.serial) : x = y :=
  List.inj_on_of_nodup_map h hx hy heq

omit [Paging] [DecidableEq Node] [DecidableEq Addr] in
/-- **A faithful chronicle has everything delivered.** -/
theorem Faithful.delivered {t : Chronicle Node Addr} (h : t.Faithful) : t.Delivered := by
  have hnodup : (t.exits.map Exit.serial).Nodup := h.in_order.exits_nodup
  have hin : ∀ σ, ∃ answered rest, t.exitsOf σ = answered ++ rest ∧
      List.Forall₂ Answers (t.toldTo σ) answered := by
    intro σ
    obtain ⟨rest, hrest⟩ := h.in_order.told_prefix σ
    rw [← map_toldTo, ← map_exitsOf] at hrest
    obtain ⟨answered, others, hsplit, hmap, -⟩ := List.map_eq_append_iff.mp hrest.symm
    refine ⟨answered, others, hsplit, ?_⟩
    -- the same processes in the same order, and one exit for each
    have hlen : (t.toldTo σ).length = answered.length := by
      rw [← List.length_map Told.child, ← hmap, List.length_map]
    refine List.forall₂_iff_zip.mpr ⟨hlen, fun {d x} hzip => ?_⟩
    have hserial : d.child = x.serial := by
      have hpair : List.Forall₂ (fun d x => Told.child d = Exit.serial x) (t.toldTo σ) answered := by
        rw [← List.forall₂_map_right_iff, ← List.forall₂_map_left_iff, hmap]
        exact List.forall₂_same.mpr fun _ _ => rfl
      exact (List.forall₂_iff_zip.mp hpair).2 hzip
    obtain ⟨hd, hx⟩ := List.of_mem_zip hzip
    obtain ⟨y, hy, hanswer⟩ := h.answered d (List.mem_filter.mp hd).1
    have hx' : x ∈ t.exits := by
      refine (List.mem_filter.mp (?_ : x ∈ t.exitsOf σ)).1
      rw [hsplit]
      exact List.mem_append_left _ hx
    rwa [eq_of_serial hnodup hx' hy (hserial.symm.trans hanswer.1)]
  have hown : ∀ d ∈ t.told, (d.parent, d.child) ∈ t.births := by
    intro d hd
    have hmem : d.child ∈ t.books.toldTo d.parent := by
      rw [← map_toldTo]
      exact List.mem_map_of_mem (List.mem_filter.mpr ⟨hd, by simp⟩)
    have hexit := (h.in_order.told_prefix d.parent).subset hmem
    exact of_decide_eq_true (List.mem_filter.mp hexit).2
  refine ⟨hin, nodup_map_of_parts (f := Told.parent) (fun σ => ?_) fun d hd d' hd' heq => ?_, hown⟩
  · show ((t.toldTo σ).map Told.child).Nodup
    rw [map_toldTo]
    exact (hnodup.filter _).sublist (h.in_order.told_prefix σ).sublist
  · exact h.in_order.births_own (hown d hd) (heq ▸ hown d' hd')

end Chronicle

/-! ## What an activation does to the books -/

section Step

variable [DecidableEq Node] [DecidableEq Addr]
variable {k k' : Kernel Node Addr} {n p : Node} {c : Proc Node Addr} {kin : Kin Node Addr}
  {b : Books Addr}

/-- **An exit** is entered. -/
theorem inOrder_kernelExit {status : ℤ} (h : k.Kindred) (hb : k.family.InOrder b)
    (hc : k.curr = some c) (hkin : c.kin = some kin) (hexit : kernelExit k status = some k') :
    k'.family.InOrder (b.exit c.serial) := by
  obtain ⟨c', hc', hm, hkinship⟩ := reaped_self h hc hkin
  have hkin' : c'.kin = some kin := (congrArg Member.kin hm).trans hkin
  have hreaped : (reapOrphans k).family.InOrder b := by
    rw [family_reapOrphans]
    exact hb.destroyAll fun n hn => (h.orphans n hn).2
  have hserial : c'.serial = c.serial := congrArg Member.serial hm
  rw [(kernelExit_moves h hc hkin hexit).1, ← hserial]
  exact hreaped.exit hkinship (member_eq hc') hkin'

/-- **A birth** is. -/
theorem inOrder_forked {child : Node} {data : Addr} {pid : ℤ} (h : k.Kindred)
    (hb : k.family.InOrder b) (hc : k.curr = some c) (hkin : c.kin = some kin)
    (hchild : k.proc child = none) (hnew : data ∉ b.blocks) :
    (forked k c child data pid).family.InOrder (b.bear data c.serial k.born) := by
  rw [family_forked child data pid hc]
  have hp : k.family.member k.procs.running = some c.member := member_eq hc
  exact hb.adopt hp hkin (member_none.mpr hchild) h.kinship hnew

/-- **A collection** is. -/
theorem inOrder_collected {child : Node} {rest : List Node} {childPcb : Proc Node Addr}
    (statusPtr : ℤ) (h : k.Kindred) (hb : k.family.InOrder b) (hc : k.curr = some c)
    (hkin : c.kin = some kin) (hd : kin.dChildren = child :: rest)
    (hchild : k.proc child = some childPcb) :
    (collected k c kin child rest childPcb statusPtr).family.InOrder
      (b.tell c.serial childPcb.serial) := by
  have hp : k.family.member k.procs.running = some c.member := member_eq hc
  obtain ⟨hlaid, horphans⟩ := h.laid_collected hc hkin hd childPcb.serial
  rw [family_collected hc]
  exact ((hb.collect h.kinship hp hkin hd (member_eq hchild)).destroy hlaid).destroyAll horphans

/-- **The process that exits** keeps its pid and has the status for a
code. -/
theorem kernelExit_self {status : ℤ} {c' : Proc Node Addr} (h : k.Kindred) (hc : k.curr = some c)
    (hkin : c.kin = some kin) (hexit : kernelExit k status = some k')
    (hc' : k'.proc k.procs.running = some c') :
    c'.serial = c.serial ∧ c'.pid = c.pid ∧ c'.code = status := by
  rw [kernelExit_eq hexit] at hc'
  obtain ⟨c₃, hc₃, hsame₃⟩ := leaves_graveyard.keeps k.procs.running (Set.notMem_empty _) c' hc'
  obtain ⟨c₀, hc₀, hm, -⟩ := reaped_self h hc hkin
  have hkin₀ : c₀.kin = some kin := (congrArg Member.kin hm).trans hkin
  obtain ⟨c₁, hc₁, hsame⟩ := leaves_reapOrphans.keeps k.procs.running (Set.notMem_empty _) c₀ hc₀
  obtain rfl := Option.some.inj (hc.symm.trans hc₁)
  -- between the store of the return code and the end only links change
  rw [processTerminate_eq status hc₀ hkin₀, Kernel.modify] at hc₃
  dsimp only at hc₃
  rw [Function.update_self, Option.map_eq_some_iff] at hc₃
  obtain ⟨c₂, hc₂, rfl⟩ := hc₃
  obtain ⟨c₄, hc₄, hsame₂⟩ := ((leaves_orphanAll kin.aChildren).trans
    (leaves_destroyDefunct kin.dChildren)).keeps k.procs.running (Set.notMem_empty _) c₂ hc₂
  unfold releaseUser at hc₄
  dsimp only at hc₄
  rw [Function.update_self] at hc₄
  obtain rfl := Option.some.inj hc₄
  exact ⟨hsame₃.serial.trans (hsame₂.serial.trans hsame.serial),
    hsame₃.pid.trans (hsame₂.pid.trans hsame.pid), hsame₃.code.trans hsame₂.code⟩

/-- It is there, dead. -/
theorem kernelExit_dead {status : ℤ} (h : k.Kindred) (hc : k.curr = some c)
    (hkin : c.kin = some kin) (hexit : kernelExit k status = some k') :
    ∃ c', k'.proc k.procs.running = some c' ∧ c'.kin = none := by
  obtain ⟨c₀, hc₀, hm, hkinship⟩ := reaped_self h hc hkin
  have hkin₀ : c₀.kin = some kin := (congrArg Member.kin hm).trans hkin
  obtain ⟨m, hdead, hnone⟩ := (hkinship.exit_self (member_eq hc₀) hkin₀).1
  rw [← (kernelExit_moves h hc hkin hexit).1] at hdead
  obtain ⟨c', hc', rfl⟩ := exists_of_member hdead
  exact ⟨c', hc', hnone⟩

/-! ## The loop of `KernelWait` -/

theorem processDestroy_pmem (k : Kernel Node Addr) (n : Node) :
    (processDestroy k n).mem.pmem = k.mem.pmem := by
  unfold processDestroy
  split <;> rfl

theorem reapOrphans_pmem (k : Kernel Node Addr) : (reapOrphans k).mem.pmem = k.mem.pmem := by
  have hall : ∀ (l : List Node) (k : Kernel Node Addr),
      (destroyAll l k).mem.pmem = k.mem.pmem := by
    intro l
    induction l with
    | nil => exact fun _ => rfl
    | cons n rest ih => exact fun k => (ih _).trans (processDestroy_pmem k n)
  exact hall k.procs.orphans k

/-- **The word at the pointer** is the child's code when `KernelWait`
returns. -/
theorem wordAt_collected (hpage : 4 ≤ pageSize) {child : Node} {rest : List Node}
    {childPcb : Proc Node Addr} {statusPtr : ℤ} (hptr : statusPtr ≠ 0) :
    wordAt (collected k c kin child rest childPcb statusPtr).mem c.userpt.pt statusPtr =
      childPcb.code % 2 ^ 32 := by
  have hpmem : (collected k c kin child rest childPcb statusPtr).mem.pmem =
      (storeBytes c.userpt.pt (wordBytes childPcb.code) k.mem statusPtr).pmem := by
    unfold collected
    dsimp only
    rw [reapOrphans_pmem, processDestroy_pmem, if_pos hptr]
    rfl
  have hload : ∀ {mem mem' : Memory}, mem.pmem = mem'.pmem →
      wordAt mem c.userpt.pt statusPtr = wordAt mem' c.userpt.pt statusPtr := by
    intro mem mem' heq
    unfold wordAt byteAt
    rw [heq]
  rw [hload hpmem, wordAt_storeBytes hpage]

/-- The process inside the call is the one whose answer is written down. -/
theorem pastTests_of_inWait {act : ProcAct Node Addr} {statusPtr : ℤ} (hkin : c.kin = some kin)
    (hin : InWait (switchTo k p c) c kin act statusPtr) :
    k.pastTests p c act = some statusPtr := by
  rcases hin with ⟨rfl, hptr, hsome⟩ | ⟨rfl, hwaits⟩
  · unfold Kernel.pastTests
    dsimp only
    rw [if_neg, if_neg]
    · rw [hkin, Option.map_some, Option.map_some, Option.some.injEq, Option.some.injEq]
      exact hsome
    · rintro ⟨hne, hno⟩
      exact hno (hptr.resolve_left hne)
  · exact hwaits

/-- Nothing to collect: no answer. -/
theorem answer_asleep {act : ProcAct Node Addr} {statusPtr : ℤ} (hc : k.proc p = some c)
    (hkin : c.kin = some kin) (hin : InWait (switchTo k p c) c kin act statusPtr)
    (hnone : kin.dChildren = []) : k.answer (p, act) = none := by
  have hloop : waitLoop (switchTo k p c) statusPtr = some
      ({ switchTo k p c with procs := blockWait (switchTo k p c).procs }, .blocked statusPtr) := by
    unfold waitLoop
    rw [switchTo_curr hc]
    dsimp only
    rw [hkin]
    dsimp only
    rw [hnone]
  unfold Kernel.answer
  dsimp only
  rw [hc]
  dsimp only
  rw [pastTests_of_inWait hkin hin]
  dsimp only
  rw [hloop]

/-- The first of the dead: its pid, and its code at the pointer. -/
theorem answer_collected (hpage : 4 ≤ pageSize) {act : ProcAct Node Addr} {statusPtr : ℤ}
    {child : Node} {rest : List Node} {childPcb : Proc Node Addr} (hc : k.proc p = some c)
    (hkin : c.kin = some kin) (hin : InWait (switchTo k p c) c kin act statusPtr)
    (hd : kin.dChildren = child :: rest) (hchild : k.proc child = some childPcb) :
    ∃ status, k.answer (p, act) = some ⟨c.serial, childPcb.serial, childPcb.pid, status⟩ ∧
      ∀ word, status = some word → word = childPcb.code % 2 ^ 32 := by
  have hcurr : (switchTo k p c).curr = some c := switchTo_curr hc
  have hloop : waitLoop (switchTo k p c) statusPtr = some
      (collected (switchTo k p c) c kin child rest childPcb statusPtr,
        .returned childPcb.pid) := by
    -- the loop finds the defunct child at its first turn
    obtain ⟨r, hr⟩ : ∃ r, waitLoop (switchTo k p c) statusPtr = some r := by
      unfold waitLoop
      rw [hcurr]
      dsimp only
      rw [hkin]
      dsimp only
      rw [hd]
      dsimp only
      rw [switchTo_proc, hchild]
      exact ⟨_, rfl⟩
    rcases waitLoop_cases hcurr hkin hr with
      ⟨hnone, -⟩ | ⟨child', rest', childPcb', hd', hchild', heq⟩
    · rw [hd] at hnone
      cases hnone
    · obtain ⟨rfl, rfl⟩ := List.cons.inj (hd.symm.trans hd')
      obtain rfl := Option.some.inj (hchild.symm.trans hchild')
      rw [hr, heq]
  have hfirst : k.firstDead c = some childPcb := by
    unfold Kernel.firstDead
    rw [hkin, Option.bind_some, hd, List.head?_cons, Option.bind_some, hchild]
  refine ⟨if statusPtr = 0 then none else some (wordAt
    (collected (switchTo k p c) c kin child rest childPcb statusPtr).mem c.userpt.pt statusPtr),
    ?_, fun word hword => ?_⟩
  · unfold Kernel.answer
    dsimp only
    rw [hc]
    dsimp only
    rw [pastTests_of_inWait hkin hin]
    dsimp only
    rw [hloop]
    dsimp only
    rw [hfirst]
    rfl
  · split at hword
    · cases hword
    · rename_i hptr
      rw [← Option.some.inj hword]
      exact wordAt_collected hpage hptr

/-! ## Every activation -/

variable {t t' : Chronicle Node Addr} {act : ProcAct Node Addr}

omit [Paging] [DecidableEq Node] [DecidableEq Addr] in
/-- A process that is alive afterwards has not died. -/
theorem death_none (hc : k.proc p = some c)
    (halive : ∀ c', k'.proc p = some c' → c'.kin.isSome) : k.death k' (p, act) = none := by
  unfold Kernel.death
  dsimp only
  rw [hc]
  cases hc' : k'.proc p with
  | none => rfl
  | some c' =>
    dsimp only
    rw [if_neg]
    rintro ⟨-, hdead⟩
    rw [← Option.not_isSome, halive c' hc'] at hdead
    cases hdead

/-- A child is born to the caller of `Fork`. -/
theorem birth_forked (hc : k.proc p = some c) (child : Node) (data : Addr) (pid : ℤ) :
    k.birth (forked (switchTo k p c) c child data pid) (p, .fork child data pid) =
      some (data, c.serial, k.born) := by
  have hborn : (forked (switchTo k p c) c child data pid).born = k.born + 1 := rfl
  unfold Kernel.birth
  dsimp only
  rw [hborn, if_pos (Nat.lt_succ_self _), hc, Option.map_some]

/-- A call that is not in the loop of `KernelWait` has no answer. -/
theorem answer_none (hc : k.proc p = some c) (hpast : k.pastTests p c act = none) :
    k.answer (p, act) = none := by
  unfold Kernel.answer
  dsimp only
  rw [hc]
  dsimp only
  rw [hpast]

/-- A `KernelWait` that its tests refuse is not. -/
theorem pastTests_refused {statusPtr : ℤ} (hkin : c.kin = some kin)
    (hno : (statusPtr ≠ 0 ∧ checkAddr statusPtr protWrite c.userpt.pt = false) ∨
      (kin.aChildren = [] ∧ kin.dChildren = [])) :
    k.pastTests p c (.wait statusPtr) = none := by
  unfold Kernel.pastTests
  dsimp only
  rcases hno with ⟨hne, hcheck⟩ | ⟨ha, hd⟩
  · rw [if_pos ⟨hne, by rw [hcheck]; simp⟩]
  · split
    · rfl
    · rw [if_pos]
      rw [hkin, Option.map_some, Option.map_some, ha, hd]
      exact ⟨rfl, rfl⟩

namespace Chronicle

/-- **What an activation owes the chronicle**: the books in order with what
it writes down, and every dead process the one that was, or the one that is
written down. -/
theorem Faithful.after (h : t.Faithful) (hkindred : k'.Kindred)
    (hbooks : k'.family.InOrder
      { blocks := t.books.blocks ++ ((t.kernel.birth k' (p, act)).map Prod.fst).toList
        births := t.books.births ++ ((t.kernel.birth k' (p, act)).map Prod.snd).toList
        exits := t.books.exits ++ ((t.kernel.death k' (p, act)).map Exit.serial).toList
        told := t.books.told ++
          ((t.kernel.answer (p, act)).map fun d => (d.parent, d.child)).toList })
    (hnoted : ∀ n c', k'.proc n = some c' → c'.kin = none →
      (∃ c, t.kernel.proc n = some c ∧ c.Same c') ∨
      ∃ x, t.kernel.death k' (p, act) = some x ∧
        x.serial = c'.serial ∧ x.pid = c'.pid ∧ x.status = c'.code)
    (hanswer : ∀ d, t.kernel.answer (p, act) = some d → ∃ x ∈ t.exits, Answers d x) :
    (t.after k' (p, act)).Faithful := by
  constructor
  · exact hkindred
  · have heq : (t.after k' (p, act)).books =
        { blocks := t.books.blocks ++ ((t.kernel.birth k' (p, act)).map Prod.fst).toList
          births := t.books.births ++ ((t.kernel.birth k' (p, act)).map Prod.snd).toList
          exits := t.books.exits ++ ((t.kernel.death k' (p, act)).map Exit.serial).toList
          told := t.books.told ++
            ((t.kernel.answer (p, act)).map fun d => (d.parent, d.child)).toList } := by
      unfold Chronicle.after Chronicle.books
      simp only [List.map_append, Option.toList_map]
    exact heq ▸ hbooks
  -- defunct before, or by the exit that this step is
  · intro n c' hc' hdead
    rcases hnoted n c' hc' hdead with ⟨c, hc, hsame⟩ | ⟨x, hx, hfacts⟩
    · have hdead₀ : c.kin = none := by
        have := hsame.alive
        rw [hdead, eq_comm] at this
        simpa using this
      obtain ⟨x, hx, hser, hpid, hcode⟩ := h.noted n c hc hdead₀
      exact ⟨x, List.mem_append_left _ hx, hser.trans hsame.serial.symm,
        hpid.trans hsame.pid.symm, hcode.trans hsame.code.symm⟩
    · exact ⟨x, List.mem_append_right _ (Option.mem_toList.mpr hx), hfacts⟩
  · intro d hd
    rcases List.mem_append.mp hd with hd | hd
    · obtain ⟨x, hx, hanswers⟩ := h.answered d hd
      exact ⟨x, List.mem_append_left _ hx, hanswers⟩
    · obtain ⟨x, hx, hanswers⟩ := hanswer d (Option.mem_toList.mp hd)
      exact ⟨x, List.mem_append_left _ hx, hanswers⟩

section Cases

variable (h : t.Faithful) (hc : t.kernel.proc p = some c) (hkin : c.kin = some kin)

include h hc hkin

/-- **Nothing is written down** of an activation that keeps the family. -/
theorem Faithful.kept (hkindred : k'.Kindred) (hfamily : k'.family = t.kernel.family)
    (hanswer : t.kernel.answer (p, act) = none)
    (hsame : ∀ n c', k'.proc n = some c' → c'.kin = none →
      ∃ c, t.kernel.proc n = some c ∧ c.Same c') : (t.after k' (p, act)).Faithful := by
  have hbirth : t.kernel.birth k' (p, act) = none := by
    have hborn : k'.born = t.kernel.born := congrArg Family.born hfamily
    unfold Kernel.birth
    split
    · rw [hborn, if_neg (lt_irrefl _)]
    · rfl
  have hdeath : t.kernel.death k' (p, act) = none := by
    refine death_none hc fun c' hc' => ?_
    have hm := member_eq hc'
    rw [hfamily, member_eq hc] at hm
    rw [show c'.kin = c.kin from congrArg Member.kin (Option.some.inj hm).symm, hkin]
    rfl
  refine h.after hkindred ?_ (fun n c' hc' hdead => Or.inl (hsame n c' hc' hdead)) fun d hd => ?_
  · rw [hbirth, hdeath, hanswer, hfamily]
    simpa using h.in_order
  · rw [hanswer] at hd
    cases hd

/-- **An exit is.** -/
theorem Faithful.exited {k₁ : Kernel Node Addr} {c₁ : Proc Node Addr} (hc₁ : k₁.curr = some c₁)
    (hm : c₁.member = c.member) (hpid : c₁.pid = c.pid) (hfamily : k₁.family = t.kernel.family)
    (hprocs : k₁.procs = (switchTo t.kernel p c).procs) (hwaits : k₁.waits = t.kernel.waits)
    (hleaves : Leaves t.kernel k₁ {p}) (hbirth : t.kernel.birth k' (p, act) = none)
    (hanswer : t.kernel.answer (p, act) = none) (hkindred : k'.Kindred)
    (hexit : kernelExit k₁ act.status = some k') : (t.after k' (p, act)).Faithful := by
  have h₀ : (switchTo t.kernel p c).Kindred := h.kindred.congr rfl rfl rfl rfl
  have h₁ : k₁.Kindred := h₀.congr hfamily (congrArg _ hprocs) (congrArg _ hprocs) hwaits
  have hkin₁ : c₁.kin = some kin := (congrArg Member.kin hm).trans hkin
  have hserial₁ : c₁.serial = c.serial := congrArg Member.serial hm
  have hrunning : k₁.procs.running = p := congrArg ProcTable.running hprocs
  obtain ⟨c', hc', hdead⟩ := kernelExit_dead h₁ hc₁ hkin₁ hexit
  rw [hrunning] at hc'
  have hdeath : t.kernel.death k' (p, act) = some ⟨c.serial, c.pid, act.status⟩ := by
    unfold Kernel.death
    dsimp only
    rw [hc, hc']
    dsimp only
    rw [if_pos ⟨by rw [hkin]; rfl, by rw [hdead]; rfl⟩]
  refine h.after hkindred ?_ (fun n c'' hc'' _ => ?_) fun d hd => ?_
  · have hbooks := inOrder_kernelExit h₁ (hfamily ▸ h.in_order) hc₁ hkin₁ hexit
    rw [hserial₁] at hbooks
    rw [hbirth, hdeath, hanswer]
    simpa [Books.exit] using hbooks
  · rcases eq_or_ne n p with rfl | hne
    · obtain ⟨hser, hpid', hcode⟩ := kernelExit_self h₁ hc₁ hkin₁ hexit (hrunning.symm ▸ hc'')
      exact Or.inr ⟨_, hdeath, (hser.trans hserial₁).symm, (hpid'.trans hpid).symm, hcode.symm⟩
    · have hafter := (kernelExit_leaves hexit).1
      rw [hrunning] at hafter
      exact Or.inl ((hleaves.trans hafter).keeps n hne c'' hc'')
  · rw [hanswer] at hd
    cases hd

/-- **A birth is**, in a block nobody has had. -/
theorem Faithful.forked {child : Node} {data : Addr} {pid : ℤ} (hchild : t.kernel.proc child = none)
    (hnew : data ∉ t.blocks)
    (hkindred : (forked (switchTo t.kernel p c) c child data pid).Kindred) :
    (t.after (Yalnix.forked (switchTo t.kernel p c) c child data pid)
      (p, .fork child data pid)).Faithful := by
  have h₀ : (switchTo t.kernel p c).Kindred := h.kindred.congr rfl rfl rfl rfl
  have hanswer : t.kernel.answer (p, .fork child data pid) = none := answer_none hc rfl
  -- who is dead was there, and is neither the parent nor the child
  have hproc : ∀ n c', (Yalnix.forked (switchTo t.kernel p c) c child data pid).proc n = some c' →
      c'.kin.isSome ∨ t.kernel.proc n = some c' ∧ n ≠ p := by
    intro n c' hc'
    unfold Yalnix.forked at hc'
    dsimp only at hc'
    rw [switchTo_running, switchTo_proc] at hc'
    rcases eq_or_ne n child with rfl | hnc
    · rw [Function.update_self] at hc'
      rw [← Option.some.inj hc']
      exact Or.inl rfl
    · rw [Function.update_of_ne hnc] at hc'
      rcases eq_or_ne n p with rfl | hnp
      · rw [Function.update_self] at hc'
        rw [← Option.some.inj hc']
        refine Or.inl ?_
        unfold parentOf
        dsimp only
        rw [hkin]
        rfl
      · rw [Function.update_of_ne hnp] at hc'
        exact Or.inr ⟨hc', hnp⟩
  have hdeath : t.kernel.death (Yalnix.forked (switchTo t.kernel p c) c child data pid)
      (p, .fork child data pid) = none :=
    death_none hc fun c' hc' => (hproc p c' hc').resolve_right fun hno => hno.2 rfl
  refine h.after hkindred ?_ (fun n c' hc' hdead => ?_) fun d hd => ?_
  · rw [birth_forked hc, hdeath, hanswer]
    simp only [Option.map_some, Option.map_none, Option.toList_some, Option.toList_none,
      List.append_nil]
    exact inOrder_forked h₀ h.in_order (switchTo_curr hc) hkin hchild hnew
  · rcases hproc n c' hc' with halive | ⟨hold, -⟩
    · rw [hdead] at halive
      cases halive
    · exact Or.inl ⟨c', hold, Proc.Same.refl c'⟩
  · rw [hanswer] at hd
    cases hd

/-- **A collection is**, with the code of the child's exit. -/
theorem Faithful.collected (hpage : 4 ≤ pageSize) {statusPtr : ℤ} {child : Node}
    {rest : List Node} {childPcb : Proc Node Addr}
    (hin : InWait (switchTo t.kernel p c) c kin act statusPtr)
    (hd : kin.dChildren = child :: rest) (hchild : t.kernel.proc child = some childPcb)
    (hkindred : Kernel.Kindred { Yalnix.collected (switchTo t.kernel p c) c kin child rest childPcb
      statusPtr with waits := Function.update t.kernel.waits p none }) :
    (t.after { Yalnix.collected (switchTo t.kernel p c) c kin child rest childPcb statusPtr with
      waits := Function.update t.kernel.waits p none } (p, act)).Faithful := by
  have h₀ : (switchTo t.kernel p c).Kindred := h.kindred.congr rfl rfl rfl rfl
  have hcurr : (switchTo t.kernel p c).curr = some c := switchTo_curr hc
  obtain ⟨status, hanswer, hstatus⟩ := answer_collected hpage hc hkin hin hd hchild
  have hbirth : ∀ k', t.kernel.birth k' (p, act) = none := by
    rcases hin with ⟨rfl, -⟩ | ⟨rfl, -⟩ <;> exact fun _ => rfl
  -- the caller has the rest of its list
  have hself : ((switchTo t.kernel p c).family.collect p kin rest childPcb.serial).member p =
      some { c.member with
        kin := some { kin with dChildren := rest }
        children := c.children.erase childPcb.serial } := Family.modify_self _ (member_eq hc)
  have hdeath : t.kernel.death { Yalnix.collected (switchTo t.kernel p c) c kin child rest childPcb
      statusPtr with waits := Function.update t.kernel.waits p none } (p, act) = none := by
    refine death_none hc fun c' hc' => ?_
    have hm := h₀.member_collected hcurr hkin hd childPcb statusPtr hself rfl
    obtain ⟨c₂, hc₂, hm₂⟩ := exists_of_member hm
    obtain rfl := Option.some.inj (hc₂.symm.trans hc')
    rw [show c₂.kin = _ from congrArg Member.kin hm₂]
    rfl
  refine h.after hkindred ?_ (fun n c' hc' _ => ?_) fun d hd' => ?_
  · have hbooks := inOrder_collected statusPtr h₀ h.in_order hcurr hkin hd hchild
    rw [hbirth, hdeath, hanswer]
    simp only [Option.map_some, Option.map_none, Option.toList_some, Option.toList_none,
      List.append_nil]
    exact hbooks
  · have hleaves : Leaves (switchTo t.kernel p c)
        (Yalnix.collected (switchTo t.kernel p c) c kin child rest childPcb statusPtr) ∅ :=
      leaves_collected hcurr hkin
    exact Or.inl (hleaves.keeps n (Set.notMem_empty n) c' hc')
  · rw [hanswer] at hd'
    obtain rfl := Option.some.inj hd'
    obtain ⟨m, hm, hnone, -⟩ := h.kindred.kinship.defunct (member_eq hc) hkin
      (hd ▸ List.mem_cons_self)
    obtain rfl := Option.some.inj ((member_eq hchild).symm.trans hm)
    obtain ⟨x, hx, hser, hpid, hcode⟩ := h.noted child childPcb hchild hnone
    exact ⟨x, hx, hser.symm, hpid.symm, fun word hword => by rw [hstatus word hword, hcode]⟩

end Cases

/-- **Every activation keeps the chronicle faithful**, in a block nobody has
had. -/
theorem faithful_step (hpage : 4 ≤ pageSize) {e : Node × ProcAct Node Addr} (h : t.Faithful)
    (hfresh : t.Fresh e) (hstep : t.step e = some t') : t'.Faithful := by
  obtain ⟨k', hk', rfl⟩ := Option.map_eq_some_iff.mp hstep
  obtain ⟨p, act⟩ := e
  obtain ⟨c, kin, hc, hkin, -, -, -, heff⟩ := step_effect hk'
  have hkindred := kindred_step h.kindred hk'
  have hcurr : (switchTo t.kernel p c).curr = some c := switchTo_curr hc
  have hsame : ∀ n c', t.kernel.proc n = some c' → c'.kin = none →
      ∃ c, t.kernel.proc n = some c ∧ c.Same c' := fun n c' hc' _ => ⟨c', hc', Proc.Same.refl c'⟩
  -- another page table for the caller, or another program
  have hset : ∀ {c₁ : Proc Node Addr} {mem : Memory}, c₁.kin = some kin →
      ∀ n c', ((switchTo t.kernel p c).set p c₁ mem).proc n = some c' → c'.kin = none →
        ∃ c, t.kernel.proc n = some c ∧ c.Same c' := by
    intro c₁ mem hk₁ n c' hc' hdead
    unfold Kernel.set at hc'
    dsimp only at hc'
    rcases eq_or_ne n p with rfl | hne
    · rw [Function.update_self] at hc'
      rw [← Option.some.inj hc', hk₁] at hdead
      cases hdead
    · rw [Function.update_of_ne hne] at hc'
      exact ⟨c', hc', Proc.Same.refl c'⟩
  cases heff with
  | forkRefused => exact h.kept hc hkin hkindred rfl (answer_none hc rfl) hsame
  | forked child data pid _ hchild hdata =>
    exact h.forked hc hkin hchild (hfresh _ _ hk' (birth_forked hc child data pid)) hkindred
  | execRefused => exact h.kept hc hkin hkindred rfl (answer_none hc rfl) hsame
  | loaded filename argvec env args l =>
    exact h.kept hc hkin hkindred (family_set _ hcurr rfl) (answer_none hc rfl) (hset hkin)
  | killed filename argvec env args l k' hl hcode hexit =>
    have hloaded : ((switchTo t.kernel p c).set p (loadedProc c l) l.1.mem).curr =
        some (loadedProc c l) := set_self _ _
    have hleaves : Leaves t.kernel ((switchTo t.kernel p c).set p (loadedProc c l) l.1.mem) {p} :=
      (leaves_switchTo c).trans (leaves_set _ _)
    exact h.exited hc hkin hloaded rfl rfl (family_set _ hcurr rfl) rfl rfl hleaves rfl
      (answer_none hc rfl) hkindred hexit
  | exited status k' hexit =>
    exact h.exited hc hkin hcurr rfl rfl rfl rfl rfl (leaves_switchTo c) rfl
      (answer_none hc rfl) hkindred hexit
  | waitRefused statusPtr hno =>
    exact h.kept hc hkin hkindred rfl (answer_none hc (pastTests_refused hkin hno)) hsame
  | asleep act statusPtr hin hnone =>
    exact h.kept hc hkin hkindred rfl (answer_asleep hc hkin hin hnone) hsame
  | collected act statusPtr child rest childPcb hin hd hchild =>
    exact h.collected hc hkin hpage hin hd hchild hkindred
  | brk addr r hr =>
    rcases kernelUserBrk_set hcurr hr with heq | ⟨u, mem, heq⟩
    · rw [heq] at hkindred ⊢
      exact h.kept hc hkin hkindred rfl (answer_none hc rfl) hsame
    · rw [heq] at hkindred ⊢
      exact h.kept hc hkin hkindred (family_set _ hcurr rfl) (answer_none hc rfl) (hset hkin)
  | fault addr k' hfault =>
    rcases trapMemory_set hcurr hfault with hexit | ⟨u, mem, heq⟩
    · exact h.exited hc hkin hcurr rfl rfl rfl rfl rfl (leaves_switchTo c) rfl
        (answer_none hc rfl) hkindred hexit
    · rw [heq] at hkindred ⊢
      exact h.kept hc hkin hkindred (family_set _ hcurr rfl) (answer_none hc rfl) (hset hkin)
  | stored => exact h.kept hc hkin hkindred rfl (answer_none hc rfl) hsame

end Chronicle

end Step

/-! ## Every run -/

section Runs

variable [DecidableEq Node] [DecidableEq Addr] {b : Boot Node Addr} {k : Kernel Node Addr}

/-- The chronicle when init starts. -/
def chronicleStart (b : Boot Node Addr) (k : Kernel Node Addr) : Chronicle Node Addr where
  kernel := k
  blocks := [b.initData, b.idleData]
  births := []
  exits := []
  told := []

theorem chronicleStart_faithful (hb : kernelStart b = some k) :
    (chronicleStart b k).Faithful := by
  obtain ⟨hnode, -, hfamily, -⟩ := kernelStart_family hb
  have hmember := fun {n m} => @kernelStart_member Node Addr _ _ _ b k hb n m
  have hlists : ∀ {n m}, k.family.member n = some m → m.kin = some ⟨[], []⟩ ∧ m.children = [] := by
    intro n m hm
    rcases hmember hm with ⟨-, rfl⟩ | ⟨-, rfl⟩ <;> exact ⟨rfl, rfl⟩
  -- nobody has been born, has exited or been told
  constructor
  · exact (kernelStart_kindred hb).1
  · constructor
    · intro a n ha
      show ∃ m, k.family.member n = some m ∧ m.data = a
      replace ha : k.family.pcbAt a = some n := ha
      rw [hfamily] at ha ⊢
      dsimp only at ha ⊢
      rw [Function.update_apply] at ha
      split at ha
      · rename_i heq
        obtain rfl := Option.some.inj ha
        exact ⟨_, Function.update_self _ _ _, heq.symm⟩
      · rw [Function.update_apply] at ha
        split at ha
        · rename_i heq
          obtain rfl := Option.some.inj ha
          refine ⟨⟨b.initData, none, some ⟨[], []⟩, 0, []⟩, ?_, heq.symm⟩
          rw [Function.update_of_ne (Ne.symm hnode), Function.update_self]
        · cases ha
    · intro σ s hs
      cases hs
    · intro σ σ' s hs
      cases hs
    · intro n m s hm hs
      rw [(hlists hm).2] at hs
      cases hs
    · intro q mq kin a hq hkin ha
      rw [(hlists hq).1] at hkin
      obtain rfl := Option.some.inj hkin
      cases ha
    · intro n m p mp _ _ _ _ hs
      cases hs
    · intro s hs
      cases hs
    · exact List.nodup_nil
    · intro n m _ _ hs
      cases hs
    · exact fun σ => List.prefix_refl _
    · intro p mp kin hp hkin
      rw [(hlists hp).1] at hkin
      obtain rfl := Option.some.inj hkin
      rfl
  · intro n c hc hdead
    have hkin : c.kin = some ⟨[], []⟩ := (hlists (member_eq hc)).1
    rw [hdead] at hkin
    cases hkin
  · intro d hd
    cases hd

/-- **Exit statuses are delivered** once, to the right parent, in order, in
every run that gives no block to two `pcb_t`s. A word fits a page. -/
theorem statuses_delivered {es : List (Node × ProcAct Node Addr)} (hpage : 4 ≤ pageSize)
    (hb : kernelStart b = some k)
    (hfresh : Run.Along Chronicle.step Chronicle.Fresh (chronicleStart b k) es) :
    Run.Throughout Chronicle.step Chronicle.Delivered (chronicleStart b k) es :=
  (Run.throughout_of_along (D := fun _ => True)
    (fun _ _ _ ht _ hnew hstep => Chronicle.faithful_step hpage ht hnew hstep)
    (fun _ _ => trivial) (chronicleStart_faithful hb) hfresh).mono fun _ ht => ht.delivered

omit [Paging] [DecidableEq Node] [DecidableEq Addr] in
/-- Init forks a process, which exits with 7, and collects it. -/
theorem statuses_delivered_forked :
    let _ := yalnixPaging
    let es : List (ℕ × ProcAct ℕ ℕ) := [(0, .fork 2 2 2), (2, .exit 7), (0, .wait 0x100000)]
    ∃ k s, kernelStart (smallBoot 140) = some k ∧
      Run.exec Chronicle.step (chronicleStart (smallBoot 140) k) es = some s ∧
      Run.Throughout Chronicle.step Chronicle.Delivered (chronicleStart (smallBoot 140) k) es := by
  let _ := yalnixPaging
  intro _ es
  have hruns : ((kernelStart (smallBoot 140)).bind fun k =>
      Run.exec Chronicle.step (chronicleStart (smallBoot 140) k) es).isSome = true := by
    decide +kernel
  obtain ⟨s, hruns⟩ := Option.isSome_iff_exists.mp hruns
  obtain ⟨k, hk, hrun⟩ := Option.bind_eq_some_iff.mp hruns
  refine ⟨k, s, hk, hrun, statuses_delivered (by decide) hk ?_⟩
  show Run.Along Chronicle.step Chronicle.Fresh _
    [(0, .fork 2 2 2), (2, .exit 7), (0, .wait 0x100000)]
  -- of the three actions only the fork bears a process
  have hothers : ∀ (t : Chronicle ℕ ℕ) (es : List (ℕ × ProcAct ℕ ℕ)),
      (∀ e ∈ es, ∀ k k' : Kernel ℕ ℕ, k.birth k' e = none) →
      Run.Along Chronicle.step Chronicle.Fresh t es := by
    intro t es hes
    induction es generalizing t with
    | nil => trivial
    | cons e es ih =>
      cases ht : Chronicle.step t e with
      | none => simp [Run.Along, ht]
      | some t' =>
        refine (Run.along_cons ht).mpr ⟨fun k' birth _ hbirth => ?_,
          ih t' fun e' he' => hes e' (List.mem_cons_of_mem _ he')⟩
        rw [hes e List.mem_cons_self] at hbirth
        cases hbirth
  cases ht : Chronicle.step (chronicleStart (smallBoot 140) k) (0, .fork 2 2 2) with
  | none => simp [Run.Along, ht]
  | some t =>
    refine (Run.along_cons ht).mpr ⟨fun k' birth _ hbirth => ?_, hothers t _ ?_⟩
    · unfold Kernel.birth at hbirth
      dsimp only at hbirth
      split at hbirth
      · obtain ⟨c, -, rfl⟩ := Option.map_eq_some_iff.mp hbirth
        show (2 : ℕ) ∉ [0, 1]
        decide
      · cases hbirth
    · simp [Kernel.birth]

end Runs

end Yalnix
