import Mathlib.Data.List.Count
import Yalnix.Scheduling.Model
/-!
# Where the processes are

The places the scheduler has for a process are the processor and its three
queues. What an operation moves, it moves between these and a queue of some
object: `Trade` says that the two hold as many of everybody after it as
before, and that the scheduler's other lists are left alone.
-/

namespace Yalnix

variable {Node : Type}

/-- The queues of the scheduler. -/
def ProcTable.queued (procs : ProcTable Node) : List Node :=
  procs.ready ++ procs.waiting ++ procs.delayed

/-! ## Who is awake -/

/-- On the ready queue, or running. -/
def ProcTable.Awake (procs : ProcTable Node) (p : Node) : Prop :=
  p ∈ procs.ready ∨ p = procs.running

theorem awake_runNextReady {procs : ProcTable Node} {p : Node} (h : p ∈ procs.ready) :
    (runNextReady procs).Awake p := by
  unfold runNextReady
  split
  · rename_i hnil
    rw [hnil] at h
    exact absurd h List.not_mem_nil
  · rename_i next rest hcons
    rw [hcons] at h
    rcases List.mem_cons.mp h with heq | hin
    · exact Or.inr heq
    · exact Or.inl hin

theorem mem_ready_unblockHead {procs : ProcTable Node} {p : Node} (q : List Node)
    (h : p ∈ procs.ready) :
    p ∈ (unblockHead procs q).1.ready := by
  cases q with
  | nil => exact h
  | cons n rest => exact List.mem_append_left _ h

theorem mem_ready_unblockAll {procs : ProcTable Node} {p : Node} (q : List Node)
    (h : p ∈ procs.ready) :
    p ∈ (unblockAll procs q).ready := by
  rw [unblockAll_ready]
  exact List.mem_append_left _ h

/-! ## The scheduler's places -/

variable [DecidableEq Node]

/-- Who is on the processor, but idle. -/
def ProcTable.onProcessor (procs : ProcTable Node) : List Node :=
  if procs.running = procs.idleNode then [] else [procs.running]

/-- **The scheduler's places.** -/
def ProcTable.places (procs : ProcTable Node) : List Node := procs.onProcessor ++ procs.queued

/-- **An operation on a queue**: what is held there and by the scheduler is
held by one of the two afterwards. -/
structure Trade (procs procs' : ProcTable Node) (held held' : Node → ℕ) : Prop where
  idleNode : procs'.idleNode = procs.idleNode
  waiting : procs'.waiting = procs.waiting
  orphans : procs'.orphans = procs.orphans
  count : ∀ n, procs'.places.count n + held' n = procs.places.count n + held n

variable {procs procs' procs'' : ProcTable Node} {held held' held'' : Node → ℕ} {p n : Node}
  {q : List Node}

theorem count_places (procs : ProcTable Node) (n : Node) :
    procs.places.count n = procs.onProcessor.count n + procs.ready.count n +
      procs.waiting.count n + procs.delayed.count n := by
  unfold ProcTable.places ProcTable.queued
  rw [List.count_append, List.count_append, List.count_append]
  omega

theorem onProcessor_of_ne (h : procs.running ≠ procs.idleNode) :
    procs.onProcessor = [procs.running] := if_neg h

theorem onProcessor_of_eq (h : procs.running = procs.idleNode) : procs.onProcessor = [] := if_pos h

theorem not_mem_ready (h : n ∉ procs.places) : n ∉ procs.ready := by
  intro hin
  refine h (List.mem_append_right _ ?_)
  unfold ProcTable.queued
  exact List.mem_append_left _ (List.mem_append_left _ hin)

namespace Trade

theorem refl (procs : ProcTable Node) (held : Node → ℕ) : Trade procs procs held held :=
  ⟨rfl, rfl, rfl, fun _ => rfl⟩

theorem trans (h : Trade procs procs' held held') (h' : Trade procs' procs'' held' held'') :
    Trade procs procs'' held held'' where
  idleNode := h'.idleNode.trans h.idleNode
  waiting := h'.waiting.trans h.waiting
  orphans := h'.orphans.trans h.orphans
  count n := (h'.count n).trans (h.count n)

/-- What others hold beside it does not matter. -/
theorem frame (h : Trade procs procs' held held') (all all' : Node → ℕ)
    (hall : ∀ n, all' n + held n = all n + held' n) : Trade procs procs' all all' where
  idleNode := h.idleNode
  waiting := h.waiting
  orphans := h.orphans
  count := by
    intro n
    have := h.count n
    have := hall n
    omega

/-- Idle is in no place after, where it was in none and was not held. -/
theorem idle_not_mem (h : Trade procs procs' held held') (hidle : procs.idleNode ∉ procs.places)
    (hheld : held procs.idleNode = 0) : procs'.idleNode ∉ procs'.places := by
  rw [h.idleNode, ← List.count_eq_zero]
  have := h.count procs.idleNode
  rw [List.count_eq_zero.mpr hidle] at this
  omega

end Trade

/-! ## The functions of `scheduling.c` -/

theorem count_ready (procs : ProcTable Node) (p n : Node) :
    (ready procs p).places.count n = procs.places.count n + [p].count n := by
  rw [count_places, count_places]
  have hfront : (ready procs p).onProcessor = procs.onProcessor := rfl
  rw [hfront]
  unfold ready
  dsimp only
  rw [List.count_append]
  omega

theorem trade_unblockHead (procs : ProcTable Node) (q : List Node) :
    Trade procs (unblockHead procs q).1 (fun n => q.count n)
      fun n => (unblockHead procs q).2.count n := by
  cases q with
  | nil => exact Trade.refl _ _
  | cons p rest =>
    refine ⟨rfl, rfl, rfl, fun n => ?_⟩
    have := count_ready procs p n
    have hsplit : (p :: rest).count n = [p].count n + rest.count n := by
      rw [← List.count_append]
      rfl
    show (ready procs p).places.count n + rest.count n = _
    omega

theorem trade_unblockAll (procs : ProcTable Node) (q : List Node) :
    Trade procs (unblockAll procs q) (fun n => q.count n) fun _ => 0 := by
  induction q generalizing procs with
  | nil => exact Trade.refl _ _
  | cons p rest ih => exact (trade_unblockHead procs (p :: rest)).trans (ih (ready procs p))

/-- **`run_next_ready`** takes the processor from who has it. -/
theorem count_runNextReady (hidle : procs.idleNode ∉ procs.ready) (n : Node) :
    (runNextReady procs).places.count n + procs.onProcessor.count n = procs.places.count n := by
  have hwaiting : (runNextReady procs).waiting = procs.waiting := by
    unfold runNextReady
    split <;> rfl
  have hdelayed : (runNextReady procs).delayed = procs.delayed := by
    unfold runNextReady
    split <;> rfl
  have hready : (runNextReady procs).onProcessor.count n + (runNextReady procs).ready.count n =
      procs.ready.count n := by
    unfold runNextReady
    split
    · rename_i hnil
      rw [onProcessor_of_eq rfl]
      unfold runNext
      dsimp only
      rw [hnil]
      rfl
    · rename_i next rest hcons
      rw [hcons] at hidle
      have hne : next ≠ procs.idleNode := fun h => hidle (h ▸ List.mem_cons_self)
      have hfront : (runNext { procs with ready := rest } next).onProcessor = [next] :=
        onProcessor_of_ne hne
      have hrest : (runNext { procs with ready := rest } next).ready = rest := rfl
      rw [hfront, hrest, hcons, ← List.count_append]
      rfl
  rw [count_places, count_places, hwaiting, hdelayed]
  omega

theorem trade_runNextReady (hidle : procs.idleNode ∉ procs.places) (held : Node → ℕ) :
    Trade procs (runNextReady procs) held fun n => held n + procs.onProcessor.count n := by
  refine ⟨?_, ?_, ?_, fun n => ?_⟩
  · unfold runNextReady
    split <;> rfl
  · unfold runNextReady
    split <;> rfl
  · unfold runNextReady
    split <;> rfl
  · have := count_runNextReady (not_mem_ready hidle) n
    omega

/-- **`block`** moves who is running to the queue. -/
theorem trade_block (hrun : procs.running ≠ procs.idleNode)
    (hidle : procs.idleNode ∉ procs.places) (q : List Node) :
    Trade procs (block procs q).1 (fun n => q.count n) fun n => (block procs q).2.count n := by
  refine (trade_runNextReady hidle fun n => q.count n).trans ⟨rfl, rfl, rfl, fun n => ?_⟩
  rw [block_fst, block_snd, List.count_append, onProcessor_of_ne hrun]

theorem trade_hBlock (hrun : procs.running ≠ procs.idleNode)
    (hidle : procs.idleNode ∉ procs.places) (q : List Node) :
    Trade procs (hBlock procs q).1 (fun n => q.count n) fun n => (hBlock procs q).2.count n := by
  refine (trade_block hrun hidle q).trans ⟨rfl, rfl, rfl, fun n => ?_⟩
  rw [hBlock_fst, hBlock_snd, block_fst, block_snd, List.count_append, List.count_cons,
    List.count_singleton]

end Yalnix
