import Yalnix.Common.Counts
import Yalnix.Pilocvario.Pipe.Invariant
/-!
# Who uses a pipe

A process inside `read_pipe` or `write_pipe` sleeps on one of the two queues
or was taken off it and counts as `unfulfilled` until it comes back. Either
function keeps this account: its caller goes to sleep inside, or returns and
has everybody on the other queue woken.
-/

namespace Yalnix

variable {Node : Type} {pipe : Pipe Node} {inside : Set Node}

/-- Who sleeps on a pipe. -/
def Pipe.asleep (pipe : Pipe Node) : List Node := pipe.readblocked ++ pipe.writeblocked

/-- **The account of a pipe**, of the processes inside a call on it. -/
def Pipe.Accounts (pipe : Pipe Node) (inside : Set Node) : Prop :=
  Accounted inside pipe.asleep pipe.unfulfilled

theorem accounts_newPipe [Devices] : (newPipe : Pipe Node).Accounts ∅ := Accounted.empty

/-- The count, by the two queues. -/
theorem Pipe.Accounts.counts (h : pipe.Accounts inside) :
    Counts pipe.unfulfilled
      {p | p ∈ inside ∧ p ∉ pipe.readblocked ∧ p ∉ pipe.writeblocked} := by
  have hset : {p | p ∈ inside ∧ p ∉ pipe.readblocked ∧ p ∉ pipe.writeblocked} =
      inside \ {p | p ∈ pipe.asleep} := by
    ext p
    unfold Pipe.asleep
    rw [Set.mem_sdiff, Set.mem_ofPred_eq, Set.mem_ofPred_eq, List.mem_append, not_or]
  rw [hset]
  exact Accounted.counts h

/-- **Empty queues and nobody counted** is nobody inside. -/
theorem Pipe.Accounts.eq_empty (h : pipe.Accounts inside) (hread : pipe.readblocked = [])
    (hwrite : pipe.writeblocked = []) (hunfulfilled : pipe.unfulfilled ≤ 0) : inside = ∅ := by
  unfold Pipe.Accounts Pipe.asleep at h
  rw [hread, hwrite] at h
  exact Accounted.eq_empty h hunfulfilled

variable {procs : ProcTable Node}

/-- **`read_pipe`**, by a process that is not yet inside. -/
theorem Pipe.Accounts.readPipe (h : pipe.Accounts inside) (hout : procs.running ∉ inside)
    (len : ℤ) :
    (∃ len', (readPipe procs pipe len).2.2.2 = .blocked len' ∧
      (readPipe procs pipe len).2.1.Accounts (insert procs.running inside)) ∨
    ∃ r, (readPipe procs pipe len).2.2.2 = .returned r ∧
      (readPipe procs pipe len).2.1.Accounts inside := by
  by_cases hzero : min pipe.buffer.filled len = 0
  · left
    rw [readPipe_blocked hzero]
    refine ⟨len, rfl, Accounted.sleep h hout ?_⟩
    unfold Pipe.asleep
    dsimp only
    rw [List.append_assoc, List.singleton_append]
    exact List.perm_middle
  · right
    rw [readPipe_returned hzero]
    refine ⟨_, rfl, Accounted.wake h ?_⟩
    unfold Pipe.asleep
    dsimp only
    rw [List.append_nil]
    exact List.perm_append_comm

/-- **`write_pipe`**, likewise. -/
theorem Pipe.Accounts.writePipe (h : pipe.Accounts inside) (hout : procs.running ∉ inside)
    (f : WriteFrame) :
    (∃ f', (writePipe procs pipe f).2.2 = .blocked f' ∧
      (writePipe procs pipe f).2.1.Accounts (insert procs.running inside)) ∨
    ∃ r, (writePipe procs pipe f).2.2 = .returned r ∧
      (writePipe procs pipe f).2.1.Accounts inside := by
  by_cases hfull : min pipe.buffer.room f.len < f.lenLeft
  · left
    rw [writePipe_blocked hfull]
    refine ⟨_, rfl, Accounted.sleep h hout ?_⟩
    unfold Pipe.asleep
    dsimp only
    rw [← List.append_assoc]
    exact List.perm_append_singleton _ _
  · right
    rw [writePipe_returned (not_lt.mp hfull)]
    refine ⟨_, rfl, Accounted.wake h ?_⟩
    unfold Pipe.asleep
    exact List.Perm.refl _

/-- A process that was woken comes back, and counts itself off. -/
theorem Pipe.Accounts.back (h : pipe.Accounts inside) {p : Node} (hp : p ∈ inside)
    (hread : p ∉ pipe.readblocked) (hwrite : p ∉ pipe.writeblocked) :
    Pipe.Accounts { pipe with unfulfilled := pipe.unfulfilled - 1 } (inside \ {p}) := by
  refine Accounted.back h hp ?_
  unfold Pipe.asleep
  rw [List.mem_append, not_or]
  exact ⟨hread, hwrite⟩

end Yalnix
