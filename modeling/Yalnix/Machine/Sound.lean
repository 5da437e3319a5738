import Yalnix.Machine.Model
import Yalnix.Pilocvario.Places
import Yalnix.Process.Places
/-!
# What one event moves

Every event of the machine is one of three things. A call of
`Process/Model.lean` acts on the kernel alone. `KernelReclaim` takes an
object away. All others trade processes between the scheduler and the
queues of objects, and leave the families as they are. `Machine.Sound` is
what they keep: nobody is in more places than are due to it.
-/

namespace Yalnix

variable {Node Addr : Type}

/-! ## Terminals -/

section Terminals

variable [Devices]

open Devices

/-- A sum over the terminals there are. -/
def ttyTotal (f : ℤ → ℕ) : ℕ := ((List.range numTerminals).map fun i : ℕ => f i).sum

/-- **A store to a terminal** changes the sum by what it changes there. -/
theorem ttyTotal_update (g : Ttyio Node → ℕ) (ttys : ℤ → Ttyio Node) {tty : ℤ} (hlo : 0 ≤ tty)
    (hhi : tty < numTerminals) (x : Ttyio Node) :
    ttyTotal (fun i => g (Function.update ttys tty x i)) + g (ttys tty) =
      ttyTotal (fun i => g (ttys i)) + g x := by
  have hgo : ∀ N : ℕ,
      ((List.range N).map fun i : ℕ => g (Function.update ttys tty x i)).sum +
          (if tty < N then g (ttys tty) else 0) =
        ((List.range N).map fun i : ℕ => g (ttys i)).sum + (if tty < N then g x else 0) := by
    intro N
    induction N with
    | zero =>
      rw [if_neg (by omega), if_neg (by omega)]
      rfl
    | succ N ih =>
      rw [List.range_succ, List.map_append, List.map_append, List.sum_append, List.sum_append,
        List.map_singleton, List.map_singleton, List.sum_singleton, List.sum_singleton]
      rcases lt_trichotomy tty N with hlt | heq | hgt
      · rw [if_pos hlt, if_pos hlt] at ih
        rw [if_pos (by omega), if_pos (by omega), Function.update_of_ne (by omega)]
        omega
      · rw [if_neg (by omega), if_neg (by omega)] at ih
        rw [if_pos (by omega), if_pos (by omega), ← heq, Function.update_self]
        omega
      · rw [if_neg (by omega), if_neg (by omega)] at ih
        rw [if_neg (by omega), if_neg (by omega), Function.update_of_ne (by omega)]
        omega
  have := hgo numTerminals
  rwa [if_pos hhi, if_pos hhi] at this

end Terminals

/-- A call on a terminal that is there. -/
def IoFrame.InRange [Devices] : IoFrame → Prop
  | .pipeRead _ _ _ => True
  | .pipeWrite _ _ => True
  | .ttyRead tty _ _ => 0 ≤ tty ∧ tty < Devices.numTerminals
  | .ttyWrite tty _ => 0 ≤ tty ∧ tty < Devices.numTerminals

/-- **Terminal ids that are not negative.** The others the calls refuse
themselves. -/
def Event.InRange : Event Node Addr → Prop
  | .call (.ttyRead tty _ _) => 0 ≤ tty
  | .call (.ttyWrite tty _ _) => 0 ≤ tty
  | _ => True

variable [DecidableEq Node]

/-- How often a process is on the queues of pipes and terminals. -/
def Io.held [Devices] (io : Io Node) (n : Node) : ℕ :=
  Filed.total (fun p : Pipe Node => p.held n) io.pipe +
    ttyTotal (fun tty => (io.input tty).blocked.count n) +
    ttyTotal (fun tty => (io.out tty).blocked.count n)

namespace Machine

section Seats

variable [Devices] (m : Machine Node Addr) (n : Node)

/-- How often a process is on the queues of objects. -/
def held : ℕ := m.sync.held n + m.io.held n

/-- **How often a process is in any place.** -/
def seats : ℕ := m.kernel.procs.places.count n + m.held n

end Seats

/-- **What every event keeps.** -/
structure Sound [Devices] (m : Machine Node Addr) : Prop where
  kindred : m.kernel.Kindred
  seated : ∀ n, m.seats n ≤ m.kernel.due n
  idle : m.kernel.alive m.kernel.procs.idleNode = true
  frames : ∀ p f, m.io.frame p = some f → f.InRange

/-- **The event trades** processes between the scheduler and objects. -/
structure Trades [Devices] (m t : Machine Node Addr) : Prop where
  proc : t.kernel.family = m.kernel.family
  waits : t.kernel.waits = m.kernel.waits
  trade : Trade m.kernel.procs t.kernel.procs m.held t.held

section Sound

variable [Devices] {m t : Machine Node Addr} {n : Node}

theorem Sound.not_idle (h : m.Sound) : m.seats m.kernel.procs.idleNode = 0 := by
  have := h.seated m.kernel.procs.idleNode
  rw [due_idle] at this
  omega

theorem Sound.idle_not_mem (h : m.Sound) :
    m.kernel.procs.idleNode ∉ m.kernel.procs.places := by
  rw [← List.count_eq_zero]
  have := h.not_idle
  unfold seats at this
  omega

theorem Sound.idle_not_held (h : m.Sound) : m.held m.kernel.procs.idleNode = 0 := by
  have := h.not_idle
  unfold seats at this
  omega

section Running

variable (h : m.Sound) (hrun : m.kernel.procs.running ≠ m.kernel.procs.idleNode)

include h hrun

theorem Sound.seats_running :
    m.seats m.kernel.procs.running = 1 ∧ m.kernel.due m.kernel.procs.running = 1 ∧
      m.kernel.procs.running ∉ m.kernel.procs.queued ∧ m.held m.kernel.procs.running = 0 := by
  have hle := h.seated m.kernel.procs.running
  have hdue := due_le m.kernel m.kernel.procs.running
  have hfront : m.kernel.procs.onProcessor.count m.kernel.procs.running = 1 := by
    rw [onProcessor_of_ne hrun, List.count_singleton_self]
  have hplaces : m.kernel.procs.places.count m.kernel.procs.running =
      m.kernel.procs.onProcessor.count m.kernel.procs.running +
        m.kernel.procs.queued.count m.kernel.procs.running := List.count_append
  unfold seats at hle
  refine ⟨?_, by omega, ?_, by omega⟩
  · unfold seats
    omega
  · rw [← List.count_eq_zero]
    omega

/-- Who is running lives. -/
theorem Sound.running_lives : ∃ c kin, m.kernel.curr = some c ∧ c.kin = some kin := by
  obtain ⟨-, hdue, -⟩ := h.seats_running hrun
  exact alive_iff.mp (alive_of_due (by omega))

theorem Sound.running_not_waiting : m.kernel.procs.running ∉ m.kernel.procs.waiting := by
  obtain ⟨-, -, hnot, -⟩ := h.seats_running hrun
  intro hin
  refine hnot ?_
  unfold ProcTable.queued
  exact List.mem_append_left _ (List.mem_append_right _ hin)

end Running

/-- Who is running lives, idle included. -/
theorem Sound.running_alive (h : m.Sound) : m.kernel.alive m.kernel.procs.running = true := by
  by_cases hrun : m.kernel.procs.running = m.kernel.procs.idleNode
  · rw [hrun]
    exact h.idle
  · obtain ⟨c, kin, hc, hkin⟩ := h.running_lives hrun
    exact alive_iff.mpr ⟨c, kin, hc, hkin⟩

/-- Whoever is running does not wait to run. -/
theorem Sound.running_not_ready (h : m.Sound) :
    m.kernel.procs.running ∉ m.kernel.procs.ready := by
  by_cases hrun : m.kernel.procs.running = m.kernel.procs.idleNode
  · rw [hrun]
    exact not_mem_ready h.idle_not_mem
  · obtain ⟨-, -, hqueued, -⟩ := h.seats_running hrun
    intro hin
    refine hqueued ?_
    unfold ProcTable.queued
    exact List.mem_append_left _ (List.mem_append_left _ hin)

/-- **A trade keeps the law.** -/
theorem Sound.trades (h : m.Sound) (hframes : ∀ p f, t.io.frame p = some f → f.InRange)
    (ht : m.Trades t) : t.Sound := by
  have hdue : ∀ n, t.kernel.due n = m.kernel.due n :=
    fun n => due_congr (alive_congr ht.proc n) ht.trade.idleNode
  refine ⟨h.kindred.congr ht.proc ht.trade.orphans ht.trade.waiting ht.waits, fun n => ?_, ?_,
    hframes⟩
  · have := ht.trade.count n
    have := h.seated n
    rw [hdue]
    unfold seats at *
    omega
  · rw [alive_congr ht.proc, ht.trade.idleNode]
    exact h.idle

/-- So does taking objects away. -/
theorem Sound.fewer (h : m.Sound) (hkernel : t.kernel = m.kernel)
    (hframe : t.io.frame = m.io.frame) (hheld : ∀ n, t.held n ≤ m.held n) : t.Sound := by
  refine ⟨hkernel ▸ h.kindred, fun n => ?_, ?_, ?_⟩
  · have := hheld n
    have := h.seated n
    unfold seats at *
    rw [hkernel]
    omega
  · rw [hkernel]
    exact h.idle
  · rw [hframe]
    exact h.frames

/-- Who is running is on the queue of no object. -/
theorem Sound.running_not_held (h : m.Sound) : m.held m.kernel.procs.running = 0 := by
  by_cases hrun : m.kernel.procs.running = m.kernel.procs.idleNode
  · rw [hrun]
    exact h.idle_not_held
  · exact (h.seats_running hrun).2.2.2

theorem Sound.running_not_synced (h : m.Sound) : m.sync.held m.kernel.procs.running = 0 := by
  have := h.running_not_held
  unfold Machine.held at this
  omega

end Sound

end Machine

end Yalnix
