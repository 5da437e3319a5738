import Mathlib.Data.List.Nodup
import Yalnix.Pilocvario.Tty.Line
/-!
# Who wakes the writers of a terminal

A writer that leaves its loop wakes the head of the queue, and so does the
trap; nobody else does. The chain holds: behind a sleeping writer there is
a transmission, whose trap will wake the head, or a writer already woken,
which will find the line free and transmit, or leave its loop and wake the
next (`wakeup_underway`).
-/

namespace Yalnix

variable {Node : Type}

namespace OutState

/-- A process taken off the queue that has not yet resumed in `write_tty`. -/
def Woken (s : OutState Node) (p : Node) : Prop := (s.call p).isSome ∧ p ∉ s.out.blocked

/-- **Behind a sleeping writer a wakeup is under way**: a transmission is
outstanding, or a writer has been woken. -/
def WakeupUnderway (s : OutState Node) : Prop :=
  s.out.blocked ≠ [] → s.out.transmitting = 1 ∨ ∃ p, s.Woken p

/-- **The invariant of the queue**: those on it are inside a call, once
each. -/
structure QueueInv (s : OutState Node) : Prop where
  counted : s.LineCounted
  inside : ∀ p ∈ s.out.blocked, (s.call p).isSome
  nodup : s.out.blocked.Nodup
  underway : s.WakeupUnderway

variable {s t : OutState Node} {e : OutEvent Node} {p : Node} {f : TtyFrame}

theorem queueInv_init [Devices] (procs : ProcTable Node) : (init procs).QueueInv where
  counted := lineCounted_init procs
  inside := fun _ h => absurd h List.not_mem_nil
  nodup := List.nodup_nil
  underway := fun h => absurd rfl h

/-- Who is on the queue `unblock_head` leaves was on it before. -/
theorem unblockHead_sublist (procs : ProcTable Node) (q : List Node) :
    (unblockHead procs q).2.Sublist q := by
  cases q with
  | nil => exact List.Sublist.refl _
  | cons p rest => exact List.sublist_cons_self p rest

/-- **Waking the head leaves a woken writer behind the rest**, whatever call
another process has meanwhile left. -/
theorem underway_unblockHead (hs : s.QueueInv)
    (hcall : ∀ q ∈ s.out.blocked, t.call q = s.call q)
    (hblocked : t.out.blocked = (unblockHead s.procs s.out.blocked).2) : t.WakeupUnderway := by
  intro hne
  cases hq : s.out.blocked with
  | nil => exact absurd (by rw [hblocked, hq]; rfl) hne
  | cons q rest =>
    have hmem : q ∈ s.out.blocked := hq ▸ List.mem_cons_self
    have hnodup := hs.nodup
    rw [hq] at hblocked hnodup
    -- `unblock_head` has taken `q` off the queue
    have hrest : t.out.blocked = rest := hblocked
    refine Or.inr ⟨q, ?_, ?_⟩
    · rw [hcall q hmem]
      exact hs.inside q hmem
    · rw [hrest]
      exact (List.nodup_cons.mp hnodup).1

variable [DecidableEq Node]

/-- **The invariant is kept by every event.** -/
theorem queueInv_step (hs : s.QueueInv) (hd : Accounted e) (h : s.step e = some t) :
    t.QueueInv := by
  have hcounted : t.LineCounted := lineCounted_step hs.counted hd h
  have hbusy : s.out.transmitting ≠ 0 → s.out.transmitting = 1 := fun h0 => by
    have := hs.counted.1
    have := hs.counted.2
    omega
  rcases step_cases h with ⟨p, f, -, hp, rfl⟩ | ⟨-, -, rfl⟩ | ⟨rfl, -⟩
  · have hother : ∀ q ∈ s.out.blocked, q ≠ p := fun q hq heq => hp (heq ▸ hq)
    rcases lt_or_ge f.total f.len with hlt | hge
    · by_cases ht : s.out.transmitting = 0
      · -- the process transmits and sleeps at the head
        rw [run_transmits hlt ht] at hcounted ⊢
        refine ⟨hcounted, fun q hq => ?_, List.nodup_cons.mpr ⟨hp, hs.nodup⟩,
          fun _ => Or.inl rfl⟩
        rcases List.mem_cons.mp hq with rfl | hq
        · simp
        · simpa [Function.update_of_ne (hother q hq)] using hs.inside q hq
      · -- the process queues up behind the transmission
        rw [run_queues hlt ht] at hcounted ⊢
        refine ⟨hcounted, fun q hq => ?_, ?_, fun _ => Or.inl (hbusy ht)⟩
        · rcases List.mem_append.mp hq with hq | hq
          · simpa [Function.update_of_ne (hother q hq)] using hs.inside q hq
          · rw [List.mem_singleton] at hq
            simp [hq]
        · rw [List.nodup_append]
          refine ⟨hs.nodup, List.nodup_singleton p, fun a ha b hb => ?_⟩
          rw [List.mem_singleton] at hb
          exact hb ▸ hother a ha
    · -- the process leaves its loop and wakes the head
      rw [run_returns hge] at hcounted ⊢
      have hsub := unblockHead_sublist (dispatch s.procs p) s.out.blocked
      refine ⟨hcounted, fun q hq => ?_, hs.nodup.sublist hsub, ?_⟩
      · have hq' := hsub.subset hq
        simpa [Function.update_of_ne (hother q hq')] using hs.inside q hq'
      · refine underway_unblockHead hs (fun q hq => ?_) (by cases s.out.blocked <;> rfl)
        exact Function.update_of_ne (hother q hq) _ _
  · -- the trap wakes the head
    have hsub := unblockHead_sublist s.procs s.out.blocked
    exact ⟨hcounted, fun q hq => hs.inside q (hsub.subset hq), hs.nodup.sublist hsub,
      underway_unblockHead hs (fun _ _ => rfl) rfl⟩
  · exact hd.elim

/-- **No wakeup is lost on a terminal's output**, for any number of
processes, any lengths and any interleaving with the traps the
transmissions cause. -/
theorem wakeup_underway [Devices] {procs : ProcTable Node} {es : List (OutEvent Node)}
    (hes : ∀ e ∈ es, Accounted e) : Run.Throughout step WakeupUnderway (init procs) es := by
  have hinv : Run.Throughout step QueueInv (init procs) es :=
    Run.throughout_of_step (fun _ e he _ hs h => queueInv_step hs (hes e he) h)
      (queueInv_init procs)
  exact hinv.mono fun _ hs => hs.underway

/-- A writer asleep behind another's transmission. -/
theorem wakeup_underway_queued :
    let idle : OutState ℕ := @init ℕ yalnixDevices ⟨1, [2], [], [], [], 0⟩
    let es : List (OutEvent ℕ) :=
      [.write 1 (fun _ => 7) 1, .write 2 (fun _ => 8) 3, .trap, .resume 1, .resume 2]
    (Run.exec step idle es).map (fun s => (s.pending, s.out.blocked)) = some ([2], [2]) ∧
      Run.Throughout step WakeupUnderway idle es := by
  intro idle es
  have hruns : (Run.exec step idle es).map (fun s => (s.pending, s.out.blocked)) =
      some ([2], [2]) := by
    decide +kernel
  exact ⟨hruns, @wakeup_underway ℕ _ yalnixDevices _ _ (by simp [es, Accounted])⟩

end OutState

end Yalnix
