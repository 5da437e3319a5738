import Yalnix.Machine.Spaces
import Yalnix.Process.Balance
/-!
# No frame is lost, on the whole machine

Events that are no activations touch no page table and no frame, so the
balance of the process machine is the whole machine's: at every moment the
frames in use are the kernel's own and one for each page of a process that
has not been destroyed.
-/

namespace Yalnix

namespace Machine

variable {Node Addr : Type} [Paging] [Devices] [DecidableEq Node] [DecidableEq Addr]

variable {m t u : Machine Node Addr} {e : Event Node Addr} {es : List (Event Node Addr)}
  {b : Boot Node Addr} {own : Set ℤ}

/-- **What one event does to the frames.** -/
theorem balanced_step (hf : m.Framed) (hbalanced : m.kernel.Balanced own) (hfit : m.Provided e)
    (h : m.step e = some t) : t.kernel.Balanced own := by
  rcases step_kernel hf.sound h with ⟨c, kin, act, k', -, -, he, -, hstep, rfl⟩ | hquiet
  · obtain ⟨hforks, hlinked⟩ := hfit.act he
    exact Yalnix.balanced_step hbalanced hf.owned hf.imaged hf.sound.kindred hlinked.inDomain
      hforks hstep
  · refine hbalanced.of_body hquiet.body ?_
    rcases hquiet.stored with ⟨hmem, -⟩ | ⟨c, addr, bytes, -, hmem, -⟩
    · rw [hmem]
    · rw [hmem, storeBytes_frames]

/-- **No frame is lost.** In every state a run reaches, a frame is in use if
and only if it is the kernel's own or some page of a process not yet
destroyed holds it, and then only one of these; so the allocator counts the
kernel's frames, and one for each page. -/
theorem frames_balanced (hb : start b = some m) (hlinked : b.env.Linked) (hboot : BootFits b)
    (hrun : Run.exec step m es = some u) (hfits : Run.Along step Provided m es) :
    (∀ x, x ∈ u.kernel.mem.frames.used ↔
      x ∈ b.kernelFrames ∨ ∃ e, (u.kernel.pte e).valid = true ∧ (u.kernel.pte e).pfn = x) ∧
    (∀ e, (u.kernel.pte e).valid = true → (u.kernel.pte e).pfn ∉ b.kernelFrames) ∧
    u.kernel.mem.frames.filled =
      b.kernelFrames.ncard + {e | (u.kernel.pte e).valid = true}.ncard := by
  have hstart : m.kernel.Balanced b.kernelFrames := by
    obtain ⟨k, hk, rfl⟩ := Option.map_eq_some_iff.mp hb
    exact kernelStart_balanced (fun li hli => (hlinked.info li hli).toWellFormed) hk hboot
  have hall := Run.throughout_of_along (D := fun _ => True)
    (I := fun s : Machine Node Addr => s.Framed ∧ s.kernel.Balanced b.kernelFrames)
    (fun s e t hs _ hok ht => ⟨framed_step hs.1 hok ht, balanced_step hs.1 hs.2 hok ht⟩)
    (fun _ _ => trivial) ⟨start_framed hb hlinked hboot, hstart⟩ hfits
  obtain ⟨hf, ⟨hacc, -⟩⟩ := hall.final hrun
  refine ⟨fun x => ⟨hacc.covers x, ?_⟩, hacc.apart, hacc.filled_eq hf.owned.ok⟩
  rintro (ho | ⟨e, he, rfl⟩)
  · exact hacc.others_used x ho
  · exact hacc.used e he

omit [Paging] [Devices] in
/-- A child is forked, and exits. -/
theorem frames_balanced_exited :
    let _ := yalnixPaging
    let _ := yalnixDevices
    ∃ m u : Machine ℕ ℕ, start (smallBoot 140) = some m ∧
      Run.exec step m [.call (.proc (.fork 2 2 2)), .clock, .call (.proc (.exit 0))] = some u ∧
      (∀ x, x ∈ u.kernel.mem.frames.used ↔ x ∈ (smallBoot 140).kernelFrames ∨
        ∃ e, (u.kernel.pte e).valid = true ∧ (u.kernel.pte e).pfn = x) ∧
      (∀ e, (u.kernel.pte e).valid = true →
        (u.kernel.pte e).pfn ∉ (smallBoot 140).kernelFrames) ∧
      u.kernel.mem.frames.filled =
        (smallBoot 140).kernelFrames.ncard + {e | (u.kernel.pte e).valid = true}.ncard := by
  let _ := yalnixPaging
  let _ := yalnixDevices
  have hruns : ((start (smallBoot 140)).bind fun m : Machine ℕ ℕ =>
      (m.step (.call (.proc (.fork 2 2 2)))).bind fun m₁ => (m₁.step .clock).bind fun m₂ =>
        (m₂.step (.call (.proc (.exit 0)))).bind fun _ => m.kernel.curr.map fun c =>
          decide (c.userpt.count + numKstackPages ≤ framesLeft m.kernel.mem.frames)) =
      some true := by
    decide +kernel
  obtain ⟨m, hm, hruns⟩ := Option.bind_eq_some_iff.mp hruns
  obtain ⟨m₁, hm₁, hruns⟩ := Option.bind_eq_some_iff.mp hruns
  obtain ⟨m₂, hm₂, hruns⟩ := Option.bind_eq_some_iff.mp hruns
  obtain ⟨u, hu, hruns⟩ := Option.bind_eq_some_iff.mp hruns
  obtain ⟨c, hc, hleft⟩ := Option.map_eq_some_iff.mp hruns
  have hrun : Run.exec step m
      [.call (.proc (.fork 2 2 2)), .clock, .call (.proc (.exit 0))] = some u :=
    Run.exec_cons.mpr ⟨m₁, hm₁, Run.exec_cons.mpr ⟨m₂, hm₂, Run.exec_singleton.trans hu⟩⟩
  have hfits : Run.Along step Provided m
      [.call (.proc (.fork 2 2 2)), .clock, .call (.proc (.exit 0))] :=
    (Run.along_cons hm₁).mpr ⟨provided_fork hc (of_decide_eq_true hleft), Run.along_of_forall (by
      simp [provided_clock, provided_exit])⟩
  exact ⟨m, u, hm, hrun, frames_balanced hm onePage_linked bootFits_smallBoot hrun hfits⟩

end Machine

end Yalnix
