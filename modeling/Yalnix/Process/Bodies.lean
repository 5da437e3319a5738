import Yalnix.Process.Frames
/-!
# What a process is made of

Whether a process lives, its two page tables and how it came by its memory
are its body. The walks of the kernel over lists of processes store links
and codes, and leave the bodies as they are.
-/

namespace Yalnix

open Paging

variable {Node Addr : Type} {k k' : Kernel Node Addr} {n : Node}

/-- Of a process, whether it lives, its two page tables, and how it came by
its memory. -/
def Kernel.body (k : Kernel Node Addr) (n : Node) : Option (Bool × UserPt × (ℤ → Pte) × Bool) :=
  (k.proc n).map fun c => (c.kin.isSome, c.userpt, c.kstack, c.inherited)

theorem pte_of_body (h : k'.body = k.body) : k'.pte = k.pte := by
  have hmap : ∀ (n : Node) (f : Bool × UserPt × (ℤ → Pte) × Bool → Pte),
      (k'.proc n).map (fun c => f (c.kin.isSome, c.userpt, c.kstack, c.inherited)) =
        (k.proc n).map fun c => f (c.kin.isSome, c.userpt, c.kstack, c.inherited) := by
    intro n f
    have hn := congrArg (Option.map f) (congrFun h n)
    unfold Kernel.body at hn
    rwa [Option.map_map, Option.map_map] at hn
  funext e
  cases e with
  | user n i => exact congrArg (Option.getD · invalidPte) (hmap n fun x => x.2.1.pt i)
  | kstack n i => exact congrArg (Option.getD · invalidPte) (hmap n fun x => x.2.2.1 i)

theorem body_forth {c : Proc Node Addr} (h : k'.body = k.body) (hc : k'.proc n = some c) :
    ∃ c₀, k.proc n = some c₀ ∧ c₀.kin.isSome = c.kin.isSome ∧ c₀.userpt = c.userpt ∧
      c₀.kstack = c.kstack ∧ c₀.inherited = c.inherited := by
  have hn : k.body n = some (c.kin.isSome, c.userpt, c.kstack, c.inherited) := by
    rw [← congrFun h n]
    unfold Kernel.body
    rw [hc]
    rfl
  obtain ⟨c₀, hc₀, heq⟩ := Option.map_eq_some_iff.mp hn
  simp only [Prod.mk.injEq] at heq
  exact ⟨c₀, hc₀, heq⟩

variable [DecidableEq Node]

/-- A store to another field of a process. -/
theorem body_modify {f : Proc Node Addr → Proc Node Addr}
    (hf : ∀ c, (f c).kin.isSome = c.kin.isSome ∧ (f c).userpt = c.userpt ∧ (f c).kstack = c.kstack ∧
      (f c).inherited = c.inherited) : (k.modify n f).body = k.body := by
  funext p
  unfold Kernel.body
  rcases eq_or_ne p n with rfl | hne
  · unfold Kernel.modify
    dsimp only
    rw [Function.update_self, Option.map_map]
    refine congrFun (congrArg _ (funext fun c => ?_)) _
    obtain ⟨hkin, huserpt, hkstack, hinherited⟩ := hf c
    show ((f c).kin.isSome, (f c).userpt, (f c).kstack, (f c).inherited) = _
    rw [hkin, huserpt, hkstack, hinherited]
  · rw [modify_of_ne hne]

/-- A process that is stored with the body it had. -/
theorem body_set {c c' : Proc Node Addr} (mem : Memory) (hc : k.proc n = some c)
    (hkin : c'.kin.isSome = c.kin.isSome) (huserpt : c'.userpt = c.userpt)
    (hkstack : c'.kstack = c.kstack) (hinherited : c'.inherited = c.inherited) :
    (k.set n c' mem).body = k.body := by
  funext p
  unfold Kernel.body Kernel.set
  dsimp only
  rcases eq_or_ne p n with rfl | hne
  · rw [Function.update_self, hc]
    dsimp only [Option.map_some]
    rw [hkin, huserpt, hkstack, hinherited]
  · rw [Function.update_of_ne hne]

theorem body_orphanAll (addrs : List Addr) : (orphanAll addrs k).body = k.body := by
  induction addrs generalizing k with
  | nil => rfl
  | cons curr rest ih =>
    rw [orphanAll, ih]
    cases k.pcbAt curr with
    | none => rfl
    | some n => exact body_modify fun _ => ⟨rfl, rfl, rfl, rfl⟩

theorem body_graveyard : (graveyard k).body = k.body := by
  unfold graveyard
  dsimp only
  cases k.curr.bind Proc.parent with
  | none => rfl
  | some parent => exact body_modify fun c => ⟨by cases c.kin <;> rfl, rfl, rfl, rfl⟩

variable [Paging]

omit [DecidableEq Node] in
theorem Kernel.Owned.of_body (h : k.Owned) (hbody : k'.body = k.body)
    (hf : k'.mem.frames = k.mem.frames) : k'.Owned :=
  ⟨hf ▸ h.ok, hf ▸ h.size_nonneg, by rw [hf, pte_of_body hbody]; exact h.held, hf ▸ h.strays⟩

omit [DecidableEq Node] in
theorem Kernel.Imaged.of_body (h : k.Imaged) (hbody : k'.body = k.body)
    (hidle : k'.procs.idleNode = k.procs.idleNode) : k'.Imaged := by
  intro n c hc halive hn
  obtain ⟨c₀, hc₀, hlives, huserpt, -, hinherited⟩ := body_forth hbody hc
  rw [hidle] at hn
  rw [← huserpt, ← hinherited]
  exact h n c₀ hc₀ (by rw [hlives]; exact halive) hn

end Yalnix
