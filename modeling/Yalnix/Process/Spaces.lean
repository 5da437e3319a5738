import Yalnix.Memory.Writes
import Yalnix.Process.Copies
import Yalnix.Process.Statuses
import Yalnix.Process.Stores
/-!
# Address spaces

What a process sees of memory is the bytes at the addresses its page table
maps. Where no two processes share a frame, an activation changes what its
own process sees and nobody else: the stores it makes go through its own
table, and the frames it takes were free. A child starts out seeing what its
parent does.
-/

namespace Yalnix

variable {Node Addr : Type} [Paging]

open Paging

instance (pt : ℤ → Pte) (addr : ℤ) : Decidable (mapped pt addr) :=
  inferInstanceAs (Decidable (_ ∧ _ ∧ _))

/-- **What a process sees**: the byte at each address, where it has one. -/
def Kernel.space (k : Kernel Node Addr) (n : Node) (addr : ℤ) : Option Byte :=
  if mapped (k.table n) addr then some (byteAt k.mem (k.table n) addr) else none

/-- An executable that is linked, in whatever is loaded. -/
def ProcAct.Linked : ProcAct Node Addr → Prop
  | .exec _ _ env => env.Linked
  | _ => True

theorem ProcAct.Linked.inDomain {act : ProcAct Node Addr} (h : act.Linked) : act.InDomain := by
  cases act with
  | exec filename argvec env => exact fun li hli => (h.info li hli).toWellFormed
  | _ => trivial

variable {k k' : Kernel Node Addr} {n : Node} {c : Proc Node Addr} {kin : Kin Node Addr}
  {act : ProcAct Node Addr}

omit [Paging] in
theorem Kernel.table_eq (hc : k.proc n = some c) : k.table n = c.userpt.pt := by
  funext i
  simp [Kernel.table, Kernel.pte, hc]

/-- The same table, and the same bytes in its frames. -/
theorem space_congr {kept : Set ℤ} (htable : k'.table n = k.table n)
    (hkept : ∀ a, mapped (k.table n) a → (pteAt (k.table n) a).pfn ∈ kept)
    (hsame : SameOn kept k.mem k'.mem) : k'.space n = k.space n := by
  funext a
  unfold Kernel.space
  rw [htable]
  split
  · rename_i ha
    exact congrArg some (congrFun (hsame _ (hkept a ha)) _)
  · rfl

/-- The frames a process sees are among the others' of any other process. -/
theorem mem_heldOutside {p : Node} {a : ℤ} (hne : n ≠ p) (ha : mapped (k.table n) a) :
    (pteAt (k.table n) a).pfn ∈ heldOutside k.pte (Slot.user p) := by
  refine ⟨.user n (a / pageSize - basePage1), ?_, ha.2.2, rfl⟩
  rintro ⟨i, heq⟩
  cases heq
  exact hne rfl

/-! ## What an activation stores -/

/-- Where all of a row is writable, it is mapped. -/
theorem mappedTo_of_unwritable {pt : ℤ → Pte} {addr : ℤ} {len : ℕ}
    (h : unwritable pt addr len = []) : MappedTo pt addr (addr + len) := by
  intro a hlo hhi
  have hin : a ∈ bytesAt (fun i => addr + i) len := by
    refine List.mem_map.mpr ⟨(a - addr).toNat, List.mem_range.mpr (by omega), ?_⟩
    show addr + ((a - addr).toNat : ℤ) = a
    omega
  have hw : writable pt a = true := by
    by_contra hno
    have hmem : a ∈ unwritable pt addr len := List.mem_filter.mpr ⟨hin, by simpa using hno⟩
    rw [h] at hmem
    cases hmem
  unfold writable at hw
  simp only [decide_eq_true_eq] at hw
  exact ⟨hw.1, hw.2.1, hw.2.2.1⟩

variable [DecidableEq Node] [DecidableEq Addr]

theorem processTerminate_pmem (rc : ℤ) : (processTerminate k n rc).mem.pmem = k.mem.pmem := by
  rcases alive_or_dead k n with ⟨c, kin, hc, hkin⟩ | hdead
  · rw [processTerminate_eq rc hc hkin]
    have hwalk : (destroyDefunct kin.dChildren (orphanAll kin.aChildren
        (releaseUser k n c rc))).mem.pmem = k.mem.pmem := by
      have horphan : (orphanAll kin.aChildren (releaseUser k n c rc)).mem.pmem = k.mem.pmem := by
        rw [orphanAll_mem]
        rfl
      cases kin.dChildren with
      | nil => exact horphan
      | cons curr rest => exact (processDestroy_pmem _ _).trans horphan
    exact hwalk
  · rw [processTerminate_of_dead rc hdead]

/-- **`KernelExit`** stores nothing. -/
theorem kernelExit_pmem {status : ℤ} (hexit : kernelExit k status = some k') :
    k'.mem.pmem = k.mem.pmem := by
  rw [kernelExit_eq hexit, graveyard_mem, processTerminate_pmem, reapOrphans_pmem]

/-- What a `Fork` that goes through is given, and an `Exec`. -/
def ActFits (k : Kernel Node Addr) (c : Proc Node Addr) : ProcAct Node Addr → Prop
  | .fork _ _ _ => noKernelMemory k (c.userpt.size + 3) = false →
      c.userpt.count + numKstackPages ≤ framesLeft k.mem.frames
  | .exec _ _ env => env.Linked
  | _ => True

/-- The two copies of a `Fork` leave the frames in use alone. -/
theorem sameOn_forked {child : Node} {data : Addr} {pid : ℤ} (h : k.Owned)
    (hc : k.curr = some c) (hleft : c.userpt.count + numKstackPages ≤ framesLeft k.mem.frames) :
    SameOn {x | x ∈ k.mem.frames.used} k.mem (forked k c child data pid).mem := by
  have hk := numKstackPages_pos
  have hcopied := copyUserMem_copied h.ok (fun i _ hv => (h.user hc).used i hv)
    (show (c.userpt.count : ℤ) ≤ framesLeft k.mem.frames by omega)
  have hlen := length_kstackPages
  have hleft' := hcopied.count
  intro x hx
  have hstack : SameOn {x | x ∈ (copyUserMem k.mem c.userpt newUserPt).1.frames.used}
      (copyUserMem k.mem c.userpt newUserPt).1
      (copyKstack (pages 0 numKstackPages) (copyUserMem k.mem c.userpt newUserPt).1
        fun _ => invalidPte).1 :=
    sameOn_copyKstack hcopied.ok (by rw [hlen, hleft']; omega) fun x hx => hx
  obtain ⟨hin, hsame⟩ := hcopied.kept x hx
  exact (hstack x hin).trans hsame

/-- **An activation stores to frames of its own process only**, and to
frames that were free. -/
theorem Effect.sameOn {d b s : ℤ} (h : k.Owned) (hc : k.curr = some c)
    (hl : Layout c.userpt d b s) (heff : Effect k c kin act k')
    (hfits : ActFits k c act) (hmiss : k'.misstored = k.misstored) :
    SameOn (heldOutside k.pte (Slot.user k.procs.running)) k.mem k'.mem := by
  have hown := h.user hc
  have hpmem : k'.mem.pmem = k.mem.pmem →
      SameOn (heldOutside k.pte (Slot.user k.procs.running)) k.mem k'.mem :=
    fun heq x _ => congrFun heq x
  cases heff with
  | forkRefused => exact SameOn.refl _ _
  | forked child data pid hyes =>
    exact (sameOn_forked h hc (hfits hyes)).mono fun x hx => hown.others_used x hx
  | execRefused => exact SameOn.refl _ _
  | loaded filename argvec env args l hl => exact sameOn_loadProgram h.ok hown hfits hl
  | killed filename argvec env args l k' hl hcode hexit =>
    intro x hx
    rw [kernelExit_pmem hexit]
    exact sameOn_loadProgram h.ok hown hfits hl x hx
  | exited status k' hexit => exact hpmem (kernelExit_pmem hexit)
  | waitRefused => exact SameOn.refl _ _
  | asleep => exact SameOn.refl _ _
  | collected act statusPtr child rest childPcb hin hd hchild =>
    have hsplit : (Yalnix.collected k c kin child rest childPcb statusPtr).mem.pmem =
        (if statusPtr ≠ 0 then storeBytes c.userpt.pt (wordBytes childPcb.code) k.mem statusPtr
          else k.mem).pmem := by
      unfold Yalnix.collected
      dsimp only
      rw [reapOrphans_pmem, processDestroy_pmem]
      split <;> rfl
    intro x hx
    show (Yalnix.collected k c kin child rest childPcb statusPtr).mem.pmem x = _
    rw [hsplit]
    split
    · rename_i hne
      have hall : unwritable c.userpt.pt statusPtr 4 = [] := by
        rcases Effect.misstored hc (Effect.collected act statusPtr child rest childPcb hin hd hchild)
          with ⟨-, hno⟩ | ⟨ptr, hptr, hadd⟩
        · exact absurd ⟨hin, by rw [hd]; exact List.cons_ne_nil _ _, hne⟩ (hno statusPtr)
        · obtain rfl := hptr.1.unique hin
          exact List.append_right_eq_self.mp (hadd.symm.trans hmiss)
      exact sameOn_storeBytes hown.avoids (mappedTo_of_unwritable hall) le_rfl
        (by rw [length_wordBytes]) x hx
    · rfl
  | brk addr r hr =>
    refine hpmem ?_
    rcases kernelUserBrk_cases hc hl hr with
      heq | ⟨b', -, -, ⟨-, -, -, heq⟩ | ⟨-, -, heq⟩⟩
    · rw [heq]
    · rw [heq]
      rfl
    · rw [heq]
      rfl
  | fault addr k' hk' =>
    refine hpmem ?_
    rcases trapMemory_cases hc hl hk' with hexit | ⟨s', -, -, -, heq⟩
    · exact kernelExit_pmem hexit
    · rw [heq]
      rfl
  | stored addr byte hw =>
    refine sameOn_storeByte hown.avoids ?_ byte
    unfold writable at hw
    simp only [decide_eq_true_eq] at hw
    exact ⟨hw.1, hw.2.1, hw.2.2.1⟩

/-! ## What an activation shows -/

/-- **Nobody else sees it.** -/
theorem Effect.space_eq {c₀ : Proc Node Addr} {d b s : ℤ} (hk : k.Kindred) (h : k.Owned)
    (hc : k.curr = some c) (hkin : c.kin = some kin) (hl : Layout c.userpt d b s)
    (heff : Effect k c kin act k') (hfits : ActFits k c act) (hmiss : k'.misstored = k.misstored)
    (hn : k.proc n = some c₀) (halive : c₀.kin.isSome) (hne : n ≠ k.procs.running) :
    k'.space n = k.space n := by
  obtain ⟨c', hc', -, huserpt⟩ := heff.keepsUser hk hc hkin hn halive (Or.inl hne)
  refine space_congr ?_ (fun a ha => mem_heldOutside hne ha) (heff.sameOn h hc hl hfits hmiss)
  rw [Kernel.table_eq hc', Kernel.table_eq hn, huserpt]

/-- The parent sees what it saw before. -/
theorem space_forked_parent {child : Node} {data : Addr} {pid : ℤ} (h : k.Owned)
    (hc : k.curr = some c) (hfresh : k.proc child = none)
    (hleft : c.userpt.count + numKstackPages ≤ framesLeft k.mem.frames) :
    (forked k c child data pid).space k.procs.running = k.space k.procs.running := by
  have hne : k.procs.running ≠ child := by
    rintro heq
    rw [← heq, show k.proc k.procs.running = some c from hc] at hfresh
    cases hfresh
  have hparent : (forked k c child data pid).proc k.procs.running = some (parentOf k c data) :=
    (Function.update_of_ne hne _ _).trans (Function.update_self _ _ _)
  have htable : k.table k.procs.running = c.userpt.pt := Kernel.table_eq hc
  refine space_congr ((Kernel.table_eq hparent).trans htable.symm) (fun a ha => ?_)
    (sameOn_forked h hc hleft)
  rw [htable] at ha ⊢
  exact (h.user hc).used _ ha.2.2

/-- **A child sees what its parent sees.** -/
theorem space_forked {child : Node} {data : Addr} {pid : ℤ} (h : k.Owned) (hc : k.curr = some c)
    (hleft : c.userpt.count + numKstackPages ≤ framesLeft k.mem.frames) :
    (forked k c child data pid).space child = k.space k.procs.running := by
  have hk := numKstackPages_pos
  have hlen := length_kstackPages
  have hcopied := copyUserMem_copied h.ok (fun i _ hv => (h.user hc).used i hv)
    (show (c.userpt.count : ℤ) ≤ framesLeft k.mem.frames by omega)
  have hleft' := hcopied.count
  have hstack : SameOn {x | x ∈ (copyUserMem k.mem c.userpt newUserPt).1.frames.used}
      (copyUserMem k.mem c.userpt newUserPt).1 (forked k c child data pid).mem := by
    show SameOn _ _ (kcCopy _ _).1
    exact sameOn_copyKstack hcopied.ok (by rw [hlen, hleft']; omega) fun x hx => hx
  have htable : (forked k c child data pid).table child =
      (copyUserMem k.mem c.userpt newUserPt).2.pt :=
    Kernel.table_eq (c := childOf k c data pid) (Function.update_self _ _ _)
  have hparent : k.table k.procs.running = c.userpt.pt := Kernel.table_eq hc
  funext a
  unfold Kernel.space
  rw [htable, hparent]
  by_cases ha : mapped c.userpt.pt a
  · obtain ⟨hmapped, hbyte⟩ := hcopied.content a ha
    rw [if_pos hmapped, if_pos ha, ← hbyte]
    exact congrArg some (congrFun (hstack _ (hcopied.taken _ hmapped.index.1 hmapped.index.2)) _)
  · have hno : ¬ mapped (copyUserMem k.mem c.userpt newUserPt).2.pt a := by
      intro hno
      exact ha ⟨hno.1, hno.2.1, (hcopied.valid _ hno.index.1).symm.trans hno.index.2⟩
    rw [if_neg hno, if_neg ha]

omit [Paging] [DecidableEq Node] [DecidableEq Addr] in
/-- The small machine loads what is linked. -/
theorem onePage_linked :
    let _ := yalnixPaging
    onePage.Linked := by
  let _ := yalnixPaging
  refine ⟨fun li hli => ?_, fun li bytes hli hbytes => ?_, fun li bytes hli hbytes => ?_⟩
  · obtain rfl := Option.some.inj hli
    exact ⟨onePage_wellFormed _ rfl, by decide, by decide, by decide, by decide, by decide,
      by decide⟩
  · obtain rfl := Option.some.inj hli
    obtain rfl := Option.some.inj hbytes
    decide
  · obtain rfl := Option.some.inj hli
    obtain rfl := Option.some.inj hbytes
    decide

end Yalnix
