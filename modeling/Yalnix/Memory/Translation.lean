import Yalnix.Common.Tlb
import Yalnix.Memory.Image
/-!
# Stores to page tables, and flushes

What the loops of `memory.c`, `load.c` and `cswitch.c` do to the translations
in use, in the order they do it: the `set_pte`s of entries the hardware goes
by, the writes to `REG_TLB_FLUSH` and `REG_PTBR1`, and the accesses to the
pages concerned in between. Each list of operations is read off the loop
beside it, leaves the table the loop leaves, and is checked once
(`Tlb.Leaves`).
-/

namespace Yalnix

/-- The pages whose entries change while processes run: region 1, the kernel
stack, and the scratch page below it. -/
inductive Vpage where
  | user (i : ℤ)
  | kstack (i : ℤ)
  | scratch
  deriving DecidableEq

/-- What the hardware makes of an entry. -/
def Pte.entry (pte : Pte) : Option (ℤ × ℕ) :=
  if pte.valid then some (pte.pfn, pte.prot) else none

/-- An operation on translations. -/
abbrev TlbOp := Tlb.Op Vpage (ℤ × ℕ)

/-- What `TLB_FLUSH_1` flushes. -/
def tlbFlush1 : Set Vpage := {p | ∃ i, p = .user i}

/-- What `TLB_FLUSH_KSTACK` flushes. -/
def tlbFlushKstack : Set Vpage := {p | ∃ i, p = .kstack i}

/-- The entry of a page of region 1, of a table. -/
def userEntry (pt : ℤ → Pte) : Vpage → Option (ℤ × ℕ)
  | .user i => (pt i).entry
  | _ => none

variable [Paging]

open Paging

/-! ## The loops -/

/-- `mapPages`, where each page is followed by `after`. -/
def mapOps (prot : ℕ) (after : ℤ → List TlbOp) : List ℤ → FreeFrame → (ℤ → Pte) → List TlbOp
  | [], _, _ => []
  | i :: is, free, pt =>
    let (free, pt) := mapPage prot free pt i
    .set (.user i) (pt i).entry :: (after i ++ mapOps prot after is free pt)

/-- `unmapPages`, the same. -/
def unmapOps (after : ℤ → List TlbOp) : List ℤ → FreeFrame → (ℤ → Pte) → List TlbOp
  | [], _, _ => []
  | i :: is, free, pt =>
    let (free, pt) := unmapPage free pt i
    .set (.user i) (pt i).entry :: (after i ++ unmapOps after is free pt)

/-- `unmapValid`, for `destroy_usermem`, which flushes nothing. -/
def unmapValidOps : List ℤ → FreeFrame → (ℤ → Pte) → List TlbOp
  | [], _, _ => []
  | i :: is, free, pt =>
    if (pt i).valid then
      let (free, pt) := unmapPage free pt i
      .set (.user i) (pt i).entry :: unmapValidOps is free pt
    else unmapValidOps is free pt

/-- `protectText`. -/
def protectOps (after : ℤ → List TlbOp) : List ℤ → (ℤ → Pte) → List TlbOp
  | [], _ => []
  | i :: is, pt =>
    let pt := Function.update pt i { pt i with prot := protRead ||| protExec }
    .set (.user i) (pt i).entry :: (after i ++ protectOps after is pt)

/-- `WriteRegister(REG_TLB_FLUSH, vpn << PAGESHIFT)`. -/
def flushPage (i : ℤ) : List TlbOp := [.flush {.user i}]

/-- No flush. -/
def flushNone (_ : ℤ) : List TlbOp := []

/-- `destroy_usermem`. -/
def destroyUsermemOps (free : FreeFrame) (userpt : UserPt) : List TlbOp :=
  unmapValidOps (pages 0 numPages1) free userpt.pt

/-- One turn of the loops that copy pages: the scratch page is mapped,
flushed and written, and the page `origin` maps is read. -/
def copyPageOps (mem : Memory) (origin : Pte) (p : Vpage) : List TlbOp :=
  [.set .scratch (copyPage mem origin).2.entry, .flush {.scratch}, .use {p, .scratch}]

/-- The scratch page is given up. -/
def scratchOps : List TlbOp := [.set .scratch none, .flush {.scratch}]

/-- The loop of `copy_user_mem`. -/
def copyValidOps (origin : ℤ → Pte) : List ℤ → Memory → List TlbOp
  | [], _ => []
  | i :: is, mem =>
    if (origin i).valid then
      copyPageOps mem (origin i) (.user i) ++
        copyValidOps origin is (copyPage mem (origin i)).1
    else copyValidOps origin is mem

/-- `copy_user_mem`. -/
def copyUserMemOps (mem : Memory) (origin : UserPt) : List TlbOp :=
  copyValidOps origin.pt (pages 0 numPages1) mem ++ scratchOps

/-- The loop of `KCCopy`. -/
def copyKstackOps : List ℤ → Memory → List TlbOp
  | [], _ => []
  | i :: is, mem =>
    copyPageOps mem (mem.kernelStack i) (.kstack i) ++
      copyKstackOps is (copyPage mem (mem.kernelStack i)).1

/-- `KCCopy`. -/
def kcCopyOps (mem : Memory) : List TlbOp :=
  copyKstackOps (pages 0 numKstackPages) mem ++ scratchOps

/-- `mapSegments`. -/
def mapSegmentsOps (free : FreeFrame) (pt : ℤ → Pte) (li : LoadInfo) (stackNpg : ℤ) :
    List TlbOp :=
  let text := pages li.textPg1 (li.textPg1 + li.tNpg)
  let data := pages li.dataPg1 (li.dataPg1 + li.dataNpg)
  let stack := (pages (maxPtLen - stackNpg) maxPtLen).reverse
  let (free₁, pt₁) := mapPages (protRead ||| protWrite) text free pt
  let (free₂, pt₂) := mapPages (protRead ||| protWrite) data free₁ pt₁
  mapOps (protRead ||| protWrite) flushNone text free pt ++
    (mapOps (protRead ||| protWrite) flushNone data free₁ pt₁ ++
      mapOps (protRead ||| protWrite) flushNone stack free₂ pt₂)

/-- `LoadProgram`, from the release of the old memory on. The program and its
arguments are written to region 1 after the flush, the text before its pages
are protected. -/
def loadSegmentsOps (free : FreeFrame) (userpt : UserPt) (args : List (List Byte)) (env : LoadEnv)
    (li : LoadInfo) : List TlbOp :=
  let r := destroyUsermem free userpt
  destroyUsermemOps free userpt ++
    if framesLeft r.1 < li.tNpg + li.dataNpg + stackNpg args then []
    else
      mapSegmentsOps r.1 r.2.pt li (stackNpg args) ++ ([.flush tlbFlush1, .use tlbFlush1] ++
        if (env.text.map fun bytes => (bytes.length : ℤ)) ≠ some (li.tNpg * pageSize) then []
        else if (env.data.map fun bytes => (bytes.length : ℤ)) ≠ some (li.idNpg * pageSize) then []
        else
          protectOps flushPage (pages li.textPg1 (li.textPg1 + li.tNpg))
            (mapSegments r.1 r.2.pt li (stackNpg args)).2 ++ [.use tlbFlush1])

/-- `LoadProgram`. -/
def loadProgramOps (free : FreeFrame) (userpt : UserPt) (args : List (List Byte)) (env : LoadEnv) :
    List TlbOp :=
  if ¬ env.opens then []
  else
    match env.info with
    | none => []
    | some li =>
      if li.entry < vmem1Base then []
      else if maxPtLen ≤ stackNpg args + li.dataPg1 + li.dataNpg then []
      else if ¬ env.malloc then []
      else loadSegmentsOps free userpt args env li

/-- `KCSwitch`, store by store, to a process with this page table and this
kernel stack. -/
def kcSwitchOps (pt kstack : ℤ → Pte) : List TlbOp :=
  (pages 0 numKstackPages).map (fun i => .set (.kstack i) (kstack i).entry) ++
    [.flush tlbFlushKstack, .point tlbFlush1 (userEntry pt), .flush tlbFlush1]

/-! ## What they do to the table -/

/-- **The table in use** is a page table and a kernel stack. -/
structure Views (pt kstack : ℤ → Pte) (T : Vpage → Option (ℤ × ℕ)) : Prop where
  user : ∀ i, T (.user i) = (pt i).entry
  kstack : ∀ i, 0 ≤ i → i < numKstackPages → T (.kstack i) = (kstack i).entry

section Table

variable {pt kstack : ℤ → Pte} {T : Vpage → Option (ℤ × ℕ)} {free : FreeFrame}
  {after : ℤ → List TlbOp} {prot : ℕ}

/-- A store to an entry of region 1. -/
theorem Views.set (h : Views pt kstack T) (i : ℤ) (pte : Pte) :
    Views (Function.update pt i pte) kstack
      ((Tlb.Op.set (.user i) (Function.update pt i pte i).entry : TlbOp).table T) := by
  refine ⟨fun j => ?_, fun j hlo hhi => ?_⟩
  · rcases eq_or_ne j i with rfl | hne
    · rw [Tlb.Op.table_set_self]
    · rw [Tlb.Op.table_set_of_ne _ _ fun heq => hne (Vpage.user.inj heq),
        Function.update_of_ne hne]
      exact h.user j
  · rw [Tlb.Op.table_set_of_ne _ _ fun heq => by cases heq]
    exact h.kstack j hlo hhi

/-- **What follows each store of a loop**, where the cache may be wrong about
`D` from before: it leaves the table alone, and the store checks. -/
structure Trails (D : Set Vpage) (after : ℤ → List TlbOp) : Prop where
  table : ∀ i T, Tlb.tableAfter T (after i) = T
  tidy : ∀ i e, Tlb.Tidy tlbFlushKstack D (.set (.user i) e :: after i) D

omit [Paging] in
theorem user_not_kstack (i : ℤ) : Vpage.user i ∉ tlbFlushKstack := by
  rintro ⟨j, hj⟩
  cases hj

omit [Paging] in
/-- Each store is followed by the flush of its page. -/
theorem trails_flushPage {D : Set Vpage} : Trails D flushPage :=
  ⟨fun _ _ => rfl, fun i _ => Tlb.Tidy.set_flush (user_not_kstack i)⟩

omit [Paging] in
/-- Region 1 is flushed later. -/
theorem trails_flushNone {D : Set Vpage} (h : tlbFlush1 ⊆ D) : Trails D flushNone :=
  ⟨fun _ _ => rfl, fun i _ => Tlb.Tidy.set (h ⟨i, rfl⟩) (user_not_kstack i)⟩

variable {D : Set Vpage}

omit [Paging] in
/-- A store, what follows it, and the rest of a loop. -/
theorem Trails.tableAfter_cons (h : Trails D after) (op : TlbOp) (i : ℤ) (ops : List TlbOp) :
    Tlb.tableAfter T (op :: (after i ++ ops)) = Tlb.tableAfter (op.table T) ops := by
  show Tlb.tableAfter (op.table T) (after i ++ ops) = _
  rw [Tlb.tableAfter_append, h.table]

/-- **The list is the loop**: it leaves the table that the loop leaves. -/
theorem Views.mapOps (hafter : Trails D after) (l : List ℤ) (h : Views pt kstack T) :
    Views (mapPages prot l free pt).2 kstack (Tlb.tableAfter T (mapOps prot after l free pt)) := by
  induction l generalizing T free pt with
  | nil => exact h
  | cons i rest ih =>
    unfold Yalnix.mapOps
    dsimp only
    rw [hafter.tableAfter_cons]
    exact ih (h.set i _)

/-- And it checks, one store after the other. -/
theorem tidy_mapOps (hafter : Trails D after) (l : List ℤ) :
    Tlb.Tidy tlbFlushKstack D (mapOps prot after l free pt) D := by
  induction l generalizing free pt with
  | nil => exact Tlb.Tidy.nil subset_rfl
  | cons i rest ih => exact (hafter.tidy i _).append ih

theorem Views.unmapOps (hafter : Trails D after) (l : List ℤ) (h : Views pt kstack T) :
    Views (unmapPages l free pt).2 kstack (Tlb.tableAfter T (unmapOps after l free pt)) := by
  induction l generalizing T free pt with
  | nil => exact h
  | cons i rest ih =>
    unfold Yalnix.unmapOps
    dsimp only
    rw [hafter.tableAfter_cons]
    exact ih (h.set i _)

theorem tidy_unmapOps (hafter : Trails D after) (l : List ℤ) :
    Tlb.Tidy tlbFlushKstack D (unmapOps after l free pt) D := by
  induction l generalizing free pt with
  | nil => exact Tlb.Tidy.nil subset_rfl
  | cons i rest ih => exact (hafter.tidy i _).append ih

theorem Views.unmapValidOps (h : Views pt kstack T) (l : List ℤ) (free : FreeFrame) :
    Views (unmapValid l free pt).2 kstack (Tlb.tableAfter T (unmapValidOps l free pt)) := by
  induction l generalizing T free pt with
  | nil => exact h
  | cons i rest ih =>
    unfold Yalnix.unmapValidOps unmapValid
    by_cases hvalid : (pt i).valid
    · rw [if_pos hvalid, if_pos hvalid]
      exact ih (h.set i _) _
    · rw [if_neg hvalid, if_neg hvalid]
      exact ih h free

theorem tidy_destroyUsermemOps (userpt : UserPt) :
    Tlb.Tidy tlbFlushKstack tlbFlush1 (destroyUsermemOps free userpt) tlbFlush1 := by
  have hgo : ∀ (l : List ℤ) (free : FreeFrame) (pt : ℤ → Pte),
      Tlb.Tidy tlbFlushKstack tlbFlush1 (unmapValidOps l free pt) tlbFlush1 := by
    intro l
    induction l with
    | nil => exact fun _ _ => Tlb.Tidy.nil subset_rfl
    | cons i rest ih =>
      intro free pt
      unfold Yalnix.unmapValidOps
      split
      · exact ((trails_flushNone subset_rfl).tidy i _).append (ih _ _)
      · exact ih free pt
  exact hgo _ _ _

theorem Views.protectOps (hafter : Trails D after) (l : List ℤ) (h : Views pt kstack T) :
    Views (protectText l pt) kstack (Tlb.tableAfter T (protectOps after l pt)) := by
  induction l generalizing T pt with
  | nil => exact h
  | cons i rest ih =>
    unfold Yalnix.protectOps
    dsimp only
    rw [hafter.tableAfter_cons]
    exact ih (h.set i _)

omit [Paging] in
theorem tidy_protectOps (hafter : Trails D after) (l : List ℤ) :
    Tlb.Tidy tlbFlushKstack D (protectOps after l pt) D := by
  induction l generalizing pt with
  | nil => exact Tlb.Tidy.nil subset_rfl
  | cons i rest ih => exact (hafter.tidy i _).append ih

end Table

/-! ## Through the scratch page -/

section Scratch

variable {pt kstack : ℤ → Pte} {T : Vpage → Option (ℤ × ℕ)}

omit [Paging] in
theorem scratch_not_spared : Vpage.scratch ∉ {p : Vpage | p ≠ .scratch} := fun h => h rfl

theorem tidy_copyPageOps (mem : Memory) (origin : Pte) (p : Vpage) :
    Tlb.Tidy {p | p ≠ .scratch} ∅ (copyPageOps mem origin p) ∅ :=
  (Tlb.Tidy.set_flush scratch_not_spared).append (Tlb.Tidy.use (Set.disjoint_empty _))

omit [Paging] in
theorem tidy_scratchOps : Tlb.Tidy {p | p ≠ .scratch} ∅ scratchOps ∅ :=
  Tlb.Tidy.set_flush scratch_not_spared

theorem tidy_copyUserMemOps (mem : Memory) (origin : UserPt) :
    Tlb.Tidy {p | p ≠ .scratch} ∅ (copyUserMemOps mem origin) ∅ := by
  have hgo : ∀ (l : List ℤ) (mem : Memory),
      Tlb.Tidy {p | p ≠ .scratch} ∅ (copyValidOps origin.pt l mem) ∅ := by
    intro l
    induction l with
    | nil => exact fun _ => Tlb.Tidy.nil subset_rfl
    | cons i rest ih =>
      intro mem
      unfold copyValidOps
      split
      · exact (tidy_copyPageOps _ _ _).append (ih _)
      · exact ih mem
  exact (hgo _ _).append tidy_scratchOps

theorem tidy_kcCopyOps (mem : Memory) : Tlb.Tidy {p | p ≠ .scratch} ∅ (kcCopyOps mem) ∅ := by
  have hgo : ∀ (l : List ℤ) (mem : Memory),
      Tlb.Tidy {p | p ≠ .scratch} ∅ (copyKstackOps l mem) ∅ := by
    intro l
    induction l with
    | nil => exact fun _ => Tlb.Tidy.nil subset_rfl
    | cons i rest ih => exact fun mem => (tidy_copyPageOps _ _ _).append (ih _)
  exact (hgo _ _).append tidy_scratchOps

/-- The scratch page is in neither table. -/
theorem Views.scratch {ops : List TlbOp} {D D' : Set Vpage}
    (hops : Tlb.Tidy {p | p ≠ .scratch} D ops D') (h : Views pt kstack T) :
    Views pt kstack (Tlb.tableAfter T ops) := by
  refine ⟨fun i => ?_, fun i hlo hhi => ?_⟩
  · rw [hops.table fun heq => by cases heq]
    exact h.user i
  · rw [hops.table fun heq => by cases heq]
    exact h.kstack i hlo hhi

end Scratch

/-! ## `LoadProgram` -/

section Load

variable {pt kstack : ℤ → Pte} {T : Vpage → Option (ℤ × ℕ)} {free : FreeFrame} {mem : Memory}
  {userpt : UserPt} {uc : UserContext} {args : List (List Byte)} {env : LoadEnv} {li : LoadInfo}

theorem Views.mapSegmentsOps (h : Views pt kstack T) (free : FreeFrame) (li : LoadInfo)
    (stackNpg : ℤ) :
    Views (mapSegments free pt li stackNpg).2 kstack
      (Tlb.tableAfter T (mapSegmentsOps free pt li stackNpg)) := by
  have hnone := trails_flushNone (D := tlbFlush1) subset_rfl
  unfold Yalnix.mapSegmentsOps
  dsimp only
  rw [Tlb.tableAfter_append, Tlb.tableAfter_append]
  exact ((h.mapOps hnone _).mapOps hnone _).mapOps hnone _

theorem tidy_mapSegmentsOps (stackNpg : ℤ) :
    Tlb.Tidy tlbFlushKstack tlbFlush1 (mapSegmentsOps free pt li stackNpg) tlbFlush1 := by
  have hnone := trails_flushNone (D := tlbFlush1) subset_rfl
  exact (tidy_mapOps hnone _).append ((tidy_mapOps hnone _).append (tidy_mapOps hnone _))

omit [Paging] in
/-- The flush of region 1, and what is written there. -/
theorem tidy_flush1 :
    Tlb.Tidy tlbFlushKstack tlbFlush1
      [(.flush tlbFlush1 : TlbOp), .use tlbFlush1] ∅ := by
  have hflush : Tlb.Tidy tlbFlushKstack tlbFlush1 [(.flush tlbFlush1 : TlbOp)] ∅ :=
    Tlb.Tidy.flush.mono subset_rfl subset_rfl (Set.sdiff_self ▸ subset_rfl)
  exact hflush.append (Tlb.Tidy.use (Set.disjoint_empty _))

/-- **`LoadProgram` leaves the table it has built**, whatever its code. -/
theorem Views.loadSegmentsOps (h : Views userpt.pt kstack T) :
    Views (loadSegments mem userpt uc args env li).1.userpt.pt kstack
      (Tlb.tableAfter T (loadSegmentsOps mem.frames userpt args env li)) := by
  have hdestroyed := h.unmapValidOps (pages 0 numPages1) mem.frames
  unfold Yalnix.loadSegmentsOps loadSegments destroyUsermemOps destroyUsermem
  dsimp only
  rw [Tlb.tableAfter_append]
  split
  · exact hdestroyed
  · rw [Tlb.tableAfter_append, Tlb.tableAfter_append]
    have hmapped := hdestroyed.mapSegmentsOps
      (unmapValid (pages 0 numPages1) mem.frames userpt.pt).1 li (stackNpg args)
    split
    · exact hmapped
    · split
      · exact hmapped
      · rw [Tlb.tableAfter_append]
        exact hmapped.protectOps (trails_flushPage (D := ∅)) _

/-- It goes by nothing it has changed before it has flushed it, and where it
loads the program it has. -/
theorem tidy_loadSegmentsOps :
    Tlb.Tidy tlbFlushKstack tlbFlush1 (loadSegmentsOps mem.frames userpt args env li)
      (if (loadSegments mem userpt uc args env li).2 = .success then ∅ else tlbFlush1) := by
  unfold loadSegmentsOps loadSegments
  dsimp only
  refine (tidy_destroyUsermemOps userpt).append ?_
  split
  · exact Tlb.Tidy.nil (by rw [if_neg fun hcode => by cases hcode])
  · refine (tidy_mapSegmentsOps _).append (tidy_flush1.append ?_)
    split
    · exact Tlb.Tidy.nil (Set.empty_subset _)
    · split
      · exact Tlb.Tidy.nil (Set.empty_subset _)
      · exact ((tidy_protectOps trails_flushPage _).append
          (Tlb.Tidy.use (Set.disjoint_empty _))).mono subset_rfl subset_rfl (Set.empty_subset _)

theorem Views.loadProgramOps (h : Views userpt.pt kstack T) (mem : Memory) (uc : UserContext)
    (args : List (List Byte)) (env : LoadEnv) :
    Views (loadProgram mem userpt uc args env).1.userpt.pt kstack
      (Tlb.tableAfter T (loadProgramOps mem.frames userpt args env)) := by
  unfold Yalnix.loadProgramOps loadProgram
  split
  · exact h
  · cases env.info with
    | none => exact h
    | some li =>
      dsimp only
      split
      · exact h
      · split
        · exact h
        · split
          · exact h
          · exact h.loadSegmentsOps

/-- **`LoadProgram` checks**: it is done, or it has done nothing, or the
process is killed. -/
theorem tidy_loadProgramOps (mem : Memory) (userpt : UserPt) (uc : UserContext)
    (args : List (List Byte)) (env : LoadEnv) :
    Tlb.Tidy tlbFlushKstack tlbFlush1 (loadProgramOps mem.frames userpt args env)
        (if (loadProgram mem userpt uc args env).2 = .success then ∅ else tlbFlush1) ∧
      ((loadProgram mem userpt uc args env).2 = .error →
        loadProgramOps mem.frames userpt args env = []) := by
  have herror : Tlb.Tidy tlbFlushKstack tlbFlush1 ([] : List TlbOp)
      (if LoadCode.error = .success then ∅ else tlbFlush1) :=
    Tlb.Tidy.nil (by rw [if_neg (by decide)])
  unfold loadProgramOps loadProgram
  split
  · exact ⟨herror, fun _ => rfl⟩
  · cases env.info with
    | none => exact ⟨herror, fun _ => rfl⟩
    | some li =>
      dsimp only
      split
      · exact ⟨herror, fun _ => rfl⟩
      · split
        · exact ⟨herror, fun _ => rfl⟩
        · split
          · exact ⟨herror, fun _ => rfl⟩
          · refine ⟨tidy_loadSegmentsOps, fun hcode => absurd hcode ?_⟩
            unfold loadSegments
            dsimp only
            repeat' split
            all_goals exact fun hcode => by cases hcode

end Load

/-! ## `KCSwitch` -/

section Switch

variable {pt kstack : ℤ → Pte}

omit [Paging] in
theorem tableAfter_kstack (l : List ℤ) (T : Vpage → Option (ℤ × ℕ)) (i : ℤ) :
    Tlb.tableAfter T (l.map fun i => .set (.kstack i) (kstack i).entry) (.kstack i) =
      if i ∈ l then (kstack i).entry else T (.kstack i) := by
  induction l generalizing T with
  | nil => rfl
  | cons j rest ih =>
    refine (ih (Tlb.Op.table T (.set (.kstack j) (kstack j).entry))).trans ?_
    rcases eq_or_ne i j with rfl | hne
    · rw [if_pos List.mem_cons_self, Tlb.Op.table_set_self, ite_self]
    · rw [Tlb.Op.table_set_of_ne _ _ fun heq => hne (Vpage.kstack.inj heq)]
      simp only [List.mem_cons, hne, false_or]

/-- **Whatever was in use**, it is the next process's tables now. -/
theorem views_kcSwitchOps (T : Vpage → Option (ℤ × ℕ)) :
    Views pt kstack (Tlb.tableAfter T (kcSwitchOps pt kstack)) := by
  unfold kcSwitchOps
  rw [Tlb.tableAfter_append]
  refine ⟨fun i => if_pos ⟨i, rfl⟩, fun i hlo hhi => ?_⟩
  refine (if_neg fun hin : Vpage.kstack i ∈ tlbFlush1 => ?_).trans ?_
  · obtain ⟨j, hj⟩ := hin
    cases hj
  · show Tlb.tableAfter T _ (.kstack i) = _
    rw [tableAfter_kstack, if_pos (mem_pages.mpr ⟨hlo, hhi⟩)]

/-- Nothing of region 1 or of the kernel stack is old after it. -/
theorem leaves_kcSwitchOps : Tlb.Leaves tlbFlush1 (kcSwitchOps pt kstack) ∅ := by
  have hgo : ∀ l : List ℤ, Tlb.Leaves (tlbFlush1 ∪ tlbFlushKstack)
      (l.map fun i => (.set (.kstack i) (kstack i).entry : TlbOp))
      (tlbFlush1 ∪ tlbFlushKstack) := by
    intro l
    induction l with
    | nil => exact subset_rfl
    | cons i rest ih =>
      have hin : Vpage.kstack i ∈ tlbFlush1 ∪ tlbFlushKstack := Or.inr ⟨i, rfl⟩
      exact (Tlb.Leaves.set hin).append ih
  refine ((hgo _).mono Set.subset_union_left subset_rfl).append ⟨trivial, trivial, trivial, ?_⟩
  rintro p ⟨(⟨hp | hp, hnot⟩ | hp), hno⟩
  · exact hno hp
  · exact hnot hp
  · exact hno hp

end Switch

end Yalnix
