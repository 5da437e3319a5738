import Mathlib.Data.Set.BooleanAlgebra
import Mathlib.Order.CompletePartialOrder
import Yalnix.Common.Run
/-!
# Tables behind a cache

Pages are translated by a table in memory, with a cache in front of it that
the hardware fills and empties as it likes. A store to the table does not
reach the cache: an entry that was cached before is wrong until it is
flushed, and whoever goes by it meanwhile goes astray.

What a kernel does to the two is a list of operations, and a set of pages is
enough to check it: those the cache may be wrong about. The hardware only
copies what an access would have gone by anyway, so that it makes nothing
worse, and the check is made on the list alone (`Leaves`).
-/

namespace Tlb

open Classical

variable {Page Entry : Type*}

/-- The table in use and the cache in front of it. -/
structure Mmu (Page Entry : Type*) where
  table : Page → Option Entry
  cache : Page → Option Entry

/-- What a kernel does: a store to one entry, the register that says where
the table of some pages is, a flush of some pages, and accesses to some. -/
inductive Op (Page Entry : Type*) where
  | set (p : Page) (e : Option Entry)
  | point (S : Set Page) (f : Page → Option Entry)
  | flush (S : Set Page)
  | use (S : Set Page)

/-- What an operation leaves of the table. -/
noncomputable def Op.table (T : Page → Option Entry) : Op Page Entry → Page → Option Entry
  | .set p e => Function.update T p e
  | .point S f => fun p => if p ∈ S then f p else T p
  | .flush _ => T
  | .use _ => T

theorem Op.table_set_self (T : Page → Option Entry) (p : Page) (e : Option Entry) :
    (Op.set p e).table T p = e := by
  unfold Op.table
  dsimp only
  rw [Function.update_self]

theorem Op.table_set_of_ne {p q : Page} (T : Page → Option Entry) (e : Option Entry)
    (h : q ≠ p) : (Op.set p e).table T q = T q := by
  unfold Op.table
  dsimp only
  rw [Function.update_of_ne h]

/-- What a list of them does. -/
noncomputable def tableAfter : (Page → Option Entry) → List (Op Page Entry) → Page → Option Entry
  | T, [] => T
  | T, op :: ops => tableAfter (op.table T) ops

theorem tableAfter_append (T : Page → Option Entry) (ops ops' : List (Op Page Entry)) :
    tableAfter T (ops ++ ops') = tableAfter (tableAfter T ops) ops' := by
  induction ops generalizing T with
  | nil => rfl
  | cons op rest ih => exact ih (op.table T)

namespace Mmu

variable {m : Mmu Page Entry} {p : Page} {D D' : Set Page}

/-- **What an access goes by**: the cache, if the page is there. -/
def translate (m : Mmu Page Entry) (p : Page) : Option Entry := (m.cache p).or (m.table p)

/-- The hardware keeps a translation it has made. -/
noncomputable def fill (m : Mmu Page Entry) (p : Page) : Mmu Page Entry :=
  { m with cache := Function.update m.cache p (m.translate p) }

theorem fill_cache_self (m : Mmu Page Entry) (p : Page) :
    (m.fill p).cache p = m.translate p := by
  unfold Mmu.fill
  dsimp only
  rw [Function.update_self]

/-- The hardware needs the place for another. -/
noncomputable def evict (m : Mmu Page Entry) (p : Page) : Mmu Page Entry :=
  { m with cache := Function.update m.cache p none }

/-- The kernel does something. -/
noncomputable def apply (m : Mmu Page Entry) (op : Op Page Entry) : Mmu Page Entry where
  table := op.table m.table
  cache :=
    match op with
    | .flush S => fun p => if p ∈ S then none else m.cache p
    | _ => m.cache

/-- **The cache is wrong about no page outside a set.** -/
def Wrong (m : Mmu Page Entry) (D : Set Page) : Prop :=
  ∀ p, p ∉ D → ∀ e, m.cache p = some e → m.table p = some e

theorem Wrong.translate (h : m.Wrong D) (hp : p ∉ D) : m.translate p = m.table p := by
  unfold Mmu.translate
  cases hcache : m.cache p with
  | none => rfl
  | some e => exact (h p hp e hcache).symm

theorem Wrong.fill (h : m.Wrong D) (p : Page) : (m.fill p).Wrong D := by
  intro q hq e he
  unfold Mmu.fill at he ⊢
  dsimp only at he ⊢
  rcases eq_or_ne q p with rfl | hne
  · rw [Function.update_self, h.translate hq] at he
    exact he
  · rw [Function.update_of_ne hne] at he
    exact h q hq e he

theorem Wrong.evict (h : m.Wrong D) (p : Page) : (m.evict p).Wrong D := by
  intro q hq e he
  unfold Mmu.evict at he ⊢
  dsimp only at he ⊢
  rcases eq_or_ne q p with rfl | hne
  · rw [Function.update_self] at he
    cases he
  · rw [Function.update_of_ne hne] at he
    exact h q hq e he

end Mmu

namespace Op

variable {op : Op Page Entry} {D D' A : Set Page}

/-- The pages the cache may be wrong about after an operation. -/
def stale (D : Set Page) : Op Page Entry → Set Page
  | .set p _ => insert p D
  | .point S _ => D ∪ S
  | .flush S => D \ S
  | .use _ => D

/-- It accesses none of them. -/
def Safe (D : Set Page) : Op Page Entry → Prop
  | .use S => Disjoint S D
  | _ => True

/-- It stores to no entry of a set. -/
def Spares (A : Set Page) : Op Page Entry → Prop
  | .set p _ => p ∉ A
  | .point S _ => Disjoint S A
  | _ => True

/-- The page it unmaps. -/
def unmaps : Op Page Entry → Option Page
  | .set p none => some p
  | _ => none

theorem unmaps_eq_some {p : Page} (h : op.unmaps = some p) : op = .set p none := by
  cases op with
  | set q e =>
    cases e with
    | none => rw [Option.some.inj h]
    | some e => cases h
  | point | flush | use => cases h

theorem stale_mono (h : D ⊆ D') : op.stale D ⊆ op.stale D' := by
  cases op with
  | set p e => exact Set.insert_subset_insert h
  | point S f => exact Set.union_subset_union_left S h
  | flush S => exact Set.sdiff_subset_sdiff_left h
  | use S => exact h

theorem Safe.anti (h : op.Safe D') (hD : D ⊆ D') : op.Safe D := by
  cases op with
  | use S => exact h.mono_right hD
  | set | point | flush => trivial

theorem Spares.mono {A' : Set Page} (h : op.Spares A) (hA : A' ⊆ A) : op.Spares A' := by
  cases op with
  | set p e => exact fun hp => h (hA hp)
  | point S f => exact h.mono_right hA
  | flush | use => trivial

theorem Spares.table {T : Page → Option Entry} {p : Page} (h : op.Spares A) (hp : p ∈ A) :
    op.table T p = T p := by
  cases op with
  | set q e => exact table_set_of_ne T e fun heq => h (heq ▸ hp)
  | point S f => exact if_neg fun hin => Set.disjoint_left.mp h hin hp
  | flush | use => rfl

theorem Spares.stale (h : op.Spares A) (hD : Disjoint A D) : Disjoint A (op.stale D) := by
  cases op with
  | set p e => exact Set.disjoint_insert_right.mpr ⟨h, hD⟩
  | point S f => exact Disjoint.sup_right hD h.symm
  | flush S => exact hD.mono_right Set.sdiff_subset
  | use S => exact hD

end Op

/-- **One operation**, to a cache that may be wrong about a set. -/
theorem Mmu.Wrong.apply {m : Mmu Page Entry} {D : Set Page} (h : m.Wrong D) (op : Op Page Entry) :
    (m.apply op).Wrong (op.stale D) := by
  intro q hq e he
  cases op with
  | set p e' =>
    rw [Op.stale, Set.mem_insert_iff, not_or] at hq
    have hsame : (m.apply (.set p e')).table q = m.table q := Op.table_set_of_ne _ _ hq.1
    rw [hsame]
    exact h q hq.2 e he
  | point S f =>
    rw [Op.stale, Set.mem_union, not_or] at hq
    have hsame : (m.apply (.point S f)).table q = m.table q := if_neg hq.2
    rw [hsame]
    exact h q hq.1 e he
  | flush S =>
    have hcache : (if q ∈ S then none else m.cache q) = some e := he
    split at hcache
    · cases hcache
    · rename_i hout
      exact h q (fun hin => hq ⟨hin, hout⟩) e hcache
  | use S => exact h q hq e he

/-! ## Lists of operations -/

/-- **From a cache that may be wrong about `D`, the operations access no page
it may be wrong about, and leave it wrong about `D'` at most.** -/
def Leaves : Set Page → List (Op Page Entry) → Set Page → Prop
  | D, [], D' => D ⊆ D'
  | D, op :: ops, D' => op.Safe D ∧ Leaves (op.stale D) ops D'

namespace Leaves

variable {D D' D'' A : Set Page} {ops ops' : List (Op Page Entry)} {p : Page} {e : Option Entry}
  {S : Set Page}

theorem mono (h : Leaves D ops D') (hD : D'' ⊆ D) {D₁ : Set Page} (hD' : D' ⊆ D₁) :
    Leaves D'' ops D₁ := by
  induction ops generalizing D D'' with
  | nil => exact (hD.trans h).trans hD'
  | cons op rest ih => exact ⟨h.1.anti hD, ih h.2 (Op.stale_mono hD)⟩

theorem append (h : Leaves D ops D') (h' : Leaves D' ops' D'') : Leaves D (ops ++ ops') D'' := by
  induction ops generalizing D with
  | nil => exact h'.mono h subset_rfl
  | cons op rest ih => exact ⟨h.1, ih h.2⟩

theorem use (h : Disjoint S D) : Leaves D [(.use S : Op Page Entry)] D := ⟨h, subset_rfl⟩

/-- A store to an entry that nobody goes by yet. -/
theorem set (h : p ∈ D) : Leaves D [.set p e] D :=
  ⟨trivial, Set.insert_subset h subset_rfl⟩

/-- A store and the flush of its page. -/
theorem set_flush : Leaves D [.set p e, .flush {p}] D := by
  refine ⟨trivial, trivial, ?_⟩
  rintro q ⟨hq, hne⟩
  exact (Set.mem_insert_iff.mp hq).resolve_left hne

/-- A flush of all that is wrong. -/
theorem flush : Leaves D [(.flush S : Op Page Entry)] (D \ S) := ⟨trivial, subset_rfl⟩

theorem point {f : Page → Option Entry} : Leaves D [.point S f] (D ∪ S) := ⟨trivial, subset_rfl⟩

/-- **Pages in use all along**, whose entries nobody stores to. -/
theorem busy (h : Leaves D ops D') (hA : Disjoint A D) (hspares : ∀ op ∈ ops, op.Spares A) :
    Leaves D (ops.flatMap fun op => [op, .use A]) D' := by
  induction ops generalizing D with
  | nil => exact h
  | cons op rest ih =>
    have hdisjoint := (hspares op List.mem_cons_self).stale hA
    have hrest : ∀ op' ∈ rest, op'.Spares A :=
      fun op' hop' => hspares op' (List.mem_cons_of_mem _ hop')
    exact ⟨h.1, hdisjoint, ih h.2 hdisjoint hrest⟩

end Leaves

/-- **A list that checks**, and stores to no entry of `A`. -/
structure Tidy (A D : Set Page) (ops : List (Op Page Entry)) (D' : Set Page) : Prop where
  leaves : Leaves D ops D'
  spares : ∀ op ∈ ops, op.Spares A

namespace Tidy

variable {A A' D D' D'' : Set Page} {ops ops' : List (Op Page Entry)} {p : Page} {e : Option Entry}
  {S : Set Page}

theorem nil (h : D ⊆ D') : Tidy A D ([] : List (Op Page Entry)) D' :=
  ⟨h, fun _ hop => (List.not_mem_nil hop).elim⟩

theorem mono (h : Tidy A D ops D') (hA : A' ⊆ A) (hD : D'' ⊆ D) {D₁ : Set Page} (hD' : D' ⊆ D₁) :
    Tidy A' D'' ops D₁ :=
  ⟨h.leaves.mono hD hD', fun op hop => (h.spares op hop).mono hA⟩

theorem append (h : Tidy A D ops D') (h' : Tidy A D' ops' D'') : Tidy A D (ops ++ ops') D'' :=
  ⟨h.leaves.append h'.leaves, List.forall_mem_append.mpr ⟨h.spares, h'.spares⟩⟩

theorem use (h : Disjoint S D) : Tidy A D [(.use S : Op Page Entry)] D :=
  ⟨Leaves.use h, List.forall_mem_singleton.mpr trivial⟩

theorem set (h : p ∈ D) (hp : p ∉ A) : Tidy A D [.set p e] D :=
  ⟨Leaves.set h, List.forall_mem_singleton.mpr hp⟩

theorem set_flush (hp : p ∉ A) : Tidy A D [.set p e, .flush {p}] D :=
  ⟨Leaves.set_flush, List.forall_mem_cons.mpr ⟨hp, List.forall_mem_singleton.mpr trivial⟩⟩

theorem flush : Tidy A D [(.flush S : Op Page Entry)] (D \ S) :=
  ⟨Leaves.flush, List.forall_mem_singleton.mpr trivial⟩

/-- **What is spared stays** in the table. -/
theorem table {T : Page → Option Entry} (h : Tidy A D ops D') (hp : p ∈ A) :
    tableAfter T ops p = T p := by
  obtain ⟨-, hspares⟩ := h
  induction ops generalizing T with
  | nil => rfl
  | cons op rest ih =>
    exact (ih fun op' hop' => hspares op' (List.mem_cons_of_mem _ hop')).trans
      ((hspares op List.mem_cons_self).table hp)

/-- What is spared can be in use all along. -/
theorem busy (h : Tidy A D ops D') (hA : Disjoint A D) :
    Leaves D (ops.flatMap fun op => [op, .use A]) D' := h.leaves.busy hA h.spares

end Tidy

theorem tableAfter_busy (A : Set Page) (T : Page → Option Entry) (ops : List (Op Page Entry)) :
    tableAfter T (ops.flatMap fun op => [op, .use A]) = tableAfter T ops := by
  induction ops generalizing T with
  | nil => rfl
  | cons op rest ih => exact ih (op.table T)

/-! ## A kernel at work -/

/-- A machine, its translations, and what is left to do to them of the event
that it is in. -/
structure State (σ Page Entry : Type*) where
  machine : σ
  mmu : Mmu Page Entry
  pending : List (Op Page Entry)

/-- The next event, the next operation of the last one, or the hardware. -/
inductive Move (ε Page : Type*) where
  | event (e : ε)
  | go
  | fill (p : Page)
  | evict (p : Page)

variable {σ ε : Type*}

/-- The events are of a kind. -/
def Move.InDomain (D : ε → Prop) : Move ε Page → Prop
  | .event e => D e
  | _ => True

/-- **One move.** -/
noncomputable def State.step (step : σ → ε → Option σ) (ops : σ → ε → List (Op Page Entry))
    (s : State σ Page Entry) : Move ε Page → Option (State σ Page Entry)
  | .event e =>
    match s.pending with
    | [] => (step s.machine e).map fun t => ⟨t, s.mmu, ops s.machine e⟩
    | _ :: _ => none
  | .go =>
    match s.pending with
    | [] => none
    | op :: rest => some { s with mmu := s.mmu.apply op, pending := rest }
  | .fill p => some { s with mmu := s.mmu.fill p }
  | .evict p => some { s with mmu := s.mmu.evict p }

/-- What is left of an event can be done. -/
theorem State.exec_go (step : σ → ε → Option σ) (ops : σ → ε → List (Op Page Entry))
    (s : State σ Page Entry) :
    ∃ mmu, Run.exec (State.step step ops) s (s.pending.map fun _ => .go) =
      some ⟨s.machine, mmu, []⟩ := by
  obtain ⟨m, mmu, pending⟩ := s
  induction pending generalizing mmu with
  | nil => exact ⟨mmu, rfl⟩
  | cons op rest ih =>
    obtain ⟨mmu', hrest⟩ := ih (mmu.apply op)
    exact ⟨mmu', Run.exec_cons.mpr ⟨_, rfl, hrest⟩⟩

/-- **A kernel that keeps its translations**, from the states of an
invariant: every event leaves the cache right, and the table as the machine
has it. -/
structure Kept (step : σ → ε → Option σ) (ops : σ → ε → List (Op Page Entry)) (I : σ → Prop)
    (D : ε → Prop) (View : σ → (Page → Option Entry) → Prop) : Prop where
  inv : ∀ s e t, I s → D e → step s e = some t → I t
  leaves : ∀ s e t, I s → D e → step s e = some t → Leaves ∅ (ops s e) ∅
  table : ∀ s e t, I s → D e → step s e = some t → ∀ T, View s T → View t (tableAfter T (ops s e))

/-- **What an access goes by is in the table**, at every access the kernel
makes and between events; and then the table is the machine's. -/
structure Current (View : σ → (Page → Option Entry) → Prop) (s : State σ Page Entry) : Prop where
  access : ∀ S rest, s.pending = .use S :: rest → ∀ p ∈ S, s.mmu.translate p = s.mmu.table p
  between : s.pending = [] →
    (∀ p, s.mmu.translate p = s.mmu.table p) ∧ View s.machine s.mmu.table

/-- What a run keeps: the rest of the event checks, and ends in the table of
the machine. -/
structure Checked (I : σ → Prop) (View : σ → (Page → Option Entry) → Prop)
    (s : State σ Page Entry) : Prop where
  inv : I s.machine
  checks : ∃ D, s.mmu.Wrong D ∧ Leaves D s.pending ∅
  view : View s.machine (tableAfter s.mmu.table s.pending)

variable {step : σ → ε → Option σ} {ops : σ → ε → List (Op Page Entry)} {I : σ → Prop}
  {D : ε → Prop} {View : σ → (Page → Option Entry) → Prop} {s t : State σ Page Entry}
  {e : Move ε Page} {es : List (Move ε Page)}

theorem Checked.current (h : Checked I View s) : Current View s := by
  obtain ⟨-, ⟨D, hwrong, hleaves⟩, hview⟩ := h
  refine ⟨fun S rest hs p hp => ?_, fun hs => ?_⟩
  · rw [hs] at hleaves
    exact hwrong.translate fun hin => Set.disjoint_left.mp hleaves.1 hp hin
  · rw [hs] at hleaves hview
    exact ⟨fun p => hwrong.translate fun hin => hleaves hin, hview⟩

theorem Kept.checked (hk : Kept step ops I D View) (h : Checked I View s) (he : e.InDomain D)
    (hstep : s.step step ops e = some t) : Checked I View t := by
  obtain ⟨hinv, ⟨E, hwrong, hleaves⟩, hview⟩ := h
  cases e with
  | event e =>
    unfold State.step at hstep
    dsimp only at hstep
    split at hstep
    · rename_i hpending
      obtain ⟨m, hm, rfl⟩ := Option.map_eq_some_iff.mp hstep
      rw [hpending] at hleaves hview
      have hempty : E = ∅ := Set.subset_empty_iff.mp hleaves
      exact ⟨hk.inv _ e m hinv he hm, ⟨E, hwrong, hempty ▸ hk.leaves _ e m hinv he hm⟩,
        hk.table _ e m hinv he hm _ hview⟩
    · cases hstep
  | go =>
    unfold State.step at hstep
    dsimp only at hstep
    split at hstep
    · cases hstep
    · rename_i op rest hpending
      obtain rfl := Option.some.inj hstep
      rw [hpending] at hleaves hview
      exact ⟨hinv, ⟨op.stale E, hwrong.apply op, hleaves.2⟩, hview⟩
  | fill p =>
    obtain rfl := Option.some.inj hstep
    exact ⟨hinv, ⟨E, hwrong.fill p, hleaves⟩, hview⟩
  | evict p =>
    obtain rfl := Option.some.inj hstep
    exact ⟨hinv, ⟨E, hwrong.evict p, hleaves⟩, hview⟩

/-- **The rule**: a kernel that keeps its translations never goes astray. -/
theorem Kept.throughout (hk : Kept step ops I D View) (h : Checked I View s)
    (hes : ∀ e ∈ es, e.InDomain D) :
    Run.Throughout (State.step step ops) (Current View) s es :=
  (Run.throughout_of_step (fun _ e he _ hs ht => hk.checked hs (hes e he) ht) h).mono
    fun _ hs => hs.current

end Tlb
