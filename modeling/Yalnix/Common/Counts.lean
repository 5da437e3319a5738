import Mathlib.Data.Set.Card
/-!
# Counters

A counter of a program, against the set it is to count: `Counts n s` says
that `n` is how many there are. The rules are what keeps a counter right
where the set gains a member, loses one, or gains a whole list at once.

Two uses of it follow. `Calling` is the set of processes with a call of one
kind in progress, as the calls are kept one to a process. `Accounted` is the
account of an object that processes sleep on: those inside a call on it are
asleep on a queue, or were taken off it and are counted until they come
back.
-/

/-- **The counter is the size of the set**, which is finite. -/
structure Counts {α : Type*} (n : ℤ) (s : Set α) : Prop where
  finite : s.Finite
  card : n = s.ncard

namespace Counts

variable {α : Type*} {n : ℤ} {s : Set α} {a : α} {l : List α}

theorem empty : Counts 0 (∅ : Set α) := ⟨Set.finite_empty, by rw [Set.ncard_empty]; rfl⟩

/-- A member more. -/
theorem insert (h : Counts n s) (ha : a ∉ s) : Counts (n + 1) (insert a s) := by
  refine ⟨h.finite.insert a, ?_⟩
  rw [Set.ncard_insert_of_notMem ha h.finite, h.card]
  push_cast
  rfl

/-- A member less. -/
theorem erase (h : Counts n s) (ha : a ∈ s) : Counts (n - 1) (s \ {a}) := by
  refine ⟨h.finite.sdiff, ?_⟩
  have hcard := Set.ncard_sdiff_singleton_add_one ha h.finite
  have hn := h.card
  omega

/-- **A list more**, counted by its length. -/
theorem append (h : Counts n s) (hnd : l.Nodup) (hl : ∀ a ∈ l, a ∉ s) :
    Counts (n + l.length) (s ∪ {a | a ∈ l}) := by
  induction l with
  | nil => simpa using h
  | cons a l ih =>
    rw [List.nodup_cons] at hnd
    have hrest := ih hnd.2 fun b hb => hl b (List.mem_cons_of_mem _ hb)
    have hnot : a ∉ s ∪ {b | b ∈ l} := by
      rintro (hin | hin)
      · exact hl a List.mem_cons_self hin
      · exact hnd.1 hin
    have hset : s ∪ {b | b ∈ a :: l} = Insert.insert a (s ∪ {b | b ∈ l}) := by
      ext b
      simp only [Set.mem_union, Set.mem_ofPred_eq, List.mem_cons, Set.mem_insert_iff]
      tauto
    have hlen : n + ((a :: l).length : ℤ) = n + l.length + 1 := by
      rw [List.length_cons]
      omega
    rw [hset, hlen]
    exact hrest.insert hnot

/-- The members of a list. -/
theorem of_list (hnd : l.Nodup) : Counts l.length {a | a ∈ l} := by
  have h := empty.append hnd fun a _ => Set.notMem_empty a
  rwa [Set.empty_union, zero_add] at h

/-- **A counter that is not positive** counts nobody. -/
theorem eq_empty (h : Counts n s) (hn : n ≤ 0) : s = ∅ := by
  have hcard := h.card
  exact (Set.ncard_eq_zero h.finite).mp (by omega)

end Counts

/-! ## Calls in progress -/

section Calling

variable {α β : Type*}

/-- **Who is inside a call of a kind.** -/
def Calling (kind : β → Prop) (frame : α → Option β) : Set α :=
  {p | ∃ f, frame p = some f ∧ kind f}

variable {kind : β → Prop} {frame : α → Option β} {p : α} {f : Option β} {g : β}

theorem calling_of_some (h : frame p = some g) : p ∈ Calling kind frame ↔ kind g := by
  constructor
  · rintro ⟨g', hg', hkind⟩
    rw [h] at hg'
    rwa [Option.some.inj hg']
  · exact fun hkind => ⟨g, h, hkind⟩

theorem not_calling_of_none (h : frame p = none) : p ∉ Calling kind frame := by
  rintro ⟨g, hg, -⟩
  rw [h] at hg
  cases hg

variable [DecidableEq α]

theorem calling_update_of_ne {q : α} (h : q ≠ p) :
    q ∈ Calling kind (Function.update frame p f) ↔ q ∈ Calling kind frame := by
  show (∃ g, Function.update frame p f q = some g ∧ _) ↔ _
  rw [Function.update_of_ne h]
  rfl

/-- One enters, or stays inside. -/
theorem calling_insert (hg : kind g) :
    Calling kind (Function.update frame p (some g)) = insert p (Calling kind frame) := by
  ext q
  rw [Set.mem_insert_iff]
  rcases eq_or_ne q p with rfl | hne
  · exact iff_of_true ⟨g, Function.update_self _ _ _, hg⟩ (Or.inl rfl)
  · rw [or_iff_right hne, calling_update_of_ne hne]

/-- One leaves, or stays outside. -/
theorem calling_erase (hf : ∀ g, f = some g → ¬ kind g) :
    Calling kind (Function.update frame p f) = Calling kind frame \ {p} := by
  ext q
  rw [Set.mem_sdiff, Set.mem_singleton_iff]
  rcases eq_or_ne q p with rfl | hne
  · refine iff_of_false ?_ fun h => h.2 rfl
    rintro ⟨g, hg, hkind⟩
    rw [Function.update_self] at hg
    exact hf g hg hkind
  · rw [and_iff_left hne, calling_update_of_ne hne]

/-- One that is outside before and after. -/
theorem calling_same (hp : p ∉ Calling kind frame) (hf : ∀ g, f = some g → ¬ kind g) :
    Calling kind (Function.update frame p f) = Calling kind frame := by
  rw [calling_erase hf, Set.sdiff_singleton_eq_self hp]

end Calling

/-! ## The account of an object -/

/-- **Everybody inside is accounted for**: asleep, or counted as woken. -/
structure Accounted {α : Type*} (inside : Set α) (asleep : List α) (woken : ℤ) : Prop where
  mem : ∀ p ∈ asleep, p ∈ inside
  nodup : asleep.Nodup
  counts : Counts woken (inside \ {p | p ∈ asleep})

namespace Accounted

variable {α : Type*} {inside : Set α} {asleep asleep' rest : List α} {woken : ℤ} {p : α}

theorem empty : Accounted (∅ : Set α) [] 0 := by
  refine ⟨fun p hp => absurd hp List.not_mem_nil, List.nodup_nil, ?_⟩
  rw [Set.empty_sdiff]
  exact Counts.empty

/-- One enters and goes to sleep. -/
theorem sleep (h : Accounted inside asleep woken) (hp : p ∉ inside)
    (hperm : asleep'.Perm (p :: asleep)) : Accounted (insert p inside) asleep' woken := by
  have hnot : p ∉ asleep := fun hin => hp (h.mem p hin)
  refine ⟨fun q hq => ?_, hperm.nodup_iff.mpr (List.nodup_cons.mpr ⟨hnot, h.nodup⟩), ?_⟩
  · rcases List.mem_cons.mp (hperm.mem_iff.mp hq) with rfl | hin
    · exact Set.mem_insert q inside
    · exact Set.mem_insert_of_mem p (h.mem q hin)
  · have hset : insert p inside \ {q | q ∈ asleep'} = inside \ {q | q ∈ asleep} := by
      ext q
      simp only [Set.mem_sdiff, Set.mem_insert_iff, Set.mem_ofPred_eq, hperm.mem_iff,
        List.mem_cons, not_or]
      constructor
      · rintro ⟨rfl | hin, hne, hq⟩
        · exact absurd rfl hne
        · exact ⟨hin, hq⟩
      · rintro ⟨hin, hq⟩
        exact ⟨Or.inr hin, fun heq => hp (heq ▸ hin), hq⟩
    rw [hset]
    exact h.counts

/-- **Some are taken off the queue**, and counted. -/
theorem wake (h : Accounted inside asleep woken) {up : List α} (hperm : asleep.Perm (up ++ rest)) :
    Accounted inside rest (woken + up.length) := by
  have hnd := List.nodup_append.mp (hperm.nodup_iff.mp h.nodup)
  refine ⟨fun q hq => h.mem q (hperm.mem_iff.mpr (List.mem_append_right up hq)), hnd.2.1, ?_⟩
  have hset : inside \ {q | q ∈ rest} = (inside \ {q | q ∈ asleep}) ∪ {q | q ∈ up} := by
    ext q
    simp only [Set.mem_sdiff, Set.mem_union, Set.mem_ofPred_eq, hperm.mem_iff, List.mem_append,
      not_or]
    constructor
    · rintro ⟨hin, hq⟩
      by_cases hup : q ∈ up
      · exact Or.inr hup
      · exact Or.inl ⟨hin, hup, hq⟩
    · rintro (⟨hin, -, hq⟩ | hup)
      · exact ⟨hin, hq⟩
      · refine ⟨h.mem q (hperm.mem_iff.mpr (List.mem_append_left rest hup)), fun hq => ?_⟩
        exact hnd.2.2 q hup q hq rfl
  rw [hset]
  refine h.counts.append hnd.1 fun q hup hq => hq.2 ?_
  exact hperm.mem_iff.mpr (List.mem_append_left rest hup)

/-- **One that was woken comes back**, and counts itself off. -/
theorem back (h : Accounted inside asleep woken) (hp : p ∈ inside) (hnot : p ∉ asleep) :
    Accounted (inside \ {p}) asleep (woken - 1) := by
  refine ⟨fun q hq => ⟨h.mem q hq, fun heq => hnot (heq ▸ hq)⟩, h.nodup, ?_⟩
  have hset : (inside \ {p}) \ {q | q ∈ asleep} = (inside \ {q | q ∈ asleep}) \ {p} := by
    rw [Set.sdiff_sdiff, Set.sdiff_sdiff, Set.union_comm]
  rw [hset]
  exact h.counts.erase ⟨hp, hnot⟩

/-- **Nobody asleep and nobody counted** is nobody inside. -/
theorem eq_empty (h : Accounted inside [] woken) (hwoken : woken ≤ 0) : inside = ∅ := by
  have hset : inside \ {p | p ∈ ([] : List α)} = inside := by simp
  have hempty := h.counts.eq_empty hwoken
  rwa [hset] at hempty

end Accounted
