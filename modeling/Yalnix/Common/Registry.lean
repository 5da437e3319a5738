import Mathlib.Data.Int.Notation
import Mathlib.Data.List.Nodup
import Mathlib.Logic.Function.Basic
import Yalnix.Common.Run
/-!
# Ids from one counter

Objects of several kinds are numbered by one counter, and the ids of each
kind are on a list of their own. An object is looked up by its id on the
list of one kind, and its id is taken off the list when it is retired.

The law is about the whole history (`History`): the ids issued are the
numbers from zero in order, and an id is on the list of a kind exactly from
its issue as one of that kind to its retirement.
-/

/-- An id is given to an object, or taken back. -/
inductive Deed (κ : Type*) where
  | issue (k : κ) (id : ℤ)
  | retire (k : κ) (id : ℤ)
  deriving DecidableEq

/-- The next id, and those in use. -/
structure Registry (κ : Type*) where
  next : ℤ
  ids : κ → List ℤ

namespace Deed

variable {κ : Type*}

def issued : Deed κ → Option ℤ
  | .issue _ id => some id
  | .retire _ _ => none

end Deed

namespace Registry

variable {κ : Type*}

/-- The ids issued, in order. -/
def issued (deeds : List (Deed κ)) : List ℤ := deeds.filterMap Deed.issued

/-- Nothing has been issued. -/
def empty : Registry κ where
  next := 0
  ids := fun _ => []

variable [DecidableEq κ]

/-- Only the next id is issued, and only one in use is retired. -/
def step (r : Registry κ) : Deed κ → Option (Registry κ)
  | .issue k id =>
    if id = r.next then some ⟨r.next + 1, Function.update r.ids k (r.ids k ++ [id])⟩ else none
  | .retire k id =>
    if id ∈ r.ids k then some { r with ids := Function.update r.ids k ((r.ids k).erase id) }
    else none

/-- **What the deeds say of the registry they lead to.** -/
structure History (deeds : List (Deed κ)) (r : Registry κ) : Prop where
  issued : issued deeds = (List.range (issued deeds).length).map Nat.cast
  next : r.next = (Registry.issued deeds).length
  mem : ∀ k id, id ∈ r.ids k ↔ Deed.issue k id ∈ deeds ∧ Deed.retire k id ∉ deeds
  nodup : ∀ k, (r.ids k).Nodup
  /-- An id is of one kind. -/
  kind : ∀ k k' id, Deed.issue k id ∈ deeds → Deed.issue k' id ∈ deeds → k = k'
  /-- Only what was issued is retired. -/
  retired : ∀ k id, Deed.retire k id ∈ deeds → Deed.issue k id ∈ deeds

variable {r r' : Registry κ} {deeds : List (Deed κ)} {d : Deed κ} {k k' : κ} {id : ℤ}

theorem step_issue (k : κ) : r.step (.issue k r.next) =
    some ⟨r.next + 1, Function.update r.ids k (r.ids k ++ [r.next])⟩ := if_pos rfl

theorem step_retire (hin : id ∈ r.ids k) : r.step (.retire k id) =
    some { r with ids := Function.update r.ids k ((r.ids k).erase id) } := if_pos hin

omit [DecidableEq κ] in
theorem mem_issued : id ∈ issued deeds ↔ ∃ k, Deed.issue k id ∈ deeds := by
  unfold issued
  rw [List.mem_filterMap]
  constructor
  · rintro ⟨d, hd, hid⟩
    cases d with
    | issue k id' =>
      obtain rfl := Option.some.inj hid
      exact ⟨k, hd⟩
    | retire k id' => cases hid
  · rintro ⟨k, hd⟩
    exact ⟨_, hd, rfl⟩

namespace History

variable (h : History deeds r)
include h

omit [DecidableEq κ]

/-- What has been issued are numbers below the next. -/
theorem lt_next (hin : Deed.issue k id ∈ deeds) : 0 ≤ id ∧ id < r.next := by
  have hissued := mem_issued.mpr ⟨k, hin⟩
  rw [h.issued] at hissued
  obtain ⟨n, hn, rfl⟩ := List.mem_map.mp hissued
  have hlt := List.mem_range.mp hn
  rw [h.next]
  omega

/-- **No id is issued twice.** -/
theorem issued_nodup : (Registry.issued deeds).Nodup := by
  rw [h.issued]
  exact List.nodup_range.map fun _ _ heq => Int.ofNat_inj.mp heq

/-- **No two kinds share an id** in use. -/
theorem kind_unique (hk : id ∈ r.ids k) (hk' : id ∈ r.ids k') : k = k' :=
  h.kind k k' id ((h.mem k id).mp hk).1 ((h.mem k' id).mp hk').1

/-- The next id has no history. -/
theorem next_not_mem : Deed.issue k r.next ∉ deeds ∧ Deed.retire k r.next ∉ deeds := by
  have hnot : Deed.issue k r.next ∉ deeds := fun hin => Int.lt_irrefl _ (h.lt_next hin).2
  exact ⟨hnot, fun hin => hnot (h.retired k r.next hin)⟩

end History

omit [DecidableEq κ] in
theorem history_empty : History [] (empty : Registry κ) where
  issued := rfl
  next := rfl
  mem := fun _ _ => iff_of_false List.not_mem_nil fun h => absurd h.1 List.not_mem_nil
  nodup := fun _ => List.nodup_nil
  kind := fun _ _ _ hin => absurd hin List.not_mem_nil
  retired := fun _ _ hin => absurd hin List.not_mem_nil

/-- **An id is issued.** -/
theorem History.issue (h : History deeds r) (k : κ) :
    History (deeds ++ [.issue k r.next])
      ⟨r.next + 1, Function.update r.ids k (r.ids k ++ [r.next])⟩ := by
  have hissued : Registry.issued (deeds ++ [.issue k r.next]) =
      Registry.issued deeds ++ [r.next] := by
    unfold Registry.issued
    rw [List.filterMap_append]
    rfl
  have hnew : ∀ k', r.next ∉ r.ids k' := fun k' hin =>
    h.next_not_mem.1 ((h.mem k' r.next).mp hin).1
  refine ⟨?_, ?_, fun k' id => ?_, fun k' => ?_, fun k₁ k₂ id h₁ h₂ => ?_, fun k' id hin => ?_⟩
  · rw [hissued, List.length_append, List.length_singleton, List.range_succ, List.map_append,
      ← h.issued, List.map_singleton, ← h.next]
  · rw [hissued, List.length_append, List.length_singleton, h.next]
    push_cast
    rfl
  · -- the new id is on the list of its kind, and on none before
    have hold := h.mem k' id
    rcases eq_or_ne k' k with rfl | hne
    · simp only [Function.update_self, List.mem_append, List.mem_singleton, Deed.issue.injEq,
        reduceCtorEq, or_false, true_and, hold]
      have hnone := h.next_not_mem (k := k')
      constructor
      · rintro (⟨hin, hout⟩ | rfl)
        · exact ⟨Or.inl hin, hout⟩
        · exact ⟨Or.inr rfl, hnone.2⟩
      · rintro ⟨hin | rfl, hout⟩
        · exact Or.inl ⟨hin, hout⟩
        · exact Or.inr rfl
    · simp only [Function.update_of_ne hne, List.mem_append, List.mem_singleton,
        Deed.issue.injEq, reduceCtorEq, or_false, hne, false_and, hold]
  · rcases eq_or_ne k' k with rfl | hne
    · dsimp only
      rw [Function.update_self, List.nodup_append]
      refine ⟨h.nodup k', List.nodup_singleton _, fun a ha b hb heq => hnew k' ?_⟩
      rwa [← List.mem_singleton.mp hb, ← heq]
    · dsimp only
      rw [Function.update_of_ne hne]
      exact h.nodup k'
  · rw [List.mem_append, List.mem_singleton] at h₁ h₂
    rcases h₁ with h₁ | h₁ <;> rcases h₂ with h₂ | h₂
    · exact h.kind k₁ k₂ id h₁ h₂
    · obtain ⟨rfl, rfl⟩ := Deed.issue.inj h₂
      exact absurd h₁ h.next_not_mem.1
    · obtain ⟨rfl, rfl⟩ := Deed.issue.inj h₁
      exact absurd h₂ h.next_not_mem.1
    · exact (Deed.issue.inj h₁).1.trans (Deed.issue.inj h₂).1.symm
  · rcases List.mem_append.mp hin with hin | hin
    · exact List.mem_append_left _ (h.retired k' id hin)
    · cases List.mem_singleton.mp hin

/-- **An id is retired.** -/
theorem History.retire (h : History deeds r) (hin : id ∈ r.ids k) :
    History (deeds ++ [.retire k id])
      { r with ids := Function.update r.ids k ((r.ids k).erase id) } := by
  have hissued : Registry.issued (deeds ++ [.retire k id]) = Registry.issued deeds := by
    unfold Registry.issued
    rw [List.filterMap_append]
    exact List.append_nil _
  refine ⟨?_, ?_, fun k' id' => ?_, fun k' => ?_, fun k₁ k₂ id' h₁ h₂ => ?_, fun k' id' hret => ?_⟩
  · rw [hissued]
    exact h.issued
  · rw [hissued]
    exact h.next
  · have hold := h.mem k' id'
    simp only [List.mem_append, List.mem_singleton, Deed.retire.injEq, reduceCtorEq, or_false,
      not_or, ← and_assoc, ← hold]
    rcases eq_or_ne k' k with rfl | hne
    · rw [Function.update_self, (h.nodup k').mem_erase_iff]
      simp only [true_and]
      exact and_comm
    · rw [Function.update_of_ne hne]
      simp only [hne, false_and, not_false_iff, and_true]
  · rcases eq_or_ne k' k with rfl | hne
    · dsimp only
      rw [Function.update_self]
      exact (h.nodup k').erase id
    · dsimp only
      rw [Function.update_of_ne hne]
      exact h.nodup k'
  · have hold : ∀ {k' : κ}, Deed.issue k' id' ∈ deeds ++ [.retire k id] →
        Deed.issue k' id' ∈ deeds := fun hmem => by
      rcases List.mem_append.mp hmem with hmem | hmem
      · exact hmem
      · cases List.mem_singleton.mp hmem
    exact h.kind k₁ k₂ id' (hold h₁) (hold h₂)
  · refine List.mem_append_left _ ?_
    rcases List.mem_append.mp hret with hret | hret
    · exact h.retired k' id' hret
    · obtain ⟨rfl, rfl⟩ := Deed.retire.inj (List.mem_singleton.mp hret)
      exact ((h.mem k' id').mp hin).1

/-- **What one deed does to the history.** -/
theorem History.step (h : History deeds r) (hstep : r.step d = some r') :
    History (deeds ++ [d]) r' := by
  cases d with
  | issue k id =>
    obtain ⟨rfl, heq⟩ := Option.ite_none_right_eq_some.mp hstep
    rw [← Option.some.inj heq]
    exact h.issue k
  | retire k id =>
    obtain ⟨hin, heq⟩ := Option.ite_none_right_eq_some.mp hstep
    rw [← Option.some.inj heq]
    exact h.retire hin

/-- **The law of every history**, from the empty registry on. -/
theorem history_of_exec (hrun : Run.exec step empty deeds = some r) : History deeds r :=
  Run.history_of_exec (D := fun _ => True) (H := History) history_empty
    (fun _ _ _ _ _ _ h hstep => h.step hstep) (fun _ _ => trivial) hrun

end Registry
