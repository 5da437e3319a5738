import Mathlib.Data.Set.Insert
import Yalnix.Pilocvario.Sync.Model
/-!
# The law of locks and condition variables

A process inside `acquire` is asleep on the lock's queue or has been woken
and not yet come back, and `unfulfilled` counts the second kind; who holds a
lock, going by the history alone, is its owner. `LockLaw` is this for one
lock, `CvarLaw` for one condition variable, whose waiters stand in the order
they came. Each function owes the law of its own object, and the others have
the frames and the notes that concern them as they were.
-/

namespace Yalnix

variable {ι κ Node : Type}

/-! ## Who holds a lock -/

/-- A note about other names for the same processes. -/
def Note.map (f : ι → κ) : Note ι → Note κ
  | .waits p cvar lock => .waits (f p) cvar lock
  | .returns p call r => .returns (f p) call r

/-- What a note says of a lock: a process that returns from `Acquire` or
`CvarWait` has it; one that releases it, or goes to sleep in `CvarWait`, has
it no more. -/
def Note.after (lock : ℤ) (held : Set ι) : Note ι → Set ι
  | .waits p _ l => if l = lock then held \ {p} else held
  | .returns p (.acquire l) r => if l = lock ∧ r = 0 then insert p held else held
  | .returns p (.cvarWait _ l) r => if l = lock ∧ r = 0 then insert p held else held
  | .returns p (.release l) r => if l = lock ∧ r = 0 then held \ {p} else held
  | .returns _ (.cvarSignal _) _ => held
  | .returns _ (.cvarBroadcast _) _ => held

/-- **Who holds a lock**, going by the history. -/
def holders (lock : ℤ) (log : List (Note ι)) : Set ι := log.foldl (Note.after lock) ∅

/-- Its nodes. -/
def holderNodes (lock : ℤ) (log : List (Note (Node × ℕ))) : Set Node :=
  holders lock (log.map (Note.map Prod.fst))

section Holders

variable {lock : ℤ} {log : List (Note ι)} {p : ι} {call : SyncCall} {r : ℤ}

theorem holders_append (lock : ℤ) (log : List (Note ι)) (n : Note ι) :
    holders lock (log ++ [n]) = n.after lock (holders lock log) := by
  unfold holders
  rw [List.foldl_append]
  rfl

theorem holderNodes_append (lock : ℤ) (log : List (Note (Node × ℕ))) (n : Note (Node × ℕ)) :
    holderNodes lock (log ++ [n]) = (n.map Prod.fst).after lock (holderNodes lock log) := by
  unfold holderNodes
  rw [List.map_append, List.map_singleton, holders_append]

/-- A call that is refused gives nobody a lock. -/
theorem after_refused (h : r ≠ 0) (held : Set ι) :
    (Note.returns p call r).after lock held = held := by
  cases call with
  | acquire l => exact if_neg fun hl => h hl.2
  | release l => exact if_neg fun hl => h hl.2
  | cvarWait cvar l => exact if_neg fun hl => h hl.2
  | cvarSignal cvar => rfl
  | cvarBroadcast cvar => rfl

/-- A note about another lock. -/
theorem after_acquire_of_ne {l : ℤ} (h : lock ≠ l) (waited : Option ℤ) (held : Set ι) :
    (Note.returns p (acquireCall l waited) r).after lock held = held := by
  cases waited with
  | none => exact if_neg fun hl => h hl.1.symm
  | some cvar => exact if_neg fun hl => h hl.1.symm

theorem after_acquire (waited : Option ℤ) (held : Set ι) :
    (Note.returns p (acquireCall lock waited) 0).after lock held = insert p held := by
  cases waited with
  | none => exact if_pos ⟨rfl, rfl⟩
  | some cvar => exact if_pos ⟨rfl, rfl⟩

end Holders

/-! ## The law of one object -/

/-- The process is inside `acquire`, of the lock. -/
def Contends (frame : Node → Option SyncFrame) (id : ℤ) (p : Node) : Prop :=
  ∃ waited, frame p = some (.acquiring id waited)

/-- **The law of a lock.** -/
structure LockLaw (frame : Node → Option SyncFrame) (log : List (Note (Node × ℕ))) (id : ℤ)
    (lock : Lock Node) : Prop where
  blocked : ∀ p ∈ lock.blocked, Contends frame id p
  blocked_nodup : lock.blocked.Nodup
  /-- Who was woken is on its way back. -/
  woken : ∀ p, p ∈ lock.woken ↔ Contends frame id p ∧ p ∉ lock.blocked
  woken_nodup : lock.woken.Nodup
  unfulfilled : lock.unfulfilled = lock.woken.length
  holders : ∀ p, p ∈ holderNodes id log ↔ lock.owner = some p

/-- **A free lock is not left with sleepers only.** -/
def Lock.Served (lock : Lock Node) : Prop :=
  lock.owner = none → lock.blocked ≠ [] → lock.woken ≠ []

/-- When a process went to sleep in `wait_cvar`. -/
def sleptAt : Option SyncFrame → ℕ
  | some (.waiting _ _ since) => since
  | _ => 0

/-- **The law of a condition variable**, at a point of the history. -/
structure CvarLaw (frame : Node → Option SyncFrame) (log : List (Note (Node × ℕ))) (id : ℤ)
    (waiters : List Node) : Prop where
  asleep : ∀ p ∈ waiters, ∃ lock since serial, frame p = some (.waiting id lock since) ∧
    log[since]? = some (.waits (p, serial) id lock)
  /-- Who came first stands first. -/
  fifo : waiters.Pairwise fun p q => sleptAt (frame p) < sleptAt (frame q)

section One

variable {frame frame' : Node → Option SyncFrame} {log log' : List (Note (Node × ℕ))} {id : ℤ}
  {lock : Lock Node} {p : Node} {waiters : List Node}

/-- What has the same contenders and holders has the law of the lock. -/
theorem LockLaw.congr (h : LockLaw frame log id lock)
    (hframe : ∀ q, Contends frame' id q ↔ Contends frame id q)
    (hlog : holderNodes id log' = holderNodes id log) : LockLaw frame' log' id lock where
  blocked q hq := (hframe q).mpr (h.blocked q hq)
  blocked_nodup := h.blocked_nodup
  woken q := by rw [h.woken q, hframe q]
  woken_nodup := h.woken_nodup
  unfulfilled := h.unfulfilled
  holders := by
    rw [hlog]
    exact h.holders

/-- A history that goes on, and frames that stay. -/
theorem CvarLaw.congr (h : CvarLaw frame log id waiters)
    (hframe : ∀ q ∈ waiters, frame' q = frame q) (hlog : log <+: log') :
    CvarLaw frame' log' id waiters where
  asleep q hq := by
    obtain ⟨lock, since, serial, hf, hn⟩ := h.asleep q hq
    obtain ⟨later, rfl⟩ := hlog
    refine ⟨lock, since, serial, by rw [hframe q hq, hf], ?_⟩
    rw [List.getElem?_append_left (List.getElem?_eq_some_iff.mp hn).1, hn]
  fifo := by
    refine h.fifo.imp_of_mem fun hp hq hlt => ?_
    rw [hframe _ hp, hframe _ hq]
    exact hlt

/-- Nobody waits twice. -/
theorem CvarLaw.nodup (h : CvarLaw frame log id waiters) : waiters.Nodup :=
  h.fifo.imp fun hlt heq => by
    rw [heq] at hlt
    exact absurd hlt (lt_irrefl _)

section Frames

variable [DecidableEq Node]

theorem contends_update (f : Option SyncFrame) (q : Node) :
    Contends (Function.update frame p f) id q ↔
      if q = p then ∃ waited, f = some (.acquiring id waited) else Contends frame id q := by
  unfold Contends
  rcases eq_or_ne q p with rfl | hne
  · rw [Function.update_self, if_pos rfl]
  · rw [Function.update_of_ne hne, if_neg hne]

/-- A frame that has nothing to do with a lock, before or after. -/
theorem contends_update_of_not {f : Option SyncFrame} (h : ¬ Contends frame id p)
    (hf : ∀ waited, f ≠ some (.acquiring id waited)) (q : Node) :
    Contends (Function.update frame p f) id q ↔ Contends frame id q := by
  rw [contends_update]
  split
  · rename_i heq
    subst heq
    exact ⟨fun ⟨w, hw⟩ => absurd hw (hf w), fun hc => absurd hc h⟩
  · rfl

/-- **A process goes to sleep on the lock.** -/
theorem LockLaw.sleep (h : LockLaw frame log id lock) (hp : ¬ Contends frame id p)
    (waited : Option ℤ) :
    LockLaw (Function.update frame p (some (.acquiring id waited))) log id
      { lock with blocked := lock.blocked ++ [p] } := by
  have hnot : p ∉ lock.blocked := fun hin => hp (h.blocked p hin)
  -- one more contends, and it is queued, so the woken are who they were
  have hcontends : ∀ q, Contends (Function.update frame p (some (.acquiring id waited))) id q ↔
      q = p ∨ Contends frame id q := by
    intro q
    rw [contends_update]
    split
    · rename_i heq
      exact ⟨fun _ => Or.inl heq, fun _ => ⟨waited, rfl⟩⟩
    · rename_i hne
      exact (or_iff_right hne).symm
  constructor
  · intro q hq
    rw [hcontends]
    rcases List.mem_append.mp hq with hin | hin
    · exact Or.inr (h.blocked q hin)
    · exact Or.inl (List.mem_singleton.mp hin)
  · refine h.blocked_nodup.append (List.nodup_singleton p) ?_
    rw [List.disjoint_singleton]
    exact hnot
  · intro q
    dsimp only
    rw [h.woken q, hcontends, List.mem_append, List.mem_singleton, not_or]
    constructor
    · rintro ⟨hc, hq⟩
      exact ⟨Or.inr hc, hq, fun heq => hp (heq ▸ hc)⟩
    · rintro ⟨heq | hc, hq, hne⟩
      · exact absurd heq hne
      · exact ⟨hc, hq⟩
  · exact h.woken_nodup
  · exact h.unfulfilled
  · exact h.holders

/-- **A process that was woken comes back**, and counts itself. -/
theorem LockLaw.fulfil {procs : ProcTable Node} (h : LockLaw frame log id lock)
    (hp : Contends frame id procs.running) (hnot : procs.running ∉ lock.blocked) :
    LockLaw (Function.update frame procs.running none) log id (fulfil procs lock) := by
  have hin : procs.running ∈ lock.woken := (h.woken _).mpr ⟨hp, hnot⟩
  have hcontends : ∀ q, Contends (Function.update frame procs.running none) id q ↔
      q ≠ procs.running ∧ Contends frame id q := by
    intro q
    rw [contends_update]
    split
    · rename_i heq
      exact ⟨fun ⟨w, hw⟩ => absurd hw (Option.some_ne_none _).symm, fun hq => absurd heq hq.1⟩
    · rename_i hne
      exact (and_iff_right hne).symm
  constructor
  · intro q hq
    rw [hcontends]
    exact ⟨fun heq => hnot (heq ▸ hq), h.blocked q hq⟩
  · exact h.blocked_nodup
  · intro q
    rw [hcontends]
    show q ∈ lock.woken.erase procs.running ↔ _ ∧ q ∉ lock.blocked
    rw [h.woken_nodup.mem_erase_iff, h.woken q, and_assoc]
  · exact h.woken_nodup.erase _
  · have hlen := List.length_erase_of_mem hin
    have hpos := List.length_pos_of_mem hin
    have hcount := h.unfulfilled
    show lock.unfulfilled - 1 = ((lock.woken.erase procs.running).length : ℤ)
    omega
  · exact h.holders

end Frames

/-- **A process takes the lock**, which is free or its own. -/
theorem LockLaw.take (h : LockLaw frame log id lock)
    (hfree : lock.owner = none ∨ lock.owner = some p) (serial : ℕ) (waited : Option ℤ) :
    LockLaw frame (log ++ [.returns (p, serial) (acquireCall id waited) 0]) id
      { lock with owner := some p } where
  blocked := h.blocked
  blocked_nodup := h.blocked_nodup
  woken := h.woken
  woken_nodup := h.woken_nodup
  unfulfilled := h.unfulfilled
  holders q := by
    have hnote : (Note.returns (p, serial) (acquireCall id waited) 0).map Prod.fst =
        .returns p (acquireCall id waited) 0 := rfl
    rw [holderNodes_append, hnote, after_acquire, Set.mem_insert_iff, h.holders q]
    dsimp only
    rw [Option.some.injEq]
    constructor
    · rintro (rfl | hq)
      · rfl
      · rcases hfree with hnone | hself
        · rw [hnone] at hq
          cases hq
        · exact Option.some.inj (hself.symm.trans hq)
    · rintro rfl
      exact Or.inl rfl

/-- **The owner gives the lock up**, and the first of the sleepers is
woken. -/
theorem LockLaw.release (h : LockLaw frame log id lock) (hown : lock.owner = some p)
    {n : Note (Node × ℕ)} (hn : ∀ held, (n.map Prod.fst).after id held = held \ {p}) :
    LockLaw frame (log ++ [n]) id { lock with
      owner := none
      blocked := lock.blocked.tail
      unfulfilled := lock.unfulfilled + (lock.blocked.take 1).length
      woken := lock.woken ++ lock.blocked.take 1 } := by
  -- the caller was the only holder
  have hgone : ∀ q, q ∈ holderNodes id (log ++ [n]) ↔ (none : Option Node) = some q := by
    intro q
    rw [holderNodes_append, hn, Set.mem_sdiff, Set.mem_singleton_iff, h.holders q, hown,
      Option.some.injEq]
    constructor
    · rintro ⟨heq, hne⟩
      exact absurd heq.symm hne
    · intro hq
      cases hq
  cases hb : lock.blocked with
  | nil =>
    refine ⟨fun q hq => absurd hq List.not_mem_nil, List.nodup_nil, fun q => ?_, ?_, ?_, hgone⟩
    · have := h.woken q
      rw [hb] at this
      simpa using this
    · simpa using h.woken_nodup
    · simpa using h.unfulfilled
  | cons x rest =>
    -- the head passes from the queue to the woken and contends all along
    have hnd := h.blocked_nodup
    rw [hb, List.nodup_cons] at hnd
    have hx : x ∉ lock.woken := by
      intro hin
      refine ((h.woken x).mp hin).2 ?_
      rw [hb]
      exact List.mem_cons_self
    refine ⟨fun q hq => h.blocked q ?_, hnd.2, fun q => ?_, ?_, ?_, hgone⟩
    · rw [hb]
      exact List.mem_cons_of_mem _ hq
    · show q ∈ lock.woken ++ [x] ↔ Contends frame id q ∧ q ∉ rest
      rw [List.mem_append, List.mem_singleton, h.woken q, hb, List.mem_cons, not_or]
      constructor
      · rintro (⟨hc, -, hq⟩ | rfl)
        · exact ⟨hc, hq⟩
        · refine ⟨h.blocked q ?_, hnd.1⟩
          rw [hb]
          exact List.mem_cons_self
      · rintro ⟨hc, hq⟩
        by_cases heq : q = x
        · exact Or.inr heq
        · exact Or.inl ⟨hc, heq, hq⟩
    · show (lock.woken ++ [x]).Nodup
      refine h.woken_nodup.append (List.nodup_singleton x) ?_
      rw [List.disjoint_singleton]
      exact hx
    · have := h.unfulfilled
      show lock.unfulfilled + 1 = ((lock.woken ++ [x]).length : ℤ)
      rw [List.length_append, List.length_singleton]
      omega

section Waiting

variable [DecidableEq Node]

/-- **A process goes to sleep in `wait_cvar`**, last of all. -/
theorem CvarLaw.sleep (h : CvarLaw frame log id waiters) (hp : p ∉ waiters) (lock : ℤ)
    (serial : ℕ) :
    CvarLaw (Function.update frame p (some (.waiting id lock log.length)))
      (log ++ [.waits (p, serial) id lock]) id (waiters ++ [p]) := by
  have hother : ∀ q ∈ waiters,
      Function.update frame p (some (.waiting id lock log.length)) q = frame q := by
    intro q hq
    refine Function.update_of_ne ?_ _ _
    rintro rfl
    exact hp hq
  have hself : Function.update frame p (some (.waiting id lock log.length)) p =
      some (.waiting id lock log.length) := Function.update_self _ _ _
  have hold := h.congr hother (List.prefix_append log [.waits (p, serial) id lock])
  constructor
  · intro q hq
    rcases List.mem_append.mp hq with hin | hin
    · exact hold.asleep q hin
    · obtain rfl := List.mem_singleton.mp hin
      exact ⟨lock, log.length, serial, hself, List.getElem?_concat_length⟩
  · rw [List.pairwise_append]
    refine ⟨hold.fifo, List.pairwise_singleton _ _, fun q hq r hr => ?_⟩
    obtain rfl := List.mem_singleton.mp hr
    obtain ⟨lock', since, serial', hf, hn⟩ := h.asleep q hq
    -- its note is one of those there already
    rw [hother q hq, hf, hself]
    exact (List.getElem?_eq_some_iff.mp hn).1

end Waiting

/-- Who is taken off the queue leaves the others in order. -/
theorem CvarLaw.sublist {waiters' : List Node} (h : CvarLaw frame log id waiters)
    (hsub : waiters'.Sublist waiters) : CvarLaw frame log id waiters' :=
  ⟨fun q hq => h.asleep q (hsub.subset hq), h.fifo.sublist hsub⟩

end One

end Yalnix
