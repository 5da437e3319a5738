import Yalnix.Common.Scan
import Yalnix.Memory.UserAccess
/-!
# What the checks of user memory leave out

`check_addr` looks at no protection bit, and `check_args` at one byte of each
pointer it loads. The other checks go through these two. A buffer that cannot
be accessed passes; a string or a vector that cannot be read never does, for
the load of what cannot be read ends the kernel. The checks are exact where
what they leave out is there.
-/

namespace Yalnix

variable [Paging]

open Paging Scan

/-! ## What the checks are to say -/

/-- The protection of the address's page has the bit asked for. -/
def grants (pt : ℤ → Pte) (prot : ℕ) (addr : ℤ) : Prop := (pteAt pt addr).prot &&& prot ≠ 0

/-- The byte can be read, or written. -/
def accessible (pt : ℤ → Pte) (prot : ℕ) (addr : ℤ) : Prop :=
  mapped pt addr ∧ grants pt prot addr

/-- The bytes from an address on. -/
def bytesFrom (mem : Memory) (pt : ℤ → Pte) (addr : ℤ) (i : ℕ) : Byte := byteAt mem pt (addr + i)

/-- The pointers from an address on. -/
def pointersFrom (mem : Memory) (pt : ℤ → Pte) (args : ℤ) (i : ℕ) : ℤ :=
  wordAt mem pt (args + 4 * i)

/-- All four bytes of the `i`-th pointer can be read. -/
def pointerReadable (pt : ℤ → Pte) (args : ℤ) (i : ℕ) : Prop :=
  ∀ b : ℕ, b < 4 → accessible pt protRead (args + 4 * i + b)

/-- A string that can be read, up to and with its NUL, which is one of
`MAX_CHECK` bytes. -/
def StringReadable (mem : Memory) (pt : ℤ → Pte) (addr : ℤ) : Prop :=
  ∃ n < maxCheck, bytesFrom mem pt addr n = 0 ∧ (∀ i < n, bytesFrom mem pt addr i ≠ 0) ∧
    ∀ i ≤ n, accessible pt protRead (addr + (i : ℕ))

/-- A vector whose pointers can be read, up to and with its NULL, which is
one of `MAX_CHECK`, of strings that `check_string` accepts. -/
def ArgsReadable (mem : Memory) (pt : ℤ → Pte) (args : ℤ) : Prop :=
  ∃ n < maxCheck, pointersFrom mem pt args n = 0 ∧ (∀ i < n, pointersFrom mem pt args i ≠ 0) ∧
    (∀ i ≤ n, pointerReadable pt args i) ∧
    ∀ i < n, checkString mem (pointersFrom mem pt args i) pt = some true

omit [Paging] in
/-- **A check answers, and rightly.** -/
def Exact (check : Option Bool) (spec : Prop) : Prop :=
  (check = some true ↔ spec) ∧ (check = some false ↔ ¬ spec)

/-- The check of a buffer is exact. -/
def BufferExact (pt : ℤ → Pte) (len addr : ℤ) (prot : ℕ) : Prop :=
  checkBuffer len addr prot pt = true ↔ ∀ i : ℕ, i < len.toNat → accessible pt prot (addr + i)

/-- The check of a string is. -/
def StringExact (mem : Memory) (pt : ℤ → Pte) (addr : ℤ) : Prop :=
  Exact (checkString mem addr pt) (StringReadable mem pt addr)

/-- The check of a vector is. -/
def ArgsExact (mem : Memory) (pt : ℤ → Pte) (args : ℤ) : Prop :=
  Exact (checkArgs mem args pt) (ArgsReadable mem pt args)

/-! ## What they leave out -/

/-- A buffer that is on valid pages has the bit asked for on all of them. -/
def BufferGranted (pt : ℤ → Pte) (len addr : ℤ) (prot : ℕ) : Prop :=
  (∀ i : ℕ, i < len.toNat → mapped pt (addr + i)) →
    ∀ i : ℕ, i < len.toNat → grants pt prot (addr + i)

/-- Where the bytes before it can be read and none is the NUL, a byte on a
valid page can be read. -/
def StringGranted (mem : Memory) (pt : ℤ → Pte) (addr : ℤ) : Prop :=
  ∀ n < maxCheck,
    (∀ i < n, accessible pt protRead (addr + (i : ℕ)) ∧ bytesFrom mem pt addr i ≠ 0) →
    mapped pt (addr + (n : ℕ)) → grants pt protRead (addr + (n : ℕ))

/-- Where the pointers before it can be read, none is NULL and the strings
can be read, a pointer that starts on a valid page can be read, all four
bytes of it, and its string has what a string is to have. -/
def ArgsGranted (mem : Memory) (pt : ℤ → Pte) (args : ℤ) : Prop :=
  ∀ n < maxCheck,
    (∀ i < n, pointerReadable pt args i ∧ pointersFrom mem pt args i ≠ 0 ∧
      StringReadable mem pt (pointersFrom mem pt args i)) →
    mapped pt (args + 4 * (n : ℕ)) →
    pointerReadable pt args n ∧ (pointersFrom mem pt args n ≠ 0 →
      StringGranted mem pt (pointersFrom mem pt args n))

variable {mem : Memory} {pt : ℤ → Pte} {addr len : ℤ} {prot : ℕ}

theorem accessible_read_iff : accessible pt protRead addr ↔ readable pt addr = true :=
  readable_iff.symm

/-! ## A string -/

/-- One turn of `check_string`. -/
def stringTurn (mem : Memory) (pt : ℤ → Pte) (addr : ℤ) (i : ℕ) : Turn :=
  if ¬ checkAddr (addr + i) protRead pt then .ends false
  else match loadByte mem pt (addr + i) with
    | none => .fault
    | some byte => if byte = 0 then .ends true else .goesOn

theorem stringTurn_succ (mem : Memory) (pt : ℤ → Pte) (addr : ℤ) (i : ℕ) :
    stringTurn mem pt addr (i + 1) = stringTurn mem pt (addr + 1) i := by
  have hplace : addr + ((i + 1 : ℕ) : ℤ) = addr + 1 + i := by
    push_cast
    omega
  unfold stringTurn
  rw [hplace]

theorem checkString_eq_scan :
    checkString mem addr pt = scan maxCheck (stringTurn mem pt addr) := by
  have hloop : ∀ (fuel : ℕ) (addr : ℤ),
      checkStringLoop mem pt fuel addr = scan fuel (stringTurn mem pt addr) := by
    intro fuel
    induction fuel with
    | zero => exact fun addr => rfl
    | succ fuel ih =>
      intro addr
      have hfirst : addr + ((0 : ℕ) : ℤ) = addr := Int.add_zero addr
      rw [checkStringLoop, scan, stringTurn, hfirst, ih]
      simp only [stringTurn_succ]
      by_cases hcheck : checkAddr addr protRead pt = true
      · cases hload : loadByte mem pt addr with
        | none => simp [hcheck]
        | some byte =>
          by_cases hbyte : byte = 0 <;> simp [hcheck, hbyte]
      · simp [hcheck]
  exact hloop maxCheck addr

/-- What a turn comes to, by what is on the page. -/
theorem stringTurn_iff {i : ℕ} :
    (stringTurn mem pt addr i = .ends true ↔
      accessible pt protRead (addr + i) ∧ bytesFrom mem pt addr i = 0) ∧
    (stringTurn mem pt addr i = .goesOn ↔
      accessible pt protRead (addr + i) ∧ bytesFrom mem pt addr i ≠ 0) ∧
    (stringTurn mem pt addr i ≠ .fault ↔
      (mapped pt (addr + i) → grants pt protRead (addr + i))) := by
  have hchecked : checkAddr (addr + i) protRead pt = true ↔ mapped pt (addr + i) := checkAddr_iff
  have hread : readable pt (addr + i) = true ↔
      mapped pt (addr + i) ∧ grants pt protRead (addr + i) := readable_iff
  unfold stringTurn accessible loadByte bytesFrom
  by_cases hmapped : mapped pt (addr + i)
  · by_cases hgrants : grants pt protRead (addr + i)
    · rw [if_neg (not_not_intro (hchecked.mpr hmapped)), if_pos (hread.mpr ⟨hmapped, hgrants⟩)]
      by_cases hbyte : byteAt mem pt (addr + i) = 0 <;> simp [hmapped, hgrants, hbyte]
    · rw [if_neg (not_not_intro (hchecked.mpr hmapped)),
        if_neg fun h => hgrants (hread.mp h).2]
      simp [hmapped, hgrants]
  · rw [if_pos fun h => hmapped (hchecked.mp h)]
    simp [hmapped]

/-- **`check_string` accepts** the strings that can be read. -/
theorem checkString_iff : checkString mem addr pt = some true ↔ StringReadable mem pt addr := by
  rw [checkString_eq_scan, scan_eq_true_iff]
  refine exists_congr fun n => and_congr_right fun _ => ?_
  simp only [stringTurn_iff.1, stringTurn_iff.2.1]
  constructor
  · rintro ⟨⟨hlast, hzero⟩, hbefore⟩
    refine ⟨hzero, fun i hi => (hbefore i hi).2, fun i hi => ?_⟩
    rcases Nat.lt_or_eq_of_le hi with hlt | rfl
    · exact (hbefore i hlt).1
    · exact hlast
  · rintro ⟨hzero, hbefore, hread⟩
    exact ⟨⟨hread n le_rfl, hzero⟩, fun i hi => ⟨hread i hi.le, hbefore i hi⟩⟩

/-- It gets through where no byte it gets to faults. -/
theorem checkString_ne_none_iff :
    checkString mem addr pt ≠ none ↔ StringGranted mem pt addr := by
  rw [checkString_eq_scan, scan_ne_none_iff]
  unfold StringGranted
  simp only [stringTurn_iff.2.1, stringTurn_iff.2.2]

/-! ## A vector -/

/-- One turn of `check_args`. -/
def argsTurn (mem : Memory) (pt : ℤ → Pte) (args : ℤ) (i : ℕ) : Turn :=
  if ¬ checkAddr (args + 4 * i) protRead pt then .ends false
  else match loadWord mem pt (args + 4 * i) with
    | none => .fault
    | some arg =>
      if arg = 0 then .ends true
      else match checkString mem arg pt with
        | none => .fault
        | some ok => if ok then .goesOn else .ends false

theorem argsTurn_succ (mem : Memory) (pt : ℤ → Pte) (args : ℤ) (i : ℕ) :
    argsTurn mem pt args (i + 1) = argsTurn mem pt (args + 4) i := by
  have hplace : args + 4 * ((i + 1 : ℕ) : ℤ) = args + 4 + 4 * i := by
    push_cast
    omega
  unfold argsTurn
  rw [hplace]

theorem checkArgs_eq_scan : checkArgs mem addr pt = scan maxCheck (argsTurn mem pt addr) := by
  have hloop : ∀ (fuel : ℕ) (args : ℤ),
      checkArgsLoop mem pt fuel args = scan fuel (argsTurn mem pt args) := by
    intro fuel
    induction fuel with
    | zero => exact fun args => rfl
    | succ fuel ih =>
      intro args
      have hfirst : args + 4 * ((0 : ℕ) : ℤ) = args := by omega
      rw [checkArgsLoop, scan, argsTurn, hfirst, ih]
      simp only [argsTurn_succ]
      by_cases hcheck : checkAddr args protRead pt = true
      · cases hload : loadWord mem pt args with
        | none => simp [hcheck]
        | some arg =>
          by_cases hnull : arg = 0
          · simp [hcheck, hnull]
          · cases hstring : checkString mem arg pt with
            | none => simp [hcheck, hnull, hstring]
            | some ok => cases ok <;> simp [hcheck, hnull, hstring]
      · simp [hcheck]
  exact hloop maxCheck addr

theorem argsTurn_iff {i : ℕ} :
    (argsTurn mem pt addr i = .ends true ↔
      pointerReadable pt addr i ∧ pointersFrom mem pt addr i = 0) ∧
    (argsTurn mem pt addr i = .goesOn ↔
      pointerReadable pt addr i ∧ pointersFrom mem pt addr i ≠ 0 ∧
        checkString mem (pointersFrom mem pt addr i) pt = some true) ∧
    (argsTurn mem pt addr i ≠ .fault ↔ (mapped pt (addr + 4 * i) →
      pointerReadable pt addr i ∧ (pointersFrom mem pt addr i ≠ 0 →
        checkString mem (pointersFrom mem pt addr i) pt ≠ none))) := by
  have hchecked : checkAddr (addr + 4 * i) protRead pt = true ↔ mapped pt (addr + 4 * i) :=
    checkAddr_iff
  have hread : pointerReadable pt addr i ↔
      ∀ b : ℕ, b < 4 → readable pt (addr + 4 * i + b) = true :=
    forall₂_congr fun _ _ => accessible_read_iff
  -- a pointer that can be read starts on a valid page
  have hstart : pointerReadable pt addr i → mapped pt (addr + 4 * i) := by
    intro h
    have hfirst := (h 0 (by decide)).1
    rwa [Nat.cast_zero, Int.add_zero] at hfirst
  unfold argsTurn pointersFrom
  by_cases hmapped : mapped pt (addr + 4 * i)
  · rw [if_neg (not_not_intro (hchecked.mpr hmapped))]
    by_cases hbytes : pointerReadable pt addr i
    · rw [loadWord_of_readable (hread.mp hbytes)]
      by_cases hnull : wordAt mem pt (addr + 4 * i) = 0
      · simp [hbytes, hnull]
      · cases hstring : checkString mem (wordAt mem pt (addr + 4 * i)) pt with
        | none => simp [hmapped, hnull, hstring]
        | some ok => cases ok <;> simp [hbytes, hnull, hstring]
    · rw [loadWord_eq_none_iff.mpr fun h => hbytes (hread.mpr h)]
      simp [hmapped, hbytes]
  · rw [if_pos fun h => hmapped (hchecked.mp h)]
    have hbytes : ¬ pointerReadable pt addr i := fun h => hmapped (hstart h)
    simp [hmapped, hbytes]

/-- **`check_args` accepts** the vectors that can be read. -/
theorem checkArgs_iff : checkArgs mem addr pt = some true ↔ ArgsReadable mem pt addr := by
  rw [checkArgs_eq_scan, scan_eq_true_iff]
  refine exists_congr fun n => and_congr_right fun _ => ?_
  simp only [argsTurn_iff.1, argsTurn_iff.2.1]
  constructor
  · rintro ⟨⟨hlast, hnull⟩, hbefore⟩
    refine ⟨hnull, fun i hi => (hbefore i hi).2.1, fun i hi => ?_,
      fun i hi => (hbefore i hi).2.2⟩
    rcases Nat.lt_or_eq_of_le hi with hlt | rfl
    · exact (hbefore i hlt).1
    · exact hlast
  · rintro ⟨hnull, hbefore, hread, hstrings⟩
    exact ⟨⟨hread n le_rfl, hnull⟩, fun i hi => ⟨hread i hi.le, hbefore i hi, hstrings i hi⟩⟩

theorem checkArgs_ne_none_iff : checkArgs mem addr pt ≠ none ↔ ArgsGranted mem pt addr := by
  rw [checkArgs_eq_scan, scan_ne_none_iff]
  unfold ArgsGranted
  simp only [argsTurn_iff.2.1, argsTurn_iff.2.2, checkString_iff, checkString_ne_none_iff]

/-! ## Where they are exact -/

omit [Paging] in
/-- **A check that accepts what it should** is exact where it answers. -/
theorem exact_iff_ne_none {check : Option Bool} {spec : Prop} (h : check = some true ↔ spec) :
    Exact check spec ↔ check ≠ none := by
  unfold Exact
  rw [← h]
  cases check with
  | none => simp
  | some ok => cases ok <;> simp

theorem bufferExact_iff : BufferExact pt len addr prot ↔ BufferGranted pt len addr prot := by
  have hchecked : checkBuffer len addr prot pt = true ↔
      ∀ i : ℕ, i < len.toNat → mapped pt (addr + i) :=
    checkBuffer_iff.trans (forall₂_congr fun _ _ => checkAddr_iff)
  unfold BufferExact BufferGranted accessible
  rw [hchecked, forall₂_and]
  exact iff_self_and

theorem stringExact_iff : StringExact mem pt addr ↔ StringGranted mem pt addr :=
  (exact_iff_ne_none checkString_iff).trans checkString_ne_none_iff

theorem argsExact_iff : ArgsExact mem pt addr ↔ ArgsGranted mem pt addr :=
  (exact_iff_ne_none checkArgs_iff).trans checkArgs_ne_none_iff

/-- **The checks of a buffer, a string and a vector are exact** exactly where
what they leave out is there; a string or a vector is accepted exactly if it
can be read. -/
theorem checks_exact_iff (mem : Memory) (pt : ℤ → Pte) (len addr : ℤ) (prot : ℕ) :
    (BufferExact pt len addr prot ↔ BufferGranted pt len addr prot) ∧
      (StringExact mem pt addr ↔ StringGranted mem pt addr) ∧
      (ArgsExact mem pt addr ↔ ArgsGranted mem pt addr) ∧
      (checkString mem addr pt = some true ↔ StringReadable mem pt addr) ∧
      (checkArgs mem addr pt = some true ↔ ArgsReadable mem pt addr) :=
  ⟨bufferExact_iff, stringExact_iff, argsExact_iff, checkString_iff, checkArgs_iff⟩

omit [Paging] in
/-- A page of text, which is not for writing, passes for a buffer that is
written to; and a vector whose NULL has its last two bytes on a page that is
not valid ends the kernel. -/
theorem not_checks_exact :
    let _ := yalnixPaging
    let pt : ℤ → Pte := fun i => if i = 0 then ⟨true, 7, protRead ||| protExec⟩ else invalidPte
    (checkBuffer 1 0x100000 protWrite pt = true ∧ ¬ accessible pt protWrite 0x100000 ∧
        ¬ BufferExact pt 1 0x100000 protWrite) ∧
      ∃ mem : Memory, checkArgs mem 0x101ffe pt = none ∧ ¬ ArgsReadable mem pt 0x101ffe ∧
        ¬ ArgsExact mem pt 0x101ffe := by
  let _ := yalnixPaging
  let pt : ℤ → Pte := fun i => if i = 0 then ⟨true, 7, protRead ||| protExec⟩ else invalidPte
  let mem : Memory := ⟨newFreeFrame 0, fun _ _ => 0, invalidPte, fun _ => invalidPte⟩
  have hbuffer : checkBuffer 1 0x100000 protWrite pt = true := by
    decide +kernel
  have hargs : checkArgs mem 0x101ffe pt = none := by
    decide +kernel
  have htext : ¬ accessible pt protWrite 0x100000 := by
    rintro ⟨-, hgrants⟩
    exact hgrants (by decide +kernel)
  have hnext : ¬ accessible pt protRead 0x102000 := by
    rintro ⟨hmapped, -⟩
    have hvalid : (pteAt pt 0x102000).valid = false := by decide +kernel
    rw [hmapped.2.2] at hvalid
    cases hvalid
  have hunread : ¬ ArgsReadable mem pt 0x101ffe := by
    rintro ⟨n, -, -, -, hread, -⟩
    exact hnext (hread 0 (Nat.zero_le n) 2 (by decide))
  refine ⟨⟨hbuffer, htext, fun h => ?_⟩, mem, hargs, hunread, fun h => ?_⟩
  · have hfirst := h.mp hbuffer 0 (by decide)
    rw [Nat.cast_zero, Int.add_zero] at hfirst
    exact htext hfirst
  · -- it would have to say no, and does not answer
    have hno := h.2.mpr hunread
    rw [hargs] at hno
    cases hno

end Yalnix
