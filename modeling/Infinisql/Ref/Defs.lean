import Mathlib.Algebra.Group.Int.Defs
import Mathlib.Algebra.GroupWithZero.Nat
import Mathlib.Data.List.Basic

/-!
# Shared definitions of the engine and the transaction

The enumerations of `infinisql.h` and `defs.h`, under the source's words, and
the flag byte of a row with the accessors of `globals.cc`.

The flag byte stays a byte. `setwritelock` and `setreadlock` refuse a byte
whose locked bit is already set, `clearlockedflag` leaves the lock type bit
behind, and the row functions sometimes assign the whole byte at once, so
none of the bits is independent of the others and a record of booleans would
hide what the code does with them. The lemmas below say what each accessor
reads after each setter; they are checked over all 256 bytes, and nothing
after this file looks at a bit.
-/

namespace Infinisql.Ref

/-- A row string, or the bytes of a `CHARX` or `VARCHAR` value. -/
abbrev Bytes := List UInt8

/-- `locktype_e`, less the transitions that only the lock queue's consumer
would use. -/
inductive Locktype
  | notFoundLock
  | noLock
  | readLock
  | writeLock
  | pendingLock
  | indexLock
  | indexPendingLock
  deriving DecidableEq, Repr

/-- `enginecmd_e`. -/
inductive Enginecmd
  | noEngineCmd
  | newRow
  | uniqueIndex
  | updateRow
  | deleteRow
  | replaceDeleteRow
  | indexSearch
  | selectRows
  | commitCmd
  | rollbackCmd
  | revertCmd
  | unlockCmd
  | searchReturn1
  deriving DecidableEq, Repr

/-- The status an engine function returns. -/
inductive Status
  | ok
  | notOk
  deriving DecidableEq, Repr

/-! ## The flag byte -/

abbrev Flags := BitVec 8

def DELETEFLAG : Nat := 0
def INSERTFLAG : Nat := 1
def LOCKEDFLAG : Nat := 2
/-- 0 is a read lock, 1 is a write lock. -/
def LOCKTYPEFLAG : Nat := 3
def REPLACEDELETEFLAG : Nat := 4

/-- `c & 1 << bit`, as a condition. -/
def testFlag (c : Flags) (bit : Nat) : Bool := c &&& (1#8 <<< bit) != 0#8

def setFlag (c : Flags) (bit : Nat) : Flags := c ||| (1#8 <<< bit)

def clearFlag (c : Flags) (bit : Nat) : Flags := c &&& ~~~(1#8 <<< bit)

def setdeleteflag (c : Flags) : Flags := setFlag c DELETEFLAG
def getdeleteflag (c : Flags) : Bool := testFlag c DELETEFLAG
def cleardeleteflag (c : Flags) : Flags := clearFlag c DELETEFLAG
def setinsertflag (c : Flags) : Flags := setFlag c INSERTFLAG
def getinsertflag (c : Flags) : Bool := testFlag c INSERTFLAG
def setreplacedeleteflag (c : Flags) : Flags := setFlag c REPLACEDELETEFLAG
def getreplacedeleteflag (c : Flags) : Bool := testFlag c REPLACEDELETEFLAG
def clearreplacedeleteflag (c : Flags) : Flags := clearFlag c REPLACEDELETEFLAG
def clearlockedflag (c : Flags) : Flags := clearFlag c LOCKEDFLAG

/-- The byte is left alone when it is already locked; no caller reads the
boolean the source returns as well. -/
def setwritelock (c : Flags) : Flags :=
  if testFlag c LOCKEDFLAG then c
  else setFlag (setFlag c LOCKEDFLAG) LOCKTYPEFLAG

def setreadlock (c : Flags) : Flags :=
  if testFlag c LOCKEDFLAG then c
  else clearFlag (setFlag c LOCKEDFLAG) LOCKTYPEFLAG

def getlocktype (c : Flags) : Locktype :=
  if !testFlag c LOCKEDFLAG then .noLock
  else if testFlag c LOCKTYPEFLAG then .writeLock
  else .readLock

/-! ## What each accessor reads after each setter -/

theorem testFlag_eq (c : Flags) (bit : Nat) :
    testFlag c bit = c.getLsbD bit := by
  rw [testFlag, ← BitVec.twoPow_eq, BitVec.and_twoPow]
  cases h : c.getLsbD bit with
  | false => rfl
  | true =>
      have hlt : bit < 8 := BitVec.lt_of_getLsbD h
      rw [if_pos rfl, bne_iff_ne]
      intro hzero
      have hbit := BitVec.getLsbD_twoPow (w := 8) bit bit
      rw [hzero] at hbit
      simp [hlt] at hbit

theorem testFlag_setFlag (c : Flags) {n : Nat} (hn : n < 8) (bit : Nat) :
    testFlag (setFlag c n) bit = (testFlag c bit || decide (n = bit)) := by
  rw [testFlag_eq, testFlag_eq, setFlag, ← BitVec.twoPow_eq, BitVec.getLsbD_or,
    BitVec.getLsbD_twoPow]
  simp [hn]

theorem testFlag_clearFlag (c : Flags) (n bit : Nat) :
    testFlag (clearFlag c n) bit = (testFlag c bit && !decide (n = bit)) := by
  rw [testFlag_eq, testFlag_eq, clearFlag, ← BitVec.twoPow_eq,
    BitVec.getLsbD_and, BitVec.getLsbD_not, BitVec.getLsbD_twoPow]
  cases h : c.getLsbD bit with
  | false => rfl
  | true =>
      have hlt : bit < 8 := BitVec.lt_of_getLsbD h
      by_cases heq : n = bit
      · simp [heq, hlt]
      · simp [heq, hlt]

/-- A lock touches its own two bits. -/
theorem testFlag_setwritelock (c : Flags) {bit : Nat} (hlocked : LOCKEDFLAG ≠ bit)
    (htype : LOCKTYPEFLAG ≠ bit) :
    testFlag (setwritelock c) bit = testFlag c bit := by
  unfold setwritelock
  split
  · rfl
  · rw [testFlag_setFlag _ (by decide), testFlag_setFlag _ (by decide),
      decide_eq_false hlocked, decide_eq_false htype, Bool.or_false,
      Bool.or_false]

theorem testFlag_setreadlock (c : Flags) {bit : Nat} (hlocked : LOCKEDFLAG ≠ bit)
    (htype : LOCKTYPEFLAG ≠ bit) :
    testFlag (setreadlock c) bit = testFlag c bit := by
  unfold setreadlock
  split
  · rfl
  · rw [testFlag_clearFlag, testFlag_setFlag _ (by decide),
      decide_eq_false hlocked, decide_eq_false htype, Bool.or_false,
      Bool.not_false, Bool.and_true]

/-- The lock is what its two bits say. -/
theorem getlocktype_congr {c c' : Flags}
    (hlocked : testFlag c LOCKEDFLAG = testFlag c' LOCKEDFLAG)
    (htype : testFlag c LOCKTYPEFLAG = testFlag c' LOCKTYPEFLAG) :
    getlocktype c = getlocktype c' := by
  rw [getlocktype, getlocktype, hlocked, htype]

theorem getlocktype_setFlag (c : Flags) {n : Nat} (hn : n < 8)
    (hlocked : n ≠ LOCKEDFLAG) (htype : n ≠ LOCKTYPEFLAG) :
    getlocktype (setFlag c n) = getlocktype c := by
  apply getlocktype_congr
  · rw [testFlag_setFlag c hn, decide_eq_false hlocked, Bool.or_false]
  · rw [testFlag_setFlag c hn, decide_eq_false htype, Bool.or_false]

theorem getlocktype_clearFlag (c : Flags) {n : Nat} (hlocked : n ≠ LOCKEDFLAG)
    (htype : n ≠ LOCKTYPEFLAG) :
    getlocktype (clearFlag c n) = getlocktype c := by
  apply getlocktype_congr
  · rw [testFlag_clearFlag, decide_eq_false hlocked, Bool.not_false,
      Bool.and_true]
  · rw [testFlag_clearFlag, decide_eq_false htype, Bool.not_false,
      Bool.and_true]

theorem getlocktype_cases : ∀ c : Flags, getlocktype c = .noLock ∨
    getlocktype c = .readLock ∨ getlocktype c = .writeLock := by
  intro c
  unfold getlocktype
  split
  · exact .inl rfl
  · split
    · exact .inr (.inr rfl)
    · exact .inr (.inl rfl)

theorem unlocked_of_noLock {c : Flags} (h : getlocktype c = .noLock) :
    testFlag c LOCKEDFLAG = false := by
  cases hlocked : testFlag c LOCKEDFLAG with
  | false => rfl
  | true =>
      rw [getlocktype, hlocked] at h
      cases htype : testFlag c LOCKTYPEFLAG <;> rw [htype] at h <;> cases h

theorem getlocktype_setwritelock : ∀ c : Flags, getlocktype c = .noLock →
    getlocktype (setwritelock c) = .writeLock := by
  intro c h
  rw [setwritelock, unlocked_of_noLock h, if_neg Bool.false_ne_true, getlocktype,
    testFlag_setFlag _ (by decide), testFlag_setFlag _ (by decide),
    testFlag_setFlag _ (by decide)]
  simp [LOCKEDFLAG, LOCKTYPEFLAG]

theorem getlocktype_setreadlock : ∀ c : Flags, getlocktype c = .noLock →
    getlocktype (setreadlock c) = .readLock := by
  intro c h
  rw [setreadlock, unlocked_of_noLock h, if_neg Bool.false_ne_true, getlocktype,
    testFlag_clearFlag, testFlag_clearFlag, testFlag_setFlag _ (by decide)]
  simp [LOCKEDFLAG, LOCKTYPEFLAG]

/-- The lock reads the same under every setter that is not a lock. -/
@[simp] theorem getlocktype_frame : ∀ c : Flags,
    getlocktype (setdeleteflag c) = getlocktype c ∧
    getlocktype (cleardeleteflag c) = getlocktype c ∧
    getlocktype (setinsertflag c) = getlocktype c ∧
    getlocktype (setreplacedeleteflag c) = getlocktype c ∧
    getlocktype (clearreplacedeleteflag c) = getlocktype c ∧
    getlocktype (clearlockedflag c) = .noLock := by
  intro c
  refine ⟨getlocktype_setFlag c (by decide) (by decide) (by decide),
    getlocktype_clearFlag c (by decide) (by decide),
    getlocktype_setFlag c (by decide) (by decide) (by decide),
    getlocktype_setFlag c (by decide) (by decide) (by decide),
    getlocktype_clearFlag c (by decide) (by decide), ?_⟩
  rw [clearlockedflag, getlocktype, testFlag_clearFlag]
  simp

/-- A flag is set by its own setter, and nothing else changes it. -/
theorem testFlag_frame (c : Flags) (bit : Nat) (hbit : bit < 8)
    (hlocked : LOCKEDFLAG ≠ bit) (htype : LOCKTYPEFLAG ≠ bit) :
    testFlag (setFlag c bit) bit = true ∧
    testFlag (setwritelock c) bit = testFlag c bit ∧
    testFlag (setreadlock c) bit = testFlag c bit ∧
    testFlag (clearlockedflag c) bit = testFlag c bit ∧
    ∀ n < 8, n ≠ bit → testFlag (setFlag c n) bit = testFlag c bit := by
  refine ⟨?_, testFlag_setwritelock c hlocked htype,
    testFlag_setreadlock c hlocked htype, ?_, fun n hn hne => ?_⟩
  · rw [testFlag_setFlag c hbit, decide_eq_true rfl, Bool.or_true]
  · rw [clearlockedflag, testFlag_clearFlag, decide_eq_false hlocked,
      Bool.not_false, Bool.and_true]
  · rw [testFlag_setFlag c hn, decide_eq_false hne, Bool.or_false]

@[simp] theorem getinsertflag_frame : ∀ c : Flags,
    getinsertflag (setinsertflag c) = true ∧
    getinsertflag (setwritelock c) = getinsertflag c ∧
    getinsertflag (setreadlock c) = getinsertflag c ∧
    getinsertflag (clearlockedflag c) = getinsertflag c ∧
    getinsertflag (setdeleteflag c) = getinsertflag c ∧
    getinsertflag (setreplacedeleteflag c) = getinsertflag c := by
  intro c
  obtain ⟨hset, hwrite, hread, hclear, hother⟩ :=
    testFlag_frame c INSERTFLAG (by decide) (by decide) (by decide)
  exact ⟨hset, hwrite, hread, hclear, hother _ (by decide) (by decide),
    hother _ (by decide) (by decide)⟩

@[simp] theorem getdeleteflag_frame : ∀ c : Flags,
    getdeleteflag (setdeleteflag c) = true ∧
    getdeleteflag (setwritelock c) = getdeleteflag c ∧
    getdeleteflag (setreadlock c) = getdeleteflag c ∧
    getdeleteflag (clearlockedflag c) = getdeleteflag c ∧
    getdeleteflag (setinsertflag c) = getdeleteflag c ∧
    getdeleteflag (setreplacedeleteflag c) = getdeleteflag c := by
  intro c
  obtain ⟨hset, hwrite, hread, hclear, hother⟩ :=
    testFlag_frame c DELETEFLAG (by decide) (by decide) (by decide)
  exact ⟨hset, hwrite, hread, hclear, hother _ (by decide) (by decide),
    hother _ (by decide) (by decide)⟩

@[simp] theorem getreplacedeleteflag_frame : ∀ c : Flags,
    getreplacedeleteflag (setreplacedeleteflag c) = true ∧
    getreplacedeleteflag (setwritelock c) = getreplacedeleteflag c ∧
    getreplacedeleteflag (setreadlock c) = getreplacedeleteflag c ∧
    getreplacedeleteflag (clearlockedflag c) = getreplacedeleteflag c ∧
    getreplacedeleteflag (setinsertflag c) = getreplacedeleteflag c ∧
    getreplacedeleteflag (setdeleteflag c) = getreplacedeleteflag c := by
  intro c
  obtain ⟨hset, hwrite, hread, hclear, hother⟩ := testFlag_frame c
    REPLACEDELETEFLAG (by decide) (by decide) (by decide)
  exact ⟨hset, hwrite, hread, hclear, hother _ (by decide) (by decide),
    hother _ (by decide) (by decide)⟩

@[simp] theorem getlocktype_zero : getlocktype 0#8 = .noLock := by decide
@[simp] theorem getlocktype_setwritelock_zero :
    getlocktype (setwritelock 0#8) = .writeLock := by decide
@[simp] theorem getlocktype_setreadlock_zero :
    getlocktype (setreadlock 0#8) = .readLock := by decide
@[simp] theorem getinsertflag_zero : getinsertflag 0#8 = false := by decide
@[simp] theorem getdeleteflag_zero : getdeleteflag 0#8 = false := by decide
@[simp] theorem getreplacedeleteflag_zero :
    getreplacedeleteflag 0#8 = false := by decide

end Infinisql.Ref
