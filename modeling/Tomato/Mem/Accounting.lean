import Mathlib.Tactic

/-!
# Page accounting

The four counters of `mem/accounting.c` and the operations on them, each run as a
whole call. `available` is the only counter that decides whether a reservation or
a commit goes through. A failed `ASSERT` stops the core for ever and is the value
`none`; the errors of `tomato_err_t` are ordinary results.

Every operation moves pages between two counters, so the sum of `available`,
`reserved` and `committed` changes only where `total` does.
-/

namespace Tomato

inductive TomatoErr
  | internalError
  | invalidArgument
  | outOfResources
deriving DecidableEq, Repr

structure Accounting where
  available : ℕ
  total : ℕ
  committed : ℕ
  reserved : ℕ
deriving DecidableEq, Repr

namespace Accounting

/-- Take pages from the available count, if there are not enough of them it is
left untouched. -/
def memAcctTakeAvailable (a : Accounting) (pageCount : ℕ) : Bool × Accounting :=
  if a.available < pageCount then (false, a)
  else (true, { a with available := a.available - pageCount })

/-- The new value of the counter, `none` is the accounting underflow assertion. -/
def checkedAtomicSub (counter pageCount : ℕ) : Option ℕ :=
  if counter ≥ pageCount then some (counter - pageCount) else none

def memAcctReserve (a : Accounting) (pageCount : ℕ) : Except TomatoErr Unit × Accounting :=
  match a.memAcctTakeAvailable pageCount with
  | (false, a) => (.error .outOfResources, a)
  | (true, a) => (.ok (), { a with reserved := a.reserved + pageCount })

def memAcctUnreserve (a : Accounting) (pageCount : ℕ) : Option Accounting :=
  (checkedAtomicSub a.reserved pageCount).map fun reserved =>
    { a with reserved := reserved, available := a.available + pageCount }

def memAcctAddTotal (a : Accounting) (pageCount : ℕ) : Accounting :=
  { a with total := a.total + pageCount, available := a.available + pageCount }

def memAcctAddCommitted (a : Accounting) (pageCount : ℕ) : Accounting :=
  { a with total := a.total + pageCount, committed := a.committed + pageCount }

def memAcctCommit (a : Accounting) (pageCount : ℕ) : Bool × Accounting :=
  match a.memAcctTakeAvailable pageCount with
  | (false, a) => (false, a)
  | (true, a) => (true, { a with committed := a.committed + pageCount })

def memAcctCommitReserved (a : Accounting) (pageCount : ℕ) : Option Accounting :=
  (checkedAtomicSub a.reserved pageCount).map fun reserved =>
    { a with reserved := reserved, committed := a.committed + pageCount }

def memAcctUncommit (a : Accounting) (pageCount : ℕ) : Option Accounting :=
  (checkedAtomicSub a.committed pageCount).map fun committed =>
    { a with committed := committed, available := a.available + pageCount }

def memAcctUncommitToReserved (a : Accounting) (pageCount : ℕ) : Option Accounting :=
  (checkedAtomicSub a.committed pageCount).map fun committed =>
    { a with committed := committed, reserved := a.reserved + pageCount }

/-- Every page of the total is available, reserved or committed. -/
def Balanced (a : Accounting) : Prop := a.available + a.reserved + a.committed = a.total

variable {a b : Accounting} {n : ℕ}

theorem memAcctReserve_ok (h : a.memAcctReserve n = (.ok (), b)) :
    n ≤ a.available ∧
      b = { a with available := a.available - n, reserved := a.reserved + n } := by
  unfold memAcctReserve memAcctTakeAvailable at h
  by_cases hn : a.available < n
  · simp [hn] at h
  · simp only [hn, if_false, Prod.mk.injEq, true_and] at h
    exact ⟨not_lt.mp hn, h.symm⟩

theorem memAcctReserve_error {e : TomatoErr} (h : a.memAcctReserve n = (.error e, b)) :
    a.available < n ∧ e = .outOfResources ∧ b = a := by
  unfold memAcctReserve memAcctTakeAvailable at h
  by_cases hn : a.available < n
  · simp only [hn, if_true, Prod.mk.injEq, Except.error.injEq] at h
    exact ⟨hn, h.1.symm, h.2.symm⟩
  · simp [hn] at h

theorem memAcctCommit_true (h : a.memAcctCommit n = (true, b)) :
    n ≤ a.available ∧
      b = { a with available := a.available - n, committed := a.committed + n } := by
  unfold memAcctCommit memAcctTakeAvailable at h
  by_cases hn : a.available < n
  · simp [hn] at h
  · simp only [hn, if_false, Prod.mk.injEq, true_and] at h
    exact ⟨not_lt.mp hn, h.symm⟩

theorem memAcctCommit_false (h : a.memAcctCommit n = (false, b)) : a.available < n ∧ b = a := by
  unfold memAcctCommit memAcctTakeAvailable at h
  by_cases hn : a.available < n
  · simp only [hn, if_true, Prod.mk.injEq, true_and] at h
    exact ⟨hn, h.symm⟩
  · simp [hn] at h

theorem memAcctUnreserve_eq_some :
    a.memAcctUnreserve n = some b ↔ n ≤ a.reserved ∧
      b = { a with reserved := a.reserved - n, available := a.available + n } := by
  by_cases hn : n ≤ a.reserved <;> simp [memAcctUnreserve, checkedAtomicSub, hn, eq_comm]

theorem memAcctCommitReserved_eq_some :
    a.memAcctCommitReserved n = some b ↔ n ≤ a.reserved ∧
      b = { a with reserved := a.reserved - n, committed := a.committed + n } := by
  by_cases hn : n ≤ a.reserved <;> simp [memAcctCommitReserved, checkedAtomicSub, hn, eq_comm]

theorem memAcctUncommit_eq_some :
    a.memAcctUncommit n = some b ↔ n ≤ a.committed ∧
      b = { a with committed := a.committed - n, available := a.available + n } := by
  by_cases hn : n ≤ a.committed <;> simp [memAcctUncommit, checkedAtomicSub, hn, eq_comm]

theorem memAcctUncommitToReserved_eq_some :
    a.memAcctUncommitToReserved n = some b ↔ n ≤ a.committed ∧
      b = { a with committed := a.committed - n, reserved := a.reserved + n } := by
  by_cases hn : n ≤ a.committed <;>
    simp [memAcctUncommitToReserved, checkedAtomicSub, hn, eq_comm]

end Accounting

end Tomato
