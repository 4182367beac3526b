import Tomato.Mem.Phys.Concurrent

/-!
# What holds while calls are in progress

The counters and the free lists are changed one at a time, so between two steps of a
call they are off by what the rest of the call is going to add. `transit` are the
pages of a call that no counter has, `slack` those that are free but neither available
nor reserved, and `ahead` those that are free and committed. `Counts` says that this is
all the difference there is.

`Owns` is the partition of the memory, with the blocks that are being freed still
among the live ones, and the ranges that are being added. What a core is about to do
with them is in `PcOk`.
-/

namespace Tomato

open Blocks

namespace Cores

/-- The pages that were taken from one counter and are not in the next one. -/
def transit : CorePc → ℕ
  | .reserveAdd n | .unreserveAdd n | .commitAdd _ _ n | .uncommitAdd n _ | .addAvailable n
  | .addCommitted n => n
  | .commitReservedAdd level _ => 2 ^ (level - 6)
  | _ => 0

/-- The free pages that are neither available nor reserved. -/
def slack : CorePc → ℕ
  | .reserveAdd n | .unreserveAdd n | .commitAdd _ _ n | .take _ _ n | .uncommitSub n _
  | .uncommitAdd n _ | .addTotal n | .addAvailable n => n
  | .commitReservedAdd level _ => 2 ^ (level - 6)
  | .addLoop start end_ n => n - (end_ - start) / 4096
  | _ => 0

/-- The free pages that are committed. -/
def ahead : CorePc → ℕ
  | .take _ _ n | .uncommitSub n _ => n
  | _ => 0

/-- The sum over the cores. -/
def sum (s : Cores) (f : CorePc → ℕ) : ℕ := ∑ i ∈ Finset.range s.cpuCount, f (s.pc i)

structure Counts (s : Cores) (fl : FreeLists) (M : Set ℕ) : Prop where
  total : s.phys.acct.available + s.phys.acct.committed + s.phys.acct.reserved +
    s.sum transit = s.phys.acct.total
  free : freePages fl = s.phys.acct.available + s.phys.acct.reserved + s.sum slack
  committed : s.phys.acct.committed + freePages fl =
    s.early + (pagesIn M).ncard + s.sum ahead
  reserved : s.phys.acct.reserved = ∑ i ∈ Finset.range s.cpuCount, s.held i

/-- The block that the core is freeing. -/
def freeing : CorePc → Option Block
  | .freeZero ptr level _ | .freeLock ptr level _ => some (block ptr level)
  | _ => none

/-- The range that the core is adding. -/
def adding : CorePc → Set ℕ
  | .addZero start end_ | .addLoop start end_ _ => Set.Ico start end_
  | _ => ∅

/-- The part of it that is zero. -/
def zeroed : CorePc → Set ℕ
  | .freeLock ptr level _ => (block ptr level).cells
  | .addLoop start end_ _ => Set.Ico start end_
  | _ => ∅

/-- The live blocks and those that are being freed. -/
def owned (s : Cores) : Set Block := {b | b ∈ s.live ∨ ∃ i, freeing (s.pc i) = some b}

structure Owns (d : DirectMap) (s : Cores) (fl : FreeLists) (M : Set ℕ) : Prop where
  inv : s.phys.Inv d fl s.owned ∅ M
  nodup : s.live.Nodup
  freeing_live : ∀ i b, freeing (s.pc i) = some b → b ∉ s.live
  freeing_inj : ∀ i j b, freeing (s.pc i) = some b → freeing (s.pc j) = some b → i = j
  subset_added : M ⊆ s.added
  adding_subset : ∀ i, adding (s.pc i) ⊆ s.added ∩ d.range
  adding_M : ∀ i, Disjoint (adding (s.pc i)) M
  adding_ne : ∀ i j, i ≠ j → Disjoint (adding (s.pc i)) (adding (s.pc j))
  zero : ∀ i, ∀ a ∈ zeroed (s.pc i), s.phys.mem a = 0

/-- The core is in the critical section of `phys_alloc_internal`. -/
def critical : CorePc → Bool
  | .load _ (.commit _ _) | .exchange _ _ (.commit _ _) | .commitReservedSub _ _
  | .commitReservedAdd _ _ | .commitAdd _ _ _ | .take _ _ _ => true
  | _ => false

/-- There is a block to take. -/
def Ready (fl : FreeLists) (level L : ℕ) : Prop := level ≤ L ∧ L < 16 ∧ fl L ≠ []

def UseOk (fl : FreeLists) (n : ℕ) : TakeFor → Prop
  | .reserve => True
  | .commit level L => Ready fl level L ∧ n = commitCount level L

/-- What a core relies on when it takes its next step. -/
def PcOk (d : DirectMap) (fl : FreeLists) (held : ℕ) : CorePc → Prop
  | .load n use | .exchange n _ use => UseOk fl n use
  | .unreserveSub n => n ≤ held
  | .allocLock level reserved =>
      level < 16 ∧ (reserved = true → 6 ≤ level ∧ 2 ^ (level - 6) ≤ held)
  | .commitReservedSub level L => 6 ≤ level ∧ Ready fl level L ∧ 2 ^ (level - 6) ≤ held
  | .commitReservedAdd level L => 6 ≤ level ∧ Ready fl level L
  | .commitAdd level L n | .take level L n => Ready fl level L ∧ n = commitCount level L
  | .freeZero _ level reserved | .freeLock _ level reserved =>
      level < 16 ∧ (reserved = true → 6 ≤ level)
  | .addZero start end_ => 4096 ∣ start ∧ 4096 ∣ end_ ∧ start ≤ end_ ∧
      end_ ≤ d.base + d.pageCount * 4096
  | .addLoop start end_ n => 4096 ∣ start ∧ 4096 ∣ end_ ∧ start ≤ end_ ∧
      end_ ≤ d.base + d.pageCount * 4096 ∧ (end_ - start) / 4096 ≤ n
  | _ => True

/-- Where a core is in a call of `phys_alloc_reserved(PAGE_SIZE)`. -/
def PageCallOk (pc : CorePc) (result : Option ℕ) : Prop :=
  match pc with
  | .allocLock level reserved => level = 6 ∧ reserved = true
  | .commitReservedSub _ _ | .commitReservedAdd _ _ | .take _ _ _ => True
  | .idle => result ≠ none
  | _ => False

structure Good (d : DirectMap) (s : Cores) (fl : FreeLists) (M : Set ℕ) : Prop where
  owns : Owns d s fl M
  counts : Counts s fl M
  lock : ∀ i, critical (s.pc i) = true ↔ s.lock = some i
  pcOk : ∀ i, PcOk d fl (s.held i) (s.pc i)
  pageCall : ∀ i, s.call i = some (.allocReserved PAGE_SIZE) → PageCallOk (s.pc i) (s.result i)

variable {d : DirectMap} {s s' : Cores} {fl fl' : FreeLists} {M M' : Set ℕ} {c i n : ℕ}
  {pc pc' : CorePc} {r : Option ℕ}

theorem le_sum (hc : c < s.cpuCount) (f : CorePc → ℕ) : f (s.pc c) ≤ s.sum f :=
  Finset.single_le_sum (f := fun i => f (s.pc i)) (fun _ _ => Nat.zero_le _)
    (Finset.mem_range.mpr hc)

/-- One core goes on, and its share of a sum changes. -/
theorem sum_update {α : Type*} (g : ℕ → α) (f : α → ℕ) {m : ℕ} (hc : c < m) (x : α) :
    ∑ i ∈ Finset.range m, f (Function.update g c x i) + f (g c) =
      ∑ i ∈ Finset.range m, f (g i) + f x := by
  have hm : c ∈ Finset.range m := Finset.mem_range.mpr hc
  have hrest : ∑ i ∈ (Finset.range m).erase c, f (Function.update g c x i) =
      ∑ i ∈ (Finset.range m).erase c, f (g i) := by
    refine Finset.sum_congr rfl fun i hi => ?_
    rw [Function.update_of_ne (Finset.ne_of_mem_erase hi)]
  rw [← Finset.add_sum_erase _ _ hm, ← Finset.add_sum_erase _ (fun i => f (g i)) hm, hrest,
    Function.update_self]
  omega

theorem sum_step (hc : c < s.cpuCount) (hcpu : s'.cpuCount = s.cpuCount)
    (hpc : s'.pc = Function.update s.pc c pc') (f : CorePc → ℕ) :
    s'.sum f + f (s.pc c) = s.sum f + f pc' := by
  unfold sum
  rw [hcpu, hpc]
  exact sum_update s.pc f hc pc'

/-- A step keeps the sums when the changes of the counters are those of the core's share. -/
theorem Counts.step (h : Counts s fl M) (hc : c < s.cpuCount) (hcpu : s'.cpuCount = s.cpuCount)
    (hpc : s'.pc = Function.update s.pc c pc') (hheld : s'.held = Function.update s.held c n)
    (h1 : s'.phys.acct.available + s'.phys.acct.committed + s'.phys.acct.reserved +
      transit pc' + s.phys.acct.total = s.phys.acct.available + s.phys.acct.committed +
      s.phys.acct.reserved + transit (s.pc c) + s'.phys.acct.total)
    (h2 : freePages fl' + s.phys.acct.available + s.phys.acct.reserved + slack (s.pc c) =
      freePages fl + s'.phys.acct.available + s'.phys.acct.reserved + slack pc')
    (h3 : s'.phys.acct.committed + freePages fl' + s.early + (pagesIn M).ncard +
      ahead (s.pc c) = s.phys.acct.committed + freePages fl + s'.early + (pagesIn M').ncard +
      ahead pc')
    (h4 : s'.phys.acct.reserved + s.held c = s.phys.acct.reserved + n) :
    Counts s' fl' M' := by
  obtain ⟨i1, i2, i3, i4⟩ := h
  have e1 := sum_step hc hcpu hpc transit
  have e2 := sum_step hc hcpu hpc slack
  have e3 := sum_step hc hcpu hpc ahead
  have e4 : ∑ i ∈ Finset.range s'.cpuCount, s'.held i + s.held c =
      ∑ i ∈ Finset.range s.cpuCount, s.held i + n := by
    rw [hcpu, hheld]
    exact sum_update s.held id hc n
  exact ⟨by omega, by omega, by omega, by omega⟩

/-- Only the lock holder relies on the free lists. -/
theorem PcOk.congr (hcrit : critical pc = false) (h : PcOk d fl n pc) : PcOk d fl' n pc := by
  cases pc with
  | load n use => cases use <;> simp_all [PcOk, critical, UseOk]
  | exchange n a use => cases use <;> simp_all [PcOk, critical, UseOk]
  | _ => simp_all [PcOk, critical]

/-- The step of the core `c` leads to `pc'`. -/
theorem Good.step (h : Good d s fl M) (hc : c < s.cpuCount)
    (hpc : s'.pc = Function.update s.pc c pc') (hheld : ∀ i, i ≠ c → s'.held i = s.held i)
    (hcall : ∀ i, i ≠ c → s'.call i = s.call i ∧ s'.result i = s.result i)
    (hfl : (∀ i, i ≠ c → critical (s.pc i) = false) ∨ fl' = fl)
    (hlock : (critical pc' = true ∧ s'.lock = some c ∧ (s.lock = none ∨ s.lock = some c)) ∨
      (critical pc' = false ∧ ((critical (s.pc c) = true ∧ s'.lock = none) ∨
        (critical (s.pc c) = false ∧ s'.lock = s.lock))))
    (hok : PcOk d fl' (s'.held c) pc')
    (hpage : s'.call c = some (.allocReserved PAGE_SIZE) → PageCallOk pc' (s'.result c))
    (howns : Owns d s' fl' M') (hcounts : Counts s' fl' M') : Good d s' fl' M' where
  owns := howns
  counts := hcounts
  lock := fun i => by
    have hl := h.lock i
    have hlc := h.lock c
    rw [hpc]
    by_cases hi : i = c
    · subst hi
      rw [Function.update_self]
      rcases hlock with ⟨h1, h2, -⟩ | ⟨h1, ⟨h2, h3⟩ | ⟨h2, h3⟩⟩ <;> simp_all
    · rw [Function.update_of_ne hi]
      rcases hlock with ⟨h1, h2, h3⟩ | ⟨h1, ⟨h2, h3⟩ | ⟨h2, h3⟩⟩
      · have : ¬ s.lock = some i := by
          rcases h3 with e | e <;> simp [e, Ne.symm hi]
        simp_all
        exact fun e => hi e.symm
      · have : ¬ s.lock = some i := by
          rw [hlc.mp h2]
          simpa using Ne.symm hi
        simp_all
      · rw [h3]
        exact hl
  pcOk := fun i => by
    rw [hpc]
    by_cases hi : i = c
    · subst hi
      rwa [Function.update_self]
    · rw [Function.update_of_ne hi, hheld i hi]
      rcases hfl with hn | rfl
      · exact (h.pcOk i).congr (hn i hi)
      · exact h.pcOk i
  pageCall := fun i => by
    rw [hpc]
    by_cases hi : i = c
    · subst hi
      rwa [Function.update_self]
    · rw [Function.update_of_ne hi, (hcall i hi).1, (hcall i hi).2]
      exact h.pageCall i

theorem Good.held_le (h : Good d s fl M) (hc : c < s.cpuCount) :
    s.held c ≤ s.phys.acct.reserved := by
  rw [h.counts.reserved]
  exact Finset.single_le_sum (fun _ _ => Nat.zero_le _) (Finset.mem_range.mpr hc)

/-- The lock is free, or the core itself holds it. -/
theorem Good.not_critical (h : Good d s fl M) (hl : s.lock = none ∨ s.lock = some c) :
    ∀ i, i ≠ c → critical (s.pc i) = false := by
  intro i hi
  by_contra hcrit
  have := (h.lock i).mp (by simpa using hcrit)
  rcases hl with e | e <;> simp_all

end Cores

end Tomato
