import Tomato.Mem.Phys.Run

/-!
# When an allocation succeeds

An allocation is served by the lowest list, from the level of its size on, that has a
block. It succeeds if and only if there is such a block and the pages it commits are
available, and it fails without effect.
-/

namespace Tomato

open Blocks Transition

/-- `L` is the first level from `level` on that has a free block. -/
structure Sufficient (fl : FreeLists) (level L : ℕ) : Prop where
  le : level ≤ L
  lt : L < 16
  ne : fl L ≠ []
  least : ∀ k, level ≤ k → k < L → fl k = []

/-- The smallest level whose blocks have room for the size. -/
def LevelOfSize (size level : ℕ) : Prop := IsLeast {l | max size 64 ≤ 2 ^ (l + 6)} level

theorem levelOfSize_iff {size level : ℕ} (hs : size ≤ 2 ^ 21) :
    LevelOfSize size level ↔ getLevelBySize size = some level := by
  obtain ⟨l, hl⟩ := Option.isSome_iff_exists.mp (getLevelBySize_isSome.mpr hs)
  obtain ⟨-, hle, hmin⟩ := getLevelBySize_eq_some hl
  have hleast : LevelOfSize size l := by
    refine ⟨max_le hle ?_, fun k hk => ?_⟩
    · exact Nat.pow_le_pow_right (n := 2) (i := 6) (by omega) (by omega)
    · by_contra hc
      exact absurd (le_trans (le_max_left _ _) hk) (not_le.mpr (hmin k (by omega)))
  rw [hl, Option.some.injEq]
  exact ⟨fun h => hleast.unique h, fun h => h ▸ hleast⟩

namespace Phys

variable {d : DirectMap} {s : Phys} {fl : FreeLists} {live : Set Block} {M : Set ℕ}
  {early level L size : ℕ} {reserved : Bool}

/-- The search of `phys_alloc_internal`. -/
theorem closestLevel_eq_iff (h : Inv d s fl live ∅ M) (hlevel : level < 16) (hL : L < 16) :
    closestLevel d s.mem (PHYS_BUDDY_MAX_LEVEL - level) level = L ↔ Sufficient fl level L := by
  obtain ⟨i1, i2, i3, i4⟩ := closestLevel_spec h (PHYS_BUDDY_MAX_LEVEL - level)
    (show level + (PHYS_BUDDY_MAX_LEVEL - level) = 16 by simp only [PHYS_BUDDY_MAX_LEVEL]; omega)
  constructor
  · rintro rfl
    exact ⟨i1, hL, i3 hL, i4⟩
  · intro hs
    refine le_antisymm (not_lt.mp fun hc => hs.ne (i4 L hs.le hc)) (not_lt.mp fun hc => ?_)
    exact i3 (hc.trans hs.lt) (hs.least _ i1 hc)

theorem closestLevel_eq_max (h : Inv d s fl live ∅ M) (hlevel : level < 16)
    (hnone : ∀ L, ¬ Sufficient fl level L) :
    closestLevel d s.mem (PHYS_BUDDY_MAX_LEVEL - level) level = PHYS_BUDDY_MAX_LEVEL := by
  obtain ⟨-, i2, -, -⟩ := closestLevel_spec h (PHYS_BUDDY_MAX_LEVEL - level)
    (show level + (PHYS_BUDDY_MAX_LEVEL - level) = 16 by simp only [PHYS_BUDDY_MAX_LEVEL]; omega)
  refine le_antisymm i2 (not_lt.mp fun hc => ?_)
  exact absurd ((closestLevel_eq_iff h hlevel hc).mp rfl) (hnone _)

/-- The counters after `pages` pages were committed. -/
def committedBy (a : Accounting) (pages : ℕ) (reserved : Bool) : Accounting :=
  if reserved then
    { a with reserved := a.reserved - pages, committed := a.committed + pages }
  else { a with available := a.available - pages, committed := a.committed + pages }

/-- The lowest sufficient block is taken, and what is left of it is free. -/
structure Taken (d : DirectMap) (s s' : Phys) (fl : FreeLists) (p level L : ℕ)
    (reserved : Bool) : Prop where
  chain : ∃ fl', (∀ l < 16, Chain s'.mem (d.head l) (fl' l)) ∧ Consumed fl fl' p level L
  acct : s'.acct = committedBy s.acct (commitCount level L) reserved

theorem commitPages_available (a : Accounting) (level L : ℕ) :
    commitPages a level L false = some (if commitCount level L ≤ a.available
      then (true, committedBy a (commitCount level L) false) else (false, a)) := by
  have hcommit : ∀ n, a.memAcctCommit n = if n ≤ a.available
      then (true, committedBy a n false) else (false, a) := by
    intro n
    by_cases hn : a.available < n
    · simp [Accounting.memAcctCommit, Accounting.memAcctTakeAvailable, hn, not_le.mpr hn]
    · simp [Accounting.memAcctCommit, Accounting.memAcctTakeAvailable, hn, not_lt.mp hn,
        committedBy]
  simp only [commitPages, commitCount, getPageCountByLevel_eq, PHYS_BUDDY_PAGE_LEVEL_eq, ge_iff_le]
  by_cases h6 : 6 ≤ level
  · simp [h6, hcommit]
  · by_cases hL6 : 6 ≤ L
    · simp [h6, hL6, hcommit]
    · simp [h6, hL6, committedBy]

theorem take_of_commit (h : Inv d s fl live ∅ M) (hlevel : level < 16)
    (hL : Sufficient fl level L) {a : Accounting}
    (hc : commitPages s.acct level L reserved = some (true, a))
    (ha : a = committedBy s.acct (commitCount level L) reserved) :
    ∃ p s', physAllocInternal d s level reserved = some (some p, s') ∧
      Taken d s s' fl p level L reserved := by
  have hclose := (closestLevel_eq_iff h hlevel hL.lt).mpr hL
  have hne : L ≠ PHYS_BUDDY_MAX_LEVEL := hL.lt.ne
  obtain ⟨p, s', fl', e, hacct, halloc, hcons⟩ := takeBlock_acct h hL.le hL.lt hL.ne a
  refine ⟨p, s', ?_, ⟨fl', halloc.inv.chain, hcons⟩, hacct.trans ha⟩
  simp only [physAllocInternal, hclose, hne, if_false, hc, Option.bind_some, e, Option.map_some]

/-- A block is taken if there is one and its pages are available. -/
theorem physAllocInternal_available (h : Inv d s fl live ∅ M) (hlevel : level < 16) :
    (∃ L, Sufficient fl level L ∧ commitCount level L ≤ s.acct.available ∧
      ∃ p s', physAllocInternal d s level false = some (some p, s') ∧
        Taken d s s' fl p level L false) ∨
    ((∀ L, Sufficient fl level L → s.acct.available < commitCount level L) ∧
      physAllocInternal d s level false = some (none, s)) := by
  by_cases hex : ∃ L, Sufficient fl level L
  · obtain ⟨L, hL⟩ := hex
    have hcommit := commitPages_available s.acct level L
    by_cases hle : commitCount level L ≤ s.acct.available
    · rw [if_pos hle] at hcommit
      exact Or.inl ⟨L, hL, hle, take_of_commit h hlevel hL hcommit rfl⟩
    · rw [if_neg hle] at hcommit
      have hclose := (closestLevel_eq_iff h hlevel hL.lt).mpr hL
      have hne : L ≠ PHYS_BUDDY_MAX_LEVEL := hL.lt.ne
      refine Or.inr ⟨fun L' hL' => ?_, ?_⟩
      · obtain rfl : L = L' :=
          hclose.symm.trans ((closestLevel_eq_iff h hlevel hL'.lt).mpr hL')
        exact not_le.mp hle
      · simp only [physAllocInternal, hclose, hne, if_false, hcommit, Option.bind_some]
  · rw [not_exists] at hex
    refine Or.inr ⟨fun L hL => absurd hL (hex L), ?_⟩
    simp [physAllocInternal, closestLevel_eq_max h hlevel hex]

/-- The same for pages that are reserved. -/
theorem physAllocInternal_reserved (h : Inv d s fl live ∅ M) (hlevel : level < 16)
    (hpage : 6 ≤ level) (hres : 2 ^ (level - 6) ≤ s.acct.reserved)
    (hfree : s.acct.reserved ≤ freePages fl) :
    (∃ L, Sufficient fl level L ∧ ∃ p s', physAllocInternal d s level true = some (some p, s') ∧
        Taken d s s' fl p level L true) ∨
    ((∀ L, ¬ Sufficient fl level L) ∧ physAllocInternal d s level true = some (none, s)) := by
  by_cases hex : ∃ L, Sufficient fl level L
  · obtain ⟨L, hL⟩ := hex
    have hpages : commitCount level L = 2 ^ (level - 6) := if_pos hpage
    refine Or.inl ⟨L, hL, take_of_commit h hlevel hL ?_ rfl⟩
    have hc := Accounting.memAcctCommitReserved_eq_some.mpr ⟨hres, rfl⟩
    simp only [commitPages, getPageCountByLevel_eq, PHYS_BUDDY_PAGE_LEVEL_eq, ge_iff_le, hpage,
      if_true, hc, Option.map_some, hpages, committedBy]
  · rw [not_exists] at hex
    refine Or.inr ⟨hex, ?_⟩
    rcases physAllocInternal_reserved_spec h hlevel hpage hres hfree with ⟨-, e⟩ | ⟨p, s', fl', -, e, -⟩
    · exact e
    · have hmax := closestLevel_eq_max h hlevel hex
      simp only [physAllocInternal, hmax, if_true] at e
      split at e <;> simp at e

/-- What `phys_alloc` and `phys_alloc_reserved` do with the free lists `fl`. -/
structure AllocExact (d : DirectMap) (s : Phys) (fl : FreeLists) : Prop where
  /-- The lists are those of the state. -/
  chain : ∀ l < 16, Chain s.mem (d.head l) (fl l)
  /-- A call never stops at an assertion. -/
  returns : ∀ size, (physAlloc d s size).isSome
  success : ∀ size, (∃ p s', physAlloc d s size = some (some p, s')) ↔
    size ≤ 2 ^ 21 ∧ ∃ level L, LevelOfSize size level ∧ Sufficient fl level L ∧
      commitCount level L ≤ s.acct.available
  taken : ∀ size p s', physAlloc d s size = some (some p, s') →
    ∃ level L, LevelOfSize size level ∧ Sufficient fl level L ∧ Taken d s s' fl p level L false
  null : ∀ size s', physAlloc d s size = some (none, s') → s' = s
  returns_reserved : ∀ level, 6 ≤ level → level < 16 → 2 ^ (level - 6) ≤ s.acct.reserved →
    (physAllocReserved d s (2 ^ (level + 6))).isSome
  success_reserved : ∀ level, 6 ≤ level → level < 16 → 2 ^ (level - 6) ≤ s.acct.reserved →
    ((∃ p s', physAllocReserved d s (2 ^ (level + 6)) = some (some p, s')) ↔
      ∃ L, Sufficient fl level L)
  taken_reserved : ∀ level p s', 6 ≤ level → level < 16 → 2 ^ (level - 6) ≤ s.acct.reserved →
    physAllocReserved d s (2 ^ (level + 6)) = some (some p, s') →
      ∃ L, Sufficient fl level L ∧ Taken d s s' fl p level L true
  null_reserved : ∀ size s', physAllocReserved d s size = some (none, s') → s' = s

/-- The size of a block of pages has exactly its level. -/
theorem getPageLevelBySize_blockSize (hpage : 6 ≤ level) (hlevel : level < 16) :
    getPageLevelBySize (2 ^ (level + 6)) = some level := by
  interval_cases level <;> decide

/-- `phys_alloc` is the allocation at the level of the size, if there is one. -/
theorem physAlloc_exact (h : Inv d s fl live ∅ M) (size : ℕ) :
    (¬ size ≤ 2 ^ 21 ∧ physAlloc d s size = some (none, s)) ∨
    ∃ level, size ≤ 2 ^ 21 ∧ LevelOfSize size level ∧
      ((∃ L, Sufficient fl level L ∧ commitCount level L ≤ s.acct.available ∧
        ∃ p s', physAlloc d s size = some (some p, s') ∧ Taken d s s' fl p level L false) ∨
      ((∀ L, Sufficient fl level L → s.acct.available < commitCount level L) ∧
        physAlloc d s size = some (none, s))) := by
  by_cases hs : size ≤ 2 ^ 21
  · obtain ⟨level, hl⟩ := Option.isSome_iff_exists.mp (getLevelBySize_isSome.mpr hs)
    rw [show physAlloc d s size = physAllocInternal d s level false by rw [physAlloc, hl]]
    exact Or.inr ⟨level, hs, (levelOfSize_iff hs).mpr hl,
      physAllocInternal_available h (getLevelBySize_eq_some hl).1⟩
  · refine Or.inl ⟨hs, ?_⟩
    rw [physAlloc, Option.not_isSome_iff_eq_none.mp (mt getLevelBySize_isSome.mp hs)]

/-- `phys_alloc_reserved` of a block of pages that are reserved. -/
theorem physAllocReserved_exact (h : Ok d s fl live M early) (hpage : 6 ≤ level)
    (hlevel : level < 16) (hres : 2 ^ (level - 6) ≤ s.acct.reserved) :
    (∃ L, Sufficient fl level L ∧ ∃ p s',
      physAllocReserved d s (2 ^ (level + 6)) = some (some p, s') ∧
        Taken d s s' fl p level L true) ∨
    ((∀ L, ¬ Sufficient fl level L) ∧
      physAllocReserved d s (2 ^ (level + 6)) = some (none, s)) := by
  have hfree : s.acct.reserved ≤ freePages fl := by
    have := h.pages
    omega
  rw [physAllocReserved, getPageLevelBySize_blockSize hpage hlevel, Option.bind_some]
  exact physAllocInternal_reserved h.inv hlevel hpage hres hfree

theorem physAllocReserved_null (h : Ok d s fl live M early) {s' : Phys}
    (e : physAllocReserved d s size = some (none, s')) : s' = s := by
  rcases physAllocReserved_cases e with hr | ⟨level, hl, hres⟩
  · exact (Prod.mk.inj hr).2
  · obtain ⟨-, h6, h16, rfl⟩ := getPageLevelBySize_eq_some hl
    rcases physAllocReserved_exact h h6 h16 hres with ⟨L, -, p, s1, e1, -⟩ | ⟨-, e1⟩
    · simp [e] at e1
    · simpa [e] using e1

theorem allocExact_of_ok (h : Ok d s fl live M early) : AllocExact d s fl := by
  refine ⟨h.inv.chain, fun size => ?_, fun size => ?_, fun size p s' e => ?_, fun size s' e => ?_,
    fun level h6 h16 hres => ?_, fun level h6 h16 hres => ?_, fun level p s' h6 h16 hres e => ?_,
    fun size s' e => physAllocReserved_null h e⟩
  · rcases physAlloc_exact h.inv size with ⟨-, e⟩ | ⟨level, -, -, ⟨L, -, -, p, s', e, -⟩ | ⟨-, e⟩⟩
    all_goals rw [e]; rfl
  · rcases physAlloc_exact h.inv size with ⟨hs, e⟩ | ⟨level, hs, hl, ⟨L, hL, hle, p, s', e, -⟩ |
      ⟨hno, e⟩⟩
    · exact ⟨fun ⟨p, s', e'⟩ => by simp [e] at e', fun hc => absurd hc.1 hs⟩
    · exact ⟨fun _ => ⟨hs, level, L, hl, hL, hle⟩, fun _ => ⟨p, s', e⟩⟩
    · refine ⟨fun ⟨p, s', e'⟩ => by simp [e] at e', fun ⟨_, level', L, hl', hL, hle⟩ => ?_⟩
      obtain rfl : level' = level := IsLeast.unique hl' hl
      exact absurd hle (not_le.mpr (hno L hL))
  · rcases physAlloc_exact h.inv size with ⟨-, e1⟩ | ⟨level, -, hl, ⟨L, hL, -, p1, s1, e1, ht⟩ |
      ⟨-, e1⟩⟩
    · simp [e] at e1
    · obtain ⟨rfl, rfl⟩ : p = p1 ∧ s' = s1 := by simpa [e] using e1
      exact ⟨level, L, hl, hL, ht⟩
    · simp [e] at e1
  · rcases physAlloc_exact h.inv size with ⟨-, e1⟩ | ⟨level, -, -, ⟨L, -, -, p1, s1, e1, -⟩ |
      ⟨-, e1⟩⟩
    · simpa [e] using e1
    · simp [e] at e1
    · simpa [e] using e1
  · rcases physAllocReserved_exact h h6 h16 hres with ⟨L, -, p, s', e, -⟩ | ⟨-, e⟩
    all_goals rw [e]; rfl
  · rcases physAllocReserved_exact h h6 h16 hres with ⟨L, hL, p, s', e, -⟩ | ⟨hno, e⟩
    · exact ⟨fun _ => ⟨L, hL⟩, fun _ => ⟨p, s', e⟩⟩
    · exact ⟨fun ⟨p, s', e'⟩ => by simp [e] at e', fun ⟨L, hL⟩ => absurd hL (hno L)⟩
  · rcases physAllocReserved_exact h h6 h16 hres with ⟨L, hL, p1, s1, e1, ht⟩ | ⟨-, e1⟩
    · obtain ⟨rfl, rfl⟩ : p = p1 ∧ s' = s1 := by simpa [e] using e1
      exact ⟨L, hL, ht⟩
    · simp [e] at e1

end Phys

namespace Clients

variable {d : DirectMap} {t : Clients}

/-- In every reachable state an allocation succeeds exactly when it can. -/
theorem allocExact_of_reachable (h : Reachable (Initial d) (Step d) t) :
    ∃ fl, t.phys.AllocExact d fl := by
  obtain ⟨-, fl, ho⟩ := good_of_reachable h
  exact ⟨fl, Phys.allocExact_of_ok ho⟩

theorem allocExact_onePageMap : ∃ t : Clients, t.ranges = [(2 ^ 21, 2 ^ 21 + 4096)] ∧
    ∃ fl, t.phys.AllocExact onePageMap fl := by
  obtain ⟨t, ht, hr⟩ := exists_reachable_onePageMap
  exact ⟨t, hr, allocExact_of_reachable ht⟩

end Clients

end Tomato
