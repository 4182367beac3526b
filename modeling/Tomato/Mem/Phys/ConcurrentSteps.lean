import Tomato.Mem.Phys.ConcurrentOwns

/-!
# The steps of a call

Each step of a core succeeds and keeps the invariant, whatever the other cores are in
the middle of. Most steps change one counter, and `Good.counter` reduces them to the
arithmetic of that change.
-/

namespace Tomato

open Blocks

namespace Cores

variable {d : DirectMap} {s s' : Cores} {fl fl' : FreeLists} {M M' : Set ℕ} {c n level L : ℕ}
  {pc pc' : CorePc} {use : TakeFor} {reserved : Bool}

theorem finish_result_ne {r : Option ℕ} {i : ℕ} (hi : i ≠ c) :
    (s.finish c r).result i = s.result i := by
  simp [finish, Function.update_of_ne hi]

/-- A step that changes counters only. -/
theorem Good.counter (h : Good d s fl M) (hc : c < s.cpuCount) (hold : s.pc c = pc)
    (hcpu : s'.cpuCount = s.cpuCount) (hpc : s'.pc = Function.update s.pc c pc')
    (hphys : s'.phys = { s.phys with acct := s'.phys.acct })
    (hheld : s'.held = Function.update s.held c n)
    (hsame : s'.live = s.live ∧ s'.ranges = s.ranges ∧ s'.call = s.call ∧ s'.early = s.early)
    (hresult : ∀ i, i ≠ c → s'.result i = s.result i)
    (hregion : freeing pc' = freeing pc ∧ adding pc' = adding pc ∧ zeroed pc' = zeroed pc)
    (hlock : (critical pc' = true ∧ s'.lock = some c ∧ (s.lock = none ∨ s.lock = some c)) ∨
      (critical pc' = false ∧ ((critical pc = true ∧ s'.lock = none) ∨
        (critical pc = false ∧ s'.lock = s.lock))))
    (hok : PcOk d fl n pc')
    (hpage : PageCallOk pc (s.result c) → PageCallOk pc' (s'.result c))
    (h1 : s'.phys.acct.available + s'.phys.acct.committed + s'.phys.acct.reserved +
      transit pc' + s.phys.acct.total = s.phys.acct.available + s.phys.acct.committed +
      s.phys.acct.reserved + transit pc + s'.phys.acct.total)
    (h2 : s.phys.acct.available + s.phys.acct.reserved + slack pc =
      s'.phys.acct.available + s'.phys.acct.reserved + slack pc')
    (h3 : s'.phys.acct.committed + ahead pc = s.phys.acct.committed + ahead pc')
    (h4 : s'.phys.acct.reserved + s.held c = s.phys.acct.reserved + n) : Good d s' fl M := by
  subst hold
  obtain ⟨e1, e2, e3, e4⟩ := hsame
  refine h.step hc hpc (fun i hi => by rw [hheld, Function.update_of_ne hi])
    (fun i hi => ⟨by rw [e3], hresult i hi⟩) (Or.inr rfl) hlock
    (by rwa [hheld, Function.update_self]) ?_ ?_ ?_
  · exact fun hcall => hpage (h.pageCall c (by rwa [← e3]))
  · exact h.owns.congr hpc hphys e1 e2 hregion.1 hregion.2.1 hregion.2.2
  · exact h.counts.step hc hcpu hpc hheld h1 (by omega) (by rw [e4]; omega) h4

section

variable (h : Good d s fl M) (hc : c < s.cpuCount)
include h hc

theorem good_load (hpc : s.pc c = .load n use) :
    Good d (s.setPc c (.exchange n s.phys.acct.available use)) fl M := by
  have hok := h.pcOk c
  have hl := h.lock c
  rw [hpc] at hok hl
  refine h.counter hc hpc rfl rfl rfl (Function.update_eq_self c s.held).symm
    ⟨rfl, rfl, rfl, rfl⟩ (fun _ _ => rfl) ⟨rfl, rfl, rfl⟩ ?_ hok id ?_ ?_ ?_ rfl
  · cases use with
    | reserve => exact Or.inr ⟨rfl, Or.inr ⟨rfl, rfl⟩⟩
    | commit level L => exact Or.inl ⟨rfl, hl.mp rfl, Or.inr (hl.mp rfl)⟩
  all_goals simp [transit, slack, ahead]

theorem good_takeAvailable {available : ℕ} (hpc : s.pc c = .exchange n available use)
    (spurious : Bool) : Good d (s.takeAvailable c n available use spurious) fl M := by
  have hok := h.pcOk c
  have hl := h.lock c
  rw [hpc] at hok hl
  have hheld : s.held = Function.update s.held c (s.held c) :=
    (Function.update_eq_self c s.held).symm
  have hnone : ∀ i, i ≠ c → (s.finish c none).result i = s.result i :=
    fun i hi => finish_result_ne hi
  unfold takeAvailable
  simp only
  split
  · -- not enough pages
    cases use with
    | reserve =>
        exact h.counter hc hpc rfl rfl rfl hheld ⟨rfl, rfl, rfl, rfl⟩ hnone ⟨rfl, rfl, rfl⟩
          (Or.inr ⟨rfl, Or.inr ⟨rfl, rfl⟩⟩) trivial False.elim rfl rfl rfl rfl
    | commit level L =>
        exact h.counter hc hpc rfl rfl rfl hheld ⟨rfl, rfl, rfl, rfl⟩ hnone ⟨rfl, rfl, rfl⟩
          (Or.inr ⟨rfl, Or.inl ⟨rfl, rfl⟩⟩) trivial False.elim rfl rfl rfl rfl
  · rename_i hle
    split
    · -- the exchange goes through
      rename_i hex
      have havail := hex.1
      cases use with
      | reserve =>
          refine h.counter hc hpc rfl rfl rfl hheld ⟨rfl, rfl, rfl, rfl⟩ (fun _ _ => rfl)
            ⟨rfl, rfl, rfl⟩ (Or.inr ⟨rfl, Or.inr ⟨rfl, rfl⟩⟩) trivial False.elim ?_ ?_ rfl rfl
          · simp only [setPc_phys, setAcct_phys_acct, transit]
            omega
          · simp only [setPc_phys, setAcct_phys_acct, slack]
            omega
      | commit level L =>
          refine h.counter hc hpc rfl rfl rfl hheld ⟨rfl, rfl, rfl, rfl⟩ (fun _ _ => rfl)
            ⟨rfl, rfl, rfl⟩ (Or.inl ⟨rfl, hl.mp rfl, Or.inr (hl.mp rfl)⟩) hok False.elim ?_ ?_
            rfl rfl
          · simp only [setPc_phys, setAcct_phys_acct, transit]
            omega
          · simp only [setPc_phys, setAcct_phys_acct, slack]
            omega
    · -- another core was faster, or the exchange failed for no reason
      refine h.counter hc hpc rfl rfl rfl hheld ⟨rfl, rfl, rfl, rfl⟩ (fun _ _ => rfl)
        ⟨rfl, rfl, rfl⟩ ?_ hok id rfl rfl rfl rfl
      cases use with
      | reserve => exact Or.inr ⟨rfl, Or.inr ⟨rfl, rfl⟩⟩
      | commit level L => exact Or.inl ⟨rfl, hl.mp rfl, Or.inr (hl.mp rfl)⟩

theorem good_reserveAdd (hpc : s.pc c = .reserveAdd n) :
    Good d (((s.setAcct { s.phys.acct with reserved := s.phys.acct.reserved + n }).setHeld c
      (s.held c + n)).finish c none) fl M := by
  refine h.counter hc hpc rfl rfl rfl rfl ⟨rfl, rfl, rfl, rfl⟩
    (fun i hi => finish_result_ne hi) ⟨rfl, rfl, rfl⟩
    (Or.inr ⟨rfl, Or.inr ⟨rfl, rfl⟩⟩) trivial False.elim ?_ ?_ rfl ?_
  all_goals simp only [finish, setPc_phys, setResult_phys, setHeld_phys, setAcct_phys_acct, transit,
    slack]; omega

theorem good_unreserveSub (hpc : s.pc c = .unreserveSub n) :
    n ≤ s.phys.acct.reserved ∧
      Good d (((s.setAcct { s.phys.acct with reserved := s.phys.acct.reserved - n }).setHeld c
        (s.held c - n)).setPc c (.unreserveAdd n)) fl M := by
  have hok := h.pcOk c
  rw [hpc] at hok
  have hheld : n ≤ s.held c := hok
  have hle : n ≤ s.phys.acct.reserved := hheld.trans (h.held_le hc)
  refine ⟨hle, h.counter hc hpc rfl rfl rfl rfl ⟨rfl, rfl, rfl, rfl⟩
    (fun _ _ => rfl) ⟨rfl, rfl, rfl⟩
    (Or.inr ⟨rfl, Or.inr ⟨rfl, rfl⟩⟩) trivial False.elim ?_ ?_ rfl ?_⟩
  all_goals simp only [setPc_phys, setHeld_phys, setAcct_phys_acct, transit, slack]; omega

theorem good_unreserveAdd (hpc : s.pc c = .unreserveAdd n) :
    Good d ((s.setAcct { s.phys.acct with available := s.phys.acct.available + n }).finish c
      none) fl M := by
  refine h.counter hc hpc rfl rfl rfl (Function.update_eq_self c s.held).symm
    ⟨rfl, rfl, rfl, rfl⟩ (fun i hi => finish_result_ne hi) ⟨rfl, rfl, rfl⟩
    (Or.inr ⟨rfl, Or.inr ⟨rfl, rfl⟩⟩) trivial False.elim ?_ ?_ rfl rfl
  all_goals simp only [finish, setPc_phys, setResult_phys, setAcct_phys_acct, transit, slack]; omega

theorem good_commitReservedSub (hpc : s.pc c = .commitReservedSub level L) :
    2 ^ (level - 6) ≤ s.phys.acct.reserved ∧
      Good d (((s.setAcct { s.phys.acct with
        reserved := s.phys.acct.reserved - 2 ^ (level - 6) }).setHeld c
          (s.held c - 2 ^ (level - 6))).setPc c (.commitReservedAdd level L)) fl M := by
  have hok := h.pcOk c
  have hl := h.lock c
  rw [hpc] at hok hl
  obtain ⟨h6, hready, hheld⟩ := hok
  have hle : 2 ^ (level - 6) ≤ s.phys.acct.reserved := hheld.trans (h.held_le hc)
  refine ⟨hle, h.counter hc hpc rfl rfl rfl rfl ⟨rfl, rfl, rfl, rfl⟩ (fun _ _ => rfl)
    ⟨rfl, rfl, rfl⟩ (Or.inl ⟨rfl, hl.mp rfl, Or.inr (hl.mp rfl)⟩) ⟨h6, hready⟩ id ?_ ?_ rfl ?_⟩
  all_goals simp only [setPc_phys, setHeld_phys, setAcct_phys_acct, transit, slack]; omega

theorem good_commitReservedAdd (hpc : s.pc c = .commitReservedAdd level L) :
    Good d ((s.setAcct { s.phys.acct with
      committed := s.phys.acct.committed + 2 ^ (level - 6) }).setPc c
        (.take level L (2 ^ (level - 6)))) fl M := by
  have hok := h.pcOk c
  have hl := h.lock c
  rw [hpc] at hok hl
  obtain ⟨h6, hready⟩ := hok
  refine h.counter hc hpc rfl rfl rfl (Function.update_eq_self c s.held).symm
    ⟨rfl, rfl, rfl, rfl⟩ (fun _ _ => rfl) ⟨rfl, rfl, rfl⟩
    (Or.inl ⟨rfl, hl.mp rfl, Or.inr (hl.mp rfl)⟩) ⟨hready, (if_pos h6).symm⟩ id ?_ rfl ?_ rfl
  all_goals simp only [setPc_phys, setAcct_phys_acct, transit, ahead]; omega

theorem good_commitAdd (hpc : s.pc c = .commitAdd level L n) :
    Good d ((s.setAcct { s.phys.acct with committed := s.phys.acct.committed + n }).setPc c
      (.take level L n)) fl M := by
  have hok := h.pcOk c
  have hl := h.lock c
  rw [hpc] at hok hl
  refine h.counter hc hpc rfl rfl rfl (Function.update_eq_self c s.held).symm
    ⟨rfl, rfl, rfl, rfl⟩ (fun _ _ => rfl) ⟨rfl, rfl, rfl⟩
    (Or.inl ⟨rfl, hl.mp rfl, Or.inr (hl.mp rfl)⟩) hok False.elim ?_ rfl ?_ rfl
  all_goals simp only [setPc_phys, setAcct_phys_acct, transit, ahead]; omega

/-- The pages that come back were committed. -/
theorem good_uncommitSub (hpc : s.pc c = .uncommitSub n reserved) :
    n ≤ s.phys.acct.committed ∧
      Good d ((s.setAcct { s.phys.acct with committed := s.phys.acct.committed - n }).setPc c
        (.uncommitAdd n reserved)) fl M := by
  have hle : n ≤ s.phys.acct.committed := by
    have h1 := h.counts.committed
    have h2 := h.owns.inv.freePages_le
    have h3 := le_sum hc ahead
    rw [hpc] at h3
    simp only [ahead] at h3
    omega
  refine ⟨hle, h.counter hc hpc rfl rfl rfl (Function.update_eq_self c s.held).symm
    ⟨rfl, rfl, rfl, rfl⟩ (fun _ _ => rfl) ⟨rfl, rfl, rfl⟩ (Or.inr ⟨rfl, Or.inr ⟨rfl, rfl⟩⟩)
    trivial False.elim ?_ rfl ?_ rfl⟩
  all_goals simp only [setPc_phys, setAcct_phys_acct, transit, ahead]; omega

theorem good_uncommitAdd (hpc : s.pc c = .uncommitAdd n reserved) :
    Good d (if reserved then ((s.setAcct { s.phys.acct with
        reserved := s.phys.acct.reserved + n }).setHeld c (s.held c + n)).finish c none
      else (s.setAcct { s.phys.acct with
        available := s.phys.acct.available + n }).finish c none) fl M := by
  cases reserved with
  | true =>
      refine h.counter hc hpc rfl rfl rfl rfl ⟨rfl, rfl, rfl, rfl⟩
        (fun i hi => finish_result_ne hi) ⟨rfl, rfl, rfl⟩ (Or.inr ⟨rfl, Or.inr ⟨rfl, rfl⟩⟩)
        trivial False.elim ?_ ?_ rfl ?_
      all_goals simp only [if_true, finish, setPc_phys, setResult_phys, setHeld_phys,
        setAcct_phys_acct, transit, slack]; omega
  | false =>
      refine h.counter hc hpc rfl rfl rfl (Function.update_eq_self c s.held).symm
        ⟨rfl, rfl, rfl, rfl⟩ (fun i hi => finish_result_ne hi) ⟨rfl, rfl, rfl⟩
        (Or.inr ⟨rfl, Or.inr ⟨rfl, rfl⟩⟩) trivial False.elim ?_ ?_ rfl rfl
      all_goals simp only [Bool.false_eq_true, if_false, finish, setPc_phys, setResult_phys,
        setAcct_phys_acct, transit, slack]; omega

theorem good_addTotal (hpc : s.pc c = .addTotal n) :
    Good d ((s.setAcct { s.phys.acct with total := s.phys.acct.total + n }).setPc c
      (.addAvailable n)) fl M := by
  refine h.counter hc hpc rfl rfl rfl (Function.update_eq_self c s.held).symm
    ⟨rfl, rfl, rfl, rfl⟩ (fun _ _ => rfl) ⟨rfl, rfl, rfl⟩ (Or.inr ⟨rfl, Or.inr ⟨rfl, rfl⟩⟩)
    trivial False.elim ?_ rfl rfl rfl
  simp only [setPc_phys, setAcct_phys_acct, transit]
  omega

theorem good_addAvailable (hpc : s.pc c = .addAvailable n) :
    Good d ((s.setAcct { s.phys.acct with available := s.phys.acct.available + n }).finish c
      none) fl M := by
  refine h.counter hc hpc rfl rfl rfl (Function.update_eq_self c s.held).symm
    ⟨rfl, rfl, rfl, rfl⟩ (fun i hi => finish_result_ne hi) ⟨rfl, rfl, rfl⟩
    (Or.inr ⟨rfl, Or.inr ⟨rfl, rfl⟩⟩) trivial False.elim ?_ ?_ rfl rfl
  all_goals simp only [finish, setPc_phys, setResult_phys, setAcct_phys_acct, transit, slack]; omega

theorem good_addCommittedTotal (hpc : s.pc c = .addCommittedTotal n) :
    Good d ((s.setAcct { s.phys.acct with total := s.phys.acct.total + n }).setPc c
      (.addCommitted n)) fl M := by
  refine h.counter hc hpc rfl rfl rfl (Function.update_eq_self c s.held).symm
    ⟨rfl, rfl, rfl, rfl⟩ (fun _ _ => rfl) ⟨rfl, rfl, rfl⟩ (Or.inr ⟨rfl, Or.inr ⟨rfl, rfl⟩⟩)
    trivial False.elim ?_ rfl rfl rfl
  simp only [setPc_phys, setAcct_phys_acct, transit]
  omega

theorem good_addCommitted (hpc : s.pc c = .addCommitted n) :
    Good d ({ s.setAcct { s.phys.acct with committed := s.phys.acct.committed + n } with
      early := s.early + n }.finish c none) fl M := by
  have hheld := (Function.update_eq_self c s.held).symm
  refine h.step hc rfl (fun _ _ => rfl) (fun i hi => ⟨rfl, finish_result_ne hi⟩) (Or.inr rfl)
    (Or.inr ⟨rfl, Or.inr ⟨by rw [hpc]; rfl, rfl⟩⟩) trivial ?_ ?_ ?_
  · intro hcall
    have := h.pageCall c hcall
    rw [hpc] at this
    exact this.elim
  · exact h.owns.congr rfl rfl rfl rfl (by rw [hpc]; rfl) (by rw [hpc]; rfl) (by rw [hpc]; rfl)
  · refine h.counts.step hc rfl rfl hheld ?_ ?_ ?_ rfl
    · simp only [hpc, finish, setPc_phys, setResult_phys, setAcct_phys_acct, transit]
      omega
    · simp only [hpc, finish, setPc_phys, setResult_phys, setAcct_phys_acct, slack]
    · simp only [hpc, finish, setPc_phys, setResult_phys, setPc_early, setResult_early,
        setAcct_phys_acct, ahead]
      omega

/-- The search finds a block, or there is none and the call returns `NULL`. A core that
holds a reserved page always finds one. -/
theorem good_search (hpc : s.pc c = .allocLock level reserved) (hlock : s.lock = none) :
    ∃ s', s.search d c level reserved = some s' ∧ Good d s' fl M := by
  have hok := h.pcOk c
  rw [hpc] at hok
  obtain ⟨hlt, hres⟩ := hok
  have hheld := (Function.update_eq_self c s.held).symm
  obtain ⟨i1, i2, i3, i4⟩ := Phys.closestLevel_spec h.owns.inv (PHYS_BUDDY_MAX_LEVEL - level)
    (show level + (PHYS_BUDDY_MAX_LEVEL - level) = 16 by simp only [PHYS_BUDDY_MAX_LEVEL]; omega)
  simp only [search, getPageCountByLevel_eq]
  generalize Phys.closestLevel d s.phys.mem (PHYS_BUDDY_MAX_LEVEL - level) level = L
    at i1 i2 i3 i4 ⊢
  by_cases hL : L = PHYS_BUDDY_MAX_LEVEL
  · -- no block: with a reserved page this cannot be
    have hno : ¬ (reserved = true ∧ level = PHYS_BUDDY_PAGE_LEVEL) := by
      rintro ⟨rfl, hl6⟩
      obtain rfl : level = 6 := hl6
      have hzero : freePages fl = 0 := Phys.freePages_eq_zero fun l h6 h16 => i4 l h6 (hL ▸ h16)
      have h1 := (hres rfl).2
      have h2 := h.held_le hc
      have h3 := h.counts.free
      simp only [Nat.sub_self, pow_zero] at h1
      omega
    rw [if_pos hL, if_neg hno]
    refine ⟨_, rfl, h.counter hc hpc rfl rfl rfl hheld ⟨rfl, rfl, rfl, rfl⟩
      (fun i hi => finish_result_ne hi) ⟨rfl, rfl, rfl⟩
      (Or.inr ⟨rfl, Or.inr ⟨rfl, hlock.symm⟩⟩) trivial ?_ rfl rfl rfl rfl⟩
    exact fun hp => (hno ⟨hp.2, hp.1⟩).elim
  have hready : Ready fl level L := by
    have : L < 16 := by simp only [PHYS_BUDDY_MAX_LEVEL] at hL; omega
    exact ⟨i1, this, i3 this⟩
  rw [if_neg hL]
  by_cases h6 : 6 ≤ level
  · rw [if_pos (show level ≥ PHYS_BUDDY_PAGE_LEVEL from h6)]
    cases reserved with
    | true =>
        exact ⟨_, rfl, h.counter hc hpc rfl rfl rfl hheld ⟨rfl, rfl, rfl, rfl⟩ (fun _ _ => rfl)
          ⟨rfl, rfl, rfl⟩ (Or.inl ⟨rfl, rfl, Or.inl hlock⟩) ⟨h6, hready, (hres rfl).2⟩
          (fun _ => trivial) rfl rfl rfl rfl⟩
    | false =>
        exact ⟨_, rfl, h.counter hc hpc rfl rfl rfl hheld ⟨rfl, rfl, rfl, rfl⟩ (fun _ _ => rfl)
          ⟨rfl, rfl, rfl⟩ (Or.inl ⟨rfl, rfl, Or.inl hlock⟩) ⟨hready, (if_pos h6).symm⟩
          (fun hp => absurd hp.2 (by decide)) rfl rfl rfl rfl⟩
  · rw [if_neg (show ¬ level ≥ PHYS_BUDDY_PAGE_LEVEL from h6)]
    have hnot : ∀ {P : Prop}, PageCallOk (.allocLock level reserved) (s.result c) → P :=
      fun hp => absurd hp.1.ge h6
    by_cases hL6 : 6 ≤ L
    · rw [if_pos (show L ≥ PHYS_BUDDY_PAGE_LEVEL from hL6)]
      exact ⟨_, rfl, h.counter hc hpc rfl rfl rfl hheld ⟨rfl, rfl, rfl, rfl⟩ (fun _ _ => rfl)
        ⟨rfl, rfl, rfl⟩ (Or.inl ⟨rfl, rfl, Or.inl hlock⟩)
        ⟨hready, by simp [commitCount, h6, hL6]⟩ hnot rfl rfl rfl rfl⟩
    · rw [if_neg (show ¬ L ≥ PHYS_BUDDY_PAGE_LEVEL from hL6)]
      exact ⟨_, rfl, h.counter hc hpc rfl rfl rfl hheld ⟨rfl, rfl, rfl, rfl⟩ (fun _ _ => rfl)
        ⟨rfl, rfl, rfl⟩ (Or.inl ⟨rfl, rfl, Or.inl hlock⟩)
        ⟨hready, by simp [commitCount, h6, hL6]⟩ hnot rfl rfl rfl rfl⟩

end

end Cores

end Tomato
