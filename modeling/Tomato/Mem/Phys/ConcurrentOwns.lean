import Tomato.Mem.Phys.ConcurrentInvariant

/-!
# Who may write where

A step of one core changes the memory only in the free blocks, in the block or the
range that the core has in its hands, and in a live block. None of this is the zeroed
memory of another core.
-/

namespace Tomato

open Blocks

namespace Cores

variable {d : DirectMap} {s s' : Cores} {fl fl' : FreeLists} {M M' : Set ℕ} {c i j n a : ℕ}
  {pc' : CorePc} {b : Block}

theorem zeroed_cases {pc : CorePc} (ha : a ∈ zeroed pc) :
    (∃ b, freeing pc = some b ∧ a ∈ b.cells) ∨ a ∈ adding pc := by
  cases pc with
  | freeLock ptr level reserved => exact Or.inl ⟨_, rfl, ha⟩
  | addLoop start end_ n => exact Or.inr ha
  | _ => simp [zeroed] at ha

namespace Owns

theorem mem_owned_of_freeing (hi : freeing (s.pc i) = some b) :
    b ∈ freeBlocks fl ∪ s.owned ∪ ∅ := Or.inl (Or.inr (Or.inr ⟨i, hi⟩))

theorem mem_owned_of_live (hb : b ∈ s.live) : b ∈ freeBlocks fl ∪ s.owned ∪ ∅ :=
  Or.inl (Or.inr (Or.inl hb))

theorem notMem_adding (h : Owns d s fl M) (hb : b ∈ freeBlocks fl ∪ s.owned ∪ ∅)
    (ha : a ∈ b.cells) : a ∉ adding (s.pc i) := fun hadd =>
  Set.disjoint_left.mp (h.adding_M i) hadd (h.inv.tiling.subset hb ha)

theorem freeing_ne (h : Owns d s fl M) (hij : i ≠ j) {b' : Block}
    (hi : freeing (s.pc i) = some b) (hj : freeing (s.pc j) = some b') : b ≠ b' := by
  rintro rfl
  exact hij (h.freeing_inj i j b hi hj)

theorem zeroed_notMem_head (h : Owns d s fl M) (ha : a ∈ zeroed (s.pc i)) :
    ∀ l < 16, a ≠ d.head l := by
  rintro l hl rfl
  rcases zeroed_cases ha with ⟨b, hb, hab⟩ | hadd
  · exact h.inv.head_ne hl (mem_owned_of_freeing hb) hab rfl
  · exact Phys.Inv.head_notMem_range hl (h.adding_subset i hadd).2

theorem zeroed_notMem_free (h : Owns d s fl M) (ha : a ∈ zeroed (s.pc i)) :
    a ∉ Phys.freeCells fl := by
  intro hf
  obtain ⟨l, p, hp, hap⟩ := Phys.mem_freeCells.mp hf
  rcases zeroed_cases ha with ⟨b, hb, hab⟩ | hadd
  · refine h.inv.free_ne hp (Or.inl (Or.inr ⟨i, hb⟩)) ?_
    exact h.inv.tiling.eq_of_mem (Phys.Inv.mem_all_of_free hp) (mem_owned_of_freeing hb) hap hab
  · exact h.notMem_adding (Phys.Inv.mem_all_of_free hp) hap hadd

theorem zeroed_notMem_live (h : Owns d s fl M) (ha : a ∈ zeroed (s.pc i)) (hb : b ∈ s.live) :
    a ∉ b.cells := by
  intro hab
  rcases zeroed_cases ha with ⟨b', hb', hab'⟩ | hadd
  · refine h.freeing_live i b' hb' ?_
    rwa [h.inv.tiling.eq_of_mem (mem_owned_of_freeing hb') (mem_owned_of_live hb) hab' hab]
  · exact h.notMem_adding (mem_owned_of_live hb) hab hadd

theorem zeroed_notMem_freeing (h : Owns d s fl M) (ha : a ∈ zeroed (s.pc i)) (hij : i ≠ j)
    (hb : freeing (s.pc j) = some b) : a ∉ b.cells := by
  intro hab
  rcases zeroed_cases ha with ⟨b', hb', hab'⟩ | hadd
  · refine h.freeing_ne hij hb' hb ?_
    exact h.inv.tiling.eq_of_mem (mem_owned_of_freeing hb') (mem_owned_of_freeing hb) hab' hab
  · exact h.notMem_adding (mem_owned_of_freeing hb) hab hadd

theorem zeroed_notMem_adding (h : Owns d s fl M) (ha : a ∈ zeroed (s.pc i)) (hij : i ≠ j) :
    a ∉ adding (s.pc j) := by
  intro hadd
  rcases zeroed_cases ha with ⟨b', hb', hab'⟩ | hadd'
  · exact h.notMem_adding (mem_owned_of_freeing hb') hab' hadd
  · exact Set.disjoint_left.mp (h.adding_ne i j hij) hadd' hadd

/-- A step of the core `c` that writes only to `W`, and changes the free and the live
blocks as the invariant of the allocator says. -/
theorem step (h : Owns d s fl M) (hpc : s'.pc = Function.update s.pc c pc')
    (hinv : s'.phys.Inv d fl' s'.owned ∅ M') (hnodup : s'.live.Nodup)
    (hlive : ∀ i, i ≠ c → ∀ b, freeing (s.pc i) = some b → b ∉ s'.live)
    (hlive' : ∀ b, freeing pc' = some b → b ∉ s'.live)
    (hfree : ∀ b, freeing pc' = some b → freeing (s.pc c) = some b ∨ b ∈ s.live)
    (hadded : M' ⊆ s'.added) (hgrow : s.added ⊆ s'.added)
    (hadding : adding pc' ⊆ s'.added ∩ d.range) (haddM : Disjoint (adding pc') M')
    (haddM' : ∀ i, i ≠ c → Disjoint (adding (s.pc i)) M')
    (hne : ∀ i, i ≠ c → Disjoint (adding (s.pc i)) (adding pc'))
    (hmem : ∀ i, i ≠ c → ∀ a ∈ zeroed (s.pc i), s'.phys.mem a = s.phys.mem a)
    (hzero : ∀ a ∈ zeroed pc', s'.phys.mem a = 0) : Owns d s' fl' M' where
  inv := hinv
  nodup := hnodup
  freeing_live := fun i b hb => by
    rw [hpc] at hb
    by_cases hi : i = c
    · subst hi
      exact hlive' b (by simpa using hb)
    · exact hlive i hi b (by simpa [Function.update_of_ne hi] using hb)
  freeing_inj := fun i j b hi hj => by
    have hother : ∀ k, k ≠ c → freeing (s.pc k) = some b → freeing pc' ≠ some b := by
      intro k hk hkb hb
      rcases hfree b hb with e | e
      · exact hk (h.freeing_inj k c b hkb e)
      · exact h.freeing_live k b hkb e
    rw [hpc] at hi hj
    by_cases hic : i = c
    · by_cases hjc : j = c
      · rw [hic, hjc]
      · rw [hic, Function.update_self] at hi
        rw [Function.update_of_ne hjc] at hj
        exact absurd hi (hother j hjc hj)
    · rw [Function.update_of_ne hic] at hi
      by_cases hjc : j = c
      · rw [hjc, Function.update_self] at hj
        exact absurd hj (hother i hic hi)
      · rw [Function.update_of_ne hjc] at hj
        exact h.freeing_inj i j b hi hj
  subset_added := hadded
  adding_subset := fun i => by
    rw [hpc]
    by_cases hi : i = c
    · rwa [hi, Function.update_self]
    · rw [Function.update_of_ne hi]
      exact (h.adding_subset i).trans (Set.inter_subset_inter_left _ hgrow)
  adding_M := fun i => by
    rw [hpc]
    by_cases hi : i = c
    · rwa [hi, Function.update_self]
    · rw [Function.update_of_ne hi]
      exact haddM' i hi
  adding_ne := fun i j hij => by
    rw [hpc]
    by_cases hi : i = c
    · have hj : j ≠ c := fun e => hij (hi.trans e.symm)
      rw [hi, Function.update_self, Function.update_of_ne hj]
      exact (hne j hj).symm
    · rw [Function.update_of_ne hi]
      by_cases hj : j = c
      · rw [hj, Function.update_self]
        exact hne i hi
      · rw [Function.update_of_ne hj]
        exact h.adding_ne i j hij
  zero := fun i a ha => by
    rw [hpc] at ha
    by_cases hi : i = c
    · rw [hi, Function.update_self] at ha
      exact hzero a ha
    · rw [Function.update_of_ne hi] at ha
      rw [hmem i hi a ha]
      exact h.zero i a ha

/-- The owned blocks after a step of the core `c`. -/
theorem owned_step (hpc : s'.pc = Function.update s.pc c pc') :
    s'.owned = {b | b ∈ s'.live ∨ freeing pc' = some b ∨
      ∃ i, i ≠ c ∧ freeing (s.pc i) = some b} := by
  ext b
  simp only [owned, Set.mem_ofPred_eq, hpc]
  refine or_congr_right ⟨?_, ?_⟩
  · rintro ⟨i, hi⟩
    by_cases hic : i = c
    · rw [hic, Function.update_self] at hi
      exact Or.inl hi
    · rw [Function.update_of_ne hic] at hi
      exact Or.inr ⟨i, hic, hi⟩
  · rintro (hb | ⟨i, hic, hi⟩)
    · exact ⟨c, by rwa [Function.update_self]⟩
    · exact ⟨i, by rwa [Function.update_of_ne hic]⟩

theorem owned_self : s.owned = {b | b ∈ s.live ∨ freeing (s.pc c) = some b ∨
    ∃ i, i ≠ c ∧ freeing (s.pc i) = some b} :=
  owned_step (Function.update_eq_self c s.pc).symm

/-- A step that only changes counters, or nothing. -/
theorem congr (h : Owns d s fl M) (hpc : s'.pc = Function.update s.pc c pc')
    (hphys : s'.phys = { s.phys with acct := s'.phys.acct })
    (hlive : s'.live = s.live) (hranges : s'.ranges = s.ranges)
    (hf : freeing pc' = freeing (s.pc c)) (ha : adding pc' = adding (s.pc c))
    (hz : zeroed pc' = zeroed (s.pc c)) : Owns d s' fl M := by
  have hadded : s'.added = s.added := by simp only [added, hranges]
  have howned : s'.owned = s.owned := by
    rw [owned_step hpc, owned_self (c := c), hlive, hf]
  have hmem : s'.phys.mem = s.phys.mem := by rw [hphys]
  refine h.step hpc ?_ (hlive ▸ h.nodup) (fun i _ b hb => hlive ▸ h.freeing_live i b hb)
    (fun b hb => hlive ▸ h.freeing_live c b (hf ▸ hb)) (fun b hb => Or.inl (hf ▸ hb))
    (hadded ▸ h.subset_added) hadded.ge ?_ (ha ▸ h.adding_M c) (fun i _ => h.adding_M i)
    (fun i hi => ha ▸ h.adding_ne i c hi) (fun _ _ _ _ => by rw [hmem]) ?_
  · rw [howned, hphys]
    exact h.inv.congr_acct _
  · rw [ha, hadded]
    exact h.adding_subset c
  · rw [hz, hmem]
    exact h.zero c

end Owns

end Cores

end Tomato
