import Tomato.Mem.Phys.Run

/-!
# The blocks of an added range

The loop of `phys_add_memory`, with a record of the blocks that it frees and of the address
where it ends. The blocks follow one another from the start of the range to its end.
-/

namespace Tomato

open Blocks Transition

namespace Phys

variable {d : DirectMap} {s : Phys} {fl fl' : FreeLists} {live : Set Block} {M : Set ℕ}
  {start end_ : ℕ}

/-- `addBlocks`, with the blocks that are freed and the last value of `start`. -/
def addTiles (d : DirectMap) (start end_ : ℕ) (s : Phys) : Option (List Block × ℕ × Phys) :=
  if _h : start < end_ then
    (getBestLevelForBlock start end_).bind fun level =>
      (physFreeInternal d s start level false).bind fun r =>
        (addTiles d (start + blockSize level) end_ r.2).map fun t => (block start level :: t.1, t.2)
  else some ([], start, s)
termination_by end_ - start
decreasing_by
  have : 0 < 1 <<< (level + PHYS_BUDDY_MIN_ORDER) := by simp [Nat.one_shiftLeft]
  unfold blockSize
  omega

/-- Only the record was added to the loop. -/
theorem addBlocks_eq_addTiles :
    addBlocks d start end_ s = (addTiles d start end_ s).map fun t => t.2.2 := by
  induction hn : end_ - start using Nat.strong_induction_on generalizing start s with
  | _ n ih =>
    rw [addBlocks, addTiles]
    split
    · rename_i hlt
      rw [Option.map_bind]
      congr 1
      funext level
      have hpos : 0 < blockSize level := by
        rw [blockSize_eq]
        exact Nat.two_pow_pos _
      simp only [Function.comp_apply, Option.map_bind]
      congr 1
      funext r
      simp only [Option.map_map]
      exact ih _ (by omega) rfl
    · rfl

/-- Aligned blocks that follow one another from an address to another. -/
def TilesRange (end_ : ℕ) : ℕ → List Block → Prop
  | start, [] => start = end_
  | start, b :: bs => b.addr = start ∧ b.Aligned ∧ b.cells ⊆ Set.Ico start end_ ∧
      TilesRange end_ (start + 2 ^ b.order) bs

/-- The loop ends at the end of the range, and the blocks that it freed make up the range. -/
theorem addTiles_spec (hno : end_ + 2 ^ 21 ≤ 2 ^ 64) (hs : 4096 ∣ start) (he : 4096 ∣ end_)
    (hle : start ≤ end_) (h : Inv d s fl live ∅ M) (hM : Disjoint (Set.Ico start end_) M)
    (hr : Set.Ico start end_ ⊆ d.range) (hz : ∀ a ∈ Set.Ico start end_, s.mem a = 0) :
    ∃ bs s', addTiles d start end_ s = some (bs, end_, s') ∧ TilesRange end_ start bs := by
  induction hn : end_ - start using Nat.strong_induction_on generalizing start s fl M with
  | _ n ih =>
    rw [addTiles]
    by_cases hlt : start < end_
    · obtain ⟨l, L, s1, fl1, e, e1, -, hal, hfit, hpage, hf, hM1, hz1⟩ :=
        addBlock_spec hno hs he hlt h hM hr hz
      have hpos : 0 < 2 ^ (l + 6) := Nat.two_pow_pos _
      have hr1 : Set.Ico (start + 2 ^ (l + 6)) end_ ⊆ d.range :=
        (Set.Ico_subset_Ico_left (by omega)).trans hr
      obtain ⟨bs, s2, e2, hbs⟩ := ih (end_ - (start + 2 ^ (l + 6))) (by omega)
        (hs.add ⟨2 ^ (l - 6), hpage⟩) hfit hf.inv hM1 hr1 hz1 rfl
      refine ⟨block start l :: bs, s2, ?_, rfl, hal, Set.Ico_subset_Ico_right hfit, hbs⟩
      rw [dif_pos hlt, e, Option.bind_some, e1, Option.bind_some, blockSize_eq, e2]
      rfl
    · obtain rfl : start = end_ := by omega
      exact ⟨[], s, by rw [dif_neg hlt], rfl⟩

/-- What is free is what was added and is not live. -/
theorem Inv.freeCells_eq (h : Inv d s fl live ∅ M) :
    freeCells fl = M \ ⋃ b ∈ live, b.cells := by
  have hcover := h.tiling.cover
  rw [Set.union_empty, Set.biUnion_union] at hcover
  rw [← hcover, Set.union_sdiff_right]
  refine (Disjoint.sdiff_eq_left ?_).symm
  rw [freeCells, Set.disjoint_iUnion₂_left]
  intro b hb
  rw [Set.disjoint_iUnion₂_right]
  intro c hc
  exact h.tiling.disjoint (Or.inl (Or.inl hb)) (Or.inl (Or.inr hc)) fun hbc =>
    Set.disjoint_left.mp h.free_live hb (hbc ▸ hc)

end Phys

namespace Clients

variable {d : DirectMap} {t : Clients} {start end_ : ℕ}

/-- `phys_add_memory` frees aligned blocks inside the range, one after the other, until it is at
the end of the range. What is free then is what was free before and the range. -/
theorem addMemory_tiles (h : Reachable (Initial d) (Step d) t)
    (hv : Valid d t (.addMemory start end_)) :
    ∃ bs s t' fl fl',
      Phys.addTiles d start end_ { t.phys with mem := t.phys.mem.zero start (end_ - start) } =
        some (bs, end_, s) ∧ Phys.TilesRange end_ start bs ∧
      exec d t (.addMemory start end_) = some t' ∧
      t'.phys = { s with acct := s.acct.memAcctAddTotal ((end_ - start) / PAGE_SIZE) } ∧
      Partition d t fl ∧ Partition d t' fl' ∧ t'.live = t.live ∧ Phys.freeCells fl' = Phys.freeCells fl ∪ Set.Ico start end_ := by
  have hg := good_of_reachable h
  obtain ⟨t', e⟩ := exec_isSome h hv trivial
  obtain ⟨hnd', fl', ho'⟩ := good_of_reachable (h.next ⟨_, hv, e⟩)
  obtain ⟨hnd, fl, ho⟩ := hg
  obtain ⟨hs, he, hle, hlo, hhi, hdis⟩ := hv
  have hr : Set.Ico start end_ ⊆ d.range := Set.Ico_subset_Ico hlo hhi
  have hno : end_ + 2 ^ 21 ≤ 2 ^ 64 := by
    have := d.top
    omega
  obtain ⟨hi, hz⟩ := ho.inv.zeroRange hdis hr
  obtain ⟨bs, s, htiles, hbs⟩ := Phys.addTiles_spec hno hs he hle hi hdis hr hz
  obtain ⟨s', e', rfl⟩ := Option.map_eq_some_iff.mp e
  have hblocks := Phys.addBlocks_eq_addTiles.trans (congrArg (Option.map fun t => t.2.2) htiles)
  have hphys : s' = { s with acct := s.acct.memAcctAddTotal ((end_ - start) / PAGE_SIZE) } := by
    rw [Phys.physAddMemory, Phys.and_pageMask.mpr hs, Phys.and_pageMask.mpr he] at e'
    simp only [ne_eq, not_true_eq_false, or_self, if_false] at e'
    rw [hblocks] at e'
    exact (Option.some.inj e').symm
  refine ⟨bs, s, _, fl, fl', htiles, hbs, e, hphys, .of_ok hnd ho, .of_ok hnd' ho', rfl, ?_⟩
  have hadded : added { t with phys := s', ranges := (start, end_) :: t.ranges } =
      t.added ∪ Set.Ico start end_ := by
    ext a
    simp [added, or_comm]
  rw [ho'.inv.freeCells_eq, ho.inv.freeCells_eq, hadded, Set.union_sdiff_distrib]
  congr 1
  refine Disjoint.sdiff_eq_left ?_
  rw [Set.disjoint_iUnion₂_right]
  intro b hb
  exact hdis.mono_right (ho.inv.tiling.subset (Or.inl (Or.inr hb)))

/-- The first page of memory is added. -/
theorem addMemory_tiles_onePageMap : ∃ t : Clients, ∃ bs s t' fl fl',
    Phys.addTiles onePageMap (2 ^ 21) (2 ^ 21 + 4096)
        { t.phys with mem := t.phys.mem.zero (2 ^ 21) (2 ^ 21 + 4096 - 2 ^ 21) } =
      some (bs, 2 ^ 21 + 4096, s) ∧ Phys.TilesRange (2 ^ 21 + 4096) (2 ^ 21) bs ∧
    exec onePageMap t (.addMemory (2 ^ 21) (2 ^ 21 + 4096)) = some t' ∧
    t'.phys = { s with
      acct := s.acct.memAcctAddTotal ((2 ^ 21 + 4096 - 2 ^ 21) / PAGE_SIZE) } ∧
    Partition onePageMap t fl ∧ Partition onePageMap t' fl' ∧ t'.live = t.live ∧
    Phys.freeCells fl' = Phys.freeCells fl ∪ Set.Ico (2 ^ 21) (2 ^ 21 + 4096) := by
  refine ⟨⟨⟨fun _ => 0, fun _ => 0, ⟨0, 0, 0, 0⟩⟩, [], [], 0⟩, ?_⟩
  refine addMemory_tiles (.start ⟨fun _ _ => rfl, fun _ => rfl, rfl, rfl, rfl, rfl⟩)
    ⟨by decide, by decide, by decide, le_rfl, le_rfl, ?_⟩
  simp [added]

end Clients

end Tomato
