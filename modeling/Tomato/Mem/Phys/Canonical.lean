import Tomato.Lib.BlocksCanonical
import Tomato.Mem.Phys.Run

/-!
# The canonical form of the free blocks

No two buddies below the largest level are both free. The merge loop only stops at a
block whose buddy is not a free block of its level, and the upper halves that a split
frees have the block that is handed out inside their buddies.

The free memory therefore determines the free blocks, whatever the history.
-/

namespace Tomato

open Blocks Transition

namespace Phys

variable {d : DirectMap} {s s' : Phys} {fl fl' : FreeLists} {live live' floats floats' : Set Block}
  {M M' : Set ℕ} {p level L : ℕ}

/-- The memory tells which lists there are. -/
theorem Inv.unique (h : Inv d s fl live floats M) (h' : Inv d s fl' live' floats' M') : fl = fl' := by
  funext l
  by_cases hl : l < 16
  · exact (h.chain l hl).unique (h'.chain l hl)
  · rw [h.empty l (by omega), h'.empty l (by omega)]

/-- No two free blocks are buddies, below the largest level. -/
def NoFreeBuddies (fl : FreeLists) : Prop := NoBuddies 21 (freeBlocks fl)

/-- The merge loop stops at a block whose buddy is not free. -/
theorem mergeBlock_buddy (n : ℕ) (hn : level + n = 15) (h : Inv d s fl live {block p level} M)
    (hz : ∀ a ∈ (block p level).cells, s.mem a = 0) :
    ∃ q L s' fl', mergeBlock d n p level s = (q, L, s') ∧ Inv d s' fl' live {block q L} M ∧
      freeBlocks fl' ⊆ freeBlocks fl ∧ (L < 15 → q ^^^ blockSize L ∉ fl' L) := by
  induction n generalizing s fl p level with
  | zero => exact ⟨p, level, s, fl, rfl, h, subset_rfl, by omega⟩
  | succ n ih =>
      rw [mergeBlock]
      split
      · rename_i hbit
        refine ⟨p, level, s, fl, rfl, h, subset_rfl, fun _ hmem => ?_⟩
        simp [h.bit_free _ _ hmem] at hbit
      rename_i hbit
      split
      · rename_i hlev
        refine ⟨p, level, s, fl, rfl, h, subset_rfl, fun _ hmem => hlev ?_⟩
        rw [pageLevel, h.header _ _ hmem]
        omega
      rename_i hlev
      simp only [Bool.not_eq_true', Bool.not_eq_false] at hbit
      simp only [ne_eq, Decidable.not_not] at hlev
      obtain ⟨k, hk⟩ := h.buddy_free (by omega) hbit
      obtain rfl : k = level := by
        have := h.level_lt hk
        rw [pageLevel, h.header k _ hk] at hlev
        omega
      obtain ⟨h1, hz1, -⟩ := Merged.step h (by omega) hz hk
      obtain ⟨q, L, s', fl', e, hi, hsub, hnot⟩ := ih (by omega) h1 hz1
      have hmin : (if p > p ^^^ blockSize k then p ^^^ blockSize k else p) =
          min p (p ^^^ blockSize k) := by
        split <;> omega
      rw [hmin]
      refine ⟨q, L, s', fl', e, hi, hsub.trans ?_, hnot⟩
      rw [freeBlocks_erase (h.nodup k)]
      exact Set.sdiff_subset

/-- Freeing keeps buddies apart. -/
theorem NoFreeBuddies.linkMerged (hn : NoFreeBuddies fl) (hl : level < 16)
    (h : Inv d s fl live {block p level} M)
    (hz : ∀ a ∈ (block p level).cells, s.mem a = 0) {q : ℕ} {s1 : Phys}
    (hm : mergeBlock d (PHYS_BUDDY_MAX_LEVEL - 1 - level) p level s = (q, L, s1))
    (hi : Inv d (buddySetBlockFree d { s1 with mem := Inv.linkedMem d s1 q L } q) fl' live ∅ M) :
    NoFreeBuddies fl' := by
  obtain ⟨q', L', s', fl1, e, h1, hsub, hnot⟩ :=
    mergeBlock_buddy (PHYS_BUDDY_MAX_LEVEL - 1 - level)
      (show level + (16 - 1 - level) = 15 by omega) h hz
  obtain ⟨q2, L2, s2, fl2, e2, i⟩ :=
    mergeBlock_spec (PHYS_BUDDY_MAX_LEVEL - 1 - level)
      (show level + (16 - 1 - level) = 15 by omega) h hz
  rw [hm] at e e2
  obtain ⟨rfl, rfl, rfl⟩ : q = q' ∧ L = L' ∧ s1 = s' := by simpa using e
  obtain ⟨rfl, rfl, rfl⟩ : q = q2 ∧ L = L2 ∧ s1 = s2 := by simpa using e2
  obtain rfl := h1.unique i.inv
  have h2 := i.inv.link rfl i.level_lt i.zero
  obtain rfl := h2.unique hi
  rw [NoFreeBuddies, freeBlocks_cons]
  refine (hn.mono hsub).insert fun hlt => ?_
  rw [Inv.buddy_block, mem_freeBlocks]
  refine hnot ?_
  simp only [block] at hlt
  omega

theorem NoFreeBuddies.physFreeInternal (hn : NoFreeBuddies fl) (hl : level < 16) (h : Inv d s fl live ∅ M)
    (hb : block p level ∈ live) (hz : ∀ a ∈ (block p level).cells, s.mem a = 0)
    (he : Phys.physFreeInternal d s p level true = some (L, s'))
    (hi : Inv d s' fl' (live \ {block p level}) ∅ M) : NoFreeBuddies fl' := by
  have h1 := h.takeLive hb
  rw [Set.empty_union] at h1
  have h2 : Inv d (buddySetBlockFree d s p) fl (live \ {block p level}) {block p level} M :=
    h1.setFree (b := block p level) rfl
  unfold Phys.physFreeInternal at he
  split at he
  · simp at he
  split at he
  · simp at he
  simp only [if_true, Option.some.injEq, Prod.mk.injEq] at he
  obtain ⟨-, rfl⟩ := he
  exact hn.linkMerged hl h2 hz rfl hi

theorem NoFreeBuddies.physFreeInternal_new (hn : NoFreeBuddies fl) (hl : level < 16)
    (h : Inv d s fl live {block p level} M) (hz : ∀ a ∈ (block p level).cells, s.mem a = 0)
    (he : Phys.physFreeInternal d s p level false = some (L, s'))
    (hi : Inv d s' fl' live ∅ M) : NoFreeBuddies fl' := by
  unfold Phys.physFreeInternal at he
  split at he
  · simp at he
  simp only [Bool.false_eq_true, false_and, if_false, Option.some.injEq, Prod.mk.injEq] at he
  obtain ⟨-, rfl⟩ := he
  exact hn.linkMerged hl h hz rfl hi

/-- The blocks that a split frees are the upper halves. -/
theorem splitBlock_free (k : ℕ) (hL : level + k < 16)
    (h : Inv d s fl live {block p (level + k)} M)
    (hz : ∀ a ∈ (block p (level + k)).cells, s.mem a = 0)
    (hi : Inv d (splitBlock d level p k s) fl' live {block p level} M) :
    ∀ b ∈ freeBlocks fl', b ∈ freeBlocks fl ∨
      ∃ j, level ≤ j ∧ j < level + k ∧ b = block (p + 2 ^ (j + 6)) j := by
  induction k generalizing s fl with
  | zero =>
      obtain rfl := h.unique hi
      exact fun b hb => Or.inl hb
  | succ k ih =>
      obtain ⟨h1, hz1, -⟩ := splitStep (l := level + k) h hL hz
      rw [splitBlock_succ] at hi
      intro b hb
      rcases ih (by omega) h1 hz1 hi b hb with hf | ⟨j, hj, hjk, rfl⟩
      · rw [freeBlocks_cons] at hf
        rcases hf with hf | rfl
        · exact Or.inl hf
        · exact Or.inr ⟨level + k, by omega, by omega, rfl⟩
      · exact Or.inr ⟨j, hj, by omega, rfl⟩

/-- The lower half is the buddy of the upper half. -/
theorem buddy_upper {j : ℕ} (hp : 2 ^ (j + 7) ∣ p) :
    (block (p + 2 ^ (j + 6)) j).buddy = block p j := by
  have hpos : 0 < 2 ^ (j + 6) := Nat.two_pow_pos _
  have hdvd : 2 ^ (j + 6) ∣ p := (pow_dvd_pow 2 (by omega)).trans hp
  have hal : (block (p + 2 ^ (j + 6)) j).Aligned := hdvd.add (dvd_refl _)
  rcases Block.buddy_cases hal with ⟨h, -⟩ | ⟨h, -⟩
  · exfalso
    have : 2 ^ (j + 7) ∣ 2 ^ (j + 6) := (Nat.dvd_add_right hp).mp h
    have := Nat.le_of_dvd hpos this
    rw [pow_succ 2 (j + 6)] at this
    omega
  · refine Block.eq_of_cells_eq rfl ?_
    simp only [block] at h ⊢
    omega

/-- Allocating keeps buddies apart. -/
theorem NoFreeBuddies.takeBlock (hn : NoFreeBuddies fl) (h : Inv d s fl live ∅ M) (hlevel : level ≤ L) (hL : L < 16)
    (hne : fl L ≠ []) (he : Phys.takeBlock d s level L = some (p, s'))
    (hi : Inv d s' fl' (live ∪ {block p level}) ∅ M) : NoFreeBuddies fl' := by
  obtain ⟨p', rest, hfl⟩ := List.exists_cons_of_ne_nil hne
  have hp : p' ∈ fl L := by simp [hfl]
  have hhead : s.mem (d.head L) = p' := by
    have := (h.chain L hL).head
    simpa [hfl] using this
  have h1 := h.unlink hp
  have hz1 := h.unlink_zero hp
  rw [Set.empty_union] at h1
  obtain ⟨k, rfl⟩ := Nat.exists_eq_add_of_le hlevel
  obtain ⟨fl2, i1, -⟩ := splitBlock_spec k hL h1 hz1
  have h2 := i1.setAllocated rfl
  rw [Set.sdiff_self] at h2
  simp only [Phys.takeBlock] at he
  split at he
  · simp at he
  simp only [hhead, Nat.add_sub_cancel_left, Option.some.injEq, Prod.mk.injEq] at he
  obtain ⟨rfl, rfl⟩ := he
  obtain rfl := h2.unique hi
  have hal : 2 ^ (level + k + 6) ∣ p' := h.tiling.aligned (block p' (level + k))
    (Or.inl (Or.inl (mem_freeBlocks.mpr hp)))
  have hfree := splitBlock_free k hL h1 hz1 i1
  -- no free block holds the block that is handed out
  have hout : ∀ b ∈ freeBlocks fl2, p' ∉ b.cells := by
    intro b hb hpb
    have hlive : block p' level ∈ live ∪ {block p' level} := Or.inr rfl
    have heq := h2.tiling.eq_of_mem (Or.inl (Or.inl hb)) (Or.inl (Or.inr hlive)) hpb
      (Block.addr_mem_cells _)
    exact Set.disjoint_left.mp h2.free_live hb (heq ▸ hlive)
  have hupper : ∀ j, j < level + k → (block (p' + 2 ^ (j + 6)) j).buddy ∉ freeBlocks fl2 := by
    intro j hj hmem
    rw [buddy_upper ((pow_dvd_pow 2 (by omega)).trans hal)] at hmem
    exact hout _ hmem (Block.addr_mem_cells _)
  intro b hb hlt hbud
  rcases hfree b hb with hbo | ⟨j, -, hj, rfl⟩
  · rcases hfree _ hbud with hbo' | ⟨j, -, hj, hbj⟩
    · rw [freeBlocks_erase (h.nodup _)] at hbo hbo'
      exact hn b hbo.1 hlt hbo'.1
    · refine hupper j hj ?_
      rw [← hbj, Block.buddy_buddy]
      exact hb
  · exact hupper j hj hbud

theorem NoFreeBuddies.physAllocInternal (hn : NoFreeBuddies fl) (h : Inv d s fl live ∅ M) (hlevel : level < 16)
    {reserved : Bool} (he : Phys.physAllocInternal d s level reserved = some (some p, s'))
    (hi : Inv d s' fl' (live ∪ {block p level}) ∅ M) : NoFreeBuddies fl' := by
  obtain ⟨i1, i2, i3, -⟩ := closestLevel_spec h (PHYS_BUDDY_MAX_LEVEL - level)
    (show level + (PHYS_BUDDY_MAX_LEVEL - level) = 16 by simp only [PHYS_BUDDY_MAX_LEVEL]; omega)
  simp only [Phys.physAllocInternal] at he
  generalize closestLevel d s.mem (PHYS_BUDDY_MAX_LEVEL - level) level = L at i1 i2 i3 he
  split at he
  · split at he <;> simp at he
  rename_i hL
  have hL' : L < 16 := by simp only [PHYS_BUDDY_MAX_LEVEL] at hL; omega
  obtain ⟨⟨ok, a⟩, -, ht⟩ := Option.bind_eq_some_iff.mp he
  cases ok with
  | false => simp at ht
  | true =>
    simp only [Option.map_eq_some_iff, Prod.mk.injEq, Option.some.injEq] at ht
    obtain ⟨⟨q, s1⟩, ht, rfl, rfl⟩ := ht
    exact hn.takeBlock (h.congr_acct a) i1 hL' (i3 hL') ht hi

theorem NoFreeBuddies.physFreeBlock {early : ℕ} (hn : NoFreeBuddies fl) (h : Ok d s fl live M early)
    (hl : level < 16) (hb : block p level ∈ live) {reserved : Bool}
    (he : Phys.physFreeBlock d s p level reserved = some s')
    (hi : Inv d s' fl' (live \ {block p level}) ∅ M) : NoFreeBuddies fl' := by
  obtain ⟨h1, hz⟩ := h.zeroLive hb
  simp only [Phys.physFreeBlock, Option.bind_eq_bind, Option.bind_eq_some_iff] at he
  obtain ⟨⟨L, s1⟩, e1, a, -, he⟩ := he
  obtain rfl := Option.some.inj he
  refine hn.physFreeInternal hl h1.inv hb hz e1 ?_
  exact hi.congr_acct s1.acct

/-- Adding memory keeps buddies apart, also from the free blocks around it. -/
theorem NoFreeBuddies.addBlocks {start end_ : ℕ} (hn : NoFreeBuddies fl)
    (hno : end_ + 2 ^ 21 ≤ 2 ^ 64) (hs : 4096 ∣ start) (he : 4096 ∣ end_) (hle : start ≤ end_)
    (h : Inv d s fl live ∅ M) (hM : Disjoint (Set.Ico start end_) M)
    (hr : Set.Ico start end_ ⊆ d.range) (hz : ∀ a ∈ Set.Ico start end_, s.mem a = 0)
    (e : Phys.addBlocks d start end_ s = some s') (hi : Inv d s' fl' live ∅ M') :
    NoFreeBuddies fl' := by
  obtain ⟨n, hlen⟩ : ∃ n, n = end_ - start := ⟨_, rfl⟩
  induction n using Nat.strong_induction_on generalizing start s fl M with
  | _ n ih =>
    rw [Phys.addBlocks] at e
    by_cases hlt : start < end_
    · rw [dif_pos hlt] at e
      obtain ⟨l, L, s1, fl1, e0, e1, h6, hal, hfit, hpage, hf, hM1, hz1⟩ :=
        addBlock_spec hno hs he hlt h hM hr hz
      have hpos : 0 < 2 ^ (l + 6) := Nat.two_pow_pos _
      have hsub : (block start l).cells ⊆ Set.Ico start end_ := fun a ha =>
        ⟨ha.1, lt_of_lt_of_le ha.2 hfit⟩
      have hl : l < 16 := by
        have := hf.level_le
        by_contra hge
        have h2 : ∃ l', getBestLevelForBlock start end_ = some l' ∧ 6 ≤ l' ∧ l' < 16 ∧
            2 ^ (l' + 6) ∣ start ∧ start + 2 ^ (l' + 6) ≤ end_ :=
          getBestLevelForBlock_spec hno hs he hlt
        obtain ⟨l', e', -, h16, -⟩ := h2
        obtain rfl := Option.some.inj (e0.symm.trans e')
        exact hge h16
      have h1 := h.addFloat (b := block start l) hal (hM.mono_left hsub) (hsub.trans hr)
        ⟨l, hl, rfl⟩
      rw [Set.empty_union] at h1
      have hn1 := hn.physFreeInternal_new hl h1 (fun a ha => hz a (hsub ha)) e1 hf.inv
      rw [e0, Option.bind_some, e1, Option.bind_some, blockSize_eq] at e
      have hr1 : Set.Ico (start + 2 ^ (l + 6)) end_ ⊆ d.range := by
        refine (Set.Ico_subset_Ico_left ?_).trans hr
        omega
      exact ih (end_ - (start + 2 ^ (l + 6))) (by omega) hn1 (hs.add ⟨2 ^ (l - 6), hpage⟩) hfit
        hf.inv hM1 hr1 hz1 e rfl
    · rw [dif_neg hlt] at e
      obtain rfl := Option.some.inj e
      exact h.unique hi ▸ hn

end Phys

namespace Clients

open Phys

variable {d : DirectMap} {t t' : Clients} {c : Call}

/-- No two free blocks of the state are buddies. -/
def Canonical (d : DirectMap) (t : Clients) : Prop :=
  ∀ fl, t.phys.Ok d fl t.liveSet t.added t.early → NoFreeBuddies fl

theorem canonical_of_initial (h : Initial d t) : Canonical d t := by
  intro fl ho b ⟨l, p, hp, hb⟩
  have hhead := h.1 l (ho.inv.level_lt hp)
  have := (ho.inv.chain l (ho.inv.level_lt hp)).head
  rw [hhead] at this
  cases hfl : fl l with
  | nil => simp [hfl] at hp
  | cons q xs =>
    have hq := (ho.inv.chain l (ho.inv.level_lt hp)).ne_zero (x := q) (by simp [hfl])
    simp [hfl] at this
    omega

/-- A call that leaves the lists as they were. -/
theorem Canonical.of_chain (hc : Canonical d t) {fl fl' : FreeLists}
    (ho : t.phys.Ok d fl t.liveSet t.added t.early)
    (ho' : t'.phys.Ok d fl' t'.liveSet t'.added t'.early)
    (hch : ∀ l < 16, Chain t'.phys.mem (d.head l) (fl l)) : NoFreeBuddies fl' := by
  have : fl' = fl := by
    funext l
    by_cases hl : l < 16
    · exact (ho'.inv.chain l hl).unique (hch l hl)
    · rw [ho.inv.empty l (by omega), ho'.inv.empty l (by omega)]
  exact this ▸ hc fl ho

theorem Canonical.handOut (hc : Canonical d t) {fl fl' : FreeLists} {size l p : ℕ} {s : Phys}
    {reserved : Bool} (ho : t.phys.Ok d fl t.liveSet t.added t.early)
    (hl : getLevelBySize size = some l)
    (he : t.phys.physAllocInternal d l reserved = some (some p, s))
    (ho' : (t.handOut size (some p, s)).phys.Ok d fl' (t.handOut size (some p, s)).liveSet
      t.added t.early) : NoFreeBuddies fl' := by
  have hi := ho'.inv
  rw [liveSet_handOut p size s hl] at hi
  exact (hc fl ho).physAllocInternal ho.inv (getLevelBySize_eq_some hl).1 he hi

theorem Canonical.takeBack (hc : Canonical d t) (hnd : t.live.Nodup) {fl fl' : FreeLists}
    {size l p : ℕ} {s : Phys} {reserved : Bool} (ho : t.phys.Ok d fl t.liveSet t.added t.early)
    (hl : getLevelBySize size = some l) (hb : block p l ∈ t.live)
    (he : t.phys.physFreeBlock d p l reserved = some s)
    (ho' : (t.takeBack p size s).phys.Ok d fl' (t.takeBack p size s).liveSet t.added t.early) :
    NoFreeBuddies fl' := by
  have hi := ho'.inv
  rw [liveSet_takeBack hnd p size s hl] at hi
  exact (hc fl ho).physFreeBlock ho (getLevelBySize_eq_some hl).1 hb he hi

theorem Canonical.addMemory (hc : Canonical d t) {fl fl' : FreeLists} {start end_ : ℕ} {s : Phys}
    {M' : Set ℕ} {early' : ℕ} (ho : t.phys.Ok d fl t.liveSet t.added t.early)
    (hv : Valid d t (.addMemory start end_))
    (he : t.phys.physAddMemory d start end_ = some s) (ho' : s.Ok d fl' t.liveSet M' early') :
    NoFreeBuddies fl' := by
  obtain ⟨hs, hend, hle, hlo, hhi, hdis⟩ := hv
  have hr : Set.Ico start end_ ⊆ d.range := Set.Ico_subset_Ico hlo hhi
  have hno : end_ + 2 ^ 21 ≤ 2 ^ 64 := by
    have := d.top
    omega
  obtain ⟨hinv, hz⟩ := ho.inv.zeroRange hdis hr
  simp only [physAddMemory, and_pageMask.mpr hs, and_pageMask.mpr hend, ne_eq, not_true_eq_false,
    or_self, if_false, Option.map_eq_some_iff] at he
  obtain ⟨s1, e, rfl⟩ := he
  exact (hc fl ho).addBlocks hno hs hend hle hinv hdis hr hz e (ho'.inv.congr_acct s1.acct)

theorem canonical_step (hg : Good d t) (hc : Canonical d t) (hs : Step d t t') : Canonical d t' := by
  intro fl' ho'
  have hg' := hg
  obtain ⟨hnd, fl, ho⟩ := hg
  obtain ⟨c, hv, he⟩ := hs
  -- a free of `NULL` and a request that fails change nothing
  have hsame : t' = t → NoFreeBuddies fl' := by
    rintro rfl
    exact hc fl' ho'
  cases c with
  | addMemory start end_ =>
      simp only [exec, Option.map_eq_some_iff] at he
      obtain ⟨s, e, rfl⟩ := he
      exact hc.addMemory ho hv e ho'
  | alloc size =>
      simp only [exec, Option.map_eq_some_iff] at he
      obtain ⟨⟨r, s⟩, e, rfl⟩ := he
      rcases ho.physAlloc size with e' | ⟨l, p, s', fl2, pages, hl, e', -⟩
      · obtain ⟨rfl, rfl⟩ := Prod.mk.inj (Option.some.inj (e.symm.trans e'))
        exact hsame rfl
      · obtain ⟨rfl, rfl⟩ := Prod.mk.inj (Option.some.inj (e.symm.trans e'))
        simp only [physAlloc, hl] at e
        exact hc.handOut ho hl e ho'
  | allocReserved size =>
      simp only [exec, Option.map_eq_some_iff] at he
      obtain ⟨⟨r, s⟩, e, rfl⟩ := he
      rcases physAllocReserved_cases e with e' | ⟨l, hl, hres⟩
      · obtain ⟨rfl, rfl⟩ := Prod.mk.inj e'
        exact hsame rfl
      rcases ho.physAllocReserved hl hres with ⟨-, e'⟩ | ⟨p, s', fl2, e', -⟩
      · obtain ⟨rfl, rfl⟩ := Prod.mk.inj (Option.some.inj (e.symm.trans e'))
        exact hsame rfl
      · obtain ⟨rfl, rfl⟩ := Prod.mk.inj (Option.some.inj (e.symm.trans e'))
        rw [physAllocReserved, hl, Option.bind_some] at e
        exact hc.handOut ho (getPageLevelBySize_eq_some hl).1 e ho'
  | free ptr size =>
      simp only [exec, Option.map_eq_some_iff] at he
      obtain ⟨s, e, rfl⟩ := he
      rcases hv with rfl | ⟨l, hl, hb⟩
      · simp only [physFree, if_true, Option.some.injEq] at e
        exact hsame (e ▸ takeBack_null hg' size)
      · rw [physFree, if_neg (ho.live_ne_zero hb), hl, Option.bind_some] at e
        exact hc.takeBack hnd ho hl hb e ho'
  | freeReserved ptr size =>
      simp only [exec, Option.map_eq_some_iff] at he
      obtain ⟨s, e, rfl⟩ := he
      rcases hv with rfl | ⟨l, hl, hb⟩
      · simp only [physFreeReserved, if_true, Option.some.injEq] at e
        exact hsame (e ▸ takeBack_null hg' size)
      · rw [physFreeReserved, if_neg (ho.live_ne_zero hb)] at e
        obtain ⟨k, hk, e⟩ := Option.bind_eq_some_iff.mp e
        obtain rfl : l = k := Option.some.inj (hl.symm.trans (getPageLevelBySize_eq_some hk).1)
        exact hc.takeBack hnd ho hl hb e ho'
  | addCommitted n =>
      simp only [exec, Option.some.injEq] at he
      subst he
      exact hc.of_chain ho ho' ho.inv.chain
  | reserve n =>
      simp only [exec, Option.some.injEq] at he
      subst he
      exact hc.of_chain ho ho' ho.inv.chain
  | unreserve n =>
      simp only [exec, Option.map_eq_some_iff] at he
      obtain ⟨a, -, rfl⟩ := he
      exact hc.of_chain ho ho' ho.inv.chain
  | write b content =>
      simp only [exec, Option.some.injEq] at he
      subst he
      exact hc.of_chain ho ho' (ho.write hv).inv.chain

theorem canonical_of_run (h : Reachable (Initial d) (Step d) t) : Canonical d t :=
  (h.invariant (fun _ hi => (⟨good_of_initial hi, canonical_of_initial hi⟩ : Good d _ ∧ Canonical d _))
    fun _ _ hi hs => ⟨good_step hi.1 hs, canonical_step hi.1 hi.2 hs⟩).2

theorem Partition.unique {fl fl' : FreeLists} (h : Partition d t fl) (h' : Partition d t fl') :
    fl = fl' := by
  funext l
  by_cases hl : l < 16
  · exact (h.chain l hl).unique (h'.chain l hl)
  · rw [h.empty l (by omega), h'.empty l (by omega)]

theorem Partition.order_le {fl : FreeLists} (h : Partition d t fl) {b : Block}
    (hb : b ∈ freeBlocks fl) : b.order ≤ 21 := by
  obtain ⟨l, p, hp, rfl⟩ := hb
  by_contra hlt
  rw [h.empty l (by simp only [block] at hlt; omega)] at hp
  simp at hp

/-- The free blocks tile the free memory, and there is one such tiling. -/
theorem Partition.eq_of_noFreeBuddies {fl fl' : FreeLists} (h : Partition d t fl)
    (h' : Partition d t' fl') (hn : NoFreeBuddies fl) (hn' : NoFreeBuddies fl')
    (hadd : t'.added = t.added) (hlive : t'.liveSet = t.liveSet) :
    freeBlocks fl' = freeBlocks fl := by
  have ht := h.tiling.left h.free_live
  have ht' := h'.tiling.left h'.free_live
  rw [hadd, hlive] at ht'
  exact ht'.eq_of_noBuddies ht hn' hn (fun b => h'.order_le) fun b => h.order_le

theorem exists_noFreeBuddies (h : Reachable (Initial d) (Step d) t) :
    ∃ fl, Partition d t fl ∧ NoFreeBuddies fl := by
  obtain ⟨hnd, fl, ho⟩ := good_of_reachable h
  exact ⟨fl, .of_ok hnd ho, canonical_of_run h fl ho⟩

/-- No two buddies below the largest level are both free, and the free blocks depend
on the memory that was added and on the live blocks only. In particular two states
without live blocks have the same free blocks when the same memory was added. -/
theorem canonical_of_reachable (h : Reachable (Initial d) (Step d) t) :
    ∃ fl, Partition d t fl ∧ (∀ l < 15, ∀ p ∈ fl l, p ^^^ blockSize l ∉ fl l) ∧
      ∀ t', Reachable (Initial d) (Step d) t' → t'.added = t.added → t'.liveSet = t.liveSet →
        ∀ fl', Partition d t' fl' → freeBlocks fl' = freeBlocks fl := by
  obtain ⟨fl, hp, hn⟩ := exists_noFreeBuddies h
  refine ⟨fl, hp, ?_, ?_⟩
  · intro l hl p hpl hbud
    refine hn (block p l) (mem_freeBlocks.mpr hpl) (by simp only [block]; omega) ?_
    rw [Inv.buddy_block]
    exact mem_freeBlocks.mpr hbud
  · intro t' ht' hadd hlive fl' hp'
    obtain ⟨fl2, hp2, hn2⟩ := exists_noFreeBuddies ht'
    obtain rfl := hp'.unique hp2
    exact hp.eq_of_noFreeBuddies hp' hn hn2 hadd hlive

/-- The two states of the page before and after a block was requested. -/
theorem canonical_onePageMap : ∃ t, t.ranges = [(2 ^ 21, 2 ^ 21 + 4096)] ∧
    ∃ fl, Partition onePageMap t fl ∧ ∀ l < 15, ∀ p ∈ fl l, p ^^^ blockSize l ∉ fl l := by
  obtain ⟨t, ht, hr⟩ := exists_reachable_onePageMap
  obtain ⟨fl, hp, hn, -⟩ := canonical_of_reachable ht
  exact ⟨t, hr, fl, hp, hn⟩

end Clients

end Tomato
