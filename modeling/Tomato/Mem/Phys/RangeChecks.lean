import Tomato.Mem.Phys.Run

/-!
# The range assertions of the direct map

In a debug build `direct_to_phys` asserts that its argument points into the direct
map. The definitions below are the pointers that each function of the allocator hands
to `direct_to_phys`, in order, when none of the assertions stops it: the block itself
and, while it merges, the buddy at every level.

As long as the memory of the allocator ends below the end of the direct map, all of
them are in range. The buddy of a block lies in the same block of the next order, so
it can only be out of range when the block ends where the direct map does.
-/

namespace Tomato

open Blocks

/-- The assertions of `direct_to_phys`. -/
def DirectMap.InRange (d : DirectMap) (ptr : ℕ) : Prop :=
  d.base ≤ ptr ∧ ptr - d.base < d.pageCount * PAGE_SIZE

namespace Phys

variable (d : DirectMap)

def mergeProbes : ℕ → ℕ → ℕ → Phys → List ℕ
  | 0, _, _, _ => []
  | n + 1, ptr, level, s =>
    let neighbor := ptr ^^^ blockSize level
    neighbor ::
      if !buddyIsBlockFree d s neighbor then []
      else if pageLevel s.mem neighbor ≠ level then []
      else
        let m := hlistDel s.mem neighbor
        let m := clearPageHeader m neighbor
        mergeProbes n (if ptr > neighbor then neighbor else ptr) (level + 1) { s with mem := m }

def freeProbes (s : Phys) (ptr level : ℕ) (checkAllocated : Bool) : List ℕ :=
  if ptr % blockSize level ≠ 0 then []
  else if checkAllocated ∧ buddyIsBlockFree d s ptr then [ptr]
  else
    let s' := if checkAllocated then buddySetBlockFree d s ptr else s
    let n := PHYS_BUDDY_MAX_LEVEL - 1 - level
    (if checkAllocated then [ptr, ptr] else []) ++ mergeProbes d n ptr level s' ++
      [(mergeBlock d n ptr level s').1]

def splitProbes (level block : ℕ) : ℕ → List ℕ
  | 0 => []
  | k + 1 => (block + blockSize (level + k + 1) / 2) :: splitProbes level block k

def allocProbes (s : Phys) (level : ℕ) (reserved : Bool) : List ℕ :=
  let blockAtLevel := closestLevel d s.mem (PHYS_BUDDY_MAX_LEVEL - level) level
  if blockAtLevel = PHYS_BUDDY_MAX_LEVEL then []
  else
    match commitPages s.acct level blockAtLevel reserved with
    | some (true, _) =>
      let page := s.mem (d.head blockAtLevel)
      if pageLevel s.mem page ≠ blockAtLevel then []
      else splitProbes level page (blockAtLevel - level) ++ [page]
    | _ => []

def physAllocProbes (s : Phys) (size : ℕ) : List ℕ :=
  match getLevelBySize size with
  | none => []
  | some level => allocProbes d s level false

def physAllocReservedProbes (s : Phys) (size : ℕ) : List ℕ :=
  match getPageLevelBySize size with
  | none => []
  | some level => allocProbes d s level true

def freeBlockProbes (s : Phys) (ptr level : ℕ) : List ℕ :=
  freeProbes d { s with mem := s.mem.zero ptr (blockSize level) } ptr level true

def physFreeProbes (s : Phys) (ptr size : ℕ) : List ℕ :=
  if ptr = 0 then []
  else
    match getLevelBySize size with
    | none => []
    | some level => freeBlockProbes d s ptr level

def physFreeReservedProbes (s : Phys) (ptr size : ℕ) : List ℕ :=
  if ptr = 0 then []
  else
    match getPageLevelBySize size with
    | none => []
    | some level => freeBlockProbes d s ptr level

def addBlocksProbes (start end_ : ℕ) (s : Phys) : List ℕ :=
  if _h : start < end_ then
    (getBestLevelForBlock start end_).elim [] fun level =>
      freeProbes d s start level false ++
        (physFreeInternal d s start level false).elim [] fun r =>
          addBlocksProbes (start + blockSize level) end_ r.2
  else []
termination_by end_ - start
decreasing_by
  have : 0 < 1 <<< (level + PHYS_BUDDY_MIN_ORDER) := by simp [Nat.one_shiftLeft]
  unfold blockSize
  omega

def physAddMemoryProbes (s : Phys) (start end_ : ℕ) : List ℕ :=
  if start &&& PAGE_MASK ≠ 0 ∨ end_ &&& PAGE_MASK ≠ 0 then []
  else addBlocksProbes d start end_ { s with mem := s.mem.zero start (end_ - start) }

variable {d : DirectMap} {s : Phys} {fl : FreeLists} {live : Set Block} {M : Set ℕ}
  {early p level L size : ℕ}

/-- All the memory ends before the direct map does. -/
def EndsBelow (d : DirectMap) (M : Set ℕ) : Prop :=
  ∀ a ∈ M, a + 1 < d.base + d.pageCount * 4096

theorem EndsBelow.inRange (hM : EndsBelow d M) {ptr : ℕ} (hlo : d.base ≤ ptr)
    (hp : ptr ∈ M ∨ ∃ a ∈ M, ptr ≤ a + 1) : d.InRange ptr := by
  have hps : PAGE_SIZE = 4096 := rfl
  rw [DirectMap.InRange, hps]
  rcases hp with hp | ⟨a, ha, hle⟩
  · have := hM ptr hp
    omega
  · have := hM a ha
    omega

/-- The buddy of a block is in range. -/
theorem EndsBelow.buddy (hM : EndsBelow d M) (h : Inv d s fl live {block p level} M)
    (hl : level < 15) : d.InRange (p ^^^ blockSize level) := by
  have hb : block p level ∈ freeBlocks fl ∪ live ∪ {block p level} := Or.inr rfl
  have hpos : 0 < 2 ^ (level + 6) := Nat.two_pow_pos _
  have hlast : p + 2 ^ (level + 6) - 1 ∈ M := by
    refine h.tiling.subset hb ?_
    simp only [Block.mem_cells, block]
    omega
  refine hM.inRange (h.base_le_buddy rfl hl).2 (Or.inr ⟨_, hlast, ?_⟩)
  have hcases := Block.buddy_cases (h.tiling.aligned _ hb)
  rw [Inv.buddy_block] at hcases
  simp only [block] at hcases
  omega

theorem EndsBelow.block (hM : EndsBelow d M) (h : Inv d s fl live {block p level} M) :
    d.InRange p := by
  have hb : Tomato.block p level ∈ freeBlocks fl ∪ live ∪ {Tomato.block p level} := Or.inr rfl
  exact hM.inRange (h.base_le_addr hb) (Or.inl (h.tiling.subset hb (Block.addr_mem_cells _)))

theorem mergeProbes_inRange (hM : EndsBelow d M) (n : ℕ) (hn : level + n = 15)
    (h : Inv d s fl live {block p level} M) (hz : ∀ a ∈ (block p level).cells, s.mem a = 0) :
    ∀ ptr ∈ mergeProbes d n p level s, d.InRange ptr := by
  induction n generalizing s fl p level with
  | zero => simp [mergeProbes]
  | succ n ih =>
      have hl : level < 15 := by omega
      rw [mergeProbes]
      intro ptr hp
      rcases List.mem_cons.mp hp with rfl | hp
      · exact hM.buddy h hl
      split at hp
      · simp at hp
      rename_i hbit
      split at hp
      · simp at hp
      rename_i hlev
      simp only [Bool.not_eq_true', Bool.not_eq_false] at hbit
      simp only [ne_eq, Decidable.not_not] at hlev
      obtain ⟨k, hk⟩ := h.buddy_free hl hbit
      obtain rfl : k = level := by
        have := h.level_lt hk
        rw [pageLevel, h.header k _ hk] at hlev
        omega
      obtain ⟨h1, hz1, -⟩ := Merged.step h hl hz hk
      have hmin : (if p > p ^^^ blockSize k then p ^^^ blockSize k else p) =
          min p (p ^^^ blockSize k) := by
        split <;> omega
      rw [hmin] at hp
      exact ih (by omega) h1 hz1 ptr hp

/-- Freeing a block that is in the hands of the operation. -/
theorem mergeProbes_append (hM : EndsBelow d M) (hl : level < 16)
    (h : Inv d s fl live {block p level} M) (hz : ∀ a ∈ (block p level).cells, s.mem a = 0) :
    ∀ ptr ∈ mergeProbes d (PHYS_BUDDY_MAX_LEVEL - 1 - level) p level s ++
      [(mergeBlock d (PHYS_BUDDY_MAX_LEVEL - 1 - level) p level s).1], d.InRange ptr := by
  have hn : level + (PHYS_BUDDY_MAX_LEVEL - 1 - level) = 15 := by
    simp only [PHYS_BUDDY_MAX_LEVEL]
    omega
  intro ptr hp
  rcases List.mem_append.mp hp with hp | hp
  · exact mergeProbes_inRange hM _ hn h hz ptr hp
  · obtain ⟨q, L, s', fl', e, hm⟩ := mergeBlock_spec _ hn h hz
    rw [e, List.mem_singleton] at hp
    exact hp ▸ hM.block hm.inv

theorem freeProbes_new (hM : EndsBelow d M) (hl : level < 16)
    (h : Inv d s fl live {block p level} M) (hz : ∀ a ∈ (block p level).cells, s.mem a = 0) :
    ∀ ptr ∈ freeProbes d s p level false, d.InRange ptr := by
  intro ptr hp
  simp only [freeProbes, Bool.false_eq_true, false_and, if_false, List.nil_append] at hp
  split at hp
  · simp at hp
  · exact mergeProbes_append hM hl h hz ptr hp

theorem freeProbes_live (hM : EndsBelow d M) (hl : level < 16) (h : Inv d s fl live ∅ M)
    (hb : block p level ∈ live) (hz : ∀ a ∈ (block p level).cells, s.mem a = 0) :
    ∀ ptr ∈ freeProbes d s p level true, d.InRange ptr := by
  have h1 := h.takeLive hb
  rw [Set.empty_union] at h1
  have h2 : Inv d (buddySetBlockFree d s p) fl (live \ {block p level}) {block p level} M :=
    h1.setFree (b := block p level) rfl
  have hself : d.InRange p := hM.block h2
  intro ptr hp
  simp only [freeProbes, true_and, if_true, List.append_assoc] at hp
  split at hp
  · simp at hp
  split at hp
  · exact List.mem_singleton.mp hp ▸ hself
  rcases List.mem_append.mp hp with hp | hp
  · have : ptr = p := by simpa using hp
    exact this ▸ hself
  · exact mergeProbes_append hM hl h2 hz ptr hp

theorem mem_splitProbes {k ptr : ℕ} (h : ptr ∈ splitProbes level p k) :
    p ≤ ptr ∧ ptr < p + 2 ^ (level + k + 6) := by
  induction k with
  | zero => simp [splitProbes] at h
  | succ k ih =>
      have hpow : 2 ^ (level + (k + 1) + 6) = 2 ^ (level + k + 6) * 2 := by
        rw [← pow_succ]
        congr 1
      have hpos : 0 < 2 ^ (level + k + 6) := Nat.two_pow_pos _
      rcases List.mem_cons.mp h with rfl | h
      · rw [blockSize_eq, show level + k + 1 + 6 = level + (k + 1) + 6 by omega, hpow]
        omega
      · have := ih h
        omega

theorem allocProbes_inRange (hM : EndsBelow d M) (h : Inv d s fl live ∅ M) (hl : level < 16)
    (reserved : Bool) : ∀ ptr ∈ allocProbes d s level reserved, d.InRange ptr := by
  obtain ⟨h1, h2, h3, -⟩ := closestLevel_spec h (PHYS_BUDDY_MAX_LEVEL - level)
    (show level + (PHYS_BUDDY_MAX_LEVEL - level) = 16 by simp only [PHYS_BUDDY_MAX_LEVEL]; omega)
  intro ptr hp
  simp only [allocProbes] at hp
  generalize closestLevel d s.mem (PHYS_BUDDY_MAX_LEVEL - level) level = k at h1 h2 h3 hp
  split at hp
  · simp at hp
  rename_i hk
  split at hp
  swap
  · simp at hp
  split at hp
  · simp at hp
  have hk16 : k < 16 := lt_of_le_of_ne h2 hk
  -- the block is the first of a list that is not empty
  have hpage : s.mem (d.head k) ∈ fl k := by
    rw [(h.chain k hk16).head]
    cases hfl : fl k with
    | nil => exact absurd hfl (h3 hk16)
    | cons q qs => simp
  have hb : block (s.mem (d.head k)) k ∈ freeBlocks fl ∪ live ∪ ∅ := Inv.mem_all_of_free hpage
  have hsub := h.tiling.subset hb
  rcases List.mem_append.mp hp with hp | hp
  · obtain ⟨hlo, hhi⟩ := mem_splitProbes hp
    rw [show level + (k - level) = k by omega] at hhi
    exact hM.inRange (le_trans (h.base_le_addr hb) hlo) (Or.inl (hsub ⟨hlo, hhi⟩))
  · rw [List.mem_singleton.mp hp]
    exact hM.inRange (h.base_le_addr hb) (Or.inl (hsub (Block.addr_mem_cells _)))

theorem addBlocksProbes_inRange {start end_ : ℕ} (hno : end_ + 2 ^ 21 ≤ 2 ^ 64) (hs : 4096 ∣ start)
    (he : 4096 ∣ end_) (hle : start ≤ end_) (h : Inv d s fl live ∅ M)
    (hM : Disjoint (Set.Ico start end_) M) (hr : Set.Ico start end_ ⊆ d.range)
    (hz : ∀ a ∈ Set.Ico start end_, s.mem a = 0) (hend : EndsBelow d (M ∪ Set.Ico start end_)) :
    ∀ ptr ∈ addBlocksProbes d start end_ s, d.InRange ptr := by
  obtain ⟨n, hlen⟩ : ∃ n, n = end_ - start := ⟨_, rfl⟩
  induction n using Nat.strong_induction_on generalizing start s fl M with
  | _ n ih =>
    rw [addBlocksProbes]
    by_cases hlt : start < end_
    swap
    · simp [hlt]
    obtain ⟨l, L, s1, fl1, e0, e1, h6, hal, hfit, hpage, hf, hM1, hz1⟩ :=
      addBlock_spec hno hs he hlt h hM hr hz
    have hpos : 0 < 2 ^ (l + 6) := Nat.two_pow_pos _
    have hsub : (block start l).cells ⊆ Set.Ico start end_ := fun a ha =>
      ⟨ha.1, lt_of_lt_of_le ha.2 hfit⟩
    obtain ⟨l', e', -, hl, -⟩ := getBestLevelForBlock_spec hno hs he hlt
    obtain rfl := Option.some.inj (e0.symm.trans e')
    have h1 := h.addFloat (b := block start l) hal (hM.mono_left hsub) (hsub.trans hr)
      ⟨l, hl, rfl⟩
    rw [Set.empty_union] at h1
    have hend1 : EndsBelow d (M ∪ (block start l).cells) := fun a ha =>
      hend a (ha.imp_right fun hc => hsub hc)
    have hr1 : Set.Ico (start + 2 ^ (l + 6)) end_ ⊆ d.range := by
      refine (Set.Ico_subset_Ico_left ?_).trans hr
      omega
    have hend2 : EndsBelow d (M ∪ (block start l).cells ∪ Set.Ico (start + 2 ^ (l + 6)) end_) := by
      rintro a (ha | ha)
      · exact hend1 a ha
      · exact hend a (Or.inr ⟨by have := ha.1; omega, ha.2⟩)
    simp only [hlt, dite_true, e0, e1, Option.elim_some, blockSize_eq]
    intro ptr hp
    rcases List.mem_append.mp hp with hp | hp
    · exact freeProbes_new hend1 hl h1 (fun a ha => hz a (hsub ha)) ptr hp
    · exact ih (end_ - (start + 2 ^ (l + 6))) (by omega) (hs.add ⟨2 ^ (l - 6), hpage⟩) hfit
        hf.inv hM1 hr1 hz1 hend2 rfl ptr hp

end Phys

namespace Clients

open Phys

variable (d : DirectMap)

/-- The pointers that a call hands to `direct_to_phys`. -/
def callProbes (t : Clients) : Call → List ℕ
  | .addMemory start end_ => physAddMemoryProbes d t.phys start end_
  | .alloc size => physAllocProbes d t.phys size
  | .allocReserved size => physAllocReservedProbes d t.phys size
  | .free ptr size => physFreeProbes d t.phys ptr size
  | .freeReserved ptr size => physFreeReservedProbes d t.phys ptr size
  | _ => []

variable {d : DirectMap} {t : Clients} {c : Call}

/-- The memory that the clients have once the call is made. -/
def addedBy (t : Clients) : Call → Set ℕ
  | .addMemory start end_ => t.added ∪ Set.Ico start end_
  | _ => t.added

/-- No call of a run fails a range assertion, when all its memory ends before the
direct map does. -/
theorem callProbes_inRange (h : Good d t) (hv : Valid d t c) (hend : EndsBelow d (t.addedBy c)) :
    ∀ ptr ∈ callProbes d t c, d.InRange ptr := by
  obtain ⟨-, fl, ho⟩ := h
  have hfree : ∀ {p size level : ℕ}, getLevelBySize size = some level →
      block p level ∈ t.live → EndsBelow d t.added →
      ∀ ptr ∈ freeBlockProbes d t.phys p level, d.InRange ptr := by
    intro p size level hl hb hend
    obtain ⟨h1, hz⟩ := ho.zeroLive hb
    exact freeProbes_live hend (getLevelBySize_eq_some hl).1 h1.inv hb hz
  intro ptr hp
  cases c with
  | addMemory start end_ =>
      obtain ⟨hs, he, hle, hlo, hhi, hdis⟩ := hv
      have hr : Set.Ico start end_ ⊆ d.range := Set.Ico_subset_Ico hlo hhi
      obtain ⟨h1, hz⟩ := ho.inv.zeroRange hdis hr
      have hno : end_ + 2 ^ 21 ≤ 2 ^ 64 := by
        have := d.top
        omega
      simp only [callProbes, physAddMemoryProbes] at hp
      split at hp
      · simp at hp
      · exact addBlocksProbes_inRange hno hs he hle h1 hdis hr hz hend ptr hp
  | alloc size =>
      simp only [callProbes, physAllocProbes] at hp
      split at hp
      · simp at hp
      · rename_i level hl
        exact allocProbes_inRange hend ho.inv (getLevelBySize_eq_some hl).1 _ ptr hp
  | allocReserved size =>
      simp only [callProbes, physAllocReservedProbes] at hp
      split at hp
      · simp at hp
      · rename_i level hl
        obtain ⟨-, -, h16, -⟩ := getPageLevelBySize_eq_some hl
        exact allocProbes_inRange hend ho.inv h16 _ ptr hp
  | free p size =>
      simp only [callProbes, physFreeProbes] at hp
      split at hp
      · simp at hp
      rename_i hp0
      obtain ⟨l, hl, hb⟩ := hv.resolve_left hp0
      rw [hl] at hp
      exact hfree hl hb hend ptr hp
  | freeReserved p size =>
      simp only [callProbes, physFreeReservedProbes] at hp
      split at hp
      · simp at hp
      rename_i hp0
      obtain ⟨l, hl, hb⟩ := hv.resolve_left hp0
      split at hp
      · simp at hp
      · rename_i k hk
        obtain rfl : l = k := Option.some.inj (hl.symm.trans (getPageLevelBySize_eq_some hk).1)
        exact hfree hl hb hend ptr hp
  | addCommitted n => simp [callProbes] at hp
  | reserve n => simp [callProbes] at hp
  | unreserve n => simp [callProbes] at hp
  | write b content => simp [callProbes] at hp

end Clients

end Tomato
