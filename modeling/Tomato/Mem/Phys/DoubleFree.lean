import Tomato.Mem.Phys.Run

/-!
# Freeing twice

A bit of the bitmap is cleared only by an allocation that returns the pointer of the bit. So
the bit that a free sets is still there at a second free, wherever the block went since.
-/

namespace Tomato

open Blocks Transition

namespace Phys

variable {d : DirectMap} {s s' : Phys} {fl : FreeLists} {live : Set Block} {M : Set ℕ}
  {p q ptr level L : ℕ}

/-- The bits of the first state are set in the second. -/
def BitsKept (d : DirectMap) (s s' : Phys) : Prop :=
  ∀ q, buddyIsBlockFree d s q = true → buddyIsBlockFree d s' q = true

theorem BitsKept.trans {s'' : Phys} (h : BitsKept d s s') (h' : BitsKept d s' s'') :
    BitsKept d s s'' := fun q hq => h' q (h q hq)

theorem bitsKept_of_bitmap (h : s'.bitmap = s.bitmap) : BitsKept d s s' := fun q hq => by
  rwa [buddyIsBlockFree_eq, h, ← buddyIsBlockFree_eq]

theorem bitsKept_with (s : Phys) (m : Memory) (a : Accounting) :
    BitsKept d s ⟨m, s.bitmap, a⟩ := bitsKept_of_bitmap rfl

theorem bitsKept_setFree (d : DirectMap) (s : Phys) (p : ℕ) :
    BitsKept d s (buddySetBlockFree d s p) := fun q hq => by
  rw [buddyIsBlockFree_setFree, hq, Bool.or_true]

theorem buddyIsBlockFree_setFree_self (d : DirectMap) (s : Phys) (p : ℕ) :
    buddyIsBlockFree d (buddySetBlockFree d s p) p = true := by
  simp [buddyIsBlockFree_setFree]

theorem bitsKept_setFree_of_bitmap (h : s'.bitmap = s.bitmap) (p : ℕ) :
    BitsKept d s (buddySetBlockFree d s' p) :=
  (bitsKept_of_bitmap h).trans (bitsKept_setFree d s' p)

/-- The split loop clears no bit. -/
theorem bitsKept_splitBlock (level p k : ℕ) (s : Phys) :
    BitsKept d s (splitBlock d level p k s) := by
  induction k generalizing s with
  | zero => exact fun _ h => h
  | succ k ih =>
      rw [splitBlock]
      exact ((bitsKept_with s _ _).trans (bitsKept_setFree _ _ _)).trans (ih _)

/-- The merge loop leaves the bitmap alone. -/
theorem mergeBlock_bitmap (n p level : ℕ) (s : Phys) :
    (mergeBlock d n p level s).2.2.bitmap = s.bitmap := by
  induction n generalizing p level s with
  | zero => rfl
  | succ n ih =>
      simp only [mergeBlock]
      split
      · rfl
      · split
        · rfl
        · rw [ih]

theorem bitsKept_physFreeInternal {b : Bool} {r : ℕ × Phys}
    (e : physFreeInternal d s p level b = some r) : BitsKept d s r.2 := by
  unfold physFreeInternal at e
  split at e
  · simp at e
  · split at e
    · simp at e
    · obtain rfl := Option.some.inj e
      refine BitsKept.trans ?_ (bitsKept_setFree_of_bitmap (mergeBlock_bitmap _ _ _ _) _)
      cases b
      · exact fun _ h => h
      · exact bitsKept_setFree d s p

/-- A free sets the bit of the pointer. -/
theorem physFreeInternal_bit {r : ℕ × Phys} (e : physFreeInternal d s p level true = some r) :
    buddyIsBlockFree d r.2 p = true := by
  unfold physFreeInternal at e
  split at e
  · simp at e
  · split at e
    · simp at e
    · obtain rfl := Option.some.inj e
      exact bitsKept_setFree_of_bitmap (mergeBlock_bitmap _ _ _ _) _ _
        (buddyIsBlockFree_setFree_self d s p)

theorem physFreeBlock_bits {reserved : Bool} (e : physFreeBlock d s p level reserved = some s') :
    BitsKept d s s' ∧ buddyIsBlockFree d s' p = true := by
  simp only [physFreeBlock, Option.bind_eq_bind, Option.bind_eq_some_iff, Option.some.injEq] at e
  obtain ⟨r, e1, a, -, rfl⟩ := e
  exact ⟨((bitsKept_of_bitmap rfl).trans (bitsKept_physFreeInternal e1)).trans
    (bitsKept_of_bitmap rfl), physFreeInternal_bit e1⟩

theorem physFree_bits {size : ℕ} (hp : p ≠ 0) (e : physFree d s p size = some s') :
    BitsKept d s s' ∧ buddyIsBlockFree d s' p = true := by
  rw [physFree, if_neg hp] at e
  obtain ⟨level, -, e⟩ := Option.bind_eq_some_iff.mp e
  exact physFreeBlock_bits e

theorem physFreeReserved_bits {size : ℕ} (hp : p ≠ 0)
    (e : physFreeReserved d s p size = some s') :
    BitsKept d s s' ∧ buddyIsBlockFree d s' p = true := by
  rw [physFreeReserved, if_neg hp] at e
  obtain ⟨level, -, e⟩ := Option.bind_eq_some_iff.mp e
  exact physFreeBlock_bits e

theorem bitsKept_addBlocks {start end_ : ℕ} (e : addBlocks d start end_ s = some s') :
    BitsKept d s s' := by
  fun_induction addBlocks d start end_ s with
  | case1 start s hlt ih =>
      obtain ⟨level, -, e⟩ := Option.bind_eq_some_iff.mp e
      obtain ⟨r, e1, e⟩ := Option.bind_eq_some_iff.mp e
      exact (bitsKept_physFreeInternal e1).trans (ih level r e)
  | case2 start s hlt =>
      obtain rfl := Option.some.inj e
      exact fun _ h => h

theorem bitsKept_physAddMemory {start end_ : ℕ} (e : physAddMemory d s start end_ = some s') :
    BitsKept d s s' := by
  unfold physAddMemory at e
  split at e
  · simp at e
  · obtain ⟨s1, e1, rfl⟩ := Option.map_eq_some_iff.mp e
    exact ((bitsKept_of_bitmap rfl).trans (bitsKept_addBlocks e1)).trans (bitsKept_of_bitmap rfl)

/-- An allocation clears no bit but the one of the pointer that it returns. -/
theorem physAllocInternal_bit {reserved : Bool} {r : Option ℕ × Phys} (hq : d.base ≤ q)
    (hq64 : 64 ∣ q) (hr : ∀ p, r.1 = some p → d.base ≤ p ∧ 64 ∣ p ∧ p ≠ q)
    (e : physAllocInternal d s level reserved = some r) (h : buddyIsBlockFree d s q = true) :
    buddyIsBlockFree d r.2 q = true := by
  simp only [physAllocInternal] at e
  generalize closestLevel d s.mem (PHYS_BUDDY_MAX_LEVEL - level) level = L at e
  split at e
  · split at e
    · simp at e
    · exact Option.some.inj e ▸ h
  · obtain ⟨⟨ok, a⟩, -, e⟩ := Option.bind_eq_some_iff.mp e
    cases ok with
    | false => exact Option.some.inj e ▸ h
    | true =>
      obtain ⟨⟨p, s1⟩, e1, rfl⟩ := Option.map_eq_some_iff.mp e
      obtain ⟨hp, hp64, hne⟩ := hr p rfl
      simp only [takeBlock] at e1
      split at e1
      · simp at e1
      · obtain ⟨rfl, rfl⟩ := Prod.mk.inj (Option.some.inj e1)
        have hunit : ¬ unit d q = unit d (s.mem (d.head L)) := fun hc =>
          hne (unit_inj d hp hq hp64 hq64 hc).symm
        rw [buddyIsBlockFree_setAllocated, decide_eq_false hunit, Bool.not_false, Bool.true_and]
        exact bitsKept_splitBlock _ _ _ _ q (bitsKept_with s _ a q h)

end Phys

/-- The call is an allocation that returns the pointer. -/
def Call.Returns (d : DirectMap) (t : Clients) (ptr : ℕ) : Call → Prop
  | .alloc size => ∃ s, t.phys.physAlloc d size = some (some ptr, s)
  | .allocReserved size => ∃ s, t.phys.physAllocReserved d size = some (some ptr, s)
  | _ => False

namespace Clients

variable {d : DirectMap} {t t' : Clients} {c : Call} {ptr size : ℕ}

/-- A step that is no allocation of the pointer. -/
def StepNot (d : DirectMap) (ptr : ℕ) (t t' : Clients) : Prop :=
  ∃ c, Valid d t c ∧ exec d t c = some t' ∧ ¬ c.Returns d t ptr

theorem handOut_phys (t : Clients) (size : ℕ) (r : Option ℕ × Phys) :
    (t.handOut size r).phys = r.2 := by
  obtain ⟨_ | p, s⟩ := r <;> rfl

/-- The bit of a pointer stays until an allocation returns it. -/
theorem exec_bit (h : Good d t) (hv : Valid d t c) (he : exec d t c = some t')
    (hr : ¬ c.Returns d t ptr) (hbase : d.base ≤ ptr) (h64 : 64 ∣ ptr)
    (hbit : t.phys.buddyIsBlockFree d ptr = true) : t'.phys.buddyIsBlockFree d ptr = true := by
  obtain ⟨hnd, fl, ho⟩ := h
  have hblock : ∀ {s : Phys} {fl' : FreeLists} {p l : ℕ},
      s.Ok d fl' (t.liveSet ∪ {block p l}) t.added t.early → d.base ≤ p ∧ 64 ∣ p := by
    intro s fl' p l ho'
    have hb : block p l ∈ freeBlocks fl' ∪ (t.liveSet ∪ {block p l}) ∪ ∅ :=
      Or.inl (Or.inr (Or.inr rfl))
    exact ⟨ho'.inv.base_le_addr hb, ho'.inv.dvd_addr hb⟩
  cases c with
  | addMemory start end_ =>
      obtain ⟨s, e, rfl⟩ := Option.map_eq_some_iff.mp he
      exact Phys.bitsKept_physAddMemory e ptr hbit
  | addCommitted n | reserve n | write b content =>
      obtain rfl := Option.some.inj he
      exact Phys.bitsKept_of_bitmap (s := t.phys) rfl ptr hbit
  | unreserve n =>
      obtain ⟨a, -, rfl⟩ := Option.map_eq_some_iff.mp he
      exact Phys.bitsKept_of_bitmap (s := t.phys) rfl ptr hbit
  | alloc size =>
      obtain ⟨r, e, rfl⟩ := Option.map_eq_some_iff.mp he
      rw [handOut_phys]
      cases hl : getLevelBySize size with
      | none =>
        rw [Phys.physAlloc, hl] at e
        exact Option.some.inj e ▸ hbit
      | some level =>
        have e' := e
        rw [Phys.physAlloc, hl] at e'
        refine Phys.physAllocInternal_bit hbase h64 (fun p hp => ?_) e' hbit
        rcases ho.physAlloc size with e1 | ⟨l, p1, s1, fl1, pages, -, e1, -, ho1, -, -⟩
        · obtain rfl := Option.some.inj (e.symm.trans e1)
          simp at hp
        · obtain rfl := Option.some.inj (e.symm.trans e1)
          obtain rfl := Option.some.inj hp
          refine ⟨(hblock ho1).1, (hblock ho1).2, ?_⟩
          rintro rfl
          exact hr ⟨s1, e⟩
  | allocReserved size =>
      obtain ⟨r, e, rfl⟩ := Option.map_eq_some_iff.mp he
      rw [handOut_phys]
      rcases Phys.physAllocReserved_cases e with rfl | ⟨level, hl, hres⟩
      · exact hbit
      have e' := e
      rw [Phys.physAllocReserved, hl, Option.bind_some] at e'
      refine Phys.physAllocInternal_bit hbase h64 (fun p hp => ?_) e' hbit
      rcases ho.physAllocReserved hl hres with ⟨-, e1⟩ | ⟨p1, s1, fl1, e1, -, ho1, -⟩
      · obtain rfl := Option.some.inj (e.symm.trans e1)
        simp at hp
      · obtain rfl := Option.some.inj (e.symm.trans e1)
        obtain rfl := Option.some.inj hp
        refine ⟨(hblock ho1).1, (hblock ho1).2, ?_⟩
        rintro rfl
        exact hr ⟨s1, e⟩
  | free p size =>
      obtain ⟨s, e, rfl⟩ := Option.map_eq_some_iff.mp he
      by_cases hp : p = 0
      · rw [Phys.physFree, if_pos hp] at e
        exact Option.some.inj e ▸ hbit
      · exact (Phys.physFree_bits hp e).1 ptr hbit
  | freeReserved p size =>
      obtain ⟨s, e, rfl⟩ := Option.map_eq_some_iff.mp he
      by_cases hp : p = 0
      · rw [Phys.physFreeReserved, if_pos hp] at e
        exact Option.some.inj e ▸ hbit
      · exact (Phys.physFreeReserved_bits hp e).1 ptr hbit

/-- The bit is set, so a free of the pointer stops at the assertion. -/
structure Caught (d : DirectMap) (t : Clients) (ptr : ℕ) : Prop where
  bit : t.phys.buddyIsBlockFree d ptr = true
  physFreeInternal : ∀ s level, s.bitmap = t.phys.bitmap →
    Phys.physFreeInternal d s ptr level true = none
  physFree : ∀ size, t.phys.physFree d ptr size = none
  physFreeReserved : ∀ size, t.phys.physFreeReserved d ptr size = none

theorem Caught.of_bit (hp : ptr ≠ 0) (h : t.phys.buddyIsBlockFree d ptr = true) :
    Caught d t ptr := by
  have hint : ∀ s level, s.bitmap = t.phys.bitmap →
      Phys.physFreeInternal d s ptr level true = none := by
    intro s level hb
    have hbit := Phys.bitsKept_of_bitmap hb ptr h
    simp [Phys.physFreeInternal, hbit]
  have hblock : ∀ level reserved, t.phys.physFreeBlock d ptr level reserved = none := by
    intro level reserved
    simp [Phys.physFreeBlock, hint]
  refine ⟨h, hint, fun size => ?_, fun size => ?_⟩
  · rw [Phys.physFree, if_neg hp]
    exact Option.bind_eq_none_iff.mpr fun level _ => hblock level false
  · rw [Phys.physFreeReserved, if_neg hp]
    exact Option.bind_eq_none_iff.mpr fun level _ => hblock level true

/-- What `phys_free` does about blocks that are free already. -/
structure DoubleFree (d : DirectMap) (t : Clients) : Prop where
  /-- After a free of the pointer, and calls of which none is an allocation that returns it,
  every free of it is caught. -/
  caught : ∀ ptr size c t1 t2, (c = .free ptr size ∨ c = .freeReserved ptr size) → ptr ≠ 0 →
    Valid d t c → exec d t c = some t1 → Reachable (· = t1) (StepNot d ptr) t2 → Caught d t2 ptr
  /-- The assertion does not stop a valid free. -/
  valid : ∀ ptr size, ptr ≠ 0 → Valid d t (.free ptr size) →
    t.phys.buddyIsBlockFree d ptr = false ∧ (t.phys.physFree d ptr size).isSome ∧
      ((getPageLevelBySize size).isSome → (t.phys.physFreeReserved d ptr size).isSome)

theorem doubleFree_of_reachable (h : Reachable (Initial d) (Step d) t) : DoubleFree d t := by
  have hg := good_of_reachable h
  obtain ⟨-, fl, ho⟩ := id hg
  refine ⟨fun ptr size c t1 t2 hc hp hv he hrun => ?_, fun ptr size hp hv => ?_⟩
  · have hlive : ∃ l, getLevelBySize size = some l ∧ block ptr l ∈ t.live := by
      rcases hc with rfl | rfl <;> exact hv.resolve_left hp
    obtain ⟨l, -, hb⟩ := hlive
    have hmem : block ptr l ∈ freeBlocks fl ∪ t.liveSet ∪ ∅ := Or.inl (Or.inr hb)
    have hbase := ho.inv.base_le_addr hmem
    have h64 := ho.inv.dvd_addr hmem
    have hbit : t1.phys.buddyIsBlockFree d ptr = true := by
      rcases hc with rfl | rfl
      · obtain ⟨s, e, rfl⟩ := Option.map_eq_some_iff.mp he
        exact (Phys.physFree_bits hp e).2
      · obtain ⟨s, e, rfl⟩ := Option.map_eq_some_iff.mp he
        exact (Phys.physFreeReserved_bits hp e).2
    have hinv : Good d t2 ∧ t2.phys.buddyIsBlockFree d ptr = true := by
      refine hrun.invariant
        (I := fun t => Good d t ∧ t.phys.buddyIsBlockFree d ptr = true) (fun s hs => ?_) ?_
      · subst hs
        exact ⟨good_step hg ⟨c, hv, he⟩, hbit⟩
      · rintro s s' ⟨hgs, hbs⟩ ⟨c', hv', he', hr'⟩
        exact ⟨good_step hgs ⟨c', hv', he'⟩, exec_bit hgs hv' he' hr' hbase h64 hbs⟩
    exact Caught.of_bit hp hinv.2
  · obtain ⟨l, hl, hb⟩ := hv.resolve_left hp
    refine ⟨ho.inv.bit_live (block ptr l) hb, ?_, fun hpage => ?_⟩
    · obtain ⟨s, fl', pages, e, -⟩ := ho.physFree hl hb
      exact Option.isSome_iff_exists.mpr ⟨s, e⟩
    · obtain ⟨k, hk⟩ := Option.isSome_iff_exists.mp hpage
      obtain rfl : l = k := Option.some.inj (hl.symm.trans (getPageLevelBySize_eq_some hk).1)
      obtain ⟨s, fl', pages, e, -⟩ := ho.physFreeReserved hk hb
      exact Option.isSome_iff_exists.mpr ⟨s, e⟩

theorem doubleFree_onePageMap : ∃ t : Clients, t.ranges = [(2 ^ 21, 2 ^ 21 + 4096)] ∧
    DoubleFree onePageMap t := by
  obtain ⟨t, ht, hr⟩ := exists_reachable_onePageMap
  exact ⟨t, hr, doubleFree_of_reachable ht⟩

end Clients

end Tomato
