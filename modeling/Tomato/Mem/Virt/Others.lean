import Tomato.Boot.EarlyCalls

/-!
# The other clients of the physical allocator

A call of the physical allocator that is not made by the functions of the page table
touches no table, and so no leaf entry.
-/

namespace Tomato

open Blocks Radix

/-- The page table is the same in both memories. -/
def SameTable (d : DirectMap) (root : ℕ) (m m' : Memory) : Prop :=
  ∀ n < 2 ^ 36, slot d m' root n = slot d m root n ∧ leafEntry d m' root n = leafEntry d m root n

namespace Phys.VirtOk

variable {d : DirectMap} {root : ℕ} {s s' : Phys} {fl fl' : FreeLists} {live others : Set Block}
  {M boot : Set ℕ} {early x level pages : ℕ} {reserved : Bool} {t t' : Clients} {c : Call}

theorem sameTable (h : VirtOk d root s fl live M early others boot) {m : Memory}
    (hm : ∀ t, IsTable d s.mem root t → ∀ a ∈ pageCells t, m a = s.mem a) :
    SameTable d root s.mem m := by
  obtain ⟨htab, -, hleaf⟩ := h.tables.frame hm
  exact fun n hn => ⟨TablesOk.slot_eq_of_tableAt_eq htab hn, hleaf n hn⟩

theorem allocOther (h : VirtOk d root s fl live M early others boot)
    (ha : Allocated d s s' fl fl' live M x level pages)
    (ho : s'.Ok d fl' (live ∪ {block x level}) M early) :
    VirtOk d root s' fl' (live ∪ {block x level}) M early (others ∪ {block x level}) boot ∧
      SameTable d root s.mem s'.mem := by
  have hmem : ∀ t, IsTable d s.mem root t → ∀ a ∈ pageCells t, s'.mem a = s.mem a :=
    fun t ht => h.table_frame ht ha.frame (h.table_notMem_free ht)
  have hkeep : ∀ b ∈ live \ others, b ∈ (live ∪ {block x level}) \ (others ∪ {block x level}) := by
    rintro b ⟨hb, hbo⟩
    refine ⟨Or.inl hb, fun hc => hc.elim hbo ?_⟩
    rintro rfl
    exact ha.fresh hb
  exact ⟨h.transport ho hmem (Set.union_subset_union_left _ h.others_live)
    (fun t _ ht => hkeep _ ht) subset_rfl fun n hn hb hne => hkeep _ (h.frame n hn hb hne).1,
    h.sameTable hmem⟩

theorem freeOther (h : VirtOk d root s fl live M early others boot) (hx : block x level ∈ others)
    (hr : Returned d s s' fl fl' live M early x level pages reserved) :
    VirtOk d root s' fl' (live \ {block x level}) M early (others \ {block x level}) boot ∧
      SameTable d root s.mem s'.mem := by
  have hmem : ∀ t, IsTable d s.mem root t → ∀ a ∈ pageCells t, s'.mem a = s.mem a :=
    fun t ht => h.table_frame ht hr.frame
      (Set.disjoint_union_right.mpr ⟨h.table_notMem_free ht, h.table_notMem_other ht hx⟩)
  have hkeep : ∀ b ∈ live \ others, b ∈ (live \ {block x level}) \ (others \ {block x level}) := by
    rintro b ⟨hb, hbo⟩
    refine ⟨⟨hb, ?_⟩, fun hc => hbo hc.1⟩
    rintro rfl
    exact hbo hx
  exact ⟨h.transport hr.ok hmem (Set.sdiff_subset_sdiff_left h.others_live)
    (fun t _ ht => hkeep _ ht) subset_rfl fun n hn hb hne => hkeep _ (h.frame n hn hb hne).1,
    h.sameTable hmem⟩

theorem writeOther {b : Block} {c : ℕ → ℕ} (h : VirtOk d root s fl live M early others boot)
    (hb : b ∈ others) {m : Memory}
    (hm : m = fun a => if b.addr ≤ a ∧ a < b.addr + 2 ^ b.order then c a else s.mem a) :
    VirtOk d root { s with mem := m } fl live M early others boot ∧
      SameTable d root s.mem m := by
  have hmem : ∀ t, IsTable d s.mem root t → ∀ a ∈ pageCells t, m a = s.mem a := by
    intro t ht a ha
    rw [hm]
    exact if_neg fun hc => Set.disjoint_left.mp (h.table_notMem_other ht hb) ha hc
  exact ⟨h.transport (hm ▸ h.ok.write (h.others_live hb)) hmem h.others_live (fun _ _ ht => ht)
    subset_rfl fun n hn hb hne => (h.frame n hn hb hne).1, h.sameTable hmem⟩

end Phys.VirtOk

/-- A call that adds no memory. -/
def Call.Later : Call → Prop
  | .addMemory _ _ | .addCommitted _ => False
  | _ => True

/-- A page table beside the clients of the allocator. -/
def Clients.VirtOk (d : DirectMap) (root : ℕ) (t : Clients) (boot : Set ℕ) : Prop :=
  t.live.Nodup ∧ ∃ fl live, t.phys.VirtOk d root fl live t.added t.early t.liveSet boot

namespace Clients.VirtOk

variable {d : DirectMap} {root size p level pages : ℕ} {t t' : Clients} {boot : Set ℕ} {c : Call}
  {s : Phys} {fl fl' : FreeLists} {live : Set Block} {reserved : Bool}

/-- What a call of another client keeps. -/
def Kept (d : DirectMap) (root : ℕ) (t t' : Clients) (boot : Set ℕ) : Prop :=
  t'.VirtOk d root boot ∧ SameTable d root t.phys.mem t'.phys.mem

theorem handOut (hnd : t.live.Nodup)
    (h : t.phys.VirtOk d root fl live t.added t.early t.liveSet boot)
    (hl : getLevelBySize size = some level)
    (ha : Phys.Allocated d t.phys s fl fl' live t.added p level pages)
    (ho : s.Ok d fl' (live ∪ {block p level}) t.added t.early) :
    Kept d root t (t.handOut size (some p, s)) boot := by
  obtain ⟨h1, h2⟩ := h.allocOther ha ho
  refine ⟨⟨?_, fl', live ∪ {block p level}, ?_⟩, h2⟩
  · simp only [Clients.handOut, hl, Option.getD_some, List.nodup_cons]
    exact ⟨fun hb => ha.fresh (h.others_live hb), hnd⟩
  · rw [liveSet_handOut p size s hl]
    exact h1

theorem takeBack (hnd : t.live.Nodup)
    (h : t.phys.VirtOk d root fl live t.added t.early t.liveSet boot)
    (hl : getLevelBySize size = some level) (hb : block p level ∈ t.live)
    (hr : Phys.Returned d t.phys s fl fl' live t.added t.early p level pages reserved) :
    Kept d root t (t.takeBack p size s) boot := by
  obtain ⟨h1, h2⟩ := h.freeOther (show block p level ∈ t.liveSet from hb) hr
  refine ⟨⟨hnd.erase _, fl', live \ {block p level}, ?_⟩, h2⟩
  rw [liveSet_takeBack hnd p size s hl]
  exact h1

theorem takeBack_null (h : t.phys.VirtOk d root fl live t.added t.early t.liveSet boot) (size : ℕ) :
    t.takeBack 0 size t.phys = t := by
  have hnot : block 0 ((getLevelBySize size).getD 0) ∉ t.live := fun hb =>
    h.ok.live_ne_zero (p := 0) (h.others_live hb) rfl
  simp [Clients.takeBack, List.erase_of_not_mem hnot]

/-- A call of another client that returns. -/
theorem exec (h : t.VirtOk d root boot) (hv : Valid d t c) (hc : c.Later)
    (he : Clients.exec d t c = some t') : Kept d root t t' boot := by
  have hrefl : Kept d root t t boot := ⟨h, fun _ _ => ⟨rfl, rfl⟩⟩
  obtain ⟨hnd, fl, live, h⟩ := h
  cases c with
  | addMemory start end_ | addCommitted n => exact hc.elim
  | alloc size =>
      rcases h.ok.physAlloc size with e | ⟨l, p, s, fl', pages, hl, e, ha, ho', -, -⟩
      · simp only [Clients.exec, e, Option.map_some, Option.some.injEq, Clients.handOut] at he
        exact he ▸ hrefl
      · simp only [Clients.exec, e, Option.map_some, Option.some.injEq] at he
        exact he ▸ handOut hnd h hl ha ho'
  | allocReserved size =>
      simp only [Clients.exec, Option.map_eq_some_iff] at he
      obtain ⟨r, e, rfl⟩ := he
      rcases Phys.physAllocReserved_cases e with rfl | ⟨l, hl, hres⟩
      · exact hrefl
      rcases h.ok.physAllocReserved hl hres with ⟨-, e'⟩ | ⟨p, s, fl', e', ha, ho', -⟩
      · obtain rfl := Option.some.inj (e.symm.trans e')
        exact hrefl
      · obtain rfl := Option.some.inj (e.symm.trans e')
        exact handOut hnd h (getPageLevelBySize_eq_some hl).1 ha ho'
  | free ptr size =>
      rcases hv with rfl | ⟨l, hl, hb⟩
      · simp only [Clients.exec, Phys.physFree, if_true, Option.map_some, Option.some.injEq] at he
        rw [← he, takeBack_null h]
        exact hrefl
      · obtain ⟨s, fl', pages, e, hr⟩ := h.ok.physFree hl (h.others_live hb)
        simp only [Clients.exec, e, Option.map_some, Option.some.injEq] at he
        exact he ▸ takeBack hnd h hl hb hr
  | freeReserved ptr size =>
      rcases hv with rfl | ⟨l, hl, hb⟩
      · simp only [Clients.exec, Phys.physFreeReserved, if_true, Option.map_some,
          Option.some.injEq] at he
        rw [← he, takeBack_null h]
        exact hrefl
      · cases hpl : getPageLevelBySize size with
        | none =>
          have : ptr ≠ 0 := h.ok.live_ne_zero (h.others_live hb)
          simp [Clients.exec, Phys.physFreeReserved, this, hpl] at he
        | some k =>
          obtain rfl : l = k := Option.some.inj (hl.symm.trans (getPageLevelBySize_eq_some hpl).1)
          obtain ⟨s, fl', pages, e, hr⟩ := h.ok.physFreeReserved hpl (h.others_live hb)
          simp only [Clients.exec, e, Option.map_some, Option.some.injEq] at he
          exact he ▸ takeBack hnd h hl hb hr
  | reserve n =>
      simp only [Clients.exec, Option.some.injEq] at he
      exact he ▸ ⟨⟨hnd, fl, live, h.congr_acct (h.ok.memAcctReserve n)⟩, fun _ _ => ⟨rfl, rfl⟩⟩
  | unreserve n =>
      simp only [Clients.exec, Option.map_eq_some_iff] at he
      obtain ⟨a, ha, rfl⟩ := he
      exact ⟨⟨hnd, fl, live, h.congr_acct (h.ok.memAcctUnreserve ha)⟩, fun _ _ => ⟨rfl, rfl⟩⟩
  | write b content =>
      simp only [Clients.exec, Option.some.injEq] at he
      obtain ⟨h1, h2⟩ := h.writeOther (show b ∈ t.liveSet from hv) (c := content) rfl
      exact he ▸ ⟨⟨hnd, fl, live, h1⟩, h2⟩

end Clients.VirtOk

end Tomato
