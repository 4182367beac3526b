import Tomato.Boot.HandOver
import Tomato.Mem.Phys.RangeChecks

/-!
# The bounds of the direct map

The range assertions of a debug build, from `early_phys_add_memory` on. The direct map
ends with the topmost entry that it covers, and `early_phys_add_memory` hands the end
of every usable entry to `phys_to_direct`, which wants an address below the end of the
direct map. So the assertions hold if and only if that topmost entry is not usable, and
then no buddy is out of range either.
-/

namespace Tomato

open Memmap Transition Phys

variable {entries : Memmap} {n top : ℕ} {d : DirectMap} {t : Clients} {b : Boot}

namespace Boot

/-- The addresses that `early_phys_add_memory` hands to `phys_to_direct`. -/
def earlyAddPhys (top : ℕ) : Memmap → List ℕ
  | [] => []
  | entry :: entries =>
    if entry.type ≠ .usable then earlyAddPhys top entries
    else
      let base := entry.base
      let end_ := base + entry.length
      if end_ < top then earlyAddPhys top entries
      else
        let base := if base < top then top else base
        base :: end_ :: earlyAddPhys top entries

/-- The pointers that its calls of `phys_add_memory` hand to `direct_to_phys`. -/
def earlyAddProbes (d : DirectMap) (top : ℕ) : Memmap → Clients → List ℕ
  | [], _ => []
  | entry :: entries, t =>
    if entry.type ≠ .usable then earlyAddProbes d top entries t
    else
      let base := entry.base
      let end_ := base + entry.length
      if end_ < top then earlyAddProbes d top entries t
      else
        let base := if base < top then top else base
        let c := .addMemory (d.physToDirect base) (d.physToDirect end_)
        t.callProbes d c ++ (t.exec d c).elim [] (earlyAddProbes d top entries)

/-- A later call of the allocator, about the memory that is already in it. -/
def LaterStep (d : DirectMap) (t t' : Clients) : Prop :=
  ∃ c, (∀ start end_, c ≠ .addMemory start end_) ∧ t.Valid d c ∧ t.exec d c = some t'

/-- No range assertion fails in `early_phys_add_memory`, nor in any later run. -/
structure NoRangeFailure (d : DirectMap) (entries : Memmap) (b : Boot) : Prop where
  phys : ∀ phys ∈ earlyAddPhys b.early.top entries, phys < d.pageCount * PAGE_SIZE
  probes : ∀ ptr ∈ earlyAddProbes d b.early.top entries b.clients, d.InRange ptr
  later : ∀ b', b.earlyPhysAddMemory d entries = some b' →
    ∀ t, Reachable (· = b'.clients) (LaterStep d) t →
      ∀ c, (∀ start end_, c ≠ .addMemory start end_) → t.Valid d c →
        ∀ ptr ∈ t.callProbes d c, d.InRange ptr

/-- Every usable entry ends before the direct map does. -/
def UsableBelow (d : DirectMap) (entries : Memmap) : Prop :=
  ∀ u ∈ entries, u.type = .usable → u.base + u.length < d.pageCount * 4096

theorem UsableBelow.earlyAddPhys (h : UsableBelow d entries) :
    ∀ phys ∈ earlyAddPhys top entries, phys < d.pageCount * PAGE_SIZE := by
  have hps : PAGE_SIZE = 4096 := rfl
  induction entries with
  | nil => simp [Boot.earlyAddPhys]
  | cons u entries ih =>
      have ih := ih fun v hv => h v (List.mem_cons_of_mem _ hv)
      intro x hx
      simp only [Boot.earlyAddPhys] at hx
      split at hx
      · exact ih x hx
      rename_i hu
      have hlt := h u List.mem_cons_self (by simpa using hu)
      split at hx
      · exact ih x hx
      rename_i hge
      simp only [List.mem_cons] at hx
      rcases hx with rfl | rfl | hx
      · rw [hps]
        split <;> omega
      · exact hps ▸ hlt
      · exact ih x hx

/-- The loop of `early_phys_add_memory`. -/
theorem UsableBelow.earlyAddProbes (h : UsableBelow d entries) (hv : entries.Valid)
    (htop : PAGE_SIZE ∣ top) (ht : Reachable (Clients.Initial d) (Clients.Step d) t)
    (hbelow : ∀ u ∈ entries, ∀ a ∈ t.added, a < d.base + u.base) (hend : EndsBelow d t.added) :
    (∀ ptr ∈ Boot.earlyAddProbes d top entries t, d.InRange ptr) ∧
      ∀ t', earlyAddEntries d top entries t = some t' →
        Reachable (Clients.Initial d) (Clients.Step d) t' ∧ EndsBelow d t'.added := by
  induction entries generalizing t with
  | nil =>
      refine ⟨by simp [Boot.earlyAddProbes], fun t' e => ?_⟩
      obtain rfl := Option.some.inj e
      exact ⟨ht, hend⟩
  | cons u entries ih =>
      have h' : UsableBelow d entries := fun v hv => h v (List.mem_cons_of_mem _ hv)
      have hbelow' := fun v hv => hbelow v (List.mem_cons_of_mem _ hv)
      by_cases hu : u.type = .usable
      swap
      · simp only [Boot.earlyAddProbes, earlyAddEntries, hu, ne_eq, not_false_eq_true, if_true]
        exact ih h' hv.tail ht hbelow' hend
      by_cases hlt : u.base + u.length < top
      · simp only [Boot.earlyAddProbes, earlyAddEntries, hu, ne_eq, not_true_eq_false, if_false,
          hlt, if_true]
        exact ih h' hv.tail ht hbelow' hend
      · have hlast := h u List.mem_cons_self hu
        obtain ⟨hvalid, t1, e1, ht1, hr1, -, -, -, hbelow1⟩ :=
          earlyAddEntry_spec hv hlast.le htop hlt ht hbelow rfl
        have hadd : t1.added = t.added ∪ Set.Ico (d.physToDirect (max top u.base))
            (d.physToDirect (u.base + u.length)) := by
          ext a
          simp [Clients.added, hr1, DirectMap.directRange, or_comm]
        have hend1 : EndsBelow d t1.added := by
          rw [hadd]
          rintro a (ha | ha)
          · exact hend a ha
          · have := ha.2
            simp only [DirectMap.physToDirect] at this
            omega
        obtain ⟨ih1, ih2⟩ := ih h' hv.tail ht1 hbelow1 hend1
        simp only [Boot.earlyAddProbes, earlyAddEntries, hu, ne_eq, not_true_eq_false, if_false,
          hlt, e1, Option.elim_some, Option.bind_some]
        refine ⟨fun ptr hp => ?_, ih2⟩
        rcases List.mem_append.mp hp with hp | hp
        · refine Clients.callProbes_inRange (Clients.good_of_reachable ht) hvalid ?_ ptr hp
          have hmax : (if u.base < top then top else u.base) = max top u.base := by
            split <;> omega
          rw [Clients.addedBy, hmax, ← hadd]
          exact hend1
        · exact ih1 ptr hp

/-- A later call leaves the memory of the allocator as it is. -/
theorem LaterStep.added {t' : Clients} (h : LaterStep d t t') :
    Clients.Step d t t' ∧ t'.added = t.added := by
  obtain ⟨c, hc, hv, he⟩ := h
  refine ⟨⟨c, hv, he⟩, ?_⟩
  have hout : ∀ (size : ℕ) (r : Option ℕ × Phys), (t.handOut size r).added = t.added := by
    rintro size ⟨_ | p, s⟩ <;> rfl
  cases c with
  | addMemory start end_ => exact absurd rfl (hc start end_)
  | addCommitted n | reserve n | write b content =>
      obtain rfl := Option.some.inj he
      rfl
  | alloc size | allocReserved size =>
      simp only [Clients.exec, Option.map_eq_some_iff] at he
      obtain ⟨r, -, rfl⟩ := he
      exact hout size r
  | free ptr size | freeReserved ptr size =>
      simp only [Clients.exec, Option.map_eq_some_iff] at he
      obtain ⟨s, -, rfl⟩ := he
      rfl
  | unreserve n =>
      simp only [Clients.exec, Option.map_eq_some_iff] at he
      obtain ⟨a, -, rfl⟩ := he
      rfl

theorem later_inRange {t0 : Clients} (h0 : Reachable (Clients.Initial d) (Clients.Step d) t0)
    (hend : EndsBelow d t0.added) (h : Reachable (· = t0) (LaterStep d) t) {c : Call}
    (hc : ∀ start end_, c ≠ .addMemory start end_) (hv : t.Valid d c) :
    ∀ ptr ∈ t.callProbes d c, d.InRange ptr := by
  have hinv : Reachable (Clients.Initial d) (Clients.Step d) t ∧ EndsBelow d t.added := by
    refine h.invariant (I := fun u => Reachable (Clients.Initial d) (Clients.Step d) u ∧
      EndsBelow d u.added) (fun u hu => hu ▸ ⟨h0, hend⟩) ?_
    rintro u u' ⟨hr, he⟩ hs
    obtain ⟨hstep, hadd⟩ := LaterStep.added hs
    exact ⟨hr.next hstep, hadd ▸ he⟩
  refine Clients.callProbes_inRange (Clients.good_of_reachable hinv.1) hv ?_
  cases c with
  | addMemory start end_ => exact absurd rfl (hc start end_)
  | _ => exact hinv.2

/-- The topmost entry that the direct map covers decides whether the usable entries
end before the direct map does. -/
theorem usableBelow_of_top (hv : entries.Valid) (hd : entries.HasDirectMap d)
    (h : ∀ e, entries.reverse.find? mapped = some e → e.type ≠ .usable) :
    UsableBelow d entries := by
  intro u hu hus
  rw [hd.pageCount_mul hv]
  have hm : mapped u := by simp [mapped, hus]
  obtain ⟨pre, post, rfl⟩ := List.append_of_mem hu
  rw [List.reverse_append, List.reverse_cons, List.append_assoc, List.find?_append] at h
  rw [topAddress, List.reverse_append, List.reverse_cons, List.append_assoc, List.find?_append]
  cases hf : post.reverse.find? mapped with
  | none =>
    simp only [hf, Option.none_or, List.singleton_append, List.find?_cons, hm] at h
    exact absurd hus (h u rfl)
  | some e =>
    have he : e ∈ post := List.mem_reverse.mp (List.mem_of_find?_eq_some hf)
    have h1 : u.base + u.length ≤ e.base :=
      (List.pairwise_cons.mp (List.pairwise_append.mp hv.sorted).2.1).1 e he
    have h2 := hv.pos e (by simp [he])
    simp only [Option.some_or]
    omega

theorem end_mem_earlyAddPhys {u : MemmapEntry} (hu : u ∈ entries) (hus : u.type = .usable)
    (hge : top ≤ u.base + u.length) : u.base + u.length ∈ earlyAddPhys top entries := by
  induction entries with
  | nil => simp at hu
  | cons v entries ih =>
      rw [earlyAddPhys]
      rcases List.mem_cons.mp hu with rfl | hu
      · simp [hus, not_lt.mpr hge]
      · have ih := ih hu
        split
        · exact ih
        · simp only
          split
          · exact ih
          · exact List.mem_cons_of_mem _ (List.mem_cons_of_mem _ ih)

theorem Watermark.top_le {e : EarlyAlloc} {xs : List ℕ} (hv : entries.Valid)
    (hw : Watermark entries e xs) : e.top ≤ entries.topAddress := by
  cases hw with
  | start => exact Nat.zero_le _
  | inside pre post u top size pageCount he hu hlt hend htop =>
      have h1 := hv.le_topAddress (e := u) (by simp [he]) (by simp [mapped, hu])
      simp only
      omega

/-- The range assertions hold exactly when the topmost entry that the direct map covers
is not a usable one. -/
theorem noRangeFailure_iff {b : Boot} (hv : entries.Valid) (hd : entries.HasDirectMap d)
    (h0 : b.Initial d) (hn : n ≤ usablePageCount entries) :
    ∃ ptrs b1, b.earlyPhysAllocPages d entries n = some (ptrs, b1) ∧
      ∀ m : Memory, (∀ l < PHYS_BUDDY_MAX_LEVEL, m (d.head l) = 0) →
        (NoRangeFailure d entries (b1.setMem m) ↔
          ∀ e, entries.reverse.find? mapped = some e → e.type ≠ .usable) := by
  obtain ⟨b1, e1, hw, -, hinit⟩ := earlyPhysAllocPages_initial hv h0 hn
  refine ⟨_, b1, e1, fun m hheads => ⟨fun h e he hus => ?_, fun h => ?_⟩⟩
  · -- the end of the entry is the end of the direct map
    have hmem : e ∈ entries := List.mem_reverse.mp (List.mem_of_find?_eq_some he)
    have htop : entries.topAddress = e.base + e.length := by simp [topAddress, he]
    have hge : b1.early.top ≤ e.base + e.length := htop ▸ Watermark.top_le hv hw
    have := h.phys _ (end_mem_earlyAddPhys hmem hus hge)
    rw [PAGE_SIZE_eq, hd.pageCount_mul hv, htop] at this
    exact absurd this (lt_irrefl _)
  · have hbelow := usableBelow_of_top hv hd h
    have hinit := hinit m hheads
    have hnone : (b1.setMem m).clients.added = ∅ := by
      simp [Clients.added, hinit.2.2.2.2.1]
    obtain ⟨hp, hl⟩ := hbelow.earlyAddProbes hv (hw.handOver hv).1 (.start hinit)
      (by simp [hnone]) (by simp [EndsBelow, hnone])
    refine ⟨hbelow.earlyAddPhys, hp, ?_⟩
    intro b' hb' t ht c hc hv
    simp only [earlyPhysAddMemory, Option.map_eq_some_iff, Option.bind_eq_some_iff] at hb'
    obtain ⟨t2, ⟨t1, e1, e2⟩, rfl⟩ := hb'
    obtain ⟨hr1, hend1⟩ := hl t1 e1
    obtain rfl := Option.some.inj e2
    exact later_inRange (hr1.next ⟨.addCommitted _, trivial, rfl⟩) hend1 ht hc hv

/-- One usable page and nothing else. -/
def usablePage : Memmap := [⟨0, 4096, .usable⟩]

theorem usablePage_valid : usablePage.Valid where
  sorted := by simp [usablePage]
  base_dvd := by decide
  length_dvd := by decide
  pos := by decide

/-- The end of the only page of `onePageMap` is out of range. -/
theorem not_noRangeFailure_usablePage :
    usablePage.Valid ∧ usablePage.HasDirectMap Clients.onePageMap ∧
      emptyBoot.Initial Clients.onePageMap ∧
      ¬ NoRangeFailure Clients.onePageMap usablePage emptyBoot := by
  refine ⟨usablePage_valid, show 1 = 4096 / PAGE_SIZE by decide, emptyBoot_initial _, ?_⟩
  intro h
  exact absurd (h.phys 4096 (by decide)) (by decide)

theorem noRangeFailure_threePages : ∃ ptrs b1,
    emptyBoot.earlyPhysAllocPages threePagesMap threePages 1 = some (ptrs, b1) ∧
      NoRangeFailure threePagesMap threePages (b1.setMem fun _ => 0) := by
  obtain ⟨ptrs, b1, e, h⟩ := noRangeFailure_iff (d := threePagesMap) (n := 1) threePages_valid
    (show 3 = 12288 / PAGE_SIZE by decide) (emptyBoot_initial _) (by decide)
  exact ⟨ptrs, b1, e, (h (fun _ => 0) fun _ _ => rfl).mpr (by decide)⟩

end Boot

end Tomato
