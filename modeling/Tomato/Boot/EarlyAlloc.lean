import Tomato.Boot.Memmap

/-!
# The early allocator

The early allocator is a cursor in the list of the usable pages: `usablePages` are
these pages in order, `Watermark` says that the pages of a suffix of the list are
what is left, and an allocation takes the first of them. The hand-over gives the
rest of the list to `phys_add_memory`.
-/

namespace Tomato

namespace Memmap

/-- The pages of an interval of whole pages. -/
def pagesFrom (base length : ℕ) : List ℕ :=
  (List.range (length / PAGE_SIZE)).map fun i => base + i * PAGE_SIZE

def entryPages (e : MemmapEntry) : List ℕ :=
  if e.type = .usable then pagesFrom e.base e.length else []

def usablePages (entries : Memmap) : List ℕ := entries.flatMap entryPages

variable {entries pre post : Memmap} {e : MemmapEntry} {x base length top : ℕ}

theorem PAGE_SIZE_eq : PAGE_SIZE = 4096 := rfl

theorem pagesFrom_zero (base : ℕ) : pagesFrom base 0 = [] := rfl

theorem pagesFrom_page (h : PAGE_SIZE ∣ length) (h0 : 0 < length) :
    pagesFrom base length = base :: pagesFrom (base + PAGE_SIZE) (length - PAGE_SIZE) := by
  obtain ⟨n, rfl⟩ := h
  simp only [PAGE_SIZE_eq] at h0 ⊢
  obtain ⟨k, rfl⟩ : ∃ k, n = k + 1 := ⟨n - 1, by omega⟩
  have hk : (4096 * (k + 1) - 4096) / 4096 = k := by omega
  simp only [pagesFrom, PAGE_SIZE_eq, Nat.mul_div_cancel_left _ (by decide : 0 < 4096), hk,
    List.range_succ_eq_map, List.map_cons, List.map_map, zero_mul, add_zero, List.cons.injEq,
    true_and]
  refine List.map_congr_left fun i _ => ?_
  simp only [Function.comp_apply]
  omega

theorem mem_pagesFrom (hb : PAGE_SIZE ∣ base) (hl : PAGE_SIZE ∣ length) :
    x ∈ pagesFrom base length ↔
      PAGE_SIZE ∣ x ∧ base ≤ x ∧ x + PAGE_SIZE ≤ base + length := by
  obtain ⟨b, rfl⟩ := hb
  obtain ⟨n, rfl⟩ := hl
  simp only [pagesFrom, PAGE_SIZE_eq, List.mem_map, List.mem_range,
    Nat.mul_div_cancel_left _ (by decide : 0 < 4096)]
  constructor
  · rintro ⟨i, hi, rfl⟩
    exact ⟨⟨b + i, by omega⟩, by omega, by omega⟩
  · rintro ⟨⟨y, rfl⟩, h1, h2⟩
    exact ⟨y - b, by omega, by omega⟩

theorem pagesFrom_nodup (base length : ℕ) : (pagesFrom base length).Nodup := by
  refine List.Nodup.map_on ?_ List.nodup_range
  intro i _ j _ h
  rw [PAGE_SIZE_eq] at h
  omega

theorem length_pagesFrom (base length : ℕ) : (pagesFrom base length).length = length / PAGE_SIZE := by
  simp [pagesFrom]

theorem Valid.tail (h : Valid (e :: entries)) : Valid entries where
  sorted := (List.pairwise_cons.mp h.sorted).2
  base_dvd := fun a ha => h.base_dvd a (List.mem_cons_of_mem _ ha)
  length_dvd := fun a ha => h.length_dvd a (List.mem_cons_of_mem _ ha)
  pos := fun a ha => h.pos a (List.mem_cons_of_mem _ ha)

theorem Valid.mem_entryPages (h : Valid entries) (he : e ∈ entries) :
    x ∈ entryPages e ↔ e.type = .usable ∧ PAGE_SIZE ∣ x ∧ e.base ≤ x ∧
      x + PAGE_SIZE ≤ e.base + e.length := by
  unfold entryPages
  split
  · rw [mem_pagesFrom (h.base_dvd e he) (h.length_dvd e he)]
    tauto
  · simp_all

theorem Valid.mem_usablePages (h : Valid entries) :
    x ∈ usablePages entries ↔ UsablePage entries x := by
  simp only [usablePages, List.mem_flatMap, UsablePage]
  constructor
  · rintro ⟨e, he, hx⟩
    obtain ⟨h1, h2, h3⟩ := (h.mem_entryPages he).mp hx
    exact ⟨h2, e, he, h1, h3⟩
  · rintro ⟨h2, e, he, h1, h3⟩
    exact ⟨e, he, (h.mem_entryPages he).mpr ⟨h1, h2, h3⟩⟩

theorem Valid.usablePages_nodup (h : Valid entries) : (usablePages entries).Nodup := by
  refine List.nodup_flatMap.mpr ⟨fun e _ => ?_, ?_⟩
  · unfold entryPages
    split
    · exact pagesFrom_nodup _ _
    · exact List.nodup_nil
  · refine h.sorted.imp_of_mem ?_
    intro a b ha hb hab x hxa hxb
    have h1 := (h.mem_entryPages ha).mp hxa
    have h2 := (h.mem_entryPages hb).mp hxb
    rw [PAGE_SIZE_eq] at h1
    omega

theorem length_usablePages (entries : Memmap) :
    (usablePages entries).length = usablePageCount entries := by
  induction entries with
  | nil => rfl
  | cons e entries ih =>
      simp only [usablePages, usablePageCount, List.flatMap_cons, List.length_append] at ih ⊢
      rw [ih]
      by_cases h : e.type = .usable <;> simp [entryPages, h, length_pagesFrom]

/-- Every usable entry ends inside the direct map. -/
theorem Valid.le_topAddress (h : Valid entries) (he : e ∈ entries) (hm : mapped e) :
    e.base + e.length ≤ entries.topAddress := by
  unfold topAddress
  obtain ⟨pre, post, rfl⟩ := List.append_of_mem he
  rw [List.reverse_append, List.reverse_cons, List.append_assoc, List.find?_append]
  cases hf : post.reverse.find? mapped with
  | none => simp [hm]
  | some u =>
    have hu : u ∈ post := List.mem_reverse.mp (List.mem_of_find?_eq_some hf)
    have h1 : e.base + e.length ≤ u.base :=
      (List.pairwise_cons.mp (List.pairwise_append.mp h.sorted).2.1).1 u hu
    simp only [Option.some_or]
    omega

theorem Valid.topAddress_dvd (h : Valid entries) : PAGE_SIZE ∣ entries.topAddress := by
  unfold topAddress
  split
  · rename_i e he
    have hm : e ∈ entries := List.mem_reverse.mp (List.mem_of_find?_eq_some he)
    exact Nat.dvd_add (h.base_dvd e hm) (h.length_dvd e hm)
  · exact dvd_zero _

theorem HasDirectMap.pageCount_mul {d : DirectMap} (h : Valid entries) (hd : HasDirectMap entries d) :
    d.pageCount * 4096 = entries.topAddress := by
  rw [show d.pageCount = _ from hd, ← PAGE_SIZE_eq, Nat.div_mul_cancel h.topAddress_dvd]

end Memmap

open Memmap

variable {entries pre post : Memmap} {xs ys : List ℕ} {x n : ℕ} {e e' : EarlyAlloc}
  {d : DirectMap}

/-- What the early allocator still has are the pages `xs`: all of them at first, and
later the rest of the entry it is in and all the entries after it. -/
inductive Watermark (entries : Memmap) : EarlyAlloc → List ℕ → Prop
  | start : Watermark entries ⟨0, 0, 0⟩ (usablePages entries)
  | inside (pre post : Memmap) (u : MemmapEntry) (top size pageCount : ℕ) :
      entries = pre ++ u :: post → u.type = .usable → u.base < top →
      top + size = u.base + u.length → PAGE_SIZE ∣ top →
      Watermark entries ⟨top, size, pageCount⟩ (pagesFrom top size ++ usablePages post)

namespace EarlyAlloc

theorem findNextEntry_skip (h : ∀ u ∈ pre, u.type = .usable → u.base < e.top) :
    e.earlyAllocFindNextEntry (pre ++ post) = e.earlyAllocFindNextEntry post := by
  induction pre with
  | nil => rfl
  | cons u pre ih =>
      have ih := ih fun v hv => h v (List.mem_cons_of_mem _ hv)
      by_cases hu : u.type = .usable
      · have hlt := h u List.mem_cons_self hu
        simp [earlyAllocFindNextEntry, hu, hlt, ih]
      · simp [earlyAllocFindNextEntry, hu, ih]

/-- The entry that is found holds the first of the pages that are left. -/
theorem findNextEntry_spec (hv : Valid post) (h : ∀ u ∈ post, e.top ≤ u.base)
    (hx : usablePages post = x :: xs) :
    ∃ pre u rest, post = pre ++ u :: rest ∧ u.type = .usable ∧ u.base = x ∧
      e.earlyAllocFindNextEntry post = some { e with top := u.base, size := u.length } ∧
      usablePages post = pagesFrom u.base u.length ++ usablePages rest := by
  induction post with
  | nil => simp [usablePages] at hx
  | cons u post ih =>
      by_cases hu : u.type = .usable
      · have hpages : usablePages (u :: post) =
            pagesFrom u.base u.length ++ usablePages post := by
          simp [usablePages, entryPages, hu]
        have hb := hv.base_dvd u List.mem_cons_self
        have hl := hv.length_dvd u List.mem_cons_self
        refine ⟨[], u, post, rfl, hu, ?_, ?_, hpages⟩
        · rw [hpages, pagesFrom_page hl (hv.pos u List.mem_cons_self), List.cons_append] at hx
          exact (List.cons.inj hx).1
        · have hlt : ¬ u.base < e.top := not_lt.mpr (h u List.mem_cons_self)
          simp [earlyAllocFindNextEntry, hu, hlt, Nat.mod_eq_zero_of_dvd hb,
            Nat.mod_eq_zero_of_dvd hl]
      · have hpages : usablePages (u :: post) = usablePages post := by
          simp [usablePages, entryPages, hu]
        obtain ⟨pre, v, rest, h1, h2, h3, h4, h5⟩ := ih hv.tail
          (fun w hw => h w (List.mem_cons_of_mem _ hw)) (hpages ▸ hx)
        refine ⟨u :: pre, v, rest, by rw [h1]; rfl, h2, h3, ?_, by rw [hpages, h5]⟩
        simp [earlyAllocFindNextEntry, hu, h4]

end EarlyAlloc

theorem Watermark.suffix_valid {u : MemmapEntry} (hv : Valid (pre ++ u :: post)) :
    Valid post ∧ (∀ v ∈ pre, v.base + v.length ≤ u.base) ∧
      ∀ v ∈ post, u.base + u.length ≤ v.base := by
  obtain ⟨-, h2, h3⟩ := List.pairwise_append.mp hv.sorted
  obtain ⟨h4, h5⟩ := List.pairwise_cons.mp h2
  exact ⟨⟨h5, fun w hw => hv.base_dvd w (by simp [hw]), fun w hw => hv.length_dvd w (by simp [hw]),
    fun w hw => hv.pos w (by simp [hw])⟩, fun v hv => h3 v hv u List.mem_cons_self, h4⟩

/-- The entry in which the next page is, after the search if the current one is used up. -/
theorem Watermark.entry (hv : Valid entries) (hw : Watermark entries e (x :: xs)) :
    ∃ pre post u size, entries = pre ++ u :: post ∧ u.type = .usable ∧ u.base ≤ x ∧
      x + size = u.base + u.length ∧ PAGE_SIZE ∣ x ∧ 0 < size ∧
      x :: xs = pagesFrom x size ++ usablePages post ∧
      (if e.size = 0 then e.earlyAllocFindNextEntry entries else some e) =
        some { e with top := x, size := size } := by
  generalize hys : x :: xs = ys at hw
  cases hw with
  | start =>
      obtain ⟨pre, u, rest, h1, h2, rfl, h4, h5⟩ :=
        EarlyAlloc.findNextEntry_spec (e := ⟨0, 0, 0⟩) hv (by simp) hys.symm
      have hu : u ∈ entries := by simp [h1]
      exact ⟨pre, rest, u, u.length, h1, h2, le_rfl, rfl, hv.base_dvd u hu, hv.pos u hu, h5,
        by rw [if_pos rfl, h4]⟩
  | inside pre post u top size pageCount he hu hlt hend htop =>
      have hmem : u ∈ entries := by simp [he]
      have hsize : PAGE_SIZE ∣ size := by
        rw [Nat.dvd_add_iff_right htop, hend]
        exact Nat.dvd_add (hv.base_dvd u hmem) (hv.length_dvd u hmem)
      by_cases h0 : size = 0
      · subst h0
        obtain ⟨hpost, hpre, hnext⟩ := suffix_valid (he ▸ hv)
        rw [pagesFrom_zero, List.nil_append] at hys
        obtain ⟨pre', v, rest, h1, h2, rfl, h4, h5⟩ :=
          EarlyAlloc.findNextEntry_spec (e := ⟨top, 0, pageCount⟩) hpost
            (fun w hw => by have := hnext w hw; simp only; omega) hys.symm
        have hvm : v ∈ entries := by simp [he, h1]
        refine ⟨pre ++ u :: pre', rest, v, v.length, by simp [he, h1], h2, le_rfl, rfl,
          hv.base_dvd v hvm, hv.pos v hvm, ?_, ?_⟩
        · rw [pagesFrom_zero, List.nil_append, h5]
        · rw [if_pos rfl, he, ← List.singleton_append, ← List.append_assoc,
            EarlyAlloc.findNextEntry_skip, h4]
          intro w hw _
          rcases List.mem_append.mp hw with hw | hw
          · have := hpre w hw
            simp only
            omega
          · obtain rfl := List.mem_singleton.mp hw
            exact hlt
      · rw [pagesFrom_page hsize (by omega), List.cons_append] at hys
        obtain ⟨rfl, -⟩ := List.cons.inj hys
        refine ⟨pre, post, u, size, he, hu, hlt.le, hend, htop, by omega, ?_, by rw [if_neg h0]⟩
        rw [pagesFrom_page hsize (by omega), List.cons_append]

theorem EarlyAlloc.findNextEntry_none (hv : Valid post) (hnil : usablePages post = []) :
    e.earlyAllocFindNextEntry post = none := by
  induction post with
  | nil => rfl
  | cons u post ih =>
      have hu : u.type ≠ .usable := by
        intro hu
        have hpages : pagesFrom u.base u.length = _ := pagesFrom_page
          (hv.length_dvd u List.mem_cons_self) (hv.pos u List.mem_cons_self)
        have hnil' : entryPages u = [] := (List.append_eq_nil_iff.mp hnil).1
        rw [entryPages, if_pos hu, hpages] at hnil'
        exact List.cons_ne_nil _ _ hnil'
      rw [EarlyAlloc.earlyAllocFindNextEntry, if_pos hu]
      exact ih hv.tail (List.append_eq_nil_iff.mp hnil).2

/-- Without a page that is left there is no next entry. -/
theorem Watermark.entry_nil (hv : Valid entries) (hw : Watermark entries e []) :
    (if e.size = 0 then e.earlyAllocFindNextEntry entries else some e) = none := by
  generalize hys : ([] : List ℕ) = ys at hw
  cases hw with
  | start => exact (if_pos rfl).trans (EarlyAlloc.findNextEntry_none hv hys.symm)
  | inside pre post u top size pageCount he hu hlt hend htop =>
      obtain ⟨h1, h2⟩ := List.append_eq_nil_iff.mp hys.symm
      obtain ⟨hpost, hpre, -⟩ := suffix_valid (he ▸ hv)
      have hmem : u ∈ entries := by simp [he]
      have hsize : PAGE_SIZE ∣ size := by
        rw [Nat.dvd_add_iff_right htop, hend]
        exact Nat.dvd_add (hv.base_dvd u hmem) (hv.length_dvd u hmem)
      have h0 : size = 0 := by
        by_contra h0
        rw [pagesFrom_page hsize (by omega)] at h1
        simp at h1
      rw [if_pos h0, he, ← List.singleton_append, ← List.append_assoc,
        EarlyAlloc.findNextEntry_skip, EarlyAlloc.findNextEntry_none hpost h2]
      intro w hw _
      rcases List.mem_append.mp hw with hw | hw
      · have := hpre w hw
        simp only
        omega
      · obtain rfl := List.mem_singleton.mp hw
        exact hlt

theorem Watermark.earlyPhysAllocPage_nil {b : Boot} (hv : Valid entries)
    (hw : Watermark entries b.early []) : b.earlyPhysAllocPage d entries = none := by
  rw [Boot.earlyPhysAllocPage, hw.entry_nil hv, Option.map_none]

/-- An allocation returns the first page that is left. -/
theorem Watermark.earlyPhysAllocPage {b : Boot} (hv : Valid entries)
    (hw : Watermark entries b.early (x :: xs)) :
    ∃ b', b.earlyPhysAllocPage d entries = some (d.physToDirect x, b') ∧
      Watermark entries b'.early xs ∧ b'.early.pageCount = b.early.pageCount + 1 ∧
      b'.clients =
        (b.setMem (b.clients.phys.mem.zero (d.physToDirect x) PAGE_SIZE)).clients := by
  obtain ⟨pre, post, u, size, he, hu, hle, hend, hdvd, hpos, hxs, hnext⟩ := hw.entry hv
  have hmem : u ∈ entries := by simp [he]
  have hsize : PAGE_SIZE ∣ size := by
    rw [Nat.dvd_add_iff_right hdvd, hend]
    exact Nat.dvd_add (hv.base_dvd u hmem) (hv.length_dvd u hmem)
  have hge : PAGE_SIZE ≤ size := Nat.le_of_dvd hpos hsize
  rw [pagesFrom_page hsize hpos, List.cons_append] at hxs
  refine ⟨Boot.setMem ⟨⟨x + PAGE_SIZE, size - PAGE_SIZE, b.early.pageCount + 1⟩, b.clients⟩
      (b.clients.phys.mem.zero (d.physToDirect x) PAGE_SIZE), ?_, ?_, rfl, rfl⟩
  · rw [Boot.earlyPhysAllocPage, hnext, Option.map_some]
  · rw [(List.cons.inj hxs).2]
    have : 0 < PAGE_SIZE := by decide
    exact .inside pre post u _ _ _ he hu (by omega) (by omega) (Nat.dvd_add hdvd dvd_rfl)

theorem earlyPhysAllocPages_spec {b : Boot} (hv : Valid entries)
    (hw : Watermark entries b.early (xs ++ ys)) :
    ∃ b', b.earlyPhysAllocPages d entries xs.length = some (xs.map d.physToDirect, b') ∧
      Watermark entries b'.early ys ∧ b'.early.pageCount = b.early.pageCount + xs.length ∧
      ∃ m, b'.clients = (b.setMem m).clients := by
  induction xs generalizing b with
  | nil => exact ⟨b, rfl, hw, rfl, b.clients.phys.mem, rfl⟩
  | cons x xs ih =>
      obtain ⟨b1, e1, hw1, hc1, hm1⟩ := hw.earlyPhysAllocPage (d := d) hv
      obtain ⟨b2, e2, hw2, hc2, m2, hm2⟩ := ih hw1
      refine ⟨b2, ?_, hw2, ?_, m2, ?_⟩
      · simp [Boot.earlyPhysAllocPages, e1, e2]
      · rw [hc2, hc1, List.length_cons]
        omega
      · simp only [hm2, Boot.setMem, hm1]

end Tomato
