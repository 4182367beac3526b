import Tomato.Mem.Phys.Exact
import Tomato.Mem.Vmar.TreeRun

/-!
# Calls that fail

A call of `vmar_allocate` or `vmar_map` that returns an error leaves the vmars, the reserved
pages and the entries of the page table alone. All it may leave behind are the tables that it
made, and a slab, whose page in the direct map is global from then on.
-/

namespace Tomato

open RbTree Ranges Forest Transition Blocks Vmars

namespace VirtState

/-- The pages of the page table. -/
def tables (d : DirectMap) (vs : VirtState) : Set ℕ :=
  Tomato.tables d vs.phys.mem vs.pageTable

variable {d : DirectMap} {entries : Memmap} {vs vs1 vs' : VirtState} {o : Option ℕ}
  {base x n : ℕ}

/-- The entry of a new slab is made global. -/
structure NewSlab (d : DirectMap) (vs vs' : VirtState) (x : ℕ) : Prop where
  leaf : ∀ n < 2 ^ 36, vs'.flatMap d n =
    if n = pageNumber x then Phys.withGlobal (vs.flatMap d n) else vs.flatMap d n
  tables : vs'.tables d = vs.tables d
  available : 1 ≤ vs.phys.acct.available
  acct : vs'.phys.acct = Phys.tabled vs.phys.acct 1

/-- The tables that `virt_reserve_page_tables` makes stay, and use up what it takes. -/
theorem reserve_tables (h : vs.Good d entries) (hl : vs.handedOver = true) {s : Phys}
    {res : Except TomatoErr Unit}
    (he : vs.phys.virtReservePageTables d vs.pageTable base n = some (res, s)) :
    vs.tables d ⊆ (vs.setPhys s).tables d ∧
      s.acct.committed + (vs.tables d).ncard =
        vs.phys.acct.committed + ((vs.setPhys s).tables d).ncard := by
  obtain ⟨-, fl, live, hok⟩ := h.late hl
  obtain ⟨res', s', live', e, hres, -⟩ := hok.virtReservePageTables base n
  obtain ⟨rfl, rfl⟩ := Prod.mk.inj (Option.some.inj (e.symm.trans he))
  refine ⟨?_, hres.count⟩
  rintro t ⟨i, hi, j, hj, ht⟩
  exact ⟨i, hi, j, hj, hres.table i hi j hj t ht⟩

/-- A page is taken for a slab, or there is none. -/
theorem alloc_slab (h : vs.Good d entries) (hl : vs.handedOver = true)
    (e1 : vs.physAlloc d PAGE_SIZE = some (o, vs1)) :
    (o = none ∧ vs1 = vs) ∨ ∃ x, o = some x ∧
      ∀ vs', vs1.exec d entries (.makeGlobal x 1) = some vs' → NewSlab d vs vs' x := by
  have hvalid : vs.Valid d (.client (.alloc PAGE_SIZE)) := ⟨hl, trivial, trivial⟩
  have he : vs.exec d entries (.client (.alloc PAGE_SIZE)) = some vs1 := by
    obtain ⟨r, er, hr⟩ := Option.map_eq_some_iff.mp e1
    rw [exec, Clients.exec, show vs.boot.clients.phys.physAlloc d PAGE_SIZE = some r from er]
    exact congrArg some (congrArg Prod.snd hr)
  have hg1 := (good_exec h hvalid he).1
  have hl1 := handedOver_of_exec hl he
  obtain ⟨hch1, -⟩ := client_run h hl (c := .alloc PAGE_SIZE) trivial hvalid he
  obtain ⟨-, fl, live, hok⟩ := h.late hl
  rcases hok.ok.physAlloc PAGE_SIZE with e2 | ⟨l, x, s, fl', pages, hlev, e2, ha, -, hle, hacct⟩
  · have e3 : vs.physAlloc d PAGE_SIZE = some (none, vs) := by
      simp only [physAlloc, phys, e2, Option.map_some, Clients.handOut]
    obtain ⟨rfl, rfl⟩ := Prod.mk.inj (Option.some.inj (e3.symm.trans e1))
    exact Or.inl ⟨rfl, rfl⟩
  obtain ⟨rfl, hvs, hroot⟩ : o = some x ∧ vs1.phys = s ∧ vs1.pageTable = vs.pageTable := by
    simp only [physAlloc, phys, e2, Option.map_some, Option.some.injEq, Prod.mk.injEq] at e1
    exact ⟨e1.1.symm, by rw [← e1.2]; rfl, by rw [← e1.2]⟩
  obtain rfl : 6 = l := Option.some.inj (Phys.getLevelBySize_pageSize.symm.trans hlev)
  obtain rfl : pages = 1 := ha.pages le_rfl
  refine Or.inr ⟨x, rfl, fun vs' hp => ?_⟩
  have hvalid2 : vs1.Valid d (.makeGlobal x 1) := hl1
  obtain ⟨-, -, hall⟩ := good_exec hg1 hvalid2 hp
  obtain ⟨-, fl1, live1, hok1⟩ := hg1.late hl1
  obtain ⟨s2, e4, hs2⟩ := Option.map_eq_some_iff.mp hp
  obtain ⟨fl2, live2, ht, -⟩ := hok1.virtMakeGlobal e4
  have hW : rangeOf x 1 = {pageNumber x} := Vmm.rangeOf_one x
  -- no table is free memory
  have hframe : ∀ t, IsTable d vs.boot.clients.phys.mem vs.pageTable t →
      ∀ a ∈ pageCells t, s.mem a = vs.boot.clients.phys.mem a := fun t ht =>
    hok.table_frame ht ha.frame (hok.table_notMem_free ht)
  obtain ⟨htab, -, -⟩ := hok.tables.frame hframe
  refine ⟨fun n hn => ?_, ?_, hle, ?_⟩
  · split
    · rename_i hx
      rw [hall n (hW ▸ hx), hch1.leaf n hn (Set.notMem_empty n)]
    · rename_i hx
      rw [← hch1.leaf n hn (Set.notMem_empty n), ← hs2]
      exact ht.leaf n hn fun hc => hx (by rwa [hW] at hc)
  · rw [← hs2]
    refine (TablesOk.tables_eq ht.table).trans ?_
    rw [show vs1.boot.clients.phys = s from hvs, hroot]
    exact TablesOk.tables_eq htab
  · rw [← hs2]
    change s2.acct = _
    rw [Phys.virtMakeGlobal_acct e4, hvs, hacct]
    rfl

/-- There is a page for a slab while pages are available. -/
theorem alloc_isSome (h : vs.Good d entries) (hl : vs.handedOver = true)
    (hav : 1 ≤ vs.phys.acct.available) : ∃ x vs1, vs.physAlloc d PAGE_SIZE = some (some x, vs1) := by
  obtain ⟨-, fl, live, hok⟩ := h.late hl
  have hav : 1 ≤ vs.boot.clients.phys.acct.available := hav
  have hsuff : ∃ L, Sufficient fl 6 L := by
    by_contra hc
    have hzero : freePages fl = 0 := Phys.freePages_eq_zero fun l h6 h16 => by
      by_contra hne
      have hex : ∃ l, 6 ≤ l ∧ l < 16 ∧ fl l ≠ [] := ⟨l, h6, h16, hne⟩
      obtain ⟨h1, h2, h3⟩ := Nat.find_spec hex
      refine hc ⟨Nat.find hex, h1, h2, h3, fun j hj hlt => ?_⟩
      by_contra hnj
      exact Nat.find_min hex hlt ⟨hj, hlt.trans h2, hnj⟩
    have := hok.ok.pages
    omega
  obtain ⟨L, hL⟩ := hsuff
  have hsize : LevelOfSize PAGE_SIZE 6 :=
    (levelOfSize_iff (by decide)).mpr Phys.getLevelBySize_pageSize
  rcases Phys.physAlloc_exact hok.ok.inv PAGE_SIZE with
    ⟨hs, -⟩ | ⟨level, -, hl', ⟨L', -, -, p, s', e, -⟩ | ⟨hno, -⟩⟩
  · exact absurd (by decide) hs
  · exact ⟨p, _, by simp only [physAlloc, phys, e, Option.map_some]; rfl⟩
  · obtain rfl : level = 6 := hl'.unique hsize
    have hcount : commitCount 6 L = 1 := by simp [commitCount, PHYS_BUDDY_PAGE_LEVEL_eq, hL.le]
    have := hno L hL
    omega

end VirtState

namespace Slabs

/-- What is known once a slab may have been made. -/
def MadeSlab (d : DirectMap) (entries : Memmap) (st st' : Slabs) : Prop :=
  (st'.virt = st.virt ∧ st'.created = st.created) ∨
    (st.virt.physAlloc d PAGE_SIZE = some (none, st'.virt) ∧ st'.created = st.created) ∨
    ∃ x vs1, st.virt.physAlloc d PAGE_SIZE = some (some x, vs1) ∧
      vs1.exec d entries (.makeGlobal x 1) = some st'.virt ∧ st'.created = x :: st.created

variable {d : DirectMap} {entries : Memmap} {a : MemAlloc} {m : MemAllocMeta} {st st' st'' : Slabs}
  {o : Option ℕ} {slab : ℕ}

theorem MadeSlab.congr (h : MadeSlab d entries st st') (hv : st''.virt = st'.virt)
    (hc : st''.created = st'.created) : MadeSlab d entries st st'' := by
  rw [MadeSlab, hv, hc]
  exact h

theorem slabCreate_made (he : st.slabCreate d entries a m = some (o, st')) :
    MadeSlab d entries st st' := by
  simp only [Slabs.slabCreate, Option.bind_eq_bind] at he
  obtain ⟨⟨p, vs1⟩, e1, he⟩ := Option.bind_eq_some_iff.mp he
  cases p with
  | none =>
    obtain ⟨-, rfl⟩ := Prod.mk.inj (Option.some.inj he)
    exact Or.inr (Or.inl ⟨e1, rfl⟩)
  | some x =>
    obtain ⟨vs2, e2, he⟩ := Option.bind_eq_some_iff.mp he
    obtain ⟨l, -, he⟩ := Option.bind_eq_some_iff.mp he
    obtain ⟨-, rfl⟩ := Prod.mk.inj (Option.some.inj he)
    exact Or.inr (Or.inr ⟨x, vs1, e1, e2, rfl⟩)

theorem chooseSlab_made (he : st.chooseSlab d entries a m = some (o, st')) :
    MadeSlab d entries st st' := by
  simp only [Slabs.chooseSlab, Option.bind_eq_bind] at he
  split at he
  · obtain ⟨-, rfl⟩ := Prod.mk.inj (Option.some.inj he)
    exact Or.inl ⟨rfl, rfl⟩
  split at he
  · obtain ⟨l1, -, he⟩ := Option.bind_eq_some_iff.mp he
    obtain ⟨l2, -, he⟩ := Option.bind_eq_some_iff.mp he
    obtain ⟨-, rfl⟩ := Prod.mk.inj (Option.some.inj he)
    exact Or.inl ⟨rfl, rfl⟩
  · obtain ⟨⟨p, st1⟩, e1, he⟩ := Option.bind_eq_some_iff.mp he
    have h1 := slabCreate_made e1
    cases p with
    | none =>
      obtain ⟨-, rfl⟩ := Prod.mk.inj (Option.some.inj he)
      exact h1
    | some x =>
      obtain ⟨l, -, he⟩ := Option.bind_eq_some_iff.mp he
      obtain ⟨-, rfl⟩ := Prod.mk.inj (Option.some.inj he)
      exact h1.congr rfl rfl

theorem takeObject_created {r : ℕ × Slabs} (he : st.takeObject a m slab = some r) :
    r.2.created = st.created := by
  simp only [Slabs.takeObject, Option.bind_eq_bind] at he
  split at he
  · simp at he
  obtain ⟨l1, -, he⟩ := Option.bind_eq_some_iff.mp he
  split at he
  · obtain ⟨l2, -, he⟩ := Option.bind_eq_some_iff.mp he
    obtain ⟨l3, -, he⟩ := Option.bind_eq_some_iff.mp he
    rw [← Option.some.inj he]
  · rw [← Option.some.inj he]

theorem memAlloc_made (he : st.memAlloc d entries a m = some (o, st')) :
    MadeSlab d entries st st' := by
  simp only [Slabs.memAlloc, Option.bind_eq_bind] at he
  obtain ⟨⟨p, st1⟩, e1, he⟩ := Option.bind_eq_some_iff.mp he
  have h1 := chooseSlab_made e1
  cases p with
  | none =>
    obtain ⟨-, rfl⟩ := Prod.mk.inj (Option.some.inj he)
    exact h1
  | some x =>
    obtain ⟨⟨y, st2⟩, e2, he⟩ := Option.map_eq_some_iff.mp he
    obtain ⟨-, rfl⟩ := Prod.mk.inj he
    exact h1.congr (takeObject_virt e2) (takeObject_created e2)

/-- A slab that becomes empty is kept. -/
theorem memFree_created {ptr : ℕ} (he : st.memFree a m ptr = some st') :
    st'.virt = st.virt ∧ st'.created = st.created := by
  simp only [Slabs.memFree, Option.bind_eq_bind] at he
  split at he
  · exact Option.some.inj he ▸ ⟨rfl, rfl⟩
  split at he
  · simp at he
  obtain ⟨l1, -, he⟩ := Option.bind_eq_some_iff.mp he
  split at he
  · simp at he
  split at he
  · obtain ⟨l2, -, he⟩ := Option.bind_eq_some_iff.mp he
    obtain ⟨l3, -, he⟩ := Option.bind_eq_some_iff.mp he
    exact Option.some.inj he ▸ ⟨rfl, rfl⟩
  split at he
  · obtain ⟨l2, -, he⟩ := Option.bind_eq_some_iff.mp he
    obtain ⟨l3, -, he⟩ := Option.bind_eq_some_iff.mp he
    exact Option.some.inj he ▸ ⟨rfl, rfl⟩
  · exact Option.some.inj he ▸ ⟨rfl, rfl⟩

end Slabs

namespace Vmm

/-- What a call used up: `slabs` are new, their pages in the direct map are global, and the other
pages went into tables, which stay. -/
structure Used (k : Kernel) (s s' : Vmm) (slabs : List ℕ) : Prop where
  created : s'.run.slabs.created = slabs ++ s.run.slabs.created
  leaf : ∀ n < 2 ^ 36, s'.virt.flatMap k.d n =
    if n ∈ slabs.map pageNumber then Phys.withGlobal (s.virt.flatMap k.d n)
    else s.virt.flatMap k.d n
  tables : s.virt.tables k.d ⊆ s'.virt.tables k.d
  acct : ∃ c ≤ s.virt.phys.acct.available, s'.virt.phys.acct = Phys.tabled s.virt.phys.acct c ∧
    c + (s.virt.tables k.d).ncard = (s'.virt.tables k.d).ncard + slabs.length

/-- A call that failed. -/
structure Failed (k : Kernel) (s s' : Vmm) : Prop where
  vmars : s'.vmars = s.vmars
  live : s'.run.live = s.run.live
  used : ∃ slabs, Used k s s' slabs ∧ slabs.length ≤ 1

/-- An error of `vmar_allocate` or `vmar_map` means that nothing happened. -/
def AtomicOnFailure (k : Kernel) (s : Vmm) : Prop :=
  ∀ parent offset pageCount, s.Known k parent →
    (∃ res s', s.vmarAllocate k parent offset pageCount = some (res, s') ∧
      ∀ e, res = .error e → s.Failed k s') ∧
    ∃ res s', s.vmarMap k parent offset pageCount = some (res, s') ∧
      ∀ e, res = .error e → s.Failed k s'

variable {k : Kernel} {s s' s1 s2 : Vmm} {f : ℕ → ℕ} {slabs slabs' : List ℕ} {p c offset n : ℕ}
  {o : Option ℕ} {e : TomatoErr}

namespace Used

theorem refl (h : s'.virt = s.virt) (hc : s'.run.slabs.created = s.run.slabs.created) :
    Used k s s' [] := by
  refine ⟨hc, fun n _ => by rw [h]; simp, by rw [h], 0, Nat.zero_le _, by rw [h]; rfl, ?_⟩
  rw [h, List.length_nil, Nat.zero_add, Nat.add_zero]

theorem trans (h : Used k s s1 slabs) (h' : Used k s1 s2 slabs') :
    Used k s s2 (slabs' ++ slabs) where
  created := by rw [h'.created, h.created, List.append_assoc]
  leaf := fun n hn => by
    rw [h'.leaf n hn, h.leaf n hn, List.map_append]
    by_cases h1 : n ∈ slabs.map pageNumber <;> by_cases h2 : n ∈ slabs'.map pageNumber <;>
      simp only [h1, h2, if_true, if_false, List.mem_append, or_true, or_false,
        Phys.withGlobal_withGlobal]
  tables := h.tables.trans h'.tables
  acct := by
    obtain ⟨c, hc, e, h1⟩ := h.acct
    obtain ⟨c', hc', e', h2⟩ := h'.acct
    rw [e] at hc' e'
    simp only [Phys.tabled] at hc' e'
    refine ⟨c + c', by omega, ?_, by rw [List.length_append]; omega⟩
    rw [e', Phys.tabled]
    congr 1 <;> omega

theorem reserved (h : Used k s s' slabs) :
    s'.virt.phys.acct.reserved = s.virt.phys.acct.reserved := by
  obtain ⟨c, -, e, -⟩ := h.acct
  rw [e]
  rfl

theorem leaf_ne {x : ℕ} (h : Used k s s' slabs) (hx : x ∈ slabs)
    (hne : Phys.withGlobal (s.virt.flatMap k.d (pageNumber x)) ≠
      s.virt.flatMap k.d (pageNumber x)) :
    ∃ n < 2 ^ 36, s'.virt.flatMap k.d n ≠ s.virt.flatMap k.d n := by
  refine ⟨pageNumber x, pageNumber_lt x, ?_⟩
  rwa [h.leaf _ (pageNumber_lt x), if_pos (List.mem_map_of_mem hx)]

end Used

/-- `ALLOC` makes a slab, or uses nothing up. -/
theorem allocVmar_used (h : s.Ok k f) (he : s.allocVmar k = some (o, s1)) :
    ∃ slabs, Used k s s1 slabs ∧ slabs.length ≤ 1 := by
  obtain ⟨⟨o', st⟩, e1, he⟩ := Option.map_eq_some_iff.mp he
  obtain ⟨-, rfl⟩ := Prod.mk.inj he
  rcases Slabs.memAlloc_made e1 with ⟨hv, hc⟩ | ⟨ea, hc⟩ | ⟨x, vs1, ea, em, hc⟩
  · exact ⟨[], .refl hv hc, Nat.zero_le _⟩
  · rcases VirtState.alloc_slab h.good h.handedOver ea with ⟨-, hv⟩ | ⟨x, hx, -⟩
    · exact ⟨[], .refl hv hc, Nat.zero_le _⟩
    · simp at hx
  · rcases VirtState.alloc_slab h.good h.handedOver ea with ⟨hx, -⟩ | ⟨y, hy, hnew⟩
    · simp at hx
    obtain rfl := Option.some.inj hy
    have hn := hnew _ em
    refine ⟨[x], ⟨hc, fun n hlt => ?_, hn.tables.ge, 1, hn.available, hn.acct, ?_⟩, le_rfl⟩
    · change st.virt.flatMap k.d n = _
      rw [hn.leaf n hlt, List.map_singleton]
      simp only [List.mem_singleton]
    · change 1 + (s.virt.tables k.d).ncard = (st.virt.tables k.d).ncard + 1
      rw [hn.tables, add_comm]

/-- A slab is kept when an object is freed. -/
theorem freeVmar_used {v : Vmars} (he : (s.setVmars v).freeVmar k c = some s') :
    Used k s s' [] := by
  rw [freeVmar] at he
  split at he
  · obtain ⟨r, er, rfl⟩ := Option.map_eq_some_iff.mp he
    obtain ⟨st, es, rfl⟩ := Option.map_eq_some_iff.mp er
    obtain ⟨hv, hc⟩ := Slabs.memFree_created es
    exact .refl hv hc
  · simp at he

theorem objectPut_used {v : Vmars} (he : (s.setVmars v).objectPut k c = some s') :
    Used k s s' [] := by
  simp only [objectPut] at he
  split at he
  · simp at he
  split at he
  · simp only [vmarFree] at he
    split at he
    · exact freeVmar_used he
    · simp at he
  · exact Option.some.inj he ▸ .refl rfl rfl

/-- What freeing the object again leaves behind. -/
theorem failWith_used {α : Type} {res : Except TomatoErr α} {v : Vmars}
    (he : (s.setVmars v).failWith k c e = some (res, s')) : Used k s s' [] := by
  obtain ⟨s2, e2, he⟩ := Option.map_eq_some_iff.mp he
  obtain ⟨-, rfl⟩ := Prod.mk.inj he
  exact freeVmar_used e2

/-- All that `vmar_allocate` uses up is what the object needs. -/
theorem vmarAllocate_alloc {res : Except TomatoErr ℕ} (hk : s.vmars.kind p = .region) (hn : n ≠ 0)
    (he : s.vmarAllocate k p offset n = some (res, s')) :
    ∃ o s1, s.allocVmar k = some (o, s1) ∧ Used k s1 s' [] := by
  rw [vmarAllocate, if_neg (by simp [hk]), if_neg hn, Option.bind_eq_bind] at he
  obtain ⟨⟨o, s1⟩, e1, he⟩ := Option.bind_eq_some_iff.mp he
  refine ⟨o, s1, e1, ?_⟩
  cases o with
  | none =>
    obtain ⟨-, rfl⟩ := Prod.mk.inj (Option.some.inj he)
    exact .refl rfl rfl
  | some c =>
    obtain ⟨⟨res, v⟩, -, he⟩ := Option.bind_eq_some_iff.mp he
    cases res with
    | error e2 => exact failWith_used he
    | ok u =>
      obtain ⟨-, rfl⟩ := Prod.mk.inj (Option.some.inj he)
      exact .refl rfl rfl

theorem vmarAllocate_used {res : Except TomatoErr ℕ} (h : s.Ok k f)
    (he : s.vmarAllocate k p offset n = some (res, s')) :
    ∃ slabs, Used k s s' slabs ∧ slabs.length ≤ 1 := by
  have hself : s' = s → ∃ slabs, Used k s s' slabs ∧ slabs.length ≤ 1 := by
    rintro rfl
    exact ⟨[], .refl rfl rfl, Nat.zero_le _⟩
  by_cases hk : s.vmars.kind p = .region
  swap
  · rw [vmarAllocate, if_pos hk] at he
    exact hself (Prod.mk.inj (Option.some.inj he)).2.symm
  by_cases hn : n = 0
  · rw [vmarAllocate, if_neg (by simp [hk]), if_pos hn] at he
    exact hself (Prod.mk.inj (Option.some.inj he)).2.symm
  obtain ⟨o, s1, e1, h1⟩ := vmarAllocate_alloc hk hn he
  obtain ⟨slabs, hused, hlen⟩ := allocVmar_used h e1
  exact ⟨slabs, hused.trans h1, hlen⟩

theorem vmarMap_used (h : s.Ok k f) (he : s.vmarMap k p offset n = some (.error e, s')) :
    ∃ slabs, Used k s s' slabs ∧ slabs.length ≤ 1 := by
  rw [vmarMap] at he
  split at he
  · obtain ⟨-, rfl⟩ := Prod.mk.inj (Option.some.inj he)
    exact ⟨[], .refl rfl rfl, Nat.zero_le _⟩
  split at he
  · obtain ⟨-, rfl⟩ := Prod.mk.inj (Option.some.inj he)
    exact ⟨[], .refl rfl rfl, Nat.zero_le _⟩
  rw [Option.bind_eq_bind] at he
  obtain ⟨⟨o, s1⟩, e1, he⟩ := Option.bind_eq_some_iff.mp he
  obtain ⟨slabs, hused, hlen⟩ := allocVmar_used h e1
  obtain ⟨-, -, hg1, -⟩ := h.allocVmar e1
  cases o with
  | none =>
    obtain ⟨-, rfl⟩ := Prod.mk.inj (Option.some.inj he)
    exact ⟨slabs, hused, hlen⟩
  | some c =>
    dsimp only at he
    split at he
    · exact ⟨slabs, hused.trans (failWith_used he), hlen⟩
    · rename_i v ev
      rw [Option.bind_eq_bind] at he
      obtain ⟨⟨res, s2⟩, e2, he⟩ := Option.bind_eq_some_iff.mp he
      cases res with
      | ok u =>
        obtain ⟨w, -, he⟩ := Option.map_eq_some_iff.mp he
        simp at he
      | error e3 =>
        -- the tables that were made stay
        have htables : Used k s1 s2 [] := by
          obtain ⟨⟨r, ph⟩, er, hr⟩ := Option.map_eq_some_iff.mp e2
          obtain ⟨rfl, rfl⟩ := Prod.mk.inj hr
          obtain ⟨hsub, hcount⟩ := VirtState.reserve_tables hg1.1.good hg1.1.handedOver er
          obtain ⟨r', ph', er', hch, -, herr⟩ :=
            VirtState.reserve_run hg1.1.good hg1.1.handedOver (v.base c) (v.pageCount c)
          obtain ⟨rfl, rfl⟩ := Prod.mk.inj (Option.some.inj (er'.symm.trans er))
          obtain ⟨-, a, ha, hacct⟩ := herr e3 rfl
          refine ⟨rfl, fun n hn => ?_, hsub, a, ha, hacct, ?_⟩
          · rw [List.map_nil, if_neg List.not_mem_nil]
            exact hch.leaf n hn (Set.notMem_empty n)
          · rw [hacct] at hcount
            change s1.virt.phys.acct.committed + a + (s1.virt.tables k.d).ncard =
              s1.virt.phys.acct.committed + ((s1.virt.setPhys ph').tables k.d).ncard at hcount
            change a + (s1.virt.tables k.d).ncard = ((s1.virt.setPhys ph').tables k.d).ncard + 0
            omega
        exact ⟨slabs, (hused.trans htables).trans (failWith_used (v := s2.vmars) he), hlen⟩

theorem Ok.atomicOnFailure (h : s.Ok k f) (hpg : s.PagesOk k) : s.AtomicOnFailure k := by
  intro p offset n hp
  constructor
  · obtain ⟨res, s', e, -, -, -, hcase⟩ := hpg.vmarAllocate h hp offset n
    refine ⟨res, s', e, ?_⟩
    rintro err rfl
    rcases hcase with ⟨_, -, hr⟩ | ⟨c, hc, -⟩
    · exact ⟨hr.vmars, hr.live, vmarAllocate_used h e⟩
    · simp at hc
  · obtain ⟨res, s', e, -, -, hcase⟩ := hpg.vmarMap h hp offset n
    refine ⟨res, s', e, ?_⟩
    rintro err rfl
    rcases hcase with ⟨_, -, hr, -⟩ | ⟨c, hc, -⟩
    · exact ⟨hr.vmars, hr.live, vmarMap_used h e⟩
    · simp at hc

/-- Without slabs there is no object. -/
theorem allocVmar_created (h : s.Ok k f) (hc : s.run.slabs.created = [])
    (hav : 1 ≤ s.virt.phys.acct.available) (he : s.allocVmar k = some (o, s1)) :
    s1.run.slabs.created ≠ [] := by
  obtain ⟨-, -, hg, -, -⟩ := h.allocVmar he
  obtain ⟨⟨o', st⟩, e1, he⟩ := Option.map_eq_some_iff.mp he
  obtain ⟨rfl, rfl⟩ := Prod.mk.inj he
  intro hnil
  cases o' with
  | none =>
    obtain ⟨hp, lists, hi, hb⟩ := h.slabs
    obtain ⟨x, vs1, ea⟩ := VirtState.alloc_isSome h.good h.handedOver hav
    rcases hi.memAlloc k.alloc_ok k.defineAlloc.ok hb hp with ⟨-, -, -, e2⟩ | ⟨e2, -⟩ |
      ⟨y, st', lists', e2, -⟩
    · simp [show s.run.slabs.virt.physAlloc k.d PAGE_SIZE = _ from ea] at e2
    · simp [e1] at e2
    · simp [e1] at e2
  | some c =>
    obtain ⟨-, lists, hi, -⟩ := hg
    obtain ⟨slab, hs, -⟩ := hi.live_mem c (by simp)
    rw [hnil] at hs
    simp at hs

end Vmm

/-- A page of the direct map is not global at first. -/
theorem withGlobal_ne {phys : ℕ} (h : 4096 ∣ phys) :
    Phys.withGlobal (Boot.mappedEntry phys directFlags) ≠ Boot.mappedEntry phys directFlags := by
  have hG : Boot.mappedEntry phys directFlags &&& IA32_PG_G = 0 := by
    have hphys : phys &&& IA32_PG_G = 0 := and_two_pow_of_dvd (i := 8) h (by norm_num)
    simp only [Boot.mappedEntry, Nat.and_or_distrib_right, hphys]
    rfl
  have hP : Boot.mappedEntry phys directFlags &&& IA32_PG_P ≠ 0 := by
    rw [Boot.mappedEntry, Nat.or_assoc, Nat.or_assoc]
    exact or_and_present (by decide)
  intro he
  rw [Phys.withGlobal, if_pos hP] at he
  have hG' := congrArg (· &&& IA32_PG_G) he
  simp only [Nat.and_or_distrib_right, hG] at hG'
  exact absurd hG' (by decide)

variable {k : Kernel} {r : VmmRun}

/-- `vmar_allocate` and `vmar_map` have no effect when they fail, but for the tables and the slab
that stay. -/
theorem atomicOnFailure_of_reachable (h : Reachable (VmmRun.Initial k) (VmmRun.Step k) r) :
    r.vmm.AtomicOnFailure k := by
  obtain ⟨hok, hpg⟩ := VmmRun.good_of_reachable h
  exact hok.atomicOnFailure hpg

theorem atomicOnFailure_smallKernel :
    ∃ r, VmmRun.Initial smallKernel r ∧ r.vmm.AtomicOnFailure smallKernel := by
  obtain ⟨r, h⟩ := exists_initial
  exact ⟨r, h, atomicOnFailure_of_reachable (.start h)⟩

/-- The first object comes from a slab whose page in the direct map was not global. -/
theorem VmmRun.Initial.exists_slab {o : Option ℕ} {s' : Vmm} (h0 : VmmRun.Initial k r)
    (hav : 1 ≤ r.vmm.virt.phys.acct.available) (he : r.vmm.allocVmar k = some (o, s')) :
    ∃ slabs, Vmm.Used k r.vmm s' slabs ∧ ∃ x ∈ slabs,
      Phys.withGlobal (r.vmm.virt.flatMap k.d (pageNumber x)) ≠
        r.vmm.virt.flatMap k.d (pageNumber x) := by
  obtain ⟨hok, hpg⟩ := VmmRun.good_of_initial h0
  obtain ⟨img, s0, hstart, hinit, -⟩ := id h0
  have hb := hstart.booted hinit
  obtain ⟨slabs, hused, -⟩ := Vmm.allocVmar_used hok he
  have hcreated : s'.run.slabs.created = slabs := by
    rw [hused.created, hb.created, List.append_nil]
  have hne : slabs ≠ [] := hcreated ▸ Vmm.allocVmar_created hok hb.created hav he
  obtain ⟨x, rest, rfl⟩ := List.exists_cons_of_ne_nil hne
  refine ⟨_, hused, x, List.mem_cons_self, ?_⟩
  obtain ⟨-, -, hg, hpage, -⟩ := hok.allocVmar he
  obtain ⟨⟨W, hW⟩, -⟩ := hpg.quiet hok hpage
  have hx : x ∈ s'.virt.boot.clients.added := by
    obtain ⟨-, fl, live, hok'⟩ := hg.1.good.late hg.1.handedOver
    have hheld := hg.1.held x (by rw [hcreated]; exact List.mem_cons_self)
    exact hok'.ok.inv.tiling.mem_cover.mpr
      ⟨block x 6, Or.inl (Or.inr (hok'.others_live hheld)), (block x 6).addr_mem_cells⟩
  rw [Clients.added, hW.changed.ranges] at hx
  obtain ⟨-, fl, live, hlate⟩ := hok.good.late hok.handedOver
  obtain ⟨phys, hphys, hentry⟩ := hb.direct_entry ⟨x, hlate.ok.inv.range hx, rfl⟩
    (hb.added_ne_zero hx)
  rw [hentry]
  exact withGlobal_ne hphys

/-- The first `vmar_allocate` at an offset that is not aligned fails, and leaves an entry of the
direct map global that was not. -/
theorem failedAllocate_changes_leaf : ∃ r s' e, VmmRun.Initial smallKernel r ∧
    r.vmm.vmarAllocate smallKernel smallKernel.kernelRegion 1 1 = some (.error e, s') ∧
    ∃ n < 2 ^ 36, s'.virt.flatMap smallKernel.d n ≠ r.vmm.virt.flatMap smallKernel.d n := by
  obtain ⟨r, h0, hav⟩ := exists_initial_available
  obtain ⟨hok, hpg⟩ := VmmRun.good_of_initial h0
  have hroot : r.vmm.Known smallKernel smallKernel.kernelRegion := Or.inl (Or.inl (Or.inl rfl))
  obtain ⟨res, s', e, -, -, -, hcase⟩ := hpg.vmarAllocate hok hroot 1 1
  rcases hcase with ⟨err, rfl, hr⟩ | ⟨c, -, ha⟩
  swap
  · -- the offset is not aligned
    obtain ⟨xs, page, -, -, ⟨-, hw⟩, -⟩ := ha.place
    rw [if_neg (by decide), hok.kernelRegion.1] at hw
    have hK : KERNEL_REGION_BASE = 0xFFFF800000000000 := rfl
    omega
  obtain ⟨o, s1, e1, h1⟩ := Vmm.vmarAllocate_alloc (hok.tree.root _ (Or.inl rfl)).2 one_ne_zero e
  obtain ⟨slabs, hused, x, hx, hne⟩ := h0.exists_slab hav e1
  exact ⟨r, s', err, h0, e, (hused.trans h1).leaf_ne hx hne⟩

end Tomato
