import Tomato.Boot.Returns

/-!
# The tree in every reachable state

What the calls of any number of callers leave of the children of the regions, and where a new
child is put.
-/

namespace Tomato

open RbTree Ranges Forest Transition Vmars

namespace Vmars

variable (v : Vmars)

/-- The children of the region `parent` are `xs`, and everything that is stored about them is
what the list says. -/
structure Arranged (parent : ℕ) (xs : List ℕ) : Prop where
  toList : (v.children parent).toList = xs
  mem : ∀ x, x ∈ xs ↔ v.parent x = some parent
  inside : ∀ x ∈ xs, v.pages x ⊆ v.pages parent
  nonempty : ∀ x ∈ xs, 0 < v.pageCount x
  increasing : xs.Pairwise fun x y => v.vmarFirstPage x < v.vmarFirstPage y
  disjoint : xs.Pairwise fun x y => Disjoint (v.pages x) (v.pages y)
  leftmost : v.leftmost parent = xs.head?
  prev : ∀ A x B, xs = A ++ x :: B → v.prev x = A.getLast?
  next : ∀ A x B, xs = A ++ x :: B → v.next x = B.head?
  gap : ∀ A x B, xs = A ++ x :: B →
    endOf v.pageEnd (v.vmarFirstPage parent) A + v.gap x = v.vmarFirstPage x
  maxGap : (v.children parent).AugOk v.gap v.maxGap

/-- So many pages from `page` on are in the region, and are free. -/
def Room (parent n page : ℕ) : Prop :=
  Set.Ico page (page + n) ⊆ v.pages parent ∧
    ∀ x, v.parent x = some parent → Disjoint (Set.Ico page (page + n)) (v.pages x)

/-- The range of a vmar, in bytes. -/
def bytes (x : ℕ) : Set ℕ := Set.Ico (v.base x) (v.base x + v.pageCount x * 4096)

/-- So many pages at the offset are in the region, and are free. -/
def RoomAt (parent offset n : ℕ) : Prop :=
  Set.Ico (v.base parent + offset) (v.base parent + offset + n * 4096) ⊆ v.bytes parent ∧
    ∀ x, v.parent x = some parent →
      Disjoint (Set.Ico (v.base parent + offset) (v.base parent + offset + n * 4096)) (v.bytes x)

/-- The vmar `child` is about to be linked. The others are those of `v`. -/
structure Ready (roots : Set ℕ) (child : ℕ) (w : Vmars) : Prop where
  same : SameBut child v w
  notInTree : ¬ v.InTree roots child
  parent : w.parent child = none
  unmapped : w.unmapped child = false
  children : w.children child = .nil
  leftmost : w.leftmost child = none

variable {v} {w : Vmars} {roots : Set ℕ} {parent child n page offset : ℕ} {xs : List ℕ}

theorem ChildrenOk.room_iff (h : v.ChildrenOk parent xs)
    (hmem : ∀ x, x ∈ xs ↔ v.parent x = some parent) (hn : 0 < n) :
    v.Room parent n page ↔ Fits v.vmarFirstPage v.pageEnd n (v.vmarFirstPage parent)
      (v.pageEnd parent) xs page := by
  rw [fits_iff h.packed hn, Room]
  simp only [← hmem, Set.disjoint_left]
  constructor
  · rintro ⟨hin, hout⟩ p hp
    exact ⟨hin hp, fun x hx hpx => hout x hx hp hpx⟩
  · intro hfree
    exact ⟨fun p hp => (hfree hp).1, fun x hx p hp hpx => (hfree hp).2 x hx hpx⟩

/-- The bytes of a page are in a vmar if the page is. -/
theorem mem_bytes_iff (hd : 4096 ∣ v.base parent) {a : ℕ} :
    a ∈ v.bytes parent ↔ a / 4096 ∈ v.pages parent := by
  simp only [bytes, pages, pageEnd, vmarFirstPage_eq, Set.mem_Ico]
  omega

/-- A range of whole pages is free in bytes if it is in pages. -/
theorem roomAt_iff (hd : ∀ x, x = parent ∨ v.parent x = some parent → 4096 ∣ v.base x)
    (hpage : v.base parent + offset = page * 4096) :
    v.RoomAt parent offset n ↔ v.Room parent n page := by
  have hrange : ∀ a, a ∈ Set.Ico (page * 4096) (page * 4096 + n * 4096) ↔
      a / 4096 ∈ Set.Ico page (page + n) := fun a => by
    simp only [Set.mem_Ico]
    omega
  have hfirst : ∀ p, p * 4096 / 4096 = p := fun p => Nat.mul_div_cancel p (by norm_num)
  rw [RoomAt, Room, hpage]
  simp only [Set.disjoint_left]
  constructor
  · rintro ⟨hin, hout⟩
    refine ⟨fun p hp => ?_, fun x hx p hp hpx => hout x hx (a := p * 4096) ?_ ?_⟩
    · have := (mem_bytes_iff (hd parent (Or.inl rfl))).mp (hin ((hrange _).mpr (by rwa [hfirst])))
      rwa [hfirst] at this
    · exact (hrange _).mpr (by rwa [hfirst])
    · exact (mem_bytes_iff (hd x (Or.inr hx))).mpr (by rwa [hfirst])
  · rintro ⟨hin, hout⟩
    refine ⟨fun a ha => ?_, fun x hx a ha hax => ?_⟩
    · exact (mem_bytes_iff (hd parent (Or.inl rfl))).mpr (hin ((hrange a).mp ha))
    · exact hout x hx ((hrange a).mp ha) ((mem_bytes_iff (hd x (Or.inr hx))).mp hax)

theorem Ready.ok (h : v.Ready roots child w) (hv : VmarsOk roots v) : VmarsOk roots w :=
  hv.outside h.same h.notInTree h.parent h.children h.leftmost

theorem Ready.parent_eq (h : v.Ready roots child w) : w.parent = v.parent := by
  funext x
  by_cases hx : x = child
  · subst hx
    rw [h.parent]
    by_contra hne
    exact h.notInTree (Or.inr (Ne.symm hne))
  · exact h.same.parent x hx

theorem Ready.ne (h : v.Ready roots child w) {x : ℕ} (hx : v.InTree roots x) : x ≠ child := by
  rintro rfl
  exact h.notInTree hx

theorem Ready.pages (h : v.Ready roots child w) {x : ℕ} (hx : v.InTree roots x) :
    w.base x = v.base x ∧ w.pages x = v.pages x := by
  have hne := h.ne hx
  refine ⟨h.same.base x hne, ?_⟩
  rw [Vmars.pages, Vmars.pages, pageEnd, pageEnd, vmarFirstPage, vmarFirstPage,
    h.same.base x hne, h.same.pageCount x hne]

theorem Ready.bytes (h : v.Ready roots child w) {x : ℕ} (hx : v.InTree roots x) :
    w.bytes x = v.bytes x := by
  rw [Vmars.bytes, Vmars.bytes, h.same.base x (h.ne hx), h.same.pageCount x (h.ne hx)]

theorem Ready.room_iff (h : v.Ready roots child w) (hp : v.InTree roots parent) :
    w.Room parent n page ↔ v.Room parent n page := by
  rw [Room, Room, h.parent_eq, (h.pages hp).2]
  refine and_congr_right fun _ => forall_congr' fun x => forall_congr' fun hx => ?_
  rw [(h.pages (Or.inr (by simp [hx]))).2]

theorem Ready.roomAt_iff (h : v.Ready roots child w) (hp : v.InTree roots parent) :
    w.RoomAt parent offset n ↔ v.RoomAt parent offset n := by
  rw [RoomAt, RoomAt, h.parent_eq, (h.pages hp).1, h.bytes hp]
  refine and_congr_right fun _ => forall_congr' fun x => forall_congr' fun hx => ?_
  rw [h.bytes (Or.inr (by simp [hx]))]

/-- What is wanted for a fixed offset. -/
theorem VmarsOk.wanted_iff (h : VmarsOk roots v) (hp : v.InTree roots parent) (hn : 0 < n)
    (hok : v.ChildrenOk parent xs) (hmem : ∀ x, x ∈ xs ↔ v.parent x = some parent)
    (hoff : offset ≠ VMAR_ANY_OFFSET) :
    (∃ page, v.Wanted parent offset n xs page) ↔ 4096 ∣ offset ∧ v.RoomAt parent offset n := by
  have hd : ∀ x, x = parent ∨ v.parent x = some parent → 4096 ∣ v.base x := by
    rintro x (rfl | hx)
    · exact (h.bound x hp).2
    · exact (h.bound x (Or.inr (by simp [hx]))).2
  have hdp := hd parent (Or.inl rfl)
  simp only [Wanted, if_neg hoff, ← hok.room_iff hmem hn]
  constructor
  · rintro ⟨page, hroom, he⟩
    exact ⟨by omega, (Vmars.roomAt_iff hd he.symm).mpr hroom⟩
  · rintro ⟨hdo, hroom⟩
    have he : v.base parent + offset = (v.base parent + offset) / 4096 * 4096 := by omega
    exact ⟨_, (Vmars.roomAt_iff hd he).mp hroom, he.symm⟩

theorem ChildrenOk.arranged (h : v.ChildrenOk parent xs)
    (hmem : ∀ x, x ∈ xs ↔ v.parent x = some parent) : v.Arranged parent xs where
  toList := h.tree.toList
  mem := hmem
  inside := fun x hx => by
    obtain ⟨h1, -, h2⟩ := h.mem hx
    exact Set.Ico_subset_Ico h1 h2
  nonempty := fun x hx => by
    have h1 := (h.mem hx).2.1
    rw [pageEnd] at h1
    omega
  increasing := List.Pairwise.imp_of_mem (fun hx _ hle => by
    have h1 := (h.mem hx).2.1
    omega) h.packed.pairwise
  disjoint := h.packed.pairwise.imp fun hle => Set.disjoint_left.mpr fun p hp hq => by
    simp only [pages, Set.mem_Ico] at hp hq
    omega
  leftmost := h.tree.links.leftmost
  prev := h.tree.links.prev
  next := h.tree.links.next
  gap := by
    rintro A x B rfl
    have hgap := (Gaps.append_cons_iff.mp h.gaps).2.1
    have hle := (Packed.append_iff.mp h.packed).1.endOf_le
    omega
  maxGap := h.tree.augOk

/-- What a search for any place does. -/
structure FirstFit (v w : Vmars) (parent child n : ℕ) : Prop where
  finds : (w.vmarFindPlace parent child VMAR_ANY_OFFSET n).1 = .ok () ↔
    ∃ page, v.Room parent n page
  lowest : ∀ w', w.vmarFindPlace parent child VMAR_ANY_OFFSET n = (.ok (), w') →
    ∃ page, IsLeast {q | v.Room parent n q} page ∧ w' = w.setRange child (page * 4096) n
  links : ∀ w', w.vmarFindPlace parent child VMAR_ANY_OFFSET n = (.ok (), w') →
    ∃ w'', w'.vmarLinkInternal parent child = some w''

/-- What `vmar_allocate_static` does for a fixed offset. -/
structure FixedFit (v w : Vmars) (parent child offset n : ℕ) : Prop where
  returns : ∃ res w', w.vmarAllocateStatic parent child offset n = some (res, w')
  succeeds : (∃ w', w.vmarAllocateStatic parent child offset n = some (.ok (), w')) ↔
    4096 ∣ offset ∧ v.RoomAt parent offset n
  links : ∀ w', w.vmarAllocateStatic parent child offset n = some (.ok (), w') →
    w'.base = Function.update w.base child (v.base parent + offset) ∧
      w'.pageCount = Function.update w.pageCount child n ∧
      w'.parent = Function.update w.parent child (some parent) ∧
      ∃ A B, (v.children parent).toList = A ++ B ∧ w'.Arranged parent (A ++ child :: B)
  refuses : ∀ e w', w.vmarAllocateStatic parent child offset n = some (.error e, w') →
    ∃ b m, w' = w.setRange child b m

/-- What `vmar_find_mapping` does: it returns the mapping with the address below the region,
with one more reference and its lock, or it changes nothing. -/
def Lookup (v : Vmars) (root address : ℕ) : Prop :=
  ∃ n, (∃ m, Below v.parent m root ∧ v.kind m = .mapping ∧ v.Contains m address ∧
      (∀ x, Below v.parent x root → v.kind x = .mapping → v.Contains x address → x = m) ∧
      v.pageTableLock m = false ∧ ∀ fuel, n < fuel →
        ∃ v', v.vmarFindMapping fuel root address = some (some m, v') ∧
          v' = { v with
            refCount := Function.update v.refCount m (v.refCount m + 1)
            pageTableLock := Function.update v.pageTableLock m true }) ∨
    (∀ m, Below v.parent m root → v.kind m = .mapping → ¬ v.Contains m address) ∧
      ∀ fuel, n < fuel → v.vmarFindMapping fuel root address = some (none, v)

theorem VmarsOk.firstFit (hv : VmarsOk roots v) (hp : v.InTree roots parent)
    (hk : v.kind parent = .region) (hc : v.Ready roots child w) (hn : 0 < n) :
    FirstFit v w parent child n := by
  have hw := hc.ok hv
  have hin : ∀ x, w.InTree roots x ↔ v.InTree roots x := fun x => by
    rw [InTree, InTree, hc.parent_eq]
  have hne : parent ≠ child := hc.ne hp
  obtain ⟨xs, hok, hmem⟩ := hw.children parent
  have hu : w.unmapped parent = false := by
    by_contra hu
    exact hw.unmapped parent (by simpa using hu) ((hin parent).mpr hp)
  have hroom : ∀ page, w.Wanted parent VMAR_ANY_OFFSET n xs page ↔
      IsLeast {q | v.Room parent n q} page := fun page => by
    simp only [Wanted, if_true, ← hok.room_iff hmem hn, hc.room_iff hp]
    rfl
  rcases hw.vmarFindPlace VMAR_ANY_OFFSET (Or.inl ((hin parent).mpr hp))
      ((hc.same.kind parent hne).trans hk) (fun h => hc.notInTree ((hin child).mp h)) hne.symm
      hc.unmapped hn hok hmem with ⟨b, m, e, hno⟩ | ⟨page, v', e, -, hwant, e', -, -⟩
  · refine ⟨?_, fun w' e' => by simp [e] at e', fun w' e' => by simp [e] at e'⟩
    rw [e]
    refine ⟨fun hc => by simp at hc, fun hex => ?_⟩
    obtain ⟨page, hpage⟩ : ∃ page, IsLeast {q | v.Room parent n q} page := by
      classical exact ⟨Nat.find hex, Nat.find_spec hex, fun q hq => Nat.find_min' hex hq⟩
    exact absurd ((hroom page).mpr hpage) (hno hu page)
  · have hleast := (hroom page).mp hwant
    refine ⟨?_, fun w' e2 => ?_, fun w' e2 => ?_⟩
    · rw [e]
      exact ⟨fun _ => ⟨page, hleast.1⟩, fun _ => rfl⟩
    · obtain rfl := congrArg Prod.snd (e.symm.trans e2)
      exact ⟨page, hleast, rfl⟩
    · obtain rfl := congrArg Prod.snd (e.symm.trans e2)
      exact ⟨v', e'⟩

theorem VmarsOk.fixedFit (hv : VmarsOk roots v) (hp : v.InTree roots parent)
    (hk : v.kind parent = .region) (hc : v.Ready roots child w)
    (hoff : offset ≠ VMAR_ANY_OFFSET) (hn : 0 < n) : FixedFit v w parent child offset n := by
  have hw := hc.ok hv
  have hin : ∀ x, w.InTree roots x ↔ v.InTree roots x := fun x => by
    rw [InTree, InTree, hc.parent_eq]
  have hne : parent ≠ child := hc.ne hp
  have hkw : w.kind parent = .region := (hc.same.kind parent hne).trans hk
  obtain ⟨xs, hok, hmem⟩ := hw.children parent
  have hu : w.unmapped parent = false := by
    by_contra hu
    exact hw.unmapped parent (by simpa using hu) ((hin parent).mpr hp)
  have hwanted := hw.wanted_iff ((hin parent).mpr hp) hn hok hmem hoff
  rw [hc.roomAt_iff hp] at hwanted
  rcases hw.vmarAllocateStatic offset n (Or.inl ((hin parent).mpr hp))
      (fun h => hc.notInTree ((hin child).mp h)) hne.symm hc.unmapped hok hmem with
    ⟨err, b, m, e, hno⟩ | ⟨page, v', e, -, -, -, hwant, hl, hok'⟩
  · refine ⟨⟨_, _, e⟩, ⟨?_, fun h => ?_⟩, fun w' e' => by simp [e] at e', fun err' w' e' => ?_⟩
    · rintro ⟨w', e'⟩
      simp [e] at e'
    · obtain ⟨page, hpage⟩ := hwanted.mpr h
      exact absurd hpage (hno hkw hn hu page)
    · rw [e] at e'
      obtain ⟨-, rfl⟩ := Prod.mk.inj (Option.some.inj e')
      exact ⟨b, m, rfl⟩
  · refine ⟨⟨_, _, e⟩, ⟨fun _ => hwanted.mp ⟨page, hwant⟩, fun _ => ⟨v', e⟩⟩, fun w' e' => ?_,
      fun err w' e' => by simp [e] at e'⟩
    obtain rfl := congrArg Prod.snd (Option.some.inj (e.symm.trans e'))
    obtain ⟨A, B, hAB, hA, hm⟩ := hl.list
    have hbase : page * 4096 = v.base parent + offset := by
      have h2 := hwant.2
      rwa [if_neg hoff, hc.same.base parent hne] at h2
    refine ⟨hbase ▸ hl.base, hl.pageCount, hl.parent, A, B, ?_, hA.arranged fun x => ?_⟩
    · rw [← hc.same.children parent hne]
      exact hAB.tree.toList
    · simp only [List.mem_append, List.mem_cons] at hm ⊢
      rw [hl.parent]
      by_cases hx : x = child
      · subst hx
        simp
      · rw [Function.update_of_ne hx, ← hm x]
        simp [hx]

end Vmars

variable {k : Kernel} {r : VmmRun} {w : Vmars} {parent child offset n : ℕ}

/-- The objects of the heap are not handed out when the kernel has booted. -/
theorem VmmRun.Initial.live (h : VmmRun.Initial k r) : r.vmm.run.live = [] := by
  obtain ⟨img, s, hs, he, -⟩ := h
  exact (hs.booted he).live

/-- A new object is about to be linked. -/
theorem Vmm.Ok.ready {s : Vmm} {f : ℕ → ℕ} (h : s.Ok k f) (hc : child ∈ k.d.range)
    (hl : child ∉ s.run.live) (kind : VmarKind) :
    s.vmars.Ready k.roots child (s.vmars.initVmar child kind) := by
  have hb := h.dead child hc hl
  exact ⟨Vmm.Ok.sameBut_initVmar, h.not_inTree hc hl, hb.parent, hb.unmapped, hb.children,
    hb.leftmost⟩

/-- The children of every region are in order. -/
theorem arranged_of_reachable (h : Reachable (VmmRun.Initial k) (VmmRun.Step k) r) (parent : ℕ) :
    ∃ xs, r.vmm.vmars.Arranged parent xs := by
  obtain ⟨xs, hok, hmem⟩ := (VmmRun.good_of_reachable h).ok.tree.children parent
  exact ⟨xs, hok.arranged hmem⟩

theorem arranged_smallKernel : ∃ r, VmmRun.Initial smallKernel r ∧
    ∃ xs, r.vmm.vmars.Arranged smallKernel.kernelRegion xs := by
  obtain ⟨r, h⟩ := exists_initial
  exact ⟨r, h, arranged_of_reachable (.start h) _⟩

/-- A new vmar is put at the lowest place that is free. -/
theorem firstFit_of_reachable (h : Reachable (VmmRun.Initial k) (VmmRun.Step k) r)
    (hp : r.vmm.Known k parent) (hk : r.vmm.vmars.kind parent = .region)
    (hu : r.vmm.vmars.unmapped parent = false) (hc : r.vmm.vmars.Ready k.roots child w)
    (hn : 0 < n) : FirstFit r.vmm.vmars w parent child n :=
  have hok := (VmmRun.good_of_reachable h).ok
  hok.tree.firstFit (hok.inTree hp hu) hk hc hn

/-- A new vmar is put at the place that is asked for, if it is free. -/
theorem fixedFit_of_reachable (h : Reachable (VmmRun.Initial k) (VmmRun.Step k) r)
    (hp : r.vmm.Known k parent) (hk : r.vmm.vmars.kind parent = .region)
    (hu : r.vmm.vmars.unmapped parent = false) (hc : r.vmm.vmars.Ready k.roots child w)
    (hoff : offset ≠ VMAR_ANY_OFFSET) (hn : 0 < n) :
    FixedFit r.vmm.vmars w parent child offset n :=
  have hok := (VmmRun.good_of_reachable h).ok
  hok.tree.fixedFit (hok.inTree hp hu) hk hc hoff hn

/-- A lookup finds the mapping with the address if there is one. -/
theorem lookup_of_reachable {root : ℕ} (h : Reachable (VmmRun.Initial k) (VmmRun.Step k) r)
    (hk : r.vmm.vmars.kind root = .region) (address : ℕ) : Lookup r.vmm.vmars root address := by
  have hok := (VmmRun.good_of_reachable h).ok
  obtain ⟨n, ⟨m, he, hb, hm, hc, huniq⟩ | ⟨he, hno⟩⟩ := hok.vmarFindMapping hk address
  · exact ⟨n, Or.inl ⟨m, hb, hm, hc, huniq, hok.unlocked m, fun fuel hfuel => ⟨_, he fuel hfuel,
      rfl⟩⟩⟩
  · exact ⟨n, Or.inr ⟨hno, he⟩⟩

/-- A new object and the region of the kernel, when the kernel has booted. -/
theorem exists_ready : ∃ r, VmmRun.Initial smallKernel r ∧
    r.vmm.Known smallKernel smallKernel.kernelRegion ∧
    r.vmm.vmars.kind smallKernel.kernelRegion = .region ∧
    r.vmm.vmars.unmapped smallKernel.kernelRegion = false ∧
    r.vmm.vmars.Ready smallKernel.roots smallKernel.d.base
      (r.vmm.vmars.initVmar smallKernel.d.base .region) := by
  obtain ⟨r, h⟩ := exists_initial
  have hok := (VmmRun.good_of_reachable (.start h)).ok
  have hroot : smallKernel.kernelRegion ∈ smallKernel.roots := Or.inl rfl
  refine ⟨r, h, Or.inl (Or.inl hroot), (hok.tree.root _ hroot).2, ?_, ?_⟩
  · by_contra hu
    exact hok.tree.unmapped _ (by simpa using hu) (Or.inl hroot)
  · exact hok.ready ⟨le_rfl, by decide⟩ (by simp [h.live]) _

theorem lookup_smallKernel : ∃ r, VmmRun.Initial smallKernel r ∧
    Lookup r.vmm.vmars smallKernel.kernelRegion 0xFFFF800000000000 := by
  obtain ⟨r, h, -, hk, -⟩ := exists_ready
  exact ⟨r, h, lookup_of_reachable (.start h) hk _⟩

theorem firstFit_smallKernel : ∃ r, VmmRun.Initial smallKernel r ∧
    FirstFit r.vmm.vmars (r.vmm.vmars.initVmar smallKernel.d.base .region)
      smallKernel.kernelRegion smallKernel.d.base 1 := by
  obtain ⟨r, h, hp, hk, hu, hc⟩ := exists_ready
  exact ⟨r, h, firstFit_of_reachable (.start h) hp hk hu hc Nat.one_pos⟩

theorem fixedFit_smallKernel : ∃ r, VmmRun.Initial smallKernel r ∧
    FixedFit r.vmm.vmars (r.vmm.vmars.initVmar smallKernel.d.base .region)
      smallKernel.kernelRegion smallKernel.d.base 4096 1 := by
  obtain ⟨r, h, hp, hk, hu, hc⟩ := exists_ready
  exact ⟨r, h, fixedFit_of_reachable (.start h) hp hk hu hc (by decide) Nat.one_pos⟩

end Tomato
