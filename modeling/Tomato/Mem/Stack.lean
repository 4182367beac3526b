import Tomato.Mem.Vmar.Failure
import Tomato.Mem.Vmar.UnmapRun

/-!
# Stacks

`stack_alloc` of `mem/stack.c`. A region is allocated in one of the roots, and the stack is mapped
in it, so that a page is left on either side. If a step fails, the region is taken out of the tree
again.
-/

namespace Tomato

open RbTree Ranges Forest Transition Blocks Vmars

structure StackAllocation where
  stackBottom : ℕ
  stackRegion : ℕ
deriving DecidableEq

/-- `DIV_ROUND_UP` of the size, with a sum of 64 bits. -/
def stackPageCount (size : ℕ) : ℕ := (size + (PAGE_SIZE - 1)) % 2 ^ 64 / PAGE_SIZE

def Kernel.stackRoot (k : Kernel) (user : Bool) : ℕ :=
  if user then k.userRegion else k.kernelRegion

namespace Vmm

variable (k : Kernel) (s : Vmm)

/-- What happens to a region on the way out with an error. -/
def unmapAndPut (fuel region : ℕ) : Option Vmm := do
  let s ← s.vmarUnmap k fuel region
  s.objectPut k region

/-- The stack of a user faults its pages in. -/
def populateStack (stack : ℕ) (user : Bool) : Option (Except TomatoErr Unit × Vmm) :=
  if user then some (.ok (), s) else s.vmarPopulate k stack

def stackAlloc (fuel : ℕ) (allocation : StackAllocation) (size : ℕ) (user : Bool) :
    Option (Except TomatoErr Unit × StackAllocation × Vmm) := do
  let pageCount := stackPageCount size
  let (region, s) ← s.vmarAllocate k (k.stackRoot user) VMAR_ANY_OFFSET (pageCount + 2)
  match region with
  | .error e => some (.error e, allocation, s)
  | .ok region =>
    let (stack, s) ← s.vmarMap k region PAGE_SIZE pageCount
    match stack with
    | .error e => (s.unmapAndPut k fuel region).map fun s => (.error e, allocation, s)
    | .ok stack =>
      let stackBottom := vmarEnd (s.vmars.base stack) (s.vmars.pageCount stack) + 1 - 8 * 2
      let (res, s) ← s.populateStack k stack user
      -- the deferred put comes before what is done about an error
      let s ← s.objectPut k stack
      match res with
      | .error e => (s.unmapAndPut k fuel region).map fun s => (.error e, allocation, s)
      | .ok () => some (.ok (), ⟨stackBottom, region⟩, s)

end Vmm

namespace Vmars

/-- The tree is the same, and so are the objects. -/
structure SameTree (v v' : Vmars) : Prop where
  parent : v'.parent = v.parent
  base : v'.base = v.base
  pageCount : v'.pageCount = v.pageCount
  kind : v'.kind = v.kind
  locked : v'.locked = v.locked
  unmapped : v'.unmapped = v.unmapped
  refCount : v'.refCount = v.refCount
  gap : v'.gap = v.gap
  prev : v'.prev = v.prev
  next : v'.next = v.next
  leftmost : v'.leftmost = v.leftmost
  toList : ∀ x, (v'.children x).toList = (v.children x).toList

/-- The addresses in the first and in the last page of a vmar. -/
def InGuard (v : Vmars) (x address : ℕ) : Prop :=
  v.Contains x address ∧
    (address < v.base x + PAGE_SIZE ∨ v.base x + (v.pageCount x - 1) * PAGE_SIZE ≤ address)

theorem SameTree.refl (v : Vmars) : SameTree v v :=
  ⟨rfl, rfl, rfl, rfl, rfl, rfl, rfl, rfl, rfl, rfl, rfl, fun _ => rfl⟩

/-- The siblings of a child are those in the list. -/
theorem Arranged.congr {v v' : Vmars} {p : ℕ} {xs : List ℕ} (h : v.Arranged p xs)
    (h' : v'.Arranged p xs) : v'.leftmost p = v.leftmost p ∧
      ∀ x, v.parent x = some p → v'.prev x = v.prev x ∧ v'.next x = v.next x := by
  refine ⟨h'.leftmost.trans h.leftmost.symm, fun x hx => ?_⟩
  obtain ⟨A, B, hAB⟩ := List.append_of_mem ((h.mem x).mpr hx)
  exact ⟨(h'.prev A x B hAB).trans (h.prev A x B hAB).symm,
    (h'.next A x B hAB).trans (h.next A x B hAB).symm⟩

end Vmars

namespace Vmm

/-- A call to `stack_alloc` that failed. -/
structure Unallocated (k : Kernel) (s s' : Vmm) : Prop where
  tree : SameTree s.vmars s'.vmars
  live : ∀ x, x ∈ s'.run.live ↔ x ∈ s.run.live
  reserved : s'.virt.phys.acct.reserved = s.virt.phys.acct.reserved
  used : ∃ slabs, Used k s s' slabs ∧ slabs.length ≤ 2

/-- The vmar `stack` is in the middle of a new region, and the caller has a handle for the region
and none for the stack. -/
structure StackIn (k : Kernel) (s s' : Vmm) (f : ℕ → ℕ) (size : ℕ) (user : Bool)
    (a : StackAllocation) (stack : ℕ) : Prop where
  live : s'.run.live = stack :: a.stackRegion :: s.run.live
  region : s'.vmars.parent a.stackRegion = some (k.stackRoot user) ∧
    s'.vmars.kind a.stackRegion = .region ∧
    s'.vmars.pageCount a.stackRegion = stackPageCount size + 2
  mapping : s'.vmars.kind stack = .mapping ∧ s'.vmars.pageCount stack = stackPageCount size ∧
    s'.vmars.base stack = s'.vmars.base a.stackRegion + PAGE_SIZE
  only : ∀ x, s'.vmars.parent x = some a.stackRegion ↔ x = stack
  guard : ∀ address, s'.vmars.InGuard a.stackRegion address →
    ∀ root, s'.vmars.kind root = .region → ∃ n, ∀ fuel, n < fuel →
      s'.vmars.vmarFindMapping fuel root address = some (none, s'.vmars)
  bottom : a.stackBottom + 16 = s'.vmars.base stack + stackPageCount size * PAGE_SIZE
  handles : ∀ x ∈ s'.run.live,
    s'.vmars.refCount x = s'.vmars.linked x + Function.update f a.stackRegion 1 x
  populated : user = false →
    ∀ n ∈ s'.vmars.pageNumbers stack, s'.virt.flatMap k.d n &&& IA32_PG_P ≠ 0

/-- What `stack_alloc` does. -/
def StackExact (k : Kernel) (r : VmmRun) : Prop :=
  ∀ allocation size user, ∃ m, ∀ fuel, m ≤ fuel →
    ∃ res a s', r.vmm.stackAlloc k fuel allocation size user = some (res, a, s') ∧
      ((∃ e, res = .error e ∧ a = allocation ∧ Unallocated k r.vmm s') ∨
        (res = .ok () ∧ ∃ stack, StackIn k r.vmm s' r.handles size user a stack))

variable {k : Kernel} {s s' s1 s2 : Vmm} {f : ℕ → ℕ} {c p x n offset fuel size : ℕ}
  {user : Bool} {kind : VmarKind}

/-- A region without children is unmapped, and no page is touched. -/
theorem vmarUnmap_used (hk : s.vmars.kind x = .region) (hl : s.vmars.leftmost x = none)
    (he : s.vmarUnmap k fuel x = some s') : Used k s s' [] := by
  rw [vmarUnmap] at he
  split at he
  · obtain rfl := Option.some.inj he
    exact .refl rfl rfl
  obtain ⟨s1, e1, he⟩ := Option.bind_eq_some_iff.mp he
  cases fuel with
  | zero => simp [vmarUnmapInternal] at e1
  | succ fuel =>
    have hloop : unmapChildren k (vmarUnmapInternal k fuel) fuel none s = some s := by
      cases fuel <;> rfl
    simp only [vmarUnmapInternal, hk, hl, hloop, Option.bind_eq_bind, Option.bind_some] at e1
    split at e1
    · simp at e1
    split at e1
    · simp at e1
    obtain ⟨q, -, e1⟩ := Option.bind_eq_some_iff.mp e1
    split at e1
    · simp at e1
    obtain ⟨v, -, rfl⟩ := Option.map_eq_some_iff.mp e1
    exact objectPut_used he

/-- The new vmar left the tree and is freed, so that all is as before. -/
theorem Allocated.sameTree (h : s.Ok k f) (ha : Allocated k s s1 f p c kind offset n)
    (hok2 : s2.Ok k (Function.update f c 1)) (hu : Unmaps k s1 s2 c p) (hok' : s'.Ok k f)
    (hv : s'.vmars = s2.vmars.wipe c) : SameTree s.vmars s'.vmars := by
  have hundone := ha.undone h hok2 hu
  have hb := h.dead c ha.new.1 ha.new.2
  have hb' : s'.vmars.Blank c := hv ▸ blank_wipe _ _
  have hwipe : SameBut c s2.vmars s'.vmars := hv ▸ sameBut_wipe _ _
  have hbelow := below_of_leaf (ha.leaf h)
  obtain ⟨xs, page, -, -, -, hl⟩ := ha.place
  have hinit : SameBut c s.vmars (s.vmars.initVmar c kind) := Ok.sameBut_initVmar
  have hpc : p ≠ c := by
    rintro rfl
    obtain ⟨rank, hrank⟩ := ha.ok.tree.ranked
    exact hrank.ne hu.parent rfl
  -- the fields of the other vmars
  have hfield : ∀ {α : Type} {g g' : ℕ → α}, g' c = g c → (∀ y, y ≠ c → g' y = g y) → g' = g := by
    intro α g g' hc hne
    funext y
    by_cases hy : y = c
    · rw [hy, hc]
    · exact hne y hy
  have hkept : ∀ y, y ≠ c → s2.vmars.parent y = s.vmars.parent y ∧
      s2.vmars.base y = s.vmars.base y ∧ s2.vmars.pageCount y = s.vmars.pageCount y ∧
      s2.vmars.kind y = s.vmars.kind y ∧ s2.vmars.locked y = s.vmars.locked y ∧
      s2.vmars.unmapped y = s.vmars.unmapped y ∧ s2.vmars.refCount y = s.vmars.refCount y := by
    intro y hy
    obtain ⟨h1, h2, h3, h4, h5, h6, h7⟩ := hu.kept y (by simpa [hbelow] using hy)
    rw [h1, h2, h3, h4, h5, h6, h7, hl.parent, hl.base, hl.pageCount, hl.kind, hl.locked,
      hl.unmapped, hl.refCount, Function.update_of_ne hy, Function.update_of_ne hy,
      Function.update_of_ne hy, hinit.kind y hy, hinit.refCount y hy]
    exact ⟨rfl, rfl, rfl, rfl, rfl, rfl, rfl⟩
  have hparent : s'.vmars.parent = s.vmars.parent :=
    hfield (hb'.parent.trans hb.parent.symm) fun y hy =>
      (hwipe.parent y hy).trans (hkept y hy).1
  -- the nodes of the lists
  have htrees : ∀ r, r ≠ c → r ≠ p → s'.vmars.children r = s.vmars.children r ∧
      s'.vmars.leftmost r = s.vmars.leftmost r := by
    intro r hr hrp
    obtain ⟨h1, h2⟩ := hu.trees r (by simpa [hbelow] using hr) hrp
    obtain ⟨h3, h4⟩ := hl.children r hrp
    exact ⟨(hwipe.children r hr).trans (h1.trans h3), (hwipe.leftmost r hr).trans (h2.trans h4)⟩
  have htoList : ∀ r, (s'.vmars.children r).toList = (s.vmars.children r).toList := by
    intro r
    by_cases hr : r = c
    · rw [hr, hb'.children, hb.children]
    by_cases hrp : r = p
    · rw [hrp, hwipe.children p hpc]
      exact hundone.toList
    · rw [(htrees r hr hrp).1]
  obtain ⟨ys, hok, hmem⟩ := h.tree.children p
  obtain ⟨zs, hzok, hzmem⟩ := hok'.tree.children p
  have harr := hok.arranged hmem
  have harr' : s'.vmars.Arranged p zs := hzok.arranged hzmem
  obtain rfl : zs = ys := harr'.toList.symm.trans ((htoList p).trans harr.toList)
  obtain ⟨hleft, hlinks⟩ := harr.congr harr'
  have hnodes : ∀ y, y ≠ c → s'.vmars.gap y = s.vmars.gap y ∧ s'.vmars.prev y = s.vmars.prev y ∧
      s'.vmars.next y = s.vmars.next y := by
    intro y hy
    by_cases hyp : s.vmars.parent y = some p
    · exact ⟨(hwipe.gap y hy).trans (hundone.gap y hyp), hlinks y hyp⟩
    · have hyp1 : s1.vmars.parent y ≠ some p := by
        rw [hl.parent, Function.update_of_ne hy]
        exact hyp
      obtain ⟨h1, -, h2, h3⟩ := hu.nodes y (by simpa [hbelow] using hy) hyp1
      obtain ⟨h4, -, h5, h6⟩ := hl.node y hy hyp
      exact ⟨(hwipe.gap y hy).trans (h1.trans h4), (hwipe.prev y hy).trans (h2.trans h5),
        (hwipe.next y hy).trans (h3.trans h6)⟩
  refine ⟨hparent, ?_, ?_, ?_, ?_, ?_, ?_, ?_, ?_, ?_, ?_, htoList⟩
  · exact hfield (hb'.base.trans hb.base.symm) fun y hy =>
      (hwipe.base y hy).trans (hkept y hy).2.1
  · exact hfield (hb'.pageCount.trans hb.pageCount.symm) fun y hy =>
      (hwipe.pageCount y hy).trans (hkept y hy).2.2.1
  · exact hfield (hb'.kind.trans hb.kind.symm) fun y hy =>
      (hwipe.kind y hy).trans (hkept y hy).2.2.2.1
  · exact hfield (hb'.locked.trans hb.locked.symm) fun y hy =>
      (hwipe.locked y hy).trans (hkept y hy).2.2.2.2.1
  · exact hfield (hb'.unmapped.trans hb.unmapped.symm) fun y hy =>
      (hwipe.unmapped y hy).trans (hkept y hy).2.2.2.2.2.1
  · exact hfield (hb'.refCount.trans hb.refCount.symm) fun y hy =>
      (hwipe.refCount y hy).trans (hkept y hy).2.2.2.2.2.2
  · exact hfield (hb'.gap.trans hb.gap.symm) fun y hy => (hnodes y hy).1
  · exact hfield (hb'.prev.trans hb.prev.symm) fun y hy => (hnodes y hy).2.1
  · exact hfield (hb'.next.trans hb.next.symm) fun y hy => (hnodes y hy).2.2
  · refine hfield (hb'.leftmost.trans hb.leftmost.symm) fun y hy => ?_
    by_cases hyp : y = p
    · exact hyp ▸ hleft
    · exact (htrees y hy hyp).2

/-- A call that is refused does not change what was allocated before. -/
theorem Allocated.refused (ha : Allocated k s s1 f p c kind offset n)
    (hr : Refused k s1 s2 (Function.update f c 1)) : Allocated k s s2 f p c kind offset n where
  new := ha.new
  live := hr.live.trans ha.live
  ok := hr.ok
  region := ha.region
  mapped := ha.mapped
  pos := ha.pos
  place := hr.vmars.symm ▸ ha.place

/-- The new region is taken out of the tree again, and freed. -/
theorem Allocated.unmapAndPut (h : s.Ok k f) (ha : Allocated k s s1 f p c .region offset n)
    (hpg : s1.PagesOk k) : ∃ m, ∀ fuel, m ≤ fuel → ∃ s', s1.unmapAndPut k fuel c = some s' ∧
      s'.Ok k f ∧ s'.PagesOk k ∧ SameTree s.vmars s'.vmars ∧
      (∀ x, x ∈ s'.run.live ↔ x ∈ s.run.live) ∧ Used k s1 s' [] := by
  obtain ⟨hp, hclear⟩ := ha.clear h (by simp)
  obtain ⟨hpart, htot⟩ := ha.ok.vmarUnmap hpg
  obtain ⟨m, hm⟩ := htot (by simp [hp]) hclear
  refine ⟨m, fun fuel hfuel => ?_⟩
  obtain ⟨s2, e2⟩ := hm fuel hfuel
  have hun : s1.vmars.unmapped c ≠ true := fun hu => ha.ok.tree.unmapped c hu (Or.inr (by simp [hp]))
  obtain ⟨q, hq, -, hok2, hpg2, hd⟩ := (hpart fuel s2 e2).resolve_left fun hc => hun hc.1
  obtain rfl := Option.some.inj (hp.symm.trans hq)
  have hbelow := below_of_leaf (ha.leaf h)
  have hone : Function.update f c 1 c = 1 := Function.update_self _ _ _
  obtain ⟨s3, e3, hok3, hvirt, hcase⟩ := hok2.objectPut (x := c) (by simp)
  have hpc : s2.vmars.parent c = none := hd.inside c (hbelow.symm ▸ rfl)
  obtain ⟨-, -, hv, hl⟩ := hcase.resolve_right fun hc => by simp [hpc] at hc
  have hf0 : f c = 0 := by
    by_contra hne
    exact ha.new.2 (h.held c hne)
  have hf : Function.update (Function.update f c 1) c (Function.update f c 1 c - 1) = f := by
    rw [hone, Function.update_idem, Function.update_eq_self_iff]
    exact hf0.symm
  rw [hf] at hok3
  refine ⟨s3, by rw [Vmm.unmapAndPut, e2, Option.bind_eq_bind, Option.bind_some, e3], hok3,
    hpg2.objectPut hok2 (by simp) e3, ?_, fun x => ?_, ?_⟩
  · exact ha.sameTree h hok2 (hd.unmaps ha.ok hok2 hp) hok3 hv
  · rw [hl, hok2.live_nodup.mem_erase_iff]
    constructor
    · rintro ⟨hx, hx2⟩
      exact (List.mem_cons.mp (ha.live ▸ hd.live x hx2)).resolve_left hx
    · intro hx
      have hxc : x ≠ c := by
        rintro rfl
        exact ha.new.2 hx
      exact ⟨hxc, hd.kept x (ha.live ▸ List.mem_cons_of_mem c hx) (by simpa [hbelow] using hxc)⟩
  · obtain ⟨xs, page, -, -, -, hlink⟩ := ha.place
    have hk : s1.vmars.kind c = .region := by
      rw [hlink.kind]
      exact Function.update_self _ _ _
    have hleft := (ha.ok.tree.children_eq_nil (ha.leaf h)).2
    exact (vmarUnmap_used hk hleft e2).trans (objectPut_used e3)

/-- The stack is populated for a thread of the kernel. -/
theorem Ok.populateStack (h : s.Ok k f) (hpg : s.PagesOk k) (hp : s.vmars.parent x ≠ none)
    (hk : s.vmars.kind x = .mapping) (user : Bool) :
    ∃ vs, s.populateStack k x user = some (.ok (), s.setVirt vs) ∧ (s.setVirt vs).Ok k f ∧
      (s.setVirt vs).PagesOk k ∧
      (user = false → ∀ n ∈ s.vmars.pageNumbers x, vs.flatMap k.d n &&& IA32_PG_P ≠ 0) := by
  cases user with
  | true => exact ⟨s.virt, rfl, h, hpg, by simp⟩
  | false =>
    have hun : s.vmars.unmapped x ≠ true := fun hu => h.tree.unmapped x hu (Or.inr hp)
    obtain ⟨res, s', e, hok', hpg', hcase⟩ :=
      h.vmarPopulate hpg (Or.inr (h.mem_live hp (by simp [hk])))
    rcases hcase with ⟨err, rfl, -⟩ | ⟨vs, rfl, rfl, -, -, hexec⟩
    · -- a mapping in the tree is not refused
      obtain ⟨v, ev, -, -, -, hu, -⟩ := h.locked_exec x
      rw [Vmm.vmarPopulate, if_neg (not_not.mpr hk), ev, Option.bind_eq_bind, Option.bind_some,
        if_neg (by rwa [hu])] at e
      obtain ⟨s2, -, e⟩ := Option.bind_eq_some_iff.mp e
      simp at e
    · have hlen := h.pageCount_le hp
      obtain ⟨vs', e', -, -, -, hpop, -⟩ := hpg.populate h hp hk
        (show s.vmars.pageCount x ≤ 2 ^ 36 by omega) (rangeOf_eq s.vmars x).le
      have hvs : vs' = vs := by
        rw [Vmm.execVirt, hexec, Option.map_some] at e'
        exact (congrArg virt (Option.some.inj e')).symm
      subst hvs
      refine ⟨vs', e, hok', hpg', fun _ n hn => ?_⟩
      rcases hpop n (rangeOf_eq s.vmars x ▸ hn) with hc | hc
      · exact hc.2 ▸ hc.1
      · exact hc.2.1

/-- No mapping has an address in the pages beside the stack. -/
theorem Ok.notMem_guard {m a b root : ℕ} (h : s.Ok k f) (hka : s.vmars.kind a = .region)
    (hpa : s.vmars.parent a ≠ none) (honly : ∀ x, s.vmars.parent x = some a ↔ x = b)
    (hkb : s.vmars.kind b = .mapping) (hbase : s.vmars.base b = s.vmars.base a + PAGE_SIZE)
    (hcount : s.vmars.pageCount a = s.vmars.pageCount b + 2) {address : ℕ}
    (hg : s.vmars.InGuard a address) (hr : s.vmars.kind root = .region)
    (hb : Below s.vmars.parent m root) (hm : s.vmars.kind m = .mapping) :
    ¬ s.vmars.Contains m address := by
  intro hc
  obtain ⟨hpm, -⟩ := h.linked_of_below hb hr hm
  have hmm := (h.contains_iff hpm).mp hc
  have hma := (h.contains_iff hpa).mp hg.1
  have hleaf := h.tree.leaf_of_kind (by simp [hm] : s.vmars.kind m ≠ .region)
  obtain ⟨r1, hr1, hb1, hp1⟩ := h.pages_bound hpm
  obtain ⟨r2, hr2, hb2, hp2⟩ := h.pages_bound hpa
  obtain rfl : r1 = r2 := by
    rcases hp1 _ hmm with ⟨e1, h1⟩ | ⟨e1, h1⟩ <;> rcases hp2 _ hma with ⟨e2, h2⟩ | ⟨e2, h2⟩
    · exact e1.trans e2.symm
    · omega
    · omega
    · exact e1.trans e2.symm
  rcases h.tree.nested.comparable hb1 hb2 hmm hma with hab | hab
  · rcases Relation.ReflTransGen.cases_tail hab with rfl | ⟨y, hmy, hy⟩
    · simp [hka] at hm
    · obtain rfl := (honly y).mp hy
      obtain rfl := Below.eq_of_leaf hmy (h.tree.leaf_of_kind (by simp [hkb]))
      obtain ⟨⟨-, -⟩, hg⟩ := hg
      simp only [Vmars.Contains, hbase] at hc
      rw [hcount] at hg
      have hP : PAGE_SIZE = 4096 := rfl
      rw [hP] at hg hc
      omega
  · obtain rfl := Below.eq_of_leaf hab hleaf
    simp [hka] at hm

/-- A stack is mapped in the new region. -/
theorem Allocated.stackIn {a : StackAllocation} {b : ℕ} {vs : VirtState} (h : s.Ok k f)
    (ha : Allocated k s s1 f (k.stackRoot user) a.stackRegion .region VMAR_ANY_OFFSET
      (stackPageCount size + 2))
    (hb : Allocated k s1 s2 (Function.update f a.stackRegion 1) a.stackRegion b .mapping
      PAGE_SIZE (stackPageCount size))
    (hbottom : a.stackBottom = vmarEnd (s2.vmars.base b) (s2.vmars.pageCount b) + 1 - 8 * 2)
    (hpop : user = false → ∀ n ∈ s2.vmars.pageNumbers b, vs.flatMap k.d n &&& IA32_PG_P ≠ 0)
    (hv : s'.vmars = s2.vmars.dropRef b) (hrun : s'.run = (s2.setVirt vs).run)
    (hok' : s'.Ok k (Function.update f a.stackRegion 1)) :
    StackIn k s s' f size user a b := by
  obtain ⟨_, _, -, -, -, hla⟩ := ha.place
  obtain ⟨_, page, -, -, hwant, hlb⟩ := hb.place
  have hP : PAGE_SIZE = 4096 := rfl
  have hne : a.stackRegion ≠ b := by
    rintro he
    exact hb.new.2 (by rw [ha.live, ← he]; exact List.mem_cons_self)
  have hp' : s'.vmars.parent = s2.vmars.parent := by rw [hv]; rfl
  have hk' : s'.vmars.kind = s2.vmars.kind := by rw [hv]; rfl
  have hc' : s'.vmars.pageCount = s2.vmars.pageCount := by rw [hv]; rfl
  have hb' : s'.vmars.base = s2.vmars.base := by rw [hv]; rfl
  have hparent : s'.vmars.parent a.stackRegion = some (k.stackRoot user) := by
    rw [hp', hlb.parent, Function.update_of_ne hne]
    change s1.vmars.parent _ = _
    rw [hla.parent, Function.update_self]
  have hkind : s'.vmars.kind a.stackRegion = .region := by
    rw [hk', hlb.kind, Ok.kind_initVmar hne.symm, hla.kind]
    exact Function.update_self _ _ _
  have hcount : s'.vmars.pageCount a.stackRegion = stackPageCount size + 2 := by
    rw [hc', hlb.pageCount, Function.update_of_ne hne]
    change s1.vmars.pageCount _ = _
    rw [hla.pageCount, Function.update_self]
  have hkb : s'.vmars.kind b = .mapping := by
    rw [hk', hlb.kind]
    exact Function.update_self _ _ _
  have hcb : s'.vmars.pageCount b = stackPageCount size := by
    rw [hc', hlb.pageCount, Function.update_self]
  have hbase : s'.vmars.base b = s'.vmars.base a.stackRegion + PAGE_SIZE := by
    have hpage := hwant.2
    rw [if_neg (by decide)] at hpage
    rw [hb', hlb.base, Function.update_self, Function.update_of_ne hne]
    exact hpage
  have honly : ∀ x, s'.vmars.parent x = some a.stackRegion ↔ x = b := by
    intro x
    rw [hp', hlb.parent]
    by_cases hx : x = b
    · simp [hx]
    · rw [Function.update_of_ne hx]
      exact ⟨fun hc => absurd hc (ha.leaf h x), fun hc => absurd hc hx⟩
  refine ⟨?_, ⟨hparent, hkind, hcount⟩, ⟨hkb, hcb, hbase⟩, honly, ?_, ?_, hok'.refs, ?_⟩
  · rw [hrun]
    change s2.run.live = _
    rw [hb.live, ha.live]
  · intro address hg root hr
    obtain ⟨n, ⟨m, -, hbm, hm, hc, -⟩ | ⟨hnone, -⟩⟩ := hok'.vmarFindMapping hr address
    · exact absurd hc (hok'.notMem_guard hkind (by simp [hparent]) honly hkb hbase
        (hcb.symm ▸ hcount) hg hr hbm hm)
    · exact ⟨n, hnone⟩
  · have hpos := hb.pos
    rw [hbottom, ← hb', ← hc', hcb, vmarEnd, hP]
    omega
  · intro hu n hn
    rw [hv] at hn
    rw [virt, hrun]
    exact hpop hu n hn

/-- `stack_alloc` returns. It has allocated a stack, or it has no effect. -/
theorem Ok.stackAlloc (h : s.Ok k f) (hpg : s.PagesOk k) (allocation : StackAllocation)
    (size : ℕ) (user : Bool) : ∃ m, ∀ fuel, m ≤ fuel →
      ∃ res a s', s.stackAlloc k fuel allocation size user = some (res, a, s') ∧
        s'.PagesOk k ∧
        ((∃ e, res = .error e ∧ a = allocation ∧ s'.Ok k f ∧ Unallocated k s s') ∨
          (res = .ok () ∧ s'.Ok k (Function.update f a.stackRegion 1) ∧
            ∃ stack, StackIn k s s' f size user a stack)) := by
  have hroot : k.stackRoot user ∈ k.roots := by
    cases user
    · exact Or.inl rfl
    · exact Or.inr rfl
  obtain ⟨res, s1, e1, hpg1, -, -, hcase⟩ :=
    hpg.vmarAllocate h (Or.inl (Or.inl hroot)) VMAR_ANY_OFFSET (stackPageCount size + 2)
  obtain ⟨slabs, hused, hlen⟩ := vmarAllocate_used h e1
  rcases hcase with ⟨e, rfl, hr⟩ | ⟨c, rfl, ha⟩
  · refine ⟨0, fun fuel _ => ⟨.error e, allocation, s1, ?_, hpg1, Or.inl ⟨e, rfl, rfl, hr.ok, ?_⟩⟩⟩
    · simp only [Vmm.stackAlloc, e1, Option.bind_eq_bind, Option.bind_some]
    · exact ⟨hr.vmars ▸ .refl _, fun x => by rw [hr.live], hused.reserved, slabs, hused, by omega⟩
  obtain ⟨res, s2, e2, hpg2, -, hcase⟩ :=
    hpg1.vmarMap ha.ok (Or.inr (ha.live ▸ List.mem_cons_self)) PAGE_SIZE (stackPageCount size)
  rcases hcase with ⟨e, rfl, hr, -⟩ | ⟨b, rfl, hb, -⟩
  · obtain ⟨slabs2, hused2, hlen2⟩ := vmarMap_used ha.ok e2
    obtain ⟨m, hm⟩ := (ha.refused hr).unmapAndPut h hpg2
    refine ⟨m, fun fuel hfuel => ?_⟩
    obtain ⟨s3, e3, hok3, hpg3, htree, hlive, hused3⟩ := hm fuel hfuel
    have hall := (hused.trans hused2).trans hused3
    refine ⟨.error e, allocation, s3, ?_, hpg3, Or.inl ⟨e, rfl, rfl, hok3, htree, hlive,
      hall.reserved, _, hall, ?_⟩⟩
    · simp only [Vmm.stackAlloc, e1, e2, e3, Option.bind_eq_bind, Option.bind_some,
        Option.map_some]
    · simp only [List.nil_append, List.length_append]
      omega
  · have hpb : s2.vmars.parent b = some c := (hb.clear ha.ok (by simp)).1
    have hkb : s2.vmars.kind b = .mapping := by
      obtain ⟨_, _, -, -, -, hlb⟩ := hb.place
      rw [hlb.kind]
      exact Function.update_self _ _ _
    have hne : b ≠ c := by
      rintro rfl
      exact hb.new.2 (ha.live ▸ List.mem_cons_self)
    have hf0 : f b = 0 := by
      by_contra hc
      exact hb.new.2 (ha.live ▸ List.mem_cons_of_mem c (h.held b hc))
    obtain ⟨vs, e3, hok3, hpg3, hpop⟩ := hb.ok.populateStack hpg2 (by simp [hpb]) hkb user
    obtain ⟨s4, e4, hok4, -, hcase⟩ := hok3.objectPut (x := b) (by simp)
    obtain ⟨-, hv, hrun⟩ := hcase.resolve_left fun hc => by
      have := hc.2.1
      change s2.vmars.parent b = none at this
      simp [hpb] at this
    have hf : Function.update (Function.update (Function.update f c 1) b 1) b
        (Function.update (Function.update f c 1) b 1 b - 1) = Function.update f c 1 := by
      rw [Function.update_self, Function.update_idem, Function.update_eq_self_iff,
        Function.update_of_ne hne, hf0]
    rw [hf] at hok4
    obtain ⟨a, rfl, hbottom⟩ : ∃ a : StackAllocation, c = a.stackRegion ∧ a.stackBottom =
        vmarEnd (s2.vmars.base b) (s2.vmars.pageCount b) + 1 - 8 * 2 := ⟨⟨_, c⟩, rfl, rfl⟩
    refine ⟨0, fun fuel _ => ⟨.ok (), a, s4, ?_, hpg3.objectPut hok3 (by simp) e4,
      Or.inr ⟨rfl, hok4, b, ?_⟩⟩⟩
    · simp only [Vmm.stackAlloc, e1, e2, e3, e4, Option.bind_eq_bind, Option.bind_some, ← hbottom]
    · exact Allocated.stackIn h ha hb hbottom hpop hv hrun hok4

end Vmm

variable {k : Kernel} {r : VmmRun}

/-- In every reachable state `stack_alloc` allocates a stack between two pages that are in no
mapping, or it has no effect but for the slabs and the tables that stay. -/
theorem stackExact_of_reachable (h : Reachable (VmmRun.Initial k) (VmmRun.Step k) r) :
    Vmm.StackExact k r := by
  obtain ⟨hok, hpg⟩ := VmmRun.good_of_reachable h
  intro allocation size user
  obtain ⟨m, hm⟩ := hok.stackAlloc hpg allocation size user
  refine ⟨m, fun fuel hfuel => ?_⟩
  obtain ⟨res, a, s', e, -, hcase⟩ := hm fuel hfuel
  refine ⟨res, a, s', e, hcase.imp ?_ ?_⟩
  · rintro ⟨err, hres, ha, -, hs⟩
    exact ⟨err, hres, ha, hs⟩
  · rintro ⟨hres, -, hs⟩
    exact ⟨hres, hs⟩

theorem stackExact_smallKernel :
    ∃ r, VmmRun.Initial smallKernel r ∧ Vmm.StackExact smallKernel r := by
  obtain ⟨r, h⟩ := exists_initial
  exact ⟨r, h, stackExact_of_reachable (.start h)⟩

/-- A stack of no pages is refused, and an entry of the direct map that was not global is so
then. -/
theorem failedStack_changes_leaf : ∃ r fuel a e s', VmmRun.Initial smallKernel r ∧
    r.vmm.stackAlloc smallKernel fuel ⟨0, 0⟩ 0 true = some (.error e, a, s') ∧
    ∃ n < 2 ^ 36, s'.virt.flatMap smallKernel.d n ≠ r.vmm.virt.flatMap smallKernel.d n := by
  obtain ⟨r, h0, hav⟩ := exists_initial_available
  obtain ⟨hok, hpg⟩ := VmmRun.good_of_initial h0
  have hroot : smallKernel.stackRoot true ∈ smallKernel.roots := Or.inr rfl
  obtain ⟨res, s1, e1, hpg1, -, -, hcase⟩ :=
    hpg.vmarAllocate hok (Or.inl (Or.inl hroot)) VMAR_ANY_OFFSET (stackPageCount 0 + 2)
  obtain ⟨o, s0, e0, h1⟩ :=
    Vmm.vmarAllocate_alloc (hok.tree.root _ hroot).2 (by decide : stackPageCount 0 + 2 ≠ 0) e1
  obtain ⟨slabs, hused, x, hx, hne⟩ := h0.exists_slab hav e0
  rcases hcase with ⟨e, rfl, -⟩ | ⟨c, rfl, ha⟩
  · refine ⟨r, 0, ⟨0, 0⟩, e, s1, h0, ?_, (hused.trans h1).leaf_ne hx hne⟩
    simp only [Vmm.stackAlloc, e1, Option.bind_eq_bind, Option.bind_some]
  · have e2 : s1.vmarMap smallKernel c PAGE_SIZE (stackPageCount 0) =
        some (.error .invalidArgument, s1) := by
      rw [Vmm.vmarMap]
      split <;> rfl
    obtain ⟨m, hm⟩ := ha.unmapAndPut hok hpg1
    obtain ⟨s3, e3, -, -, -, -, h3⟩ := hm m le_rfl
    refine ⟨r, m, ⟨0, 0⟩, .invalidArgument, s3, h0, ?_,
      ((hused.trans h1).trans h3).leaf_ne hx hne⟩
    simp only [Vmm.stackAlloc, e1, e2, e3, Option.bind_eq_bind, Option.bind_some,
      Option.map_some]

end Tomato
