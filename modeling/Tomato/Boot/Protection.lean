import Tomato.Boot.Returns
import Tomato.Mem.Vmar.VirtRun

/-!
# The protection of the page table

The page table as the processor reads it, after the boot and any run of calls on vmars: a page
is for the user if and only if it is in the region of the user, and a frame that can be written
is never executable, also not at another address.

The boot code and the calls are one run of the page table, so the entries of the upper levels
are known from `UserBits` and those of the leaves from what the boot code and `virt_populate`
put there.
-/

namespace Tomato

open RbTree Ranges Radix Forest Transition Loops Blocks Vmars Memmap

/-- The entries that the processor reads on its way to an address, from a table of the level
down. It stops at an entry that is not present. -/
def mmuEntries (d : DirectMap) (m : Memory) (virt : ℕ) : ℕ → ℕ → List ℕ
  | 0, table =>
    let entry := m (entryPtr table (pagingIndex virt 0))
    if entry &&& IA32_PG_P = 0 then [] else [entry]
  | i + 1, table =>
    let entry := m (entryPtr table (pagingIndex virt (i + 1)))
    if entry &&& IA32_PG_P = 0 then []
    else entry :: mmuEntries d m virt i (d.physToDirect (entry &&& PAGING_4K_ADDRESS_MASK))

namespace VirtState

variable (d : DirectMap) (st : VirtState)

def mmuEntries (virt : ℕ) : List ℕ :=
  Tomato.mmuEntries d st.phys.mem virt (PAGE_TABLE_LEVELS - 1) st.pageTable

/-- The address is mapped, by this leaf entry. -/
def Maps (virt leaf : ℕ) : Prop :=
  (st.mmuEntries d virt).length = PAGE_TABLE_LEVELS ∧ (st.mmuEntries d virt).getLast? = some leaf

end VirtState

/-- The addresses of `g_user_region`. -/
def InUserRegion (virt : ℕ) : Prop :=
  USER_REGION_BASE ≤ virt ∧ virt ≤ vmarEnd USER_REGION_BASE USER_REGION_PAGE_COUNT

/-- An address whose upper bits are copies of bit 47. -/
def Canonical (virt : ℕ) : Prop := virt < 2 ^ 47 ∨ (2 ^ 64 - 2 ^ 47 ≤ virt ∧ virt < 2 ^ 64)

/-- Where the bootloader puts the kernel: on whole frames, which exist and which are not in an
entry that the direct map covers. -/
structure KernelImage.Placed {k : Kernel} (img : KernelImage k) : Prop where
  physBase_dvd : PAGE_SIZE ∣ img.physBase
  fits : img.physBase + img.totalPages * PAGE_SIZE ≤ 2 ^ 52
  apart : ∀ e ∈ k.entries, mapped e →
    e.base + e.length ≤ img.physBase ∨ img.physBase + img.totalPages * PAGE_SIZE ≤ e.base

/-- The protection of the page table. -/
structure Protected (k : Kernel) (vs : VirtState) : Prop where
  user : ∀ virt leaf, Canonical virt → vs.Maps k.d virt leaf →
    ((∀ e ∈ vs.mmuEntries k.d virt, e &&& IA32_PG_U ≠ 0) ↔ InUserRegion virt)
  kernel : ∀ virt, KERNEL_REGION_BASE ≤ virt → virt < 2 ^ 64 →
    ∀ e ∈ vs.mmuEntries k.d virt, e &&& IA32_PG_U = 0
  exclusive : ∀ virt virt' leaf leaf', vs.Maps k.d virt leaf → vs.Maps k.d virt' leaf' →
    leaf &&& IA32_PG_RW ≠ 0 → leaf' &&& IA32_PG_NX = 0 →
      leaf &&& PAGING_4K_ADDRESS_MASK ≠ leaf' &&& PAGING_4K_ADDRESS_MASK

section

variable {d : DirectMap} {m : Memory} {root virt i t e : ℕ}

theorem walkTable_of_present {n : ℕ} (hi : i < 3)
    (ht : Phys.walkTable d m root n (i + 1) = some t)
    (hp : ¬ m (entryPtr t (n / 512 ^ (i + 1) % 512)) &&& IA32_PG_P = 0) :
    Phys.walkTable d m root n i = some (d.physToDirect
      (m (entryPtr t (n / 512 ^ (i + 1) % 512)) &&& PAGING_4K_ADDRESS_MASK)) := by
  rw [Phys.walkTable_succ d m root n hi, ht, Option.bind_some, nextTable]
  exact if_neg hp

/-- An entry that the processor reads is the one of its level. -/
theorem mem_mmuEntries (hi : i ≤ 3) (ht : Phys.walkTable d m root (pageNumber virt) i = some t)
    (he : e ∈ mmuEntries d m virt i t) : e &&& IA32_PG_P ≠ 0 ∧ ∃ j ≤ i, ∃ u,
      Phys.walkTable d m root (pageNumber virt) j = some u ∧
        e = m (entryPtr u (pageNumber virt / 512 ^ j % 512)) := by
  induction i generalizing t with
  | zero =>
    simp only [mmuEntries, pagingIndex_eq virt hi] at he
    split at he
    · simp at he
    · rename_i hp
      obtain rfl := List.mem_singleton.mp he
      exact ⟨hp, 0, le_rfl, t, ht, rfl⟩
  | succ i ih =>
    simp only [mmuEntries, pagingIndex_eq virt hi] at he
    split at he
    · simp at he
    rename_i hp
    rcases List.mem_cons.mp he with rfl | he
    · exact ⟨hp, i + 1, le_rfl, t, ht, rfl⟩
    · obtain ⟨h1, j, hj, h2⟩ := ih (by omega) (walkTable_of_present (by omega) ht hp) he
      exact ⟨h1, j, by omega, h2⟩

theorem leafEntry_of_walkTable {n : ℕ} (ht : Phys.walkTable d m root n 0 = some t) :
    leafEntry d m root n = m (entryPtr t (n % 512)) := by
  rw [leafEntry, slot, show tableAt (nextTable d m) root 512 3 (n / 512) = some t from ht]
  rfl

/-- A whole walk ends at the leaf entry. -/
theorem getLast_mmuEntries (hi : i ≤ 3)
    (ht : Phys.walkTable d m root (pageNumber virt) i = some t)
    (hlen : (mmuEntries d m virt i t).length = i + 1) :
    (mmuEntries d m virt i t).getLast? = some (leafEntry d m root (pageNumber virt)) := by
  induction i generalizing t with
  | zero =>
    simp only [mmuEntries, pagingIndex_eq virt hi] at hlen ⊢
    split at hlen
    · simp at hlen
    rename_i hp
    rw [if_neg hp, leafEntry_of_walkTable ht]
    simp
  | succ i ih =>
    simp only [mmuEntries, pagingIndex_eq virt hi] at hlen ⊢
    split at hlen
    · simp at hlen
    rename_i hp
    rw [List.length_cons] at hlen
    have hlast := ih (by omega) (walkTable_of_present (by omega) ht hp) (by omega)
    rw [if_neg hp, List.getLast?_cons, hlast]
    rfl

/-- A populated entry that becomes global. -/
theorem Phys.withGlobal_populatedEntry (phys : ℕ) (globalPage user : Bool) :
    withGlobal (populatedEntry phys globalPage user) = populatedEntry phys true user := by
  have hp : populatedEntry phys globalPage user &&& IA32_PG_P ≠ 0 := by
    rw [populatedEntry_eq]
    refine VirtState.present_or (Or.inr ?_)
    cases globalPage <;> cases user <;> decide
  rw [withGlobal, if_pos hp, populatedEntry_eq, populatedEntry_eq, Nat.or_assoc]
  congr 1
  cases globalPage <;> cases user <;> rfl

end

namespace VirtState.Maps

variable {d : DirectMap} {vs : VirtState} {virt leaf : ℕ}

theorem leaf_eq (h : vs.Maps d virt leaf) : leaf = vs.flatMap d (pageNumber virt) :=
  Option.some.inj (h.2.symm.trans
    (getLast_mmuEntries le_rfl (Phys.walkTable_top (s := vs.phys) _) h.1))

theorem mem (h : vs.Maps d virt leaf) : leaf ∈ vs.mmuEntries d virt := List.mem_of_getLast? h.2

theorem ne_zero (h : vs.Maps d virt leaf) : vs.flatMap d (pageNumber virt) ≠ 0 := by
  intro h0
  have hp := (mem_mmuEntries le_rfl (Phys.walkTable_top (s := vs.phys) _) h.mem).1
  rw [h.leaf_eq, h0] at hp
  simp at hp

end VirtState.Maps

variable {k : Kernel} {img : KernelImage k} {s s' : Vmm} {v : Vmars} {n x : ℕ}
  {vs vs' vs'' : VirtState}

namespace VirtState

/-- A page of an entry that the direct map covers. -/
theorem directPage_of_mapped {e : MemmapEntry} {i : ℕ} (he : e ∈ k.entries) (hm : mapped e)
    (hi : i < e.length / PAGE_SIZE) :
    pageNumber (pageAddr (k.d.physToDirect e.base) i) ∈ directPages k.d := by
  have hle := mapped_le he hm
  have htop := k.d.top
  have hsize : PAGE_SIZE = 4096 := rfl
  refine ⟨k.d.base + e.base + i * 4096, ?_, ?_⟩
  · simp only [DirectMap.range, Set.mem_Ico]
    rw [hsize] at hi
    omega
  · rw [pageNumber_pageAddr, pageNumber, DirectMap.physToDirect]
    omega

/-- A run keeps the bits for the user. -/
theorem Run.userBits (h : Run k.d k.entries vs vs') (hg : vs.Good k.d k.entries)
    (hu : UserBits k.d vs.pageTable vs.phys.mem) :
    UserBits k.d vs'.pageTable vs'.phys.mem := by
  induction h with
  | refl => exact hu
  | tail hr hst ih =>
    obtain ⟨c, hc, hv, he⟩ := hst
    exact userBits_exec (Run.good hr hg) ih hc hv he

end VirtState

open VirtState (Run)

namespace Vmm.Booted

/-- What is linked at boot is in the region of the kernel. -/
theorem upper (h : s.Booted k img) (hx : x ∈ img.linked) (hn : n ∈ s.vmars.pageNumbers x) :
    2 ^ 35 ≤ n := by
  obtain ⟨q, hq, rfl⟩ := hn
  have hp : s.vmars.parent x = some k.kernelRegion := by rw [h.tree.parent x, if_pos hx]
  have hsub := h.ok.tree.nested.subset (.single hp) hq
  have hK : KERNEL_REGION_BASE = 0xFFFF800000000000 := rfl
  rw [Vmars.pages, Set.mem_Ico, Vmars.pageEnd, Vmars.vmarFirstPage_eq, h.ok.kernelRegion.1,
    h.ok.kernelRegion.2, hK] at hsub
  omega

end Vmm.Booted

namespace VirtState

/-- The boot code is still running, after a run that it has made. -/
def EarlyRun (k : Kernel) (vs vs' : VirtState) : Prop :=
  Run k.d k.entries vs vs' ∧ vs'.handedOver = false

theorem EarlyRun.earlyMap {virt phys numPages flags : ℕ} (h : EarlyRun k vs vs')
    (hphys : phys < 2 ^ 64) (hupper : ∀ n ∈ rangeOf virt numPages, 2 ^ 35 ≤ n)
    (he : vs'.exec k.d k.entries (.earlyMap virt phys numPages flags) = some vs'') :
    EarlyRun k vs vs'' := by
  refine ⟨h.1.trans (Run.single (c := .earlyMap virt phys numPages flags) hupper ⟨h.2, hphys⟩ he),
    ?_⟩
  obtain ⟨b, -, rfl⟩ := Option.map_eq_some_iff.mp he
  exact h.2

theorem EarlyRun.earlyMapBitmapPage {addr : ℕ} (h : EarlyRun k vs vs')
    (hupper : 2 ^ 35 ≤ pageNumber addr)
    (he : vs'.exec k.d k.entries (.earlyMapBitmapPage addr) = some vs'') :
    EarlyRun k vs vs'' := by
  refine ⟨h.1.trans (Run.single (c := .earlyMapBitmapPage addr) hupper h.2 he), ?_⟩
  obtain ⟨b, -, rfl⟩ := Option.map_eq_some_iff.mp he
  exact h.2

theorem EarlyRun.earlyMapKernel (h : EarlyRun k vs vs')
    (hb : ∀ t, v.base (img.mapping t) = img.sectionStart t)
    (hc : ∀ t, v.pageCount (img.mapping t) = img.pageCount t)
    (hupper : ∀ t, ∀ n ∈ rangeOf (img.sectionStart t) (img.pageCount t), 2 ^ 35 ≤ n)
    (he : vs'.earlyMapKernel k img v = some vs'') : EarlyRun k vs vs'' := by
  refine foldlM_invariant (I := fun _ vs' => EarlyRun k vs vs') h
    (fun t _ _ _ vs1 vs2 h1 e => ?_) he
  rw [earlyMapVmar, hb, hc] at e
  exact h1.earlyMap (Nat.mod_lt _ (by norm_num)) (hupper t) e

theorem EarlyRun.earlyMapDirectMap (h : EarlyRun k vs vs')
    (hupper : ∀ n ∈ directPages k.d, 2 ^ 35 ≤ n)
    (he : vs'.earlyMapDirectMap k = some vs'') : EarlyRun k vs vs'' := by
  refine foldlM_invariant (I := fun _ vs' => EarlyRun k vs vs') h
    (fun e _ _ heq vs1 vs2 h1 ex => ?_) he
  obtain ⟨hmem, hm⟩ := List.mem_filter.mp (heq ▸ List.mem_append_right _ List.mem_cons_self)
  have hle := mapped_le hmem hm
  have htop := k.d.top
  have hbase := k.d.base_pos
  refine h1.earlyMap (by omega) (fun n hn => hupper n ?_) ex
  obtain ⟨i, hi, rfl⟩ := hn
  exact directPage_of_mapped hmem hm hi

/-- A pointer of the inner loop of `early_create_buddy_bitmap` is in the bitmap. -/
theorem bitmapPtr_mem {base i : ℕ} {e : MemmapEntry} (he : e ∈ k.entries) (hm : mapped e)
    (hi : i < divRoundUp ((base + bitmapEnd e) % 2 ^ 64 - (base + bitmapStart e) % 2 ^ 64)
      PAGE_SIZE) :
    pageNumber (pageAddr ((base + bitmapStart e) % 2 ^ 64) i) ∈
      rangeOf base (bitmapPageCount k.d) := by
  have hend := bitmapEnd_le he hm
  have hsize : PAGE_SIZE = 4096 := rfl
  have hstart := bitmapStart_eq e
  have hstop := bitmapEnd_eq e
  refine ⟨e.base / 2 ^ 21 + i, ?_, ?_⟩
  · rw [divRoundUp, hsize] at hi
    omega
  · rw [pageNumber_pageAddr, pageNumber_pageAddr]
    omega

theorem EarlyRun.earlyMapBitmap {base : ℕ} {e : MemmapEntry} (h : EarlyRun k vs vs')
    (he : e ∈ k.entries) (hm : mapped e)
    (hupper : ∀ n ∈ rangeOf base (bitmapPageCount k.d), 2 ^ 35 ≤ n)
    (ex : vs'.earlyMapBitmap k base e = some vs'') : EarlyRun k vs vs'' :=
  forPages_invariant (I := fun _ vs' => EarlyRun k vs vs') h
    (fun _ hi _ _ hx ey => hx.earlyMapBitmapPage (hupper _ (bitmapPtr_mem he hm hi)) ey) ex

theorem EarlyRun.earlyCreateBuddyBitmap {v' : Vmars} (h : EarlyRun k vs vs')
    (hupper : ∀ n ∈ rangeOf (v'.base img.buddyBitmap) (bitmapPageCount k.d), 2 ^ 35 ≤ n)
    (he : vs'.earlyCreateBuddyBitmap k img v = some (v', vs'')) : EarlyRun k vs vs'' := by
  obtain ⟨⟨res, v1⟩, -, he⟩ := Option.bind_eq_some_iff.mp he
  cases res with
  | error err => simp at he
  | ok u =>
    obtain ⟨vs1, e2, he⟩ := Option.bind_eq_some_iff.mp he
    obtain ⟨rfl, rfl⟩ := Prod.mk.inj (Option.some.inj he)
    refine foldlM_invariant (I := fun _ vs' => EarlyRun k vs vs') h
      (fun e _ _ heq vs1 vs2 h1 ex => ?_) e2
    obtain ⟨hmem, hm⟩ := List.mem_filter.mp (heq ▸ List.mem_append_right _ List.mem_cons_self)
    exact h1.earlyMapBitmap hmem hm hupper ex

end VirtState

namespace VirtState

/-- The first table is empty. -/
theorem userBits_of_initial (h : vs.Initial k.d k.entries) :
    UserBits k.d vs.pageTable vs.phys.mem := by
  obtain ⟨-, b, -, he⟩ := h
  obtain ⟨e, -, hb⟩ := Option.map_eq_some_iff.mp he
  obtain ⟨hptr, hboot⟩ := Prod.mk.inj hb
  refine UserBits.of_empty fun j hj => ?_
  have hmem : vs.phys.mem = b.clients.phys.mem.zero vs.pageTable PAGE_SIZE := by
    rw [phys, ← hboot, ← hptr]
    rfl
  have hcell := entryPtr_mem_pageCells (t := vs.pageTable) hj
  rw [hmem]
  exact Memory.zero_of_mem _ hcell.1 hcell.2

end VirtState

namespace Vmm

/-- The boot is a run of the page table, from an empty one. -/
theorem Start.run (h : s.Start k img) (he : s.earlyVirtInit k img = some s') :
    ∃ vs, vs.Initial k.d k.entries ∧ Run k.d k.entries vs s'.virt := by
  have hbooted := h.booted he
  simp only [earlyVirtInit, Option.bind_eq_bind] at he
  obtain ⟨⟨pageTable, boot⟩, e0, he⟩ := Option.bind_eq_some_iff.mp he
  obtain ⟨vs1, e1, he⟩ := Option.bind_eq_some_iff.mp he
  obtain ⟨vs2, e2, he⟩ := Option.bind_eq_some_iff.mp he
  obtain ⟨v1, e3, he⟩ := Option.bind_eq_some_iff.mp he
  obtain ⟨⟨v2, vs3⟩, e4, he⟩ := Option.bind_eq_some_iff.mp he
  obtain ⟨vs4, e5, he⟩ := Option.bind_eq_some_iff.mp he
  obtain rfl := Option.some.inj he
  rw [h.vmars] at e1
  have hstart : VirtState.EarlyRun k ⟨boot, pageTable, false, ∅⟩ ⟨boot, pageTable, false, ∅⟩ :=
    ⟨.refl, rfl⟩
  have h1 := hstart.earlyMapKernel (fun t => (KernelImage.base_mapping img t).1)
    (fun t => (KernelImage.base_mapping img t).2) (fun t n hn => by
      rw [← (hbooted.mapping_range t).1, ← (hbooted.mapping_range t).2, rangeOf_eq] at hn
      exact hbooted.upper (Booted.mapping_mem img t) hn) e1
  have h2 := h1.earlyMapDirectMap (fun n hn =>
    hbooted.upper (Booted.directMap_mem img) (hbooted.directPage hn)) e2
  have h3 := h2.earlyCreateBuddyBitmap (fun n hn => by
    rw [← hbooted.bitmapCount] at hn
    exact hbooted.upper (Booted.buddyBitmap_mem img) (rangeOf_eq _ _ ▸ hn)) e4
  exact ⟨_, ⟨rfl, _, h.boot, e0⟩,
    h3.1.trans (Run.single (c := .earlyAddMemory) trivial h3.2 e5)⟩

end Vmm

/-- What became of the entries since the boot: those of the boot are still there, and they may
have become global, the others are those of populated pages. -/
structure Leaves (k : Kernel) (boot : Set ℕ) (f₀ f : ℕ → ℕ) : Prop where
  present : ∀ n < 2 ^ 36, n ∈ boot → f₀ n &&& IA32_PG_P ≠ 0
  early : ∀ n < 2 ^ 36, n ∈ boot → f n = f₀ n ∨ f n = f₀ n ||| IA32_PG_G
  later : ∀ n < 2 ^ 36, n ∉ boot → f n ≠ 0 → ∃ x g, x ∈ k.d.range ∧ 4096 ∣ x ∧
    f n = Phys.populatedEntry (k.d.directToPhys x) g (decide (n < 2 ^ 35))

namespace Leaves

variable {boot : Set ℕ} {f₀ f g : ℕ → ℕ} {c : VirtCall}

/-- The entries of a range change, each to one that is fine if the old one was. -/
theorem congr {W : Set ℕ} (h : Leaves k boot f₀ f) (hout : VirtState.Outside W f g)
    (hearly : ∀ n ∈ W, n ∈ boot → f n &&& IA32_PG_P ≠ 0 → g n = f n ∨ g n = f n ||| IA32_PG_G)
    (hlater : ∀ n ∈ W, n < 2 ^ 36 → n ∉ boot → g n ≠ 0 → ∃ x b, x ∈ k.d.range ∧ 4096 ∣ x ∧
      g n = Phys.populatedEntry (k.d.directToPhys x) b (decide (n < 2 ^ 35))) :
    Leaves k boot f₀ g := by
  refine ⟨h.present, fun n hn hb => ?_, fun n hn hb hne => ?_⟩
  · have hf := h.early n hn hb
    by_cases hw : n ∈ W
    · have hp : f n &&& IA32_PG_P ≠ 0 := by
        rcases hf with hf | hf <;> rw [hf]
        · exact h.present n hn hb
        · exact VirtState.present_or (Or.inl (h.present n hn hb))
      rcases hearly n hw hb hp with hg | hg <;> rcases hf with hf | hf <;> rw [hg, hf]
      · exact Or.inl rfl
      · exact Or.inr rfl
      · exact Or.inr rfl
      · exact Or.inr (by rw [Nat.or_assoc, Nat.or_self])
    · rwa [hout n hn hw]
  · by_cases hw : n ∈ W
    · exact hlater n hw hn hb hne
    · rw [hout n hn hw] at hne ⊢
      exact h.later n hn hb hne

/-- A step after the boot. -/
theorem step (h : Leaves k vs.bootPages f₀ f) (hl : vs.handedOver = true) (hc : c.OneHalf)
    (hv : vs.Valid k.d c) (hs : VirtState.FlatStep k.d k.entries c f g) :
    Leaves k vs.bootPages f₀ g := by
  cases c with
  | earlyMap virt phys numPages flags => exact absurd (hv.1.symm.trans hl) (by decide)
  | earlyMapBitmapPage bitmapPtr | earlyAddMemory => exact absurd (hv.symm.trans hl) (by decide)
  | makeGlobal base pageCount =>
    refine h.congr hs.1 (fun n hn _ hp => ?_) fun n hn hlt hb hne => ?_
    · rw [hs.2 n hn, Phys.withGlobal, if_pos hp]
      exact Or.inr rfl
    · rw [hs.2 n hn] at hne ⊢
      obtain ⟨x, b, hx, hd, hf⟩ := h.later n hlt hb (fun h0 => hne (by rw [h0]; rfl))
      refine ⟨x, true, hx, hd, ?_⟩
      rw [hf, Phys.withGlobal_populatedEntry]
  | reservePageTables base pageCount | client c =>
    exact h.congr hs (fun n hn => absurd hn (Set.notMem_empty n))
      fun n hn => absurd hn (Set.notMem_empty n)
  | populate base pageCount b =>
    refine h.congr hs.1 (fun n hn _ hp => ?_) fun n hn hlt hb hne => ?_
    · rcases hs.2 n hn with ⟨-, hg⟩ | ⟨h0, -⟩
      · exact Or.inl hg
      · exact absurd h0 hp
    · rcases hs.2 n hn with ⟨-, hg⟩ | ⟨-, -, x, hx, hd, -, hg⟩
      · rw [hg] at hne ⊢
        exact h.later n hlt hb hne
      · refine ⟨x, b, hx, hd, ?_⟩
        rw [hg]
        congr 1
        exact Bool.eq_iff_iff.mpr ((hc n hn).trans decide_eq_true_iff.symm)
  | free base pageCount =>
    refine h.congr hs.1 (fun n hn hb => absurd hb (hv.2 n hn)) fun n hn _ _ hne => ?_
    exact absurd (hs.2 n hn) hne

end Leaves

/-- An entry with its frame and its flags. -/
structure FrameEntry (v frame flags : ℕ) : Prop where
  eq : v = frame ||| flags
  dvd : 4096 ∣ frame
  lt : frame < 2 ^ 52
  flags : flags &&& PAGING_4K_ADDRESS_MASK = 0

namespace FrameEntry

variable {v frame flags b : ℕ}

theorem frame_eq (h : FrameEntry v frame flags) : v &&& PAGING_4K_ADDRESS_MASK = frame := by
  rw [h.eq, or_and_addressMask h.dvd h.lt h.flags]

/-- The bits outside the address are those of the flags. -/
theorem and_bit (h : FrameEntry v frame flags) (hb : b < 12 ∨ 52 ≤ b) :
    v &&& 2 ^ b = flags &&& 2 ^ b := by
  have hz : frame &&& 2 ^ b = 0 := by
    rcases hb with hb | hb
    · exact and_two_pow_of_dvd h.dvd hb
    · have hlt := h.lt.trans_le (Nat.pow_le_pow_right (by norm_num) hb)
      rw [Nat.and_two_pow, Nat.testBit_lt_two_pow hlt, Bool.toNat_false, Nat.zero_mul]
  rw [h.eq, Nat.and_or_distrib_right, hz, Nat.zero_or]

theorem withGlobal (h : FrameEntry v frame flags) :
    FrameEntry (v ||| IA32_PG_G) frame (flags ||| IA32_PG_G) := by
  refine ⟨by rw [h.eq, Nat.or_assoc], h.dvd, h.lt, ?_⟩
  rw [Nat.and_or_distrib_right, h.flags]
  rfl

end FrameEntry

/-- A frame of a section of the kernel. -/
def KernelImage.InSection (img : KernelImage k) (t : KernelSection) (frame : ℕ) : Prop :=
  ∃ i < img.pageCount t, frame = img.physBase + (img.pagesBefore t + i) * PAGE_SIZE

/-- A frame of an entry that the direct map covers. -/
def InMemory (entries : Memmap) (frame : ℕ) : Prop :=
  ∃ e ∈ entries, mapped e ∧ e.base ≤ frame ∧ frame < e.base + e.length

/-- What an entry allows: a frame of a section what the section needs, and a frame of the memory
to be written. -/
def Allows (img : KernelImage k) (frame flags : ℕ) : Prop :=
  (∃ t, img.InSection t frame ∧ (flags &&& IA32_PG_RW ≠ 0 → t.perms = .rw) ∧
    (flags &&& IA32_PG_NX = 0 → t.perms = .rx)) ∨
  (InMemory k.entries frame ∧ flags &&& IA32_PG_NX ≠ 0)

/-- No frame of the memory is one of the kernel, and no frame is in two sections. -/
theorem KernelImage.Placed.exclusive (h : img.Placed) {frame flags flags' : ℕ}
    (h1 : Allows img frame flags) (h2 : Allows img frame flags') (hw : flags &&& IA32_PG_RW ≠ 0)
    (hx : flags' &&& IA32_PG_NX = 0) : False := by
  have hsize : PAGE_SIZE = 4096 := rfl
  rcases h2 with ⟨t, ⟨i, hi, hframe⟩, -, hrx⟩ | ⟨-, hnx⟩
  · have htop := img.pagesBefore_le t
    rcases h1 with ⟨u, ⟨j, hj, hframe'⟩, hrw, -⟩ | ⟨⟨e, he, hm, hle, hlt⟩, -⟩
    · have hne : t ≠ u := by
        rintro rfl
        exact absurd ((hrw hw).symm.trans (hrx hx)) (by decide)
      rw [hsize] at hframe hframe'
      have := img.pagesBefore_apart hne
      omega
    · have := h.apart e he hm
      rw [hsize] at this hframe
      omega
  · exact hnx hx

/-- The entries of the boot code are for the kernel. -/
theorem EarlyEntry.allows {bitmap n v : ℕ} (hp : img.Placed) (h : EarlyEntry img bitmap n v) :
    ∃ frame flags, FrameEntry v frame flags ∧ flags &&& IA32_PG_U = 0 ∧
      Allows img frame flags := by
  have hsize : PAGE_SIZE = 4096 := rfl
  have hbits : k.d.pageCount * 4096 ≤ 2 ^ 52 := by
    have h1 := k.d.top
    have h2 : 0xFFFF800000000000 ≤ k.d.base := k.kernel_le
    omega
  cases h with
  | kernel t i hi =>
    have htop := img.pagesBefore_le t
    have hfits := hp.fits
    have hdvd := hp.physBase_dvd
    rw [hsize] at hfits hdvd
    have hframe : (img.pagesBefore t * PAGE_SIZE + img.physBase + i * PAGE_SIZE) % 2 ^ 64 =
        img.physBase + (img.pagesBefore t + i) * PAGE_SIZE := by
      rw [hsize, Nat.mod_eq_of_lt (by omega)]
      ring
    refine ⟨_, IA32_PG_P ||| IA32_PG_A ||| sectionFlags t.perms, ⟨?_, ?_, ?_, ?_⟩, ?_,
      Or.inl ⟨t, ⟨i, hi, rfl⟩, ?_, ?_⟩⟩
    · rw [hframe, Boot.mappedEntry, Nat.or_assoc, Nat.or_assoc, Nat.or_assoc]
    · rw [hsize]
      omega
    · rw [hsize]
      omega
    all_goals generalize t.perms = p
    all_goals cases p <;> decide
  | direct e i he hm hi =>
    have hle := VirtState.mapped_le he hm
    have hb := k.valid.base_dvd e he
    rw [hsize] at hi hb
    refine ⟨e.base + i * PAGE_SIZE, IA32_PG_P ||| IA32_PG_A ||| directFlags, ⟨?_, ?_, ?_, ?_⟩, ?_,
      Or.inr ⟨⟨e, he, hm, ?_, ?_⟩, ?_⟩⟩
    · rw [Boot.mappedEntry, Nat.or_assoc, Nat.or_assoc, Nat.or_assoc]
    · rw [hsize]
      omega
    · rw [hsize]
      omega
    · decide
    · decide
    · exact Nat.le_add_right _ _
    · rw [hsize]
      omega
    · decide
  | bitmap i x hi hx =>
    obtain ⟨hdvd, e, he, ht, hle, hlt⟩ := k.valid.mem_usablePages.mp hx
    have hm : mapped e := by simp [mapped, ht]
    have hend := VirtState.mapped_le he hm
    rw [hsize] at hdvd hlt
    exact ⟨x, Boot.bitmapFlags, ⟨rfl, hdvd, by omega, by decide⟩, by decide,
      Or.inr ⟨⟨e, he, hm, hle, by omega⟩, by decide⟩⟩

/-- The entry of a populated page is for the user in the lower half. -/
theorem populatedEntry_frame (globalPage user : Bool) (hx : x ∈ k.d.range) (hd : 4096 ∣ x) :
    ∃ flags,
      FrameEntry (Phys.populatedEntry (k.d.directToPhys x) globalPage user) (k.d.directToPhys x)
        flags ∧ (flags &&& IA32_PG_U ≠ 0 ↔ user = true) ∧ flags &&& IA32_PG_NX ≠ 0 := by
  have hb := (by decide : (4096 : ℕ) ∣ 2 ^ 21).trans k.d.base_aligned
  have h1 := k.d.top
  have h2 : 0xFFFF800000000000 ≤ k.d.base := k.kernel_le
  simp only [DirectMap.range, Set.mem_Ico] at hx
  refine ⟨_, ⟨Phys.populatedEntry_eq _ _ _, ?_, ?_, ?_⟩, ?_, ?_⟩
  · rw [DirectMap.directToPhys]
    exact Nat.dvd_sub hd hb
  · rw [DirectMap.directToPhys]
    omega
  all_goals cases globalPage <;> cases user <;> decide

namespace Leaves

variable {bitmap : ℕ} {boot : Set ℕ} {f₀ f : ℕ → ℕ}

/-- A run after the boot. -/
theorem run (h : Run k.d k.entries vs vs') (hg : vs.Good k.d k.entries)
    (hl : vs.handedOver = true) (hf : Leaves k vs.bootPages f₀ (vs.flatMap k.d)) :
    vs'.bootPages = vs.bootPages ∧ Leaves k vs'.bootPages f₀ (vs'.flatMap k.d) := by
  induction h with
  | refl => exact ⟨rfl, hf⟩
  | tail hr hst ih =>
    obtain ⟨c, hc, hv, he⟩ := hst
    have hl' := Run.handedOver hr hl
    have hboot := VirtState.bootPages_of_exec hl' hv he
    refine ⟨hboot.trans ih.1, hboot ▸ ih.2.step hl' hc hv ?_⟩
    exact (VirtState.good_exec (Run.good hr hg) hv he).2

/-- The entries allow what their frames need, and they are for the user in the lower half. -/
theorem allows (h : Leaves k boot f₀ f) (hp : img.Placed)
    (hentry : ∀ n < 2 ^ 36, n ∈ boot → EarlyEntry img bitmap n (f₀ n))
    (hupper : ∀ n < 2 ^ 36, n ∈ boot → 2 ^ 35 ≤ n)
    (hmem : ∀ n < 2 ^ 36, n ∉ boot → f n ≠ 0 →
      InMemory k.entries (f n &&& PAGING_4K_ADDRESS_MASK))
    (hn : n < 2 ^ 36) (hne : f n ≠ 0) : ∃ frame flags, FrameEntry (f n) frame flags ∧
      (flags &&& IA32_PG_U ≠ 0 ↔ n < 2 ^ 35) ∧ Allows img frame flags := by
  by_cases hb : n ∈ boot
  · have hup := hupper n hn hb
    obtain ⟨frame, flags, hentry, hu, hall⟩ := (hentry n hn hb).allows hp
    rcases h.early n hn hb with hf | hf <;> rw [hf]
    · exact ⟨frame, flags, hentry, by rw [hu]; omega, hall⟩
    · have hbit : ∀ b, IA32_PG_G &&& b = 0 → (flags ||| IA32_PG_G) &&& b = flags &&& b := by
        intro b hb
        rw [Nat.and_or_distrib_right, hb, Nat.or_zero]
      refine ⟨frame, flags ||| IA32_PG_G, hentry.withGlobal, ?_, ?_⟩
      · rw [hbit _ (by decide), hu]
        omega
      · rwa [Allows, hbit _ (by decide), hbit _ (by decide)]
  · obtain ⟨x, g, hx, hd, hf⟩ := h.later n hn hb hne
    have hin := hmem n hn hb hne
    obtain ⟨flags, hentry, hu, hnx⟩ := populatedEntry_frame g (decide (n < 2 ^ 35)) hx hd
    rw [← hf] at hentry
    rw [hentry.frame_eq] at hin
    exact ⟨_, flags, hentry, by rw [hu, decide_eq_true_iff], Or.inr ⟨hin, hnx⟩⟩

end Leaves

/-- The frame of a populated page is memory of the allocator, which is usable. -/
theorem VirtState.frame_inMemory (hg : vs.Good k.d k.entries) (hl : vs.handedOver = true)
    (hu : vs.FromUsable k.d k.entries) (hn : n < 2 ^ 36) (hb : n ∉ vs.bootPages)
    (hne : vs.flatMap k.d n ≠ 0) :
    InMemory k.entries (vs.flatMap k.d n &&& PAGING_4K_ADDRESS_MASK) := by
  obtain ⟨-, fl, live, hok⟩ := hg.late hl
  obtain ⟨⟨hlive, -⟩, -⟩ := hok.frame n hn hb hne
  have hadded : frameOf k.d (vs.flatMap k.d n) ∈ vs.boot.clients.added := by
    rw [← hok.ok.inv.tiling.cover]
    refine Set.mem_biUnion (Or.inl (Or.inr hlive)) ?_
    rw [Phys.page_cells]
    simp [pageCells, VirtState.flatMap, VirtState.phys]
  obtain ⟨e, he, ht, h1, h2⟩ := hu hl _ hadded
  rw [frameOf, DirectMap.physToDirect] at h1 h2
  exact ⟨e, he, by simp [mapped, ht], by omega, by omega⟩

namespace VmmRun

variable {r r' : VmmRun}

/-- The state after the boot of the kernel, when nobody has a handle yet. -/
def BootedFrom (img : KernelImage k) (r : VmmRun) : Prop :=
  ∃ s : Vmm, s.Start k img ∧ s.earlyVirtInit k img = some r.vmm ∧ r.handles = fun _ => 0

theorem BootedFrom.initial (h : r.BootedFrom img) : r.Initial k := by
  obtain ⟨s, hs, he, hh⟩ := h
  exact ⟨img, s, hs, he, hh⟩

/-- What the calls on vmars have done to the page table since the boot. -/
theorem run_of_reachable {init : VmmRun → Prop} (hinit : ∀ r, init r → r.BootedFrom img)
    (h : Reachable init (Step k) r) :
    r.Good k ∧ ∃ r₀, init r₀ ∧ Run k.d k.entries r₀.vmm.virt r.vmm.virt := by
  refine h.invariant (I := fun r => r.Good k ∧
    ∃ r₀, init r₀ ∧ Run k.d k.entries r₀.vmm.virt r.vmm.virt) ?_ ?_
  · exact fun r h0 => ⟨good_of_initial (hinit r h0).initial, r, h0, .refl⟩
  · rintro r r' ⟨hg, r₀, h0, hr⟩ ⟨fuel, c, hv, he⟩
    exact ⟨good_exec hg hv he, r₀, h0, hr.trans (virtRun_exec hg hv he)⟩

/-- The boot and the calls on vmars refine the page table: what they do to it is a run of the
calls of `mem/virt.c` and of the allocators, each made where it may be made, so that the page
table is a map from page numbers to entries. -/
theorem virtReachable_of_reachable (h : Reachable (Initial k) (Step k) r) :
    Reachable (VirtState.Initial k.d k.entries) (VirtState.HalfStep k.d k.entries) r.vmm.virt ∧
      VirtState.FlatTable k.d k.entries r.vmm.virt := by
  have hall := h.invariant (I := fun r => r.Good k ∧
    Reachable (VirtState.Initial k.d k.entries) (VirtState.HalfStep k.d k.entries) r.vmm.virt) ?_ ?_
  · refine ⟨hall.2, VirtState.flatTable_of_reachable k.valid k.hasDirectMap k.kernel_le ?_⟩
    exact hall.2.mono fun _ _ ⟨c, _, hv, he⟩ => ⟨c, hv, he⟩
  · intro r h0
    obtain ⟨img, s, hs, he, -⟩ := id h0
    obtain ⟨vs, hinit, hr⟩ := hs.run he
    exact ⟨good_of_initial h0, hr.reachable (.start hinit)⟩
  · rintro r r' ⟨hg, hr⟩ ⟨fuel, c, hv, he⟩
    exact ⟨good_exec hg hv he, (virtRun_exec hg hv he).reachable hr⟩

theorem virtReachable_smallKernel : ∃ r, Reachable (Initial smallKernel) (Step smallKernel) r ∧
    Reachable (VirtState.Initial smallKernel.d smallKernel.entries)
      (VirtState.HalfStep smallKernel.d smallKernel.entries) r.vmm.virt := by
  obtain ⟨r, h0⟩ := exists_initial
  exact ⟨r, .start h0, (virtReachable_of_reachable (.start h0)).1⟩

/-- What became of the entries of the boot. -/
theorem leaves_of_run {s : Vmm} (hb : s.Booted k img) (hr : Run k.d k.entries s.virt vs) :
    vs.bootPages = s.virt.bootPages ∧ Leaves k vs.bootPages (s.virt.flatMap k.d)
      (vs.flatMap k.d) := by
  have hreach := VirtState.entries_of_reachable k.valid k.hasDirectMap k.kernel_le hb.reach
  refine Leaves.run hr hreach.1 hb.handedOver ⟨fun n hn hm => ?_, fun _ _ _ => Or.inl rfl,
    fun n hn hm hne => absurd ((hb.bootPages n hn).mpr hne) hm⟩
  exact hreach.2.2 n hn ((hb.bootPages n hn).mp hm)

/-- The pages of the lower half that have an entry are those of the region of the user. -/
theorem Good.user_page (hg : r.Good k) (hn : n < 2 ^ 35)
    (hne : r.vmm.virt.flatMap k.d n ≠ 0) : 2 ^ 20 ≤ n ∧ n < 2 ^ 35 - 1 := by
  have hpage : ∃ x, r.vmm.vmars.parent x ≠ none ∧ n ∈ r.vmm.vmars.pageNumbers x := by
    rcases hg.pages.covered n (by omega) hne with hb | ⟨x, hp, -, hx⟩
    · obtain ⟨x, -, hp, hx⟩ := hg.ok.boot n hb (by omega)
      exact ⟨x, hp, hx⟩
    · exact ⟨x, hp, hx⟩
  obtain ⟨x, hp, q, hq, rfl⟩ := hpage
  rcases hg.ok.half_pages hp with hh | hh <;> have := hh q hq <;> omega

theorem Good.lower_iff {virt : ℕ} (hg : r.Good k) (hc : Canonical virt)
    (hne : r.vmm.virt.flatMap k.d (pageNumber virt) ≠ 0) :
    pageNumber virt < 2 ^ 35 ↔ InUserRegion virt := by
  have hbase : USER_REGION_BASE = 2 ^ 32 := rfl
  have hend : vmarEnd USER_REGION_BASE USER_REGION_PAGE_COUNT = 2 ^ 47 - 4097 := by decide
  have hpage := fun h => hg.user_page h hne
  rw [InUserRegion, hend, hbase]
  rw [Canonical] at hc
  rw [pageNumber] at hpage ⊢
  omega

/-- In every state that is reachable from the boot, the user reaches the pages of its region and
no others, and no frame can be written at one address and executed at another. -/
theorem protected_of_reachable (hp : img.Placed)
    (h : Reachable (BootedFrom img) (Step k) r) : Protected k r.vmm.virt := by
  obtain ⟨hg, r₀, ⟨s, hs, he, -⟩, hr⟩ := run_of_reachable (fun _ h0 => h0) h
  have hb := hs.booted he
  obtain ⟨hboot, hleaves⟩ := leaves_of_run hb hr
  obtain ⟨vs, hinit, hr₀⟩ := hs.run he
  have hbits := (hr₀.trans hr).userBits (VirtState.good_of_initial k.valid k.hasDirectMap
    k.kernel_le hinit) (VirtState.userBits_of_initial hinit)
  have hallows := fun n hn hne => hleaves.allows (n := n) hp
    (fun m hm hmb => hb.entry m hm ((hb.bootPages m hm).mp (hboot ▸ hmb)))
    (fun m hm hmb => by
      obtain ⟨x, hx, hmx⟩ := hb.bootPage (hboot ▸ hmb) hm
      exact hb.upper hx hmx)
    (fun m hm hmb hne => VirtState.frame_inMemory hg.ok.good hg.ok.handedOver hg.pages.usable hm hmb
      hne) hn hne
  -- an entry on the way to a page is for the user if the page is in the lower half
  have huser : ∀ virt, ∀ e ∈ r.vmm.virt.mmuEntries k.d virt,
      (e &&& IA32_PG_U ≠ 0 ↔ pageNumber virt < 2 ^ 35) := by
    intro virt e he
    obtain ⟨hpres, j, hj, t, ht, rfl⟩ := mem_mmuEntries le_rfl
      (Phys.walkTable_top (s := r.vmm.virt.phys) _) he
    have hn := pageNumber_lt virt
    cases j with
    | zero =>
      have hleaf := leafEntry_of_walkTable ht
      rw [pow_zero, Nat.div_one, ← hleaf] at hpres ⊢
      obtain ⟨frame, flags, hentry, hu, -⟩ := hallows (pageNumber virt) hn fun h0 => by
        rw [VirtState.flatMap] at h0
        simp [h0] at hpres
      rw [← hu]
      exact not_congr (hentry.and_bit (Or.inl (by norm_num : 2 < 12)) ▸ Iff.rfl)
    | succ j =>
      rw [hbits (3 - (j + 1)) (by omega) _ (Phys.walkKey_lt hn hj) t ht _ (Nat.mod_lt _ (by decide))
        hpres]
      exact lowerEntry_iff (by omega)
  refine ⟨fun virt leaf hc hm => ?_, fun virt hge hlt e he => ?_,
    fun virt virt' leaf leaf' hm hm' hw hx heq => ?_⟩
  · have hall : (∀ e ∈ r.vmm.virt.mmuEntries k.d virt, e &&& IA32_PG_U ≠ 0) ↔
        pageNumber virt < 2 ^ 35 :=
      ⟨fun hu => (huser virt leaf hm.mem).mp (hu leaf hm.mem),
        fun hn e he => (huser virt e he).mpr hn⟩
    rw [hall]
    exact hg.lower_iff hc hm.ne_zero
  · have hlow : ¬ pageNumber virt < 2 ^ 35 := by
      have hK : KERNEL_REGION_BASE = 0xFFFF800000000000 := rfl
      rw [pageNumber]
      omega
    exact not_not.mp fun hu => hlow ((huser virt e he).mp hu)
  · obtain ⟨frame, flags, h1, -, ha⟩ := hallows _ (pageNumber_lt virt) hm.ne_zero
    obtain ⟨frame', flags', h2, -, ha'⟩ := hallows _ (pageNumber_lt virt') hm'.ne_zero
    rw [hm.leaf_eq] at hw heq
    rw [hm'.leaf_eq] at hx heq
    rw [h1.frame_eq, h2.frame_eq] at heq
    subst heq
    rw [show IA32_PG_RW = 2 ^ 1 from rfl, h1.and_bit (Or.inl (by norm_num))] at hw
    rw [show IA32_PG_NX = 2 ^ 63 from rfl, h2.and_bit (Or.inr (by norm_num))] at hx
    exact hp.exclusive ha ha' hw hx

/-- The small kernel is protected when it has booted. -/
theorem protected_smallKernel : ∃ r, Reachable (BootedFrom smallImage) (Step smallKernel) r ∧
    Protected smallKernel r.vmm.virt := by
  obtain ⟨s, he, -⟩ := exists_started
  have h : Reachable (BootedFrom smallImage) (Step smallKernel) ⟨s, fun _ => 0⟩ :=
    .start ⟨smallStart, smallStart_start, he, rfl⟩
  have hp : smallImage.Placed := by
    refine ⟨by decide, by decide, fun e he _ => Or.inl ?_⟩
    obtain rfl := List.mem_singleton.mp he
    decide
  exact ⟨_, h, protected_of_reachable hp h⟩

end VmmRun

end Tomato
