import Tomato.Boot.Init
import Tomato.Lib.Loops

/-!
# The entries of the boot code

`EarlyEntry` lists what `early_virt_init` puts into the page table. The steps of the boot
code add such entries, and they keep the entries that are there.
-/

namespace Tomato

open Transition Loops Memmap

variable {k : Kernel} {img : KernelImage k} {vs vs' vs'' : VirtState} {v : Vmars}
  {P : ℕ → ℕ → Prop} {base virt phys n flags : ℕ} {e : MemmapEntry}

/-- What `early_virt_init` puts into the entry of a page, the bitmap being at the address. -/
inductive EarlyEntry (img : KernelImage k) (bitmap : ℕ) : ℕ → ℕ → Prop
  | kernel (s : KernelSection) (i : ℕ) : i < img.pageCount s → EarlyEntry img bitmap
      (pageNumber (pageAddr (img.sectionStart s) i))
      (Boot.mappedEntry ((img.pagesBefore s * PAGE_SIZE + img.physBase + i * PAGE_SIZE) % 2 ^ 64)
        (sectionFlags s.perms))
  | direct (e : MemmapEntry) (i : ℕ) : e ∈ k.entries → mapped e → i < e.length / PAGE_SIZE →
      EarlyEntry img bitmap (pageNumber (pageAddr (k.d.physToDirect e.base) i))
        (Boot.mappedEntry (e.base + i * PAGE_SIZE) directFlags)
  | bitmap (i x : ℕ) : i < bitmapPageCount k.d → x ∈ usablePages k.entries →
      EarlyEntry img bitmap (pageNumber (pageAddr bitmap i)) (x ||| Boot.bitmapFlags)

namespace VirtState

/-- The boot code still fills the page table, and the entries are those of `P`. -/
structure Filling (k : Kernel) (P : ℕ → ℕ → Prop) (vs : VirtState) : Prop where
  reach : Reachable (Initial k.d k.entries) (Step k.d k.entries) vs
  early : vs.handedOver = false
  entry : ∀ n < 2 ^ 36, vs.flatMap k.d n ≠ 0 → P n (vs.flatMap k.d n)

/-- The entries that are there stay. -/
def Keeps (k : Kernel) (vs vs' : VirtState) : Prop :=
  ∀ n < 2 ^ 36, vs.flatMap k.d n ≠ 0 → vs'.flatMap k.d n = vs.flatMap k.d n

theorem Keeps.refl (k : Kernel) (vs : VirtState) : Keeps k vs vs := fun _ _ _ => rfl

theorem Keeps.trans (h : Keeps k vs vs') (h' : Keeps k vs' vs'') : Keeps k vs vs'' :=
  fun n hn hne => (h' n hn (by rwa [h n hn hne])).trans (h n hn hne)

theorem Keeps.ne_zero (h : Keeps k vs vs') {m : ℕ} (hm : m < 2 ^ 36)
    (hne : vs.flatMap k.d m ≠ 0) : vs'.flatMap k.d m ≠ 0 := by rwa [h m hm hne]

namespace Filling

theorem start {pageTable : ℕ} {b boot : Boot} (h0 : b.Initial k.d)
    (he : b.earlyPhysAllocPage k.d k.entries = some (pageTable, boot)) (P : ℕ → ℕ → Prop) :
    Filling k P ⟨boot, pageTable, false, ∅⟩ := by
  have hi : Initial k.d k.entries ⟨boot, pageTable, false, ∅⟩ := ⟨rfl, b, h0, he⟩
  exact ⟨.start hi, rfl, fun n hn hne =>
    absurd (flatMap_of_initial k.valid k.hasDirectMap k.kernel_le hi n hn) hne⟩

theorem good (h : Filling k P vs) : vs.Good k.d k.entries :=
  good_of_reachable k.valid k.hasDirectMap k.kernel_le h.reach

theorem present (h : Filling k P vs) : AllPresent (vs.flatMap k.d) :=
  (entries_of_reachable k.valid k.hasDirectMap k.kernel_le h.reach).2.2

theorem mono {Q : ℕ → ℕ → Prop} (h : Filling k P vs) (hPQ : ∀ n e, P n e → Q n e) :
    Filling k Q vs := ⟨h.reach, h.early, fun n hn hne => hPQ _ _ (h.entry n hn hne)⟩

/-- `early_virt_map`. -/
theorem earlyMap (h : Filling k P vs) (hphys : phys < 2 ^ 64)
    (he : vs.exec k.d k.entries (.earlyMap virt phys n flags) = some vs')
    (hP : ∀ i < n, P (pageNumber (pageAddr virt i))
      (Boot.mappedEntry ((phys + i * PAGE_SIZE) % 2 ^ 64) flags)) :
    Filling k P vs' ∧ Keeps k vs vs' ∧
      ∀ i < n, vs'.flatMap k.d (pageNumber (pageAddr virt i)) ≠ 0 := by
  have hv : vs.Valid k.d (.earlyMap virt phys n flags) := ⟨h.early, hphys⟩
  obtain ⟨-, hout, hin⟩ := good_exec h.good hv he
  obtain ⟨b, -, hb⟩ := Option.map_eq_some_iff.mp he
  refine ⟨⟨h.reach.next ⟨_, hv, he⟩, hb ▸ h.early, fun m hm hne => ?_⟩, fun m hm hne => ?_,
    fun i hi => ?_⟩
  · by_cases hr : m ∈ rangeOf virt n
    · obtain ⟨i, hi, rfl⟩ := hr
      rw [(hin i hi).2]
      exact hP i hi
    · rw [hout m hm hr] at hne ⊢
      exact h.entry m hm hne
  · refine hout m hm fun hr => ?_
    obtain ⟨i, hi, rfl⟩ := hr
    exact hne (hin i hi).1
  · rw [(hin i hi).2]
    exact mappedEntry_ne_zero

/-- A page of the bitmap is mapped. -/
theorem earlyMapBitmapPage {addr : ℕ} (h : Filling k P vs)
    (he : vs.exec k.d k.entries (.earlyMapBitmapPage addr) = some vs')
    (hP : ∀ x ∈ usablePages k.entries, P (pageNumber addr) (x ||| Boot.bitmapFlags)) :
    Filling k P vs' ∧ Keeps k vs vs' ∧ vs'.flatMap k.d (pageNumber addr) &&& IA32_PG_P ≠ 0 := by
  have hv : vs.Valid k.d (.earlyMapBitmapPage addr) := h.early
  have hn := pageNumber_lt addr
  obtain ⟨xs, hok⟩ := h.good.early h.early
  obtain ⟨b, e, hb⟩ := Option.map_eq_some_iff.mp he
  obtain ⟨xs', ht, -, hin⟩ := hok.earlyMapBitmapPage e
  have hout : ∀ m < 2 ^ 36, m ≠ pageNumber addr → vs'.flatMap k.d m = vs.flatMap k.d m := by
    intro m hm hne
    rw [← hb]
    exact ht.leaf m hm hne
  have hreach := h.reach.next ⟨_, hv, he⟩
  have hl : vs'.handedOver = false := hb ▸ h.early
  rcases hin with ⟨hp, heq⟩ | ⟨x, hx, -, hp, heq⟩
  · have heq : vs'.flatMap k.d (pageNumber addr) = vs.flatMap k.d (pageNumber addr) := by
      rw [← hb]
      exact heq
    have hsame : ∀ m < 2 ^ 36, vs'.flatMap k.d m = vs.flatMap k.d m := by
      intro m hm
      by_cases hma : m = pageNumber addr
      · rw [hma, heq]
      · exact hout m hm hma
    refine ⟨⟨hreach, hl, fun m hm hne => ?_⟩, fun m hm _ => hsame m hm, by rwa [heq]⟩
    rw [hsame m hm] at hne ⊢
    exact h.entry m hm hne
  · have heq : vs'.flatMap k.d (pageNumber addr) = x ||| Boot.bitmapFlags := by
      rw [← hb]
      exact heq
    -- an entry that is not present is empty
    have hzero : vs.flatMap k.d (pageNumber addr) = 0 := by
      by_contra hne
      exact h.present _ hn hne hp
    refine ⟨⟨hreach, hl, fun m hm hne => ?_⟩, fun m hm hne => hout m hm ?_, ?_⟩
    · by_cases hma : m = pageNumber addr
      · rw [hma, heq]
        exact hP x hx
      · rw [hout m hm hma] at hne ⊢
        exact h.entry m hm hne
    · rintro rfl
      exact hne hzero
    · rw [heq]
      exact present_or (Or.inr (by decide))

/-- `early_map_vmar` for a section of the kernel. -/
theorem earlyMapVmar {bitmap : ℕ} (h : Filling k (EarlyEntry img bitmap) vs) (s : KernelSection)
    (hb : v.base (img.mapping s) = img.sectionStart s)
    (hc : v.pageCount (img.mapping s) = img.pageCount s)
    (he : vs.earlyMapVmar k img v (img.mapping s) s.perms = some vs') :
    Filling k (EarlyEntry img bitmap) vs' ∧ Keeps k vs vs' ∧
      ∀ i < img.pageCount s,
        vs'.flatMap k.d (pageNumber (pageAddr (img.sectionStart s) i)) ≠ 0 := by
  rw [VirtState.earlyMapVmar, hb, hc] at he
  refine h.earlyMap (Nat.mod_lt _ (by norm_num)) he fun i hi => ?_
  have hphys : (sub64 (img.sectionStart s) img.virtBase + img.physBase) % 2 ^ 64 + i * PAGE_SIZE ≡
      img.pagesBefore s * PAGE_SIZE + img.physBase + i * PAGE_SIZE [MOD 2 ^ 64] := by
    refine Nat.ModEq.add_right _ ((Nat.mod_modEq _ _).trans (Nat.ModEq.add_right _ ?_))
    rw [sub64, KernelImage.sectionStart, show img.virtBase + img.pagesBefore s * PAGE_SIZE + 2 ^ 64 -
      img.virtBase = img.pagesBefore s * PAGE_SIZE + 2 ^ 64 by omega, Nat.add_mod_right]
    exact Nat.mod_modEq _ _
  rw [hphys]
  exact .kernel s i hi

end Filling

/-- `early_map_kernel`. -/
theorem Filling.earlyMapKernel {bitmap : ℕ} (h : Filling k (EarlyEntry img bitmap) vs)
    (hb : ∀ s, v.base (img.mapping s) = img.sectionStart s)
    (hc : ∀ s, v.pageCount (img.mapping s) = img.pageCount s)
    (he : vs.earlyMapKernel k img v = some vs') :
    Filling k (EarlyEntry img bitmap) vs' ∧ Keeps k vs vs' := by
  refine foldlM_invariant (I := fun _ vs' => Filling k (EarlyEntry img bitmap) vs' ∧
    Keeps k vs vs') ⟨h, .refl k vs⟩ (fun s _ _ _ vs1 vs2 h1 e => ?_) he
  obtain ⟨h2, hk2, -⟩ := h1.1.earlyMapVmar s (hb s) (hc s) e
  exact ⟨h2, h1.2.trans hk2⟩

/-- The pages of an entry in the direct map. -/
def DirectMapped (k : Kernel) (vs : VirtState) (e : MemmapEntry) : Prop :=
  ∀ i < e.length / PAGE_SIZE,
    vs.flatMap k.d (pageNumber (pageAddr (k.d.physToDirect e.base) i)) ≠ 0

theorem Keeps.directMapped (h : Keeps k vs vs') (hd : DirectMapped k vs e) :
    DirectMapped k vs' e := fun i hi => h.ne_zero (pageNumber_lt _) (hd i hi)

/-- The entries that are in the direct map end at its top. -/
theorem mapped_le (he : e ∈ k.entries) (hm : mapped e) :
    e.base + e.length ≤ k.d.pageCount * 4096 := by
  rw [k.hasDirectMap.pageCount_mul k.valid]
  exact k.valid.le_topAddress he hm

/-- `early_map_direct_map`. -/
theorem Filling.earlyMapDirectMap {bitmap : ℕ} (h : Filling k (EarlyEntry img bitmap) vs)
    (he : vs.earlyMapDirectMap k = some vs') :
    Filling k (EarlyEntry img bitmap) vs' ∧ Keeps k vs vs' ∧
      ∀ e ∈ k.entries, mapped e → DirectMapped k vs' e := by
  have hall := foldlM_invariant (I := fun done vs' => Filling k (EarlyEntry img bitmap) vs' ∧
    Keeps k vs vs' ∧ ∀ e ∈ done, DirectMapped k vs' e) ⟨h, .refl k vs, by simp⟩
    (fun e rest done heq vs1 vs2 h1 ex => ?_) he
  · exact ⟨hall.1, hall.2.1, fun e he hm => hall.2.2 e (List.mem_filter.mpr ⟨he, hm⟩)⟩
  obtain ⟨hf, hk1, hd⟩ := h1
  obtain ⟨hmem, hm⟩ := List.mem_filter.mp (heq ▸ List.mem_append_right _ List.mem_cons_self)
  have hle := mapped_le hmem hm
  have htop := k.d.top
  have hbase := k.d.base_pos
  obtain ⟨h2, hk2, hd2⟩ := hf.earlyMap (by omega) ex fun i hi => by
    have hi' : i * PAGE_SIZE ≤ e.length :=
      (Nat.mul_le_mul_right _ hi.le).trans (Nat.div_mul_le_self _ _)
    rw [Nat.mod_eq_of_lt (by omega)]
    exact .direct e i hmem hm hi
  refine ⟨h2, hk1.trans hk2, fun u hu => ?_⟩
  rcases List.mem_append.mp hu with hu | hu
  · exact hk2.directMapped (hd u hu)
  · rw [List.mem_singleton.mp hu]
    exact hd2

end VirtState

/-- A page of the bitmap is for a block of the largest size. -/
theorem bitmapStart_eq (e : MemmapEntry) : bitmapStart e = e.base / 2 ^ 21 * 4096 := by
  have hmax : PHYS_BUDDY_MAX_SIZE = 2 ^ 21 := by decide
  have hsize : PAGE_SIZE = 4096 := rfl
  have hmin : PHYS_BUDDY_MIN_ORDER = 6 := rfl
  simp only [bitmapStart, alignDown, Nat.shiftRight_eq_div_pow, hmax, hsize, hmin]
  omega

theorem bitmapEnd_eq (e : MemmapEntry) :
    bitmapEnd e = (e.base + e.length + (2 ^ 21 - 1)) / 2 ^ 21 * 4096 := by
  have hmax : PHYS_BUDDY_MAX_SIZE = 2 ^ 21 := by decide
  have hsize : PAGE_SIZE = 4096 := rfl
  have hmin : PHYS_BUDDY_MIN_ORDER = 6 := rfl
  simp only [bitmapEnd, alignUp, divRoundUp, Nat.shiftRight_eq_div_pow, hmax, hsize, hmin]
  omega

theorem bitmapPageCount_eq (d : DirectMap) : bitmapPageCount d = (d.pageCount + 511) / 512 := by
  have hmax : PHYS_BUDDY_MAX_SIZE = 2 ^ 21 := by decide
  have hsize : PAGE_SIZE = 4096 := rfl
  have hmin : PHYS_BUDDY_MIN_ORDER = 6 := rfl
  simp only [bitmapPageCount, alignUp, divRoundUp, Nat.shiftRight_eq_div_pow, hmax, hsize, hmin]
  omega

/-- The part of the bitmap for an entry ends inside the bitmap. -/
theorem bitmapEnd_le (he : e ∈ k.entries) (hm : mapped e) :
    bitmapEnd e ≤ bitmapPageCount k.d * 4096 := by
  have hle := VirtState.mapped_le he hm
  rw [bitmapEnd_eq, bitmapPageCount_eq]
  omega

theorem bitmapPageCount_lt (d : DirectMap) : bitmapPageCount d * 4096 < 2 ^ 64 := by
  have htop := d.top
  rw [bitmapPageCount_eq]
  omega

/-- What is kept by every round of a loop over pages. -/
theorem forPages_invariant {σ : Type*} {F : ℕ → σ → Option σ} {I : ℕ → σ → Prop} {x y : σ}
    (h0 : I 0 x)
    (hstep : ∀ i < n, ∀ x y, I i x → F (pageAddr base i) x = some y → I (i + 1) y)
    (he : forPages base F n x = some y) : I n y := by
  induction n generalizing y with
  | zero =>
    obtain rfl := Option.some.inj he
    exact h0
  | succ n ih =>
    obtain ⟨z, hz, he⟩ := Option.bind_eq_some_iff.mp he
    exact hstep n (Nat.lt_succ_self n) z y (ih (fun i hi => hstep i (by omega)) hz) he

namespace VirtState

/-- The pages of the bitmap for an entry of the memory map are present. -/
def BitmapMapped (k : Kernel) (base : ℕ) (vs : VirtState) (e : MemmapEntry) : Prop :=
  ∀ i, bitmapStart e ≤ i * PAGE_SIZE → i * PAGE_SIZE < bitmapEnd e →
    vs.flatMap k.d (pageNumber (pageAddr base i)) &&& IA32_PG_P ≠ 0

theorem Keeps.bitmapMapped (h : Keeps k vs vs') (hb : BitmapMapped k base vs e) :
    BitmapMapped k base vs' e := by
  intro i h1 h2
  have hp := hb i h1 h2
  rwa [h _ (pageNumber_lt _) fun h0 => hp (by rw [h0, Nat.zero_and])]

/-- The inner loop of `early_create_buddy_bitmap` maps the pages of the bitmap for an entry,
unless the end of the bitmap wraps around. -/
theorem Filling.earlyMapBitmap (h : Filling k (EarlyEntry img base) vs) (he : e ∈ k.entries)
    (hm : mapped e) (ex : vs.earlyMapBitmap k base e = some vs') :
    Filling k (EarlyEntry img base) vs' ∧ Keeps k vs vs' ∧
      (base + bitmapEnd e < 2 ^ 64 → BitmapMapped k base vs' e) := by
  have hend := bitmapEnd_le he hm
  have hsize : PAGE_SIZE = 4096 := rfl
  obtain ⟨a, ha⟩ : ∃ a, bitmapStart e = a * 4096 := ⟨_, bitmapStart_eq e⟩
  obtain ⟨b, hb⟩ : ∃ b, bitmapEnd e = b * 4096 := ⟨_, bitmapEnd_eq e⟩
  have hcount := bitmapPageCount_lt k.d
  have hab : a ≤ b := by
    rw [bitmapStart_eq] at ha
    rw [bitmapEnd_eq] at hb
    omega
  obtain ⟨ptr, hptr⟩ : ∃ ptr, ptr = (base + bitmapStart e) % 2 ^ 64 := ⟨_, rfl⟩
  obtain ⟨n, hn⟩ : ∃ n, n = divRoundUp ((base + bitmapEnd e) % 2 ^ 64 - ptr) PAGE_SIZE := ⟨_, rfl⟩
  have hpage : ∀ i, pageNumber (pageAddr ptr i) = pageNumber (pageAddr base (a + i)) := by
    intro i
    rw [pageNumber_pageAddr, pageNumber_pageAddr, hptr, ha]
    omega
  have hlt : ∀ i < n, a + i < bitmapPageCount k.d := by
    intro i hi
    rw [hn, divRoundUp, hptr, ha, hb, hsize] at hi
    rw [hb] at hend
    omega
  have hall := forPages_invariant (I := fun i vs' => Filling k (EarlyEntry img base) vs' ∧
    Keeps k vs vs' ∧ ∀ j < i,
      vs'.flatMap k.d (pageNumber (pageAddr base (a + j))) &&& IA32_PG_P ≠ 0)
    ⟨h, .refl k vs, by simp⟩ (fun i hi x y hx ey => ?_) ex
  · refine ⟨hall.1, hall.2.1, fun hno i h1 h2 => ?_⟩
    rw [ha, hsize] at h1
    rw [hb, hsize] at h2
    have hi := hall.2.2 (i - a) ?_
    · rwa [show a + (i - a) = i by omega] at hi
    · rw [divRoundUp, ha, hb, hsize]
      rw [hb] at hno
      omega
  obtain ⟨hf, hk, hp⟩ := hx
  rw [← hptr, ← hn] at hi
  rw [← hptr] at ey
  obtain ⟨hf', hk', hp'⟩ := hf.earlyMapBitmapPage ey fun x hx => by
    rw [hpage]
    exact .bitmap _ x (hlt i hi) hx
  refine ⟨hf', hk.trans hk', fun j hj => ?_⟩
  rcases Nat.lt_succ_iff_lt_or_eq.mp hj with hj | rfl
  · have hne : x.flatMap k.d (pageNumber (pageAddr base (a + j))) ≠ 0 := fun h0 =>
      hp j hj (by rw [h0, Nat.zero_and])
    rw [hk' _ (pageNumber_lt _) hne]
    exact hp j hj
  · rwa [← hpage]

end VirtState

end Tomato
