import Tomato.Mem.Vmar.Entries

/-!
# Page faults

`vmar_find_mapping` gives the only mapping with the address, locked and with one more
reference. The page fault handler populates one page of it, and gives it back.
-/

namespace Tomato

open RbTree Ranges Forest Transition Blocks Vmars

namespace Vmars

/-- A mapping that was looked up: it is locked, and has one more reference. -/
def found (v : Vmars) (m : ℕ) : Vmars :=
  { v.objectGet m with pageTableLock := Function.update v.pageTableLock m true }

/-- The range of a vmar, in bytes. -/
def Contains (v : Vmars) (m address : ℕ) : Prop :=
  v.base m ≤ address ∧ address < v.base m + v.pageCount m * PAGE_SIZE

theorem contains_iff {v : Vmars} {m address : ℕ} (hb : 4096 ∣ v.base m) :
    v.Contains m address ↔ address / 4096 ∈ v.pages m := by
  rw [Contains, pages, Set.mem_Ico, pageEnd, vmarFirstPage_eq, show PAGE_SIZE = 4096 from rfl]
  omega

/-- More rounds do not matter. -/
theorem vmarFindLeaf_mono {v : Vmars} {address fuel m root : ℕ} {res : Option ℕ}
    (h : v.vmarFindLeaf address fuel root = some res) (hm : fuel ≤ m) :
    v.vmarFindLeaf address m root = some res := by
  induction fuel generalizing m root with
  | zero => simp [vmarFindLeaf] at h
  | succ fuel ih =>
    obtain ⟨m, rfl⟩ : ∃ j, m = j + 1 := ⟨m - 1, by omega⟩
    rw [vmarFindLeaf, Option.bind_eq_bind] at h ⊢
    obtain ⟨o, e, h⟩ := Option.bind_eq_some_iff.mp h
    rw [e, Option.bind_some]
    cases o with
    | none => exact h
    | some x =>
      by_cases hx : v.kind x = .region
      · simp only [hx, if_true] at h ⊢
        exact ih h (by omega)
      · simpa only [hx, if_false] using h

theorem vmarFindMapping_mono {v v' : Vmars} {address fuel m root : ℕ} {res : Option ℕ}
    (h : v.vmarFindMapping fuel root address = some (res, v')) (hm : fuel ≤ m) :
    v.vmarFindMapping m root address = some (res, v') := by
  rw [vmarFindMapping, Option.bind_eq_bind] at h ⊢
  obtain ⟨o, e, h⟩ := Option.bind_eq_some_iff.mp h
  rw [vmarFindLeaf_mono e hm, Option.bind_some]
  exact h

end Vmars

namespace Vmm

variable {k : Kernel} {s s' : Vmm} {f : ℕ → ℕ} {x m n fuel root address errorCode : ℕ}

namespace Ok

/-- A mapping below a region is an object in the tree. -/
theorem linked_of_below (h : s.Ok k f) (hb : Below s.vmars.parent m root)
    (hr : s.vmars.kind root = .region) (hm : s.vmars.kind m = .mapping) :
    s.vmars.parent m ≠ none ∧ m ∈ s.run.live := by
  have hp : s.vmars.parent m ≠ none := by
    rcases Relation.ReflTransGen.cases_head hb with rfl | ⟨p, hp, -⟩
    · simp [hr] at hm
    · simp [hp]
  exact ⟨hp, h.mem_live hp (by simp [hm])⟩

theorem contains_iff (h : s.Ok k f) (hp : s.vmars.parent m ≠ none) :
    s.vmars.Contains m address ↔ address / 4096 ∈ s.vmars.pages m :=
  Vmars.contains_iff (h.tree.bound m (Or.inr hp)).2

/-- The search ends. It finds the mapping with the address if there is one. -/
theorem vmarFindMapping (h : s.Ok k f) (hr : s.vmars.kind root = .region) (address : ℕ) :
    ∃ n, (∃ m, (∀ fuel, n < fuel →
        s.vmars.vmarFindMapping fuel root address = some (some m, s.vmars.found m)) ∧
        Below s.vmars.parent m root ∧ s.vmars.kind m = .mapping ∧ s.vmars.Contains m address ∧
        ∀ x, Below s.vmars.parent x root → s.vmars.kind x = .mapping →
          s.vmars.Contains x address → x = m) ∨
      ((∀ fuel, n < fuel → s.vmars.vmarFindMapping fuel root address = some (none, s.vmars)) ∧
        ∀ m, Below s.vmars.parent m root → s.vmars.kind m = .mapping →
          ¬ s.vmars.Contains m address) := by
  obtain ⟨rank, hrank⟩ := h.tree.ranked
  obtain ⟨res, hres, hleaf⟩ : ∃ res, (∀ fuel, rank root < fuel →
      s.vmars.vmarFindLeaf address fuel root = some res) ∧
      LeafAt s.vmars root address res := h.tree.vmarFindLeaf hrank hr
  have hpages : ∀ m, Below s.vmars.parent m root → s.vmars.kind m = .mapping →
      s.vmars.Contains m address → address / 4096 ∈ s.vmars.pages m := fun m hb hm hc =>
    (h.contains_iff (h.linked_of_below hb hr hm).1).mp hc
  refine ⟨rank root, ?_⟩
  cases res with
  | none =>
    refine Or.inr ⟨fun fuel hfuel => ?_, fun m hb hm hc => ?_⟩
    · simp [Vmars.vmarFindMapping, hres fuel hfuel]
    · exact hleaf m hb (by simp [hm]) (hpages m hb hm hc)
  | some y =>
    obtain ⟨hb, hk, hp⟩ := hleaf
    have huniq : ∀ m, Below s.vmars.parent m root → s.vmars.kind m = .mapping →
        s.vmars.Contains m address → m = y := fun m hbm hm hc =>
      h.tree.leaf_unique hbm hb (by simp [hm]) hk (hpages m hbm hm hc) hp
    by_cases hm : s.vmars.kind y = .mapping
    · refine Or.inl ⟨y, fun fuel hfuel => ?_, hb, hm, ?_, huniq⟩
      · have hlock : (s.vmars.objectGet y).lockPageTable y = some (s.vmars.found y) := by
          rw [Vmars.lockPageTable, if_neg (by simp [Vmars.objectGet, h.unlocked y])]
          rfl
        simp [Vmars.vmarFindMapping, hres fuel hfuel, hm, hlock]
      · exact (h.contains_iff (h.linked_of_below hb hr hm).1).mpr hp
    · refine Or.inr ⟨fun fuel hfuel => ?_, fun m hbm hkm hc => hm ?_⟩
      · simp [Vmars.vmarFindMapping, hres fuel hfuel, hm]
      · exact huniq m hbm hkm hc ▸ hkm

/-- With any number of rounds that is enough. -/
theorem vmarFindMapping_eq {o : Option ℕ} {v : Vmars} (h : s.Ok k f)
    (hr : s.vmars.kind root = .region)
    (he : s.vmars.vmarFindMapping fuel root address = some (o, v)) :
    (o = none ∧ v = s.vmars) ∨
      ∃ m, o = some m ∧ v = s.vmars.found m ∧ m ∈ s.run.live := by
  obtain ⟨n, hfind⟩ := h.vmarFindMapping hr address
  have he' := vmarFindMapping_mono he (Nat.le_max_left fuel (n + 1))
  have hlt : n < max fuel (n + 1) :=
    lt_of_lt_of_le (Nat.lt_succ_self n) (Nat.le_max_right fuel (n + 1))
  rcases hfind with ⟨m, hfind, hb, hk, -⟩ | ⟨hfind, -⟩
  · obtain ⟨rfl, rfl⟩ := Prod.mk.inj (Option.some.inj (he'.symm.trans (hfind _ hlt)))
    exact Or.inr ⟨m, rfl, rfl, (h.linked_of_below hb hr hk).2⟩
  · obtain ⟨rfl, rfl⟩ := Prod.mk.inj (Option.some.inj (he'.symm.trans (hfind _ hlt)))
    exact Or.inl ⟨rfl, rfl⟩

/-- A mapping that was looked up is unlocked. -/
theorem unlock_found (h : s.Ok k f) (m : ℕ) :
    (s.vmars.found m).unlockPageTable m = s.vmars.objectGet m := by
  simp only [Vmars.found, unlockPageTable, Function.update_idem]
  rw [Function.update_eq_self_iff.mpr (h.unlocked m).symm]
  rfl

/-- The mapping is given back. -/
theorem leaveFault (h : s.Ok k f) (hm : m ∈ s.run.live) (err : Except TomatoErr Unit) :
    (s.setVmars (s.vmars.found m)).leaveFault k m (.returned err) = some (.returned err, s) := by
  have hun := h.unlock_found m
  have hpos := h.used m hm
  have hdrop : (s.vmars.objectGet m).dropRef m = s.vmars := by
    simp [Vmars.dropRef, Vmars.objectGet]
  have href : (s.vmars.objectGet m).refCount m = s.vmars.refCount m + 1 := by
    simp [Vmars.objectGet]
  have hput : (s.setVmars (s.vmars.objectGet m)).objectPut k m = some s := by
    simp only [Vmm.objectPut, setVmars, href, hdrop]
    rw [if_neg (by omega), if_neg (by omega)]
  simp only [Vmm.leaveFault, setVmars, hun]
  rw [show (⟨s.run, s.vmars.objectGet m⟩ : Vmm) = s.setVmars (s.vmars.objectGet m) from rfl, hput,
    Option.map_some]

end Ok

/-- What is left of the state when the handler stops, with the mapping it has found. -/
def FaultKilled (s s' : Vmm) : Prop :=
  s' = s ∨ ∃ m, s' = s.setVmars (s.vmars.found m)

/-- One page of the mapping `m` got a frame, or had one. -/
structure FaultDone (k : Kernel) (s : Vmm) (vs : VirtState) (m address errorCode : ℕ) : Prop where
  bits : errorCode &&& (IA32_PF_EC_USER ||| IA32_PF_EC_WRITE ||| IA32_PF_EC_PROT |||
    IA32_PF_EC_INSTR) = errorCode
  prot : errorCode &&& IA32_PF_EC_PROT = 0
  instr : errorCode &&& IA32_PF_EC_INSTR = 0
  below : Below s.vmars.parent m (s.faultRoot k address errorCode)
  kind : s.vmars.kind m = .mapping
  contains : s.vmars.Contains m address
  exec : s.virt.exec k.d k.entries (.populate address 1 (s.vmars.locked m)) = some vs

theorem checkKillFailed_cases (errorCode : ℕ) :
    (errorCode &&& IA32_PF_EC_USER ≠ 0 ∧ checkKillFailed errorCode = .killed) ∨
      checkKillFailed errorCode = .returned (.error .internalError) := by
  rw [checkKillFailed]
  split
  · exact Or.inl ⟨‹_›, rfl⟩
  · exact Or.inr rfl

theorem Ok.kind_faultRoot (h : s.Ok k f) (address errorCode : ℕ) :
    s.vmars.kind (s.faultRoot k address errorCode) = .region := by
  rw [faultRoot]
  split
  · exact (h.tree.root _ (Or.inr rfl)).2
  · exact (h.tree.root _ (Or.inl rfl)).2

/-- The only page of a fault. -/
theorem rangeOf_one (address : ℕ) : rangeOf address 1 = {pageNumber address} := by
  ext n
  simp only [rangeOf, Set.mem_ofPred_eq, Set.mem_singleton_iff]
  constructor
  · rintro ⟨i, hi, rfl⟩
    obtain rfl : i = 0 := by omega
    rw [pageNumber_pageAddr]
    rfl
  · rintro rfl
    exact ⟨0, Nat.one_pos, by rw [pageNumber_pageAddr]; rfl⟩

theorem pageNumber_mem (h : address / 4096 ∈ s.vmars.pages m) :
    pageNumber address ∈ s.vmars.pageNumbers m := ⟨_, h, rfl⟩

/-- The handler always comes to an end, and in one of three ways. -/
theorem Ok.virtPageFaultHandler (h : s.Ok k f) (hpg : s.PagesOk k) (address errorCode : ℕ) :
    ∃ n res s', (∀ fuel, n < fuel →
        s.virtPageFaultHandler k fuel address errorCode = some (res, s')) ∧
      ((∃ m vs, res = .returned (.ok ()) ∧ s' = s.setVirt vs ∧ s'.Ok k f ∧ s'.PagesOk k ∧
          FaultDone k s vs m address errorCode) ∨
        (∃ e, res = .returned (.error e) ∧ s' = s) ∨
        (res = .killed ∧ errorCode &&& IA32_PF_EC_USER ≠ 0 ∧ FaultKilled s s')) := by
  by_cases hbits : errorCode &&& (IA32_PF_EC_USER ||| IA32_PF_EC_WRITE ||| IA32_PF_EC_PROT |||
    IA32_PF_EC_INSTR) = errorCode
  swap
  · refine ⟨0, .returned (.error .internalError), s, fun fuel _ => ?_, Or.inr (Or.inl ⟨_, rfl, rfl⟩)⟩
    rw [Vmm.virtPageFaultHandler, if_pos hbits]
  have hr := h.kind_faultRoot address errorCode
  obtain ⟨n, hfind⟩ := h.vmarFindMapping hr address
  rcases hfind with ⟨m, hfind, hb, hk, hc, -⟩ | ⟨hfind, -⟩
  swap
  · -- nothing is mapped there
    refine ⟨n, checkKillFailed errorCode, s, fun fuel hfuel => ?_, ?_⟩
    · rw [Vmm.virtPageFaultHandler, if_neg (not_not.mpr hbits), hfind fuel hfuel]
      rfl
    · rcases checkKillFailed_cases errorCode with ⟨hu, e⟩ | e
      · exact Or.inr (Or.inr ⟨e, hu, Or.inl rfl⟩)
      · exact Or.inr (Or.inl ⟨_, e, rfl⟩)
  obtain ⟨hp, hlive⟩ := h.linked_of_below hb hr hk
  -- the mapping is given back, or the thread is killed with it
  have hfail : ∃ res s', (s.setVmars (s.vmars.found m)).leaveFault k m
      (checkKillFailed errorCode) = some (res, s') ∧
      ((∃ e, res = .returned (.error e) ∧ s' = s) ∨
        (res = .killed ∧ errorCode &&& IA32_PF_EC_USER ≠ 0 ∧ FaultKilled s s')) := by
    rcases checkKillFailed_cases errorCode with ⟨hu, e⟩ | e
    · exact ⟨.killed, _, by rw [e]; rfl, Or.inr ⟨rfl, hu, Or.inr ⟨m, rfl⟩⟩⟩
    · exact ⟨_, s, by rw [e, h.leaveFault hlive], Or.inl ⟨_, rfl, rfl⟩⟩
  obtain ⟨res, s', hleave, hres⟩ := hfail
  by_cases hprot : errorCode &&& IA32_PF_EC_PROT = 0
  swap
  · refine ⟨n, res, s', fun fuel hfuel => ?_, Or.inr hres⟩
    rw [Vmm.virtPageFaultHandler, if_neg (not_not.mpr hbits), hfind fuel hfuel]
    simp only [Option.bind_eq_bind, Option.bind_some, hprot, ne_eq, not_false_eq_true, if_true,
      hleave]
  by_cases hinstr : errorCode &&& IA32_PF_EC_INSTR = 0
  swap
  · refine ⟨n, res, s', fun fuel hfuel => ?_, Or.inr hres⟩
    rw [Vmm.virtPageFaultHandler, if_neg (not_not.mpr hbits), hfind fuel hfuel]
    simp only [Option.bind_eq_bind, Option.bind_some, hprot, hinstr, ne_eq, not_true_eq_false,
      not_false_eq_true, if_true, if_false, hleave]
  have hpage : rangeOf address 1 ⊆ s.vmars.pageNumbers m := by
    rw [rangeOf_one, Set.singleton_subset_iff]
    exact pageNumber_mem ((h.contains_iff hp).mp hc)
  obtain ⟨vs, e, hok, hpg', -⟩ := hpg.populate h hp hk (by norm_num) hpage
  have hvs : s.virt.exec k.d k.entries (.populate address 1 (s.vmars.locked m)) = some vs := by
    obtain ⟨w, ew, hw⟩ := Option.map_eq_some_iff.mp e
    rw [ew, show w = vs from congrArg Vmm.virt hw]
  refine ⟨n, .returned (.ok ()), s.setVirt vs, fun fuel hfuel => ?_,
    Or.inl ⟨m, vs, rfl, rfl, hok, hpg', hbits, hprot, hinstr, hb, hk, hc, hvs⟩⟩
  have hexec : (s.setVmars (s.vmars.found m)).execVirt k
      (.populate address 1 ((s.vmars.found m).locked m)) =
      some ((s.setVirt vs).setVmars ((s.setVirt vs).vmars.found m)) := by
    rw [execVirt_setVmars, show (s.vmars.found m).locked m = s.vmars.locked m from rfl, e]
    rfl
  rw [Vmm.virtPageFaultHandler, if_neg (not_not.mpr hbits), hfind fuel hfuel]
  simp only [Option.bind_eq_bind, Option.bind_some, hprot, hinstr, ne_eq, not_true_eq_false,
    if_false, hexec]
  exact hok.leaveFault hlive _

/-- More rounds do not matter to the handler. -/
theorem virtPageFaultHandler_mono {res : FaultResult}
    (he : s.virtPageFaultHandler k fuel address errorCode = some (res, s')) (hn : fuel ≤ n) :
    s.virtPageFaultHandler k n address errorCode = some (res, s') := by
  rw [Vmm.virtPageFaultHandler] at he ⊢
  split at he
  · rw [if_pos ‹_›]
    exact he
  · rw [if_neg ‹_›]
    rw [Option.bind_eq_bind] at he ⊢
    obtain ⟨⟨o, v⟩, e, he⟩ := Option.bind_eq_some_iff.mp he
    rw [vmarFindMapping_mono e hn, Option.bind_some]
    exact he

/-- All the pages of a mapping get frames, or nothing changes. -/
theorem Ok.vmarPopulate (h : s.Ok k f) (hpg : s.PagesOk k) (hx : s.Known k x) :
    ∃ res s', s.vmarPopulate k x = some (res, s') ∧ s'.Ok k f ∧ s'.PagesOk k ∧
      ((∃ e, res = .error e ∧ s' = s) ∨
        ∃ vs, res = .ok () ∧ s' = s.setVirt vs ∧ s.vmars.parent x ≠ none ∧
          s.vmars.kind x = .mapping ∧ s.virt.exec k.d k.entries
            (.populate (s.vmars.base x) (s.vmars.pageCount x) (s.vmars.locked x)) = some vs) := by
  by_cases hk : s.vmars.kind x = .mapping
  swap
  · exact ⟨.error .invalidArgument, s, by rw [Vmm.vmarPopulate, if_pos hk], h, hpg,
      Or.inl ⟨_, rfl, rfl⟩⟩
  obtain ⟨v, ev, hb, hc, hl, hu, hun, hexec⟩ := h.locked_exec x
  by_cases hunm : s.vmars.unmapped x = true
  · refine ⟨.error .internalError, s, ?_, h, hpg, Or.inl ⟨_, rfl, rfl⟩⟩
    rw [Vmm.vmarPopulate, if_neg (not_not.mpr hk), ev]
    simp only [Option.bind_eq_bind, Option.bind_some, hu, hunm, if_true, hun]
    rfl
  have hp : s.vmars.parent x ≠ none := by
    refine (h.inTree hx (by simpa using hunm)).resolve_left fun hr => ?_
    simp [(h.tree.root x hr).2] at hk
  have hlen := h.pageCount_le hp
  obtain ⟨vs, e, hok, hpg', -⟩ := hpg.populate h hp hk
    (show s.vmars.pageCount x ≤ 2 ^ 36 by omega) (rangeOf_eq s.vmars x).le
  have hvs : s.virt.exec k.d k.entries (.populate (s.vmars.base x) (s.vmars.pageCount x)
      (s.vmars.locked x)) = some vs := by
    obtain ⟨w, ew, hw⟩ := Option.map_eq_some_iff.mp e
    rw [ew, show w = vs from congrArg Vmm.virt hw]
  refine ⟨.ok (), s.setVirt vs, ?_, hok, hpg', Or.inr ⟨vs, rfl, rfl, hp, hk, hvs⟩⟩
  have he := (hexec _).trans e
  obtain ⟨s2, e2, hs2⟩ := Option.map_eq_some_iff.mp he
  rw [Vmm.vmarPopulate, if_neg (not_not.mpr hk), ev]
  simp only [Option.bind_eq_bind, Option.bind_some, hu, hunm, Bool.false_eq_true, if_false, hb, hc,
    hl, e2, hs2]

end Vmm

end Tomato
