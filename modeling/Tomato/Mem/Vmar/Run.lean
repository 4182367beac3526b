import Tomato.Mem.Vmar.Fault
import Tomato.Mem.Vmar.Grow
import Tomato.Mem.Vmar.Lock

/-!
# Runs of the virtual memory

All the calls on vmars, the page faults, and what the other clients of the allocators do, in
any order. A caller hands in vmars that it knows, and puts only the handles it has. In every
reachable state the objects, the tree and the pages are right.
-/

namespace Tomato

open RbTree Ranges Forest Transition Blocks Vmars

/-- What `slab_create` of another type does to the memory. -/
def VirtState.newSlab (d : DirectMap) (entries : Memmap) (vs : VirtState) : Option VirtState := do
  let (slab, vs) ← vs.physAlloc d PAGE_SIZE
  match slab with
  | none => some vs
  | some slab => vs.exec d entries (.makeGlobal slab 1)

/-- The state of the virtual memory, and how many handles the callers have for each object. -/
structure VmmRun where
  vmm : Vmm
  handles : ℕ → ℕ

inductive VmmCall
  | link (parent child : ℕ)
  | allocateStatic (parent child offset pageCount : ℕ)
  | allocate (parent offset pageCount : ℕ)
  | map (parent offset pageCount : ℕ)
  | populate (vmar : ℕ)
  | lock (vmar : ℕ)
  | unmap (vmar : ℕ)
  | findMapping (root address : ℕ)
  | get (vmar : ℕ)
  | put (vmar : ℕ)
  | pageFault (address errorCode : ℕ)
  | newSlab
  | client (c : Call)

namespace VmmRun

variable (k : Kernel) (r : VmmRun)

/-- One more handle for a vmar. -/
def hold (vmar : ℕ) : ℕ → ℕ := Function.update r.handles vmar (r.handles vmar + 1)

/-- The handle that `vmar_allocate` and `vmar_map` return. -/
def holdNew : Except TomatoErr ℕ → ℕ → ℕ
  | .ok child => r.hold child
  | .error _ => r.handles

/-- A call, with so many levels and rounds for the loops. A handler that stops has no next
state. The caller of `vmar_find_mapping` unlocks the mapping and keeps the handle. -/
def exec (fuel : ℕ) : VmmCall → Option VmmRun
  | .link parent child => (r.vmm.vmars.vmarLink parent child).map fun v =>
      { r with vmm := r.vmm.setVmars v }
  | .allocateStatic parent child offset pageCount =>
      (r.vmm.vmars.vmarAllocateStatic parent child offset pageCount).map fun (_, v) =>
        { r with vmm := r.vmm.setVmars v }
  | .allocate parent offset pageCount =>
      (r.vmm.vmarAllocate k parent offset pageCount).map fun (res, s) => ⟨s, r.holdNew res⟩
  | .map parent offset pageCount =>
      (r.vmm.vmarMap k parent offset pageCount).map fun (res, s) => ⟨s, r.holdNew res⟩
  | .populate vmar => (r.vmm.vmarPopulate k vmar).map fun (_, s) => { r with vmm := s }
  | .lock vmar => (r.vmm.vmarLock k fuel vmar).map fun s => { r with vmm := s }
  | .unmap vmar => (r.vmm.vmarUnmap k fuel vmar).map fun s => { r with vmm := s }
  | .findMapping root address =>
      (r.vmm.vmars.vmarFindMapping fuel root address).map fun
        | (none, v) => { r with vmm := r.vmm.setVmars v }
        | (some vmar, v) => ⟨r.vmm.setVmars (v.unlockPageTable vmar), r.hold vmar⟩
  | .get vmar => some ⟨r.vmm.setVmars (r.vmm.vmars.objectGet vmar), r.hold vmar⟩
  | .put vmar => (r.vmm.objectPut k vmar).map fun s =>
      ⟨s, Function.update r.handles vmar (r.handles vmar - 1)⟩
  | .pageFault address errorCode =>
      match r.vmm.virtPageFaultHandler k fuel address errorCode with
      | some (.returned _, s) => some { r with vmm := s }
      | _ => none
  | .newSlab => (r.vmm.virt.newSlab k.d k.entries).map fun vs => { r with vmm := r.vmm.setVirt vs }
  | .client c => (r.vmm.execVirt k (.client c)).map fun s => { r with vmm := s }

/-- A vmar in the data of the kernel that is not linked. -/
def Static (vmar : ℕ) : Prop :=
  vmar ∉ k.d.range ∧ vmar ∉ k.roots ∧ r.vmm.vmars.parent vmar = none ∧
    r.vmm.vmars.unmapped vmar = false

/-- When a call may be made. -/
def Valid : VmmCall → Prop
  | .link parent child => r.vmm.vmars.InTree k.roots parent ∧ r.Static k child ∧
      0 < r.vmm.vmars.pageCount child ∧ 4096 ∣ r.vmm.vmars.base child
  | .allocateStatic parent child _ _ => r.vmm.Known k parent ∧ r.Static k child
  | .allocate parent _ _ | .map parent _ _ => r.vmm.Known k parent
  | .populate vmar | .lock vmar => r.vmm.Known k vmar
  | .unmap vmar => r.vmm.Known k vmar
  | .findMapping root _ => r.vmm.vmars.kind root = .region
  | .get vmar | .put vmar => 0 < r.handles vmar
  | .pageFault _ _ | .newSlab => True
  | .client c => c.Plain ∧ r.vmm.run.Valid k.d (.other (.client c))

def Step (r r' : VmmRun) : Prop := ∃ fuel c, r.Valid k c ∧ r.exec k fuel c = some r'

/-- What holds in every reachable state. -/
structure Good : Prop where
  ok : r.vmm.Ok k r.handles
  pages : r.vmm.PagesOk k

variable {k r} {r' : VmmRun} {fuel : ℕ} {c : VmmCall}

theorem newSlab_slabPage {d : DirectMap} {entries : Memmap} {vs vs' : VirtState}
    (he : vs.newSlab d entries = some vs') : SlabPage d entries vs vs' := by
  obtain ⟨⟨p, vs1⟩, e1, he⟩ := Option.bind_eq_some_iff.mp he
  refine Or.inr ⟨p, vs1, e1, ?_⟩
  cases p with
  | none => exact (Option.some.inj he).symm
  | some slab => exact he

/-- The slabs of this type are right while another one takes a page. -/
theorem slabs_good {s : Vmm} {vs : VirtState}
    (hg : s.run.Good k.d k.entries k.alloc k.vmarType.allocMeta)
    (hp : SlabPage k.d k.entries s.virt vs) :
    (s.setVirt vs).run.Good k.d k.entries k.alloc k.vmarType.allocMeta := by
  rcases hp with rfl | ⟨p, vs1, e1, hp⟩
  · exact hg
  have h1 : (s.setVirt vs1).run.Good k.d k.entries k.alloc k.vmarType.allocMeta := by
    refine SlabRun.good_exec k.alloc_ok k.defineAlloc.ok hg
      (c := .other (.client (.alloc PAGE_SIZE))) ⟨⟨hg.1.handedOver, trivial, trivial⟩, by simp⟩ ?_
    obtain ⟨r, er, hr⟩ := Option.map_eq_some_iff.mp e1
    rw [SlabRun.exec, VirtState.exec, Clients.exec,
      show s.run.slabs.virt.boot.clients.phys.physAlloc k.d PAGE_SIZE = some r from er]
    obtain rfl := congrArg Prod.snd hr
    rfl
  cases p with
  | none => exact hp ▸ h1
  | some slab =>
    refine SlabRun.good_exec k.alloc_ok k.defineAlloc.ok h1 (c := .other (.makeGlobal slab 1))
      ⟨h1.1.handedOver, by simp⟩ ?_
    rw [SlabRun.exec, show (s.setVirt vs1).run.slabs.virt = vs1 from rfl, hp]
    rfl

/-- The handle of a new object. -/
theorem holdNew_ok {x : ℕ} (h : r.handles x = 0) :
    r.holdNew (.ok x) = Function.update r.handles x 1 := by
  rw [holdNew, hold, h]

theorem Good.handles_eq_zero {x : ℕ} (h : r.Good k) (hx : x ∉ r.vmm.run.live) :
    r.handles x = 0 := by
  by_contra hne
  exact hx (h.ok.held x hne)

theorem Good.kind_static {x : ℕ} (h : r.Good k) (hx : r.Static k x) :
    r.vmm.vmars.kind x = .special := h.ok.static x hx.1 hx.2.1

/-- Every call keeps the invariant. -/
theorem good_exec (h : r.Good k) (hv : r.Valid k c) (he : r.exec k fuel c = some r') :
    r'.Good k := by
  obtain ⟨hok, hpg⟩ := h
  have h : r.Good k := ⟨hok, hpg⟩
  cases c with
  | link parent child =>
    obtain ⟨hp, hs, hn, hd⟩ := hv
    obtain ⟨v, e, rfl⟩ := Option.map_eq_some_iff.mp he
    obtain ⟨hc, -, hp0, hu⟩ := id hs
    have hk := h.kind_static hs
    exact ⟨hok.vmarLink hc hk hp hp0 hu hn hd e, hpg.vmarLink hok hc hk hp hp0 hu hn hd e⟩
  | allocateStatic parent child offset n =>
    obtain ⟨hp, hs⟩ := hv
    obtain ⟨⟨res, v⟩, e, rfl⟩ := Option.map_eq_some_iff.mp he
    obtain ⟨hc, -, hp0, hu⟩ := id hs
    have hk := h.kind_static hs
    obtain ⟨res', v', e', hpg'⟩ := hpg.vmarAllocateStatic hok hc hk hp hp0 hu offset n
    obtain ⟨rfl, rfl⟩ := Prod.mk.inj (Option.some.inj (e'.symm.trans e))
    exact ⟨hok.vmarAllocateStatic hc hk hp hp0 hu e, hpg'⟩
  | allocate parent offset n =>
    obtain ⟨⟨res, s⟩, e, rfl⟩ := Option.map_eq_some_iff.mp he
    obtain ⟨res', s', e', hpg', -, -, hcase⟩ := hpg.vmarAllocate hok hv offset n
    obtain ⟨rfl, rfl⟩ := Prod.mk.inj (Option.some.inj (e'.symm.trans e))
    refine ⟨?_, hpg'⟩
    rcases hcase with ⟨e, rfl, hr⟩ | ⟨x, rfl, ha⟩
    · exact hr.ok
    · change s'.Ok k (r.holdNew (.ok x))
      rw [holdNew_ok (h.handles_eq_zero ha.new.2)]
      exact ha.ok
  | map parent offset n =>
    obtain ⟨⟨res, s⟩, e, rfl⟩ := Option.map_eq_some_iff.mp he
    obtain ⟨res', s', e', hpg', -, hcase⟩ := hpg.vmarMap hok hv offset n
    obtain ⟨rfl, rfl⟩ := Prod.mk.inj (Option.some.inj (e'.symm.trans e))
    refine ⟨?_, hpg'⟩
    rcases hcase with ⟨e, rfl, hr, -⟩ | ⟨x, rfl, ha, -⟩
    · exact hr.ok
    · change s'.Ok k (r.holdNew (.ok x))
      rw [holdNew_ok (h.handles_eq_zero ha.new.2)]
      exact ha.ok
  | populate x =>
    obtain ⟨⟨res, s⟩, e, rfl⟩ := Option.map_eq_some_iff.mp he
    obtain ⟨res', s', e', hok', hpg', -⟩ := hok.vmarPopulate hpg hv
    obtain ⟨rfl, rfl⟩ := Prod.mk.inj (Option.some.inj (e'.symm.trans e))
    exact ⟨hok', hpg'⟩
  | lock x =>
    obtain ⟨s, e, rfl⟩ := Option.map_eq_some_iff.mp he
    have hl := (hok.vmarLock hpg hv).1 fuel s e
    exact ⟨hl.ok, hl.pages⟩
  | unmap x =>
    obtain ⟨s, e, rfl⟩ := Option.map_eq_some_iff.mp he
    rcases (hok.vmarUnmap hpg).1 fuel s e with ⟨-, rfl⟩ | ⟨p, -, -, hok', hpg', -⟩
    · exact h
    · exact ⟨hok', hpg'⟩
  | findMapping root address =>
    obtain ⟨⟨o, v⟩, e, rfl⟩ := Option.map_eq_some_iff.mp he
    rcases hok.vmarFindMapping_eq hv e with ⟨rfl, rfl⟩ | ⟨m, rfl, rfl, hlive⟩
    · exact h
    · have hun := hok.unlock_found m
      refine ⟨?_, ?_⟩
      · change (r.vmm.setVmars ((r.vmm.vmars.found m).unlockPageTable m)).Ok k (r.hold m)
        rw [hun]
        exact hok.objectGet hlive
      · change (r.vmm.setVmars ((r.vmm.vmars.found m).unlockPageTable m)).PagesOk k
        rw [hun]
        exact hpg.congr_vmars rfl rfl (fun x hp hk hl => ⟨hp, hk, hl, rfl⟩)
          fun x hk hp => ⟨hk, hp, rfl⟩
  | get x =>
    obtain rfl := Option.some.inj he
    have hx : x ∈ r.vmm.run.live := hok.held x (Nat.pos_iff_ne_zero.mp hv)
    refine ⟨hok.objectGet hx, ?_⟩
    exact hpg.congr_vmars rfl rfl (fun x hp hk hl => ⟨hp, hk, hl, rfl⟩) fun x hk hp => ⟨hk, hp, rfl⟩
  | put x =>
    obtain ⟨s, e, rfl⟩ := Option.map_eq_some_iff.mp he
    obtain ⟨s', e', hok', -⟩ := hok.objectPut hv
    obtain rfl := Option.some.inj (e'.symm.trans e)
    exact ⟨hok', hpg.objectPut hok hv e⟩
  | pageFault address errorCode =>
    simp only [exec] at he
    split at he
    · rename_i err s e
      obtain rfl := Option.some.inj he
      obtain ⟨n, res, s', hrun, hcase⟩ := hok.virtPageFaultHandler hpg address errorCode
      have heq := (Vmm.virtPageFaultHandler_mono e (Nat.le_max_left fuel (n + 1))).symm.trans
        (hrun _ (lt_of_lt_of_le (Nat.lt_succ_self n) (Nat.le_max_right fuel (n + 1))))
      obtain ⟨rfl, rfl⟩ := Prod.mk.inj (Option.some.inj heq)
      rcases hcase with ⟨m, vs, -, rfl, hok', hpg', -⟩ | ⟨e, -, rfl⟩ | ⟨hc, -⟩
      · exact ⟨hok', hpg'⟩
      · exact h
      · simp at hc
    · simp at he
  | newSlab =>
    obtain ⟨vs, e, rfl⟩ := Option.map_eq_some_iff.mp he
    have hp := newSlab_slabPage e
    exact ⟨hok.congr_run (slabs_good hok.slabs hp) rfl hp.bootPages,
      (hpg.slabPage hok (show (r.vmm.setVirt vs).vmars = r.vmm.vmars from rfl) hp).1⟩
  | client c =>
    obtain ⟨s, e, rfl⟩ := Option.map_eq_some_iff.mp he
    obtain ⟨hc, hvalid⟩ := hv
    obtain ⟨hok', hvm, -, hexec⟩ := hok.execVirt hvalid e
    obtain ⟨hch, hres⟩ := VirtState.client_run hok.good hok.handedOver hc hvalid.1 hexec
    exact ⟨hok', hpg.congr_virt hok.handedOver hvm hch (by simp)
      (fun n hn => Or.inl (hch.leaf n hn (Set.notMem_empty n))) hres⟩

end VmmRun

end Tomato
