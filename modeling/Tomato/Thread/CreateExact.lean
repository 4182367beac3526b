import Tomato.Thread.CreateRun

/-!
# What a call to thread_create does

There is a new thread with a stack of its own, or nothing is left of the call. The pointer of
`ALLOC(thread_t)` is not looked at, so that there is no next state when there is no memory for it.
-/

namespace Tomato

open Blocks Transition Vmars

open VirtState (StillHeld)

namespace ThreadRun

variable {k : ThreadKernel} {t t' : ThreadRun} {f : ℕ → ℕ} {x thread region : ℕ}

/-- A call to `thread_create` that failed. -/
structure Uncreated (k : ThreadKernel) (t t' : ThreadRun) : Prop where
  tree : SameTree t.vmm.vmars t'.vmm.vmars
  vmars : ∀ x, x ∈ t'.vmm.run.live ↔ x ∈ t.vmm.run.live
  reserved : t'.vmm.virt.phys.acct.reserved = t.vmm.virt.phys.acct.reserved
  live : t'.live = t.live
  fields : ∃ thread ∉ t.live, t'.fields = t.fields.wipe thread
  frame : t'.frame = t.frame
  own : t'.own = t.own
  runQueue : t'.runQueue = t.runQueue
  freed : t'.freed = t.freed

/-- The thread is new, and idle. It has the handle for the region of a new stack, where its entry
frame is in memory that is mapped. -/
structure Created (k : ThreadKernel) (t t' : ThreadRun) (f : ℕ → ℕ)
    (entry arg thread region stack : ℕ) : Prop where
  live : thread ∉ t.live ∧ t'.live = thread :: t.live
  refCount : t'.fields.refCount thread = 1
  state : t'.fields.state thread = .idle
  kernelStack : t'.fields.kernelStack thread = region
  allocated : Vmm.StackIn k.toKernel t.vmm t'.vmm f PAGE_SIZE false
    ⟨t'.fields.kernelRsp thread + ENTRY_FRAME_SIZE, region⟩ stack
  entryFrame : t'.frame (t'.fields.kernelRsp thread) = ⟨k.threadEntryThunk, entry, arg⟩
  mapped : ∀ i < ENTRY_FRAME_SIZE,
    t'.vmm.virt.flatMap k.d ((t'.fields.kernelRsp thread + i) / PAGE_SIZE % 2 ^ 36) &&&
      IA32_PG_P ≠ 0
  others : ∀ y, y ≠ thread → t'.fields.refCount y = t.fields.refCount y ∧
    t'.fields.state y = t.fields.state y ∧ t'.fields.kernelStack y = t.fields.kernelStack y ∧
    t'.fields.kernelRsp y = t.fields.kernelRsp y
  frame : ∀ rsp, rsp ≠ t'.fields.kernelRsp thread → t'.frame rsp = t.frame rsp
  own : t'.own = t.own
  runQueue : t'.runQueue = t.runQueue
  freed : t'.freed = t.freed

theorem Sound.threadCreate_eq_none (h : t.Sound k f) (hc : ¬ t.CanAlloc k) (fuel out entry arg : ℕ) :
    t.threadCreate k fuel out entry arg = none := by
  rcases h.allocThread with ⟨-, t', e⟩ | ⟨hc', -⟩
  · rw [threadCreate, e]
    rfl
  · exact absurd hc' hc

/-- `thread_create` returns if there is memory for the object. -/
theorem Sound.threadCreate (h : t.Sound k f) (hc : t.CanAlloc k) (out entry arg : ℕ) :
    ∃ m, ∀ fuel, m ≤ fuel → ∃ res out' t',
      t.threadCreate k fuel out entry arg = some (res, out', t') ∧
      ((∃ e, res = .error e ∧ out' = out ∧ t'.Sound k f ∧ Uncreated k t t') ∨
        (res = .ok () ∧ ∃ region stack, t'.Sound k (Function.update f region 1) ∧
          region ∉ t.vmm.run.live ∧ Created k t t' f entry arg out' region stack)) := by
  obtain ⟨x, r, e1, h1, hlive, hx, hheld, hres⟩ :=
    (h.allocThread.resolve_left fun hn => hn.1 hc).2
  obtain ⟨m, hm⟩ := h1.vmm.stackAlloc h1.pages ⟨0, 0⟩ PAGE_SIZE false
  refine ⟨m, fun fuel hfuel => ?_⟩
  obtain ⟨res, a, s, e2, hpg, hcase⟩ := hm fuel hfuel
  have hheld2 := Vmm.stackAlloc_stillHeld e2
  rcases hcase with ⟨e, rfl, -, hok, hun⟩ | ⟨rfl, hok, stack, hin⟩
  · -- the object of the thread is freed again
    have h2 := (h1.setVmm hok hpg hheld2).setFields (t.fields.init x)
    obtain ⟨r3, e3, h3, hl3, hv3⟩ := h2.freeThread (show x ∈ r.live by simp [hlive])
    have hvirt : r3.slabs.virt = s.virt := hv3
    refine ⟨.error e, out, _, ?_,
      Or.inl ⟨e, rfl, rfl, h3.setFields ((t.fields.init x).wipe x), ?_⟩⟩
    · simp only [ThreadRun.threadCreate, e1, Option.bind_eq_bind, Option.bind_some]
      rw [show (t.setThreadSlabs r).vmm.stackAlloc _ _ _ _ _ = _ from e2]
      exact congrArg (Option.map fun t => (Except.error e, out, t)) e3
    · refine ⟨hun.tree, hun.live, ?_, ?_, ⟨x, hx, ?_⟩, rfl, rfl, rfl, rfl⟩
      · change r3.slabs.virt.phys.acct.reserved = _
        rw [hvirt, hun.reserved]
        exact hres
      · change r3.live = t.live
        rw [hl3]
        change r.live.erase x = t.live
        rw [hlive, List.erase_cons_head]
      · simp [ThreadFields.wipe, ThreadFields.init]
  · have h2 := h1.setVmm hok hpg hheld2
    have hbottom := hin.bottom
    rw [show stackPageCount PAGE_SIZE * PAGE_SIZE = 4096 from rfl] at hbottom
    have hframe : ENTRY_FRAME_SIZE = 72 := rfl
    have hrsp : a.stackBottom - ENTRY_FRAME_SIZE + ENTRY_FRAME_SIZE = a.stackBottom := by omega
    have hnew : a.stackRegion ∉ t.vmm.run.live := by
      have := hok.live_nodup
      rw [hin.live] at this
      exact (List.nodup_cons.mp (List.nodup_cons.mp this).2).1
    refine ⟨.ok (), x, { t with
        vmm := s, slabs := r.slabs, live := r.live
        fields := (t.fields.init x).setStack x a.stackRegion (a.stackBottom - ENTRY_FRAME_SIZE)
        frame := Function.update t.frame (a.stackBottom - ENTRY_FRAME_SIZE)
          ⟨k.threadEntryThunk, entry, arg⟩ }, ?_, Or.inr ⟨rfl, a.stackRegion, stack,
      ⟨h2.vmm, h2.pages, h2.slabs⟩, hnew, ?_⟩⟩
    · simp only [ThreadRun.threadCreate, e1, Option.bind_eq_bind, Option.bind_some]
      rw [show (t.setThreadSlabs r).vmm.stackAlloc _ _ _ _ _ = _ from e2]
      rfl
    · refine ⟨⟨hx, hlive⟩, Function.update_self _ _ _, Function.update_self _ _ _,
        Function.update_self _ _ _, ?_, ?_, fun i hi => ?_, fun y hy => ?_, fun rsp hne => ?_,
        rfl, rfl, rfl⟩ <;>
        simp only [ThreadFields.setStack, ThreadFields.init, Function.update_self] at *
      · rw [hrsp]
        exact { hin with }
      · have hp : s.vmars.parent stack ≠ none := by simp [(hin.only stack).mpr rfl]
        refine hin.populated rfl _ ⟨_, (h2.vmm.contains_iff hp).mp ?_, rfl⟩
        change s.vmars.base stack ≤ _ ∧ _ < s.vmars.base stack + s.vmars.pageCount stack * PAGE_SIZE
        rw [hin.mapping.2.1, show stackPageCount PAGE_SIZE * PAGE_SIZE = 4096 from rfl]
        omega
      · simp [Function.update_of_ne hy]
      · exact Function.update_of_ne hne _ _

end ThreadRun

end Tomato
