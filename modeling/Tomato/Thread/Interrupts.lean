import Tomato.Thread.SchedRun
import Tomato.Thread.SchedStep

/-!
# Interrupts in the code of a thread

The interrupt flag belongs to the core and is not saved with a thread. The scheduler
runs with interrupts disabled, `thread_yield` enables them again when it returns, and
`thread_entry_point` does not: the code of a thread runs with interrupts enabled once
the thread has returned from `thread_yield`, and starts with interrupts disabled.
-/

namespace Tomato

open Transition

namespace Sched

variable {s s' : Sched} {place : ℕ → Place} {q : ℕ → List ℕ} {c i t u : ℕ} {op : Op}

/-- The core executes the code of the thread, which is not an idle thread. -/
def OwnCode (s : Sched) (c t : ℕ) : Prop :=
  c < s.cpuCount ∧ (s.core c).pc = .thread ∧ (s.core c).currentThread = some t ∧ ¬ s.IsIdle t

/-- A step of a run in which no thread changes the interrupt flag by itself: the code
of a thread is calls of `thread_yield`, it may start other threads, and it exits when
it returns. -/
def YieldStep (s s' : Sched) : Prop :=
  ∃ c < s.cpuCount, ∃ op, (∀ b, op ≠ .setIrq b) ∧ s.Valid c op ∧ s.exec c op = some s'

theorem YieldStep.step (h : YieldStep s s') : Step s s' := by
  obtain ⟨c, hc, op, -, hv, he⟩ := h
  exact ⟨c, hc, op, hv, he⟩

theorem YieldStep.reachable (h : Reachable Initial YieldStep s) : Reachable Initial Step s :=
  h.mono fun _ _ => YieldStep.step

/-- The interrupt flag of a core that is inside the scheduler. -/
def IrqOff (s : Sched) (c : ℕ) : Prop :=
  match (s.core c).pc with
  | .boot | .thread | .starting _ _ => True
  | _ => (s.core c).irqEnabled = false

/-- The interrupt flag of a core in the code of a thread, or in its `thread_start`. -/
def IrqThread (s : Sched) (c : ℕ) : Prop :=
  match (s.core c).pc with
  | .thread | .starting _ _ => ∀ t, (s.core c).currentThread = some t → ¬ s.IsIdle t →
      ((s.core c).irqEnabled = true ↔ s.context t = .inYield)
  | _ => True

theorem IrqOff.exec (h : s.IrqOff c) (hv : s.Valid c op) (he : s.exec c op = some s') :
    s'.IrqOff c := by
  obtain ⟨-, -, k', ctx', hcore, -, hk⟩ := exec_cases he
  unfold IrqOff at h ⊢
  rw [hcore, Function.update_self]
  cases hk with
  | start t b _ => trivial
  | call op t ctx _ _ => rfl
  | boot t => rfl
  | setIrq b => simp [hv.1]
  | started t b hpc => cases b <;> trivial
  | inside k' h1 h2 _ hirq =>
      have hoff : (s.core c).irqEnabled = false := by
        cases hp : (s.core c).pc <;> simp_all [Pc.InSchedule]
      rw [hirq, hoff]
      cases k'.pc <;> trivial
  | resume t hpc ht => trivial

theorem IrqThread.exec (h : s.IrqThread c) (hoff : s.IrqOff c) (hop : ∀ b, op ≠ .setIrq b)
    (hi : Inv s place q) (hc : c < s.cpuCount) (hv : s.Valid c op)
    (he : s.exec c op = some s') : s'.IrqThread c := by
  obtain ⟨hcpu, hidle, k', ctx', hcore, hctx, hk⟩ := exec_cases he
  have hisIdle : ∀ t, s'.IsIdle t ↔ s.IsIdle t := by simp [IsIdle, hcpu, hidle]
  unfold IrqThread IrqOff at *
  simp only [hcore, hctx, Function.update_self, hisIdle]
  cases hk with
  | start t b hb =>
      rcases hv.1 with e | e
      · have hcur := hi.core c hc
        simp only [CoreOk, e] at hcur
        simp [hcur.1]
      · simpa [e] using h
  | call op t ctx _ _ => trivial
  | boot t => trivial
  | setIrq b => exact absurd rfl (hop b)
  | started t b hpc =>
      simp only [hpc] at h
      cases b with
      | true => trivial
      | false => simpa using h
  | inside k' _ h2 _ _ => cases hp : k'.pc <;> simp_all [Pc.InSchedule]
  | resume t hpc ht =>
      simp only [hpc] at hoff
      intro u hu _
      obtain rfl : t = u := Option.some.inj (ht.symm.trans hu)
      by_cases hctx : s.context t = .inYield <;> simp [hctx, hoff]

/-- A step of another core. -/
theorem IrqThread.other (h : s.IrqThread i) (hi : Inv s place q) (hic : i ≠ c)
    (hilt : i < s.cpuCount) (hc : c < s.cpuCount) (he : s.exec c op = some s') :
    s'.IrqThread i := by
  obtain ⟨hcpu, hidle, k', ctx', hcore, hctx, hk⟩ := exec_cases he
  have hisIdle : ∀ t, s'.IsIdle t ↔ s.IsIdle t := by simp [IsIdle, hcpu, hidle]
  have hsame : ∀ t, (s.core i).currentThread = some t → ctx' t = s.context t := by
    intro t ht
    cases hk with
    | call op u ctx _ hu =>
        refine Function.update_of_ne ?_ _ _
        rintro rfl
        have h1 := hi.current_owner hilt ht
        rw [hi.current_owner hc hu] at h1
        exact hic (Option.some.inj h1).symm
    | _ => rfl
  unfold IrqThread at h ⊢
  simp only [hcore, hctx, Function.update_of_ne hic, hisIdle]
  cases hpc : (s.core i).pc with
  | thread | starting t b =>
      simp only [hpc] at h ⊢
      intro u hu hn
      rw [hsame u hu]
      exact h u hu hn
  | _ => trivial

theorem IrqOff.other (h : s.IrqOff i) (hic : i ≠ c) (he : s.exec c op = some s') :
    s'.IrqOff i := by
  obtain ⟨-, -, k', ctx', hcore, -, -⟩ := exec_cases he
  unfold IrqOff at h ⊢
  rw [hcore, Function.update_of_ne hic]
  exact h

theorem irqOff_of_reachable (h : Reachable Initial Step s) : ∀ c < s.cpuCount, s.IrqOff c := by
  induction h with
  | start h =>
      intro c hc
      simp [IrqOff, (h.1 c hc).2.2.2.2]
  | next _ hs ih =>
      obtain ⟨c, hc, op, hv, he⟩ := hs
      intro i hi
      rw [(exec_cases he).1] at hi
      by_cases hic : i = c
      · subst hic
        exact (ih i hi).exec hv he
      · exact (ih i hi).other hic he

theorem irqThread_of_reachable (h : Reachable Initial YieldStep s) :
    ∀ c < s.cpuCount, s.IrqThread c := by
  induction h with
  | start h =>
      intro c hc
      simp [IrqThread, (h.1 c hc).2.2.2.2]
  | next h hs ih =>
      obtain ⟨c, hc, op, hop, hv, he⟩ := hs
      obtain ⟨place, q, hinv⟩ := inv_of_reachable (YieldStep.reachable h)
      intro i hi
      rw [(exec_cases he).1] at hi
      by_cases hic : i = c
      · subst hic
        exact (ih i hi).exec (irqOff_of_reachable (YieldStep.reachable h) i hi) hop hinv hi hv he
      · exact (ih i hi).other hinv hic hi hc he

/-- Interrupts are enabled in the code of a thread exactly if it was entered by a return
from `thread_yield`. In any run this holds whenever a core returns to the code of a
thread, and in a run where the threads only yield it holds as long as they execute.
The scheduler is always entered with interrupts disabled. -/
theorem irq_enabled_iff (h : Reachable Initial Step s) :
    (∀ c < s.cpuCount, (s.core c).pc = .enter → (s.core c).irqEnabled = false) ∧
    (∀ c s', (s.core c).pc = .after → s.exec c .advance = some s' → ∀ t, s'.OwnCode c t →
      ((s'.core c).irqEnabled = true ↔ s'.context t = .inYield)) ∧
    (Reachable Initial YieldStep s → ∀ c t, s.OwnCode c t →
      ((s.core c).irqEnabled = true ↔ s.context t = .inYield)) := by
  refine ⟨fun c hc hpc => ?_, fun c s' hpc he t ho => ?_, fun hy c t ho => ?_⟩
  · simpa [IrqOff, hpc] using irqOff_of_reachable h c hc
  · obtain ⟨hcpu, -, k', ctx', hcore, hctx, hk⟩ := exec_cases he
    have hoff := irqOff_of_reachable h c (hcpu ▸ ho.1)
    simp only [IrqOff, hpc] at hoff
    obtain ⟨-, hpc', hcur, -⟩ := ho
    rw [hcore, Function.update_self] at hcur hpc' ⊢
    rw [hctx]
    cases hk with
    | call op t ctx _ _ => simp at hpc'
    | started t b hs => simp [hpc] at hs
    | inside k' _ hin _ _ => exact absurd hin (by simp [hpc', Pc.InSchedule])
    | resume u _ hu =>
        obtain rfl : u = t := Option.some.inj (hu.symm.trans hcur)
        by_cases hy : s.context u = .inYield <;> simp [hy, hoff]
  · have hthread := irqThread_of_reachable hy c ho.1
    simp only [IrqThread, ho.2.1] at hthread
    exact hthread t ho.2.2.1 ho.2.2.2

instance (s : Sched) (t : ℕ) : Decidable (s.IsIdle t) :=
  inferInstanceAs (Decidable (∃ c < s.cpuCount, t = s.idleThread c))

instance (s : Sched) (c : ℕ) : (op : Op) → Decidable (s.Valid c op)
  | .threadStart t => inferInstanceAs (Decidable (((s.core c).pc = .boot ∨
      (s.core c).pc = .thread) ∧ ¬ s.IsIdle t ∧ s.started t = false))
  | .threadYield | .threadExit | .setIrq _ => inferInstanceAs (Decidable
      ((s.core c).pc = .thread ∧ (s.core c).currentThread ≠ some (s.idleThread c)))
  | .idleLoop => inferInstanceAs (Decidable
      ((s.core c).pc = .thread ∧ (s.core c).currentThread = some (s.idleThread c)))
  | .schedStartPerCore => inferInstanceAs (Decidable ((s.core c).pc = .boot))
  | .advance => inferInstanceAs (Decidable ((s.core c).pc ≠ .boot ∧ (s.core c).pc ≠ .thread))

/-- The steps of one core, all of them valid. -/
def validRun (c : ℕ) : List Op → Sched → Option Sched
  | [], s => some s
  | op :: ops, s => if s.Valid c op then (s.exec c op).bind (validRun c ops) else none

theorem reachable_validRun {ops : List Op} (hc : c < s.cpuCount)
    (hops : ∀ op ∈ ops, ∀ b, op ≠ .setIrq b) (h : Reachable Initial YieldStep s)
    (he : validRun c ops s = some s') : Reachable Initial YieldStep s' := by
  induction ops generalizing s with
  | nil => exact Option.some.inj he ▸ h
  | cons op ops ih =>
      rw [validRun] at he
      split at he
      · rename_i hv
        obtain ⟨s1, h1, h2⟩ := Option.bind_eq_some_iff.mp he
        have hop := hops op List.mem_cons_self
        refine ih ?_ (fun o ho => hops o (List.mem_cons_of_mem _ ho))
          (h.next ⟨c, hc, op, hop, hv, h1⟩) h2
        rw [(exec_cases h1).1]
        exact hc
      · simp at he

/-- Thread 2 is started, and then the idle thread of core 0 switches to it. -/
def firstEntry : List Op :=
  [.threadStart 2, .advance, .schedStartPerCore, .advance, .idleLoop, .advance, .advance, .advance,
    .advance]

/-- A new thread starts to execute with interrupts disabled. -/
theorem not_irqEnabled_firstEntry :
    ∃ s, Reachable Initial YieldStep s ∧ s.OwnCode 0 2 ∧ (s.core 0).irqEnabled = false := by
  have h : ∃ s, validRun 0 firstEntry twoCores = some s ∧ s.cpuCount = 2 ∧
      (s.core 0).pc = .thread ∧ (s.core 0).currentThread = some 2 ∧ s.idleThread = id ∧
      (s.core 0).irqEnabled = false := ⟨_, rfl, rfl, rfl, rfl, rfl, rfl⟩
  obtain ⟨s, he, hcpu, hpc, hcur, hidle, hirq⟩ := h
  refine ⟨s, reachable_validRun (by decide) (by simp [firstEntry]) (.start twoCores_initial) he,
    ⟨by omega, hpc, hcur, ?_⟩, hirq⟩
  rintro ⟨c, hc, ht⟩
  rw [hidle] at ht
  have ht : 2 = c := ht
  omega

/-- When that thread has yielded once, it executes with interrupts enabled. -/
theorem irqEnabled_afterYield :
    ∃ s : Sched, s.OwnCode 0 2 ∧ (s.core 0).irqEnabled = true := by
  have h : ∃ s, validRun 0 (firstEntry ++ [.threadYield, .advance, .advance, .advance, .advance,
      .advance]) twoCores = some s ∧ s.cpuCount = 2 ∧ (s.core 0).pc = .thread ∧
      (s.core 0).currentThread = some 2 ∧ s.idleThread = id ∧ s.context 2 = .inYield :=
    ⟨_, rfl, rfl, rfl, rfl, rfl, rfl⟩
  obtain ⟨s, he, hcpu, hpc, hcur, hidle, hctx⟩ := h
  have hr := reachable_validRun (by decide) (by simp [firstEntry]) (.start twoCores_initial) he
  have ho : s.OwnCode 0 2 := by
    refine ⟨by omega, hpc, hcur, ?_⟩
    rintro ⟨c, hc, ht⟩
    rw [hidle] at ht
    have ht : 2 = c := ht
    omega
  exact ⟨s, ho, ((irq_enabled_iff (YieldStep.reachable hr)).2.2 hr 0 2 ho).mpr hctx⟩

end Sched

end Tomato
