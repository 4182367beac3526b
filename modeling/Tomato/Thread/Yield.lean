import Tomato.Thread.SchedRun

/-!
# The order of the run queue

Because `run_queue_put` and `run_queue_get` work at the same end of the list, a
thread that yields is selected again at once, whatever is queued, and the threads
come out in the order in which they were put only as long as no two of them are in
the queue when one is taken.
-/

namespace Tomato

namespace Sched

variable {s : Sched} {c t : ℕ} {q : List ℕ}

def execAll (c : ℕ) : List Op → Sched → Option Sched
  | [], s => some s
  | op :: ops, s => (s.exec c op).bind (execAll c ops)

/-- `thread_yield` up to the selection of the next thread: the call, the check of the
state, `run_queue_put` and `sched_select_thread`. -/
def yieldAndSelect (s : Sched) (c : ℕ) : Option Sched :=
  execAll c [.threadYield, .advance, .advance, .advance] s

/-- A running thread that yields is selected again, in front of all queued threads. -/
theorem yield_reselects (hq : Queued s.links c q) (ht : t ∉ q)
    (hcur : (s.core c).currentThread = some t) (hst : s.state t = .running)
    (hidle : t ≠ s.idleThread c) :
    ∃ s', s.yieldAndSelect c = some s' ∧ (s'.core c).pc = .run t ∧ Queued s'.links c q := by
  obtain ⟨l, e, hl, -⟩ := hq.put ht
  obtain ⟨l', e', hl', -⟩ := hl.get_cons
  obtain ⟨s1, h1⟩ : ∃ s1, s1 = (s.setContext t .inYield).setCore c
    { s.core c with irqEnabled := false, pc := .enter } := ⟨_, rfl⟩
  obtain ⟨s2, h2⟩ : ∃ s2, s2 = (s1.setState t .ready).setCore c
    { s1.core c with pc := .requeue } := ⟨_, rfl⟩
  obtain ⟨s3, h3⟩ : ∃ s3, s3 = { s2 with links := l }.setPc c .select := ⟨_, rfl⟩
  have e1 : s.threadYield c = some s1 := by simp [threadYield, hcur, h1]
  have e2 : s1.enterSchedule c = some s2 := by simp [enterSchedule, h1, h2, hcur, hst, hidle]
  have e3 : s2.putCurrent c = some s3 := by simp [putCurrent, h1, h2, h3, hcur, e]
  obtain ⟨s4, h4⟩ : ∃ s4, s4 = { s3 with links := l' }.setCore c
    { s3.core c with lastThread := (s3.core c).currentThread, pc := .run t } := ⟨_, rfl⟩
  have e4 : s3.schedSelectThread c = some s4 := by
    simp [schedSelectThread, h3, h4, setPc, e', RqEntry.containerOf]
  refine ⟨s4, ?_, by simp [h4], by simpa [h4] using hl'⟩
  have p1 : (s1.core c).pc = .enter := by simp [h1]
  have p2 : (s2.core c).pc = .requeue := by simp [h2]
  have p3 : (s3.core c).pc = .select := by simp [h3, setPc]
  simp only [yieldAndSelect, execAll, exec, e1, advance, p1, e2, p2, e3, p3, e4, Option.bind_some]

/-- The threads come out of the queue in the order in which they were put exactly if
every `run_queue_get` finds at most one of them, and a thread that yields while
others are queued is always selected before them. -/
theorem run_queue_order (core : ℕ) {ops : List QueueOp}
    (hv : QueueRun.Valid core ops (QueueRun.start core)) :
    (∃ r, QueueRun.run core ops (QueueRun.start core) = some r ∧
      (r.gets <+: r.puts ↔ QueueRun.AtMostOne 0 ops)) ∧
    ∀ (s : Sched) (t : ℕ) (q : List ℕ), Queued s.links core q → t ∉ q →
      (s.core core).currentThread = some t → s.state t = .running → t ≠ s.idleThread core →
        ∃ s', s.yieldAndSelect core = some s' ∧ (s'.core core).pc = .run t ∧
          Queued s'.links core q :=
  ⟨QueueRun.run_order_iff core hv,
    fun _ _ _ hq ht hcur hst hidle => yield_reselects hq ht hcur hst hidle⟩

/-- Two threads that are put and taken one after the other keep their order. -/
theorem run_queue_order_put_get :
    ∃ r, QueueRun.run 0 [.put 1, .get, .put 2, .get] (QueueRun.start 0) = some r ∧
      (r.gets <+: r.puts ↔ QueueRun.AtMostOne 0 [.put 1, .get, .put 2, .get]) := by
  have hv : QueueRun.Valid 0 [.put 1, .get, .put 2, .get] (QueueRun.start 0) := by
    refine ⟨rfl, fun r1 e1 => ⟨trivial, fun r2 e2 => ⟨?_, fun r3 _ =>
      ⟨trivial, fun _ _ => trivial⟩⟩⟩⟩
    obtain rfl := Option.some.inj (e1 : some _ = some r1)
    obtain rfl := Option.some.inj (e2 : some _ = some r2)
    rfl
  exact (run_queue_order 0 hv).1

/-- Two threads are put and one is taken: it is the second one. -/
theorem put_put_get :
    ∃ r, QueueRun.Valid 0 [.put 1, .put 2, .get] (QueueRun.start 0) ∧
      QueueRun.run 0 [.put 1, .put 2, .get] (QueueRun.start 0) = some r ∧
      r.puts = [1, 2] ∧ r.gets = [2] ∧ ¬ r.gets <+: r.puts := by
  refine ⟨_, ⟨rfl, fun r1 e1 => ⟨?_, fun r2 e2 => ⟨trivial, fun _ _ => trivial⟩⟩⟩, rfl, rfl, rfl,
    by decide⟩
  obtain rfl := Option.some.inj (e1 : some _ = some r1)
  rfl

end Sched

end Tomato
