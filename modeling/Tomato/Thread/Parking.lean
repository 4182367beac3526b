import Tomato.Thread.SchedRun
import Tomato.Thread.SchedStep

/-!
# Parking

A running thread parks: it changes its state to `PARKING` and calls the scheduler.
Any number of unparkers, each of them at most between its change of the state of a
thread and the `run_queue_put` that follows it, run next to the cores. `unpark` is what
`thread.h` documents of `scheduler_try_unpark`: a thread that is `PARKING` becomes
`READY` and is not enqueued, a thread that is `PARKED` becomes `READY` and is then put
into a run queue once, and any other thread is left alone.

`woken` is not part of the code. It tells which threads were unparked after they last
entered `PARKING`.
-/

namespace Tomato

structure Parking where
  sched : Sched
  /-- the thread that the unparker still has to put -/
  pending : ℕ → Option ℕ
  woken : ℕ → Bool

namespace Parking

variable (p : Parking)

/-- The state of a thread that parks, up to the call of the scheduler. -/
def threadPark (c : ℕ) : Option Parking := do
  let t ← (p.sched.core c).currentThread
  some { p with
    sched := ((p.sched.setState t .parking).setContext t .inYield).setCore c
      { p.sched.core c with irqEnabled := false, pc := .enter }
    woken := Function.update p.woken t false }

/-- The atomic change of the state by the unparker `u`. -/
def unpark (u t : ℕ) : Parking :=
  match p.sched.state t with
  | .parking => { p with
      sched := p.sched.setState t .ready
      woken := Function.update p.woken t true }
  | .parked => { p with
      sched := p.sched.setState t .ready
      pending := Function.update p.pending u (some t)
      woken := Function.update p.woken t true }
  | _ => p

/-- The `run_queue_put` of the unparker, on the core where it runs. -/
def unparkPut (u c : ℕ) : Option Parking := do
  let t ← p.pending u
  let l ← runQueuePut p.sched.links c (.thread t)
  some { p with
    sched := { p.sched with links := l }
    pending := Function.update p.pending u none }

inductive ParkOp
  | sched (c : ℕ) (op : Sched.Op)
  | park (c : ℕ)
  | unpark (u t : ℕ)
  | put (u c : ℕ)
deriving DecidableEq, Repr

def exec : ParkOp → Option Parking
  | .sched c op => (p.sched.exec c op).map fun s => { p with sched := s }
  | .park c => p.threadPark c
  | .unpark u t => some (p.unpark u t)
  | .put u c => p.unparkPut u c

def Valid : ParkOp → Prop
  | .sched c op => c < p.sched.cpuCount ∧ p.sched.Valid c op
  | .park c => c < p.sched.cpuCount ∧ (p.sched.core c).pc = .thread ∧
      (p.sched.core c).currentThread ≠ some (p.sched.idleThread c)
  | .unpark u _ => p.pending u = none
  | .put u c => c < p.sched.cpuCount ∧ (p.pending u).isSome

/-- After `sched_init`, with no unparker at work. -/
def Initial : Prop := p.sched.Initial ∧ (∀ u, p.pending u = none) ∧ ∀ t, p.woken t = false

/-- The core is about to load the state of the thread, which is parking. -/
def InWindow (t : ℕ) : Prop := ∃ c < p.sched.cpuCount, (p.sched.core c).pc = .enter ∧
  (p.sched.core c).currentThread = some t ∧ p.sched.state t = .parking

/-- The step does not unpark a thread before the scheduler has loaded its state. -/
def Careful : ParkOp → Prop
  | .unpark _ t => ¬ p.InWindow t
  | _ => True

def Step (p p' : Parking) : Prop := ∃ op, p.Valid op ∧ p.exec op = some p'

def CarefulStep (p p' : Parking) : Prop := ∃ op, p.Valid op ∧ p.Careful op ∧ p.exec op = some p'

end Parking

end Tomato
