import Tomato.Thread.RunQueue

/-!
# The scheduler

The state of all cores and threads, and the atomic steps of `thread_start`,
`thread_yield`, `thread_exit`, the idle loop and `scheduler_schedule`. A core runs
one of its threads, or is somewhere inside one of these functions, which is its
`Pc`. What a thread does when the scheduler returns to it is what is on its stack,
its `Context`.

`none` is a failed `ASSERT` or a jump to unreachable code.
-/

namespace Tomato

inductive ThreadState
  | idle
  | dead
  | ready
  | running
  | parking
  | parked
deriving DecidableEq, Repr

inductive LastThreadAction
  | none
  | park
  | put
deriving DecidableEq, Repr

/-- Where a thread goes on once it has the core: in the thunk of a new thread, or
after the call of `scheduler_schedule` that switched it out. -/
inductive Context
  | fresh
  | inYield
  | inExit
  | inIdleLoop
deriving DecidableEq, Repr

/-- What a core does next. -/
inductive Pc
  /-- `sched_start_per_core` was not called yet -/
  | boot
  /-- the code of the current thread -/
  | thread
  /-- `run_queue_put` in `thread_start` -/
  | starting (t : ℕ) (booting : Bool)
  /-- the start of `scheduler_schedule` -/
  | enter
  /-- `run_queue_put` in `scheduler_schedule` -/
  | requeue
  /-- `sched_select_thread` -/
  | select
  /-- the switch to the selected thread -/
  | run (newThread : ℕ)
  /-- `scheduler_after_schedule` -/
  | after
deriving DecidableEq, Repr

/-- The variables of a core. -/
structure CoreState where
  currentThread : Option ℕ
  lastThread : Option ℕ
  lastThreadAction : LastThreadAction
  irqEnabled : Bool
  pc : Pc
deriving DecidableEq, Repr

structure Sched where
  cpuCount : ℕ
  links : RqLinks
  state : ℕ → ThreadState
  context : ℕ → Context
  core : ℕ → CoreState
  idleThread : ℕ → ℕ
  /-- the threads that `thread_start` was called on -/
  started : ℕ → Bool
  /-- how often the scheduler put its reference to the thread -/
  puts : ℕ → ℕ

namespace Sched

variable (s : Sched) (c : ℕ)

@[simps]
def setState (t : ℕ) (st : ThreadState) : Sched :=
  { s with state := Function.update s.state t st }

@[simps]
def setContext (t : ℕ) (ctx : Context) : Sched :=
  { s with context := Function.update s.context t ctx }

@[simps]
def setCore (k : CoreState) : Sched := { s with core := Function.update s.core c k }

def setPc (pc : Pc) : Sched := s.setCore c { s.core c with pc := pc }

/-- The exchange of `thread_start`. -/
def threadStart (t : ℕ) : Option Sched :=
  if s.state t = .idle then
    let booting := (s.core c).pc == .boot
    some (({ s with started := Function.update s.started t true }.setState t .ready).setPc c
      (.starting t booting))
  else none

def threadYield : Option Sched := do
  let t ← (s.core c).currentThread
  some ((s.setContext t .inYield).setCore c { s.core c with irqEnabled := false, pc := .enter })

/-- The exchange of `thread_exit`, up to the call of the scheduler. -/
def threadExit : Option Sched := do
  let t ← (s.core c).currentThread
  if s.state t = .running then
    some (((s.setState t .dead).setContext t .inExit).setCore c
      { s.core c with irqEnabled := false, pc := .enter })
  else none

/-- One turn of `scheduler_idle_loop`, up to the call of the scheduler. -/
def schedulerIdleLoop : Option Sched := do
  let t ← (s.core c).currentThread
  some ((s.setContext t .inIdleLoop).setCore c
    { s.core c with irqEnabled := false, pc := .enter })

/-- `sched_start_per_core`, up to the thunk of the idle thread. -/
def schedStartPerCore : Option Sched :=
  let thread := s.idleThread c
  some ((s.setState thread .running).setCore c
    { s.core c with irqEnabled := false, currentThread := some thread, pc := .after })

/-- The switch at the start of `scheduler_schedule`. -/
def enterSchedule : Option Sched := do
  let k := s.core c
  let current ← k.currentThread
  if k.irqEnabled then none
  else match s.state current with
    | .dead => some (s.setCore c { k with lastThreadAction := .put, pc := .select })
    | .parking => some (s.setCore c { k with lastThreadAction := .park, pc := .select })
    | .running =>
      -- only non-idle threads go back to the run queue
      let pc := if current ≠ s.idleThread c then .requeue else .select
      some ((s.setState current .ready).setCore c { k with pc := pc })
    | _ => none

def putCurrent : Option Sched := do
  let current ← (s.core c).currentThread
  let l ← runQueuePut s.links c (.thread current)
  some ({ s with links := l }.setPc c .select)

def schedSelectThread : Option Sched := do
  let k := s.core c
  let (entry, l) ← runQueueGet s.links c
  let newThread ← match entry with
    | some entry => entry.containerOf
    | none => some (s.idleThread c)
  some ({ s with links := l }.setCore c
    { k with lastThread := k.currentThread, pc := .run newThread })

/-- The rest of `scheduler_schedule`: nothing is switched if the thread that was
selected is the current one. -/
def runThread (newThread : ℕ) : Option Sched :=
  if s.state newThread = .ready then
    some ((s.setState newThread .running).setCore c
      { s.core c with currentThread := some newThread, pc := .after })
  else none

def schedulerFinishPark (t : ℕ) : Option Sched :=
  match s.state t with
  | .parking => some (s.setState t .parked)
  | .ready => (runQueuePut s.links c (.thread t)).map fun l => { s with links := l }
  | _ => some s

/-- `scheduler_after_schedule`, and the return to the code of the current thread. -/
def schedulerAfterSchedule : Option Sched := do
  let k := s.core c
  let s ← match k.lastThreadAction with
    | .none => some s
    | .park => k.lastThread.bind (s.schedulerFinishPark c)
    | .put => k.lastThread.map fun t =>
        { s with puts := Function.update s.puts t (s.puts t + 1) }
  let k := { k with lastThread := none, lastThreadAction := .none, pc := .thread }
  let current ← k.currentThread
  match s.context current with
  | .fresh | .inIdleLoop => some (s.setCore c k)
  | .inYield => some (s.setCore c { k with irqEnabled := true })
  | .inExit => none

/-- What a core can do: the code of a thread calls one of the functions or changes
the interrupt flag, and a core inside a function goes one step on. -/
inductive Op
  | threadStart (t : ℕ)
  | threadYield
  | threadExit
  | idleLoop
  | schedStartPerCore
  | setIrq (enabled : Bool)
  | advance
deriving DecidableEq, Repr

def advance : Option Sched :=
  match (s.core c).pc with
  | .boot | .thread => none
  | .starting t booting => (runQueuePut s.links c (.thread t)).map fun l =>
      { s with links := l }.setPc c (if booting then .boot else .thread)
  | .enter => s.enterSchedule c
  | .requeue => s.putCurrent c
  | .select => s.schedSelectThread c
  | .run newThread => s.runThread c newThread
  | .after => s.schedulerAfterSchedule c

def exec : Op → Option Sched
  | .threadStart t => s.threadStart c t
  | .threadYield => s.threadYield c
  | .threadExit => s.threadExit c
  | .idleLoop => s.schedulerIdleLoop c
  | .schedStartPerCore => s.schedStartPerCore c
  | .setIrq enabled => some (s.setCore c { s.core c with irqEnabled := enabled })
  | .advance => s.advance c

def IsIdle (t : ℕ) : Prop := ∃ c < s.cpuCount, t = s.idleThread c

/-- When the core can do it. A thread is started at most once, the idle threads
only run the idle loop, and no other thread does. -/
def Valid : Op → Prop
  | .threadStart t => ((s.core c).pc = .boot ∨ (s.core c).pc = .thread) ∧ ¬ s.IsIdle t ∧
      s.started t = false
  | .threadYield | .threadExit | .setIrq _ => (s.core c).pc = .thread ∧
      (s.core c).currentThread ≠ some (s.idleThread c)
  | .idleLoop => (s.core c).pc = .thread ∧ (s.core c).currentThread = some (s.idleThread c)
  | .schedStartPerCore => (s.core c).pc = .boot
  | .advance => (s.core c).pc ≠ .boot ∧ (s.core c).pc ≠ .thread

/-- After `sched_init`. Every other thread was created and not started. -/
def Initial : Prop :=
  (∀ c < s.cpuCount, Queued s.links c [] ∧ (s.core c).currentThread = none ∧
    (s.core c).lastThread = none ∧ (s.core c).lastThreadAction = .none ∧
    (s.core c).pc = .boot) ∧
  (∀ c < s.cpuCount, ∀ c' < s.cpuCount, s.idleThread c = s.idleThread c' → c = c') ∧
  (∀ c < s.cpuCount, s.state (s.idleThread c) = .ready) ∧
  (∀ t, ¬ s.IsIdle t → s.state t = .idle) ∧
  (∀ t, s.context t = .fresh) ∧ (∀ t, s.started t = false) ∧ ∀ t, s.puts t = 0

def Step (s s' : Sched) : Prop := ∃ c < s.cpuCount, ∃ op, s.Valid c op ∧ s.exec c op = some s'

end Sched

end Tomato
