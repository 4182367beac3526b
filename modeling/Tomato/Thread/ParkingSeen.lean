import Tomato.Thread.Parking

/-!
# Parking as the scheduler sees it

Parking adds nothing to what the scheduler does with the other threads. `seen` is the
state of a scheduler without parking: a thread that parks is one that exits, and a
thread that is put into a run queue again is one that was not started yet. The steps of
the cores commute with `seen`, so what is known of the scheduler without parking can be
used for them.
-/

namespace Tomato

namespace Sched

variable {s s' : Sched} {c t u : ℕ}

/-- How far a thread is on its way into a run queue again. -/
inductive Phase
  | awake
  /-- its core is about to load its state -/
  | preparing (c : ℕ)
  /-- its core is about to finish the park -/
  | leaving (c : ℕ)
  | parked
  /-- an unparker is about to put it -/
  | waking (u : ℕ)
deriving DecidableEq

def Phase.state : Phase → ThreadState → ThreadState
  | .awake, st => st
  | .preparing _, _ => .running
  | .leaving _, _ => .dead
  | .parked, _ | .waking _, _ => .idle

def Phase.context : Phase → Context → Context
  | .leaving _, _ => .inExit
  | _, ctx => ctx

def Phase.started : Phase → Bool → Bool
  | .parked, _ | .waking _, _ => false
  | _, b => b

def seenCore (k : CoreState) : CoreState :=
  { k with lastThreadAction := if k.lastThreadAction = .park then .put else k.lastThreadAction }

/-- The scheduler as if no thread ever parked: a thread that parks exits, and a thread
that is put into a run queue again is one that was not started yet. -/
def seen (ph : ℕ → Phase) (s : Sched) : Sched := { s with
  state := fun t => (ph t).state (s.state t)
  context := fun t => (ph t).context (s.context t)
  started := fun t => (ph t).started (s.started t)
  core := fun c => seenCore (s.core c) }

variable {ph : ℕ → Phase}

@[simp] theorem seen_cpuCount : (seen ph s).cpuCount = s.cpuCount := rfl

@[simp] theorem seen_idleThread : (seen ph s).idleThread = s.idleThread := rfl

@[simp] theorem seen_links : (seen ph s).links = s.links := rfl

@[simp] theorem seen_core : (seen ph s).core c = seenCore (s.core c) := rfl

@[simp] theorem seen_state : (seen ph s).state t = (ph t).state (s.state t) := rfl

@[simp] theorem seen_context : (seen ph s).context t = (ph t).context (s.context t) := rfl

@[simp] theorem seen_started : (seen ph s).started t = (ph t).started (s.started t) := rfl

@[simp] theorem seenCore_pc (k : CoreState) : (seenCore k).pc = k.pc := rfl

@[simp] theorem seenCore_currentThread (k : CoreState) :
    (seenCore k).currentThread = k.currentThread := rfl

@[simp] theorem seenCore_lastThread (k : CoreState) :
    (seenCore k).lastThread = k.lastThread := rfl

@[simp] theorem seenCore_irqEnabled (k : CoreState) :
    (seenCore k).irqEnabled = k.irqEnabled := rfl

@[simp] theorem seen_isIdle : (seen ph s).IsIdle t ↔ s.IsIdle t := Iff.rfl

theorem seen_setState (h : ph t = .awake) (st : ThreadState) :
    seen ph (s.setState t st) = (seen ph s).setState t st := by
  have : (fun x => (ph x).state (Function.update s.state t st x)) =
      Function.update (fun x => (ph x).state (s.state x)) t st := by
    funext x
    by_cases hx : x = t
    · subst hx
      simp [h, Phase.state]
    · simp [hx]
  simp only [seen, setState, this]

/-- The state of a thread that is not awake is not seen. -/
theorem seen_setState_of_ne (h : ph t ≠ .awake) (st : ThreadState) :
    seen ph (s.setState t st) = seen ph s := by
  have : (fun x => (ph x).state (Function.update s.state t st x)) =
      fun x => (ph x).state (s.state x) := by
    funext x
    by_cases hx : x = t
    · subst hx
      cases hp : ph x <;> simp_all [Phase.state]
    · simp [hx]
  simp only [seen, setState, this]

theorem seen_setContext (h : ∀ c, ph t ≠ .leaving c) (ctx : Context) :
    seen ph (s.setContext t ctx) = (seen ph s).setContext t ctx := by
  have : (fun x => (ph x).context (Function.update s.context t ctx x)) =
      Function.update (fun x => (ph x).context (s.context x)) t ctx := by
    funext x
    by_cases hx : x = t
    · subst hx
      cases hp : ph x <;> simp_all [Phase.context]
    · simp [hx]
  simp only [seen, setContext, this]

theorem seen_setCore (c : ℕ) (k : CoreState) :
    seen ph (s.setCore c k) = (seen ph s).setCore c (seenCore k) := by
  have : (fun i => seenCore (Function.update s.core c k i)) =
      Function.update (fun i => seenCore (s.core i)) c (seenCore k) := by
    funext i
    by_cases hi : i = c
    · subst hi
      simp
    · simp [hi]
  simp only [seen, setCore, this]

/-- A change of the phase that is not seen. -/
theorem seen_update (x : Phase) (h1 : x.state = (ph t).state) (h2 : x.context = (ph t).context)
    (h3 : x.started = (ph t).started) : seen (Function.update ph t x) s = seen ph s := by
  have key : ∀ y, (Function.update ph t x y).state = (ph y).state ∧
      (Function.update ph t x y).context = (ph y).context ∧
      (Function.update ph t x y).started = (ph y).started := by
    intro y
    by_cases hy : y = t
    · subst hy
      simp [h1, h2, h3]
    · simp [hy]
  simp only [seen, (key _).1, (key _).2.1, (key _).2.2]

@[simp] theorem seenCore_irq (k : CoreState) (b : Bool) (pc : Pc) :
    seenCore { k with irqEnabled := b, pc := pc } =
      { seenCore k with irqEnabled := b, pc := pc } := rfl

@[simp] theorem seenCore_setPc (k : CoreState) (pc : Pc) :
    seenCore { k with pc := pc } = { seenCore k with pc := pc } := rfl

theorem seen_setPc (c : ℕ) (pc : Pc) :
    seen ph (s.setPc c pc) = (seen ph s).setPc c pc := seen_setCore c _

theorem threadStart_seen (h : ph t = .awake) :
    (seen ph s).threadStart c t = (s.threadStart c t).map (seen ph) := by
  have hst : (seen ph s).state t = s.state t := by simp [h, Phase.state]
  have hstarted : seen ph { s with started := Function.update s.started t true } =
      { seen ph s with started := Function.update (seen ph s).started t true } := by
    have : (fun x => (ph x).started (Function.update s.started t true x)) =
        Function.update (fun x => (ph x).started (s.started x)) t true := by
      funext x
      by_cases hx : x = t
      · subst hx
        simp [h, Phase.started]
      · simp [hx]
    simp only [seen, this]
  simp only [threadStart, hst]
  split
  · simp only [Option.map_some, seen_setPc, seen_setState h, hstarted, seen_core, seenCore_pc]
  · rfl

theorem threadYield_seen (hcur : ∀ t, (s.core c).currentThread = some t → ph t = .awake) :
    (seen ph s).threadYield c = (s.threadYield c).map (seen ph) := by
  cases ht : (s.core c).currentThread with
  | none => simp [threadYield, ht]
  | some t =>
    have h := hcur t ht
    simp [threadYield, ht, seen_setCore, seen_setContext, h]
    rfl

theorem schedulerIdleLoop_seen (hcur : ∀ t, (s.core c).currentThread = some t → ph t = .awake) :
    (seen ph s).schedulerIdleLoop c = (s.schedulerIdleLoop c).map (seen ph) := by
  cases ht : (s.core c).currentThread with
  | none => simp [schedulerIdleLoop, ht]
  | some t =>
    have h := hcur t ht
    simp [schedulerIdleLoop, ht, seen_setCore, seen_setContext, h]
    rfl

theorem threadExit_seen (hcur : ∀ t, (s.core c).currentThread = some t → ph t = .awake) :
    (seen ph s).threadExit c = (s.threadExit c).map (seen ph) := by
  cases ht : (s.core c).currentThread with
  | none => simp [threadExit, ht]
  | some t =>
    have h := hcur t ht
    by_cases hst : s.state t = .running
    · simp [threadExit, ht, h, hst, Phase.state, seen_setCore, seen_setContext, seen_setState]
      rfl
    · simp [threadExit, ht, h, hst, Phase.state]

theorem enterSchedule_seen (hcur : ∀ t, (s.core c).currentThread = some t → ph t = .awake)
    (hpark : ∀ t, (s.core c).currentThread = some t → s.state t ≠ .parking) :
    (seen ph s).enterSchedule c = (s.enterSchedule c).map (seen ph) := by
  cases ht : (s.core c).currentThread with
  | none => simp [enterSchedule, ht]
  | some t =>
    have h := hcur t ht
    have hp := hpark t ht
    by_cases hirq : (s.core c).irqEnabled = true
    · simp [enterSchedule, ht, hirq]
    · cases hst : s.state t with
      | parking => exact absurd hst hp
      | dead =>
          simp [enterSchedule, ht, hirq, h, hst, Phase.state, seen_setCore]
          rfl
      | running =>
          simp only [Bool.not_eq_true] at hirq
          simp only [enterSchedule, Option.bind_eq_bind, seen_core, seenCore_currentThread, ht,
            Option.bind_some, seenCore_irqEnabled, hirq, Bool.false_eq_true, if_false, seen_state,
            h, hst, Phase.state, Option.map_some, seen_setCore, seen_setState h, seen_idleThread]
          rfl
      | _ => simp [enterSchedule, ht, hirq, h, hst, Phase.state]

theorem schedStartPerCore_seen (h : ph (s.idleThread c) = .awake) :
    (seen ph s).schedStartPerCore c = (s.schedStartPerCore c).map (seen ph) := by
  simp [schedStartPerCore, seen_setCore, seen_setState h]
  rfl

theorem putCurrent_seen : (seen ph s).putCurrent c = (s.putCurrent c).map (seen ph) := by
  cases ht : (s.core c).currentThread with
  | none => simp [putCurrent, ht]
  | some t =>
    cases hl : runQueuePut s.links c (.thread t) with
    | none => simp [putCurrent, ht, hl]
    | some l =>
      simp [putCurrent, ht, hl, seen_setPc]
      rfl

theorem schedSelectThread_seen :
    (seen ph s).schedSelectThread c = (s.schedSelectThread c).map (seen ph) := by
  cases hg : runQueueGet s.links c with
  | none => simp [schedSelectThread, hg]
  | some r =>
    obtain ⟨entry, l⟩ := r
    cases entry with
    | none =>
      simp [schedSelectThread, hg, seen_setCore]
      rfl
    | some entry =>
      cases he : entry.containerOf with
      | none => simp [schedSelectThread, hg, he]
      | some new =>
        simp [schedSelectThread, hg, he, seen_setCore]
        rfl

theorem runThread_seen (h : ph t = .awake) :
    (seen ph s).runThread c t = (s.runThread c t).map (seen ph) := by
  by_cases hst : s.state t = .ready
  · simp [runThread, h, hst, Phase.state, seen_setCore, seen_setState]
    rfl
  · simp [runThread, h, hst, Phase.state]

theorem schedulerAfterSchedule_seen
    (hcur : ∀ t, (s.core c).currentThread = some t → ph t = .awake)
    (hact : (s.core c).lastThreadAction ≠ .park) :
    (seen ph s).schedulerAfterSchedule c = (s.schedulerAfterSchedule c).map (seen ph) := by
  -- the return to the current thread, after the reference of the last one is put
  have hreturn : ∀ s1 : Sched, s1.core = s.core →
      ((s.core c).currentThread.bind fun t => (seen ph s1).returnTo c (s.core c) t) =
        ((s.core c).currentThread.bind fun t => s1.returnTo c (s.core c) t).map (seen ph) := by
    intro s1 _
    cases ht : (s.core c).currentThread with
    | none => rfl
    | some t =>
      have h := hcur t ht
      simp only [Option.bind_some, returnTo, seen_context, h, Phase.context]
      cases s1.context t <;> simp [seen_setCore] <;> rfl
  cases ha : (s.core c).lastThreadAction with
  | park => exact absurd ha hact
  | none => 
    have h1 : (seenCore (s.core c)).lastThreadAction = .none := by simp [seenCore, ha]
    simp only [schedulerAfterSchedule, Option.bind_eq_bind, seen_core, h1, ha, Option.bind_some]
    exact hreturn s rfl
  | put =>
    have h1 : (seenCore (s.core c)).lastThreadAction = .put := by simp [seenCore, ha]
    simp only [schedulerAfterSchedule, Option.bind_eq_bind, seen_core, h1, ha, seenCore_lastThread]
    cases hl : (s.core c).lastThread with
    | none => rfl
    | some u =>
      simp only [Option.map_some, Option.bind_some]
      exact hreturn { s with puts := Function.update s.puts u (s.puts u + 1) } rfl

end Sched

end Tomato
