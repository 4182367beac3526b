import Tomato.Thread.ParkingRun

/-!
# The transitions of the threads

`thread.h` draws the states of a thread and the transitions that are allowed. Some of them are
checked where they are made, and some are stores: `thread_bootstrap` and the start of a park do
not look at the state before. The invariant of the runs says that it is the one that is drawn.
-/

namespace Tomato

open Transition

/-- The transitions that are drawn in `thread.h`. -/
inductive ThreadState.Allowed : ThreadState → ThreadState → Prop
  | start : Allowed .idle .ready
  | run : Allowed .ready .running
  | requeue : Allowed .running .ready
  | exit : Allowed .running .dead
  | prepare : Allowed .running .parking
  | park : Allowed .parking .parked
  | catch : Allowed .parking .ready
  | abort : Allowed .parking .running
  | unpark : Allowed .parked .ready

open ThreadState (Allowed)

/-- Only the state of the thread `t` changes, and that as it is allowed. -/
theorem ThreadState.Allowed.update {f : ℕ → ThreadState} {t : ℕ} {st : ThreadState}
    (h : Allowed (f t) st) (x : ℕ) :
    Relation.ReflGen Allowed (f x) (Function.update f t st x) := by
  by_cases hx : x = t
  · subst hx
    rw [Function.update_self]
    exact .single h
  · rw [Function.update_of_ne hx]

namespace Sched

variable {s s' : Sched} {c : ℕ} {op : Op}

/-- A park is finished, or the thread that was caught is put into the run queue. -/
theorem allowed_after (he : s.schedulerAfterSchedule c = some s') (t : ℕ) :
    Relation.ReflGen Allowed (s.state t) (s'.state t) := by
  have hreturn : ∀ {s1 : Sched} {u : ℕ}, s1.returnTo c (s.core c) u = some s' →
      s'.state = s1.state := fun e => by
    rw [(returnTo_eq_some e).2]
    rfl
  simp only [schedulerAfterSchedule, Option.bind_eq_bind] at he
  cases hact : (s.core c).lastThreadAction with
  | none =>
    simp only [hact, Option.bind_some, Option.bind_eq_some_iff] at he
    obtain ⟨u, -, he⟩ := he
    exact congrFun (hreturn he) t ▸ .refl
  | park =>
    simp only [hact, Option.bind_eq_some_iff] at he
    obtain ⟨s1, ⟨v, -, e1⟩, u, -, he⟩ := he
    rw [hreturn he]
    rw [schedulerFinishPark] at e1
    split at e1
    · rename_i hst
      obtain rfl := Option.some.inj e1
      exact Allowed.update (hst ▸ .park) t
    · obtain ⟨l, -, rfl⟩ := Option.map_eq_some_iff.mp e1
      exact .refl
    · exact Option.some.inj e1 ▸ .refl
  | put =>
    simp only [hact, Option.bind_eq_some_iff, Option.map_eq_some_iff] at he
    obtain ⟨s1, ⟨v, -, rfl⟩, u, -, he⟩ := he
    rw [hreturn he]

/-- The steps of a core, where only `thread_bootstrap` does not look at the state. -/
theorem allowed_exec (hboot : op = .schedStartPerCore → s.state (s.idleThread c) = .ready)
    (he : s.exec c op = some s') (t : ℕ) : Relation.ReflGen Allowed (s.state t) (s'.state t) := by
  cases op with
  | threadStart u =>
    simp only [exec, threadStart] at he
    split at he
    · rename_i hst
      obtain rfl := Option.some.inj he
      exact Allowed.update (hst ▸ .start) t
    · simp at he
  | threadYield =>
    obtain ⟨u, -, he⟩ := Option.bind_eq_some_iff.mp he
    exact Option.some.inj he ▸ .refl
  | threadExit =>
    obtain ⟨u, -, he⟩ := Option.bind_eq_some_iff.mp he
    split at he
    · rename_i hst
      obtain rfl := Option.some.inj he
      exact Allowed.update (hst ▸ .exit) t
    · simp at he
  | idleLoop =>
    obtain ⟨u, -, he⟩ := Option.bind_eq_some_iff.mp he
    exact Option.some.inj he ▸ .refl
  | schedStartPerCore =>
    obtain rfl := Option.some.inj he
    exact Allowed.update (hboot rfl ▸ .run) t
  | setIrq enabled => exact Option.some.inj he ▸ .refl
  | advance =>
    simp only [exec, advance] at he
    cases hpc : (s.core c).pc with
    | boot => simp [hpc] at he
    | thread => simp [hpc] at he
    | starting u b =>
      simp only [hpc, Option.map_eq_some_iff] at he
      obtain ⟨l, -, rfl⟩ := he
      exact .refl
    | enter =>
      simp only [hpc, enterSchedule, Option.bind_eq_bind, Option.bind_eq_some_iff] at he
      obtain ⟨u, -, he⟩ := he
      split at he
      · simp at he
      split at he
      · exact Option.some.inj he ▸ .refl
      · exact Option.some.inj he ▸ .refl
      · rename_i hst
        obtain rfl := Option.some.inj he
        exact Allowed.update (hst ▸ .requeue) t
      · simp at he
    | requeue =>
      simp only [hpc, putCurrent, Option.bind_eq_bind, Option.bind_eq_some_iff] at he
      obtain ⟨u, -, l, -, he⟩ := he
      exact Option.some.inj he ▸ .refl
    | select =>
      obtain ⟨new, l, rfl⟩ := schedSelectThread_cases (by simpa [hpc] using he)
      exact .refl
    | run new =>
      simp only [hpc, runThread] at he
      split at he
      · rename_i hst
        obtain rfl := Option.some.inj he
        exact Allowed.update (hst ▸ .run) t
      · simp at he
    | after => exact allowed_after (by simpa [hpc] using he) t

end Sched

namespace Parking

open Sched (Phase seen Place)

variable {p p' : Parking} {ph : ℕ → Phase} {place : ℕ → Place} {q : ℕ → List ℕ} {op : ParkOp}

/-- The idle thread waits for its core to start. -/
theorem Inv.idle_ready {c : ℕ} (h : Inv p ph place q) (hc : c < p.sched.cpuCount)
    (hpc : (p.sched.core c).pc = .boot) : p.sched.state (p.sched.idleThread c) = .ready := by
  have haw := h.idle_awake hc
  have hst := (h.base.thread (p.sched.idleThread c)).state
  rw [Sched.seen_state, haw] at hst
  have hhand : ∀ k, place (p.sched.idleThread c) ≠ .hand c k := fun k hk => by
    have := (h.base.hand c hc _ k).mpr hk
    simp [Sched.inHand, hpc] at this
  rcases h.base.idle c hc with e | e | e
  · exact hst.trans (congrArg Place.state e)
  · exact absurd e (hhand _)
  · exact absurd e (hhand _)

/-- A thread that executes its code is running. -/
theorem Inv.current_running {c u : ℕ} (h : Inv p ph place q) (hc : c < p.sched.cpuCount)
    (hpc : (p.sched.core c).pc = .thread) (hcur : (p.sched.core c).currentThread = some u) :
    p.sched.state u = .running := by
  have hprep := (h.no_phase (c := c) (by simp [hpc, Pc.InSchedule])).1
  have haw := h.current_awake_of_plain hc hprep (by simp [hpc]) (by simp [hpc]) u hcur
  have hp := h.place_of_hand hc (t := u) (k := .running) (by simp [Sched.inHand, hpc, hcur])
  have hst := (h.base.thread u).state
  rwa [Sched.seen_state, haw, hp] at hst

theorem Inv.allowed (h : Inv p ph place q) (hv : p.Valid op) (he : p.exec op = some p') (t : ℕ) :
    Relation.ReflGen Allowed (p.sched.state t) (p'.sched.state t) := by
  cases op with
  | sched c op =>
    obtain ⟨s, e, rfl⟩ := Option.map_eq_some_iff.mp he
    refine Sched.allowed_exec (fun hop => ?_) e t
    subst hop
    exact h.idle_ready hv.1 hv.2
  | park c =>
    obtain ⟨u, hcur, he⟩ := Option.bind_eq_some_iff.mp he
    obtain rfl := Option.some.inj he
    exact Allowed.update (h.current_running hv.1 hv.2.1 hcur ▸ .prepare) t
  | unpark u v =>
    obtain rfl := Option.some.inj he
    rw [Parking.unpark]
    split
    · rename_i hst
      exact Allowed.update (hst ▸ .catch) t
    · rename_i hst
      exact Allowed.update (hst ▸ .unpark) t
    · exact .refl
  | put u c =>
    obtain ⟨v, -, he⟩ := Option.bind_eq_some_iff.mp he
    obtain ⟨l, -, he⟩ := Option.bind_eq_some_iff.mp he
    exact Option.some.inj he ▸ .refl

end Parking

end Tomato
