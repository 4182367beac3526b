import Tomato.Thread.Sched

/-!
# What one step does

A step changes the variables of its own core and at most the context of the thread
that the core executes. Inside `scheduler_schedule` the core only goes forward.
-/

namespace Tomato

/-- The steps of `scheduler_schedule` that are left. -/
def Pc.rank : Pc → ℕ
  | .boot | .thread => 0
  | .starting _ _ | .after => 1
  | .run _ => 2
  | .select => 3
  | .requeue => 4
  | .enter => 5

/-- The core is inside `scheduler_schedule`. -/
def Pc.InSchedule : Pc → Prop
  | .boot | .thread | .starting _ _ => False
  | _ => True

namespace Sched

variable {s s' : Sched} {c t : ℕ} {op : Op}

/-- What a step of the core `c` can do to the variables `k` of the core and to the
contexts of the threads. -/
inductive CoreStep (s : Sched) (c : ℕ) (k : CoreState) : Op → CoreState → (ℕ → Context) → Prop
  | start (t : ℕ) (booting : Bool) : (booting = true ↔ k.pc = .boot) →
      CoreStep s c k (.threadStart t) { k with pc := .starting t booting } s.context
  | call (op : Op) (t : ℕ) (ctx : Context) : op ≠ .advance → k.currentThread = some t →
      CoreStep s c k op { k with irqEnabled := false, pc := .enter }
        (Function.update s.context t ctx)
  | boot (t : ℕ) : CoreStep s c k .schedStartPerCore
      { k with irqEnabled := false, currentThread := some t, pc := .after } s.context
  | setIrq (b : Bool) : CoreStep s c k (.setIrq b) { k with irqEnabled := b } s.context
  | started (t : ℕ) (booting : Bool) : k.pc = .starting t booting →
      CoreStep s c k .advance { k with pc := if booting then .boot else .thread } s.context
  | inside (k' : CoreState) : k.pc.InSchedule → k'.pc.InSchedule → k'.pc.rank < k.pc.rank →
      k'.irqEnabled = k.irqEnabled → CoreStep s c k .advance k' s.context
  | resume (t : ℕ) : k.pc = .after → k.currentThread = some t →
      CoreStep s c k .advance ⟨k.currentThread, none, .none,
        if s.context t = .inYield then true else k.irqEnabled, .thread⟩ s.context

theorem schedSelectThread_cases (he : s.schedSelectThread c = some s') :
    ∃ new l, s' = { s with links := l }.setCore c
      { s.core c with lastThread := (s.core c).currentThread, pc := .run new } := by
  simp only [schedSelectThread, Option.bind_eq_bind, Option.bind_eq_some_iff] at he
  obtain ⟨⟨entry, l⟩, -, he⟩ := he
  cases entry with
  | none => exact ⟨s.idleThread c, l, (Option.some.inj he).symm⟩
  | some entry =>
    obtain ⟨new, -, he⟩ := Option.bind_eq_some_iff.mp he
    exact ⟨new, l, (Option.some.inj he).symm⟩

/-- The return of `scheduler_after_schedule` to the code of the thread, `k` being the
variables of the core. -/
def returnTo (s : Sched) (c : ℕ) (k : CoreState) (t : ℕ) : Option Sched :=
  match s.context t with
  | .fresh | .inIdleLoop => some (s.setCore c ⟨k.currentThread, none, .none, k.irqEnabled, .thread⟩)
  | .inYield => some (s.setCore c ⟨k.currentThread, none, .none, true, .thread⟩)
  | .inExit => none

theorem returnTo_eq_some {k : CoreState} (he : s.returnTo c k t = some s') :
    s.context t ≠ .inExit ∧ s' = s.setCore c ⟨k.currentThread, none, .none,
      if s.context t = .inYield then true else k.irqEnabled, .thread⟩ := by
  unfold returnTo at he
  cases hctx : s.context t with
  | inExit => simp [hctx] at he
  | _ =>
      simp only [hctx, Option.some.injEq] at he
      simp [← he]

/-- The cleanup after the last thread, and then the return to the current one. -/
theorem afterSchedule_cases (he : s.schedulerAfterSchedule c = some s') :
    ∃ s1 : Sched, (s1.core = s.core ∧ s1.context = s.context ∧ s1.cpuCount = s.cpuCount ∧
      s1.idleThread = s.idleThread ∧ s1.started = s.started) ∧
      (∀ t, ((s.core c).lastThreadAction = .park → (s.core c).lastThread ≠ some t) →
        s1.state t = s.state t) ∧
      ∃ t, (s.core c).currentThread = some t ∧ s1.returnTo c (s.core c) t = some s' := by
  simp only [schedulerAfterSchedule, Option.bind_eq_bind] at he
  cases hact : (s.core c).lastThreadAction with
  | none =>
      simp only [hact, Option.bind_some, Option.bind_eq_some_iff] at he
      obtain ⟨t, ht, he⟩ := he
      exact ⟨s, ⟨rfl, rfl, rfl, rfl, rfl⟩, fun _ _ => rfl, t, ht, he⟩
  | park =>
      simp only [hact, Option.bind_eq_some_iff] at he
      obtain ⟨s1, ⟨u, hu, h1⟩, t, ht, he⟩ := he
      suffices hs : (s1.core = s.core ∧ s1.context = s.context ∧ s1.cpuCount = s.cpuCount ∧
          s1.idleThread = s.idleThread ∧ s1.started = s.started) ∧
          ∀ v, v ≠ u → s1.state v = s.state v by
        refine ⟨s1, hs.1, fun v hv => hs.2 v ?_, t, ht, he⟩
        rintro rfl
        exact hv rfl hu
      simp only [schedulerFinishPark] at h1
      split at h1
      · obtain rfl := Option.some.inj h1
        exact ⟨⟨rfl, rfl, rfl, rfl, rfl⟩, fun v hv => by simp [hv]⟩
      · obtain ⟨l, -, rfl⟩ := Option.map_eq_some_iff.mp h1
        exact ⟨⟨rfl, rfl, rfl, rfl, rfl⟩, fun _ _ => rfl⟩
      · obtain rfl := Option.some.inj h1
        exact ⟨⟨rfl, rfl, rfl, rfl, rfl⟩, fun _ _ => rfl⟩
  | put =>
      simp only [hact, Option.bind_eq_some_iff, Option.map_eq_some_iff] at he
      obtain ⟨s1, ⟨u, -, rfl⟩, t, ht, he⟩ := he
      exact ⟨{ s with puts := Function.update s.puts u (s.puts u + 1) }, ⟨rfl, rfl, rfl, rfl, rfl⟩,
        fun _ _ => rfl, t, ht, he⟩

/-- A step changes the variables of its own core only. -/
theorem exec_cases (he : s.exec c op = some s') :
    s'.cpuCount = s.cpuCount ∧ s'.idleThread = s.idleThread ∧
      ∃ k' ctx', s'.core = Function.update s.core c k' ∧ s'.context = ctx' ∧
        CoreStep s c (s.core c) op k' ctx' := by
  cases op with
  | threadStart t =>
      simp only [exec, threadStart] at he
      split at he
      · obtain rfl := Option.some.inj he
        exact ⟨rfl, rfl, _, _, rfl, rfl, .start t _ (by simp)⟩
      · simp at he
  | threadYield =>
      simp only [exec, threadYield, Option.bind_eq_bind, Option.bind_eq_some_iff] at he
      obtain ⟨t, ht, he⟩ := he
      obtain rfl := Option.some.inj he
      exact ⟨rfl, rfl, _, _, rfl, rfl, .call _ t _ (by simp) ht⟩
  | threadExit =>
      simp only [exec, threadExit, Option.bind_eq_bind, Option.bind_eq_some_iff] at he
      obtain ⟨t, ht, he⟩ := he
      split at he
      · obtain rfl := Option.some.inj he
        exact ⟨rfl, rfl, _, _, rfl, rfl, .call _ t _ (by simp) ht⟩
      · simp at he
  | idleLoop =>
      simp only [exec, schedulerIdleLoop, Option.bind_eq_bind, Option.bind_eq_some_iff] at he
      obtain ⟨t, ht, he⟩ := he
      obtain rfl := Option.some.inj he
      exact ⟨rfl, rfl, _, _, rfl, rfl, .call _ t _ (by simp) ht⟩
  | schedStartPerCore =>
      obtain rfl := Option.some.inj he
      exact ⟨rfl, rfl, _, _, rfl, rfl, .boot _⟩
  | setIrq b =>
      obtain rfl := Option.some.inj he
      exact ⟨rfl, rfl, _, _, rfl, rfl, .setIrq b⟩
  | advance =>
      simp only [exec, advance] at he
      cases hpc : (s.core c).pc with
      | boot => simp [hpc] at he
      | thread => simp [hpc] at he
      | starting t b =>
          simp only [hpc, Option.map_eq_some_iff] at he
          obtain ⟨l, -, rfl⟩ := he
          exact ⟨rfl, rfl, _, _, rfl, rfl, .started t b hpc⟩
      | enter =>
          simp only [hpc, enterSchedule, Option.bind_eq_bind, Option.bind_eq_some_iff] at he
          obtain ⟨t, -, he⟩ := he
          split at he
          · simp at he
          split at he
          · obtain rfl := Option.some.inj he
            exact ⟨rfl, rfl, _, _, rfl, rfl, .inside _ (by rw [hpc]; trivial) trivial
              (by simp [hpc, Pc.rank]) rfl⟩
          · obtain rfl := Option.some.inj he
            exact ⟨rfl, rfl, _, _, rfl, rfl, .inside _ (by rw [hpc]; trivial) trivial
              (by simp [hpc, Pc.rank]) rfl⟩
          · obtain rfl := Option.some.inj he
            refine ⟨rfl, rfl, _, _, rfl, rfl, .inside _ (by rw [hpc]; trivial) ?_ ?_ rfl⟩
            · by_cases hi : t = s.idleThread c <;> simp [hi, Pc.InSchedule]
            · by_cases hi : t = s.idleThread c <;> simp [hi, hpc, Pc.rank]
          · simp at he
      | requeue =>
          simp only [hpc, putCurrent, Option.bind_eq_bind, Option.bind_eq_some_iff] at he
          obtain ⟨t, -, l, -, he⟩ := he
          obtain rfl := Option.some.inj he
          exact ⟨rfl, rfl, _, _, rfl, rfl, .inside _ (by rw [hpc]; trivial) trivial
            (by simp [hpc, Pc.rank]) rfl⟩
      | select =>
          obtain ⟨new, l, rfl⟩ := schedSelectThread_cases (by simpa [hpc] using he)
          exact ⟨rfl, rfl, _, _, rfl, rfl, .inside _ (by rw [hpc]; trivial) trivial
            (by simp [hpc, Pc.rank]) rfl⟩
      | run new =>
          simp only [hpc, runThread] at he
          split at he
          · obtain rfl := Option.some.inj he
            exact ⟨rfl, rfl, _, _, rfl, rfl, .inside _ (by rw [hpc]; trivial) trivial
              (by simp [hpc, Pc.rank]) rfl⟩
          · simp at he
      | after =>
          -- the cleanup after the last thread touches no core and no context
          obtain ⟨s1, ⟨g1, g2, g3, g4, -⟩, -, t, ht, he⟩ :=
            afterSchedule_cases (by simpa [hpc] using he)
          have hres := CoreStep.resume (s := s) (c := c) t hpc ht
          obtain ⟨-, rfl⟩ := returnTo_eq_some he
          refine ⟨g3, g4, _, _, congrArg (Function.update · c _) g1, g2, ?_⟩
          simpa [g2] using hres

/-- Inside the scheduler every step brings the core closer to its end. -/
theorem rank_advance (he : s.exec c .advance = some s') :
    (s'.core c).pc.rank < (s.core c).pc.rank := by
  obtain ⟨-, -, k', ctx', hcore, -, hk⟩ := exec_cases he
  rw [hcore, Function.update_self]
  cases hk with
  | call op t ctx h _ => exact absurd rfl h
  | started t b hpc => cases b <;> simp [hpc, Pc.rank]
  | inside k' _ _ hrank _ => exact hrank
  | resume t hpc _ => simp [hpc, Pc.rank]

/-- The threads whose variables a step of the core may change. -/
def Touches (s : Sched) (c : ℕ) : Op → ℕ → Prop
  | .threadStart u, t => t = u
  | .threadYield, t | .threadExit, t | .idleLoop, t => (s.core c).currentThread = some t
  | .schedStartPerCore, t => t = s.idleThread c
  | .setIrq _, _ => False
  | .advance, t =>
    match (s.core c).pc with
    | .enter => (s.core c).currentThread = some t
    | .run new => t = new
    | .after => (s.core c).lastThreadAction = .park ∧ (s.core c).lastThread = some t
    | _ => False

theorem exec_same (he : s.exec c op = some s') (ht : ¬ s.Touches c op t) :
    s'.state t = s.state t ∧ s'.context t = s.context t ∧ s'.started t = s.started t := by
  cases op with
  | threadStart u =>
      simp only [exec, threadStart] at he
      have ht : t ≠ u := ht
      split at he
      · obtain rfl := Option.some.inj he
        simp [setPc, ht]
      · simp at he
  | threadYield =>
      simp only [exec, threadYield, Option.bind_eq_bind, Option.bind_eq_some_iff] at he
      obtain ⟨u, hu, he⟩ := he
      obtain rfl := Option.some.inj he
      have ht : t ≠ u := fun e => ht (e ▸ hu)
      simp [ht]
  | threadExit =>
      simp only [exec, threadExit, Option.bind_eq_bind, Option.bind_eq_some_iff] at he
      obtain ⟨u, hu, he⟩ := he
      have ht : t ≠ u := fun e => ht (e ▸ hu)
      split at he
      · obtain rfl := Option.some.inj he
        simp [ht]
      · simp at he
  | idleLoop =>
      simp only [exec, schedulerIdleLoop, Option.bind_eq_bind, Option.bind_eq_some_iff] at he
      obtain ⟨u, hu, he⟩ := he
      obtain rfl := Option.some.inj he
      have ht : t ≠ u := fun e => ht (e ▸ hu)
      simp [ht]
  | schedStartPerCore =>
      obtain rfl := Option.some.inj he
      have ht : t ≠ s.idleThread c := ht
      simp [ht]
  | setIrq b =>
      obtain rfl := Option.some.inj he
      exact ⟨rfl, rfl, rfl⟩
  | advance =>
      simp only [exec, advance] at he
      cases hpc : (s.core c).pc with
      | boot => simp [hpc] at he
      | thread => simp [hpc] at he
      | starting u b =>
          simp only [hpc, Option.map_eq_some_iff] at he
          obtain ⟨l, -, rfl⟩ := he
          exact ⟨rfl, rfl, rfl⟩
      | enter =>
          simp only [Touches, hpc] at ht
          simp only [hpc, enterSchedule, Option.bind_eq_bind, Option.bind_eq_some_iff] at he
          obtain ⟨u, hu, he⟩ := he
          have ht : t ≠ u := fun e => ht (e ▸ hu)
          split at he
          · simp at he
          split at he
          · obtain rfl := Option.some.inj he
            exact ⟨rfl, rfl, rfl⟩
          · obtain rfl := Option.some.inj he
            exact ⟨rfl, rfl, rfl⟩
          · obtain rfl := Option.some.inj he
            simp [ht]
          · simp at he
      | requeue =>
          simp only [hpc, putCurrent, Option.bind_eq_bind, Option.bind_eq_some_iff] at he
          obtain ⟨u, -, l, -, he⟩ := he
          obtain rfl := Option.some.inj he
          exact ⟨rfl, rfl, rfl⟩
      | select =>
          obtain ⟨new, l, rfl⟩ := schedSelectThread_cases (by simpa [hpc] using he)
          exact ⟨rfl, rfl, rfl⟩
      | run new =>
          simp only [Touches, hpc] at ht
          simp only [hpc, runThread] at he
          split at he
          · obtain rfl := Option.some.inj he
            simp [ht]
          · simp at he
      | after =>
          simp only [Touches, hpc, not_and] at ht
          simp only [hpc] at he
          obtain ⟨s1, ⟨-, g2, -, -, g5⟩, h1, u, -, he⟩ := afterSchedule_cases he
          rw [← h1 t ht, ← g2, ← g5]
          obtain ⟨-, rfl⟩ := returnTo_eq_some he
          exact ⟨rfl, rfl, rfl⟩

/-- A thread that was started stays so. -/
theorem started_exec (he : s.exec c op = some s') (hst : s.started t = true) :
    s'.started t = true := by
  cases op with
  | threadStart u =>
      simp only [exec, threadStart] at he
      split at he
      · obtain rfl := Option.some.inj he
        by_cases htu : t = u <;> simp [setPc, htu, hst]
      · simp at he
  | threadYield | idleLoop =>
      simp only [exec, threadYield, schedulerIdleLoop, Option.bind_eq_bind,
        Option.bind_eq_some_iff] at he
      obtain ⟨u, -, he⟩ := he
      obtain rfl := Option.some.inj he
      exact hst
  | threadExit =>
      simp only [exec, threadExit, Option.bind_eq_bind, Option.bind_eq_some_iff] at he
      obtain ⟨u, -, he⟩ := he
      split at he
      · obtain rfl := Option.some.inj he
        exact hst
      · simp at he
  | schedStartPerCore =>
      obtain rfl := Option.some.inj he
      exact hst
  | setIrq b =>
      obtain rfl := Option.some.inj he
      exact hst
  | advance =>
      cases hpc : (s.core c).pc with
      | after =>
          obtain ⟨s1, ⟨-, -, -, -, g⟩, -, u, -, he⟩ :=
            afterSchedule_cases (by simpa [exec, advance, hpc] using he)
          rw [← g] at hst
          obtain ⟨-, rfl⟩ := returnTo_eq_some he
          exact hst
      | enter =>
          simp only [exec, advance, hpc, enterSchedule, Option.bind_eq_bind,
            Option.bind_eq_some_iff] at he
          obtain ⟨u, -, he⟩ := he
          split at he
          · simp at he
          split at he
          · obtain rfl := Option.some.inj he
            exact hst
          · obtain rfl := Option.some.inj he
            exact hst
          · obtain rfl := Option.some.inj he
            exact hst
          · simp at he
      | run new =>
          simp only [exec, advance, hpc, runThread] at he
          split at he
          · obtain rfl := Option.some.inj he
            exact hst
          · simp at he
      | _ => rwa [(exec_same he (by simp [Touches, hpc])).2.2]

end Sched

end Tomato
