import Tomato.Thread.Interrupts
import Tomato.Thread.ParkingSteps

/-!
# Runs with parking

`parking_of_reachable` says that no wakeup is lost and that no assertion fails as long
as no thread is unparked before the scheduler has loaded its state. An unpark that is
too early makes the next step of the scheduler on that core fail.
-/

namespace Tomato

open Transition

namespace Parking

open Sched (Phase seen Place)

variable {p p' : Parking} {ph : ℕ → Phase} {place : ℕ → Place} {q : ℕ → List ℕ} {c t u : ℕ}
  {op : ParkOp}

theorem inv_of_initial (h : p.Initial) :
    ∃ place q, Inv p (fun _ => .awake) place q := by
  obtain ⟨⟨hcore, hrest⟩, hpend, -⟩ := h
  have hs : (seen (fun _ => .awake) p.sched).Initial := by
    refine ⟨fun c hc => ?_, hrest⟩
    obtain ⟨h1, h2, h3, h4, h5⟩ := hcore c hc
    exact ⟨h1, h2, h3, by simp [Sched.seenCore, h4], h5⟩
  refine ⟨_, _, Sched.inv_of_initial hs, fun _ => trivial, fun t ht => absurd rfl ht, ?_, ?_⟩
  · intro c hc ha
    simp [(hcore c hc).2.2.2.1] at ha
  · intro u t hu
    simp [hpend] at hu

/-- A valid step that unparks no thread too early does not fail and keeps the invariant. -/
theorem Inv.exec (h : Inv p ph place q) (hv : p.Valid op) (hcare : p.Careful op) :
    ∃ p' ph' place' q', p.exec op = some p' ∧ Inv p' ph' place' q' := by
  cases op with
  | park c => exact h.threadPark hv
  | unpark u t =>
      obtain ⟨ph', place', q', hi⟩ := h.unpark hv hcare
      exact ⟨_, ph', place', q', rfl, hi⟩
  | put u c => exact h.unparkPut hv
  | sched c op =>
      obtain ⟨hc, hv⟩ := hv
      have hlift : ∀ {s1 : Sched} {ph' place' q'}, p.sched.exec c op = some s1 →
          Inv { p with sched := s1 } ph' place' q' →
          ∃ p' ph' place' q', p.exec (.sched c op) = some p' ∧ Inv p' ph' place' q' :=
        fun he hi => ⟨_, _, _, _, by simp only [Parking.exec, he, Option.map_some], hi⟩
      by_cases hplain : Plain p ph c op
      · obtain ⟨s1, place', q', he, hi⟩ := h.plainStep hc hv hplain
        exact hlift he hi
      · obtain rfl : op = .advance := by
          cases op <;> first | rfl | exact absurd trivial hplain
        simp only [Plain, not_and_or, not_forall, not_not] at hplain
        rcases hplain with ⟨t, ht⟩ | ⟨hpc, ha⟩
        · obtain ⟨s1, ph', place', q', he, hi⟩ := h.enterParking ht
          exact hlift he hi
        · obtain ⟨t, ht⟩ := h.phase.action c hc ha
          obtain ⟨s1, ph', place', q', he, hi⟩ := h.finishPark ht hpc
          exact hlift he hi

/-- Only threads that were started are unparked. -/
theorem Inv.woken_started (h : Inv p ph place q)
    (hw : ∀ t, p.woken t = true → p.sched.started t = true) (he : p.exec op = some p') :
    ∀ t, p'.woken t = true → p'.sched.started t = true := by
  cases op with
  | sched c op =>
      obtain ⟨s1, he1, rfl⟩ := Option.map_eq_some_iff.mp he
      exact fun t ht => Sched.started_exec he1 (hw t ht)
  | park c =>
      simp only [Parking.exec, Parking.threadPark, Option.bind_eq_bind,
        Option.bind_eq_some_iff] at he
      obtain ⟨v, -, he⟩ := he
      obtain rfl := Option.some.inj he
      intro t ht
      by_cases htv : t = v
      · simp [htv] at ht
      · exact hw t (by simpa [htv] using ht)
  | put u c =>
      simp only [Parking.exec, Parking.unparkPut, Option.bind_eq_bind,
        Option.bind_eq_some_iff] at he
      obtain ⟨v, -, l, -, he⟩ := he
      obtain rfl := Option.some.inj he
      exact hw
  | unpark u v =>
      obtain rfl := Option.some.inj he
      have hv : p.sched.state v = .parking ∨ p.sched.state v = .parked →
          p.sched.started v = true := by
        intro hst
        refine (h.phase.resting v fun haw => ?_).2
        exact hst.elim (h.awake_state haw).1 (h.awake_state haw).2
      intro t ht
      unfold Parking.unpark at ht ⊢
      cases hst : p.sched.state v with
      | parking | parked =>
          simp only [hst] at ht ⊢
          by_cases htv : t = v
          · subst htv
            exact hv (by simp [hst])
          · exact hw t (by simpa [htv] using ht)
      | _ =>
          simp only [hst] at ht ⊢
          exact hw t ht

theorem inv_of_reachable (h : Reachable Initial CarefulStep p) :
    (∃ ph place q, Inv p ph place q) ∧ ∀ t, p.woken t = true → p.sched.started t = true := by
  refine h.invariant (I := fun p => (∃ ph place q, Inv p ph place q) ∧
    ∀ t, p.woken t = true → p.sched.started t = true) ?_ ?_
  · intro p hp
    obtain ⟨place, q, hi⟩ := inv_of_initial hp
    exact ⟨⟨_, place, q, hi⟩, fun t ht => by simp [hp.2.2] at ht⟩
  · rintro p p' ⟨⟨ph, place, q, hi⟩, hw⟩ ⟨op, hv, hcare, he⟩
    obtain ⟨p1, ph', place', q', he', hi'⟩ := hi.exec hv hcare
    obtain rfl : p1 = p' := Option.some.inj (he'.symm.trans he)
    exact ⟨⟨ph', place', q', hi'⟩, hi.woken_started hw he⟩

/-- Where the threads are, `q` being the run queues. -/
structure Placed (p : Parking) (q : ℕ → List ℕ) : Prop where
  queued : ∀ c < p.sched.cpuCount, Queued p.sched.links c (q c)
  idle : ∀ c < p.sched.cpuCount, ∀ i < p.sched.cpuCount, p.sched.idleThread i ∉ q c
  once : ∀ c < p.sched.cpuCount, ∀ t ∈ q c, p.sched.state t = .ready ∧ (q c).count t = 1 ∧
    ∀ i < p.sched.cpuCount, t ∈ q i → i = c
  /-- it may have exited since it was unparked -/
  woken : ∀ t, p.woken t = true → p.sched.state t = .running ∨ p.sched.state t = .ready ∨
    p.sched.state t = .dead
  settled : ∀ t, p.woken t = true → p.sched.state t ≠ .dead → p.sched.Settled t →
    (∀ u, p.pending u ≠ some t) →
    (p.sched.RunsOnce q t ∧ ¬ p.sched.WaitsOnce q t) ∨
      (p.sched.WaitsOnce q t ∧ ¬ p.sched.RunsOnce q t)

/-- A thread that nobody is busy with is awake, or parked. -/
theorem PhaseOk.settled (h : PhaseOk p ph) (hs : p.sched.Settled t)
    (hu : ∀ u, p.pending u ≠ some t) : ph t = .awake ∨ p.woken t = false := by
  have hat := h.phaseAt t
  cases ht : ph t with
  | awake => exact Or.inl rfl
  | preparing i =>
      simp only [ht, PhaseAt] at hat
      exact Or.inr hat.2.2.2.2.2
  | leaving i =>
      simp only [ht, PhaseAt] at hat
      have hset := hs i hat.1.1
      rcases hat.1.2.2 with ⟨e, hcur⟩ | ⟨⟨n, e⟩ | e, hlast⟩ <;> simp_all
  | parked =>
      simp only [ht, PhaseAt] at hat
      exact Or.inr hat.2
  | waking u =>
      simp only [ht, PhaseAt] at hat
      exact absurd hat.2 (hu u)

theorem Inv.placed (h : Inv p ph place q)
    (hw : ∀ t, p.woken t = true → p.sched.started t = true) : Placed p q := by
  have hawake : ∀ c < p.sched.cpuCount, ∀ t ∈ q c, ph t = .awake := by
    intro c hc t ht
    have hp := (h.base.mem_queue c hc t).mp ht
    exact h.awake_of_place (by simp [hp]) (by simp [hp]) (by simp [hp])
  have hok := h.base.placed
  refine ⟨hok.queued, hok.idle, fun c hc t ht => ⟨?_, ?_, fun i hi hti => ?_⟩, fun t ht => ?_, ?_⟩
  · have hst := (h.base.thread t).state
    rwa [Sched.seen_state, hawake c hc t ht, (h.base.mem_queue c hc t).mp ht] at hst
  · exact List.count_eq_one_of_mem (hok.queued c hc).nodup ht
  · have hp := (h.base.mem_queue c hc t).mp ht
    rw [(h.base.mem_queue i hi t).mp hti] at hp
    injection hp
  · have hat := h.phase.phaseAt t
    cases hph : ph t with
    | awake =>
        have hok := (h.base.thread t)
        have hne : place t ≠ .unstarted := by
          have hst := hok.started.mp (by simpa [hph, Phase.started] using hw t ht)
          exact hst.1
        have hst := hok.state
        rw [Sched.seen_state, hph] at hst
        simp only [Phase.state] at hst
        cases hp : place t with
        | unstarted => exact absurd hp hne
        | hand i k => cases k <;> simp [hst, hp, Place.state]
        | _ => simp [hst, hp, Sched.Place.state]
    | leaving i =>
        simp only [hph, PhaseAt, ht] at hat
        simp_all
    | _ =>
        simp only [hph, PhaseAt, ht] at hat
        simp_all
  · intro t ht hdead hs hu
    have hph := (h.phase.settled hs hu).resolve_right (by simp [ht])
    have hstate : (seen ph p.sched).state t = p.sched.state t := by simp [hph, Phase.state]
    have := h.base.settled (t := t) hs (by simpa [hph, Phase.started] using hw t ht)
      (by rwa [hstate])
    simpa only [Sched.RunsOnce, Sched.WaitsOnce, hstate, Sched.seen_cpuCount, Sched.seen_core,
      Sched.seenCore_currentThread] using this

/-- The scheduler fails on the core whose thread was unparked too early. -/
theorem InWindow.fails (h : p.InWindow t) (u : ℕ) :
    ∃ c, (p.unpark u t).Valid (.sched c .advance) ∧
      (p.unpark u t).exec (.sched c .advance) = none := by
  obtain ⟨c, hc, hpc, hcur, hst⟩ := h
  have hun : p.unpark u t = { p with
      sched := p.sched.setState t .ready
      woken := Function.update p.woken t true } := by
    simp [Parking.unpark, hst]
  refine ⟨c, ?_, ?_⟩
  · rw [hun]
    exact ⟨hc, by simp [hpc], by simp [hpc]⟩
  · rw [hun]
    by_cases hirq : (p.sched.core c).irqEnabled = true <;>
      simp [Parking.exec, Sched.exec, Sched.advance, hpc, Sched.enterSchedule, hcur, hirq]

/-- In a run in which no thread is unparked before the scheduler has loaded its state,
no step fails, and every thread that was unparked after it entered `PARKING` runs on one
core, or waits in one run queue, once nobody is busy with it; the scheduler is left after
at most five steps. After any other unpark the next step of that core fails. -/
theorem parking_of_reachable (h : Reachable Initial CarefulStep p) :
    (∃ q, Placed p q) ∧
    (∀ op, p.Valid op → p.Careful op → ∃ p', p.exec op = some p') ∧
    (∀ c p', p.exec (.sched c .advance) = some p' →
      (p'.sched.core c).pc.rank < (p.sched.core c).pc.rank) ∧
    ∀ op, p.Valid op → ¬ p.Careful op → ∃ p' c, p.exec op = some p' ∧
      p'.Valid (.sched c .advance) ∧ p'.exec (.sched c .advance) = none := by
  obtain ⟨⟨ph, place, q, hi⟩, hw⟩ := inv_of_reachable h
  refine ⟨⟨q, hi.placed hw⟩, fun op hv hcare => ?_, fun c p' he => ?_, fun op hv hcare => ?_⟩
  · obtain ⟨p', -, -, -, he, -⟩ := hi.exec hv hcare
    exact ⟨p', he⟩
  · obtain ⟨s1, he1, rfl⟩ := Option.map_eq_some_iff.mp he
    exact Sched.rank_advance he1
  · cases op with
    | unpark u t =>
        obtain ⟨c, hc⟩ := InWindow.fails (not_not.mp hcare) u
        exact ⟨_, c, rfl, hc⟩
    | _ => exact absurd trivial hcare

instance (p : Parking) : (op : ParkOp) → Decidable (p.Valid op)
  | .sched c op => inferInstanceAs (Decidable (c < p.sched.cpuCount ∧ p.sched.Valid c op))
  | .park c => inferInstanceAs (Decidable (c < p.sched.cpuCount ∧ (p.sched.core c).pc = .thread ∧
      (p.sched.core c).currentThread ≠ some (p.sched.idleThread c)))
  | .unpark u _ => inferInstanceAs (Decidable (p.pending u = none))
  | .put u c => inferInstanceAs (Decidable (c < p.sched.cpuCount ∧ (p.pending u).isSome))

instance (p : Parking) (t : ℕ) : Decidable (p.InWindow t) :=
  inferInstanceAs (Decidable (∃ c < p.sched.cpuCount, (p.sched.core c).pc = .enter ∧
    (p.sched.core c).currentThread = some t ∧ p.sched.state t = .parking))

instance (p : Parking) : (op : ParkOp) → Decidable (p.Careful op)
  | .unpark _ t => inferInstanceAs (Decidable (¬ p.InWindow t))
  | .sched _ _ | .park _ | .put _ _ => .isTrue trivial

/-- The steps of a run, all of them valid and careful. -/
def carefulRun : List ParkOp → Parking → Option Parking
  | [], p => some p
  | op :: ops, p =>
    if p.Valid op ∧ p.Careful op then (p.exec op).bind (carefulRun ops) else none

theorem reachable_carefulRun {ops : List ParkOp} (h : Reachable Initial CarefulStep p)
    (he : carefulRun ops p = some p') : Reachable Initial CarefulStep p' := by
  induction ops generalizing p with
  | nil => exact Option.some.inj he ▸ h
  | cons op ops ih =>
      rw [carefulRun] at he
      split at he
      · rename_i hv
        obtain ⟨p1, h1, h2⟩ := Option.bind_eq_some_iff.mp he
        exact ih (h.next ⟨op, hv.1, hv.2, h1⟩) h2
      · simp at he

/-- Two cores after `sched_init`. -/
def twoCores : Parking := ⟨Sched.twoCores, fun _ => none, fun _ => false⟩

theorem twoCores_initial : twoCores.Initial :=
  ⟨Sched.twoCores_initial, fun _ => rfl, fun _ => rfl⟩

/-- Thread 2 runs on core 0 and parks. -/
def firstPark : List ParkOp := Sched.firstEntry.map (.sched 0) ++ [.park 0]

/-- Thread 2 is unparked before the scheduler loads its state, and an assertion fails. -/
theorem not_parking_earlyUnpark :
    ∃ p, Reachable Initial Step p ∧ p.Valid (.sched 0 .advance) ∧
      p.exec (.sched 0 .advance) = none := by
  obtain ⟨p, he, hw⟩ : ∃ p, carefulRun firstPark twoCores = some p ∧ p.pending 0 = none ∧
      (p.unpark 0 2).Valid (.sched 0 .advance) ∧ (p.unpark 0 2).exec (.sched 0 .advance) = none :=
    ⟨_, rfl, by decide, by decide, rfl⟩
  have hr : Reachable Initial Step p :=
    (reachable_carefulRun (.start twoCores_initial) he).mono
      fun _ _ ⟨op, hv, _, he⟩ => ⟨op, hv, he⟩
  exact ⟨_, hr.next ⟨.unpark 0 2, hw.1, rfl⟩, hw.2⟩

/-- Thread 2 is unparked while its core is about to switch away from it: the core puts
it into the run queue when it finishes the park. -/
theorem parking_afterLoad :
    ∃ p : Parking, p.woken 2 = true ∧ ∃ q, Placed p q ∧ p.sched.WaitsOnce q 2 := by
  obtain ⟨p, he, hw, hst, hs, hu⟩ : ∃ p, carefulRun (firstPark ++ [.sched 0 .advance,
      .unpark 0 2, .sched 0 .advance, .sched 0 .advance, .sched 0 .advance]) twoCores = some p ∧
      p.woken 2 = true ∧ p.sched.state 2 = .ready ∧
      (∀ c < p.sched.cpuCount, (p.sched.core c).pc = .boot ∨ (p.sched.core c).pc = .thread) ∧
      p.pending = fun _ => none :=
    ⟨_, rfl, rfl, rfl, by decide, rfl⟩
  obtain ⟨q, hq⟩ := (parking_of_reachable (reachable_carefulRun (.start twoCores_initial) he)).1
  refine ⟨p, hw, q, hq, ?_⟩
  rcases hq.settled 2 hw (by simp [hst]) (Sched.Quiet.settled hs 2) (by simp [hu]) with h | h
  · simp [Sched.RunsOnce, hst] at h
  · exact h.1

end Parking

end Tomato
