import Tomato.Thread.ParkingSeen

/-!
# Where a parking thread is

`PhaseOk` ties the phase of every thread to its state and to the core or the unparker
that has it in its hands. Together with the invariant of the scheduler without parking
it is the invariant of the runs in which no thread is unparked too early.
-/

namespace Tomato

namespace Parking

open Sched (Phase seen Place)

variable {p p' : Parking} {ph : ℕ → Phase} {place : ℕ → Place} {q : ℕ → List ℕ} {c t u : ℕ}
  {s' : Sched}

/-- What is known of a thread in the phase. -/
def PhaseAt (p : Parking) (t : ℕ) : Phase → Prop
  | .awake => True
  | .preparing c => c < p.sched.cpuCount ∧ p.sched.state t = .parking ∧
      (p.sched.core c).pc = .enter ∧ (p.sched.core c).currentThread = some t ∧
      t ≠ p.sched.idleThread c ∧ p.woken t = false
  | .leaving c => (c < p.sched.cpuCount ∧ (p.sched.core c).lastThreadAction = .park ∧
      ((p.sched.core c).pc = .select ∧ (p.sched.core c).currentThread = some t ∨
        ((∃ n, (p.sched.core c).pc = .run n) ∨ (p.sched.core c).pc = .after) ∧
          (p.sched.core c).lastThread = some t)) ∧
      (p.sched.state t = .parking ∧ p.woken t = false ∨ p.sched.state t = .ready)
  | .parked => p.sched.state t = .parked ∧ p.woken t = false
  | .waking u => p.sched.state t = .ready ∧ p.pending u = some t

structure PhaseOk (p : Parking) (ph : ℕ → Phase) : Prop where
  phaseAt : ∀ t, PhaseAt p t (ph t)
  resting : ∀ t, ph t ≠ .awake → p.sched.context t = .inYield ∧ p.sched.started t = true
  action : ∀ c < p.sched.cpuCount, (p.sched.core c).lastThreadAction = .park →
    ∃ t, ph t = .leaving c
  pending : ∀ u t, p.pending u = some t → ph t = .waking u

namespace PhaseOk

theorem preparing (h : PhaseOk p ph) (ht : ph t = .preparing c) : PhaseAt p t (.preparing c) :=
  ht ▸ h.phaseAt t

theorem leaving (h : PhaseOk p ph) (ht : ph t = .leaving c) : PhaseAt p t (.leaving c) :=
  ht ▸ h.phaseAt t

end PhaseOk

/-- The invariant of a run in which no thread is unparked too early. -/
structure Inv (p : Parking) (ph : ℕ → Phase) (place : ℕ → Place) (q : ℕ → List ℕ) : Prop where
  base : Sched.Inv (seen ph p.sched) place q
  phase : PhaseOk p ph

/-- A step of the core `c` that touches no thread that parks or parked. -/
theorem PhaseOk.frame (h : PhaseOk p ph) (hcpu : s'.cpuCount = p.sched.cpuCount)
    (hidle : s'.idleThread = p.sched.idleThread) (hcore : ∀ i ≠ c, s'.core i = p.sched.core i)
    (hprep : ∀ t, ph t ≠ .preparing c)
    (hleave : ∀ t, ph t = .leaving c → (s'.core c).lastThreadAction = .park ∧
      ((s'.core c).pc = .select ∧ (s'.core c).currentThread = some t ∨
        ((∃ n, (s'.core c).pc = .run n) ∨ (s'.core c).pc = .after) ∧
          (s'.core c).lastThread = some t))
    (haction : (s'.core c).lastThreadAction = .park → ∃ t, ph t = .leaving c)
    (hsame : ∀ t, ph t ≠ .awake → s'.state t = p.sched.state t ∧
      s'.context t = p.sched.context t ∧ s'.started t = p.sched.started t) :
    PhaseOk { p with sched := s' } ph where
  phaseAt := fun t => by
    have ht := h.phaseAt t
    cases hp : ph t with
    | awake => trivial
    | preparing i =>
        have hic : i ≠ c := fun e => hprep t (e ▸ hp)
        simp only [hp, PhaseAt, hcore i hic, hcpu, hidle, (hsame t (by simp [hp])).1] at ht ⊢
        exact ht
    | leaving i =>
        simp only [hp, PhaseAt, hcpu, (hsame t (by simp [hp])).1] at ht ⊢
        by_cases hic : i = c
        · subst hic
          exact ⟨⟨ht.1.1, hleave t hp⟩, ht.2⟩
        · simp only [hcore i hic]
          exact ht
    | parked | waking u =>
        simp only [hp, PhaseAt, (hsame t (by simp [hp])).1] at ht ⊢
        exact ht
  resting := fun t ht => by
    simp only [(hsame t ht).2.1, (hsame t ht).2.2]
    exact h.resting t ht
  action := fun i hi ha => by
    by_cases hic : i = c
    · subst hic
      exact haction ha
    · simp only [hcore i hic] at ha
      exact h.action i (hcpu ▸ hi) ha
  pending := h.pending

/-- A step that gives the thread `t` the phase `x`, and changes no core but `c`. -/
theorem PhaseOk.update (h : PhaseOk p ph) (x : Phase) (hcpu : p'.sched.cpuCount = p.sched.cpuCount)
    (hidle : p'.sched.idleThread = p.sched.idleThread)
    (hcore : ∀ i ≠ c, p'.sched.core i = p.sched.core i)
    (hother : p'.sched.core c = p.sched.core c ∨
      ∀ v ≠ t, ph v ≠ .preparing c ∧ ph v ≠ .leaving c)
    (hold : ∀ i, ph t = .leaving i → i = c)
    (hsame : ∀ v ≠ t, p'.sched.state v = p.sched.state v ∧
      p'.sched.context v = p.sched.context v ∧ p'.sched.started v = p.sched.started v ∧
      p'.woken v = p.woken v)
    (hpend : ∀ u, ∀ v ≠ t, p'.pending u = some v ↔ p.pending u = some v)
    (hpendt : ∀ u, p'.pending u = some t → x = .waking u)
    (haction : c < p.sched.cpuCount → (p'.sched.core c).lastThreadAction = .park → x = .leaving c)
    (hx : PhaseAt p' t x)
    (hrest : x ≠ .awake → p'.sched.context t = .inYield ∧ p'.sched.started t = true) :
    PhaseOk p' (Function.update ph t x) := by
  have hcore' : ∀ v ≠ t, ∀ i, ph v = .preparing i ∨ ph v = .leaving i →
      p'.sched.core i = p.sched.core i := by
    intro v hv i hi
    by_cases hic : i = c
    · subst hic
      rcases hother with e | e
      · exact e
      · exact absurd hi (not_or.mpr (e v hv))
    · exact hcore i hic
  refine ⟨fun v => ?_, fun v hv => ?_, fun i hi ha => ?_, fun u v hu => ?_⟩
  · by_cases hvt : v = t
    · subst hvt
      rwa [Function.update_self]
    · rw [Function.update_of_ne hvt]
      have hv := h.phaseAt v
      obtain ⟨h1, -, -, h4⟩ := hsame v hvt
      cases hp : ph v with
      | awake => trivial
      | preparing i =>
          simp only [hp, PhaseAt, hcore' v hvt i (Or.inl hp), hcpu, hidle, h1, h4] at hv ⊢
          exact hv
      | leaving i =>
          simp only [hp, PhaseAt, hcore' v hvt i (Or.inr hp), hcpu, h1, h4] at hv ⊢
          exact hv
      | parked =>
          simp only [hp, PhaseAt, h1, h4] at hv ⊢
          exact hv
      | waking u =>
          simp only [hp, PhaseAt, h1, hpend u v hvt] at hv ⊢
          exact hv
  · by_cases hvt : v = t
    · subst hvt
      rw [Function.update_self] at hv
      exact hrest hv
    · rw [Function.update_of_ne hvt] at hv
      rw [(hsame v hvt).2.1, (hsame v hvt).2.2.1]
      exact h.resting v hv
  · rw [hcpu] at hi
    by_cases hic : i = c
    · subst hic
      exact ⟨t, by rw [Function.update_self, haction hi ha]⟩
    · rw [hcore i hic] at ha
      obtain ⟨v, hv⟩ := h.action i hi ha
      refine ⟨v, ?_⟩
      rw [Function.update_of_ne, hv]
      rintro rfl
      exact hic (hold i hv)
  · by_cases hvt : v = t
    · subst hvt
      rw [Function.update_self, hpendt u hu]
    · rw [Function.update_of_ne hvt]
      exact h.pending u v ((hpend u v hvt).mp hu)

namespace Inv

theorem place_of_hand (h : Inv p ph place q) (hc : c < p.sched.cpuCount) {k : Sched.Kind}
    (hk : (t, k) ∈ (seen ph p.sched).inHand c) : place t = .hand c k :=
  (h.base.hand c hc t k).mp hk

theorem place_leaving (h : Inv p ph place q) (ht : ph t = .leaving c) :
    place t = .hand c .exiting := by
  obtain ⟨⟨hc, ha, hpc⟩, -⟩ := h.phase.leaving ht
  refine h.place_of_hand hc ?_
  rcases hpc with ⟨e, hcur⟩ | ⟨⟨n, e⟩ | e, hlast⟩
  · simp [Sched.inHand, Sched.seenCore, e, ha, hcur]
  · have hok := h.base.core c hc
    simp only [Sched.CoreOk, Sched.seen_core, Sched.seenCore_pc, e] at hok
    obtain ⟨v, hv, hl, -⟩ := hok
    simp only [Sched.seenCore_lastThread, Sched.seenCore_currentThread] at hv hl
    obtain rfl : t = v := Option.some.inj (hlast.symm.trans hl)
    simp [Sched.inHand, Sched.seenCore, e, ha, hv]
  · simp [Sched.inHand, Sched.seenCore, e, ha, hlast]

theorem place_preparing (h : Inv p ph place q) (ht : ph t = .preparing c) :
    place t = .hand c .running := by
  obtain ⟨hc, hst, hpc, hcur, -⟩ := h.phase.preparing ht
  have hctx := (h.phase.resting t (by simp [ht])).1
  refine h.place_of_hand hc ?_
  simp [Sched.inHand, hpc, hcur, ht, Phase.context, hctx]

theorem place_unstarted (h : Inv p ph place q) (hst : ((ph t).state (p.sched.state t)) = .idle) :
    place t = .unstarted := by
  have hok := (h.base.thread t).state
  rw [Sched.seen_state, hst] at hok
  cases hp : place t with
  | unstarted => rfl
  | hand i k => cases k <;> simp [hp, Place.state] at hok
  | _ => simp [hp, Place.state] at hok

/-- The thread that a core executes is awake, unless it is about to park. -/
theorem current_awake (h : Inv p ph place q) (hc : c < p.sched.cpuCount)
    (hcur : (p.sched.core c).currentThread = some t) (hpc : (p.sched.core c).pc ≠ .select)
    (hrun : ∀ n, (p.sched.core c).pc ≠ .run n) :
    ph t = .awake ∨ ph t = .preparing c := by
  have hown := h.base.current_owner (c := c) hc hcur
  cases ht : ph t with
  | awake => exact Or.inl rfl
  | preparing i =>
      rw [h.place_preparing ht] at hown
      exact Or.inr (by rw [Option.some.inj hown])
  | leaving i =>
      have hpl := h.place_leaving ht
      rw [hpl] at hown
      obtain rfl : i = c := Option.some.inj hown
      obtain ⟨⟨-, -, ⟨e, -⟩ | ⟨⟨n, e⟩ | e, hlast⟩⟩, -⟩ := h.phase.leaving ht
      · exact absurd e hpc
      · exact absurd e (hrun n)
      · have := h.place_of_hand hc (t := t) (k := .running) (by simp [Sched.inHand, e, hcur])
        simp [hpl] at this
  | parked | waking u =>
      rw [h.place_unstarted (by simp [ht, Phase.state])] at hown
      simp [Place.owner] at hown

/-- No thread is about to park on a core that is not inside the scheduler. -/
theorem no_phase (h : Inv p ph place q) (hpc : ¬ (p.sched.core c).pc.InSchedule) :
    (∀ t, ph t ≠ .preparing c) ∧ ∀ t, ph t ≠ .leaving c := by
  refine ⟨fun t ht => ?_, fun t ht => ?_⟩
  · obtain ⟨-, -, e, -⟩ := h.phase.preparing ht
    exact hpc (by simp [e, Pc.InSchedule])
  · obtain ⟨⟨-, -, ⟨e, -⟩ | ⟨⟨n, e⟩ | e, -⟩⟩, -⟩ := h.phase.leaving ht <;>
      exact hpc (by simp [e, Pc.InSchedule])

end Inv

end Parking

end Tomato
