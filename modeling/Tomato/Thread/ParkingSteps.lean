import Tomato.Thread.ParkingInvariant

/-!
# The steps of a run with parking

A step of a core is one of the scheduler without parking, as long as the core does not
load the state of a thread that parks and does not finish a park. These two, the start
of a park and the two steps of an unparker are the steps that change a phase.
-/

namespace Tomato

namespace Parking

open Sched (Phase seen Place Op)

variable {p p' : Parking} {ph : ℕ → Phase} {place : ℕ → Place} {q : ℕ → List ℕ} {c t u : ℕ}
  {s' : Sched} {op : Op}

namespace Inv

theorem awake_of_place (h : Inv p ph place q) (h0 : place t ≠ .unstarted)
    (h1 : ∀ i, place t ≠ .hand i .exiting) (h2 : ∀ i, place t ≠ .hand i .running) :
    ph t = .awake := by
  cases ht : ph t with
  | awake => rfl
  | preparing i => exact absurd (h.place_preparing ht) (h2 i)
  | leaving i => exact absurd (h.place_leaving ht) (h1 i)
  | parked | waking u => exact absurd (h.place_unstarted (by simp [ht, Phase.state])) h0

/-- A thread that is awake is neither parking nor parked. -/
theorem awake_state (h : Inv p ph place q) (ht : ph t = .awake) :
    p.sched.state t ≠ .parking ∧ p.sched.state t ≠ .parked := by
  have hok := (h.base.thread t).state
  simp only [Sched.seen_state, ht, Phase.state] at hok
  rw [hok]
  cases place t with
  | hand i k => cases k <;> simp [Place.state]
  | _ => simp [Place.state]

theorem idle_awake (h : Inv p ph place q) (hc : c < p.sched.cpuCount) :
    ph (p.sched.idleThread c) = .awake := by
  have hidle := h.base.idle c hc
  simp only [Sched.seen_idleThread] at hidle
  cases ht : ph (p.sched.idleThread c) with
  | awake => rfl
  | preparing i =>
      have hp := h.place_preparing ht
      obtain ⟨-, -, -, -, hne, -⟩ := h.phase.preparing ht
      have : i = c := by
        rw [hp] at hidle
        simpa using hidle
      exact absurd (by rw [this]) hne
  | leaving i =>
      rw [h.place_leaving ht] at hidle
      simp at hidle
  | parked | waking u =>
      rw [h.place_unstarted (by simp [ht, Phase.state])] at hidle
      simp at hidle

/-- The core neither loads the state of a thread that parks nor finishes a park. -/
def Plain (p : Parking) (ph : ℕ → Phase) (c : ℕ) : Op → Prop
  | .advance => (∀ t, ph t ≠ .preparing c) ∧
      ((p.sched.core c).pc = .after → (p.sched.core c).lastThreadAction ≠ .park)
  | _ => True

theorem valid_seen (hv : p.sched.Valid c op) : (seen ph p.sched).Valid c op := by
  cases op with
  | threadStart t =>
      refine ⟨hv.1, hv.2.1, ?_⟩
      simp only [Sched.seen_started, hv.2.2]
      cases ph t <;> rfl
  | _ => exact hv

theorem current_awake_of_plain (h : Inv p ph place q) (hc : c < p.sched.cpuCount)
    (hprep : ∀ t, ph t ≠ .preparing c) (h1 : (p.sched.core c).pc ≠ .select)
    (h2 : ∀ n, (p.sched.core c).pc ≠ .run n) :
    ∀ t, (p.sched.core c).currentThread = some t → ph t = .awake := fun t ht =>
  (h.current_awake hc ht h1 h2).resolve_right (hprep t)

theorem awake_of_touches (h : Inv p ph place q) (hc : c < p.sched.cpuCount)
    (hv : p.sched.Valid c op) (hplain : Plain p ph c op) (ht : p.sched.Touches c op t) :
    ph t = .awake := by
  have hthread : (p.sched.core c).pc = .thread → ∀ t, (p.sched.core c).currentThread = some t →
      ph t = .awake := fun e =>
    h.current_awake_of_plain hc (h.no_phase (by simp [e, Pc.InSchedule])).1 (by simp [e])
      (by simp [e])
  cases op with
  | threadStart u =>
      obtain rfl : t = u := ht
      by_contra hne
      exact absurd ((h.phase.resting t hne).2) (by simp [hv.2.2])
  | threadYield | threadExit | idleLoop => exact hthread hv.1 t ht
  | schedStartPerCore =>
      obtain rfl : t = p.sched.idleThread c := ht
      exact h.idle_awake hc
  | setIrq b => exact absurd ht id
  | advance =>
      unfold Sched.Touches at ht
      cases hpc : (p.sched.core c).pc with
      | enter =>
          simp only [hpc] at ht
          exact h.current_awake_of_plain hc hplain.1 (by simp [hpc]) (by simp [hpc]) t ht
      | run new =>
          simp only [hpc] at ht
          subst ht
          have hp := h.place_of_hand hc (t := t) (k := .chosen) (by simp [Sched.inHand, hpc])
          exact h.awake_of_place (by simp [hp]) (by simp [hp]) (by simp [hp])
      | after =>
          simp only [hpc] at ht
          exact absurd ht.1 (hplain.2 hpc)
      | _ => simp [hpc] at ht

theorem exec_seen (h : Inv p ph place q) (hc : c < p.sched.cpuCount)
    (hv : p.sched.Valid c op) (hplain : Plain p ph c op) :
    (seen ph p.sched).exec c op = (p.sched.exec c op).map (seen ph) := by
  have hcur : (p.sched.core c).pc = .thread → ∀ t, (p.sched.core c).currentThread = some t →
      ph t = .awake := fun e =>
    h.current_awake_of_plain hc (h.no_phase (by simp [e, Pc.InSchedule])).1 (by simp [e])
      (by simp [e])
  cases op with
  | threadStart t => exact Sched.threadStart_seen (h.awake_of_touches hc hv trivial rfl)
  | threadYield => exact Sched.threadYield_seen (hcur hv.1)
  | threadExit => exact Sched.threadExit_seen (hcur hv.1)
  | idleLoop => exact Sched.schedulerIdleLoop_seen (hcur hv.1)
  | schedStartPerCore => exact Sched.schedStartPerCore_seen (h.idle_awake hc)
  | setIrq b =>
      simp only [Sched.exec, Option.map_some, Sched.seen_setCore]
      rfl
  | advance =>
      cases hpc : (p.sched.core c).pc with
      | boot => exact absurd hpc hv.1
      | thread => exact absurd hpc hv.2
      | starting t b =>
          simp only [Sched.exec, Sched.advance, Sched.seen_core, Sched.seenCore_pc, hpc,
            Sched.seen_links]
          cases runQueuePut p.sched.links c (.thread t) with
          | none => rfl
          | some l =>
              simp only [Option.map_some, Sched.seen_setPc]
              rfl
      | enter =>
          have hcur := h.current_awake_of_plain hc hplain.1 (by simp [hpc]) (by simp [hpc])
          simp only [Sched.exec, Sched.advance, Sched.seen_core, Sched.seenCore_pc, hpc]
          exact Sched.enterSchedule_seen hcur fun t ht => (h.awake_state (hcur t ht)).1
      | requeue =>
          simp only [Sched.exec, Sched.advance, Sched.seen_core, Sched.seenCore_pc, hpc]
          exact Sched.putCurrent_seen
      | select =>
          simp only [Sched.exec, Sched.advance, Sched.seen_core, Sched.seenCore_pc, hpc]
          exact Sched.schedSelectThread_seen
      | run new =>
          simp only [Sched.exec, Sched.advance, Sched.seen_core, Sched.seenCore_pc, hpc]
          exact Sched.runThread_seen (h.awake_of_touches hc hv hplain (by simp [Sched.Touches, hpc]))
      | after =>
          have hcur := h.current_awake_of_plain hc hplain.1 (by simp [hpc]) (by simp [hpc])
          simp only [Sched.exec, Sched.advance, Sched.seen_core, Sched.seenCore_pc, hpc]
          exact Sched.schedulerAfterSchedule_seen hcur (hplain.2 hpc)

/-- What a plain step does to the variables of its core that a park depends on. -/
theorem core_of_plain (h : Inv p ph place q) (hc : c < p.sched.cpuCount)
    (hv : p.sched.Valid c op) (hplain : Plain p ph c op) (he : p.sched.exec c op = some s') :
    (∀ t, ph t ≠ .preparing c) ∧
    (∀ t, ph t = .leaving c → (s'.core c).lastThreadAction = .park ∧
      ((s'.core c).pc = .select ∧ (s'.core c).currentThread = some t ∨
        ((∃ n, (s'.core c).pc = .run n) ∨ (s'.core c).pc = .after) ∧
          (s'.core c).lastThread = some t)) ∧
    ((s'.core c).lastThreadAction = .park → ∃ t, ph t = .leaving c) := by
  have hout : ¬ (p.sched.core c).pc.InSchedule →
      (s'.core c).lastThreadAction = (p.sched.core c).lastThreadAction →
      (∀ t, ph t ≠ .preparing c) ∧
      (∀ t, ph t = .leaving c → (s'.core c).lastThreadAction = .park ∧
        ((s'.core c).pc = .select ∧ (s'.core c).currentThread = some t ∨
          ((∃ n, (s'.core c).pc = .run n) ∨ (s'.core c).pc = .after) ∧
            (s'.core c).lastThread = some t)) ∧
      ((s'.core c).lastThreadAction = .park → ∃ t, ph t = .leaving c) := by
    intro hpc hact
    obtain ⟨h1, h2⟩ := h.no_phase hpc
    exact ⟨h1, fun t ht => absurd ht (h2 t), fun ha => h.phase.action c hc (hact ▸ ha)⟩
  have hleave := fun t (ht : ph t = .leaving c) => (h.phase.leaving ht).1
  obtain ⟨-, -, k', ctx', hcore, -, hk⟩ := Sched.exec_cases he
  cases op with
  | advance =>
      cases hpc : (p.sched.core c).pc with
      | boot => exact absurd hpc hv.1
      | thread => exact absurd hpc hv.2
      | starting t b =>
          refine hout (by simp [hpc, Pc.InSchedule]) ?_
          simp only [Sched.exec, Sched.advance, hpc, Option.map_eq_some_iff] at he
          obtain ⟨l, -, rfl⟩ := he
          simp [Sched.setPc]
      | enter =>
          have hno : ∀ t, ph t ≠ .leaving c := fun t ht => by simpa [hpc] using (hleave t ht).2.2
          refine ⟨hplain.1, fun t ht => absurd ht (hno t), fun ha => ?_⟩
          simp only [Sched.exec, Sched.advance, hpc, Sched.enterSchedule, Option.bind_eq_bind,
            Option.bind_eq_some_iff] at he
          obtain ⟨t, ht, he⟩ := he
          have haw := h.current_awake_of_plain hc hplain.1 (by simp [hpc]) (by simp [hpc]) t ht
          split at he
          · simp at he
          split at he
          · obtain rfl := Option.some.inj he
            simp at ha
          · rename_i hst
            exact absurd hst (h.awake_state haw).1
          · obtain rfl := Option.some.inj he
            exact h.phase.action c hc (by simpa using ha)
          · simp at he
      | requeue =>
          have hno : ∀ t, ph t ≠ .leaving c := fun t ht => by simpa [hpc] using (hleave t ht).2.2
          refine ⟨hplain.1, fun t ht => absurd ht (hno t), fun ha => ?_⟩
          simp only [Sched.exec, Sched.advance, hpc, Sched.putCurrent, Option.bind_eq_bind,
            Option.bind_eq_some_iff] at he
          obtain ⟨t, -, l, -, he⟩ := he
          obtain rfl := Option.some.inj he
          exact h.phase.action c hc (by simpa [Sched.setPc] using ha)
      | select =>
          obtain ⟨new, l, rfl⟩ :=
            Sched.schedSelectThread_cases (by simpa [Sched.exec, Sched.advance, hpc] using he)
          refine ⟨hplain.1, fun t ht => ?_, fun ha => h.phase.action c hc (by simpa using ha)⟩
          obtain ⟨-, ha, ⟨-, hcur⟩ | ⟨e, -⟩⟩ := hleave t ht
          · simp [ha, hcur]
          · simp [hpc] at e
      | run new =>
          simp only [Sched.exec, Sched.advance, hpc, Sched.runThread] at he
          split at he
          · obtain rfl := Option.some.inj he
            refine ⟨hplain.1, fun t ht => ?_, fun ha => h.phase.action c hc (by simpa using ha)⟩
            obtain ⟨-, ha, ⟨e, -⟩ | ⟨-, hlast⟩⟩ := hleave t ht
            · simp [hpc] at e
            · simp [ha, hlast]
          · simp at he
      | after =>
          refine ⟨hplain.1, fun t ht => absurd (hleave t ht).2.1 (hplain.2 hpc), fun ha => ?_⟩
          rw [hcore, Function.update_self] at ha
          cases hk with
          | call op t ctx hne _ => exact absurd rfl hne
          | started t b e => simp [hpc] at e
          | inside k' _ hin hrank _ =>
              cases hk' : k'.pc <;> simp [hk', hpc, Pc.rank, Pc.InSchedule] at hin hrank
          | resume t _ _ => simp at ha
  | threadStart t =>
      refine hout (by rcases hv.1 with e | e <;> simp [e, Pc.InSchedule]) ?_
      rw [hcore, Function.update_self]
      cases hk <;> rfl
  | threadYield | threadExit | idleLoop | setIrq b =>
      refine hout (by simp [hv.1, Pc.InSchedule]) ?_
      rw [hcore, Function.update_self]
      cases hk <;> rfl
  | schedStartPerCore =>
      have hv : (p.sched.core c).pc = .boot := hv
      refine hout (by simp [hv, Pc.InSchedule]) ?_
      rw [hcore, Function.update_self]
      cases hk <;> rfl

/-- A step of a core that changes no phase. -/
theorem plainStep (h : Inv p ph place q) (hc : c < p.sched.cpuCount)
    (hv : p.sched.Valid c op) (hplain : Plain p ph c op) :
    ∃ s1 place' q', p.sched.exec c op = some s1 ∧ Inv { p with sched := s1 } ph place' q' := by
  obtain ⟨s', place', q', e, hi⟩ := h.base.exec hc (valid_seen hv)
  rw [h.exec_seen hc hv hplain] at e
  obtain ⟨s1, e1, rfl⟩ := Option.map_eq_some_iff.mp e
  obtain ⟨h1, h2, h3⟩ := h.core_of_plain hc hv hplain e1
  obtain ⟨hcpu, hidle, k', ctx', hcore, -, -⟩ := Sched.exec_cases e1
  refine ⟨s1, place', q', e1, hi, h.phase.frame hcpu hidle ?_ h1 h2 h3 ?_⟩
  · intro i hic
    rw [hcore, Function.update_of_ne hic]
  · exact fun t ht => Sched.exec_same e1 fun htouch => ht (h.awake_of_touches hc hv hplain htouch)

/-- A thread in the hands of the core that is not its own idle thread is no idle thread. -/
theorem not_isIdle (h : Inv p ph place q) (hown : (place t).owner = some c)
    (hne : t ≠ p.sched.idleThread c) : ¬ p.sched.IsIdle t := by
  rintro ⟨i, hi, rfl⟩
  have := h.base.idle_owner (c := i) hi
  simp only [Sched.seen_idleThread] at this
  rw [hown] at this
  exact hne (by rw [Option.some.inj this])

/-- A thread that parks calls the scheduler in order to come back. -/
theorem threadPark (h : Inv p ph place q) (hv : p.Valid (.park c)) :
    ∃ p' ph' place' q', p.threadPark c = some p' ∧ Inv p' ph' place' q' := by
  obtain ⟨hc, hpc, hne⟩ := hv
  obtain ⟨t, hcur, -, hp, -⟩ := h.base.current_thread (c := c) hc hpc
  have hcur : (p.sched.core c).currentThread = some t := hcur
  obtain ⟨hprep, hleave⟩ := h.no_phase (c := c) (by simp [hpc, Pc.InSchedule])
  have haw : ph t = .awake :=
    h.current_awake_of_plain hc hprep (by simp [hpc]) (by simp [hpc]) t hcur
  obtain ⟨s', place', q', e, hi⟩ := h.base.threadYield (c := c) hc ⟨hpc, hne⟩
  have hidle : t ≠ p.sched.idleThread c := fun e => hne (e ▸ hcur)
  obtain ⟨p', hp'⟩ : ∃ p', p.threadPark c = some p' ∧ p' = { p with
      sched := ((p.sched.setState t .parking).setContext t .inYield).setCore c
        { p.sched.core c with irqEnabled := false, pc := .enter }
      woken := Function.update p.woken t false } :=
    ⟨_, by simp only [Parking.threadPark, hcur, Option.bind_eq_bind, Option.bind_some], rfl⟩
  refine ⟨p', Function.update ph t (.preparing c), place', q', hp'.1, ?_, ?_⟩
  · rw [Sched.threadYield_seen (fun u hu => by
      rw [← Option.some.inj (hcur.symm.trans hu)]
      exact haw)] at e
    simp only [Sched.threadYield, Option.bind_eq_bind, hcur, Option.bind_some, Option.map_some,
      Option.some.injEq] at e
    have hrun : p.sched.state t = .running := by
      have hok := (h.base.thread t).state
      rwa [Sched.seen_state, haw, hp] at hok
    -- it is still seen as a running thread
    have hsee : seen (Function.update ph t (.preparing c)) p'.sched = s' := by
      rw [← e, hp'.2]
      simp only [Sched.seen, Sched.setCore, Sched.setContext, Sched.setState]
      congr 1 <;> funext x <;> by_cases hx : x = t <;>
        simp_all [Phase.state, Phase.context, Phase.started]
    rwa [hsee]
  · rw [hp'.2]
    refine h.phase.update (c := c) (.preparing c) rfl rfl ?_ (Or.inr fun v _ => ⟨hprep v, hleave v⟩)
      (by simp [haw]) ?_ (fun _ _ _ => Iff.rfl) ?_ ?_ ?_ ?_
    · intro i hi
      simp [hi]
    · intro v hv
      simp [hv]
    · intro u hu
      simp [h.phase.pending u t hu] at haw
    · intro _ ha
      obtain ⟨v, hv⟩ := h.phase.action c hc (by simpa using ha)
      exact absurd hv (hleave v)
    · simp [PhaseAt, hc, hcur, hidle]
    · intro _
      have hnot : ¬ p.sched.IsIdle t := h.not_isIdle (by rw [hp]; rfl) hidle
      have hst := (h.base.thread t).started.mpr ⟨by simp [hp], hnot⟩
      simpa [haw, Phase.started] using hst

/-- The core loads the state of a thread that parks. -/
theorem enterParking (h : Inv p ph place q) (ht : ph t = .preparing c) :
    ∃ s1 ph' place' q', p.sched.advance c = some s1 ∧
      Inv { p with sched := s1 } ph' place' q' := by
  obtain ⟨hc, hst, hpc, hcur, hne, hwoken⟩ := h.phase.preparing ht
  obtain ⟨hctx, hstarted⟩ := h.phase.resting t (by simp [ht])
  have hp := h.place_preparing ht
  have hok := h.base.thread t
  have hcore := h.base.core c hc
  simp only [Sched.CoreOk, Sched.seen_core, Sched.seenCore_pc, hpc, Sched.seenCore_irqEnabled]
    at hcore
  obtain ⟨-, hact, hirq⟩ := hcore
  have hin : (seen ph p.sched).inHand c = [(t, .running)] := by
    simp [Sched.inHand, hpc, hcur, ht, Phase.context, hctx]
  have hact : (p.sched.core c).lastThreadAction = .none := by
    simp only [Sched.seenCore] at hact
    split at hact
    · simp at hact
    · exact hact
  have honly : ∀ v ≠ t, ph v ≠ .preparing c ∧ ph v ≠ .leaving c := by
    refine fun v hv => ⟨fun e => hv ?_, fun e => ?_⟩
    · obtain ⟨-, -, -, hcur', -⟩ := h.phase.preparing e
      exact Option.some.inj (hcur'.symm.trans hcur)
    · obtain ⟨⟨-, ha, -⟩, -⟩ := h.phase.leaving e
      simp [hact] at ha
  have he : p.sched.advance c = some (p.sched.setCore c
      { p.sched.core c with lastThreadAction := .park, pc := .select }) := by
    simp [Sched.advance, hpc, Sched.enterSchedule, hcur, hirq, hst]
  have hown : (place t).owner = some c := by rw [hp]; rfl
  refine ⟨_, Function.update ph t (.leaving c), Function.update place t (.hand c .exiting),
    Function.update q c (q c), he, ?_, ?_⟩
  · refine h.base.update hc {t} rfl rfl ?_ ?_ ?_ ?_ ?_ (h.base.queues hc).1 (h.base.queues hc).2
      ?_ ?_ ?_ ?_ ?_
    · intro i hi
      simp [hi]
    · rintro _ rfl i hi
      exact (Option.some.inj (hown.symm.trans hi)).symm
    · rintro _ rfl i hi
      simp only [Function.update_self, Place.owner, Option.some.injEq] at hi
      exact hi.symm
    · intro v hv
      have hv : v ≠ t := hv
      simp [Sched.seen, hv]
    · rintro _ rfl
      have hst := hok.started
      have hputs := hok.puts
      refine ⟨by simp [Place.state, Phase.state], ?_, by simp [Place.state, Phase.context], ?_⟩
      · simpa [Sched.seen, hp] using hputs
      · simpa [hp, ht, Phase.started, Sched.IsIdle] using hst
    · intro v
      rw [h.base.mem_queue c hc]
      grind
    · have := h.base.idle c hc
      simp only [Sched.seen_idleThread] at this ⊢
      grind
    · grind
    · intro v k
      have := h.base.hand c hc v k
      rw [hin] at this
      simp [Sched.inHand, Sched.seenCore, hcur]
      grind
    · simp [Sched.CoreOk, Sched.seenCore, hcur]
  · refine h.phase.update (c := c) (.leaving c) rfl rfl ?_ (Or.inr honly) (by simp [ht]) ?_
      (fun _ _ _ => Iff.rfl) ?_ ?_ ?_ ?_
    · intro i hi
      simp [hi]
    · intro v hv
      simp
    · intro u hu
      simp [h.phase.pending u t hu] at ht
    · exact fun _ _ => rfl
    · simp [PhaseAt, hc, hcur, hst, hwoken]
    · exact fun _ => ⟨hctx, hstarted⟩

/-- The core finishes the park of a thread that it has switched away from. -/
theorem finishPark (h : Inv p ph place q) (ht : ph t = .leaving c)
    (hpc : (p.sched.core c).pc = .after) :
    ∃ s1 ph' place' q', p.sched.advance c = some s1 ∧
      Inv { p with sched := s1 } ph' place' q' := by
  obtain ⟨⟨hc, hact, hlast⟩, hst⟩ := h.phase.leaving ht
  simp only [hpc, reduceCtorEq, false_and, exists_const, or_true, true_and, false_or] at hlast
  obtain ⟨hctx, hstarted⟩ := h.phase.resting t (by simp [ht])
  have hp := h.place_leaving ht
  have hown : (place t).owner = some c := by rw [hp]; rfl
  have hok := h.base.thread t
  have hcore := h.base.core c hc
  simp only [Sched.CoreOk, Sched.seen_core, Sched.seenCore_pc, hpc,
    Sched.seenCore_currentThread] at hcore
  obtain ⟨⟨v, hcur⟩, -⟩ := hcore
  have hin : (seen ph p.sched).inHand c = [(v, .running), (t, .exiting)] := by
    simp [Sched.inHand, Sched.seenCore, hpc, hcur, hact, hlast]
  have hpv : place v = .hand c .running := h.place_of_hand hc (by simp [hin])
  have honly : ∀ x ≠ t, ph x ≠ .preparing c ∧ ph x ≠ .leaving c := by
    refine fun x hx => ⟨fun e => ?_, fun e => hx ?_⟩
    · obtain ⟨-, -, hpc', -⟩ := h.phase.preparing e
      simp [hpc] at hpc'
    · obtain ⟨⟨-, -, hlast'⟩, -⟩ := h.phase.leaving e
      simp only [hpc, reduceCtorEq, false_and, exists_const, or_true, true_and, false_or] at hlast'
      exact Option.some.inj (hlast'.symm.trans hlast)
  have hv : ph v = .awake := by
    refine (h.current_awake hc hcur (by simp [hpc]) (by simp [hpc])).resolve_right fun e => ?_
    obtain ⟨-, -, hpc', -⟩ := h.phase.preparing e
    simp [hpc] at hpc'
  have hctxv : p.sched.context v ≠ .inExit := by
    have hokv := (h.base.thread v).context
    simp only [Sched.seen_context, hv, Phase.context, hpv, Place.state] at hokv
    rw [ne_eq, hokv]
    simp
  -- the core goes on with the thread that it switched to
  have hreturn : ∀ s2 : Sched, s2.core = p.sched.core → s2.context = p.sched.context →
      p.sched.schedulerFinishPark c t = some s2 →
      ∃ b, p.sched.advance c = some (s2.setCore c ⟨some v, none, .none, b, .thread⟩) := by
    intro s2 _ h2 hfin
    cases hcv : p.sched.context v with
    | inExit => exact absurd hcv hctxv
    | inYield =>
        exact ⟨true, by simp [Sched.advance, hpc, Sched.schedulerAfterSchedule, hact, hlast, hfin,
          hcur, h2, hcv]⟩
    | _ =>
        exact ⟨(p.sched.core c).irqEnabled, by simp [Sched.advance, hpc,
          Sched.schedulerAfterSchedule, hact, hlast, hfin, hcur, h2, hcv]⟩
  rcases hst with ⟨hst, hwoken⟩ | hst
  · obtain ⟨b, he⟩ := hreturn (p.sched.setState t .parked) rfl rfl
      (by simp [Sched.schedulerFinishPark, hst])
    refine ⟨_, Function.update ph t .parked, Function.update place t .unstarted,
      Function.update q c (q c), he, ?_, ?_⟩
    · refine h.base.update hc {t} rfl rfl ?_ ?_ ?_ ?_ ?_ (h.base.queues hc).1 (h.base.queues hc).2
        ?_ ?_ ?_ ?_ ?_
      · intro i hi
        simp [hi]
      · rintro _ rfl i hi
        exact (Option.some.inj (hown.symm.trans hi)).symm
      · rintro _ rfl i hi
        simp [Place.owner] at hi
      · intro x hx
        have hx : x ≠ t := hx
        simp [Sched.seen, hx]
      · rintro _ rfl
        have hputs := hok.puts
        refine ⟨by simp [Place.state, Phase.state], ?_, ?_, by simp [Phase.started]⟩
        · simpa [Sched.seen, hp] using hputs
        · simp [Phase.context, Place.state, hctx]
      · intro x
        rw [h.base.mem_queue c hc]
        grind
      · have := h.base.idle c hc
        simp only [Sched.seen_idleThread] at this ⊢
        grind
      · grind
      · intro x k
        have := h.base.hand c hc x k
        rw [hin] at this
        simp [Sched.inHand, Sched.seenCore]
        grind
      · simp [Sched.CoreOk, Sched.seenCore]
    · refine h.phase.update (c := c) .parked rfl rfl ?_ (Or.inr honly) (by simp [ht]) ?_
        (fun _ _ _ => Iff.rfl) ?_ ?_ ?_ ?_
      · intro i hi
        simp [hi]
      · intro x hx
        simp [hx]
      · intro u hu
        simp [h.phase.pending u t hu] at ht
      · intro _ ha
        simp at ha
      · simp [PhaseAt, hwoken]
      · exact fun _ => ⟨hctx, hstarted⟩
  · -- it was unparked in the meantime
    obtain ⟨l, e, hq, hother⟩ := h.base.put hc hp
    obtain ⟨b, he⟩ := hreturn { p.sched with links := l } rfl rfl
      (by simp only [Sched.seen_links] at e; simp [Sched.schedulerFinishPark, hst, e])
    refine ⟨_, Function.update ph t .awake, Function.update place t (.queued c),
      Function.update q c (t :: q c), he, ?_, ?_⟩
    · refine h.base.update hc {t} rfl rfl ?_ ?_ ?_ ?_ ?_ hq hother ?_ ?_ ?_ ?_ ?_
      · intro i hi
        simp [hi]
      · rintro _ rfl i hi
        exact (Option.some.inj (hown.symm.trans hi)).symm
      · rintro _ rfl i hi
        simp only [Function.update_self, Place.owner, Option.some.injEq] at hi
        exact hi.symm
      · intro x hx
        have hx : x ≠ t := hx
        simp [Sched.seen, hx]
      · rintro _ rfl
        have hputs := hok.puts
        have hst' := hok.started
        refine ⟨by simp [Place.state, Phase.state, hst], ?_, ?_, ?_⟩
        · simpa [Sched.seen, hp] using hputs
        · simp [Phase.context, Place.state, hctx]
        · simpa [hp, ht, Phase.started, Sched.IsIdle] using hst'
      · intro x
        rw [List.mem_cons, h.base.mem_queue c hc]
        grind
      · have := h.base.idle c hc
        simp only [Sched.seen_idleThread] at this ⊢
        grind
      · grind
      · intro x k
        have := h.base.hand c hc x k
        rw [hin] at this
        simp [Sched.inHand, Sched.seenCore]
        grind
      · simp [Sched.CoreOk, Sched.seenCore]
    · refine h.phase.update (c := c) .awake rfl rfl ?_ (Or.inr honly) (by simp [ht]) ?_
        (fun _ _ _ => Iff.rfl) ?_ ?_ trivial ?_
      · intro i hi
        simp [hi]
      · intro x hx
        simp
      · intro u hu
        simp [h.phase.pending u t hu] at ht
      · intro _ ha
        simp at ha
      · exact fun hne => absurd rfl hne

/-- The phase of a thread that the unparker finds parking or parked. -/
theorem phase_of_state (h : Inv p ph place q) (hw : ¬ p.InWindow t) :
    (p.sched.state t = .parking → ∃ i, ph t = .leaving i) ∧
      (p.sched.state t = .parked → ph t = .parked) := by
  have hat := h.phase.phaseAt t
  cases ht : ph t with
  | awake => exact ⟨fun e => absurd e (h.awake_state ht).1, fun e => absurd e (h.awake_state ht).2⟩
  | preparing i =>
      simp only [ht, PhaseAt] at hat
      exact absurd ⟨i, hat.1, hat.2.2.1, hat.2.2.2.1, hat.2.1⟩ hw
  | leaving i =>
      simp only [ht, PhaseAt] at hat
      refine ⟨fun _ => ⟨i, rfl⟩, fun e => ?_⟩
      rw [e] at hat
      simp at hat
  | parked =>
      simp only [ht, PhaseAt] at hat
      simp [hat.1]
  | waking u =>
      simp only [ht, PhaseAt] at hat
      simp [hat.1]

/-- The unparker changes the state of a thread. -/
theorem unpark (h : Inv p ph place q) (hv : p.Valid (.unpark u t)) (hw : ¬ p.InWindow t) :
    ∃ ph' place' q', Inv (p.unpark u t) ph' place' q' := by
  have hpend : p.pending u = none := hv
  obtain ⟨h1, h2⟩ := h.phase_of_state hw
  cases hst : p.sched.state t with
  | parking =>
      -- it stays where it is, and its core puts it into the run queue
      obtain ⟨i, ht⟩ := h1 hst
      have hun : p.unpark u t = { p with
          sched := p.sched.setState t .ready
          woken := Function.update p.woken t true } := by
        simp [Parking.unpark, hst]
      obtain ⟨hl, -⟩ := h.phase.leaving ht
      refine ⟨ph, place, q, ?_, ?_⟩
      · rw [hun, Sched.seen_setState_of_ne (by simp [ht])]
        exact h.base
      · have hupd : PhaseOk (p.unpark u t) (Function.update ph t (.leaving i)) := by
          refine h.phase.update (c := i) (.leaving i) ?_ ?_ ?_ (Or.inl ?_) (by simp [ht]) ?_ ?_ ?_
            (fun _ _ => rfl) ?_ ?_
          · rw [hun]
            rfl
          · rw [hun]
            rfl
          · intro _ _
            rw [hun]
            rfl
          · rw [hun]
            rfl
          · intro v hv
            simp [hun, hv]
          · intro _ _ _
            rw [hun]
          · intro w hw
            rw [hun] at hw
            simp [h.phase.pending w t hw] at ht
          · rw [hun]
            exact ⟨hl, Or.inr (by simp)⟩
          · intro _
            rw [hun]
            exact h.phase.resting t (by simp [ht])
        rwa [← ht, Function.update_eq_self] at hupd
  | parked =>
      have ht := h2 hst
      have hun : p.unpark u t = { p with
          sched := p.sched.setState t .ready
          pending := Function.update p.pending u (some t)
          woken := Function.update p.woken t true } := by
        simp [Parking.unpark, hst]
      refine ⟨Function.update ph t (.waking u), place, q, ?_, ?_⟩
      · have hne : Function.update ph t (.waking u) t ≠ .awake := by simp
        rw [hun, Sched.seen_setState_of_ne hne, Sched.seen_update (.waking u)]
        · exact h.base
        · funext st
          simp [ht, Phase.state]
        · funext ctx
          simp [ht, Phase.context]
        · funext b
          simp [ht, Phase.started]
      · refine h.phase.update (c := p.sched.cpuCount) (.waking u) ?_ ?_ ?_ (Or.inl ?_) ?_ ?_ ?_ ?_
          (fun hlt => absurd hlt (lt_irrefl _)) ?_ ?_
        · rw [hun]
          rfl
        · rw [hun]
          rfl
        · intro i _
          rw [hun]
          rfl
        · rw [hun]
          rfl
        · simp [ht]
        · intro v hv
          simp [hun, hv]
        · intro w v hvt
          rw [hun]
          by_cases hwu : w = u
          · subst hwu
            simp [hpend, Ne.symm hvt]
          · simp [hwu]
        · intro w hw
          rw [hun] at hw
          by_cases hwu : w = u
          · rw [hwu]
          · simp only [Function.update_of_ne hwu] at hw
            simp [h.phase.pending w t hw] at ht
        · rw [hun]
          simp [PhaseAt]
        · intro _
          rw [hun]
          exact h.phase.resting t (by simp [ht])
  | _ =>
      refine ⟨ph, place, q, ?_⟩
      simpa [Parking.unpark, hst] using h

/-- The unparker puts the thread into the run queue of the core that it runs on. -/
theorem unparkPut (h : Inv p ph place q) (hv : p.Valid (.put u c)) :
    ∃ p' ph' place' q', p.unparkPut u c = some p' ∧ Inv p' ph' place' q' := by
  obtain ⟨hc, hsome⟩ := hv
  obtain ⟨t, hpend⟩ := Option.isSome_iff_exists.mp hsome
  have ht := h.phase.pending u t hpend
  have hat := h.phase.phaseAt t
  simp only [ht, PhaseAt] at hat
  obtain ⟨hctx, hstarted⟩ := h.phase.resting t (by simp [ht])
  have hp : place t = .unstarted := h.place_unstarted (by simp [ht, Phase.state])
  have hok := h.base.thread t
  have hnot : t ∉ q c := by
    rw [h.base.mem_queue c hc, hp]
    simp
  obtain ⟨l, e, hq, hother⟩ := (h.base.queued c hc).put hnot
  have e : runQueuePut p.sched.links c (.thread t) = some l := e
  have hidle : ¬ p.sched.IsIdle t := by
    rintro ⟨i, hi, rfl⟩
    simp [h.idle_awake hi] at ht
  obtain ⟨p', he, hp'⟩ : ∃ p', p.unparkPut u c = some p' ∧ p' = { p with
      sched := { p.sched with links := l }
      pending := Function.update p.pending u none } :=
    ⟨_, by simp only [Parking.unparkPut, hpend, Option.bind_eq_bind, Option.bind_some, e], rfl⟩
  refine ⟨p', Function.update ph t .awake, Function.update place t (.queued c),
    Function.update q c (t :: q c), he, ?_, ?_⟩
  · rw [hp']
    have hcur : ∀ v, (p.sched.core c).currentThread = some v → v ≠ t := by
      rintro _ hv rfl
      have := h.base.current_owner (c := c) hc hv
      simp [hp, Place.owner] at this
    refine h.base.update hc {t} rfl rfl (fun _ _ => rfl) ?_ ?_ ?_ ?_ hq ?_ ?_ ?_ ?_ ?_ ?_
    · rintro _ rfl i hi
      simp [hp, Place.owner] at hi
    · rintro _ rfl i hi
      simp only [Function.update_self, Place.owner, Option.some.injEq] at hi
      exact hi.symm
    · intro x hx
      have hx : x ≠ t := hx
      simp [Sched.seen, hx]
    · rintro _ rfl
      have hputs := hok.puts
      refine ⟨by simp [Place.state, Phase.state, hat.1], ?_, ?_, ?_⟩
      · simpa [Sched.seen, hp] using hputs
      · simp [Phase.context, Place.state, hctx]
      · simpa [Phase.started, Sched.IsIdle, hstarted] using hidle
    · intro i hi hic
      refine hother i (q i) hic (h.base.queued i hi) fun v hv => ?_
      have hpv := (h.base.mem_queue i hi v).mp hv
      simp only [List.mem_cons, h.base.mem_queue c hc]
      grind
    · intro x
      rw [List.mem_cons, h.base.mem_queue c hc]
      grind
    · have := h.base.idle c hc
      simp only [Sched.seen_idleThread] at this ⊢
      grind
    · grind
    · intro x k
      have hin : (seen (Function.update ph t .awake) { p.sched with links := l }).inHand c =
          (seen ph p.sched).inHand c := by
        simp only [Sched.inHand, Sched.seen_core, Sched.seenCore_pc]
        cases hpc : (p.sched.core c).pc with
        | enter =>
            refine List.map_congr_left fun v hv => ?_
            have hctxv : (seen (Function.update ph t .awake) { p.sched with links := l }).context v =
                (seen ph p.sched).context v := by
              simp [hcur v (by simpa using hv)]
            rw [hctxv]
        | _ => rfl
      rw [hin, h.base.hand c hc]
      by_cases hx : x = t
      · simp [hx, hp]
      · rw [Function.update_of_ne hx]
    · have hcore := h.base.core c hc
      unfold Sched.CoreOk at hcore ⊢
      simp only [Sched.seen_core, Sched.seenCore_pc, Sched.seenCore_currentThread,
        Sched.seenCore_lastThread] at hcore ⊢
      cases hpc : (p.sched.core c).pc with
      | select | run new =>
          simp only [hpc] at hcore ⊢
          obtain ⟨v, hv, hrest⟩ := hcore
          refine ⟨v, hv, ?_⟩
          rw [Function.update_of_ne (hcur v hv)]
          exact hrest
      | _ => simpa [hpc] using hcore
  · rw [hp']
    refine h.phase.update (c := p.sched.cpuCount) .awake rfl rfl (fun _ _ => rfl) (Or.inl rfl)
      (by simp [ht]) (fun _ _ => ⟨rfl, rfl, rfl, rfl⟩) ?_ ?_
      (fun hlt => absurd hlt (lt_irrefl _)) trivial (fun hne => absurd rfl hne)
    · intro w v hv
      by_cases hwu : w = u
      · subst hwu
        simp [hpend, Ne.symm hv]
      · simp [hwu]
    · intro w hw
      by_cases hwu : w = u
      · simp [hwu] at hw
      · simp only [Function.update_of_ne hwu] at hw
        have := h.phase.pending w t hw
        rw [ht] at this
        injection this with this
        exact absurd this.symm hwu

end Inv

end Parking

end Tomato
