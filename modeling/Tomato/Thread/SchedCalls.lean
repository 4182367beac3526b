import Tomato.Thread.SchedInvariant

/-!
# The calls of the scheduler

One lemma for each way in which the code of a thread calls the scheduler: a valid
call in a state with the invariant does not fail and leads to a state with the
invariant.
-/

namespace Tomato

namespace Sched

variable {s s' : Sched} {place : ℕ → Place} {q : ℕ → List ℕ} {c t u : ℕ}

/-- What the invariant says about the queue of the core when no thread changes its
place. -/
theorem Inv.queues (h : Inv s place q) (hc : c < s.cpuCount) :
    Queued s.links c (q c) ∧ ∀ i < s.cpuCount, i ≠ c → Queued s.links i (q i) :=
  ⟨h.queued c hc, fun i hi _ => h.queued i hi⟩

theorem Inv.place_of_hand (h : Inv s place q) (hc : c < s.cpuCount) {k : Kind}
    (hk : (t, k) ∈ s.inHand c) : place t = .hand c k := (h.hand c hc t k).mp hk

theorem Inv.threadStart (h : Inv s place q) (hc : c < s.cpuCount)
    (hv : s.Valid c (.threadStart t)) :
    ∃ s' place' q', s.threadStart c t = some s' ∧ Inv s' place' q' := by
  obtain ⟨hpc, hidle, hst⟩ := hv
  have ht := h.thread t
  have hp : place t = .unstarted := by
    by_contra hne
    have := ht.started.mpr ⟨hne, hidle⟩
    simp [hst] at this
  have hstate : s.state t = .idle := by rw [ht.state, hp]; rfl
  have hok := h.core c hc
  have hhand := h.hand c hc
  refine ⟨_, Function.update place t (.hand c .starting), Function.update q c (q c),
    by rw [Sched.threadStart, if_pos hstate], ?_⟩
  refine h.update hc {t} rfl rfl ?_ ?_ ?_ ?_ ?_ (h.queues hc).1 (h.queues hc).2 ?_ ?_ ?_ ?_ ?_
  · intro i hi
    simp [setPc, hi]
  · rintro _ rfl i hi
    simp [hp, Place.owner] at hi
  · rintro _ rfl i hi
    simp only [Function.update_self, Place.owner, Option.some.injEq] at hi
    exact hi.symm
  · intro u hu
    have hu : u ≠ t := hu
    simp [setPc, hu]
  · rintro _ rfl
    refine ⟨by simp [setPc, Place.state], ?_, ?_, ?_⟩
    · simp [setPc, ht.puts, hp]
    · simp [setPc, ht.context, hp, Place.state]
    · simpa [setPc, IsIdle] using hidle
  · intro u
    rw [h.mem_queue c hc]
    grind
  · have := h.idle c hc
    grind
  · grind
  · intro u k
    have := hhand u k
    unfold inHand CoreOk at *
    rcases hpc with e | e <;> simp_all [setPc] <;> grind
  · unfold CoreOk at *
    rcases hpc with e | e
    · simp_all [setPc]
    · simp only [e] at hok
      obtain ⟨⟨v, hv⟩, hact⟩ := hok
      simp [setPc, e, hv, hact]

/-- The code of a thread runs with the thread in the hands of the core. -/
theorem Inv.current_thread (h : Inv s place q) (hc : c < s.cpuCount)
    (hpc : (s.core c).pc = .thread) :
    ∃ t, (s.core c).currentThread = some t ∧ (s.core c).lastThreadAction = .none ∧
      place t = .hand c .running ∧ s.inHand c = [(t, .running)] := by
  have hok := h.core c hc
  simp only [CoreOk, hpc] at hok
  obtain ⟨⟨t, ht⟩, hact⟩ := hok
  have hin : s.inHand c = [(t, .running)] := by simp [inHand, hpc, ht]
  exact ⟨t, ht, hact, h.place_of_hand hc (by simp [hin]), hin⟩

/-- A thread that calls the scheduler in order to come back. -/
theorem Inv.call (h : Inv s place q) (hc : c < s.cpuCount) (hpc : (s.core c).pc = .thread)
    (ht : (s.core c).currentThread = some t) {ctx : Context} (hctx : ctx ≠ .inExit) :
    Inv ((s.setContext t ctx).setCore c
      { s.core c with irqEnabled := false, pc := .enter }) place (Function.update q c (q c)) := by
  obtain ⟨t', ht', hact, hp, hin⟩ := h.current_thread hc hpc
  obtain rfl : t = t' := Option.some.inj (ht.symm.trans ht')
  have hown : (place t).owner = some c := by rw [hp]; rfl
  have hok := h.thread t
  refine h.update hc {t} rfl rfl ?_ ?_ ?_ ?_ ?_ (h.queues hc).1 (h.queues hc).2
    (h.mem_queue c hc) (h.idle c hc) (fun u _ => h.waiting u c) ?_ ?_
  · intro i hi
    simp [hi]
  · rintro _ rfl i hi
    exact (Option.some.inj (hown.symm.trans hi)).symm
  · rintro _ rfl i hi
    exact (Option.some.inj (hown.symm.trans hi)).symm
  · intro u hu
    have hu : u ≠ t := hu
    simp [hu]
  · rintro _ rfl
    refine ⟨hok.state, hok.puts, ?_, hok.started⟩
    simp [hctx, hp, Place.state]
  · intro u k
    rw [← h.hand c hc, hin]
    simp [inHand, ht, hctx]
  · simp [CoreOk, ht, hact]

theorem Inv.threadYield (h : Inv s place q) (hc : c < s.cpuCount)
    (hv : s.Valid c .threadYield) :
    ∃ s' place' q', s.threadYield c = some s' ∧ Inv s' place' q' := by
  obtain ⟨t, ht, -⟩ := h.current_thread hc hv.1
  refine ⟨_, _, _, ?_, h.call hc hv.1 ht (show Context.inYield ≠ .inExit by decide)⟩
  simp [Sched.threadYield, ht]

theorem Inv.schedulerIdleLoop (h : Inv s place q) (hc : c < s.cpuCount)
    (hv : s.Valid c .idleLoop) :
    ∃ s' place' q', s.schedulerIdleLoop c = some s' ∧ Inv s' place' q' := by
  refine ⟨_, _, _, ?_, h.call hc hv.1 hv.2 (show Context.inIdleLoop ≠ .inExit by decide)⟩
  simp [Sched.schedulerIdleLoop, hv.2]

theorem Inv.threadExit (h : Inv s place q) (hc : c < s.cpuCount)
    (hv : s.Valid c .threadExit) :
    ∃ s' place' q', s.threadExit c = some s' ∧ Inv s' place' q' := by
  obtain ⟨hpc, hcur⟩ := hv
  obtain ⟨t, ht, hact, hp, hin⟩ := h.current_thread hc hpc
  have hok := h.thread t
  have hstate : s.state t = .running := by rw [hok.state, hp]; rfl
  have hne : s.idleThread c ≠ t := by
    rintro rfl
    exact hcur ht
  have hown : (place t).owner = some c := by rw [hp]; rfl
  have he : s.threadExit c = some (((s.setState t .dead).setContext t .inExit).setCore c
      { s.core c with irqEnabled := false, pc := .enter }) := by
    simp [Sched.threadExit, ht, hstate]
  refine ⟨_, Function.update place t (.hand c .exiting), Function.update q c (q c), he, ?_⟩
  refine h.update hc {t} rfl rfl ?_ ?_ ?_ ?_ ?_ (h.queues hc).1 (h.queues hc).2 ?_ ?_ ?_ ?_ ?_
  · intro i hi
    simp [hi]
  · rintro _ rfl i hi
    exact (Option.some.inj (hown.symm.trans hi)).symm
  · rintro _ rfl i hi
    simp only [Function.update_self, Place.owner, Option.some.injEq] at hi
    exact hi.symm
  · intro u hu
    have hu : u ≠ t := hu
    simp [hu]
  · rintro _ rfl
    have hst := hok.started
    refine ⟨by simp [Place.state], ?_, by simp [Place.state], ?_⟩
    · simp [hok.puts, hp]
    · simpa [IsIdle, hp] using hst
  · intro u
    rw [h.mem_queue c hc]
    grind
  · have := h.idle c hc
    grind
  · grind
  · intro u k
    have := h.hand c hc u k
    rw [hin] at this
    simp [inHand, ht]
    grind
  · simp [CoreOk, ht, hact]

theorem Inv.schedStartPerCore (h : Inv s place q) (hc : c < s.cpuCount)
    (hv : s.Valid c .schedStartPerCore) :
    ∃ s' place' q', s.schedStartPerCore c = some s' ∧ Inv s' place' q' := by
  have hpc : (s.core c).pc = .boot := hv
  have hok := h.thread (s.idleThread c)
  have hcore := h.core c hc
  have hin : s.inHand c = [] := by simp [inHand, hpc]
  have hp : place (s.idleThread c) = .waiting c := by
    have h1 := h.hand c hc (s.idleThread c)
    have h2 := h.idle c hc
    rw [hin] at h1
    grind
  simp only [CoreOk, hpc] at hcore
  refine ⟨_, Function.update place (s.idleThread c) (.hand c .running),
    Function.update q c (q c), rfl, ?_⟩
  refine h.update hc {s.idleThread c} rfl rfl ?_ ?_ ?_ ?_ ?_ (h.queues hc).1 (h.queues hc).2
    ?_ ?_ ?_ ?_ ?_
  · intro i hi
    simp [hi]
  · rintro _ rfl i hi
    rw [hp] at hi
    exact (Option.some.inj hi).symm
  · rintro _ rfl i hi
    simp only [Function.update_self, Place.owner, Option.some.injEq] at hi
    exact hi.symm
  · intro u hu
    have hu : u ≠ s.idleThread c := hu
    simp [hu]
  · rintro _ rfl
    have h1 := hok.context
    have h2 := hok.started
    refine ⟨by simp [Place.state], ?_, ?_, ?_⟩
    · simp [hok.puts, hp]
    · simpa [hp, Place.state] using h1
    · simpa [IsIdle, hp] using h2
  · intro u
    rw [h.mem_queue c hc]
    grind
  · simp
  · grind
  · intro u k
    have := h.hand c hc u k
    rw [hin] at this
    simp [inHand, hcore.2]
    grind
  · simp [CoreOk, hcore.2]

theorem Inv.setIrq (h : Inv s place q) (hc : c < s.cpuCount) {b : Bool}
    (hv : s.Valid c (.setIrq b)) :
    Inv (s.setCore c { s.core c with irqEnabled := b }) place (Function.update q c (q c)) := by
  obtain ⟨t, ht, hact, hp, hin⟩ := h.current_thread hc hv.1
  refine h.update hc ∅ rfl rfl ?_ (by simp) (by simp) (by simp) (by simp) (h.queues hc).1
    (h.queues hc).2 (h.mem_queue c hc) (h.idle c hc) (by simp) ?_ ?_
  · intro i hi
    simp [hi]
  · intro u k
    rw [← h.hand c hc, hin]
    simp [inHand, ht, hv.1]
  · simp [CoreOk, ht, hact, hv.1]

end Sched

end Tomato
