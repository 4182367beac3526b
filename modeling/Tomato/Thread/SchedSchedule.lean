import Tomato.Thread.SchedCalls

/-!
# The steps of `scheduler_schedule`

One lemma for each atomic step of a core that is inside one of the functions. The
selected thread is always ready because it was in the queue, or because it is the
idle thread, which waits unless it is the one that runs; and the thread whose
reference is put is not the one that the core switched to.
-/

namespace Tomato

namespace Sched

variable {s s' : Sched} {place : ℕ → Place} {q : ℕ → List ℕ} {c t u : ℕ}

/-- A thread in the hands of a core is in no queue, so it can be put into the queue
of that core. -/
theorem Inv.put (h : Inv s place q) (hc : c < s.cpuCount) {k : Kind}
    (hp : place t = .hand c k) :
    ∃ l, runQueuePut s.links c (.thread t) = some l ∧ Queued l c (t :: q c) ∧
      ∀ i < s.cpuCount, i ≠ c → Queued l i (q i) := by
  have ht : t ∉ q c := by
    rw [h.mem_queue c hc, hp]
    simp
  obtain ⟨l, e, hq, hother⟩ := (h.queued c hc).put ht
  refine ⟨l, e, hq, fun i hi hic => hother i (q i) hic (h.queued i hi) ?_⟩
  intro v hv
  have hpv := (h.mem_queue i hi v).mp hv
  simp only [List.mem_cons, h.mem_queue c hc]
  grind

theorem Inv.startPut (h : Inv s place q) (hc : c < s.cpuCount) {booting : Bool}
    (hpc : (s.core c).pc = .starting t booting) :
    ∃ s' place' q', s.advance c = some s' ∧ Inv s' place' q' := by
  have hcore := h.core c hc
  simp only [CoreOk, hpc] at hcore
  obtain ⟨hboot, hact⟩ := hcore
  have hin : s.inHand c =
      (t, .starting) :: (s.core c).currentThread.toList.map (·, .running) := by
    simp [inHand, hpc]
  have hp : place t = .hand c .starting := h.place_of_hand hc (by simp [hin])
  have hok := h.thread t
  obtain ⟨l, e, hq, hother⟩ := h.put hc hp
  have he : s.advance c =
      some ({ s with links := l }.setPc c (if booting then .boot else .thread)) := by
    simp [advance, hpc, e]
  have hown : (place t).owner = some c := by rw [hp]; rfl
  refine ⟨_, Function.update place t (.queued c), Function.update q c (t :: q c), he, ?_⟩
  refine h.update hc {t} rfl rfl ?_ ?_ ?_ ?_ ?_ hq hother ?_ ?_ ?_ ?_ ?_
  · intro i hi
    simp [setPc, hi]
  · rintro _ rfl i hi
    exact (Option.some.inj (hown.symm.trans hi)).symm
  · rintro _ rfl i hi
    simp only [Function.update_self, Place.owner, Option.some.injEq] at hi
    exact hi.symm
  · intro u hu
    have hu : u ≠ t := hu
    simp [setPc, hu]
  · rintro _ rfl
    have h1 := hok.state
    have h2 := hok.context
    have h3 := hok.started
    refine ⟨by simpa [setPc, hp, Place.state] using h1, by simp [setPc, hok.puts, hp], ?_, ?_⟩
    · simpa [setPc, hp, Place.state] using h2
    · simpa [setPc, IsIdle, hp] using h3
  · intro u
    rw [List.mem_cons, h.mem_queue c hc]
    grind
  · have := h.idle c hc
    grind
  · grind
  · intro u k
    have := h.hand c hc u k
    rw [hin] at this
    cases hcur : (s.core c).currentThread with
    | none =>
        have hb := hboot.mpr hcur
        simp [inHand, setPc, hb]
        simp [hcur] at this
        grind
    | some v =>
        have hb : booting = false := by
          by_contra hb
          simp [hboot.mp (by simpa using hb)] at hcur
        simp [inHand, setPc, hb, hcur]
        simp [hcur] at this
        grind
  · cases booting with
    | true => simp [CoreOk, setPc, hboot.mp rfl, hact]
    | false =>
        have : (s.core c).currentThread ≠ none := fun hn => by simpa using hboot.mpr hn
        obtain ⟨v, hv⟩ := Option.ne_none_iff_exists'.mp this
        simp [CoreOk, setPc, hv, hact]

/-- The thread that calls the scheduler is running, or it has exited. -/
theorem Inv.enterSchedule (h : Inv s place q) (hc : c < s.cpuCount)
    (hpc : (s.core c).pc = .enter) :
    ∃ s' place' q', s.enterSchedule c = some s' ∧ Inv s' place' q' := by
  have hcore := h.core c hc
  simp only [CoreOk, hpc] at hcore
  obtain ⟨⟨t, ht⟩, hact, hirq⟩ := hcore
  have hok := h.thread t
  have hin : s.inHand c = [(t, if s.context t = .inExit then .exiting else .running)] := by
    simp [inHand, hpc, ht]
  have hp := h.place_of_hand hc (t := t) (by rw [hin]; exact List.mem_singleton_self _)
  by_cases hctx : s.context t = .inExit
  · rw [if_pos hctx] at hp hin
    have hstate : s.state t = .dead := by rw [hok.state, hp]; rfl
    have he : s.enterSchedule c = some (s.setCore c
        { s.core c with lastThreadAction := .put, pc := .select }) := by
      simp [Sched.enterSchedule, ht, hirq, hstate]
    refine ⟨_, place, Function.update q c (q c), he, ?_⟩
    refine h.update hc ∅ rfl rfl ?_ (by simp) (by simp) (by simp) (by simp) (h.queues hc).1
      (h.queues hc).2 (h.mem_queue c hc) (h.idle c hc) (by simp) ?_ ?_
    · intro i hi
      simp [hi]
    · intro u k
      rw [← h.hand c hc, hin]
      simp [inHand, ht]
    · simp [CoreOk, ht]
  · rw [if_neg hctx] at hp hin
    have hstate : s.state t = .running := by rw [hok.state, hp]; rfl
    have hown : (place t).owner = some c := by rw [hp]; rfl
    have he : s.enterSchedule c = some ((s.setState t .ready).setCore c { s.core c with
        pc := if t ≠ s.idleThread c then .requeue else .select }) := by
      simp [Sched.enterSchedule, ht, hirq, hstate]
    -- the idle thread only waits, any other thread goes to the queue
    obtain ⟨p, hpdef⟩ : ∃ p, p = if t = s.idleThread c then Place.waiting c
      else .hand c .requeuing := ⟨_, rfl⟩
    have hpstate : p.state = .ready := by rw [hpdef]; split <;> rfl
    have hpown : p.owner = some c := by rw [hpdef]; split <;> rfl
    refine ⟨_, Function.update place t p, Function.update q c (q c), he, ?_⟩
    refine h.update hc {t} rfl rfl ?_ ?_ ?_ ?_ ?_ (h.queues hc).1 (h.queues hc).2 ?_ ?_ ?_ ?_ ?_
    · intro i hi
      simp [hi]
    · rintro _ rfl i hi
      exact (Option.some.inj (hown.symm.trans hi)).symm
    · rintro _ rfl i hi
      rw [Function.update_self] at hi
      exact (Option.some.inj (hpown.symm.trans hi)).symm
    · intro u hu
      have hu : u ≠ t := hu
      simp [hu]
    · rintro _ rfl
      have h3 := hok.started
      have hgone : p ≠ .gone := by rintro rfl; simp [Place.owner] at hpown
      have hun : p ≠ .unstarted := by rintro rfl; simp [Place.owner] at hpown
      refine ⟨by simp [hpstate], by simp [hok.puts, hp, hgone], by simp [hctx, hpstate], ?_⟩
      simpa [IsIdle, hp, hun] using h3
    · intro u
      rw [h.mem_queue c hc]
      grind
    · have := h.idle c hc
      grind
    · grind
    · intro u k
      have := h.hand c hc u k
      rw [hin] at this
      by_cases hti : t = s.idleThread c
      · simp [inHand, hti, hact]
        grind
      · simp [inHand, hti, ht]
        grind
    · by_cases hti : t = s.idleThread c
      · simp [CoreOk, hti, hact, hpdef]
        grind
      · simp [CoreOk, hti, ht, hact]

theorem Inv.putCurrent (h : Inv s place q) (hc : c < s.cpuCount)
    (hpc : (s.core c).pc = .requeue) :
    ∃ s' place' q', s.putCurrent c = some s' ∧ Inv s' place' q' := by
  have hcore := h.core c hc
  simp only [CoreOk, hpc] at hcore
  obtain ⟨⟨t, ht, hti⟩, hact⟩ := hcore
  have hok := h.thread t
  have hin : s.inHand c = [(t, .requeuing)] := by simp [inHand, hpc, ht]
  have hp := h.place_of_hand hc (t := t) (by rw [hin]; exact List.mem_singleton_self _)
  have hown : (place t).owner = some c := by rw [hp]; rfl
  obtain ⟨l, e, hq, hother⟩ := h.put hc hp
  have he : s.putCurrent c = some ({ s with links := l }.setPc c .select) := by
    simp [Sched.putCurrent, ht, e]
  refine ⟨_, Function.update place t (.queued c), Function.update q c (t :: q c), he, ?_⟩
  refine h.update hc {t} rfl rfl ?_ ?_ ?_ ?_ ?_ hq hother ?_ ?_ ?_ ?_ ?_
  · intro i hi
    simp [setPc, hi]
  · rintro _ rfl i hi
    exact (Option.some.inj (hown.symm.trans hi)).symm
  · rintro _ rfl i hi
    simp only [Function.update_self, Place.owner, Option.some.injEq] at hi
    exact hi.symm
  · intro u hu
    have hu : u ≠ t := hu
    simp [setPc, hu]
  · rintro _ rfl
    have h1 := hok.state
    have h2 := hok.context
    have h3 := hok.started
    refine ⟨by simpa [setPc, hp, Place.state] using h1, by simp [setPc, hok.puts, hp], ?_, ?_⟩
    · simpa [setPc, hp, Place.state] using h2
    · simpa [setPc, IsIdle, hp] using h3
  · intro u
    rw [List.mem_cons, h.mem_queue c hc]
    grind
  · have := h.idle c hc
    grind
  · grind
  · intro u k
    have := h.hand c hc u k
    rw [hin] at this
    simp [inHand, setPc, hact]
    grind
  · simp [CoreOk, setPc, ht, hact]

/-- The selection, once it is known which thread it finds. -/
theorem Inv.select (h : Inv s place q) (hc : c < s.cpuCount) (hpc : (s.core c).pc = .select)
    {new : ℕ} {l : RqLinks} {qc : List ℕ} (hq : Queued l c qc)
    (hother : ∀ i < s.cpuCount, i ≠ c → Queued l i (q i))
    (hready : (place new).state = .ready) (hown : (place new).owner = some c)
    (hidle : place new = .waiting c → new = s.idleThread c)
    (hqueue : ∀ v, v ∈ qc ↔ v ≠ new ∧ place v = .queued c)
    (hsel : place new = .queued c ∨ place new = .waiting c) :
    Inv ({ s with links := l }.setCore c
      { s.core c with lastThread := (s.core c).currentThread, pc := .run new })
      (Function.update place new (.hand c .chosen)) (Function.update q c qc) := by
  have hcore := h.core c hc
  simp only [CoreOk, hpc] at hcore
  obtain ⟨t, ht, hact⟩ := hcore
  have hok := h.thread new
  have hin : s.inHand c = if (s.core c).lastThreadAction = .put then [(t, .exiting)] else [] := by
    simp [inHand, hpc, ht]
  refine h.update hc {new} rfl rfl ?_ ?_ ?_ ?_ ?_ hq hother ?_ ?_ ?_ ?_ ?_
  · intro i hi
    simp [hi]
  · rintro _ rfl i hi
    exact (Option.some.inj (hown.symm.trans hi)).symm
  · rintro _ rfl i hi
    simp only [Function.update_self, Place.owner, Option.some.injEq] at hi
    exact hi.symm
  · intro u hu
    have hu : u ≠ new := hu
    simp [hu]
  · rintro new rfl
    have h1 : s.state new = .ready := hok.state.trans hready
    have h2 : s.context new ≠ .inExit := by
      rw [ne_eq, hok.context, hready]
      simp
    have h3 := hok.started
    have hgone : place new ≠ .gone := by rintro hg; simp [hg, Place.owner] at hown
    have hun : place new ≠ .unstarted := by rintro hg; simp [hg, Place.owner] at hown
    refine ⟨by simp [h1, Place.state], by simp [hok.puts, hgone], ?_, ?_⟩
    · simpa [Place.state] using h2
    · simpa [IsIdle, hun] using h3
  · intro u
    rw [hqueue]
    grind
  · have := h.idle c hc
    grind
  · grind
  · intro u k
    have := h.hand c hc u k
    rw [hin] at this
    simp [inHand, ht]
    grind
  · simp [CoreOk, ht]
    grind

theorem Inv.schedSelectThread (h : Inv s place q) (hc : c < s.cpuCount)
    (hpc : (s.core c).pc = .select) :
    ∃ s' place' q', s.schedSelectThread c = some s' ∧ Inv s' place' q' := by
  have hq := h.queued c hc
  have hmem := h.mem_queue c hc
  have hnd := hq.nodup
  cases hqc : q c with
  | nil =>
      -- nothing is ready, so the idle thread is selected
      rw [hqc] at hq hmem
      have hin := h.hand c hc (s.idleThread c)
      have hp : place (s.idleThread c) = .waiting c := by
        have := h.idle c hc
        simp only [inHand, hpc] at hin
        grind
      have he : s.schedSelectThread c = some ({ s with links := s.links }.setCore c
          { s.core c with
            lastThread := (s.core c).currentThread, pc := .run (s.idleThread c) }) := by
        simp [Sched.schedSelectThread, hq.get_nil]
      exact ⟨_, _, _, he, h.select hc hpc hq (h.queues hc).2 (by rw [hp]; rfl) (by rw [hp]; rfl)
        (fun _ => rfl) (by grind) (Or.inr hp)⟩
  | cons u rest =>
      rw [hqc] at hq hmem hnd
      have hp : place u = .queued c := (hmem u).mp (by simp)
      obtain ⟨l, e, hl, hother⟩ := hq.get_cons
      have he : s.schedSelectThread c = some ({ s with links := l }.setCore c
          { s.core c with lastThread := (s.core c).currentThread, pc := .run u }) := by
        simp [Sched.schedSelectThread, e, RqEntry.containerOf]
      refine ⟨_, _, _, he, h.select hc hpc hl ?_ (by rw [hp]; rfl) (by rw [hp]; rfl)
        (by simp [hp]) ?_ (Or.inl hp)⟩
      · intro i hi hic
        refine hother i (q i) hic (h.queued i hi) fun v hv => ?_
        have hpv := (h.mem_queue i hi v).mp hv
        rw [hmem v, hpv]
        simpa using hic
      · intro v
        have := hmem v
        rw [List.nodup_cons] at hnd
        grind

theorem Inv.runThread (h : Inv s place q) (hc : c < s.cpuCount) {new : ℕ}
    (hpc : (s.core c).pc = .run new) :
    ∃ s' place' q', s.runThread c new = some s' ∧ Inv s' place' q' := by
  have hcore := h.core c hc
  simp only [CoreOk, hpc] at hcore
  obtain ⟨t, ht, hlast, hact⟩ := hcore
  have hok := h.thread new
  have hin : s.inHand c = (new, .chosen) ::
      if (s.core c).lastThreadAction = .put then [(t, .exiting)] else [] := by
    simp [inHand, hpc, ht]
  have hp : place new = .hand c .chosen := h.place_of_hand hc (by simp [hin])
  have hown : (place new).owner = some c := by rw [hp]; rfl
  have hstate : s.state new = .ready := by rw [hok.state, hp]; rfl
  refine ⟨_, Function.update place new (.hand c .running), Function.update q c (q c),
    by rw [Sched.runThread, if_pos hstate], ?_⟩
  refine h.update hc {new} rfl rfl ?_ ?_ ?_ ?_ ?_ (h.queues hc).1 (h.queues hc).2 ?_ ?_ ?_ ?_ ?_
  · intro i hi
    simp [hi]
  · rintro _ rfl i hi
    exact (Option.some.inj (hown.symm.trans hi)).symm
  · rintro _ rfl i hi
    simp only [Function.update_self, Place.owner, Option.some.injEq] at hi
    exact hi.symm
  · intro u hu
    have hu : u ≠ new := hu
    simp [hu]
  · rintro new rfl
    have h2 := hok.context
    have h3 := hok.started
    refine ⟨by simp [Place.state], by simp [hok.puts, hp], ?_, ?_⟩
    · simpa [hp, Place.state] using h2
    · simpa [IsIdle, hp] using h3
  · intro u
    rw [h.mem_queue c hc]
    grind
  · have := h.idle c hc
    grind
  · grind
  · intro u k
    have := h.hand c hc u k
    rw [hin] at this
    simp [inHand, hlast]
    grind
  · simp [CoreOk, hlast]
    grind

/-- The reference that the scheduler puts is the one to the thread that exited, which
is not the current thread any more. -/
theorem Inv.schedulerAfterSchedule (h : Inv s place q) (hc : c < s.cpuCount)
    (hpc : (s.core c).pc = .after) :
    ∃ s' place' q', s.schedulerAfterSchedule c = some s' ∧ Inv s' place' q' := by
  have hcore := h.core c hc
  simp only [CoreOk, hpc] at hcore
  obtain ⟨⟨t, ht⟩, hact⟩ := hcore
  have hok := h.thread t
  have hp : place t = .hand c .running := h.place_of_hand hc (by simp [inHand, hpc, ht])
  have hctx : s.context t ≠ .inExit := by
    rw [ne_eq, hok.context, hp]
    simp [Place.state]
  rcases hact with hact | ⟨hact, u, hu⟩
  · have hin : s.inHand c = [(t, .running)] := by simp [inHand, hpc, ht, hact]
    obtain ⟨b, he⟩ : ∃ b, s.schedulerAfterSchedule c = some (s.setCore c
        ⟨some t, none, .none, b, .thread⟩) := by
      cases hctx' : s.context t with
      | inExit => exact absurd hctx' hctx
      | inYield => exact ⟨true, by simp [Sched.schedulerAfterSchedule, hact, ht, hctx']⟩
      | _ =>
          exact ⟨(s.core c).irqEnabled, by simp [Sched.schedulerAfterSchedule, hact, ht, hctx']⟩
    refine ⟨_, place, Function.update q c (q c), he, ?_⟩
    refine h.update hc ∅ rfl rfl ?_ (by simp) (by simp) (by simp) (by simp) (h.queues hc).1
      (h.queues hc).2 (h.mem_queue c hc) (h.idle c hc) (by simp) ?_ ?_
    · intro i hi
      simp [hi]
    · intro v k
      rw [← h.hand c hc, hin]
      simp [inHand]
    · simp [CoreOk]
  · have hin : s.inHand c = [(t, .running), (u, .exiting)] := by
      simp [inHand, hpc, ht, hact, hu]
    have hpu : place u = .hand c .exiting := h.place_of_hand hc (by simp [hin])
    have hoku := h.thread u
    have hown : (place u).owner = some c := by rw [hpu]; rfl
    obtain ⟨b, he⟩ : ∃ b, s.schedulerAfterSchedule c =
        some ({ s with puts := Function.update s.puts u (s.puts u + 1) }.setCore c
          ⟨some t, none, .none, b, .thread⟩) := by
      cases hctx' : s.context t with
      | inExit => exact absurd hctx' hctx
      | inYield => exact ⟨true, by simp [Sched.schedulerAfterSchedule, hact, ht, hu, hctx']⟩
      | _ =>
          refine ⟨(s.core c).irqEnabled, ?_⟩
          simp [Sched.schedulerAfterSchedule, hact, ht, hu, hctx']
    refine ⟨_, Function.update place u .gone, Function.update q c (q c), he, ?_⟩
    refine h.update hc {u} rfl rfl ?_ ?_ ?_ ?_ ?_ (h.queues hc).1 (h.queues hc).2 ?_ ?_ ?_ ?_ ?_
    · intro i hi
      simp [hi]
    · rintro _ rfl i hi
      exact (Option.some.inj (hown.symm.trans hi)).symm
    · rintro _ rfl i hi
      simp [Place.owner] at hi
    · intro v hv
      have hv : v ≠ u := hv
      simp [hv]
    · rintro _ rfl
      have h1 := hoku.state
      have h2 := hoku.context
      have h3 := hoku.started
      refine ⟨by simpa [hpu, Place.state] using h1, by simp [hoku.puts, hpu], ?_, ?_⟩
      · simpa [hpu, Place.state] using h2
      · simpa [IsIdle, hpu] using h3
    · intro v
      rw [h.mem_queue c hc]
      grind
    · have := h.idle c hc
      grind
    · grind
    · intro v k
      have := h.hand c hc v k
      rw [hin] at this
      simp [inHand]
      grind
    · simp [CoreOk]

end Sched

end Tomato
