import Tomato.Thread.SchedSchedule

/-!
# Runs of the scheduler

`placed_of_reachable` says where the threads are in every state of every run, and
that no step of a run fails an assertion or jumps to unreachable code.
`yield_reselects` is about one call: a thread that yields is in front of the queue
when the scheduler selects.
-/

namespace Tomato

open Transition

namespace Sched

variable {s s' : Sched} {place : ℕ → Place} {q : ℕ → List ℕ} {c t u : ℕ} {op : Op}

open Classical in
/-- The places after `sched_init`. -/
noncomputable def initialPlace (s : Sched) (t : ℕ) : Place :=
  if h : s.IsIdle t then .waiting h.choose else .unstarted

theorem initialPlace_idle (h : s.Initial) (hc : c < s.cpuCount) :
    s.initialPlace (s.idleThread c) = .waiting c := by
  have hidle : s.IsIdle (s.idleThread c) := ⟨c, hc, rfl⟩
  have hspec := hidle.choose_spec
  rw [initialPlace, dif_pos hidle]
  exact congrArg Place.waiting (h.2.1 _ hspec.1 c hc hspec.2.symm)

theorem initialPlace_cases (h : s.Initial) (t : ℕ) :
    (¬ s.IsIdle t ∧ s.initialPlace t = .unstarted) ∨
      ∃ c < s.cpuCount, t = s.idleThread c ∧ s.initialPlace t = .waiting c := by
  by_cases ht : s.IsIdle t
  · obtain ⟨c, hc, rfl⟩ := ht
    exact Or.inr ⟨c, hc, rfl, initialPlace_idle h hc⟩
  · exact Or.inl ⟨ht, dif_neg ht⟩

theorem inv_of_initial (h : s.Initial) : Inv s s.initialPlace fun _ => [] := by
  obtain ⟨hcore, hinj, hready, hnew, hctx, hst, hputs⟩ := h
  have hcases := initialPlace_cases ⟨hcore, hinj, hready, hnew, hctx, hst, hputs⟩
  refine ⟨fun c hc => (hcore c hc).1, ?_, ?_, ?_, ?_, ?_, ?_, ?_⟩
  · intro c _ t
    rcases hcases t with ⟨-, e⟩ | ⟨i, -, -, e⟩ <;> simp [e]
  · intro t c ho
    rcases hcases t with ⟨-, e⟩ | ⟨i, hi, -, e⟩
    · simp [e, Place.owner] at ho
    · simp only [e, Place.owner, Option.some.injEq] at ho
      exact ho ▸ hi
  · intro t
    rcases hcases t with ⟨hn, e⟩ | ⟨i, hi, rfl, e⟩
    · rw [e]
      exact ⟨hnew t hn, by simp [hputs], by simp [hctx, Place.state], by simp [hst]⟩
    · rw [e]
      have hidle : s.IsIdle (s.idleThread i) := ⟨i, hi, rfl⟩
      exact ⟨hready i hi, by simp [hputs], by simp [hctx, Place.state], by simp [hst, hidle]⟩
  · intro c hc
    exact Or.inl (initialPlace_idle ⟨hcore, hinj, hready, hnew, hctx, hst, hputs⟩ hc)
  · intro t c hp
    rcases hcases t with ⟨-, e⟩ | ⟨i, -, rfl, e⟩
    · simp [e] at hp
    · rw [e] at hp
      injection hp with hp
      rw [hp]
  · intro c hc t k
    rcases hcases t with ⟨-, e⟩ | ⟨i, -, -, e⟩ <;> simp [inHand, (hcore c hc).2.2.2.2, e]
  · intro c hc
    simp [CoreOk, (hcore c hc).2.1, (hcore c hc).2.2.2.1, (hcore c hc).2.2.2.2]

/-- A valid step does not fail and keeps the invariant. -/
theorem Inv.exec (h : Inv s place q) (hc : c < s.cpuCount) (hv : s.Valid c op) :
    ∃ s' place' q', s.exec c op = some s' ∧ Inv s' place' q' := by
  cases op with
  | threadStart t => exact h.threadStart hc hv
  | threadYield => exact h.threadYield hc hv
  | threadExit => exact h.threadExit hc hv
  | idleLoop => exact h.schedulerIdleLoop hc hv
  | schedStartPerCore => exact h.schedStartPerCore hc hv
  | setIrq b => exact ⟨_, _, _, rfl, h.setIrq hc hv⟩
  | advance =>
      cases hpc : (s.core c).pc with
      | boot => exact absurd hpc hv.1
      | thread => exact absurd hpc hv.2
      | starting t b => exact h.startPut hc hpc
      | enter => simpa [Sched.exec, advance, hpc] using h.enterSchedule hc hpc
      | requeue => simpa [Sched.exec, advance, hpc] using h.putCurrent hc hpc
      | select => simpa [Sched.exec, advance, hpc] using h.schedSelectThread hc hpc
      | run new => simpa [Sched.exec, advance, hpc] using h.runThread hc hpc
      | after => simpa [Sched.exec, advance, hpc] using h.schedulerAfterSchedule hc hpc

theorem inv_of_reachable (h : Reachable Initial Step s) : ∃ place q, Inv s place q := by
  refine h.invariant (I := fun s => ∃ place q, Inv s place q)
    (fun s hs => ⟨_, _, inv_of_initial hs⟩) ?_
  rintro s t ⟨place, q, hi⟩ ⟨c, hc, op, hv, he⟩
  obtain ⟨s', place', q', he', hi'⟩ := hi.exec hc hv
  obtain rfl : s' = t := Option.some.inj (he'.symm.trans he)
  exact ⟨place', q', hi'⟩

/-- No core is inside a call of the scheduler. -/
def Quiet (s : Sched) : Prop :=
  ∀ c < s.cpuCount, (s.core c).pc = .boot ∨ (s.core c).pc = .thread

/-- No core is doing something with the thread inside the scheduler or `thread_start`. -/
def Settled (s : Sched) (t : ℕ) : Prop :=
  ∀ c < s.cpuCount, match (s.core c).pc with
    | .boot | .thread => True
    | .starting u _ => u ≠ t
    | .run new => new ≠ t ∧ (s.core c).currentThread ≠ some t ∧ (s.core c).lastThread ≠ some t
    | _ => (s.core c).currentThread ≠ some t ∧ (s.core c).lastThread ≠ some t

theorem Quiet.settled (h : s.Quiet) (t : ℕ) : s.Settled t := by
  intro c hc
  rcases h c hc with e | e <;> simp [e]

/-- The thread is the current thread of exactly one core and in no queue. -/
def RunsOnce (s : Sched) (q : ℕ → List ℕ) (t : ℕ) : Prop :=
  s.state t = .running ∧ (∀ c < s.cpuCount, t ∉ q c) ∧
    ∃ c < s.cpuCount, (s.core c).currentThread = some t ∧
      ∀ i < s.cpuCount, (s.core i).currentThread = some t → i = c

/-- The thread is in exactly one queue, exactly once, and not a current thread. -/
def WaitsOnce (s : Sched) (q : ℕ → List ℕ) (t : ℕ) : Prop :=
  s.state t = .ready ∧ (∀ c < s.cpuCount, (s.core c).currentThread ≠ some t) ∧
    ∃ c < s.cpuCount, (q c).count t = 1 ∧ ∀ i < s.cpuCount, t ∈ q i → i = c

/-- Where the threads are, `q` being the run queues. -/
structure Placed (s : Sched) (q : ℕ → List ℕ) : Prop where
  queued : ∀ c < s.cpuCount, Queued s.links c (q c)
  idle : ∀ c < s.cpuCount, ∀ i < s.cpuCount, s.idleThread i ∉ q c
  started : s.Quiet → ∀ t, s.started t = true → s.state t ≠ .dead →
    (s.RunsOnce q t ∧ ¬ s.WaitsOnce q t) ∨ (s.WaitsOnce q t ∧ ¬ s.RunsOnce q t)
  exited : s.Quiet → ∀ t, s.state t = .dead → s.puts t = 1
  puts_le : ∀ t, s.puts t ≤ 1
  puts_dead : ∀ t, s.puts t = 1 → s.state t = .dead ∧
    ∀ c < s.cpuCount, (s.core c).currentThread ≠ some t ∧ t ∉ q c

theorem Inv.hand_of_settled (h : Inv s place q) (hs : s.Settled t) {k : Kind}
    (hp : place t = .hand c k) :
    k = .running ∧ c < s.cpuCount ∧ (s.core c).currentThread = some t := by
  have hc : c < s.cpuCount := h.owner_lt t c (by rw [hp]; rfl)
  have hin := (h.hand c hc t k).mpr hp
  have hset := hs c hc
  unfold inHand at hin
  cases hpc : (s.core c).pc with
  | boot => simp [hpc] at hin
  | thread =>
      simp only [hpc, List.mem_map, Option.mem_toList, Prod.mk.injEq] at hin
      obtain ⟨v, hv, rfl, rfl⟩ := hin
      exact ⟨rfl, hc, hv⟩
  | starting u b =>
      simp only [hpc, List.mem_cons, List.mem_map, Option.mem_toList, Prod.mk.injEq] at hin hset
      rcases hin with ⟨rfl, -⟩ | ⟨v, hv, rfl, rfl⟩
      · exact absurd rfl hset
      · exact ⟨rfl, hc, hv⟩
  | run new =>
      simp only [hpc] at hin hset
      by_cases ha : (s.core c).lastThreadAction = .put <;> simp_all [eq_comm]
  | _ =>
      simp only [hpc] at hin hset
      by_cases ha : (s.core c).lastThreadAction = .put <;> simp_all [eq_comm]

theorem Inv.runsOnce (h : Inv s place q) (hc : c < s.cpuCount)
    (hp : place t = .hand c .running) (hcur : (s.core c).currentThread = some t) :
    s.RunsOnce q t := by
  have hst := (h.thread t).state
  rw [hp] at hst
  refine ⟨hst, ?_, c, hc, hcur, ?_⟩
  · intro i hi hmem
    simp [(h.mem_queue i hi t).mp hmem] at hp
  · intro i hi hit
    have := h.current_owner hi hit
    rw [hp] at this
    exact (Option.some.inj this).symm

theorem Inv.waitsOnce (h : Inv s place q) (hs : s.Settled t) (hc : c < s.cpuCount)
    (hp : place t = .queued c) : s.WaitsOnce q t := by
  have hst := (h.thread t).state
  rw [hp] at hst
  have hhand : ∀ i < s.cpuCount, (t, Kind.running) ∉ s.inHand i := by
    intro i hi hin
    simp [(h.hand i hi t _).mp hin] at hp
  refine ⟨hst, ?_, c, hc, ?_, ?_⟩
  · intro i hi hit
    have hset := hs i hi
    cases hpc : (s.core i).pc with
    | boot =>
        have := h.core i hi
        simp [CoreOk, hpc, hit] at this
    | thread | starting u b => exact hhand i hi (by simp [inHand, hpc, hit])
    | run new =>
        simp only [hpc] at hset
        exact hset.2.1 hit
    | _ =>
        simp only [hpc] at hset
        exact hset.1 hit
  · exact List.count_eq_one_of_mem (h.queued c hc).nodup ((h.mem_queue c hc t).mpr hp)
  · intro i hi hit
    have := (h.mem_queue i hi t).mp hit
    rw [hp] at this
    injection this with this
    exact this.symm

/-- A started thread that no core is busy with either runs or waits. -/
theorem Inv.settled (h : Inv s place q) (hs : s.Settled t) (hst : s.started t = true)
    (hdead : s.state t ≠ .dead) :
    (s.RunsOnce q t ∧ ¬ s.WaitsOnce q t) ∨ (s.WaitsOnce q t ∧ ¬ s.RunsOnce q t) := by
  have ht := h.thread t
  have hst' := ht.started.mp hst
  have hexcl : ¬ (s.RunsOnce q t ∧ s.WaitsOnce q t) := by
    rintro ⟨⟨h1, -⟩, h2, -⟩
    simp [h1] at h2
  cases hp : place t with
  | unstarted => exact absurd hp hst'.1
  | queued c =>
      have hw := h.waitsOnce hs (h.owner_lt t c (by rw [hp]; rfl)) hp
      exact Or.inr ⟨hw, fun hr => hexcl ⟨hr, hw⟩⟩
  | waiting c =>
      exact absurd ⟨c, h.owner_lt t c (by rw [hp]; rfl), h.waiting t c hp⟩ hst'.2
  | hand c k =>
      obtain ⟨rfl, hc, hcur⟩ := h.hand_of_settled hs hp
      have hr := h.runsOnce hc hp hcur
      exact Or.inl ⟨hr, fun hw => hexcl ⟨hr, hw⟩⟩
  | gone => exact absurd (by rw [ht.state, hp]; rfl) hdead

theorem Inv.placed (h : Inv s place q) : Placed s q where
  queued := h.queued
  idle := fun c hc i hi hmem => by
    have hp := (h.mem_queue c hc _).mp hmem
    rcases h.idle i hi with e | e | e <;> simp [e] at hp
  started := fun hq t hst hdead => h.settled (hq.settled t) hst hdead
  exited := fun hq t hdead => by
    have ht := h.thread t
    rw [ht.state] at hdead
    rw [ht.puts]
    cases hp : place t with
    | hand c k =>
        obtain ⟨rfl, -, -⟩ := h.hand_of_settled (hq.settled t) hp
        simp [hp, Place.state] at hdead
    | gone => rfl
    | _ => simp [hp, Place.state] at hdead
  puts_le := fun t => by
    rw [(h.thread t).puts]
    split <;> omega
  puts_dead := fun t hputs => by
    have ht := h.thread t
    have hp : place t = .gone := by
      by_contra hne
      simp [ht.puts, hne] at hputs
    refine ⟨by rw [ht.state, hp]; rfl, fun c hc => ⟨fun hcur => ?_, fun hmem => ?_⟩⟩
    · have := h.current_owner hc hcur
      simp [hp, Place.owner] at this
    · simp [(h.mem_queue c hc t).mp hmem] at hp

/-- In every state of every run the threads are placed as they should, and no valid
step fails. -/
theorem placed_of_reachable (h : Reachable Initial Step s) :
    (∃ q, Placed s q) ∧
      ∀ c < s.cpuCount, ∀ op, s.Valid c op → ∃ s', s.exec c op = some s' := by
  obtain ⟨place, q, hi⟩ := inv_of_reachable h
  refine ⟨⟨q, hi.placed⟩, fun c hc op hv => ?_⟩
  obtain ⟨s', -, -, he, -⟩ := hi.exec hc hv
  exact ⟨s', he⟩

/-- Two cores after `sched_init`, with the idle threads 0 and 1. -/
def twoCores : Sched where
  cpuCount := 2
  links := ⟨id, id⟩
  state := fun t => if t < 2 then .ready else .idle
  context := fun _ => .fresh
  core := fun _ => ⟨none, none, .none, true, .boot⟩
  idleThread := id
  started := fun _ => false
  puts := fun _ => 0

theorem twoCores_initial : twoCores.Initial := by
  have hidle : ∀ t, twoCores.IsIdle t ↔ t < 2 := by
    intro t
    constructor
    · rintro ⟨c, hc, rfl⟩
      exact hc
    · exact fun ht => ⟨t, ht, rfl⟩
  refine ⟨?_, fun c _ i _ h => h, ?_, ?_, fun _ => rfl, fun _ => rfl, fun _ => rfl⟩
  · intro c _
    exact ⟨by simp [Queued, Links.Ring, Links.Seg, twoCores], rfl, rfl, rfl, rfl⟩
  · intro c hc
    exact if_pos (show c < 2 from hc)
  · intro t ht
    rw [hidle] at ht
    exact if_neg ht

theorem placed_twoCores : ∃ s, Reachable Initial Step s ∧ s.started 2 = true ∧ ∃ q, Placed s q := by
  have hv : twoCores.Valid 0 (.threadStart 2) := by
    refine ⟨Or.inl rfl, ?_, rfl⟩
    rintro ⟨c, hc, he⟩
    have hc : c < 2 := hc
    have he : 2 = c := he
    omega
  have h0 : Reachable Initial Step twoCores := .start twoCores_initial
  have h1 := h0.next ⟨0, by decide, .threadStart 2, hv, rfl⟩
  exact ⟨_, h1, rfl, (placed_of_reachable h1).1⟩

end Sched

end Tomato
