import Mathlib.Data.Set.Insert
import Tomato.Lib.Reachable
import Tomato.Thread.Sched

/-!
# Where a thread is

Every thread is at exactly one `Place`: not started, in the run queue of a core,
in the hands of a core that is about to do something with it, or gone. The idle
thread of a core waits outside of the queue. What a core has in its hands can be
read off its program counter (`inHand`), and the state of a thread off its place.

A step of one core moves only threads that belong to it or that were not started,
so `Inv.update` reduces the preservation of the invariant to that core.
-/

namespace Tomato

namespace Sched

/-- What a core is doing with a thread. -/
inductive Kind
  | starting
  | requeuing
  | chosen
  | running
  | exiting
deriving DecidableEq

inductive Place
  | unstarted
  | queued (c : ℕ)
  | waiting (c : ℕ)
  | hand (c : ℕ) (k : Kind)
  | gone
deriving DecidableEq

/-- The core that a thread belongs to. -/
def Place.owner : Place → Option ℕ
  | .queued c | .waiting c | .hand c _ => some c
  | .unstarted | .gone => none

/-- The state of a thread at the place. -/
def Place.state : Place → ThreadState
  | .unstarted => .idle
  | .queued _ | .waiting _ | .hand _ .starting | .hand _ .requeuing | .hand _ .chosen => .ready
  | .hand _ .running => .running
  | .hand _ .exiting | .gone => .dead

/-- The threads in the hands of a core. -/
def inHand (s : Sched) (c : ℕ) : List (ℕ × Kind) :=
  let k := s.core c
  let current := k.currentThread.toList
  match k.pc with
  | .boot => []
  | .thread => current.map (·, .running)
  | .starting t _ => (t, .starting) :: current.map (·, .running)
  | .enter => current.map fun t => (t, if s.context t = .inExit then .exiting else .running)
  | .requeue => current.map (·, .requeuing)
  | .select => if k.lastThreadAction = .put then current.map (·, .exiting) else []
  | .run newThread => (newThread, .chosen) ::
      if k.lastThreadAction = .put then current.map (·, .exiting) else []
  | .after => current.map (·, .running) ++
      if k.lastThreadAction = .put then k.lastThread.toList.map (·, .exiting) else []

/-- The variables of a core at its program counter. -/
def CoreOk (s : Sched) (place : ℕ → Place) (c : ℕ) : Prop :=
  let k := s.core c
  match k.pc with
  | .boot => k.currentThread = none ∧ k.lastThreadAction = .none
  | .thread => (∃ t, k.currentThread = some t) ∧ k.lastThreadAction = .none
  | .starting _ booting => (booting = true ↔ k.currentThread = none) ∧ k.lastThreadAction = .none
  | .enter => (∃ t, k.currentThread = some t) ∧ k.lastThreadAction = .none ∧ k.irqEnabled = false
  | .requeue => (∃ t, k.currentThread = some t ∧ t ≠ s.idleThread c) ∧ k.lastThreadAction = .none
  | .select => ∃ t, k.currentThread = some t ∧ (k.lastThreadAction = .put ∨
      k.lastThreadAction = .none ∧ (place t = .queued c ∨ place t = .waiting c))
  | .run newThread => ∃ t, k.currentThread = some t ∧ k.lastThread = some t ∧
      (k.lastThreadAction = .put ∨ k.lastThreadAction = .none ∧
        (place t = .queued c ∨ place t = .waiting c ∨ t = newThread))
  | .after => (∃ t, k.currentThread = some t) ∧ (k.lastThreadAction = .none ∨
      k.lastThreadAction = .put ∧ ∃ u, k.lastThread = some u)

/-- What the variables of a thread are at its place. -/
structure ThreadOk (s : Sched) (t : ℕ) (p : Place) : Prop where
  state : s.state t = p.state
  puts : s.puts t = if p = .gone then 1 else 0
  context : s.context t = .inExit ↔ p.state = .dead
  started : s.started t = true ↔ p ≠ .unstarted ∧ ¬ s.IsIdle t

structure Inv (s : Sched) (place : ℕ → Place) (q : ℕ → List ℕ) : Prop where
  queued : ∀ c < s.cpuCount, Queued s.links c (q c)
  mem_queue : ∀ c < s.cpuCount, ∀ t, t ∈ q c ↔ place t = .queued c
  owner_lt : ∀ t c, (place t).owner = some c → c < s.cpuCount
  thread : ∀ t, ThreadOk s t (place t)
  idle : ∀ c < s.cpuCount, place (s.idleThread c) = .waiting c ∨
    place (s.idleThread c) = .hand c .chosen ∨ place (s.idleThread c) = .hand c .running
  waiting : ∀ t c, place t = .waiting c → t = s.idleThread c
  hand : ∀ c < s.cpuCount, ∀ t k, (t, k) ∈ s.inHand c ↔ place t = .hand c k
  core : ∀ c < s.cpuCount, CoreOk s place c

namespace Inv

variable {s s' : Sched} {place place' : ℕ → Place} {q : ℕ → List ℕ} {c t u : ℕ}

theorem idle_owner (h : Inv s place q) (hc : c < s.cpuCount) :
    (place (s.idleThread c)).owner = some c := by
  rcases h.idle c hc with e | e | e <;> simp [e, Place.owner]

/-- The current thread of a core belongs to it. -/
theorem current_owner (h : Inv s place q) (hc : c < s.cpuCount)
    (ht : (s.core c).currentThread = some t) : (place t).owner = some c := by
  have hok := h.core c hc
  have hhand : ∀ k, (t, k) ∈ s.inHand c → (place t).owner = some c := by
    intro k hk
    rw [(h.hand c hc t k).mp hk]
    rfl
  unfold CoreOk at hok
  unfold inHand at hhand
  cases hpc : (s.core c).pc with
  | boot => simp [hpc, ht] at hok
  | thread => exact hhand .running (by simp [hpc, ht])
  | starting u b => exact hhand .running (by simp [hpc, ht])
  | enter =>
      refine hhand (if s.context t = .inExit then .exiting else .running) ?_
      simp [hpc, ht]
  | requeue => exact hhand .requeuing (by simp [hpc, ht])
  | select =>
      simp only [hpc, ht, Option.some.injEq, exists_eq_left'] at hok
      rcases hok with hput | ⟨-, e | e⟩
      · exact hhand .exiting (by simp [hpc, ht, hput])
      · simp [e, Place.owner]
      · simp [e, Place.owner]
  | run new =>
      simp only [hpc, ht, Option.some.injEq, exists_eq_left'] at hok
      rcases hok with ⟨-, hput | ⟨-, e | e | rfl⟩⟩
      · exact hhand .exiting (by simp [hpc, ht, hput])
      · simp [e, Place.owner]
      · simp [e, Place.owner]
      · exact hhand .chosen (by simp [hpc])
  | after => exact hhand .running (by simp [hpc, ht])

/-- A step of the core `c` that moves only the threads in `T`, which belong to `c` or
to no core before and after. -/
theorem update (h : Inv s place q) (hc : c < s.cpuCount) (T : Set ℕ) {qc : List ℕ}
    (hcpu : s'.cpuCount = s.cpuCount) (hidle : s'.idleThread = s.idleThread)
    (hcore : ∀ i ≠ c, s'.core i = s.core i)
    (hold : ∀ t ∈ T, ∀ i, (place t).owner = some i → i = c)
    (hnew : ∀ t ∈ T, ∀ i, (place' t).owner = some i → i = c)
    (hsame : ∀ t ∉ T, place' t = place t ∧ s'.state t = s.state t ∧
      s'.context t = s.context t ∧ s'.puts t = s.puts t ∧ s'.started t = s.started t)
    (hthread : ∀ t ∈ T, ThreadOk s' t (place' t))
    (hqueued : Queued s'.links c qc)
    (hother : ∀ i < s.cpuCount, i ≠ c → Queued s'.links i (q i))
    (hmem : ∀ t, t ∈ qc ↔ place' t = .queued c)
    (hidlec : place' (s.idleThread c) = .waiting c ∨
      place' (s.idleThread c) = .hand c .chosen ∨ place' (s.idleThread c) = .hand c .running)
    (hwait : ∀ t ∈ T, place' t = .waiting c → t = s.idleThread c)
    (hhand : ∀ t k, (t, k) ∈ s'.inHand c ↔ place' t = .hand c k)
    (hok : CoreOk s' place' c) : Inv s' place' (Function.update q c qc) := by
  have hisIdle : ∀ t, s'.IsIdle t ↔ s.IsIdle t := by simp [IsIdle, hcpu, hidle]
  -- a place of another core is not touched
  have hkey : ∀ t i, i ≠ c → ∀ p : Place, p.owner = some i → (place' t = p ↔ place t = p) := by
    intro t i hi p hp
    by_cases ht : t ∈ T
    · constructor
      · rintro rfl
        exact absurd (hnew t ht i hp) hi
      · rintro rfl
        exact absurd (hold t ht i hp) hi
    · rw [(hsame t ht).1]
  have hcur : ∀ i < s.cpuCount, i ≠ c → ∀ t, (s.core i).currentThread = some t → t ∉ T :=
    fun i hi hic t ht hT => hic (hold t hT i (h.current_owner hi ht))
  refine ⟨?_, ?_, ?_, ?_, ?_, ?_, ?_, ?_⟩
  · intro i hi
    rw [hcpu] at hi
    by_cases hic : i = c
    · subst hic
      simpa using hqueued
    · rw [Function.update_of_ne hic]
      exact hother i hi hic
  · intro i hi t
    rw [hcpu] at hi
    by_cases hic : i = c
    · subst hic
      simpa using hmem t
    · rw [Function.update_of_ne hic, h.mem_queue i hi, hkey t i hic _ rfl]
  · intro t i hi
    rw [hcpu]
    by_cases ht : t ∈ T
    · exact hnew t ht i hi ▸ hc
    · rw [(hsame t ht).1] at hi
      exact h.owner_lt t i hi
  · intro t
    by_cases ht : t ∈ T
    · exact hthread t ht
    · obtain ⟨h1, h2, h3, h4, h5⟩ := hsame t ht
      obtain ⟨g1, g2, g3, g4⟩ := h.thread t
      exact ⟨by rw [h2, h1, g1], by rw [h4, h1, g2], by rw [h3, h1, g3],
        by rw [h5, h1, hisIdle, g4]⟩
  · intro i hi
    rw [hcpu] at hi
    rw [hidle]
    by_cases hic : i = c
    · subst hic
      exact hidlec
    · rw [hkey _ i hic _ rfl, hkey _ i hic _ rfl, hkey _ i hic _ rfl]
      exact h.idle i hi
  · intro t i hp
    rw [hidle]
    by_cases hic : i = c
    · subst hic
      by_cases ht : t ∈ T
      · exact hwait t ht hp
      · rw [(hsame t ht).1] at hp
        exact h.waiting t i hp
    · rw [hkey t i hic _ rfl] at hp
      exact h.waiting t i hp
  · intro i hi t k
    rw [hcpu] at hi
    by_cases hic : i = c
    · subst hic
      exact hhand t k
    · rw [hkey t i hic _ rfl, ← h.hand i hi]
      have : s'.inHand i = s.inHand i := by
        unfold inHand
        rw [hcore i hic]
        cases hpc : (s.core i).pc with
        | enter =>
            simp only [hpc]
            refine List.map_congr_left fun u hu => ?_
            rw [(hsame u (hcur i hi hic u (by simpa using hu))).2.2.1]
        | _ => simp [hpc]
      rw [this]
  · intro i hi
    rw [hcpu] at hi
    by_cases hic : i = c
    · subst hic
      exact hok
    · have hok' := h.core i hi
      unfold CoreOk at hok' ⊢
      rw [hcore i hic, hidle]
      cases hpc : (s.core i).pc with
      | select =>
          simp only [hpc] at hok' ⊢
          obtain ⟨t, ht, hrest⟩ := hok'
          refine ⟨t, ht, ?_⟩
          rw [(hsame t (hcur i hi hic t ht)).1]
          exact hrest
      | run new =>
          simp only [hpc] at hok' ⊢
          obtain ⟨t, ht, hrest⟩ := hok'
          refine ⟨t, ht, ?_⟩
          rw [(hsame t (hcur i hi hic t ht)).1]
          exact hrest
      | _ => simpa [hpc] using hok'

end Inv

end Sched

end Tomato
