import Mathlib.Data.Set.Card
import Mathlib.Tactic
import Tomato.Lib.Reachable

/-!
# The reader-writer lock

The fast paths of `rwlock.h`. Every thread takes and releases the lock in matched pairs, one
atomic access to the state word at a time: the shared acquire loads the word in one step and
swaps it in a later one. The slow paths have no body in the source, so a thread that enters
one of them stops there.
-/

namespace Tomato

open Transition

def RWLOCK_WRITER_PARKED_BIT : BitVec 64 := 2

def RWLOCK_WRITER_BIT : BitVec 64 := 4

def RWLOCK_READERS_MASK : BitVec 64 := ~~~(1 ||| 2 ||| 4)

def RWLOCK_ONE_READER : BitVec 64 := 8

/-- Where a thread is in the code of the lock. -/
inductive RwPlace
  | idle
  /-- between the load and the swap of `rwlock_try_lock_shared_fast` -/
  | loaded (state newState : BitVec 64)
  | exclusive
  | shared
  | lockExclusiveSlow
  | unlockExclusiveSlow
  | tryLockSharedSlow
  | unlockSharedSlow
deriving DecidableEq, Repr

namespace RwPlace

/-! Each function takes the state word and returns where it leaves the thread and the word. -/

def rwlockLockExclusive (w : BitVec 64) : RwPlace × BitVec 64 :=
  if w = 0 then (exclusive, RWLOCK_WRITER_BIT) else (lockExclusiveSlow, w)

def rwlockUnlockExclusive (w : BitVec 64) : RwPlace × BitVec 64 :=
  if w = RWLOCK_WRITER_BIT then (idle, 0) else (unlockExclusiveSlow, w)

/-- `rwlock_try_lock_shared_fast` up to the compare and swap. -/
def rwlockTryLockSharedLoad (w : BitVec 64) : RwPlace × BitVec 64 :=
  if w &&& RWLOCK_WRITER_BIT ≠ 0 then (tryLockSharedSlow, w)
  else if w.toNat + RWLOCK_ONE_READER.toNat < 2 ^ 64 then (loaded w (w + RWLOCK_ONE_READER), w)
  else (tryLockSharedSlow, w)

/-- The compare and swap of `rwlock_try_lock_shared_fast`. -/
def rwlockTryLockSharedSwap (state newState w : BitVec 64) : RwPlace × BitVec 64 :=
  if w = state then (shared, newState) else (tryLockSharedSlow, w)

def rwlockUnlockShared (w : BitVec 64) : RwPlace × BitVec 64 :=
  (if w &&& (RWLOCK_READERS_MASK ||| RWLOCK_WRITER_PARKED_BIT) =
      RWLOCK_ONE_READER ||| RWLOCK_WRITER_PARKED_BIT then unlockSharedSlow else idle,
    w - RWLOCK_ONE_READER)

end RwPlace

inductive RwOp
  | lockExclusive
  | unlockExclusive
  | lockSharedLoad
  | lockSharedSwap
  | unlockShared
deriving DecidableEq, Repr

/-- One lock and the threads that use it. -/
structure Rwlock (ι : Type*) where
  state : BitVec 64
  place : ι → RwPlace

namespace Rwlock

variable {ι : Type*} {l l' : Rwlock ι} {t : ι}

/-- The next step of a thread, if this is one it can do where it is. -/
def act (p : RwPlace) (w : BitVec 64) : RwOp → Option (RwPlace × BitVec 64)
  | .lockExclusive => if p = .idle then some (RwPlace.rwlockLockExclusive w) else none
  | .unlockExclusive => if p = .exclusive then some (RwPlace.rwlockUnlockExclusive w) else none
  | .lockSharedLoad => if p = .idle then some (RwPlace.rwlockTryLockSharedLoad w) else none
  | .lockSharedSwap =>
    match p with
    | .loaded state newState => some (RwPlace.rwlockTryLockSharedSwap state newState w)
    | _ => none
  | .unlockShared => if p = .shared then some (RwPlace.rwlockUnlockShared w) else none

def exec [DecidableEq ι] (l : Rwlock ι) (t : ι) (op : RwOp) : Option (Rwlock ι) :=
  (act (l.place t) l.state op).map fun r => ⟨r.2, Function.update l.place t r.1⟩

def Initial (l : Rwlock ι) : Prop := l.state = 0 ∧ ∀ t, l.place t = .idle

def Step [DecidableEq ι] (l l' : Rwlock ι) : Prop := ∃ t op, l.exec t op = some l'

def writers (l : Rwlock ι) : Set ι := {t | l.place t = .exclusive}

def readers (l : Rwlock ι) : Set ι := {t | l.place t = .shared}

/-- The state word says who holds the lock. -/
structure Ok (l : Rwlock ι) : Prop where
  finite : l.readers.Finite
  one : l.writers.Subsingleton
  apart : l.writers.Nonempty → l.readers = ∅
  word : l.state.toNat = 4 * l.writers.ncard + 8 * l.readers.ncard
  loaded : ∀ t s n, l.place t = .loaded s n → s &&& RWLOCK_WRITER_BIT = 0 ∧
    n.toNat = s.toNat + 8
  unlocks : ∀ t, l.place t ≠ .unlockExclusiveSlow ∧ l.place t ≠ .unlockSharedSlow

namespace Ok

variable {p q : RwPlace} {w : BitVec 64}

theorem writers_eq (h : l.Ok) (ht : l.place t = .exclusive) :
    l.writers = {t} ∧ l.readers = ∅ ∧ l.state = RWLOCK_WRITER_BIT := by
  have hw : l.writers = {t} := h.one.eq_singleton_of_mem ht
  have hr : l.readers = ∅ := h.apart ⟨t, ht⟩
  refine ⟨hw, hr, BitVec.eq_of_toNat_eq ?_⟩
  rw [h.word, hw, hr, Set.ncard_singleton, Set.ncard_empty]
  rfl

/-- No thread writes while the bit of the writer is clear. -/
theorem writers_empty (h : l.Ok) (hs : l.state &&& RWLOCK_WRITER_BIT = 0) : l.writers = ∅ := by
  rw [Set.eq_empty_iff_forall_notMem]
  intro t ht
  rw [(h.writers_eq ht).2.2] at hs
  exact absurd hs (by decide)

theorem readers_pos (h : l.Ok) (ht : l.place t = .shared) :
    l.writers = ∅ ∧ 8 ≤ l.state.toNat ∧ l.state.toNat = 8 * l.readers.ncard := by
  have hw : l.writers = ∅ := by
    by_contra hne
    have hempty := h.apart (Set.nonempty_iff_ne_empty.mpr hne)
    exact (hempty ▸ (show t ∈ l.readers from ht) : t ∈ (∅ : Set ι))
  have hpos : 0 < l.readers.ncard := (Set.ncard_pos h.finite).mpr ⟨t, ht⟩
  have hword := h.word
  rw [hw, Set.ncard_empty] at hword
  exact ⟨hw, by omega, by omega⟩

/-- The word that the last reader leaves has no bit of a parked writer. -/
theorem unlockShared_fast (h : l.Ok) (ht : l.place t = .shared) :
    RwPlace.rwlockUnlockShared l.state = (.idle, l.state - RWLOCK_ONE_READER) := by
  obtain ⟨-, -, hword⟩ := h.readers_pos ht
  have hne : l.state &&& (RWLOCK_READERS_MASK ||| RWLOCK_WRITER_PARKED_BIT) ≠
      RWLOCK_ONE_READER ||| RWLOCK_WRITER_PARKED_BIT := by
    intro heq
    have hbit : l.state.getLsbD 1 = false := by
      rw [← BitVec.testBit_toNat, hword, Nat.testBit_eq_decide_div_mod_eq]
      simp only [decide_eq_false_iff_not]
      omega
    have h1 := congrArg (fun v => BitVec.getLsbD v 1) heq
    simp only [BitVec.getLsbD_and, hbit, Bool.false_and] at h1
    exact absurd h1 (by decide)
  rw [RwPlace.rwlockUnlockShared, if_neg hne]

/-! ## One thread moves -/

variable [DecidableEq ι]

theorem places_of_ne (hp : l'.place = Function.update l.place t p) (hq : l.place t ≠ q)
    (hne : p ≠ q) : {x | l'.place x = q} = {x | l.place x = q} := by
  ext x
  by_cases hx : x = t
  · simp [hp, hx, hq, hne]
  · simp [hp, hx]

theorem places_enter (hp : l'.place = Function.update l.place t q) :
    {x | l'.place x = q} = insert t {x | l.place x = q} := by
  ext x
  by_cases hx : x = t <;> simp [hp, hx]

theorem places_leave (hp : l'.place = Function.update l.place t p) (hne : p ≠ q) :
    {x | l'.place x = q} = {x | l.place x = q} \ {t} := by
  ext x
  by_cases hx : x = t <;> simp [hp, hx, hne]

/-- The lock is ok after a thread has moved, if the word says who holds it then. -/
theorem move (h : l.Ok) (hp : l'.place = Function.update l.place t p)
    (hloaded : ∀ s n, p = .loaded s n → s &&& RWLOCK_WRITER_BIT = 0 ∧ n.toNat = s.toNat + 8)
    (hslow : p ≠ .unlockExclusiveSlow ∧ p ≠ .unlockSharedSlow) {W R : Set ι}
    (hw : l'.writers = W) (hr : l'.readers = R) (hfin : R.Finite) (hone : W.Subsingleton)
    (hapart : W.Nonempty → R = ∅) (hword : l'.state.toNat = 4 * W.ncard + 8 * R.ncard) :
    l'.Ok := by
  subst hw hr
  refine ⟨hfin, hone, hapart, hword, fun x s n hx => ?_, fun x => ?_⟩
  · rw [hp] at hx
    by_cases hxt : x = t
    · exact hloaded s n (by simpa [hxt] using hx)
    · exact h.loaded x s n (by simpa [hxt] using hx)
  · rw [hp]
    by_cases hxt : x = t
    · simpa [hxt] using hslow
    · simpa [hxt] using h.unlocks x

/-- A step that neither takes nor releases the lock. -/
theorem quiet (h : l.Ok) (hp : l'.place = Function.update l.place t p) (hs : l'.state = l.state)
    (hfrom : l.place t ≠ .exclusive ∧ l.place t ≠ .shared) (hto : p ≠ .exclusive ∧ p ≠ .shared)
    (hloaded : ∀ s n, p = .loaded s n → s &&& RWLOCK_WRITER_BIT = 0 ∧ n.toNat = s.toNat + 8)
    (hslow : p ≠ .unlockExclusiveSlow ∧ p ≠ .unlockSharedSlow) : l'.Ok :=
  h.move hp hloaded hslow (places_of_ne hp hfrom.1 hto.1) (places_of_ne hp hfrom.2 hto.2)
    h.finite h.one h.apart (hs ▸ h.word)

theorem lockExclusive (h : l.Ok) (hp : l'.place = Function.update l.place t .exclusive)
    (ht : l.place t = .idle) (hs : l.state = 0) (hs' : l'.state = RWLOCK_WRITER_BIT) : l'.Ok := by
  have hw0 : l.writers = ∅ := h.writers_empty (by simp [hs])
  have hr0 : l.readers = ∅ := by
    have hword := h.word
    rw [hs, hw0, Set.ncard_empty] at hword
    exact (Set.ncard_eq_zero h.finite).mp (by simpa using hword.symm)
  have hw : l'.writers = insert t l.writers := places_enter hp
  have hr : l'.readers = l.readers := places_of_ne hp (by simp [ht]) (by simp)
  rw [hw0, LawfulSingleton.insert_empty_eq] at hw
  rw [hr0] at hr
  refine h.move hp (by simp) (by simp) hw hr Set.finite_empty Set.subsingleton_singleton
    (fun _ => rfl) ?_
  rw [hs', Set.ncard_singleton, Set.ncard_empty]
  rfl

theorem unlockExclusive (h : l.Ok) (hp : l'.place = Function.update l.place t .idle)
    (ht : l.place t = .exclusive) (hs' : l'.state = 0) : l'.Ok := by
  obtain ⟨hw0, hr0, -⟩ := h.writers_eq ht
  have hw : l'.writers = l.writers \ {t} := places_leave hp (by simp)
  have hr : l'.readers = l.readers := places_of_ne hp (by simp [ht]) (by simp)
  rw [hw0, sdiff_self] at hw
  rw [hr0] at hr
  refine h.move hp (by simp) (by simp) hw hr Set.finite_empty Set.subsingleton_empty
    (fun _ => rfl) ?_
  simp [hs']

theorem lockShared (h : l.Ok) (hp : l'.place = Function.update l.place t .shared)
    (ht : l.place t = .loaded l.state l'.state) : l'.Ok := by
  obtain ⟨hs, hn⟩ := h.loaded t _ _ ht
  have hw0 : l.writers = ∅ := h.writers_empty hs
  have hw : l'.writers = l.writers := places_of_ne hp (by simp [ht]) (by simp)
  have hr : l'.readers = insert t l.readers := places_enter hp
  have hnot : t ∉ l.readers := by simp [readers, ht]
  refine h.move hp (by simp) (by simp) (hw.trans hw0) hr (h.finite.insert t)
    Set.subsingleton_empty (by simp) ?_
  have hword := h.word
  rw [hw0, Set.ncard_empty] at hword
  rw [Set.ncard_empty, Set.ncard_insert_of_notMem hnot h.finite]
  omega

theorem unlockShared (h : l.Ok) (hp : l'.place = Function.update l.place t .idle)
    (ht : l.place t = .shared) (hs' : l'.state = l.state - RWLOCK_ONE_READER) : l'.Ok := by
  obtain ⟨hw0, hle, hword⟩ := h.readers_pos ht
  have hw : l'.writers = l.writers := places_of_ne hp (by simp [ht]) (by simp)
  have hr : l'.readers = l.readers \ {t} := places_leave hp (by simp)
  refine h.move hp (by simp) (by simp) (hw.trans hw0) hr h.finite.sdiff Set.subsingleton_empty
    (by simp) ?_
  have hsub : (l.state - RWLOCK_ONE_READER).toNat = l.state.toNat - 8 :=
    BitVec.toNat_sub_of_le (by simpa [BitVec.le_def, RWLOCK_ONE_READER] using hle)
  rw [Set.ncard_empty, Set.ncard_sdiff_singleton_of_mem (show t ∈ l.readers from ht), hs', hsub]
  omega

/-- Every step of a thread keeps the lock ok. -/
theorem step (h : l.Ok) {op : RwOp} (he : l.exec t op = some l') : l'.Ok := by
  obtain ⟨⟨p, w⟩, ha, rfl⟩ := Option.map_eq_some_iff.mp he
  cases op with
  | lockExclusive =>
    by_cases ht : l.place t = .idle
    · rw [act, if_pos ht, RwPlace.rwlockLockExclusive] at ha
      split at ha
      · rename_i hs
        cases ha
        exact h.lockExclusive rfl ht hs rfl
      · cases ha
        exact h.quiet rfl rfl (by simp [ht]) (by simp) (by simp) (by simp)
    · simp [act, ht] at ha
  | unlockExclusive =>
    by_cases ht : l.place t = .exclusive
    · rw [act, if_pos ht, RwPlace.rwlockUnlockExclusive, if_pos (h.writers_eq ht).2.2] at ha
      cases ha
      exact h.unlockExclusive rfl ht rfl
    · simp [act, ht] at ha
  | lockSharedLoad =>
    by_cases ht : l.place t = .idle
    · rw [act, if_pos ht, RwPlace.rwlockTryLockSharedLoad] at ha
      split at ha
      · cases ha
        exact h.quiet rfl rfl (by simp [ht]) (by simp) (by simp) (by simp)
      · rename_i hbit
        split at ha
        · rename_i hlt
          cases ha
          refine h.quiet rfl rfl (by simp [ht]) (by simp) (fun s n heq => ?_) (by simp)
          obtain ⟨rfl, rfl⟩ := RwPlace.loaded.inj heq
          exact ⟨not_not.mp hbit, BitVec.toNat_add_of_lt hlt⟩
        · cases ha
          exact h.quiet rfl rfl (by simp [ht]) (by simp) (by simp) (by simp)
    · simp [act, ht] at ha
  | lockSharedSwap =>
    cases ht : l.place t with
    | loaded s n =>
      simp only [act, ht, RwPlace.rwlockTryLockSharedSwap] at ha
      by_cases hs : l.state = s
      · rw [if_pos hs] at ha
        cases ha
        subst hs
        exact h.lockShared rfl ht
      · rw [if_neg hs] at ha
        cases ha
        exact h.quiet rfl rfl (by simp [ht]) (by simp) (by simp) (by simp)
    | _ => simp [act, ht] at ha
  | unlockShared =>
    by_cases ht : l.place t = .shared
    · rw [act, if_pos ht, h.unlockShared_fast ht] at ha
      cases ha
      exact h.unlockShared rfl ht rfl
    · simp [act, ht] at ha

end Ok

theorem Initial.ok (h : l.Initial) : l.Ok := by
  have hw : l.writers = ∅ := by simp [writers, h.2]
  have hr : l.readers = ∅ := by simp [readers, h.2]
  refine ⟨by simp [hr], by simp [hw], fun _ => hr, by simp [hw, hr, h.1], ?_, ?_⟩ <;> simp [h.2]

theorem ok_of_reachable [DecidableEq ι] (h : Reachable Initial Step l) : l.Ok :=
  h.invariant (fun _ h => h.ok) fun _ _ h ⟨_, _, he⟩ => h.step he

/-- The state word says who holds the lock: a single writer, or any number of readers that it
counts without overflow. No release ends in its slow path. -/
theorem rwlock_exclusion [DecidableEq ι] (h : Reachable Initial Step l) :
    l.state.toNat = (if l.writers = ∅ then 0 else 4) + 8 * l.readers.ncard ∧
    l.readers.Finite ∧ l.writers.Subsingleton ∧ (l.writers = ∅ ∨ l.readers = ∅) ∧
    ∀ t, l.place t ≠ .unlockExclusiveSlow ∧ l.place t ≠ .unlockSharedSlow := by
  have hok := ok_of_reachable h
  refine ⟨?_, hok.finite, hok.one, ?_, hok.unlocks⟩
  · rw [hok.word]
    rcases hok.one.eq_empty_or_singleton with hw | ⟨t, hw⟩
    · simp [hw]
    · simp [hw]
  · rcases Set.eq_empty_or_nonempty l.writers with hw | hw
    · exact Or.inl hw
    · exact Or.inr (hok.apart hw)

/-- The steps of some threads, one after the other. -/
def run [DecidableEq ι] : List (ι × RwOp) → Rwlock ι → Option (Rwlock ι)
  | [], l => some l
  | (t, op) :: ops, l => (l.exec t op).bind (run ops)

theorem reachable_run [DecidableEq ι] {ops : List (ι × RwOp)} (h : Reachable Initial Step l)
    (he : run ops l = some l') : Reachable Initial Step l' := by
  induction ops generalizing l with
  | nil => exact Option.some.inj he ▸ h
  | cons op ops ih =>
      obtain ⟨l1, h1, h2⟩ := Option.bind_eq_some_iff.mp he
      exact ih (h.next ⟨op.1, op.2, h1⟩) h2

/-- Two of four threads read, the swap of a third one came too late, and a writer waits. -/
theorem rwlock_exclusion_two_readers :
    ∃ l : Rwlock ℕ, l.place 0 = .shared ∧ l.place 1 = .tryLockSharedSlow ∧
      l.place 2 = .lockExclusiveSlow ∧ l.place 3 = .shared ∧
      l.state.toNat = (if l.writers = ∅ then 0 else 4) + 8 * l.readers.ncard := by
  obtain ⟨l, he, h0, h1, h2, h3⟩ : ∃ l : Rwlock ℕ,
      run [(0, .lockSharedLoad), (1, .lockSharedLoad), (0, .lockSharedSwap), (1, .lockSharedSwap),
        (2, .lockExclusive), (3, .lockSharedLoad), (3, .lockSharedSwap)] ⟨0, fun _ => .idle⟩ =
        some l ∧ l.place 0 = .shared ∧ l.place 1 = .tryLockSharedSlow ∧
      l.place 2 = .lockExclusiveSlow ∧ l.place 3 = .shared :=
    ⟨_, rfl, by decide, by decide, by decide, by decide⟩
  exact ⟨l, h0, h1, h2, h3,
    (rwlock_exclusion (reachable_run (.start ⟨rfl, fun _ => rfl⟩) he)).1⟩

end Rwlock

end Tomato
