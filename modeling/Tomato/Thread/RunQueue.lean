import Tomato.Lib.List

/-!
# Run queues

Each core has one list of ready threads. `run_queue_put` adds an entry right after
the head and `run_queue_get` takes the entry right after the head, so what is
called a queue hands the entries out in the opposite order. `run_order_iff` says
for which sequences of the two calls this makes no difference.
-/

namespace Tomato

/-- What the links of a run queue point at: the head of a core's list, the entry
inside a thread, or one of the two values that a deleted entry holds. -/
inductive RqEntry
  | head (core : ℕ)
  | thread (t : ℕ)
  | poison1
  | poison2
deriving DecidableEq, Repr

abbrev RqLinks := Links RqEntry

/-- The thread that contains the entry. -/
def RqEntry.containerOf : RqEntry → Option ℕ
  | .thread t => some t
  | _ => none

def runQueuePut (l : RqLinks) (core : ℕ) (entry : RqEntry) : Option RqLinks :=
  l.listAdd (.head core) entry

def runQueueGet (l : RqLinks) (core : ℕ) : Option (Option RqEntry × RqLinks) :=
  match l.listFirstEntryOrNull (.head core) with
  | none => some (none, l)
  | some rqe => (l.listDel .poison1 .poison2 rqe).map fun l => (some rqe, l)

/-- The run queue of the core holds the threads `q`, the first one is next. -/
def Queued (l : RqLinks) (core : ℕ) (q : List ℕ) : Prop := l.Ring (.head core) (q.map .thread)

namespace Queued

variable {l : RqLinks} {core core' t : ℕ} {q q' : List ℕ}

theorem nodup (h : Queued l core q) : q.Nodup :=
  List.Nodup.of_map _ (List.nodup_cons.mp h.1).2

theorem notMem_other (hc : core' ≠ core) (hd : ∀ u ∈ q', u ∉ q) :
    ∀ y ∈ RqEntry.head core' :: q'.map .thread, y ∉ RqEntry.head core :: q.map .thread := by
  have hne : ∀ u ∈ q', ∀ v ∈ q, v ≠ u := fun u hu v hv he => hd u hu (he ▸ hv)
  simpa [hc] using hne

/-- A thread that is in no queue can be put, and becomes the next one. -/
theorem put (h : Queued l core q) (ht : t ∉ q) :
    ∃ l', runQueuePut l core (.thread t) = some l' ∧ Queued l' core (t :: q) ∧
      ∀ core' q', core' ≠ core → Queued l core' q' → (∀ u ∈ q', u ∉ t :: q) →
        Queued l' core' q' := by
  obtain ⟨l', e, hr, hf⟩ := h.listAdd (n := RqEntry.thread t) (by simpa using ht)
  exact ⟨l', e, hr, fun core' q' hc hq hd =>
    hf _ _ hq (notMem_other (q := t :: q) hc hd)⟩

/-- The next thread is the first of the queue. -/
theorem get_nil (h : Queued l core []) : runQueueGet l core = some (none, l) := by
  rw [runQueueGet, h.first]
  rfl

theorem get_cons (h : Queued l core (t :: q)) :
    ∃ l', runQueueGet l core = some (some (.thread t), l') ∧ Queued l' core q ∧
      ∀ core' q', core' ≠ core → Queued l core' q' → (∀ u ∈ q', u ∉ t :: q) →
        Queued l' core' q' := by
  obtain ⟨l', e, hr, hf⟩ := Links.Ring.listDel_first h .poison1 .poison2
  refine ⟨l', ?_, hr, fun core' q' hc hq hd => hf _ _ hq (notMem_other (q := t :: q) hc hd)⟩
  rw [runQueueGet, h.first]
  simp [e]

end Queued

/-- A call on the run queue of a core. -/
inductive QueueOp
  | put (t : ℕ)
  | get
deriving DecidableEq, Repr

/-- The links together with the threads that were put so far and those that came
out, oldest first. -/
structure QueueRun where
  links : RqLinks
  puts : List ℕ
  gets : List ℕ

namespace QueueRun

def exec (core : ℕ) (r : QueueRun) : QueueOp → Option QueueRun
  | .put t => (runQueuePut r.links core (.thread t)).map fun l =>
      { r with links := l, puts := r.puts ++ [t] }
  | .get => (runQueueGet r.links core).map fun (rqe, l) =>
      { r with links := l, gets := r.gets ++ (rqe.bind RqEntry.containerOf).toList }

def run (core : ℕ) : List QueueOp → QueueRun → Option QueueRun
  | [], r => some r
  | op :: ops, r => (exec core r op).bind (run core ops)

/-- A thread is put only if it came out as often as it was put. -/
def Allowed (r : QueueRun) : QueueOp → Prop
  | .put t => r.puts.count t = r.gets.count t
  | .get => True

def Valid (core : ℕ) : List QueueOp → QueueRun → Prop
  | [], _ => True
  | op :: ops, r => r.Allowed op ∧ ∀ r', exec core r op = some r' → Valid core ops r'

/-- With `n` threads in the queue at first, every get finds at most one. -/
def AtMostOne : ℕ → List QueueOp → Prop
  | _, [] => True
  | n, .put _ :: ops => AtMostOne (n + 1) ops
  | n, .get :: ops => n ≤ 1 ∧ AtMostOne (n - 1) ops

/-- The run queue of the core right after `run_queue_init`. -/
def start (core : ℕ) : QueueRun where
  links := (⟨fun _ => .poison1, fun _ => .poison2⟩ : RqLinks).initList (.head core)
  puts := []
  gets := []

/-- The two lists differ at some position. -/
def Mismatch (xs ys : List ℕ) : Prop :=
  ∃ p x y, x ≠ y ∧ p ++ [x] <+: xs ∧ p ++ [y] <+: ys

theorem Mismatch.append {xs ys : List ℕ} (h : Mismatch xs ys) (xs' ys' : List ℕ) :
    Mismatch (xs ++ xs') (ys ++ ys') := by
  obtain ⟨p, x, y, hne, hx, hy⟩ := h
  exact ⟨p, x, y, hne, hx.trans (List.prefix_append _ _), hy.trans (List.prefix_append _ _)⟩

theorem Mismatch.not_prefix {xs ys : List ℕ} (h : Mismatch xs ys) : ¬ xs <+: ys := by
  obtain ⟨p, x, y, hne, hx, hy⟩ := h
  intro hp
  have heq : p ++ [x] = p ++ [y] :=
    List.prefix_of_prefix_length_le (hx.trans hp) hy (by simp) |>.eq_of_length (by simp)
  exact hne (by simpa using heq)

/-- The invariant of a run: `q` are the threads that were put and did not come out. -/
structure Holds (core : ℕ) (r : QueueRun) (q : List ℕ) : Prop where
  queued : Queued r.links core q
  count : ∀ t, r.puts.count t = r.gets.count t + q.count t

variable {core n : ℕ} {r : QueueRun} {q : List ℕ} {ops : List QueueOp}

theorem holds_start (core : ℕ) : Holds core (start core) [] :=
  ⟨Links.initList_ring _ _, fun _ => rfl⟩

theorem Holds.put {t : ℕ} (h : Holds core r q) (ha : r.Allowed (.put t)) :
    ∃ r', exec core r (.put t) = some r' ∧ Holds core r' (t :: q) ∧
      r'.puts = r.puts ++ [t] ∧ r'.gets = r.gets := by
  have ht : t ∉ q := by
    have h1 : r.puts.count t = r.gets.count t := ha
    have h2 := h.count t
    exact List.count_eq_zero.mp (by omega)
  obtain ⟨l', e, hq, -⟩ := h.queued.put ht
  refine ⟨⟨l', r.puts ++ [t], r.gets⟩, by rw [exec, e]; rfl, ⟨hq, fun u => ?_⟩, rfl, rfl⟩
  have := h.count u
  simp only [List.count_append, List.count_cons, List.count_nil]
  omega

theorem Holds.get_nil (h : Holds core r []) : exec core r .get = some r := by
  rw [exec, h.queued.get_nil]
  simp

theorem Holds.get_cons {t : ℕ} (h : Holds core r (t :: q)) :
    ∃ r', exec core r .get = some r' ∧ Holds core r' q ∧
      r'.puts = r.puts ∧ r'.gets = r.gets ++ [t] := by
  obtain ⟨l', e, hq, -⟩ := h.queued.get_cons
  refine ⟨⟨l', r.puts, r.gets ++ [t]⟩, by rw [exec, e]; rfl, ⟨hq, fun u => ?_⟩, rfl, rfl⟩
  have := h.count u
  simp only [List.count_append, List.count_cons, List.count_nil] at this ⊢
  omega

/-- Once the orders differ they differ for ever. -/
theorem run_of_mismatch (hv : Valid core ops r) (h : Holds core r q)
    (hm : Mismatch r.gets r.puts) :
    ∃ r', run core ops r = some r' ∧ Mismatch r'.gets r'.puts := by
  induction ops generalizing r q with
  | nil => exact ⟨r, rfl, hm⟩
  | cons op ops ih =>
      obtain ⟨ha, hv⟩ := hv
      cases op with
      | put t =>
          obtain ⟨r1, e, h1, hp, hg⟩ := h.put ha
          rw [run, e, Option.bind_some]
          refine ih (hv r1 e) h1 ?_
          rw [hp, hg]
          simpa using hm.append [] [t]
      | get =>
          cases q with
          | nil =>
              rw [run, h.get_nil, Option.bind_some]
              exact ih (hv r h.get_nil) h hm
          | cons t q =>
              obtain ⟨r1, e, h1, hp, hg⟩ := h.get_cons
              rw [run, e, Option.bind_some]
              refine ih (hv r1 e) h1 ?_
              rw [hp, hg]
              simpa using hm.append [t] []

/-- As long as the orders agree the queue holds the rest of the puts, newest first. -/
theorem run_order (hv : Valid core ops r) (h : Holds core r q)
    (ho : r.puts = r.gets ++ q.reverse) :
    ∃ r', run core ops r = some r' ∧ (r'.gets <+: r'.puts ↔ AtMostOne q.length ops) := by
  induction ops generalizing r q with
  | nil =>
      refine ⟨r, rfl, iff_of_true ?_ trivial⟩
      rw [ho]
      exact List.prefix_append _ _
  | cons op ops ih =>
      obtain ⟨ha, hv⟩ := hv
      cases op with
      | put t =>
          obtain ⟨r1, e, h1, hp, hg⟩ := h.put ha
          rw [run, e, Option.bind_some]
          refine ih (hv r1 e) h1 ?_
          rw [hp, hg, ho]
          simp
      | get =>
          match q, h with
          | [], h =>
              rw [run, h.get_nil, Option.bind_some]
              simpa [AtMostOne] using ih (hv r h.get_nil) h ho
          | [t], h =>
              obtain ⟨r1, e, h1, hp, hg⟩ := h.get_cons
              rw [run, e, Option.bind_some]
              simpa [AtMostOne] using ih (hv r1 e) h1 (by rw [hp, hg, ho]; simp)
          | t :: u :: q, h =>
              -- the oldest thread of the queue is not the one that comes out
              obtain ⟨r1, e, h1, hp, hg⟩ := h.get_cons
              obtain ⟨y, ys, hys⟩ := List.exists_cons_of_ne_nil
                (show (u :: q).reverse ≠ [] by simp)
              have hy : y ∈ u :: q := by
                rw [← List.mem_reverse, hys]
                simp
              have hty : t ≠ y := by
                rintro rfl
                exact (List.nodup_cons.mp h.queued.nodup).1 hy
              have hm : Mismatch r1.gets r1.puts := by
                refine ⟨r.gets, t, y, hty, by rw [hg], ?_⟩
                rw [hp, ho, List.reverse_cons (a := t), hys]
                exact ⟨ys ++ [t], by simp⟩
              obtain ⟨r2, e2, hm2⟩ := run_of_mismatch (hv r1 e) h1 hm
              refine ⟨r2, by rw [run, e, Option.bind_some, e2], iff_of_false hm2.not_prefix ?_⟩
              simp [AtMostOne]

/-- The threads come out in the order in which they were put exactly if every get
finds at most one thread in the queue. -/
theorem run_order_iff (core : ℕ) (hv : Valid core ops (start core)) :
    ∃ r, run core ops (start core) = some r ∧ (r.gets <+: r.puts ↔ AtMostOne 0 ops) :=
  run_order hv (holds_start core) rfl

end QueueRun

end Tomato
