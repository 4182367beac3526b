import Tomato.Mem.Virt.Races

/-!
# The walks of many cores are consistent

Whatever the cores do, the tables only grow, a walk ends at the slot of its page, and a page
that a core has taken is either linked or given back. `walksConsistent_of_reachable` says this
for every run from a page table that the kernel can have.
-/

namespace Tomato

open Blocks Radix Transition

namespace WalkEvent

def core : WalkEvent → ℕ
  | .took core _ | .linked core _ _ | .lost core _ | .returned core _ | .finished core _ _ => core

/-- The entry that was set. -/
def entry : WalkEvent → Option ℕ
  | .linked _ entry _ => some entry
  | _ => none

end WalkEvent

/-- The events of a core that holds no page, the last one first: every page that it took was
linked, or it was lost and returned. -/
inductive CoreTrace (core : ℕ) : List WalkEvent → Prop
  | nil : CoreTrace core []
  | finished {es : List WalkEvent} (virt : ℕ) (pte : Option ℕ) :
      CoreTrace core es → CoreTrace core (.finished core virt pte :: es)
  | won {es : List WalkEvent} (entry page : ℕ) :
      CoreTrace core es → CoreTrace core (.linked core entry page :: .took core page :: es)
  | lost {es : List WalkEvent} (page : ℕ) : CoreTrace core es →
      CoreTrace core (.returned core page :: .lost core page :: .took core page :: es)

namespace WalkPc

variable {d : DirectMap} {root core virt level table value : ℕ} {m m' : Memory} {pc : WalkPc}
  {es : List WalkEvent}

/-- The page that the core has taken and not linked. -/
def page : WalkPc → Option ℕ
  | .exchange _ _ _ _ page | .giveBack _ _ _ _ page => some page
  | _ => none

/-- The table of the level on the walk to the address, above the last level. -/
def At (d : DirectMap) (root : ℕ) (m : Memory) (virt level table : ℕ) : Prop :=
  0 < level ∧ level ≤ 3 ∧ Phys.walkTable d m root (pageNumber virt) level = some table

/-- What a core knows about the page table. -/
def Ok (d : DirectMap) (root : ℕ) (m : Memory) : WalkPc → Prop
  | .idle => True
  | .load virt level table => At d root m virt level table
  | .take virt level table value | .exchange virt level table value _ =>
    At d root m virt level table ∧ value &&& IA32_PG_P = 0 ∧
      (m (entryPtr table (pagingIndex virt level)) = value ∨
        m (entryPtr table (pagingIndex virt level)) &&& IA32_PG_P ≠ 0)
  | .giveBack virt level table value _ =>
    At d root m virt level table ∧ value &&& IA32_PG_P ≠ 0 ∧
      m (entryPtr table (pagingIndex virt level)) = value

/-- The events of a core. -/
def Trace (core : ℕ) (es : List WalkEvent) : WalkPc → Prop
  | .exchange _ _ _ _ page => ∃ es', CoreTrace core es' ∧ es = .took core page :: es'
  | .giveBack _ _ _ _ page =>
    ∃ es', CoreTrace core es' ∧ es = .lost core page :: .took core page :: es'
  | _ => CoreTrace core es

theorem pagingIndex_lt (hl : level ≤ 3) : pagingIndex virt level < 512 := by
  rw [pagingIndex_eq virt hl]
  exact Nat.mod_lt _ (by decide)

theorem At.mono (h : At d root m virt level table) (hg : TablesGrow d root m m') :
    At d root m' virt level table := by
  obtain ⟨h0, h3, ht⟩ := h
  exact ⟨h0, h3, hg.table _ (by omega) _ (Phys.walkKey_lt (pageNumber_lt virt) h3) _ ht⟩

/-- An entry of the upper levels is set at most once. -/
theorem At.entry (h : At d root m virt level table) (hg : TablesGrow d root m m') :
    m' (entryPtr table (pagingIndex virt level)) = m (entryPtr table (pagingIndex virt level)) ∨
      m (entryPtr table (pagingIndex virt level)) &&& IA32_PG_P = 0 ∧
        m' (entryPtr table (pagingIndex virt level)) &&& IA32_PG_P ≠ 0 := by
  obtain ⟨h0, h3, ht⟩ := h
  exact hg.entry (3 - level) (by omega) _ (Phys.walkKey_lt (pageNumber_lt virt) h3) _ ht _
    (pagingIndex_lt h3)

/-- The other cores do not disturb a core. -/
theorem Ok.mono (h : pc.Ok d root m) (hg : TablesGrow d root m m') : pc.Ok d root m' := by
  cases pc with
  | idle => trivial
  | load virt level table => exact At.mono h hg
  | take virt level table value | exchange virt level table value page =>
      obtain ⟨hat, hv, he⟩ := h
      refine ⟨hat.mono hg, hv, ?_⟩
      rcases hat.entry hg with e | ⟨-, e⟩
      · rwa [e]
      · exact Or.inr e
  | giveBack virt level table value page =>
      obtain ⟨hat, hv, he⟩ := h
      refine ⟨hat.mono hg, hv, ?_⟩
      rcases hat.entry hg with e | ⟨e, -⟩
      · rwa [e]
      · exact absurd (he ▸ e) hv

/-- The walk goes on at the next table. -/
theorem At.next (h : At d root m virt level table)
    (hv : m (entryPtr table (pagingIndex virt level)) &&& IA32_PG_P ≠ 0) :
    Phys.walkTable d m root (pageNumber virt) (level - 1) = some (d.physToDirect
      (m (entryPtr table (pagingIndex virt level)) &&& PAGING_4K_ADDRESS_MASK)) := by
  obtain ⟨h0, h3, ht⟩ := h
  obtain ⟨l, rfl⟩ : ∃ l, level = l + 1 := ⟨level - 1, by omega⟩
  rw [Nat.add_sub_cancel, Phys.walkTable_succ d m root _ (by omega), ht, Option.bind_some,
    ← pagingIndex_eq virt h3, nextTable, if_neg hv]

/-- What `virt_get_next_level` leaves when it has found the next table. -/
inductive Arrived (d : DirectMap) (root : ℕ) (m : Memory) (core virt : ℕ) :
    WalkPc → List WalkEvent → Prop
  | found {p : ℕ} : slot d m root (pageNumber virt) = some p →
      Arrived d root m core virt .idle [.finished core virt (some p)]
  | table {level table : ℕ} : At d root m virt level table →
      Arrived d root m core virt (.load virt level table) []

namespace Arrived

theorem ok (h : Arrived d root m core virt pc es) : pc.Ok d root m := by
  cases h with
  | found hs => trivial
  | table hat => exact hat

theorem page (h : Arrived d root m core virt pc es) : pc.page = none := by
  cases h <;> rfl

theorem entries (h : Arrived d root m core virt pc es) : es.filterMap WalkEvent.entry = [] := by
  cases h <;> rfl

theorem core_eq (h : Arrived d root m core virt pc es) : ∀ e ∈ es, e.core = core := by
  cases h <;> simp [WalkEvent.core]

theorem trace {es' : List WalkEvent} (h : Arrived d root m core virt pc es)
    (ht : CoreTrace core es') : pc.Trace core (es ++ es') := by
  cases h with
  | found hs => exact .finished _ _ ht
  | table hat => exact ht

theorem finished (h : Arrived d root m core virt pc es) {core' virt' p : ℕ}
    (he : .finished core' virt' (some p) ∈ es) : slot d m root (pageNumber virt') = some p := by
  cases h with
  | found hs =>
      simp only [List.mem_singleton, WalkEvent.finished.injEq, Option.some.injEq] at he
      obtain ⟨rfl, rfl, rfl⟩ := he
      exact hs
  | table hat => simp at he

theorem not_linked (h : Arrived d root m core virt pc es) {core' e x : ℕ} :
    .linked core' e x ∉ es := by
  cases h <;> simp

end Arrived

end WalkPc

namespace Walkers

open WalkPc

variable {d : DirectMap} {root core virt level table value : ℕ} {s s' : Walkers} {boot : Set ℕ}

/-- The state after a step of the core. -/
def next (s : Walkers) (core : ℕ) (t : Clients) (pc : WalkPc) (es : List WalkEvent) : Walkers :=
  ⟨t, Function.update s.pc core pc, es ++ s.events⟩

theorem next_pc_self (s : Walkers) (core : ℕ) (t : Clients) (pc : WalkPc) (es : List WalkEvent) :
    (s.next core t pc es).pc core = pc :=
  Function.update_self ..

theorem next_pc_of_ne {core' : ℕ} (s : Walkers) (t : Clients) (pc : WalkPc) (es : List WalkEvent)
    (h : core' ≠ core) : (s.next core t pc es).pc core' = s.pc core' :=
  Function.update_of_ne h ..

theorem log_next (s : Walkers) (t t' : Clients) (e : WalkEvent) (pc : WalkPc)
    (es : List WalkEvent) :
    ((s.setClients t).log e).next core t' pc es = s.next core t' pc (es ++ [e]) := by
  rw [next, next, List.append_assoc]
  rfl

/-- The call to `virt_get_next_level` returns the table that the entry leads to. -/
theorem enter_spec (core : ℕ) (h : At d root s.mem virt level table)
    (he : s.mem (entryPtr table (pagingIndex virt level)) = value)
    (hv : value &&& IA32_PG_P ≠ 0) :
    ∃ pc es, s.enter d core virt level value = some (s.next core s.clients pc es) ∧
      Arrived d root s.mem core virt pc es := by
  subst he
  have ht := h.next hv
  rw [enter, if_neg hv]
  by_cases hl : level = 1
  · rw [if_pos hl]
    refine ⟨_, _, rfl, .found ?_⟩
    subst hl
    have hslot : slot d s.mem root (pageNumber virt) = _ := Phys.walkTable_zero.symm
    rw [hslot, show s.clients.phys.mem = s.mem from rfl, ht,
      pagingIndex_eq virt (show 0 ≤ 3 by omega)]
    simp
  · rw [if_neg hl]
    refine ⟨_, _, rfl, .table ⟨?_, ?_, ht⟩⟩
    · have := h.1
      omega
    · have := h.2.1
      omega

/-- The blocks that are held are those from before and the pages of the cores. -/
structure Held (s0 s : Walkers) : Prop where
  mem_iff : ∀ b, b ∈ s.clients.live ↔
    b ∈ s0.clients.live ∨ ∃ core p, (s.pc core).page = some p ∧ b = block p 6
  fresh : ∀ core p, (s.pc core).page = some p → block p 6 ∉ s0.clients.live
  inj : ∀ core core' p, (s.pc core).page = some p → (s.pc core').page = some p → core = core'

/-- The entry leads to the table, and it is one of the upper levels. -/
def Leads (d : DirectMap) (root : ℕ) (m : Memory) (e x : ℕ) : Prop :=
  ∃ i < 3, ∃ k < 512 ^ i, ∃ t, tableAt (nextTable d m) root 512 i k = some t ∧
    ∃ j < 512, e = entryPtr t j ∧ nextTable d m t j = some x

def eventsOf (s : Walkers) (core : ℕ) : List WalkEvent :=
  s.events.filter fun e => e.core = core

/-- What holds after every run from `s0`. -/
structure Good (d : DirectMap) (root : ℕ) (boot : Set ℕ) (s0 s : Walkers) : Prop where
  virt : s.clients.VirtOk d root boot
  grow : TablesGrow d root s0.mem s.mem
  leaf : ∀ n < 2 ^ 36, leafEntry d s.mem root n = leafEntry d s0.mem root n
  cores : ∀ core, (s.pc core).Ok d root s.mem
  held : Held s0 s
  zero : ∀ core p, (s.pc core).page = some p → ∀ a ∈ pageCells p, s.mem a = 0
  count : s.clients.phys.acct.committed + s0.clients.live.length +
      (tables d s0.mem root).ncard =
    s0.clients.phys.acct.committed + s.clients.live.length + (tables d s.mem root).ncard
  links : (tables d s.mem root).ncard =
    (tables d s0.mem root).ncard + (s.events.filterMap WalkEvent.entry).length
  trace : ∀ core, (s.pc core).Trace core (s.eventsOf core)
  finished : ∀ core virt p, .finished core virt (some p) ∈ s.events →
    slot d s.mem root (pageNumber virt) = some p
  linked : ∀ core e x, .linked core e x ∈ s.events → Leads d root s.mem e x
  once : (s.events.filterMap WalkEvent.entry).Nodup

theorem Leads.mono {m m' : Memory} {e x : ℕ} (h : Leads d root m e x)
    (hg : TablesGrow d root m m') : Leads d root m' e x := by
  obtain ⟨i, hi, k, hk, t, ht, j, hj, he, hx⟩ := h
  refine ⟨i, hi, k, hk, t, hg.table i hi.le k hk t ht, j, hj, he, ?_⟩
  have hp : m (entryPtr t j) &&& IA32_PG_P ≠ 0 := fun hc => by simp [nextTable, hc] at hx
  rcases hg.entry i hi k hk t ht j hj with e | ⟨e, -⟩
  · rwa [nextTable, e]
  · exact absurd e hp

theorem Leads.present {m : Memory} {e x : ℕ} (h : Leads d root m e x) :
    m e &&& IA32_PG_P ≠ 0 := by
  obtain ⟨i, hi, k, hk, t, ht, j, hj, rfl, hx⟩ := h
  exact fun hc => by simp [nextTable, hc] at hx

theorem eventsOf_next_self (s : Walkers) (t : Clients) (pc : WalkPc) {es : List WalkEvent}
    (hes : ∀ e ∈ es, e.core = core) :
    (s.next core t pc es).eventsOf core = es ++ s.eventsOf core := by
  simp only [eventsOf, next, List.filter_append, List.append_cancel_right_eq]
  exact List.filter_eq_self.mpr fun e he => decide_eq_true (hes e he)

theorem eventsOf_next_of_ne {core' : ℕ} (s : Walkers) (t : Clients) (pc : WalkPc)
    {es : List WalkEvent} (hes : ∀ e ∈ es, e.core = core) (hne : core' ≠ core) :
    (s.next core t pc es).eventsOf core' = s.eventsOf core' := by
  simp only [eventsOf, next, List.filter_append, List.append_left_eq_self]
  exact List.filter_eq_nil_iff.mpr fun e he => by simpa [hes e he] using hne.symm

/-- What the core that makes the step has to show. -/
structure OwnStep (d : DirectMap) (root : ℕ) (s : Walkers) (core : ℕ) (t : Clients) (pc : WalkPc)
    (es : List WalkEvent) : Prop where
  ok : pc.Ok d root t.phys.mem
  core_eq : ∀ e ∈ es, e.core = core
  zero : ∀ p, pc.page = some p → ∀ a ∈ pageCells p, t.phys.mem a = 0
  count : t.phys.acct.committed + s.clients.live.length + (tables d s.mem root).ncard =
    s.clients.phys.acct.committed + t.live.length + (tables d t.phys.mem root).ncard
  links : (tables d t.phys.mem root).ncard =
    (tables d s.mem root).ncard + (es.filterMap WalkEvent.entry).length
  trace : pc.Trace core (es ++ s.eventsOf core)
  finished : ∀ core virt p, .finished core virt (some p) ∈ es →
    slot d t.phys.mem root (pageNumber virt) = some p
  linked : ∀ core e x, .linked core e x ∈ es → Leads d root t.phys.mem e x
  unset : ∀ e ∈ es.filterMap WalkEvent.entry, s.mem e &&& IA32_PG_P = 0
  once : (es.filterMap WalkEvent.entry).Nodup

/-- The invariant holds after a step, too, and the step changes no entry that was set. -/
def Kept (d : DirectMap) (root : ℕ) (boot : Set ℕ) (s0 s s' : Walkers) : Prop :=
  Good d root boot s0 s' ∧ TablesGrow d root s.mem s'.mem

/-- A step of one core keeps the invariant. -/
theorem Good.next {s0 : Walkers} {t : Clients} {pc : WalkPc} {es : List WalkEvent}
    (h : Good d root boot s0 s) (hw : WalkStep d root boot s.clients t)
    (ho : OwnStep d root s core t pc es) (hheld : Held s0 (s.next core t pc es)) :
    Kept d root boot s0 s (s.next core t pc es) := by
  have hgrow : TablesGrow d root s.mem t.phys.mem := hw.grow
  refine ⟨⟨hw.virt, h.grow.trans hgrow, fun n hn => (hw.leaf n hn).trans (h.leaf n hn),
    fun c => ?_, hheld, fun c p hp a ha => ?_, ?_, ?_, fun c => ?_, fun c virt p he => ?_,
    fun c e x he => ?_, ?_⟩, hgrow⟩
  · by_cases hc : c = core
    · subst hc
      rw [next_pc_self]
      exact ho.ok
    · rw [next_pc_of_ne s t pc es hc]
      exact (h.cores c).mono hgrow
  · by_cases hc : c = core
    · subst hc
      rw [next_pc_self] at hp
      exact ho.zero p hp a ha
    · have hp' := hp
      rw [next_pc_of_ne s t pc es hc] at hp'
      have hb : block p 6 ∈ s.clients.live := (h.held.mem_iff _).mpr (Or.inr ⟨c, p, hp', rfl⟩)
      have hb' : block p 6 ∈ t.live := (hheld.mem_iff _).mpr (Or.inr ⟨c, p, hp, rfl⟩)
      exact (hw.content _ hb hb' a ha).trans (h.zero c p hp' a ha)
  · have h1 := h.count
    have h2 := ho.count
    simp only [Walkers.next, mem] at h1 h2 ⊢
    omega
  · have h1 := h.links
    have h2 := ho.links
    simp only [Walkers.next, mem, List.filterMap_append, List.length_append] at h1 h2 ⊢
    omega
  · by_cases hc : c = core
    · subst hc
      rw [next_pc_self, eventsOf_next_self s t pc ho.core_eq]
      exact ho.trace
    · rw [next_pc_of_ne s t pc es hc, eventsOf_next_of_ne s t pc ho.core_eq hc]
      exact h.trace c
  · rcases List.mem_append.mp he with he | he
    · exact ho.finished c virt p he
    · exact hgrow.slot (pageNumber_lt virt) (h.finished c virt p he)
  · rcases List.mem_append.mp he with he | he
    · exact ho.linked c e x he
    · exact (h.linked c e x he).mono hgrow
  · simp only [Walkers.next, List.filterMap_append, List.nodup_append]
    refine ⟨ho.once, h.once, fun e he e' he' => ?_⟩
    rintro rfl
    obtain ⟨ev, hev, hentry⟩ := List.mem_filterMap.mp he'
    cases ev with
    | linked c e' x =>
        obtain rfl := Option.some.inj hentry
        exact (h.linked c _ x hev).present (ho.unset _ he)
    | took c p | lost c p | returned c p | finished c virt pte => simp [WalkEvent.entry] at hentry

namespace Held

variable {s0 : Walkers} {t : Clients} {pc : WalkPc} {es : List WalkEvent} {page : ℕ}

theorem same (h : Held s0 s) (hl : t.live = s.clients.live) (hp : pc.page = (s.pc core).page) :
    Held s0 (s.next core t pc es) := by
  have hpage : ∀ c, ((s.next core t pc es).pc c).page = (s.pc c).page := by
    intro c
    by_cases hc : c = core
    · rw [hc, next_pc_self, hp]
    · rw [next_pc_of_ne s t pc es hc]
  refine ⟨fun b => ?_, fun c p hc => h.fresh c p (hpage c ▸ hc),
    fun c c' p hc hc' => h.inj c c' p (hpage c ▸ hc) (hpage c' ▸ hc')⟩
  simp only [hpage]
  exact hl ▸ h.mem_iff b

theorem take (h : Held s0 s) (hs : (s.pc core).page = none) (hp : pc.page = some page)
    (hl : t.live = block page 6 :: s.clients.live) (hnew : block page 6 ∉ s.clients.live) :
    Held s0 (s.next core t pc es) := by
  have hself : ((s.next core t pc es).pc core).page = some page := by rw [next_pc_self, hp]
  have hother : ∀ c ≠ core, ((s.next core t pc es).pc c).page = (s.pc c).page :=
    fun c hc => by rw [next_pc_of_ne s t pc es hc]
  have hne : ∀ c, (s.pc c).page ≠ some page := fun c hc =>
    hnew ((h.mem_iff _).mpr (Or.inr ⟨c, page, hc, rfl⟩))
  refine ⟨fun b => ?_, fun c p hc => ?_, fun c c' p hc hc' => ?_⟩
  · rw [show (s.next core t pc es).clients.live = _ from hl, List.mem_cons, h.mem_iff b]
    constructor
    · rintro (rfl | hb | ⟨c, p, hc, hb⟩)
      · exact Or.inr ⟨core, page, hself, rfl⟩
      · exact Or.inl hb
      · refine Or.inr ⟨c, p, ?_, hb⟩
        rw [hother c (by rintro rfl; simp [hs] at hc), hc]
    · rintro (hb | ⟨c, p, hc, hb⟩)
      · exact Or.inr (Or.inl hb)
      · by_cases hcc : c = core
        · rw [hcc, hself] at hc
          exact Or.inl (Option.some.inj hc ▸ hb)
        · exact Or.inr (Or.inr ⟨c, p, hother c hcc ▸ hc, hb⟩)
  · by_cases hcc : c = core
    · rw [hcc, hself] at hc
      obtain rfl := Option.some.inj hc
      exact fun hb => hnew ((h.mem_iff _).mpr (Or.inl hb))
    · exact h.fresh c p (hother c hcc ▸ hc)
  · by_cases hcc : c = core <;> by_cases hcc' : c' = core
    · rw [hcc, hcc']
    · rw [hcc, hself] at hc
      rw [hother c' hcc', ← hc] at hc'
      exact absurd hc' (hne c')
    · rw [hcc', hself] at hc'
      rw [hother c hcc, ← hc'] at hc
      exact absurd hc (hne c)
    · exact h.inj c c' p (hother c hcc ▸ hc) (hother c' hcc' ▸ hc')

theorem drop (h : Held s0 s) (hs : (s.pc core).page = some page) (hp : pc.page = none)
    (hl : t.live = s.clients.live.erase (block page 6)) (hnd : s.clients.live.Nodup) :
    Held s0 (s.next core t pc es) := by
  have hself : ((s.next core t pc es).pc core).page = none := by rw [next_pc_self, hp]
  have hother : ∀ c ≠ core, ((s.next core t pc es).pc c).page = (s.pc c).page :=
    fun c hc => by rw [next_pc_of_ne s t pc es hc]
  have hkeep : ∀ c p, ((s.next core t pc es).pc c).page = some p →
      c ≠ core ∧ (s.pc c).page = some p := by
    intro c p hc
    by_cases hcc : c = core
    · rw [hcc, hself] at hc
      simp at hc
    · exact ⟨hcc, hother c hcc ▸ hc⟩
  refine ⟨fun b => ?_, fun c p hc => h.fresh c p (hkeep c p hc).2,
    fun c c' p hc hc' => h.inj c c' p (hkeep c p hc).2 (hkeep c' p hc').2⟩
  rw [show (s.next core t pc es).clients.live = _ from hl, hnd.mem_erase_iff, h.mem_iff b]
  constructor
  · rintro ⟨hne, hb | ⟨c, p, hc, rfl⟩⟩
    · exact Or.inl hb
    · refine Or.inr ⟨c, p, ?_, rfl⟩
      rw [hother c, hc]
      rintro rfl
      rw [hs] at hc
      exact hne (by rw [Option.some.inj hc])
  · rintro (hb | ⟨c, p, hc, rfl⟩)
    · exact ⟨fun hc => h.fresh core page hs (hc ▸ hb), Or.inl hb⟩
    · obtain ⟨hcc, hc⟩ := hkeep c p hc
      refine ⟨fun he => hcc ?_, Or.inr ⟨c, p, hc, rfl⟩⟩
      obtain rfl : p = page := congrArg Block.addr he
      exact h.inj c core p hc hs

end Held

/-- A step that changes no memory and sets no entry. -/
theorem OwnStep.quiet {pc : WalkPc} {es : List WalkEvent} (hok : pc.Ok d root s.mem)
    (hcore : ∀ e ∈ es, e.core = core)
    (hzero : ∀ p, pc.page = some p → ∀ a ∈ pageCells p, s.mem a = 0)
    (htrace : pc.Trace core (es ++ s.eventsOf core))
    (hfin : ∀ core virt p, .finished core virt (some p) ∈ es →
      slot d s.mem root (pageNumber virt) = some p)
    (hlink : ∀ core e x, .linked core e x ∉ es) : OwnStep d root s core s.clients pc es := by
  have hnone : es.filterMap WalkEvent.entry = [] := by
    refine List.filterMap_eq_nil_iff.mpr fun e he => ?_
    cases e with
    | linked c e x => exact absurd he (hlink c e x)
    | took c p | lost c p | returned c p | finished c virt pte => rfl
  exact
    { ok := hok
      core_eq := hcore
      zero := hzero
      count := by simp only [mem]
      links := by rw [hnone]; rfl
      trace := htrace
      finished := hfin
      linked := fun c e x he => absurd he (hlink c e x)
      unset := by simp [hnone]
      once := by simp [hnone] }

section Steps

variable {s0 : Walkers} {page : ℕ} (h : Good d root boot s0 s)

include h

theorem Good.begin_ (hpc : s.pc core = .idle) (virt : ℕ) :
    Kept d root boot s0 s (s.begin_ root core virt) := by
  have htrace := h.trace core
  rw [hpc] at htrace
  change Kept d root boot s0 s (s.next core s.clients _ [])
  exact h.next (.refl h.virt) (.quiet ⟨by decide, by decide, rfl⟩ (by simp)
    (by simp [WalkPc.page]) htrace (by simp) (by simp)) (h.held.same rfl (by rw [hpc]; rfl))

/-- The entry is there, or a page is needed for it. -/
theorem Good.load (hpc : s.pc core = .load virt level table) :
    ∃ s', s.run d core = some s' ∧ Kept d root boot s0 s s' := by
  have hat := h.cores core
  have htrace := h.trace core
  rw [hpc] at hat htrace
  simp only [run, hpc]
  split
  · rename_i hv
    refine ⟨s.next core s.clients (.take virt level table _) [], rfl, ?_⟩
    exact h.next (.refl h.virt) (.quiet ⟨hat, hv, Or.inl rfl⟩ (by simp) (by simp [WalkPc.page])
      htrace (by simp) (by simp)) (h.held.same rfl (by rw [hpc]; rfl))
  · rename_i hv
    obtain ⟨pc, es, e, ha⟩ := enter_spec core hat rfl hv
    exact ⟨_, e, h.next (.refl h.virt) (.quiet ha.ok ha.core_eq (by simp [ha.page])
      (ha.trace htrace) (fun _ _ _ => ha.finished) fun _ _ _ => ha.not_linked)
      (h.held.same rfl (by rw [hpc, ha.page]; rfl))⟩

/-- A page is taken, or the walk returns null. -/
theorem Good.take (hpc : s.pc core = .take virt level table value) :
    ∃ s', s.run d core = some s' ∧ Kept d root boot s0 s s' := by
  have hok := h.cores core
  have htrace := h.trace core
  rw [hpc] at hok htrace
  simp only [run, hpc]
  rcases h.virt.take with e | ⟨p, t, e, hw, hl, hnew, hzero, hacct, htab⟩
  · rw [e]
    refine ⟨s.next core s.clients .idle [.finished core virt none], rfl, ?_⟩
    exact h.next (.refl h.virt) (.quiet trivial (by simp [WalkEvent.core]) (by simp [WalkPc.page])
      (.finished _ _ htrace) (by simp) (by simp)) (h.held.same rfl (by rw [hpc]; rfl))
  · rw [e]
    refine ⟨s.next core (s.clients.handOut PAGE_SIZE (some p, t))
      (.exchange virt level table value p) [.took core p], rfl, ?_⟩
    refine h.next hw ?_ (h.held.take (by rw [hpc]; rfl) rfl hl hnew)
    have htables : tables d (s.clients.handOut PAGE_SIZE (some p, t)).phys.mem root =
      tables d s.mem root := htab
    exact
      { ok := WalkPc.Ok.mono (show Ok d root s.mem (.exchange virt level table value p) from hok)
          hw.grow
        core_eq := by simp [WalkEvent.core]
        zero := fun q hq => Option.some.inj hq ▸ hzero
        count := by
          rw [hl, htables, List.length_cons]
          simp only [Clients.handOut, hacct]
          omega
        links := by rw [htables]; rfl
        trace := ⟨_, htrace, rfl⟩
        finished := by simp
        linked := by simp
        unset := fun _ he => absurd he List.not_mem_nil
        once := List.nodup_nil }

/-- The entry is set, or somebody else has set it. -/
theorem Good.exchange (hpc : s.pc core = .exchange virt level table value page) :
    ∃ s', s.run d core = some s' ∧ Kept d root boot s0 s s' := by
  obtain ⟨hat, hv, hknown⟩ : WalkPc.Ok d root s.mem (.exchange virt level table value page) :=
    hpc ▸ h.cores core
  have htrace := h.trace core
  have hpage : (s.pc core).page = some page := by rw [hpc]; rfl
  rw [hpc] at htrace
  obtain ⟨es', htrace, hes⟩ := htrace
  simp only [run, hpc]
  split
  · rename_i he
    obtain ⟨h0, h3, ht⟩ := id hat
    have hx : block page 6 ∈ s.clients.live := (h.held.mem_iff _).mpr (Or.inr ⟨core, page, hpage, rfl⟩)
    obtain ⟨t, ht', hw, htab, hnew, hnext⟩ := h.virt.link (virtIsUserAddress virt) hx
      (h.zero core page hpage) (show 3 - level < 3 by omega)
      (Phys.walkKey_lt (pageNumber_lt virt) h3) (pagingIndex_lt h3) ht
      (by rw [nextTable, show s.clients.phys.mem _ = value from he, if_pos hv])
    have hmem : t.mem (entryPtr table (pagingIndex virt level)) =
        newTableEntry d page (virtIsUserAddress virt) := by
      rw [ht']
      exact Memory.store_self ..
    rw [← ht']
    obtain ⟨pc, es, e, ha⟩ := enter_spec (s := (s.setClients { s.clients with
      phys := t, live := s.clients.live.erase (block page 6) }).log
        (.linked core (entryPtr table (pagingIndex virt level)) page)) core
      (hat.mono hw.grow) hmem hnew
    refine ⟨s.next core _ pc (es ++ [.linked core (entryPtr table (pagingIndex virt level)) page]),
      e.trans ?_, h.next hw ?_ ?_⟩
    · rw [log_next]
      rfl
    · have hentries : (es ++ [WalkEvent.linked core (entryPtr table (pagingIndex virt level))
          page]).filterMap WalkEvent.entry = [entryPtr table (pagingIndex virt level)] := by
        rw [List.filterMap_append, ha.entries]
        rfl
      exact
        { ok := ha.ok
          core_eq := by
            simp only [List.mem_append, List.mem_singleton]
            rintro ev (hev | rfl)
            · exact ha.core_eq ev hev
            · rfl
          zero := by simp [ha.page]
          count := by
            have hlen := List.length_erase_of_mem hx
            have hpos := List.length_pos_of_mem hx
            simp only [mem, htab, hlen]
            rw [show t.acct = s.clients.phys.acct by rw [ht']; rfl]
            omega
          links := by
            rw [hentries]
            exact htab
          trace := by
            rw [List.append_assoc, hes]
            exact ha.trace (.won _ _ htrace)
          finished := fun c virt p hev => by
            rcases List.mem_append.mp hev with hev | hev
            · exact ha.finished hev
            · simp at hev
          linked := fun c e' x hev => by
            rcases List.mem_append.mp hev with hev | hev
            · exact absurd hev ha.not_linked
            · simp only [List.mem_singleton, WalkEvent.linked.injEq] at hev
              obtain ⟨rfl, rfl, rfl⟩ := hev
              exact ⟨3 - level, by omega, _, Phys.walkKey_lt (pageNumber_lt virt) h3, table,
                hw.grow.table _ (by omega) _ (Phys.walkKey_lt (pageNumber_lt virt) h3) _ ht, _,
                pagingIndex_lt h3, rfl, hnext⟩
          unset := by
            rw [hentries]
            simp only [List.mem_singleton, forall_eq]
            rw [he, hv]
          once := by
            rw [hentries]
            exact List.nodup_singleton _ }
    · exact h.held.drop hpage ha.page rfl h.virt.1
  · rename_i he
    refine ⟨s.next core s.clients (.giveBack virt level table _ page) [.lost core page], rfl, ?_⟩
    exact h.next (.refl h.virt) (.quiet ⟨hat, hknown.resolve_left he, rfl⟩
      (by simp [WalkEvent.core]) (fun p hp => h.zero core p (hpage.trans hp))
      ⟨es', htrace, by rw [hes]; rfl⟩ (by simp) (by simp)) (h.held.same rfl (by rw [hpage]; rfl))

/-- The page of a core that has lost is given back. -/
theorem Good.giveBack (hpc : s.pc core = .giveBack virt level table value page) :
    ∃ s', s.run d core = some s' ∧ Kept d root boot s0 s s' := by
  obtain ⟨hat, hv, he⟩ : WalkPc.Ok d root s.mem (.giveBack virt level table value page) :=
    hpc ▸ h.cores core
  have htrace := h.trace core
  have hpage : (s.pc core).page = some page := by rw [hpc]; rfl
  rw [hpc] at htrace
  obtain ⟨es', htrace, hes⟩ := htrace
  have hx : block page 6 ∈ s.clients.live := (h.held.mem_iff _).mpr (Or.inr ⟨core, page, hpage, rfl⟩)
  obtain ⟨t, e, hw, hl, hacct, htab⟩ := h.virt.giveBack hx
  have hmem : t.mem (entryPtr table (pagingIndex virt level)) = value := by
    rcases hat.entry hw.grow with e' | ⟨e', -⟩
    · exact e'.trans he
    · exact absurd (he ▸ e') hv
  simp only [run, hpc, e, Option.bind_some]
  obtain ⟨pc, es, e', ha⟩ := enter_spec (s := (s.setClients (s.clients.takeBack page PAGE_SIZE t)).log
    (.returned core page)) core (hat.mono hw.grow) hmem hv
  refine ⟨s.next core _ pc (es ++ [.returned core page]), e'.trans ?_, h.next hw ?_
    (h.held.drop hpage ha.page hl h.virt.1)⟩
  · rw [log_next]
    rfl
  · have hentries : (es ++ [WalkEvent.returned core page]).filterMap WalkEvent.entry = [] := by
      rw [List.filterMap_append, ha.entries]
      rfl
    have htables : tables d (s.clients.takeBack page PAGE_SIZE t).phys.mem root =
      tables d s.mem root := htab
    exact
      { ok := ha.ok
        core_eq := by
          simp only [List.mem_append, List.mem_singleton]
          rintro ev (hev | rfl)
          · exact ha.core_eq ev hev
          · rfl
        zero := by simp [ha.page]
        count := by
          have hlen := List.length_erase_of_mem hx
          have hpos := List.length_pos_of_mem hx
          rw [htables, hl, hlen]
          simp only [Clients.takeBack]
          omega
        links := by rw [htables, hentries]; rfl
        trace := by
          rw [List.append_assoc, hes]
          exact ha.trace (.lost _ htrace)
        finished := fun c virt p hev => by
          rcases List.mem_append.mp hev with hev | hev
          · exact ha.finished hev
          · simp at hev
        linked := fun c e' x hev => by
          rcases List.mem_append.mp hev with hev | hev
          · exact absurd hev ha.not_linked
          · simp at hev
        unset := by simp [hentries]
        once := by simp [hentries] }

/-- Every core can make its next step: no assertion fails. -/
theorem Good.run (core : ℕ) : ∃ s', s.run d core = some s' ∧ Kept d root boot s0 s s' := by
  cases hpc : s.pc core with
  | idle => exact ⟨s, by simp [Walkers.run, hpc], h, .refl _⟩
  | load virt level table => exact h.load hpc
  | take virt level table value => exact h.take hpc
  | exchange virt level table value page => exact h.exchange hpc
  | giveBack virt level table value page => exact h.giveBack hpc

theorem Good.step (hs : Step d root s s') : Kept d root boot s0 s s' := by
  obtain ⟨core, ⟨virt, hpc, rfl⟩ | ⟨-, e⟩⟩ := hs
  · exact h.begin_ hpc virt
  · obtain ⟨s'', e', h'⟩ := h.run core
    obtain rfl := Option.some.inj (e.symm.trans e')
    exact h'

end Steps

theorem good_start {entries : Memmap} (hv : entries.Valid) (hd : entries.HasDirectMap d)
    (hk : KERNEL_REGION_BASE ≤ d.base) (h : s.Initial d entries root) :
    ∃ boot, Good d root boot s s := by
  obtain ⟨⟨st, hst, hl, rfl, hc⟩, hidle, hevents⟩ := h
  have hvirt := (VirtState.good_of_reachable hv hd hk hst).late hl
  rw [hc] at hvirt
  refine ⟨st.bootPages, hvirt, .refl _, fun _ _ => rfl, ?_, ⟨?_, ?_, ?_⟩, ?_, rfl, ?_, ?_, ?_, ?_, ?_⟩
  all_goals simp [hidle, hevents, eventsOf, WalkPc.Ok, WalkPc.page, WalkPc.Trace, CoreTrace.nil]

/-- What the walks between `s0` and `s` have done. -/
structure Consistent (d : DirectMap) (root : ℕ) (s0 s : Walkers) : Prop where
  tables : TablesOk d s.mem root
  /-- an entry that is set stays as it is in every run -/
  grow : ∀ s', Reachable (fun t => t = s) (Step d root) s' → TablesGrow d root s.mem s'.mem
  leaf : ∀ n < 2 ^ 36, leafEntry d s.mem root n = leafEntry d s0.mem root n
  /-- the page of an entry that was set is a table -/
  linked : ∀ core e x, .linked core e x ∈ s.events → Leads d root s.mem e x
  once : (s.events.filterMap WalkEvent.entry).Nodup
  finished : ∀ core virt p, .finished core virt (some p) ∈ s.events →
    slot d s.mem root (pageNumber virt) = some p
  agree : ∀ core core' virt p p', .finished core virt (some p) ∈ s.events →
    .finished core' virt (some p') ∈ s.events → p = p'
  /-- no assertion fails -/
  runs : ∀ core, ∃ s', s.run d core = some s'
  /-- a page of an idle core was linked, or it was lost and returned once -/
  trace : ∀ core, s.pc core = .idle → CoreTrace core (s.eventsOf core)
  /-- the pages that are left are those of the entries -/
  allocated : (∀ core, s.pc core = .idle) → s.clients.live.Perm s0.clients.live ∧
    s.clients.phys.acct.committed =
      s0.clients.phys.acct.committed + (s.events.filterMap WalkEvent.entry).length ∧
    (Tomato.tables d s.mem root).ncard =
      (Tomato.tables d s0.mem root).ncard + (s.events.filterMap WalkEvent.entry).length

/-- What a run keeps. -/
theorem Good.of_reachable {s0 : Walkers} (h : Good d root boot s0 s)
    (hr : Reachable (fun t => t = s) (Step d root) s') : Kept d root boot s0 s s' := by
  refine hr.invariant (fun t ht => ?_) fun t t' ht hs => ?_
  · subst ht
    exact ⟨h, .refl _⟩
  · obtain ⟨h', hgrow⟩ := ht.1.step hs
    exact ⟨h', ht.2.trans hgrow⟩

theorem Good.allocated {s0 : Walkers} (h : Good d root boot s0 s) (hnd : s0.clients.live.Nodup)
    (hidle : ∀ core, s.pc core = .idle) : s.clients.live.Perm s0.clients.live ∧
      s.clients.phys.acct.committed =
        s0.clients.phys.acct.committed + (s.events.filterMap WalkEvent.entry).length ∧
      (tables d s.mem root).ncard =
        (tables d s0.mem root).ncard + (s.events.filterMap WalkEvent.entry).length := by
  have hperm : s.clients.live.Perm s0.clients.live := by
    refine (List.perm_ext_iff_of_nodup h.virt.1 hnd).mpr fun b => ?_
    rw [h.held.mem_iff b]
    simp [hidle, WalkPc.page]
  have hcount := h.count
  have hlinks := h.links
  rw [hperm.length_eq] at hcount
  exact ⟨hperm, by omega, hlinks⟩

theorem consistent_of_reachable {entries : Memmap} {s0 : Walkers} (hv : entries.Valid)
    (hd : entries.HasDirectMap d) (hk : KERNEL_REGION_BASE ≤ d.base)
    (h0 : s0.Initial d entries root) (h : Reachable (fun t => t = s0) (Step d root) s) :
    Consistent d root s0 s := by
  obtain ⟨boot, hstart⟩ := good_start hv hd hk h0
  obtain ⟨hgood, -⟩ := hstart.of_reachable h
  refine ⟨?_, fun s' hr => (hgood.of_reachable hr).2, hgood.leaf, hgood.linked, hgood.once,
    hgood.finished, fun core core' virt p p' he he' => ?_, fun core => ?_, fun core hidle => ?_,
    hgood.allocated hstart.virt.1⟩
  · obtain ⟨-, fl, live, hvirt⟩ := hgood.virt
    exact hvirt.tables
  · have h1 := hgood.finished core virt p he
    have h2 := hgood.finished core' virt p' he'
    exact Option.some.inj (h1.symm.trans h2)
  · obtain ⟨s', e, -⟩ := hgood.run core
    exact ⟨s', e⟩
  · have htrace := hgood.trace core
    rwa [hidle] at htrace

/-- A core begins a walk in a memory of eight pages. -/
theorem consistent_eightPages : ∃ root s0 s,
    s0.Initial VirtState.eightPagesMap VirtState.eightPages root ∧ s.pc 0 = .load 0x1000 3 root ∧
      Consistent VirtState.eightPagesMap root s0 s := by
  obtain ⟨st, h, hl, -⟩ := VirtState.exists_reachable_eightPages
  let s0 : Walkers := ⟨st.boot.clients, fun _ => .idle, []⟩
  have h0 : s0.Initial VirtState.eightPagesMap VirtState.eightPages st.pageTable :=
    ⟨⟨st, h, hl, rfl, rfl⟩, fun _ => rfl, rfl⟩
  have h1 : Step VirtState.eightPagesMap st.pageTable s0 (s0.begin_ st.pageTable 0 0x1000) :=
    ⟨0, Or.inl ⟨0x1000, rfl, rfl⟩⟩
  have hstart : Reachable (fun t => t = s0) (Step VirtState.eightPagesMap st.pageTable) s0 :=
    .start rfl
  exact ⟨_, s0, s0.begin_ st.pageTable 0 0x1000, h0, rfl, consistent_of_reachable
    VirtState.eightPages_valid (show 0x108 = 0x108000 / PAGE_SIZE by decide) le_rfl h0
    (hstart.next h1)⟩

end Walkers

end Tomato
