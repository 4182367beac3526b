import Tomato.Lib.Bytes
import Tomato.Lib.List

/-!
# Circular lists in memory

An entry of a circular list takes 16 bytes of a memory, the address of the next entry and
that of the previous one. Where no two entries overlap, the operations on the memory do what
those on the links do, and write to the entries of the lists only.
-/

namespace Tomato

namespace Links

variable {α : Type*} {l l' : Links α} {E H : Set α} {lists : α → List α} {e h new x : α}
  {xs : List α}

/-- The entries are on circles. -/
structure Linked (l : Links α) (E : Set α) : Prop where
  next_mem : ∀ e ∈ E, l.next e ∈ E
  prev_mem : ∀ e ∈ E, l.prev e ∈ E
  prev_next : ∀ e ∈ E, l.prev (l.next e) = e
  next_prev : ∀ e ∈ E, l.next (l.prev e) = e

theorem Ring.head_links (hr : l.Ring h xs) : l.next h ∈ h :: xs ∧ l.prev h ∈ h :: xs ∧
    l.prev (l.next h) = h ∧ l.next (l.prev h) = h := by
  have hnext : l.next h ∈ h :: xs := by
    have := hr.2.next_mem (List.mem_cons_self (a := h) (l := xs))
    simpa [or_comm] using this
  have hpn : l.prev (l.next h) = h := by
    cases xs with
    | nil => rw [hr.2.1, hr.2.2]
    | cons x xs => rw [hr.2.1, hr.2.2.1]
  rcases xs.eq_nil_or_concat' with rfl | ⟨pre, r, rfl⟩
  · exact ⟨hnext, by simp [hr.2.2], hpn, by rw [hr.2.2, hr.2.1]⟩
  · -- the last entry is taken for the head
    have hlast : l.Ring r (h :: pre) := hr.rotate
    exact ⟨hnext, by simp [hlast.2.2.1], hpn, by rw [hlast.2.2.1, hlast.2.1]⟩

theorem Ring.entry_links (hr : l.Ring h xs) (he : e ∈ h :: xs) : l.next e ∈ h :: xs ∧
    l.prev e ∈ h :: xs ∧ l.prev (l.next e) = e ∧ l.next (l.prev e) = e := by
  rcases List.mem_cons.mp he with rfl | he
  · exact hr.head_links
  · obtain ⟨pre, post, rfl⟩ := List.append_of_mem he
    have hmem : ∀ y, y ∈ e :: (post ++ h :: pre) ↔ y ∈ h :: (pre ++ e :: post) := fun y => by
      simp only [List.mem_cons, List.mem_append]
      tauto
    obtain ⟨h1, h2, h3, h4⟩ := hr.rotate.head_links
    exact ⟨(hmem _).mp h1, (hmem _).mp h2, h3, h4⟩

theorem Rings.linked (hR : Rings l H lists) : l.Linked {e | ∃ h ∈ H, e ∈ h :: lists h} where
  next_mem := fun _ ⟨h, hh, he⟩ => ⟨h, hh, ((hR.ring h hh).entry_links he).1⟩
  prev_mem := fun _ ⟨h, hh, he⟩ => ⟨h, hh, ((hR.ring h hh).entry_links he).2.1⟩
  prev_next := fun _ ⟨h, hh, he⟩ => ((hR.ring h hh).entry_links he).2.2.1
  next_prev := fun _ ⟨h, hh, he⟩ => ((hR.ring h hh).entry_links he).2.2.2

namespace Linked

theorem congr (h : l.Linked E) (hn : ∀ e ∈ E, l'.next e = l.next e)
    (hp : ∀ e ∈ E, l'.prev e = l.prev e) : l'.Linked E where
  next_mem := fun e he => (hn e he).symm ▸ h.next_mem e he
  prev_mem := fun e he => (hp e he).symm ▸ h.prev_mem e he
  prev_next := fun e he => by rw [hn e he, hp _ (h.next_mem e he), h.prev_next e he]
  next_prev := fun e he => by rw [hp e he, hn _ (h.prev_mem e he), h.next_prev e he]

variable [DecidableEq α]

theorem initList (h : l.Linked E) (hx : x ∉ E) : (l.initList x).Linked (insert x E) := by
  have hne : ∀ e ∈ E, e ≠ x := fun e he hc => hx (hc ▸ he)
  refine ⟨?_, ?_, ?_, ?_⟩ <;> rintro e (rfl | he)
  · simp [Links.initList]
  · simp [Links.initList, hne e he, h.next_mem e he]
  · simp [Links.initList]
  · simp [Links.initList, hne e he, h.prev_mem e he]
  · simp [Links.initList]
  · simp [Links.initList, hne e he, hne _ (h.next_mem e he), h.prev_next e he]
  · simp [Links.initList]
  · simp [Links.initList, hne e he, hne _ (h.prev_mem e he), h.next_prev e he]

theorem listDel (h : l.Linked E) (hx : x ∈ E) (p q : α) :
    ∃ l', l.listDel p q x = some l' ∧ l'.Linked (E \ {x}) := by
  have hdel : l.listDel p q x = some ((((l.setPrev (l.next x) (l.prev x)).setNext (l.prev x)
      (l.next x)).setNext x p).setPrev x q) := by
    simp [Links.listDel, listDelEntryValid, h.prev_next x hx, h.next_prev x hx]
  have hnx : ∀ e ∈ E, l.next e = x → e = l.prev x := fun e he hc => by
    rw [← hc, h.prev_next e he]
  have hpx : ∀ e ∈ E, l.prev e = x → e = l.next x := fun e he hc => by
    rw [← hc, h.next_prev e he]
  have hself : l.next x = x → l.prev x = x := fun hc => (hnx x hx hc).symm
  have hself' : l.prev x = x → l.next x = x := fun hc => (hpx x hx hc).symm
  refine ⟨_, hdel, ⟨?_, ?_, ?_, ?_⟩⟩ <;> rintro e ⟨he, hne⟩ <;>
    simp only [Set.mem_singleton_iff] at hne
  · simp only [setPrev_next, setNext_next, hne, if_false, Set.mem_sdiff, Set.mem_singleton_iff]
    split_ifs with h1
    · exact ⟨h.next_mem x hx, fun hc => hne (h1.trans (hself hc))⟩
    · exact ⟨h.next_mem e he, fun hc => h1 (hnx e he hc)⟩
  · simp only [setPrev_prev, setNext_prev, hne, if_false, Set.mem_sdiff, Set.mem_singleton_iff]
    split_ifs with h1
    · exact ⟨h.prev_mem x hx, fun hc => hne (h1.trans (hself' hc))⟩
    · exact ⟨h.prev_mem e he, fun hc => h1 (hpx e he hc)⟩
  · simp only [setPrev_next, setNext_next, setPrev_prev, setNext_prev, hne, if_false]
    split_ifs with h1 h2 h3 h4 h5
    · exact absurd (h1.trans (hself h2)) hne
    · exact h1.symm
    · exact absurd rfl ‹_›
    · exact absurd (hnx e he h4) h1
    · refine absurd ?_ hne
      rw [← h.prev_next e he, h5, h.prev_next x hx]
    · exact h.prev_next e he
  · simp only [setPrev_next, setNext_next, setPrev_prev, setNext_prev, hne, if_false]
    split_ifs with h1 h2 h3 h4 h5
    · exact absurd (h1.trans (hself' h2)) hne
    · exact h1.symm
    · exact absurd rfl ‹_›
    · exact absurd (hpx e he h4) h1
    · refine absurd ?_ hne
      rw [← h.next_prev e he, h5, h.next_prev x hx]
    · exact h.next_prev e he

/-- Inserting between two consecutive entries. -/
theorem listAddBetween (h : l.Linked E) (hx : x ∈ E) (hn : new ∉ E) :
    ∃ l', l.listAddBetween new x (l.next x) = some l' ∧ l'.Linked (insert new E) := by
  have hne : ∀ e ∈ E, e ≠ new := fun e he hc => hn (hc ▸ he)
  have hadd : l.listAddBetween new x (l.next x) =
      some ((((l.setPrev (l.next x) new).setNext new (l.next x)).setPrev new x).setNext x new) := by
    simp [Links.listAddBetween, listAddValid, h.prev_next x hx, (hne x hx).symm,
      (hne _ (h.next_mem x hx)).symm]
  have hinj : ∀ e ∈ E, l.next e = l.next x → e = x := fun e he hc => by
    rw [← h.prev_next e he, hc, h.prev_next x hx]
  refine ⟨_, hadd, ⟨?_, ?_, ?_, ?_⟩⟩ <;> rintro e (rfl | he)
  · simp [(hne x hx).symm, h.next_mem x hx]
  · simp only [setPrev_next, setNext_next, hne e he, if_false]
    split_ifs with h1
    · exact Set.mem_insert _ _
    · exact Set.mem_insert_of_mem _ (h.next_mem e he)
  · simp [hx]
  · simp only [setPrev_prev, setNext_prev, hne e he, if_false]
    split_ifs with h1
    · exact Set.mem_insert _ _
    · exact Set.mem_insert_of_mem _ (h.prev_mem e he)
  · simp [(hne x hx).symm, hne _ (h.next_mem x hx)]
  · by_cases h1 : e = x
    · subst h1
      simp
    · have h2 : l.next e ≠ l.next x := fun hc => h1 (hinj e he hc)
      simp [h1, hne e he, hne _ (h.next_mem e he), h2, h.prev_next e he]
  · simp
  · by_cases h1 : e = l.next x
    · subst h1
      simp [hne _ (h.next_mem x hx), (hne x hx).symm]
    · have h2 : l.prev e ≠ x := by
        rintro rfl
        exact h1 (h.next_prev e he).symm
      simp [h1, hne e he, hne _ (h.prev_mem e he), h2, h.next_prev e he]

end Linked

end Links

namespace Bytes

/-- What the entries of a memory say. -/
def links (b : Bytes) : Links ℕ := ⟨fun e => b.read e 8, fun e => b.read (e + 8) 8⟩

def setNext (b : Bytes) (entry value : ℕ) : Bytes := b.write entry 8 value

def setPrev (b : Bytes) (entry value : ℕ) : Bytes := b.write (entry + 8) 8 value

def initList (b : Bytes) (list : ℕ) : Bytes := (b.setNext list list).setPrev list list

def listAddBetween (b : Bytes) (new prev next : ℕ) : Option Bytes :=
  if b.links.listAddValid new prev next then
    let b := b.setPrev next new
    let b := b.setNext new next
    let b := b.setPrev new prev
    some (b.setNext prev new)
  else none

def listAdd (b : Bytes) (head new : ℕ) : Option Bytes :=
  b.listAddBetween new head (b.links.next head)

def listAddTail (b : Bytes) (head new : ℕ) : Option Bytes :=
  b.listAddBetween new (b.links.prev head) head

def listDel (b : Bytes) (poison1 poison2 entry : ℕ) : Option Bytes :=
  if b.links.listDelEntryValid entry then
    let prev := b.links.prev entry
    let next := b.links.next entry
    let b := b.setPrev next prev
    let b := b.setNext prev next
    some ((b.setNext entry poison1).setPrev entry poison2)
  else none

/-- No two entries overlap. -/
structure Entries (A : Set ℕ) : Prop where
  apart : ∀ e ∈ A, ∀ e' ∈ A, e < e' → e + 16 ≤ e'
  lt : ∀ e ∈ A, e < 2 ^ 64

/-- The memory has the next entries of `N` and the previous ones of `P`. -/
structure Shows (b : Bytes) (l : Links ℕ) (N P : Set ℕ) : Prop where
  next : ∀ e ∈ N, b.links.next e = l.next e
  prev : ∀ e ∈ P, b.links.prev e = l.prev e

/-- Only bytes of the entries were written. -/
def Same (b b' : Bytes) (E : Set ℕ) : Prop :=
  ∀ x, (∀ e ∈ E, x ∉ Set.Ico e (e + 16)) → b' x = b x

variable {b b' b'' : Bytes} {l l' : Links ℕ} {A E E' N P : Set ℕ} {e x v new p q : ℕ}

theorem Same.refl (b : Bytes) (E : Set ℕ) : b.Same b E := fun _ _ => rfl

theorem Same.trans (h : b.Same b' E) (h' : b'.Same b'' E) : b.Same b'' E := fun x hx =>
  (h' x hx).trans (h x hx)

theorem Same.mono (h : b.Same b' E) (hs : E ⊆ E') : b.Same b' E' := fun x hx =>
  h x fun e he => hx e (hs he)

theorem same_setNext (b : Bytes) (v : ℕ) (he : e ∈ E) : b.Same (b.setNext e v) E := fun x hx =>
  write_of_notMem fun hc => hx e he (by simp only [Set.mem_Ico] at hc ⊢; omega)

theorem same_setPrev (b : Bytes) (v : ℕ) (he : e ∈ E) : b.Same (b.setPrev e v) E := fun x hx =>
  write_of_notMem fun hc => hx e he (by simp only [Set.mem_Ico] at hc ⊢; omega)

theorem Entries.cases (hA : Entries A) (he : e ∈ A) (hx : x ∈ A) (hne : x ≠ e) :
    x + 16 ≤ e ∨ e + 16 ≤ x :=
  (Nat.lt_or_gt_of_ne hne).imp (hA.apart x hx e he) (hA.apart e he x hx)

namespace Shows

theorem mono {N' P' : Set ℕ} (h : b.Shows l N P) (hN : N' ⊆ N) (hP : P' ⊆ P) : b.Shows l N' P' :=
  ⟨fun e he => h.next e (hN he), fun e he => h.prev e (hP he)⟩

theorem setNext (hA : Entries A) (h : b.Shows l N P) (hN : N ⊆ A) (hP : P ⊆ A) (he : e ∈ A)
    (hv : v < 2 ^ 64) : (b.setNext e v).Shows (l.setNext e v) (insert e N) P := by
  refine ⟨fun x hx => ?_, fun x hx => ?_⟩
  · rw [Links.setNext_next]
    split_ifs with hxe
    · subst hxe
      exact read_write (by norm_num; exact hv)
    · have hx := hx.resolve_left hxe
      rw [← h.next x hx]
      exact read_write_of_le (by have := hA.cases he (hN hx) hxe; omega)
  · rw [Links.setNext_prev, ← h.prev x hx]
    refine read_write_of_le ?_
    by_cases hxe : x = e
    · omega
    · have := hA.cases he (hP hx) hxe
      omega

theorem setPrev (hA : Entries A) (h : b.Shows l N P) (hN : N ⊆ A) (hP : P ⊆ A) (he : e ∈ A)
    (hv : v < 2 ^ 64) : (b.setPrev e v).Shows (l.setPrev e v) N (insert e P) := by
  refine ⟨fun x hx => ?_, fun x hx => ?_⟩
  · rw [Links.setPrev_next, ← h.next x hx]
    refine read_write_of_le ?_
    by_cases hxe : x = e
    · omega
    · have := hA.cases he (hN hx) hxe
      omega
  · rw [Links.setPrev_prev]
    split_ifs with hxe
    · subst hxe
      exact read_write (by norm_num; exact hv)
    · have hx := hx.resolve_left hxe
      rw [← h.prev x hx]
      exact read_write_of_le (by have := hA.cases he (hP hx) hxe; omega)

end Shows

/-- The lists of the entries `E` in the memory are those of the links. -/
structure Mirror (A E : Set ℕ) (b : Bytes) (l : Links ℕ) : Prop where
  entries : Entries A
  sub : E ⊆ A
  linked : l.Linked E
  shows : b.Shows l E E

namespace Mirror

theorem next (h : Mirror A E b l) (he : e ∈ E) : b.links.next e = l.next e := h.shows.next e he

theorem prev (h : Mirror A E b l) (he : e ∈ E) : b.links.prev e = l.prev e := h.shows.prev e he

theorem listEmpty (h : Mirror A E b l) (he : e ∈ E) : b.links.listEmpty e = l.listEmpty e := by
  rw [Links.listEmpty, Links.listEmpty, h.next he]

/-- Bytes that are not in an entry of the lists do not matter. -/
theorem congr (h : Mirror A E b l) (hb : ∀ e ∈ E, ∀ x ∈ Set.Ico e (e + 16), b' x = b x) :
    Mirror A E b' l := by
  refine ⟨h.entries, h.sub, h.linked, fun e he => ?_, fun e he => ?_⟩
  · rw [← h.next he]
    refine read_congr fun x hx => hb e he x ?_
    simp only [Set.mem_Ico] at hx ⊢
    omega
  · rw [← h.prev he]
    refine read_congr fun x hx => hb e he x ?_
    simp only [Set.mem_Ico] at hx ⊢
    omega

/-- Links of entries that are in no list do not matter. -/
theorem congr_links (h : Mirror A E b l) (hn : ∀ e ∈ E, l'.next e = l.next e)
    (hp : ∀ e ∈ E, l'.prev e = l.prev e) : Mirror A E b l' :=
  ⟨h.entries, h.sub, h.linked.congr hn hp, fun e he => (h.next he).trans (hn e he).symm,
    fun e he => (h.prev he).trans (hp e he).symm⟩

theorem initList (h : Mirror A E b l) (hx : x ∉ E) (hxA : x ∈ A) :
    Mirror A (insert x E) (b.initList x) (l.initList x) ∧ b.Same (b.initList x) {x} := by
  have hlt := h.entries.lt x hxA
  have hsub : insert x E ⊆ A := Set.insert_subset hxA h.sub
  have h1 := h.shows.setNext h.entries h.sub h.sub hxA hlt
  have h2 := h1.setPrev h.entries hsub h.sub hxA hlt
  exact ⟨⟨h.entries, hsub, h.linked.initList hx, h2⟩,
    (same_setNext b x (Set.mem_singleton x)).trans (same_setPrev _ x (Set.mem_singleton x))⟩

theorem listDel (h : Mirror A E b l) (hx : x ∈ E) (hp : p < 2 ^ 64) (hq : q < 2 ^ 64) :
    ∃ l' b', l.listDel p q x = some l' ∧ b.listDel p q x = some b' ∧
      Mirror A (E \ {x}) b' l' ∧ b.Same b' E := by
  obtain ⟨l', e, hl⟩ := h.linked.listDel hx p q
  have hn := h.linked.next_mem x hx
  have hp' := h.linked.prev_mem x hx
  have hvalid : b.links.listDelEntryValid x = l.listDelEntryValid x := by
    simp only [Links.listDelEntryValid, h.next hx, h.prev hx, h.next hp', h.prev hn]
  have hins : ∀ y ∈ E, insert y E ⊆ E := fun y hy => Set.insert_subset hy subset_rfl
  have h1 := h.shows.setPrev h.entries h.sub h.sub (h.sub hn) (h.entries.lt _ (h.sub hp'))
  have h2 := (h1.mono subset_rfl (Set.subset_insert _ _)).setNext h.entries h.sub h.sub
    (h.sub hp') (h.entries.lt _ (h.sub hn))
  have h3 := (h2.mono (Set.subset_insert _ _) subset_rfl).setNext h.entries h.sub h.sub
    (h.sub hx) hp
  have h4 := (h3.mono (Set.subset_insert _ _) subset_rfl).setPrev h.entries h.sub h.sub
    (h.sub hx) hq
  have hdiff : E \ {x} ⊆ E := Set.sdiff_subset
  rw [Links.listDel] at e
  split_ifs at e with hv
  refine ⟨l', _, by rw [Links.listDel, if_pos hv, e],
    by rw [Bytes.listDel, if_pos (hvalid.trans hv)], ⟨h.entries, hdiff.trans h.sub, hl, ?_⟩, ?_⟩
  · rw [h.next hx, h.prev hx, ← Option.some.inj e]
    exact h4.mono hdiff (hdiff.trans (Set.subset_insert _ _))
  · rw [h.next hx, h.prev hx]
    exact (((same_setPrev b _ hn).trans (same_setNext _ _ hp')).trans (same_setNext _ _ hx)).trans
      (same_setPrev _ _ hx)

/-- A new entry between two consecutive entries. -/
theorem listAddBetween (h : Mirror A E b l) (hx : x ∈ E) (hn : new ∉ E) (hnA : new ∈ A) :
    ∃ l' b', l.listAddBetween new x (l.next x) = some l' ∧
      b.listAddBetween new x (l.next x) = some b' ∧
      Mirror A (insert new E) b' l' ∧ b.Same b' (insert new E) := by
  obtain ⟨l', e, hl⟩ := h.linked.listAddBetween hx hn
  have hnx := h.linked.next_mem x hx
  have hsub : insert new E ⊆ A := Set.insert_subset hnA h.sub
  have hvalid : b.links.listAddValid new x (l.next x) = l.listAddValid new x (l.next x) := by
    simp only [Links.listAddValid, h.next hx, h.prev hnx]
  have hnew := h.entries.lt _ hnA
  have h1 := h.shows.setPrev h.entries h.sub h.sub (h.sub hnx) hnew
  have h2 := (h1.mono subset_rfl (Set.subset_insert _ _)).setNext h.entries h.sub h.sub hnA
    (h.entries.lt _ (h.sub hnx))
  have h3 := h2.setPrev h.entries hsub h.sub hnA (h.entries.lt _ (h.sub hx))
  have h4 := h3.setNext h.entries hsub hsub (h.sub hx) hnew
  rw [Links.listAddBetween] at e
  split_ifs at e with hv
  refine ⟨l', _, by rw [Links.listAddBetween, if_pos hv, e],
    by rw [Bytes.listAddBetween, if_pos (hvalid.trans hv)], ⟨h.entries, hsub, hl, ?_⟩, ?_⟩
  · rw [← Option.some.inj e]
    exact h4.mono (Set.subset_insert _ _) subset_rfl
  · have hm : ∀ y ∈ E, y ∈ insert new E := fun y hy => Set.mem_insert_of_mem _ hy
    exact (((same_setPrev b _ (hm _ hnx)).trans (same_setNext _ _ (Set.mem_insert _ _))).trans
      (same_setPrev _ _ (Set.mem_insert _ _))).trans (same_setNext _ _ (hm _ hx))

theorem listAdd (h : Mirror A E b l) (hx : e ∈ E) (hn : new ∉ E) (hnA : new ∈ A) :
    ∃ l' b', l.listAdd e new = some l' ∧ b.listAdd e new = some b' ∧
      Mirror A (insert new E) b' l' ∧ b.Same b' (insert new E) := by
  rw [Links.listAdd, Bytes.listAdd, h.next hx]
  exact h.listAddBetween hx hn hnA

theorem listAddTail (h : Mirror A E b l) (hx : e ∈ E) (hn : new ∉ E) (hnA : new ∈ A) :
    ∃ l' b', l.listAddTail e new = some l' ∧ b.listAddTail e new = some b' ∧
      Mirror A (insert new E) b' l' ∧ b.Same b' (insert new E) := by
  have hp := h.linked.prev_mem e hx
  have := h.listAddBetween hp hn hnA
  rw [h.linked.next_prev e hx] at this
  rwa [Links.listAddTail, Bytes.listAddTail, h.prev hx]

/-- An entry is taken off its list and put in front of another. -/
theorem move (h : Mirror A E b l) (hx : x ∈ E) (hh : e ∈ E) (hne : e ≠ x) (hp : p < 2 ^ 64)
    (hq : q < 2 ^ 64) :
    ∃ l1 l2 b1 b2, l.listDel p q x = some l1 ∧ l1.listAdd e x = some l2 ∧
      b.listDel p q x = some b1 ∧ b1.listAdd e x = some b2 ∧ Mirror A E b2 l2 ∧
      b.Same b2 E := by
  obtain ⟨l1, b1, e1, e1', h1, s1⟩ := h.listDel hx hp hq
  obtain ⟨l2, b2, e2, e2', h2, s2⟩ := h1.listAdd ⟨hh, hne⟩ (fun hc => hc.2 rfl) (h.sub hx)
  rw [Set.insert_sdiff_singleton, Set.insert_eq_of_mem hx] at h2 s2
  exact ⟨l1, l2, b1, b2, e1, e2, e1', e2', h2, s1.trans s2⟩

/-- An entry is taken off its list and put at the end of another. -/
theorem moveTail (h : Mirror A E b l) (hx : x ∈ E) (hh : e ∈ E) (hne : e ≠ x)
    (hp : p < 2 ^ 64) (hq : q < 2 ^ 64) :
    ∃ l1 l2 b1 b2, l.listDel p q x = some l1 ∧ l1.listAddTail e x = some l2 ∧
      b.listDel p q x = some b1 ∧ b1.listAddTail e x = some b2 ∧ Mirror A E b2 l2 ∧
      b.Same b2 E := by
  obtain ⟨l1, b1, e1, e1', h1, s1⟩ := h.listDel hx hp hq
  obtain ⟨l2, b2, e2, e2', h2, s2⟩ := h1.listAddTail ⟨hh, hne⟩ (fun hc => hc.2 rfl) (h.sub hx)
  rw [Set.insert_sdiff_singleton, Set.insert_eq_of_mem hx] at h2 s2
  exact ⟨l1, l2, b1, b2, e1, e2, e1', e2', h2, s1.trans s2⟩

/-- The entry of an object that is in no list is wiped. -/
theorem wipe (h : Mirror A E b l) (hx : x ∉ E) (hxA : x ∈ A) :
    Mirror A E ((b.setNext x 0).setPrev x 0) ((l.setNext x 0).setPrev x 0) ∧
      b.Same ((b.setNext x 0).setPrev x 0) {x} := by
  have hne : ∀ e ∈ E, e ≠ x := fun e he hc => hx (hc ▸ he)
  have h1 := h.shows.setNext h.entries h.sub h.sub hxA (v := 0) (by norm_num)
  have h2 := (h1.mono (Set.subset_insert _ _) subset_rfl).setPrev h.entries h.sub h.sub hxA
    (v := 0) (by norm_num)
  refine ⟨⟨h.entries, h.sub, h.linked.congr (fun e he => ?_) fun e he => ?_,
    h2.mono subset_rfl (Set.subset_insert _ _)⟩,
    (same_setNext b 0 (Set.mem_singleton x)).trans (same_setPrev _ 0 (Set.mem_singleton x))⟩
  · simp [hne e he]
  · simp [hne e he]

end Mirror

end Bytes

end Tomato
