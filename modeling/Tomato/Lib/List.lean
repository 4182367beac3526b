import Mathlib.Data.List.Nodup
import Mathlib.Tactic

/-!
# Circular lists

The doubly linked lists of `lib/list.h`. An entry is any value with a `next` and a
`prev` entry, the head of a list is an entry too, and an empty list is a head that
points at itself. Adding and deleting first check the entries around, and a failed
check stops the core, which is the value `none`.

`Ring l h xs` says that the list of the head `h` has the entries `xs`.
-/

namespace Tomato

variable {α : Type*}

structure Links (α : Type*) where
  next : α → α
  prev : α → α

namespace Links

section Operations

variable [DecidableEq α] (l : Links α)

def setNext (entry value : α) : Links α := { l with next := Function.update l.next entry value }

def setPrev (entry value : α) : Links α := { l with prev := Function.update l.prev entry value }

def initList (list : α) : Links α := (l.setNext list list).setPrev list list

def listAddValid (new prev next : α) : Bool :=
  l.prev next = prev ∧ l.next prev = next ∧ new ≠ prev ∧ new ≠ next

/-- `__list_add`: insert a new entry between two known consecutive entries. -/
def listAddBetween (new prev next : α) : Option (Links α) :=
  if l.listAddValid new prev next then
    let l := l.setPrev next new
    let l := l.setNext new next
    let l := l.setPrev new prev
    some (l.setNext prev new)
  else none

/-- Insert a new entry after the specified head. -/
def listAdd (head new : α) : Option (Links α) := l.listAddBetween new head (l.next head)

/-- Insert a new entry before the specified head. -/
def listAddTail (head new : α) : Option (Links α) := l.listAddBetween new (l.prev head) head

def listDelEntryValid (entry : α) : Bool :=
  l.next (l.prev entry) = entry ∧ l.prev (l.next entry) = entry

/-- `list_del`, which leaves the two poison values in the entry. -/
def listDel (poison1 poison2 entry : α) : Option (Links α) :=
  if l.listDelEntryValid entry then
    let prev := l.prev entry
    let next := l.next entry
    let l := l.setPrev next prev
    let l := l.setNext prev next
    some ((l.setNext entry poison1).setPrev entry poison2)
  else none

def listEmpty (head : α) : Bool := l.next head = head

def listFirstEntryOrNull (head : α) : Option α :=
  if l.next head ≠ head then some (l.next head) else none

end Operations

/-- From `a` the entries `xs` lead to `b`, in both directions. -/
def Seg (l : Links α) : α → List α → α → Prop
  | a, [], b => l.next a = b ∧ l.prev b = a
  | a, x :: xs, b => l.next a = x ∧ l.prev x = a ∧ Seg l x xs b

/-- The list of the head `h` has the entries `xs`. -/
def Ring (l : Links α) (h : α) (xs : List α) : Prop := (h :: xs).Nodup ∧ l.Seg h xs h

variable {l l' : Links α} {a b h h' n x : α} {xs ys : List α}

/-- A segment depends on the links along it only. -/
theorem Seg.congr (hs : l.Seg a xs b) (hn : ∀ x ∈ a :: xs, l'.next x = l.next x)
    (hp : ∀ x ∈ xs ++ [b], l'.prev x = l.prev x) : l'.Seg a xs b := by
  induction xs generalizing a with
  | nil => exact ⟨(hn a (by simp)).trans hs.1, (hp b (by simp)).trans hs.2⟩
  | cons x xs ih =>
      refine ⟨(hn a (by simp)).trans hs.1, (hp x (by simp)).trans hs.2.1, ih hs.2.2 ?_ ?_⟩
      · exact fun y hy => hn y (List.mem_cons_of_mem a hy)
      · exact fun y hy => hp y (by simp only [List.cons_append, List.mem_cons]; exact Or.inr hy)

theorem Ring.congr (hr : l.Ring h xs) (hn : ∀ x ∈ h :: xs, l'.next x = l.next x)
    (hp : ∀ x ∈ h :: xs, l'.prev x = l.prev x) : l'.Ring h xs := by
  refine ⟨hr.1, hr.2.congr hn fun x hx => hp x ?_⟩
  simpa [or_comm] using hx

/-- The next and the previous entry of an entry of the list are in the list. -/
theorem Seg.next_mem (hs : l.Seg a xs b) (hx : x ∈ a :: xs) : l.next x ∈ xs ++ [b] := by
  induction xs generalizing a with
  | nil =>
      obtain rfl : x = a := by simpa using hx
      simp [hs.1]
  | cons y ys ih =>
      rcases List.mem_cons.mp hx with rfl | hx
      · simp [hs.1]
      · exact List.mem_cons_of_mem y (ih hs.2.2 hx)

theorem Seg.append_cons : l.Seg a (xs ++ b :: ys) h ↔ l.Seg a xs b ∧ l.Seg b ys h := by
  induction xs generalizing a with
  | nil => simp [Seg, and_assoc]
  | cons x xs ih => simp [Seg, ih, and_assoc]

/-- A list is a circle, in which any entry may be taken for the head. -/
theorem Ring.rotate (hr : l.Ring a (xs ++ b :: ys)) : l.Ring b (ys ++ a :: xs) := by
  obtain ⟨h1, h2⟩ := Seg.append_cons.mp hr.2
  have hp : ((a :: xs) ++ (b :: ys)).Perm ((b :: ys) ++ (a :: xs)) := List.perm_append_comm
  exact ⟨hp.nodup_iff.mp hr.1, Seg.append_cons.mpr ⟨h2, h1⟩⟩

/-- The lists of the heads `H` share no entry. -/
structure Rings (l : Links α) (H : Set α) (lists : α → List α) : Prop where
  ring : ∀ h ∈ H, l.Ring h (lists h)
  disjoint : ∀ h ∈ H, ∀ h' ∈ H, h ≠ h' → ∀ x ∈ h :: lists h, x ∉ h' :: lists h'

namespace Rings

variable {H : Set α} {lists : α → List α}

theorem other (hR : Rings l H lists) (hh : h ∈ H) (hh' : h' ∈ H) (hne : h' ≠ h) :
    ∀ x ∈ h' :: lists h', x ∉ h :: lists h :=
  hR.disjoint h' hh' h hh hne

theorem next_head (hR : Rings l H lists) (hh : h ∈ H) (hx : lists h = x :: xs) :
    l.next h = x := by
  have hr := hR.ring h hh
  rw [hx] at hr
  exact hr.2.1

/-- The links outside of the lists do not matter. -/
theorem congr (hR : Rings l H lists) (hn : ∀ h ∈ H, ∀ x ∈ h :: lists h, l'.next x = l.next x)
    (hp : ∀ h ∈ H, ∀ x ∈ h :: lists h, l'.prev x = l.prev x) : Rings l' H lists :=
  ⟨fun h hh => (hR.ring h hh).congr (hn h hh) (hp h hh), hR.disjoint⟩

end Rings

variable [DecidableEq α]

@[simp] theorem setNext_next (l : Links α) (e v x : α) :
    (l.setNext e v).next x = if x = e then v else l.next x := by
  simp [setNext, Function.update_apply]

@[simp] theorem setNext_prev (l : Links α) (e v x : α) : (l.setNext e v).prev x = l.prev x := rfl

@[simp] theorem setPrev_prev (l : Links α) (e v x : α) :
    (l.setPrev e v).prev x = if x = e then v else l.prev x := by
  simp [setPrev, Function.update_apply]

@[simp] theorem setPrev_next (l : Links α) (e v x : α) : (l.setPrev e v).next x = l.next x := rfl

theorem initList_ring (l : Links α) (h : α) : (l.initList h).Ring h [] := by
  simp [Ring, Seg, initList]

/-- The first entry of a list. -/
theorem Ring.first (hr : l.Ring h xs) : l.listFirstEntryOrNull h = xs.head? := by
  cases xs with
  | nil => simp [listFirstEntryOrNull, hr.2.1]
  | cons x xs =>
      have hne : x ≠ h := by
        rintro rfl
        simp [Ring] at hr
      simp [listFirstEntryOrNull, hr.2.1, hne]

/-- `listAdd` puts a new entry in front of the list and touches no other list. -/
theorem Ring.listAdd (hr : l.Ring h xs) (hn : n ∉ h :: xs) :
    ∃ l', l.listAdd h n = some l' ∧ l'.Ring h (n :: xs) ∧
      ∀ h' ys, l.Ring h' ys → (∀ y ∈ h' :: ys, y ∉ h :: n :: xs) → l'.Ring h' ys := by
  obtain ⟨hnd, hs⟩ := hr
  obtain ⟨hnh, hnxs⟩ : n ≠ h ∧ n ∉ xs := by simpa using hn
  have hmem : l.next h ∈ xs ++ [h] := hs.next_mem (by simp)
  have hnn : n ≠ l.next h := by
    intro he
    rw [← he] at hmem
    simp [hnh, hnxs] at hmem
  have hprev : l.prev (l.next h) = h := by
    cases xs with
    | nil => rw [hs.1, hs.2]
    | cons x xs => rw [hs.1, hs.2.1]
  have hadd : l.listAdd h n =
      some ((((l.setPrev (l.next h) n).setNext n (l.next h)).setPrev n h).setNext h n) := by
    simp [Links.listAdd, listAddBetween, listAddValid, hprev, hnh, hnn]
  refine ⟨_, hadd, ⟨?_, ?_⟩, ?_⟩
  · simp only [List.nodup_cons, List.mem_cons, not_or] at hnd ⊢
    exact ⟨⟨Ne.symm hnh, hnd.1⟩, hnxs, hnd.2⟩
  · cases xs with
    | nil =>
        have hnx : l.next h = h := hs.1
        simp [Seg, hnx, hnh, Ne.symm hnh]
    | cons x xs =>
        obtain ⟨h1, -, h3⟩ := hs
        simp only [List.nodup_cons, List.mem_cons, not_or] at hnd hnxs
        refine ⟨by simp, ?_, by simp [hnh, h1], ?_, h3.congr ?_ ?_⟩
        · simp [h1]
        · simp [h1, Ne.symm hnxs.1]
        · intro y hy
          have hyn : y ≠ n := by rintro rfl; simp [hnxs] at hy
          have hyh : y ≠ h := by rintro rfl; simp [hnd.1] at hy
          simp [hyn, hyh]
        · intro y hy
          have hyn : y ≠ n := by rintro rfl; simp [hnxs, hnh] at hy
          have hyx : y ≠ x := by rintro rfl; simp [hnd.2.1, Ne.symm hnd.1.1] at hy
          simp [hyn, hyx, h1]
  · intro h' ys hr' hdis
    have hout : ∀ y ∈ h' :: ys, y ≠ h ∧ y ≠ n ∧ y ≠ l.next h := by
      intro y hy
      have hy' := hdis y hy
      simp only [List.mem_cons, not_or] at hy'
      refine ⟨hy'.1, hy'.2.1, ?_⟩
      rintro rfl
      simp [hy'.1, hy'.2.2] at hmem
    refine hr'.congr ?_ ?_
    · intro y hy
      obtain ⟨y1, y2, y3⟩ := hout y hy
      simp [y1, y2]
    · intro y hy
      obtain ⟨y1, y2, y3⟩ := hout y hy
      simp [y2, y3]

/-- `listDel` takes the first entry off the list and touches no other list. -/
theorem Ring.listDel_first (hr : l.Ring h (x :: xs)) (p q : α) :
    ∃ l', l.listDel p q x = some l' ∧ l'.Ring h xs ∧
      ∀ h' ys, l.Ring h' ys → (∀ y ∈ h' :: ys, y ∉ h :: x :: xs) → l'.Ring h' ys := by
  obtain ⟨hnd, h1, h2, hs⟩ := hr
  have hmem : l.next x ∈ xs ++ [h] := hs.next_mem (by simp)
  have hprev : l.prev (l.next x) = x := by
    cases xs with
    | nil => rw [hs.1, hs.2]
    | cons y ys => rw [hs.1, hs.2.1]
  simp only [List.nodup_cons, List.mem_cons, not_or] at hnd
  obtain ⟨⟨hhx, hhxs⟩, hxxs, hxsnd⟩ := hnd
  have hdel : l.listDel p q x =
      some ((((l.setPrev (l.next x) h).setNext h (l.next x)).setNext x p).setPrev x q) := by
    simp [listDel, listDelEntryValid, h2, h1, hprev]
  refine ⟨_, hdel, ⟨?_, ?_⟩, ?_⟩
  · exact List.nodup_cons.mpr ⟨hhxs, hxsnd⟩
  · cases xs with
    | nil =>
        have hnx : l.next x = h := hs.1
        simp [Seg, hnx, hhx]
    | cons y ys =>
        obtain ⟨g1, -, g3⟩ := hs
        simp only [List.nodup_cons, List.mem_cons, not_or] at hhxs hxxs hxsnd
        refine ⟨by simp [g1, hhx], ?_, g3.congr ?_ ?_⟩
        · simp [g1, Ne.symm hxxs.1]
        · intro z hz
          have hzx : z ≠ x := by rintro rfl; simp [hxxs] at hz
          have hzh : z ≠ h := by rintro rfl; simp [hhxs] at hz
          simp [hzx, hzh]
        · intro z hz
          have hzx : z ≠ x := by rintro rfl; simp [hxxs, Ne.symm hhx] at hz
          have hzy : z ≠ y := by rintro rfl; simp [hxsnd.1, Ne.symm hhxs.1] at hz
          simp [g1, hzx, hzy]
  · intro h' ys hr' hdis
    have hout : ∀ y ∈ h' :: ys, y ≠ h ∧ y ≠ x ∧ y ≠ l.next x := by
      intro y hy
      have hy' := hdis y hy
      simp only [List.mem_cons, not_or] at hy'
      refine ⟨hy'.1, hy'.2.1, ?_⟩
      rintro rfl
      simp [hy'.1, hy'.2.2] at hmem
    refine hr'.congr ?_ ?_
    · intro y hy
      obtain ⟨y1, y2, y3⟩ := hout y hy
      simp [y1, y2]
    · intro y hy
      obtain ⟨y1, y2, y3⟩ := hout y hy
      simp [y2, y3]

/-- `listAddTail` puts a new entry at the end of the list and touches no other list. -/
theorem Ring.listAddTail (hr : l.Ring h xs) (hn : n ∉ h :: xs) :
    ∃ l', l.listAddTail h n = some l' ∧ l'.Ring h (xs ++ [n]) ∧
      ∀ h' ys, l.Ring h' ys → (∀ y ∈ h' :: ys, y ∉ h :: n :: xs) → l'.Ring h' ys := by
  rcases xs.eq_nil_or_concat' with rfl | ⟨pre, r, rfl⟩
  · obtain ⟨l', e, hr', ho⟩ := hr.listAdd hn
    refine ⟨l', ?_, hr', ho⟩
    rw [← e, Links.listAddTail, Links.listAdd, hr.2.1, hr.2.2]
  · -- the last entry is taken for the head
    have hlast : l.Ring r (h :: pre) := hr.rotate
    have hnr : n ∉ r :: h :: pre := by
      simpa [or_comm, or_left_comm, and_comm, and_left_comm] using hn
    obtain ⟨l', e, hr', ho⟩ := hlast.listAdd hnr
    refine ⟨l', ?_, ?_, fun h' ys hr1 hd => ho h' ys hr1 fun y hy hc => hd y hy ?_⟩
    · rw [← e, Links.listAddTail, Links.listAdd, hlast.2.1, hlast.2.2.1]
    · have hrot : l'.Ring h (pre ++ r :: [n]) :=
        (show l'.Ring r ([n] ++ h :: pre) from hr').rotate
      rwa [List.append_assoc]
    · simp only [List.mem_cons, List.mem_append, List.not_mem_nil, or_false] at hc ⊢
      tauto

/-- `listDel` takes an entry off the list and touches no other list. -/
theorem Ring.listDel (hr : l.Ring h (xs ++ x :: ys)) (p q : α) :
    ∃ l', l.listDel p q x = some l' ∧ l'.Ring h (xs ++ ys) ∧
      ∀ h' zs, l.Ring h' zs → (∀ y ∈ h' :: zs, y ∉ h :: (xs ++ x :: ys)) → l'.Ring h' zs := by
  rcases xs.eq_nil_or_concat' with rfl | ⟨pre, r, rfl⟩
  · exact hr.listDel_first p q
  · have hprev : l.Ring r (x :: (ys ++ h :: pre)) := by
      rw [List.append_assoc, List.singleton_append] at hr
      exact hr.rotate
    obtain ⟨l', e, hr', ho⟩ := hprev.listDel_first p q
    refine ⟨l', e, ?_, fun h' zs hr1 hd => ho h' zs hr1 fun y hy hc => hd y hy ?_⟩
    · rw [List.append_assoc, List.singleton_append]
      exact hr'.rotate
    · simp only [List.mem_cons, List.mem_append, List.not_mem_nil, or_false] at hc ⊢
      tauto

namespace Rings

variable {H : Set α} {lists : α → List α}

/-- One of the lists is replaced by a list of the same entries, but for new ones. -/
theorem update (hR : Rings l H lists) (hh : h ∈ H) (hr : l'.Ring h xs)
    (ho : ∀ h' ∈ H, h' ≠ h → l'.Ring h' (lists h'))
    (hx : ∀ x ∈ xs, x ∈ lists h ∨ ∀ h' ∈ H, x ∉ h' :: lists h') :
    Rings l' H (Function.update lists h xs) := by
  have hsub : ∀ h' ∈ H, h' ≠ h → ∀ x ∈ h :: xs, x ∉ h' :: lists h' := by
    intro h' hh' hne x hxm
    rcases List.mem_cons.mp hxm with rfl | hxm
    · exact hR.disjoint x hh h' hh' (Ne.symm hne) x List.mem_cons_self
    · rcases hx x hxm with hx | hx
      · exact hR.disjoint h hh h' hh' (Ne.symm hne) x (List.mem_cons_of_mem _ hx)
      · exact hx h' hh'
  refine ⟨fun h' hh' => ?_, fun h1 hh1 h2 hh2 hne x hxm hxm' => ?_⟩
  · by_cases he : h' = h
    · subst he
      rwa [Function.update_self]
    · rw [Function.update_of_ne he]
      exact ho h' hh' he
  · by_cases he1 : h1 = h
    · subst he1
      rw [Function.update_self] at hxm
      rw [Function.update_of_ne (Ne.symm hne)] at hxm'
      exact hsub h2 hh2 (Ne.symm hne) x hxm hxm'
    · rw [Function.update_of_ne he1] at hxm
      by_cases he2 : h2 = h
      · subst he2
        rw [Function.update_self] at hxm'
        exact hsub h1 hh1 he1 x hxm' hxm
      · rw [Function.update_of_ne he2] at hxm'
        exact hR.disjoint h1 hh1 h2 hh2 hne x hxm hxm'

theorem listAdd (hR : Rings l H lists) (hh : h ∈ H) (hn : ∀ h' ∈ H, n ∉ h' :: lists h') :
    ∃ l', l.listAdd h n = some l' ∧ Rings l' H (Function.update lists h (n :: lists h)) := by
  obtain ⟨l', e, hr, ho⟩ := (hR.ring h hh).listAdd (hn h hh)
  refine ⟨l', e, hR.update hh hr (fun h' hh' hne => ho h' _ (hR.ring h' hh') ?_) fun x hx => ?_⟩
  · intro y hy hc
    have h1 := hR.other hh hh' hne y hy
    simp only [List.mem_cons, not_or] at h1 hc
    rcases hc with hc | rfl | hc
    · exact h1.1 hc
    · exact hn h' hh' hy
    · exact h1.2 hc
  · exact (List.mem_cons.mp hx).elim (fun he => Or.inr (he ▸ hn)) Or.inl

theorem listAddTail (hR : Rings l H lists) (hh : h ∈ H) (hn : ∀ h' ∈ H, n ∉ h' :: lists h') :
    ∃ l', l.listAddTail h n = some l' ∧ Rings l' H (Function.update lists h (lists h ++ [n])) := by
  obtain ⟨l', e, hr, ho⟩ := (hR.ring h hh).listAddTail (hn h hh)
  refine ⟨l', e, hR.update hh hr (fun h' hh' hne => ho h' _ (hR.ring h' hh') ?_) fun x hx => ?_⟩
  · intro y hy hc
    have h1 := hR.other hh hh' hne y hy
    simp only [List.mem_cons, not_or] at h1 hc
    rcases hc with hc | rfl | hc
    · exact h1.1 hc
    · exact hn h' hh' hy
    · exact h1.2 hc
  · rcases List.mem_append.mp hx with hx | hx
    · exact Or.inl hx
    · exact Or.inr (List.mem_singleton.mp hx ▸ hn)

theorem listDel (hR : Rings l H lists) (hh : h ∈ H) (hx : lists h = xs ++ x :: ys) (p q : α) :
    ∃ l', l.listDel p q x = some l' ∧ Rings l' H (Function.update lists h (xs ++ ys)) := by
  have hr := hR.ring h hh
  rw [hx] at hr
  obtain ⟨l', e, hr', ho⟩ := hr.listDel p q
  refine ⟨l', e, hR.update hh hr' (fun h' hh' hne => ho h' _ (hR.ring h' hh') ?_) fun y hy => ?_⟩
  · rw [← hx]
    exact hR.other hh hh' hne
  · rw [hx]
    simp only [List.mem_append, List.mem_cons] at hy ⊢
    tauto

/-- An entry that was taken off its list is in no list. -/
theorem notMem_of_del (hR : Rings l H lists) (hh : h ∈ H) (hx : lists h = xs ++ x :: ys) :
    ∀ h' ∈ H, x ∉ h' :: Function.update lists h (xs ++ ys) h' := by
  have hmem : x ∈ h :: lists h := by simp [hx]
  intro h' hh'
  by_cases he : h' = h
  · subst he
    have hnd := (hR.ring h' hh).1
    have hperm : (h' :: (xs ++ x :: ys)).Perm (x :: h' :: (xs ++ ys)) :=
      (List.perm_middle.cons h').trans (List.Perm.swap x h' _)
    rw [hx] at hnd
    rw [Function.update_self]
    exact (List.nodup_cons.mp (hperm.nodup_iff.mp hnd)).1
  · rw [Function.update_of_ne he]
    exact hR.disjoint h hh h' hh' (Ne.symm he) x hmem

/-- An entry is moved from one list to the front of another. -/
theorem move (hR : Rings l H lists) (hh : h ∈ H) (hh' : h' ∈ H) (hne : h' ≠ h)
    (hx : lists h = xs ++ x :: ys) (p q : α) :
    ∃ l1 l2, l.listDel p q x = some l1 ∧ l1.listAdd h' x = some l2 ∧
      Rings l2 H (Function.update (Function.update lists h (xs ++ ys)) h' (x :: lists h')) := by
  obtain ⟨l1, e1, h1⟩ := hR.listDel hh hx p q
  obtain ⟨l2, e2, h2⟩ := h1.listAdd hh' (hR.notMem_of_del hh hx)
  rw [Function.update_of_ne hne] at h2
  exact ⟨l1, l2, e1, e2, h2⟩

/-- An entry is moved from one list to the end of another. -/
theorem moveTail (hR : Rings l H lists) (hh : h ∈ H) (hh' : h' ∈ H) (hne : h' ≠ h)
    (hx : lists h = xs ++ x :: ys) (p q : α) :
    ∃ l1 l2, l.listDel p q x = some l1 ∧ l1.listAddTail h' x = some l2 ∧
      Rings l2 H (Function.update (Function.update lists h (xs ++ ys)) h' (lists h' ++ [x])) := by
  obtain ⟨l1, e1, h1⟩ := hR.listDel hh hx p q
  obtain ⟨l2, e2, h2⟩ := h1.listAddTail hh' (hR.notMem_of_del hh hx)
  rw [Function.update_of_ne hne] at h2
  exact ⟨l1, l2, e1, e2, h2⟩

theorem listEmpty_iff (hR : Rings l H lists) (hh : h ∈ H) : l.listEmpty h ↔ lists h = [] := by
  have hr := hR.ring h hh
  cases hl : lists h with
  | nil =>
      rw [hl] at hr
      simp [listEmpty, hr.2.1]
  | cons x xs =>
      rw [hl] at hr
      have hne : x ≠ h := by
        rintro rfl
        simp [Ring] at hr
      simp [listEmpty, hr.2.1, hne]

/-- A head that is in no list is made an empty list. -/
theorem insert (hR : Rings l H lists) (hh : ∀ h' ∈ H, h ∉ h' :: lists h') :
    Rings (l.initList h) (insert h H) (Function.update lists h []) := by
  have hne : ∀ h' ∈ H, h' ≠ h := by
    rintro h' hh' rfl
    exact hh h' hh' List.mem_cons_self
  have hout : ∀ h' ∈ H, ∀ x ∈ h' :: lists h', x ≠ h := by
    rintro h' hh' x hx rfl
    exact hh h' hh' hx
  refine ⟨fun h' hh' => ?_, fun h1 hh1 h2 hh2 hne12 x hx hx' => ?_⟩
  · rcases hh' with rfl | hh'
    · rw [Function.update_self]
      exact l.initList_ring h'
    · rw [Function.update_of_ne (hne h' hh')]
      exact (hR.ring h' hh').congr (fun x hx => by simp [initList, hout h' hh' x hx])
        fun x hx => by simp [initList, hout h' hh' x hx]
  · rcases hh1 with rfl | hh1 <;> rcases hh2 with rfl | hh2
    · exact hne12 rfl
    · rw [Function.update_self, List.mem_singleton] at hx
      rw [Function.update_of_ne (hne h2 hh2)] at hx'
      exact hh h2 hh2 (hx ▸ hx')
    · rw [Function.update_self, List.mem_singleton] at hx'
      rw [Function.update_of_ne (hne h1 hh1)] at hx
      exact hh h1 hh1 (hx' ▸ hx)
    · rw [Function.update_of_ne (hne h1 hh1)] at hx
      rw [Function.update_of_ne (hne h2 hh2)] at hx'
      exact hR.disjoint h1 hh1 h2 hh2 hne12 x hx hx'

end Rings

end Links

end Tomato
