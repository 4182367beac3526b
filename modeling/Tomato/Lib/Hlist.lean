import Mathlib.Data.List.Pairwise
import Mathlib.Tactic

/-!
# Words of memory and the lists threaded through them

`Memory` gives the 64-bit word stored at an address. The lists of
`lib/hlist.h` live inside the objects they link: a node at `n` keeps the address
of the next node in the word at `n` and, in the word at `n + 8`, the address of
the word that points to `n`, which is the list head or the first word of the
node before it.

`Chain m pp xs` says that the word at `pp` starts such a list and that its nodes
are `xs`. `hlistDel_chain` and `hlistAdd_chain` are the two list operations read
on `xs`; both also say which words they leave alone.
-/

namespace Tomato

/-- The word stored at each address. -/
abbrev Memory := ℕ → ℕ

namespace Memory

def store (m : Memory) (a v : ℕ) : Memory := fun x => if x = a then v else m x

/-- `memset(ptr, 0, len)`. -/
def zero (m : Memory) (ptr len : ℕ) : Memory := fun x =>
  if ptr ≤ x ∧ x < ptr + len then 0 else m x

@[simp] theorem store_self (m : Memory) (a v : ℕ) : m.store a v a = v := if_pos rfl

@[simp] theorem store_of_ne (m : Memory) {a x : ℕ} (v : ℕ) (h : x ≠ a) :
    m.store a v x = m x := if_neg h

theorem zero_of_mem (m : Memory) {p n x : ℕ} (h : p ≤ x) (h' : x < p + n) :
    m.zero p n x = 0 := if_pos ⟨h, h'⟩

theorem zero_of_notMem (m : Memory) {p n x : ℕ} (h : x < p ∨ p + n ≤ x) :
    m.zero p n x = m x := if_neg (by omega)

end Memory

def LIST_POISON1 : ℕ := 0x100

def LIST_POISON2 : ℕ := 0x122

def hlistEmpty (m : Memory) (h : ℕ) : Bool := m h == 0

/-- `hlist_del`: unlink the node at `n` and poison its two words. -/
def hlistDel (m : Memory) (n : ℕ) : Memory :=
  let next := m n
  let pprev := m (n + 8)
  let m := m.store pprev next
  let m := if next ≠ 0 then m.store (next + 8) pprev else m
  let m := m.store n LIST_POISON1
  m.store (n + 8) LIST_POISON2

/-- `hlist_add`: link the node at `n` in front of the list of the head `h`. -/
def hlistAdd (m : Memory) (h n : ℕ) : Memory :=
  let first := m h
  let m := m.store n first
  let m := if first ≠ 0 then m.store (first + 8) n else m
  let m := m.store h n
  m.store (n + 8) h

/-- The word at `pp` points to the list with the nodes `xs`. -/
def Chain (m : Memory) : ℕ → List ℕ → Prop
  | pp, [] => m pp = 0
  | pp, x :: xs => m pp = x ∧ x ≠ 0 ∧ m (x + 8) = pp ∧ Chain m x xs

/-- The link words of the nodes `x` and `y` are four different words. -/
def Apart (x y : ℕ) : Prop := x ≠ y ∧ x + 8 ≠ y ∧ x ≠ y + 8

/-- The address `a` is not a link word of the node `y`. -/
def Outside (a y : ℕ) : Prop := a ≠ y ∧ a ≠ y + 8

theorem Apart.outside {x y : ℕ} (h : Apart x y) : Outside x y := ⟨h.1, h.2.2⟩

theorem Apart.outside_add {x y : ℕ} (h : Apart x y) : Outside (x + 8) y :=
  ⟨h.2.1, fun he => h.1 (by omega)⟩

theorem Apart.symm {x y : ℕ} (h : Apart x y) : Apart y x :=
  ⟨h.1.symm, h.2.2.symm, h.2.1.symm⟩

namespace Chain

variable {m m' : Memory} {pp x : ℕ} {xs as bs : List ℕ}

theorem head (h : Chain m pp xs) : m pp = xs.head?.getD 0 := by
  cases xs with
  | nil => exact h
  | cons x xs => exact h.1

theorem hlistEmpty_iff (h : Chain m pp xs) : hlistEmpty m pp = true ↔ xs = [] := by
  cases xs with
  | nil => simp [hlistEmpty, show m pp = 0 from h]
  | cons x xs => simp [hlistEmpty, h.1, h.2.1]

theorem ne_zero (h : Chain m pp xs) (hx : x ∈ xs) : x ≠ 0 := by
  induction xs generalizing pp with
  | nil => simp at hx
  | cons y ys ih =>
      rcases List.mem_cons.mp hx with rfl | hy
      · exact h.2.1
      · exact ih h.2.2.2 hy

/-- The words of memory tell which list it is. -/
theorem unique {ys : List ℕ} (h : Chain m pp xs) (h' : Chain m pp ys) : xs = ys := by
  induction xs generalizing pp ys with
  | nil =>
      cases ys with
      | nil => rfl
      | cons y ys => exact absurd (h'.1.symm.trans h) h'.2.1
  | cons x xs ih =>
      cases ys with
      | nil => exact absurd (h.1.symm.trans h') h.2.1
      | cons y ys =>
        obtain rfl : x = y := h.1.symm.trans h'.1
        rw [ih h.2.2.2 h'.2.2.2]

/-- A list does not change when the words it is made of do not. -/
theorem congr (h : Chain m pp xs) (hpp : m' pp = m pp)
    (hxs : ∀ x ∈ xs, m' x = m x ∧ m' (x + 8) = m (x + 8)) : Chain m' pp xs := by
  induction xs generalizing pp with
  | nil => exact hpp.trans h
  | cons x xs ih =>
      have hx := hxs x (by simp)
      exact ⟨hpp.trans h.1, h.2.1, hx.2.trans h.2.2.1,
        ih h.2.2.2 hx.1 fun y hy => hxs y (by simp [hy])⟩

end Chain

variable {m : Memory} {h pp n : ℕ} {xs as bs : List ℕ}

/-- `hlistDel` writes only the link words of the list and the word that points to
its first node. -/
theorem hlistDel_frame (hc : Chain m pp (as ++ n :: bs)) {a : ℕ} (ha : a ≠ pp)
    (hout : ∀ y ∈ as ++ n :: bs, Outside a y) : hlistDel m n a = m a := by
  have hprev : ∀ {pp : ℕ} {as : List ℕ}, Chain m pp (as ++ n :: bs) →
      m (n + 8) = pp ∨ m (n + 8) ∈ as := by
    intro pp as hc
    induction as generalizing pp with
    | nil => exact Or.inl hc.2.2.1
    | cons b as ih =>
        rcases ih hc.2.2.2 with h | h
        · exact Or.inr (by simp [h])
        · exact Or.inr (by simp [h])
  have hnext : ∀ {pp : ℕ} {as : List ℕ}, Chain m pp (as ++ n :: bs) → m n = 0 ∨ m n ∈ bs := by
    intro pp as hc
    induction as generalizing pp with
    | nil =>
        have := hc.2.2.2.head
        cases bs with
        | nil => exact Or.inl this
        | cons b bs => exact Or.inr (by simp_all)
    | cons b as ih => exact ih hc.2.2.2
  have hn : Outside a n := hout n (by simp)
  have h1 : a ≠ m (n + 8) := by
    rcases hprev hc with hp | hp
    · rw [hp]
      exact ha
    · exact (hout _ (by simp [hp])).1
  have h2 : m n ≠ 0 → a ≠ m n + 8 := by
    intro h0
    rcases hnext hc with hx | hx
    · exact absurd hx h0
    · exact (hout _ (by simp [hx])).2
  simp only [hlistDel, Memory.store_of_ne _ _ hn.1, Memory.store_of_ne _ _ hn.2]
  split
  · rw [Memory.store_of_ne _ _ (h2 ‹_›), Memory.store_of_ne _ _ h1]
  · rw [Memory.store_of_ne _ _ h1]

/-- `hlistDel` removes the node from the list it is on. -/
theorem hlistDel_chain (hc : Chain m pp (as ++ n :: bs)) (hap : (as ++ n :: bs).Pairwise Apart)
    (hpp : ∀ y ∈ as ++ n :: bs, Outside pp y) : Chain (hlistDel m n) pp (as ++ bs) := by
  induction as generalizing pp with
  | nil =>
      simp only [List.nil_append] at hc hap hpp ⊢
      obtain ⟨h1, h0, h2, h3⟩ := hc
      have hn := hpp n (by simp)
      cases bs with
      | nil =>
          have : m n = 0 := h3
          simp [Chain, hlistDel, h2, this, hn.1, hn.2]
      | cons b bs =>
          obtain ⟨hb1, hb0, hb2, hb3⟩ := h3
          have hb := hpp b (by simp)
          have hnb : Apart n b := (List.pairwise_cons.mp hap).1 b (by simp)
          have hval : ∀ a, a ≠ pp → a ≠ b + 8 → a ≠ n → a ≠ n + 8 → hlistDel m n a = m a := by
            intro a ha1 ha2 ha3 ha4
            simp [hlistDel, h2, hb1, hb0, ha1, ha2, ha3, ha4]
          refine ⟨?_, hb0, ?_, hb3.congr ?_ ?_⟩
          · simp [hlistDel, h2, hb1, hb0, hn.1, hn.2, hb.2]
          · simp [hlistDel, h2, hb1, hb0, hnb.2.2.symm, hnb.1.symm]
          · exact hval b (Ne.symm hb.1) (by omega) hnb.1.symm (Ne.symm hnb.2.1)
          · intro y hy
            have hny : Apart n y := (List.pairwise_cons.mp hap).1 y (by simp [hy])
            have hby : Apart b y :=
              (List.pairwise_cons.mp (List.pairwise_cons.mp hap).2).1 y hy
            have hpy := hpp y (by simp [hy])
            obtain ⟨e1, e2, e3⟩ := hny
            obtain ⟨f1, f2, f3⟩ := hby
            obtain ⟨g1, g2⟩ := hpy
            exact ⟨hval y (by omega) (by omega) (by omega) (by omega),
              hval (y + 8) (by omega) (by omega) (by omega) (by omega)⟩
  | cons a as ih =>
      obtain ⟨h1, h0, h2, h3⟩ := hc
      have hap' := List.pairwise_cons.mp hap
      have hout : ∀ y ∈ as ++ n :: bs, Outside a y := fun y hy => (hap'.1 y hy).outside
      have hpa := hpp a (by simp)
      refine ⟨?_, h0, ?_, ih h3 hap'.2 hout⟩
      · rw [hlistDel_frame h3 hpa.1 fun y hy => hpp y (List.mem_cons_of_mem a hy), h1]
      · rw [hlistDel_frame h3 (by omega) fun y hy => (hap'.1 y hy).outside_add, h2]

/-- `hlistAdd` writes only the two link words of the new node, the head and the
back link of the node that was first. -/
theorem hlistAdd_frame (hc : Chain m h xs) {a : ℕ} (ha : a ≠ h) (hn : Outside a n)
    (hout : ∀ y ∈ xs, a ≠ y + 8) : hlistAdd m h n a = m a := by
  have h2 : m h ≠ 0 → a ≠ m h + 8 := by
    intro h0
    cases xs with
    | nil => exact absurd hc h0
    | cons x xs =>
        rw [hc.1]
        exact hout x (by simp)
  simp only [hlistAdd, Memory.store_of_ne _ _ hn.2, Memory.store_of_ne _ _ ha]
  split
  · rw [Memory.store_of_ne _ _ (h2 ‹_›), Memory.store_of_ne _ _ hn.1]
  · rw [Memory.store_of_ne _ _ hn.1]

/-- `hlistAdd` puts the node in front of the list. -/
theorem hlistAdd_chain (hc : Chain m h xs) (h0 : n ≠ 0) (hn : Outside h n)
    (hap : ∀ y ∈ xs, Apart n y) (hxs : xs.Pairwise Apart) (hout : ∀ y ∈ xs, Outside h y) :
    Chain (hlistAdd m h n) h (n :: xs) := by
  have hh : hlistAdd m h n h = n := by
    simp [hlistAdd, hn.2]
  have hn8 : hlistAdd m h n (n + 8) = h := by
    simp [hlistAdd]
  refine ⟨hh, h0, hn8, ?_⟩
  cases xs with
  | nil =>
      have : m h = 0 := hc
      simp [Chain, hlistAdd, this, hn.1.symm]
  | cons x xs =>
      obtain ⟨h1, hx0, h2, h3⟩ := hc
      have hx := hap x (by simp)
      have ho := hout x (by simp)
      refine ⟨?_, hx0, ?_, h3.congr ?_ ?_⟩
      · simp [hlistAdd, h1, hx0, hx.2.2, hn.1.symm]
      · simp [hlistAdd, h1, hx0, hx.1.symm, Ne.symm ho.2]
      · simp [hlistAdd, h1, hx0, Ne.symm ho.1, hx.1.symm, Ne.symm hx.2.1]
      · intro y hy
        obtain ⟨e1, e2, e3⟩ := hap y (by simp [hy])
        obtain ⟨f1, f2, f3⟩ := (List.pairwise_cons.mp hxs).1 y hy
        obtain ⟨g1, g2⟩ := hout y (by simp [hy])
        constructor
        · have a1 : y ≠ n + 8 := by omega
          have a2 : y ≠ h := by omega
          have a3 : y ≠ x + 8 := by omega
          have a4 : y ≠ n := by omega
          simp [hlistAdd, h1, hx0, a1, a2, a3, a4]
        · have a1 : y ≠ n := by omega
          have a2 : y + 8 ≠ h := by omega
          have a3 : y ≠ x := by omega
          have a4 : y + 8 ≠ n := by omega
          simp [hlistAdd, h1, hx0, a1, a2, a3, a4]

end Tomato
