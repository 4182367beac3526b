import Tomato.Lib.RbTree.Erase

/-!
# Linked trees

The nodes of a linked tree also point to the nodes before and after them in order,
and its root points to the leftmost one. `rb_link_linked_node` finds the neighbors of
a new node next to its parent.

`LinkedNodes.Ok` says that the links are the order of a list.
-/

namespace RbTree

open RbTree.Path

/-- The `prev` and `next` fields of the nodes and the `rb_leftmost` of the root. -/
@[ext]
structure LinkedNodes (α : Type*) where
  prev : α → Option α
  next : α → Option α
  leftmost : Option α

variable {α : Type*}

namespace LinkedNodes

section

variable [DecidableEq α] (l : LinkedNodes α)

def setPrev (x : α) (p : Option α) : LinkedNodes α :=
  { l with prev := Function.update l.prev x p }

def setNext (x : α) (n : Option α) : LinkedNodes α :=
  { l with next := Function.update l.next x n }

/-- `rb_link_linked_node` below the first node of the path. -/
def linkNode (node : α) (path : Path α) : LinkedNodes α :=
  match path with
  | [] => l
  | f :: _ =>
    let parent := f.entry
    match f.dir with
    | .left =>
      let l := l.setPrev node (l.prev parent)
      let l := l.setNext node (some parent)
      let l := l.setPrev parent (some node)
      match l.prev node with
      | none => l
      | some prev => l.setNext prev (some node)
    | .right =>
      let l := l.setNext node (l.next parent)
      let l := l.setPrev node (some parent)
      let l := l.setNext parent (some node)
      match l.next node with
      | none => l
      | some next => l.setPrev next (some node)

/-- The links that `rb_find_add_augmented_linked` makes. -/
def addNode (node : α) (path : Path α) : LinkedNodes α :=
  let l := (l.setPrev node none).setNext node none
  let l := l.linkNode node path
  if (l.prev node).isNone then { l with leftmost := some node } else l

/-- `__rb_unlink_linked_node`. -/
def unlinkNode (node : α) : LinkedNodes α :=
  let l := match l.prev node with
    | some prev => l.setNext prev (l.next node)
    | none => { l with leftmost := l.next node }
  match l.next node with
  | some next => l.setPrev next (l.prev node)
  | none => l

/-- The links that `rb_erase_augmented_linked` is left with. -/
def eraseNode (node : α) : LinkedNodes α :=
  ((l.unlinkNode node).setPrev node none).setNext node none

end

/-- The links of the nodes in the list are its order. -/
structure Ok (l : LinkedNodes α) (xs : List α) : Prop where
  leftmost : l.leftmost = xs.head?
  prev : ∀ a x b, xs = a ++ x :: b → l.prev x = a.getLast?
  next : ∀ a x b, xs = a ++ x :: b → l.next x = b.head?

variable {l l' : LinkedNodes α} {xs a b : List α} {x y : α}

theorem Ok.congr (h : l.Ok xs) (hl : l'.leftmost = l.leftmost)
    (hp : ∀ x ∈ xs, l'.prev x = l.prev x) (hn : ∀ x ∈ xs, l'.next x = l.next x) : l'.Ok xs where
  leftmost := hl.trans h.leftmost
  prev := fun a x b he => (hp x (by simp [he])).trans (h.prev a x b he)
  next := fun a x b he => (hn x (by simp [he])).trans (h.next a x b he)

/-- The two ways in which two splits of a list can lie to each other. -/
theorem split_cases {A B : List α} (h : A ++ x :: B = a ++ y :: b) :
    (∃ c, A = a ++ y :: c ∧ b = c ++ x :: B) ∨ (a = A ∧ y = x ∧ b = B) ∨
      ∃ c, B = c ++ y :: b ∧ a = A ++ x :: c := by
  rcases List.append_eq_append_iff.mp h with ⟨c, rfl, hc⟩ | ⟨c, rfl, hc⟩
  · cases c with
    | nil =>
      obtain ⟨rfl, rfl⟩ := List.cons.inj hc
      exact Or.inr (Or.inl ⟨by simp, rfl, rfl⟩)
    | cons z c =>
      obtain ⟨rfl, rfl⟩ := List.cons.inj hc
      exact Or.inr (Or.inr ⟨c, rfl, rfl⟩)
  · cases c with
    | nil =>
      obtain ⟨rfl, rfl⟩ := List.cons.inj hc
      exact Or.inr (Or.inl ⟨by simp, rfl, rfl⟩)
    | cons z c =>
      obtain ⟨rfl, rfl⟩ := List.cons.inj hc
      exact Or.inl ⟨c, rfl, rfl⟩

section

variable [DecidableEq α] {A B : List α}

/-- The node between two neighbors. -/
def insertBetween (l : LinkedNodes α) (x : α) (p n : Option α) : LinkedNodes α where
  prev := fun z => if z = x then p else if n = some z then some x else l.prev z
  next := fun z => if z = x then n else if p = some z then some x else l.next z
  leftmost := if p.isNone then some x else l.leftmost

theorem Ok.insertBetween (h : l.Ok (A ++ B)) (hnd : (A ++ x :: B).Nodup) :
    (l.insertBetween x A.getLast? B.head?).Ok (A ++ x :: B) := by
  refine ⟨?_, ?_, ?_⟩
  · cases A with
    | nil => simp [LinkedNodes.insertBetween]
    | cons y A =>
      have := h.leftmost
      simp only [List.cons_append, List.head?_cons] at this ⊢
      simp [LinkedNodes.insertBetween, List.getLast?_cons, this]
  · intro a y b he
    rcases split_cases he with ⟨c, rfl, rfl⟩ | ⟨rfl, rfl, rfl⟩ | ⟨c, rfl, rfl⟩
    · have hyx : y ≠ x := by
        rintro rfl
        simp [List.nodup_append] at hnd
      have hyB : B.head? ≠ some y := by
        intro hB
        have := List.mem_of_head? hB
        simp only [List.nodup_append, List.nodup_cons, List.mem_append, List.mem_cons] at hnd
        exact hnd.2.2 y (Or.inr (Or.inl rfl)) y (Or.inr this) rfl
      simp only [LinkedNodes.insertBetween, if_neg hyx, if_neg hyB]
      exact h.prev a y (c ++ B) (by simp)
    · simp [LinkedNodes.insertBetween]
    · have hyx : y ≠ x := by
        rintro rfl
        simp [List.nodup_append] at hnd
      simp only [LinkedNodes.insertBetween, if_neg hyx]
      cases c with
      | nil => simp
      | cons z c =>
        have hzy : z ≠ y := by
          rintro rfl
          simp [List.nodup_append] at hnd
        simp only [List.cons_append, List.head?_cons, Option.some.injEq, if_neg hzy]
        rw [h.prev (A ++ z :: c) y b (by simp)]
        simp [List.getLast?_append, List.getLast?_cons]
  · intro a y b he
    rcases split_cases he with ⟨c, rfl, rfl⟩ | ⟨rfl, rfl, rfl⟩ | ⟨c, rfl, rfl⟩
    · have hyx : y ≠ x := by
        rintro rfl
        simp [List.nodup_append] at hnd
      simp only [LinkedNodes.insertBetween, if_neg hyx]
      rcases List.eq_nil_or_concat c with rfl | ⟨c, z, rfl⟩
      · simp
      · rw [List.concat_eq_append] at *
        have hzy : z ≠ y := by
          rintro rfl
          simp [List.nodup_append] at hnd
        have hlast : (a ++ y :: (c ++ [z])).getLast? = some z := by
          simp [List.getLast?_append, List.getLast?_cons]
        rw [hlast]
        simp only [Option.some.injEq, if_neg hzy]
        rw [h.next a y (c ++ [z] ++ B) (by simp)]
        cases c <;> simp
    · simp [LinkedNodes.insertBetween]
    · have hyx : y ≠ x := by
        rintro rfl
        simp [List.nodup_append] at hnd
      have hyA : A.getLast? ≠ some y := by
        intro hA
        have := List.mem_of_getLast? hA
        simp only [List.nodup_append, List.nodup_cons, List.mem_append, List.mem_cons] at hnd
        exact hnd.2.2 y this y (Or.inr (Or.inr (Or.inl rfl))) rfl
      simp only [LinkedNodes.insertBetween, if_neg hyx, if_neg hyA]
      exact h.next (A ++ c) y b (by simp)

theorem Ok.eraseNode (h : l.Ok (A ++ x :: B)) (hnd : (A ++ x :: B).Nodup) :
    (l.eraseNode x).Ok (A ++ B) ∧ ∀ z, z ∉ A ++ x :: B →
      (l.eraseNode x).prev z = l.prev z ∧ (l.eraseNode x).next z = l.next z := by
  have hp := h.prev A x B rfl
  have hn := h.next A x B rfl
  have hx : ∀ y ∈ A ++ B, y ≠ x := by
    rintro y hy rfl
    simp only [List.nodup_append, List.nodup_cons, List.mem_append, List.mem_cons] at hnd hy
    rcases hy with hy | hy
    · exact hnd.2.2 y hy y (Or.inl rfl) rfl
    · exact hnd.2.1.1 hy
  -- the three fields after the node is gone
  have hfields : (∀ z, z ≠ x → (l.eraseNode x).prev z =
        if B.head? = some z then A.getLast? else l.prev z) ∧
      (∀ z, z ≠ x → (l.eraseNode x).next z =
        if A.getLast? = some z then B.head? else l.next z) ∧
      (l.eraseNode x).leftmost = if A.getLast?.isNone then B.head? else l.leftmost := by
    have hA : ∀ p, A.getLast? = some p → x ≠ p := fun p hp =>
      (hx p (List.mem_append_left _ (List.mem_of_getLast? hp))).symm
    simp only [LinkedNodes.eraseNode, unlinkNode, hp, setNext, setPrev]
    cases hAl : A.getLast? with
    | none =>
      simp only [hn]
      cases hBh : B.head? <;> simp +contextual [Function.update_apply, hp, hAl, eq_comm]
    | some p =>
      simp only [Function.update_of_ne (hA p hAl), hn]
      cases hBh : B.head? <;> simp +contextual [Function.update_apply, hp, hAl, eq_comm]
  obtain ⟨hprev, hnext, hleft⟩ := hfields
  have hAB : ∀ y ∈ A, B.head? ≠ some y := by
    intro y hy hB
    simp only [List.nodup_append, List.mem_cons] at hnd
    exact hnd.2.2 y hy y (Or.inr (List.mem_of_head? hB)) rfl
  have hBA : ∀ y ∈ B, A.getLast? ≠ some y := by
    intro y hy hA
    simp only [List.nodup_append, List.mem_cons] at hnd
    exact hnd.2.2 y (List.mem_of_getLast? hA) y (Or.inr hy) rfl
  refine ⟨⟨?_, ?_, ?_⟩, ?_⟩
  · rw [hleft, h.leftmost]
    cases A with
    | nil => simp
    | cons y A => simp [List.getLast?_cons]
  · intro a y b he
    rw [hprev y (hx y (by simp [he]))]
    rcases List.append_eq_append_iff.mp he with ⟨c, rfl, rfl⟩ | ⟨c, rfl, hc⟩
    · have hy : y ∈ c ++ y :: b := by simp
      cases c with
      | nil => simp
      | cons z c =>
        have hzy : z ≠ y := by
          rintro rfl
          simp [List.nodup_append] at hnd
        simp only [List.cons_append, List.head?_cons, Option.some.injEq, if_neg hzy]
        rw [h.prev (A ++ x :: z :: c) y b (by simp)]
        simp [List.getLast?_append, List.getLast?_cons]
    · cases c with
      | nil =>
        obtain rfl : B = y :: b := by simpa using hc.symm
        simp
      | cons z c =>
        obtain ⟨rfl, rfl⟩ := List.cons.inj hc
        rw [if_neg (hAB y (by simp))]
        exact h.prev a y (c ++ x :: B) (by simp)
  · intro a y b he
    rw [hnext y (hx y (by simp [he]))]
    rcases List.append_eq_append_iff.mp he with ⟨c, rfl, rfl⟩ | ⟨c, rfl, hc⟩
    · rw [if_neg (hBA y (by simp))]
      exact h.next (A ++ x :: c) y b (by simp)
    · cases c with
      | nil =>
        obtain rfl : B = y :: b := by simpa using hc.symm
        rw [if_neg (hBA y (by simp))]
        exact h.next (a ++ [x]) y b (by simp)
      | cons z c =>
        obtain ⟨rfl, rfl⟩ := List.cons.inj hc
        rcases List.eq_nil_or_concat c with rfl | ⟨c, z, rfl⟩
        · simp
        · rw [List.concat_eq_append] at *
          have hzy : z ≠ y := by
            rintro rfl
            simp [List.nodup_append] at hnd
          have hlast : (a ++ y :: (c ++ [z])).getLast? = some z := by
            simp [List.getLast?_append, List.getLast?_cons]
          rw [hlast]
          simp only [Option.some.injEq, if_neg hzy]
          rw [h.next a y (c ++ [z] ++ x :: B) (by simp)]
          cases c <;> simp
  · intro z hz
    simp only [List.mem_append, List.mem_cons, not_or] at hz
    rw [hprev z hz.2.1, hnext z hz.2.1, if_neg fun hB => hz.2.2 (List.mem_of_head? hB),
      if_neg fun hA => hz.1 (List.mem_of_getLast? hA)]
    exact ⟨rfl, rfl⟩

/-- The new node is linked next to its parent. -/
theorem Ok.addNode {path : Path α} (h : l.Ok (before path ++ after path))
    (hnd : (before path ++ x :: after path).Nodup) :
    l.addNode x path = l.insertBetween x (before path).getLast? (after path).head? := by
  cases path with
  | nil =>
    ext z w <;> simp [LinkedNodes.addNode, linkNode, LinkedNodes.insertBetween, setPrev, setNext,
      before, after, Function.update_apply]
  | cons f p =>
    obtain ⟨d, c, y, o⟩ := f
    have hyx : y ≠ x := by
      rintro rfl
      cases d <;> simp [before, after, List.nodup_append] at hnd
    have hxy : x ≠ y := hyx.symm
    cases d with
    | left =>
      have hb : before (⟨.left, c, y, o⟩ :: p) = before p := by simp [before]
      have ha : after (⟨.left, c, y, o⟩ :: p) = y :: (o.toList ++ after p) := by simp [after]
      rw [hb, ha] at h hnd ⊢
      have hp := h.prev _ y _ rfl
      have hx : ∀ q, (before p).getLast? = some q → q ≠ x ∧ q ≠ y := by
        intro q hq
        have hq := List.mem_of_getLast? hq
        simp only [List.nodup_append, List.mem_cons] at hnd
        exact ⟨hnd.2.2 q hq x (Or.inl rfl), hnd.2.2 q hq y (Or.inr (Or.inl rfl))⟩
      simp only [LinkedNodes.addNode, linkNode, setPrev, setNext, Function.update_of_ne hyx,
        Function.update_of_ne hxy, Function.update_self, hp]
      cases hA : (before p).getLast? with
      | none =>
        simp only [Function.update_of_ne hxy, Function.update_self, Option.isNone_none, if_true]
        refine LinkedNodes.ext (funext fun z => ?_) (funext fun z => ?_) rfl
        · simp only [LinkedNodes.insertBetween, List.head?_cons, Function.update_apply]
          grind
        · simp only [LinkedNodes.insertBetween, List.head?_cons, Function.update_apply]
          grind
      | some q =>
        obtain ⟨hqx, hqy⟩ := hx q hA
        simp only [Function.update_of_ne hxy, Function.update_self, Option.isNone_some,
          Bool.false_eq_true, if_false]
        refine LinkedNodes.ext (funext fun z => ?_) (funext fun z => ?_) ?_
        · simp only [LinkedNodes.insertBetween, List.head?_cons, Function.update_apply]
          grind
        · simp only [LinkedNodes.insertBetween, List.head?_cons, Function.update_apply]
          grind
        · rfl
    | right =>
      have hb : before (⟨.right, c, y, o⟩ :: p) = (before p ++ o.toList) ++ [y] := by
        simp [before]
      have ha : after (⟨.right, c, y, o⟩ :: p) = after p := by simp [after]
      rw [hb, ha] at h hnd ⊢
      have hn := h.next (before p ++ o.toList) y (after p) (by simp)
      have hx : ∀ q, (after p).head? = some q → q ≠ x ∧ q ≠ y := by
        intro q hq
        have hq := List.mem_of_head? hq
        simp only [List.nodup_append, List.nodup_cons, List.mem_append, List.mem_singleton] at hnd
        exact ⟨fun h => hnd.2.1.1 (h ▸ hq), fun h => hnd.2.2 y (Or.inr rfl) q
          (List.mem_cons_of_mem _ hq) h.symm⟩
      simp only [LinkedNodes.addNode, linkNode, setPrev, setNext, Function.update_of_ne hyx,
        Function.update_of_ne hxy, Function.update_self, hn]
      cases hB : (after p).head? with
      | none =>
        simp only [Function.update_self, Option.isNone_some, Bool.false_eq_true, if_false]
        refine LinkedNodes.ext (funext fun z => ?_) (funext fun z => ?_) ?_
        · simp only [LinkedNodes.insertBetween, List.getLast?_concat, Function.update_apply]
          grind
        · simp only [LinkedNodes.insertBetween, List.getLast?_concat, Function.update_apply]
          grind
        · simp [LinkedNodes.insertBetween]
      | some q =>
        obtain ⟨hqx, hqy⟩ := hx q hB
        simp only [Function.update_of_ne hqx.symm, Function.update_self, Option.isNone_some,
          Bool.false_eq_true, if_false]
        refine LinkedNodes.ext (funext fun z => ?_) (funext fun z => ?_) ?_
        · simp only [LinkedNodes.insertBetween, List.getLast?_concat, Function.update_apply]
          grind
        · simp only [LinkedNodes.insertBetween, List.getLast?_concat, Function.update_apply]
          grind
        · simp [LinkedNodes.insertBetween]

/-- Adding a node to the links. -/
theorem Ok.add {path : Path α} (h : l.Ok (before path ++ after path))
    (hnd : (before path ++ x :: after path).Nodup) :
    (l.addNode x path).Ok (before path ++ x :: after path) ∧
      ∀ z, z ∉ before path ++ x :: after path →
        (l.addNode x path).prev z = l.prev z ∧ (l.addNode x path).next z = l.next z := by
  rw [h.addNode hnd]
  refine ⟨h.insertBetween hnd, fun z hz => ?_⟩
  simp only [List.mem_append, List.mem_cons, not_or] at hz
  simp only [LinkedNodes.insertBetween, if_neg hz.2.1]
  rw [if_neg fun hB => hz.2.2 (List.mem_of_head? hB), if_neg fun hA => hz.1 (List.mem_of_getLast? hA)]
  exact ⟨rfl, rfl⟩

end

end LinkedNodes

end RbTree
