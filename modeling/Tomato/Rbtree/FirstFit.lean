import Tomato.Lib.RbTree.Search

/-!
# `rb_find_first_fit`

The search as it goes over the pointers of the nodes. What is above the node where it stands
is a path, and the loop does at each node what the search in a tree does.
-/

namespace Tomato

open RbTree RbTree.Path

/-- The pointers of all the nodes, where `none` is `nullptr`. -/
structure RbNodes (α : Type*) where
  left : α → Option α
  right : α → Option α
  parent : α → Option α

namespace RbNodes

variable {α : Type*}

section

variable (h : RbNodes α)

/-- The pointer `p` leads to the tree, whose parent pointers are right. -/
def TreeAt : Option α → Option α → RbTree.Tree α → Prop
  | _, p, .nil => p = none
  | parent, p, .node _ l x r => p = some x ∧ h.parent x = parent ∧
      TreeAt (some x) (h.left x) l ∧ TreeAt (some x) (h.right x) r

/-- The node above the end of a path. -/
def above (path : Path α) : Option α := path.head?.map Frame.entry

/-- The pointer `p` leads to the end of the path. -/
def PathAt : Option α → Path α → Prop
  | _, [] => True
  | p, ⟨.left, _, x, r⟩ :: path => h.left x = p ∧ h.parent x = above path ∧
      TreeAt h (some x) (h.right x) r ∧ PathAt (some x) path
  | p, ⟨.right, _, x, l⟩ :: path => h.right x = p ∧ h.parent x = above path ∧
      TreeAt h (some x) (h.left x) l ∧ PathAt (some x) path

/-- The node `x` is at the end of the path, with the tree below it. -/
structure At (x : α) (t : RbTree.Tree α) (path : Path α) : Prop where
  tree : h.TreeAt (above path) (some x) t
  pathAt : h.PathAt (some x) path
  nodup : (zip t path).toList.Nodup

variable [DecidableEq α] (fits subtreeFits : α → Bool)

/-- The loop of `rb_find_first_fit`, for at most so many rounds. -/
def firstFitLoop : ℕ → FitMode → α → Option (Option α)
  | 0, _, _ => none
  | fuel + 1, .enter, node => match h.left node with
    -- visit left subtree if it looks promising
    | some left => if subtreeFits left then firstFitLoop fuel .enter left
      else firstFitLoop fuel .check node
    | none => firstFitLoop fuel .check node
  | fuel + 1, .check, node => if fits node then some (some node) else match h.right node with
    -- visit right subtree if it looks promising
    | some right => if subtreeFits right then firstFitLoop fuel .enter right
      else firstFitLoop fuel .up node
    | none => firstFitLoop fuel .up node
  -- go back up to find the next candidate node
  | fuel + 1, .up, prev => match h.parent prev with
    | none => some none
    | some node => if h.left node = some prev then firstFitLoop fuel .check node
      else firstFitLoop fuel .up node

def rbFindFirstFit (fuel : ℕ) : Option α → Option (Option α)
  | none => some none
  | some node => if subtreeFits node then firstFitLoop h fits subtreeFits fuel .enter node
    else some none

end

variable {h : RbNodes α} {l r t : RbTree.Tree α} {path : Path α} {c : Color} {x y : α}
  {parent p root : Option α} {fits subtreeFits : α → Bool}

theorem TreeAt.eq_nil (ht : h.TreeAt parent none t) : t = .nil := by
  cases t with
  | nil => rfl
  | node c l x r => simp [TreeAt] at ht

theorem TreeAt.eq_node (ht : h.TreeAt parent (some x) t) : ∃ c l r, t = .node c l x r := by
  cases t with
  | nil => simp [TreeAt] at ht
  | node c l y r =>
    obtain rfl := Option.some.inj ht.1
    exact ⟨c, l, r, rfl⟩

/-- The pointer to a child says whether it looks promising. -/
theorem TreeAt.promising_iff (ht : h.TreeAt parent p t) :
    promising subtreeFits t = true ↔ ∃ x, p = some x ∧ subtreeFits x = true := by
  cases t with
  | nil => simp [promising, show p = none from ht]
  | node c l x r => simp [promising, show p = some x from ht.1]

namespace At

theorem left (hat : h.At x (.node c l x r) path) (hy : h.left x = some y) :
    h.At y l (⟨.left, c, x, r⟩ :: path) where
  tree := hy ▸ hat.tree.2.2.1
  pathAt := ⟨hy, hat.tree.2.1, hat.tree.2.2.2, hat.pathAt⟩
  nodup := hat.nodup

theorem right (hat : h.At x (.node c l x r) path) (hy : h.right x = some y) :
    h.At y r (⟨.right, c, x, l⟩ :: path) where
  tree := hy ▸ hat.tree.2.2.2
  pathAt := ⟨hy, hat.tree.2.1, hat.tree.2.2.1, hat.pathAt⟩
  nodup := hat.nodup

theorem up_left (hat : h.At x t (⟨.left, c, y, r⟩ :: path)) :
    h.At y (.node c t y r) path where
  tree := ⟨rfl, hat.pathAt.2.1, hat.pathAt.1 ▸ hat.tree, hat.pathAt.2.2.1⟩
  pathAt := hat.pathAt.2.2.2
  nodup := hat.nodup

theorem up_right (hat : h.At x t (⟨.right, c, y, l⟩ :: path)) :
    h.At y (.node c l y t) path where
  tree := ⟨rfl, hat.pathAt.2.1, hat.pathAt.2.2.1, hat.pathAt.1 ▸ hat.tree⟩
  pathAt := hat.pathAt.2.2.2
  nodup := hat.nodup

theorem parent_eq (hat : h.At x t path) : h.parent x = above path := by
  obtain ⟨c, l, r, rfl⟩ := hat.tree.eq_node
  exact hat.tree.2.1

/-- A right child is not the left one too. -/
theorem left_ne (hat : h.At x t (⟨.right, c, y, l⟩ :: path)) : h.left y ≠ some x := by
  intro hx
  have hl := hat.pathAt.2.2.1
  rw [hx] at hl
  obtain ⟨_, _, _, rfl⟩ := hl.eq_node
  obtain ⟨_, _, _, rfl⟩ := hat.tree.eq_node
  have hnd := hat.nodup
  rw [zip, toList_zip, toList_fill] at hnd
  simp only [before, after, RbTree.Tree.toList, List.nodup_append, List.nodup_cons,
    List.mem_append, List.mem_cons] at hnd
  grind

end At

variable [DecidableEq α]

/-- The loop comes to the end that the search in the tree comes to. -/
theorem firstFitLoop_eq (mode : FitMode) (hat : h.At x t path) :
    ∃ n, ∀ fuel, n ≤ fuel → h.firstFitLoop fits subtreeFits fuel mode x =
      some (RbTree.firstFitLoop fits subtreeFits mode t path) := by
  -- one more round than the rest of the search
  have hround : ∀ {mode : FitMode} {x : α} {res : Option α} {rest : ℕ → Option (Option α)},
      (∀ fuel, h.firstFitLoop fits subtreeFits (fuel + 1) mode x = rest fuel) →
      (∃ n, ∀ fuel, n ≤ fuel → rest fuel = some res) →
      ∃ n, ∀ fuel, n ≤ fuel → h.firstFitLoop fits subtreeFits fuel mode x = some res := by
    rintro mode x res rest hrest ⟨n, hn⟩
    refine ⟨n + 1, fun fuel hfuel => ?_⟩
    obtain ⟨fuel, rfl⟩ : ∃ m, fuel = m + 1 := ⟨fuel - 1, by omega⟩
    rw [hrest, hn fuel (by omega)]
  fun_induction RbTree.firstFitLoop fits subtreeFits mode t path generalizing x with
  | case1 c l y r path hl ih =>
    obtain rfl := Option.some.inj hat.tree.1
    obtain ⟨z, hz, hfit⟩ := hat.tree.2.2.1.promising_iff.mp hl
    exact hround (fun fuel => by rw [firstFitLoop, hz]; simp only [hfit, if_true])
      (ih (hat.left hz))
  | case2 c l y r path hl ih =>
    obtain rfl := Option.some.inj hat.tree.1
    refine hround (fun fuel => ?_) (ih hat)
    rw [firstFitLoop]
    split
    · rename_i z hz
      rw [if_neg fun hfit => hl (hat.tree.2.2.1.promising_iff.mpr ⟨z, hz, hfit⟩)]
    · rfl
  | case3 c l y r path hy =>
    obtain rfl := Option.some.inj hat.tree.1
    exact hround (fun fuel => by rw [firstFitLoop, if_pos hy]) ⟨0, fun _ _ => rfl⟩
  | case4 c l y r path hy hr ih =>
    obtain rfl := Option.some.inj hat.tree.1
    obtain ⟨z, hz, hfit⟩ := hat.tree.2.2.2.promising_iff.mp hr
    exact hround (fun fuel => by rw [firstFitLoop, if_neg hy, hz]; simp only [hfit, if_true])
      (ih (hat.right hz))
  | case5 c l y r path hy hr ih =>
    obtain rfl := Option.some.inj hat.tree.1
    refine hround (fun fuel => ?_) (ih hat)
    rw [firstFitLoop, if_neg hy]
    split
    · rename_i z hz
      rw [if_neg fun hfit => hr (hat.tree.2.2.2.promising_iff.mpr ⟨z, hz, hfit⟩)]
    · rfl
  | case6 t c y r path ih =>
    refine hround (fun fuel => ?_) (ih hat.up_left)
    rw [firstFitLoop, hat.parent_eq]
    exact if_pos hat.pathAt.1
  | case7 t c y l path ih =>
    refine hround (fun fuel => ?_) (ih hat.up_right)
    rw [firstFitLoop, hat.parent_eq]
    exact if_neg hat.left_ne
  | case8 mode t path h1 h2 h3 h4 =>
    obtain ⟨c, l, r, rfl⟩ := hat.tree.eq_node
    cases mode with
    | enter => exact absurd rfl (h1 c l x r rfl)
    | check => exact absurd rfl (h2 c l x r rfl)
    | up =>
      cases path with
      | nil =>
        exact hround (fun fuel => by rw [firstFitLoop, hat.parent_eq]; rfl) ⟨0, fun _ _ => rfl⟩
      | cons f path =>
        obtain ⟨d, c', y, o⟩ := f
        cases d with
        | left => exact absurd rfl (h3 c' y o path rfl)
        | right => exact absurd rfl (h4 c' y o path rfl)

/-- The search ends with the first node in order that fits, or with `nullptr` if there is
none. -/
theorem rbFindFirstFit_spec (ht : h.TreeAt none root t) (hnd : t.toList.Nodup)
    (hp : Promises fits subtreeFits t) :
    ∃ res, (∃ n, ∀ fuel, n ≤ fuel → h.rbFindFirstFit fits subtreeFits fuel root = some res) ∧
      (∀ x, res = some x ↔
        fits x ∧ ∃ A B, t.toList = A ++ x :: B ∧ ∀ y ∈ A, ¬ fits y) ∧
      (res = none ↔ ∀ x ∈ t.toList, ¬ fits x) := by
  refine ⟨t.toList.find? fits, ?_, fun x => ?_, ?_⟩
  · rw [← findFirstFit_eq_find? hp]
    cases root with
    | none =>
      obtain rfl := ht.eq_nil
      exact ⟨0, fun fuel _ => rfl⟩
    | some x =>
      obtain ⟨c, l, r, rfl⟩ := ht.eq_node
      by_cases hx : subtreeFits x
      · have hat : h.At x (.node c l x r) [] := ⟨ht, trivial, hnd⟩
        obtain ⟨n, hn⟩ : ∃ n, ∀ fuel, n ≤ fuel →
          h.firstFitLoop fits subtreeFits fuel .enter x = _ := firstFitLoop_eq .enter hat
        exact ⟨n, fun fuel hfuel => by
          rw [rbFindFirstFit, if_pos hx, hn fuel hfuel, findFirstFit, promising, if_pos hx]⟩
      · exact ⟨0, fun fuel _ => by
          rw [rbFindFirstFit, if_neg hx, findFirstFit, promising, if_neg hx]⟩
  · rw [List.find?_eq_some_iff_append]
    simp
  · simp

/-- A node with two children. -/
def threeNodes : RbNodes ℕ where
  left x := if x = 2 then some 1 else none
  right x := if x = 2 then some 3 else none
  parent x := if x = 2 then none else some 2

theorem rbFindFirstFit_threeNodes :
    ∃ res, (∃ n, ∀ fuel, n ≤ fuel →
        threeNodes.rbFindFirstFit (fun x => x == 3) (fun x => x != 1) fuel (some 2) = some res) ∧
      (∀ x, res = some x ↔ (x == 3) ∧ ∃ A B, [1, 2, 3] = A ++ x :: B ∧ ∀ y ∈ A, ¬ (y == 3)) ∧
      (res = none ↔ ∀ x ∈ [1, 2, 3], ¬ (x == 3)) :=
  rbFindFirstFit_spec (show threeNodes.TreeAt none (some 2)
      (.node .black (.node .red .nil 1 .nil) 2 (.node .red .nil 3 .nil))
      from ⟨rfl, rfl, ⟨rfl, rfl, rfl, rfl⟩, rfl, rfl, rfl, rfl⟩)
    (by decide) (by simp [Promises, RbTree.Tree.toList])

end RbNodes

end Tomato
