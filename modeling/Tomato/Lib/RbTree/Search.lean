import Tomato.Lib.RbTree.Basic

/-!
# Searching

`rb_find` and `rb_last` go down the tree only. `rb_find_first_fit` also climbs back
up through the parent pointers, from the left child of a node to the node itself and
from the right child further up, so its state is a subtree with the path above it.
-/

namespace RbTree

open RbTree.Path

variable {α : Type*}

/-- `rb_find`, where `cmp` compares the key with the node. -/
def find (cmp : α → Ordering) : Tree α → Option α
  | .nil => none
  | .node _ l x r => match cmp x with
    | .lt => find cmp l
    | .gt => find cmp r
    | .eq => some x

/-- `rb_last`. -/
def last : Tree α → Option α
  | .nil => none
  | .node _ _ x .nil => some x
  | .node _ _ _ r => last r

/-- The three places in the loop of `rb_find_first_fit`: its beginning, the label
`check_current`, and the loop that goes back up. -/
inductive FitMode
  | enter
  | check
  | up

section

variable (fits subtreeFits : α → Bool)

/-- A child that is there and looks promising. -/
def promising : Tree α → Bool
  | .nil => false
  | .node _ _ x _ => subtreeFits x

/-- What is left to visit above the subtree. -/
def pathWork : Path α → ℕ
  | [] => 0
  | f :: path => (match f.dir with
    | .left => 4 * f.other.size + 3
    | .right => 1) + pathWork path

/-- What is left to visit. -/
def fitWork : FitMode → Tree α → Path α → ℕ
  | .enter, t, path => 4 * t.size + pathWork path
  | .check, t, path => 4 * (t.child .right).size + 2 + pathWork path
  | .up, _, path => 1 + pathWork path

/-- The loop of `rb_find_first_fit`. -/
def firstFitLoop : FitMode → Tree α → Path α → Option α
  | .enter, .node c l x r, path =>
    -- visit left subtree if it looks promising
    if promising subtreeFits l then firstFitLoop .enter l (⟨.left, c, x, r⟩ :: path)
    else firstFitLoop .check (.node c l x r) path
  | .check, .node c l x r, path =>
    if fits x then some x
    -- visit right subtree if it looks promising
    else if promising subtreeFits r then firstFitLoop .enter r (⟨.right, c, x, l⟩ :: path)
    else firstFitLoop .up (.node c l x r) path
  -- go back up to find the next candidate node
  | .up, t, ⟨.left, c, x, r⟩ :: path => firstFitLoop .check (.node c t x r) path
  | .up, t, ⟨.right, c, x, l⟩ :: path => firstFitLoop .up (.node c l x t) path
  | _, _, _ => none
termination_by mode t path => fitWork mode t path
decreasing_by all_goals simp only [fitWork, pathWork, Tree.size, Tree.child]; omega

def findFirstFit (t : Tree α) : Option α :=
  if promising subtreeFits t then firstFitLoop fits subtreeFits .enter t [] else none

/-- The search as a recursion on the tree. -/
def firstFitIn : Tree α → Option α
  | .nil => none
  | .node _ l x r =>
    (if promising subtreeFits l then firstFitIn l else none).or
      (if fits x then some x else if promising subtreeFits r then firstFitIn r else none)

/-- What the search finds above a subtree that it is done with. -/
def firstFitAbove : Path α → Option α
  | [] => none
  | f :: path => (match f.dir with
    | .left => if fits f.entry then some f.entry
      else if promising subtreeFits f.other then firstFitIn fits subtreeFits f.other else none
    | .right => none).or (firstFitAbove path)

/-- What the loop finds from where it stands. -/
def firstFitRest : FitMode → Tree α → Path α → Option α
  | .enter, t, path => (firstFitIn fits subtreeFits t).or (firstFitAbove fits subtreeFits path)
  | .check, .nil, _ => none
  | .check, .node _ _ x r, path =>
    (if fits x then some x else if promising subtreeFits r then firstFitIn fits subtreeFits r
      else none).or (firstFitAbove fits subtreeFits path)
  | .up, _, path => firstFitAbove fits subtreeFits path

/-- The predicate holds at every node with a fitting node in its subtree. -/
def Promises : Tree α → Prop
  | .nil => True
  | .node c l x r => ((∃ y ∈ (Tree.node c l x r).toList, fits y) → subtreeFits x) ∧
      Promises l ∧ Promises r

end

variable {cmp : α → Ordering} {fits subtreeFits : α → Bool} {t l r : Tree α} {path : Path α} {x : α}

theorem find_some (h : find cmp t = some x) : x ∈ t.toList ∧ cmp x = .eq := by
  induction t with
  | nil => simp [find] at h
  | node c l y r ihl ihr =>
      rw [find] at h
      split at h
      · exact ⟨by simp [Tree.toList, (ihl h).1], (ihl h).2⟩
      · exact ⟨by simp [Tree.toList, (ihr h).1], (ihr h).2⟩
      · obtain rfl := Option.some.inj h
        exact ⟨by simp [Tree.toList], by assumption⟩

/-- The keys that compare as equal are found, where a key that is below a node is
below the later ones too, and one that is above a node is above the earlier ones. -/
theorem find_eq_none
    (hmono : t.toList.Pairwise fun a b => (cmp a = .lt → cmp b = .lt) ∧ (cmp b = .gt → cmp a = .gt))
    (h : find cmp t = none) : ∀ x ∈ t.toList, cmp x ≠ .eq := by
  induction t with
  | nil => simp [Tree.toList]
  | node c l y r ihl ihr =>
      simp only [Tree.toList, List.pairwise_append, List.pairwise_cons, List.mem_cons] at hmono
      obtain ⟨hl, ⟨hy, hr⟩, hly⟩ := hmono
      rw [find] at h
      simp only [Tree.toList, List.mem_append, List.mem_cons]
      split at h
      · rename_i hlt
        rintro x (hx | rfl | hx)
        · exact ihl hl h x hx
        · simp [hlt]
        · simp [(hy x hx).1 hlt]
      · rename_i hgt
        rintro x (hx | rfl | hx)
        · simp [(hly x hx y (Or.inl rfl)).2 hgt]
        · simp [hgt]
        · exact ihr hr h x hx
      · simp at h

theorem last_eq : last t = t.toList.getLast? := by
  induction t with
  | nil => rfl
  | node c l x r _ ihr =>
      cases r with
      | nil => simp [last, Tree.toList]
      | node c' l' y r' =>
        rw [last, ihr, Tree.toList]
        · simp only [Tree.toList, List.getLast?_append, List.getLast?_cons]
          simp
        · simp

theorem ne_nil_of_promising (h : promising subtreeFits t) : t ≠ .nil := by
  rintro rfl
  simp [promising] at h

/-- The loop visits what is left of the subtree, and then what is above it. -/
theorem firstFitLoop_eq (mode : FitMode) (t : Tree α) (path : Path α) (h : mode ≠ .up → t ≠ .nil) :
    firstFitLoop fits subtreeFits mode t path = firstFitRest fits subtreeFits mode t path := by
  fun_induction firstFitLoop fits subtreeFits mode t path with
  | case1 c l x r path hl ih =>
      rw [ih fun _ => ne_nil_of_promising hl]
      simp [firstFitRest, firstFitAbove, firstFitIn, hl, Option.or_assoc]
  | case2 c l x r path hl ih =>
      rw [ih fun _ => by simp]
      simp [firstFitRest, firstFitIn, hl]
  | case3 c l x r path hx => simp [firstFitRest, hx]
  | case4 c l x r path hx hr ih =>
      rw [ih fun _ => ne_nil_of_promising hr]
      simp [firstFitRest, firstFitAbove, hx, hr]
  | case5 c l x r path hx hr ih =>
      rw [ih fun hne => absurd rfl hne]
      simp [firstFitRest, hx, hr]
  | case6 t c x r path ih =>
      rw [ih fun _ => by simp]
      simp [firstFitRest, firstFitAbove]
  | case7 t c x l path ih =>
      rw [ih fun hne => absurd rfl hne]
      simp [firstFitRest, firstFitAbove]
  | case8 mode t path h1 h2 h3 h4 =>
      cases mode with
      | enter =>
        cases t with
        | nil => exact absurd rfl (h (by simp))
        | node c l x r => exact absurd rfl (h1 c l x r rfl)
      | check =>
        cases t with
        | nil => rfl
        | node c l x r => exact absurd rfl (h2 c l x r rfl)
      | up =>
        match path with
        | [] => rfl
        | ⟨.left, c, x, r⟩ :: path => exact absurd rfl (h3 c x r path rfl)
        | ⟨.right, c, x, l⟩ :: path => exact absurd rfl (h4 c x l path rfl)

theorem findFirstFit_eq (t : Tree α) : findFirstFit fits subtreeFits t =
    if promising subtreeFits t then firstFitIn fits subtreeFits t else none := by
  unfold findFirstFit
  split
  · rename_i h
    rw [firstFitLoop_eq .enter t [] fun _ => ne_nil_of_promising h]
    simp [firstFitRest, firstFitAbove]
  · rfl

theorem firstFitIn_some (h : firstFitIn fits subtreeFits t = some x) : x ∈ t.toList ∧ fits x := by
  induction t with
  | nil => simp [firstFitIn] at h
  | node c l y r ihl ihr =>
      rw [firstFitIn, Option.or_eq_some_iff] at h
      rcases h with h | ⟨-, h⟩
      · split at h
        · exact ⟨by simp [Tree.toList, (ihl h).1], (ihl h).2⟩
        · simp at h
      · split at h
        · obtain rfl := Option.some.inj h
          exact ⟨by simp [Tree.toList], by assumption⟩
        · split at h
          · exact ⟨by simp [Tree.toList, (ihr h).1], (ihr h).2⟩
          · simp at h

/-- A node that is found is a node of the tree that fits. -/
theorem findFirstFit_some (h : findFirstFit fits subtreeFits t = some x) :
    x ∈ t.toList ∧ fits x := by
  rw [findFirstFit_eq] at h
  split at h
  · exact firstFitIn_some h
  · simp at h

theorem find?_eq_none_of_not_promising (hp : Promises fits subtreeFits t)
    (h : ¬ promising subtreeFits t) : t.toList.find? fits = none := by
  cases t with
  | nil => rfl
  | node c l x r =>
      rw [List.find?_eq_none]
      exact fun y hy hf => h (hp.1 ⟨y, hy, hf⟩)

theorem firstFitIn_eq (hp : Promises fits subtreeFits t) :
    firstFitIn fits subtreeFits t = t.toList.find? fits := by
  induction t with
  | nil => rfl
  | node c l x r ihl ihr =>
      have hchild : ∀ {t : Tree α}, Promises fits subtreeFits t →
          firstFitIn fits subtreeFits t = t.toList.find? fits →
          (if promising subtreeFits t then firstFitIn fits subtreeFits t else none) =
            t.toList.find? fits := by
        intro t ht h
        split
        · exact h
        · exact (find?_eq_none_of_not_promising ht (by assumption)).symm
      rw [firstFitIn, hchild hp.2.1 (ihl hp.2.1), hchild hp.2.2 (ihr hp.2.2), Tree.toList,
        List.find?_append, List.find?_cons]
      cases fits x <;> rfl

/-- The node that is found is the first one in order that fits. -/
theorem findFirstFit_eq_find? (hp : Promises fits subtreeFits t) :
    findFirstFit fits subtreeFits t = t.toList.find? fits := by
  rw [findFirstFit_eq]
  split
  · exact firstFitIn_eq hp
  · exact (find?_eq_none_of_not_promising hp (by assumption)).symm

end RbTree
