import Mathlib.Tactic

/-!
# Colored trees and paths

A binary tree with colored nodes, and the path from a node up to the root, which is
what the parent pointers of an intrusive tree give. `join` puts a node together with
respect to a direction, so that a case and its mirror image are the same case.

`Balanced` is the red black invariant of a tree, and `Path.Hole` that of a path with
a tree missing at its lower end.
-/

namespace RbTree

inductive Color
  | red
  | black
deriving DecidableEq, Repr

inductive Dir
  | left
  | right
deriving DecidableEq, Repr

def Dir.flip : Dir → Dir
  | .left => .right
  | .right => .left

inductive Tree (α : Type*)
  | nil
  | node (color : Color) (left : Tree α) (entry : α) (right : Tree α)
deriving DecidableEq, Repr

variable {α : Type*}

namespace Tree

/-- The node with the child `near` on the side `d`. -/
def join (d : Dir) (c : Color) (near : Tree α) (x : α) (far : Tree α) : Tree α :=
  match d with
  | .left => node c near x far
  | .right => node c far x near

def child (d : Dir) : Tree α → Tree α
  | nil => nil
  | node _ l _ r => match d with
    | .left => l
    | .right => r

def rootEntry : Tree α → Option α
  | nil => none
  | node _ _ x _ => some x

def isRed : Tree α → Bool
  | nil => false
  | node c _ _ _ => c == .red

def setColor (c : Color) : Tree α → Tree α
  | nil => nil
  | node _ l x r => node c l x r

def size : Tree α → ℕ
  | nil => 0
  | node _ l _ r => l.size + r.size + 1

/-- The entries in order. -/
def toList : Tree α → List α
  | nil => []
  | node _ l x r => l.toList ++ x :: r.toList

/-- No red node has a red child, and every way down meets the same number of black
nodes. -/
inductive Balanced : Tree α → Color → ℕ → Prop
  | nil : Balanced nil .black 0
  | red {l r : Tree α} {x : α} {n : ℕ} : Balanced l .black n → Balanced r .black n →
      Balanced (node .red l x r) .red n
  | black {l r : Tree α} {x : α} {n : ℕ} {c c' : Color} : Balanced l c n → Balanced r c' n →
      Balanced (node .black l x r) .black (n + 1)

variable {d : Dir} {c c' : Color} {t a b : Tree α} {x : α} {n : ℕ}

@[simp] theorem child_join_near : (join d c a x b).child d = a := by cases d <;> rfl

@[simp] theorem child_join_far : (join d c a x b).child d.flip = b := by cases d <;> rfl

@[simp] theorem rootEntry_join : (join d c a x b).rootEntry = some x := by cases d <;> rfl

@[simp] theorem isRed_join : (join d c a x b).isRed = (c == .red) := by cases d <;> rfl

@[simp] theorem setColor_join : (join d c a x b).setColor c' = join d c' a x b := by cases d <;> rfl

theorem join_flip : join d.flip c a x b = join d c b x a := by cases d <;> rfl

theorem eq_nil_or_join (d : Dir) (t : Tree α) :
    t = nil ∨ ∃ c a x b, t = join d c a x b := by
  cases t with
  | nil => exact Or.inl rfl
  | node c l x r =>
      cases d with
      | left => exact Or.inr ⟨c, l, x, r, rfl⟩
      | right => exact Or.inr ⟨c, r, x, l, rfl⟩

@[simp] theorem toList_setColor : (t.setColor c).toList = t.toList := by cases t <;> rfl

@[simp] theorem setColor_eq_nil : t.setColor c = nil ↔ t = nil := by cases t <;> simp [setColor]

theorem rootEntry_eq_some : t.rootEntry = some x ↔ ∃ c a b, t = join d c a x b := by
  rcases eq_nil_or_join d t with rfl | ⟨c, a, y, b, rfl⟩
  · simp only [rootEntry, reduceCtorEq, false_iff]
    rintro ⟨c, a, b, h⟩
    cases d <;> cases h
  · simp only [rootEntry_join, Option.some.injEq]
    constructor
    · rintro rfl
      exact ⟨c, a, b, rfl⟩
    · rintro ⟨c', a', b', h⟩
      cases d <;> cases h <;> rfl

theorem mem_toList_join {y : α} :
    y ∈ (join d c a x b).toList ↔ y ∈ a.toList ∨ y = x ∨ y ∈ b.toList := by
  cases d
  · simp [join, toList]
  · simp [join, toList]
    tauto

theorem nodup_toList_join : (join d c a x b).toList.Nodup ↔
    a.toList.Nodup ∧ b.toList.Nodup ∧ x ∉ a.toList ∧ x ∉ b.toList ∧
      a.toList.Disjoint b.toList := by
  cases d
  · simp [join, toList, List.nodup_append, List.Disjoint]
    grind
  · simp [join, toList, List.nodup_append, List.Disjoint]
    grind

/-- A rotation keeps the order of the entries. -/
theorem toList_rotate {e e' g : Color} {s : Tree α} {y : α} :
    (join d c (join d g a x b) y s).toList = (join d e a x (join d e' b y s)).toList := by
  cases d <;> simp [join, toList]

namespace Balanced

theorem join_red (ha : Balanced a .black n) (hb : Balanced b .black n) :
    Balanced (join d .red a x b) .red n := by
  cases d
  · exact .red ha hb
  · exact .red hb ha

theorem join_black {ca cb : Color} (ha : Balanced a ca n) (hb : Balanced b cb n) :
    Balanced (join d .black a x b) .black (n + 1) := by
  cases d
  · exact .black ha hb
  · exact .black hb ha

/-- The color of a balanced tree is the color of its root. -/
theorem color_eq (h : Balanced t c n) : t.isRed = (c == .red) := by
  cases h <;> rfl

theorem of_join_red (h : Balanced (join d .red a x b) c n) :
    c = .red ∧ Balanced a .black n ∧ Balanced b .black n := by
  cases d <;> cases h with | red h1 h2 => exact ⟨rfl, by assumption, by assumption⟩

theorem of_join_black (h : Balanced (join d .black a x b) c n) :
    c = .black ∧ ∃ m, n = m + 1 ∧ (∃ ca, Balanced a ca m) ∧ ∃ cb, Balanced b cb m := by
  cases d <;> cases h with
    | black h1 h2 => exact ⟨rfl, _, rfl, ⟨_, by assumption⟩, ⟨_, by assumption⟩⟩

theorem of_join (h : Balanced (join d c' a x b) c n) : c = c' := by
  cases c' with
  | red => exact h.of_join_red.1
  | black => exact h.of_join_black.1

theorem setColor_black (h : Balanced t c n) : ∃ m, Balanced (t.setColor .black) .black m := by
  cases h with
  | nil => exact ⟨0, .nil⟩
  | red h1 h2 => exact ⟨_, .black h1 h2⟩
  | black h1 h2 => exact ⟨_, .black h1 h2⟩

/-- Blackening a black tree changes nothing. -/
theorem blacken (h : Balanced t .black n) : Balanced (t.setColor .black) .black n := by
  cases h with
  | nil => exact .nil
  | black h1 h2 => exact .black h1 h2

/-- Blackening a red tree makes it higher. -/
theorem setColor_red (h : Balanced t .red n) : Balanced (t.setColor .black) .black (n + 1) := by
  cases h with
  | red h1 h2 => exact .black h1 h2

theorem eq_nil (h : Balanced t .black 0) : t = Tree.nil := by
  cases h
  rfl

theorem ne_nil (h : Balanced t c (n + 1)) : t ≠ Tree.nil := by
  rintro rfl
  cases h

end Balanced

end Tree

/-- A node above the end of a path: the side the path comes from, and the subtree on
the other side. -/
structure Frame (α : Type*) where
  dir : Dir
  color : Color
  entry : α
  other : Tree α
deriving DecidableEq, Repr

/-- The node with the subtree put back. -/
def Frame.fill (f : Frame α) (t : Tree α) : Tree α := t.join f.dir f.color f.entry f.other

/-- The nodes from the parent up to the root. -/
abbrev Path (α : Type*) := List (Frame α)

namespace Path

def zip : Tree α → Path α → Tree α
  | t, [] => t
  | t, f :: p => zip (f.fill t) p

/-- The entries before and after the end of the path. -/
def before : Path α → List α
  | [] => []
  | f :: p => before p ++ match f.dir with
    | .left => []
    | .right => f.other.toList ++ [f.entry]

def after : Path α → List α
  | [] => []
  | f :: p => (match f.dir with
    | .left => f.entry :: f.other.toList
    | .right => []) ++ after p

open RbTree.Tree

/-- The path of a balanced tree with a black root, with a tree of the color and the
height missing at its end. -/
inductive Hole : Path α → Color → ℕ → Prop
  | root {n : ℕ} : Hole [] .black n
  | red {f : Frame α} {p : Path α} {n : ℕ} : f.color = .red → Balanced f.other .black n →
      Hole p .red n → Hole (f :: p) .black n
  | black {f : Frame α} {p : Path α} {n : ℕ} {c c' : Color} : f.color = .black →
      Balanced f.other c' n → Hole p .black (n + 1) → Hole (f :: p) c n

variable {t : Tree α} {p q : Path α} {f : Frame α} {c : Color} {n : ℕ}

theorem zip_append (t : Tree α) (p q : Path α) : zip t (p ++ q) = zip (zip t p) q := by
  induction p generalizing t with
  | nil => rfl
  | cons f p ih => exact ih _

theorem toList_fill : (f.fill t).toList = before [f] ++ t.toList ++ after [f] := by
  cases f with
  | mk d c x o => cases d <;> simp [Frame.fill, join, toList, before, after]

theorem toList_zip : (zip t p).toList = before p ++ t.toList ++ after p := by
  induction p generalizing t with
  | nil => simp [zip, before, after]
  | cons f p ih =>
      rw [zip, ih, toList_fill]
      simp [before, after, List.append_assoc]

theorem before_append : before (p ++ q) = before q ++ before p := by
  induction p with
  | nil => simp [before]
  | cons f p ih => simp [before, ih, List.append_assoc]

theorem after_append : after (p ++ q) = after p ++ after q := by
  induction p with
  | nil => simp [after]
  | cons f p ih => simp [after, ih, List.append_assoc]

theorem Hole.zip (hp : Hole p c n) (ht : Balanced t c n) :
    ∃ m, Balanced (Path.zip t p) .black m := by
  induction hp generalizing t with
  | root => exact ⟨_, ht⟩
  | @red f p n hf ho _ ih =>
      refine ih ?_
      rw [Frame.fill, hf]
      exact .join_red ht ho
  | @black f p n c c' hf ho _ ih =>
      refine ih ?_
      rw [Frame.fill, hf]
      exact .join_black ht ho

/-- A black tree is missing below a red node only, and above it there is a black one. -/
theorem Hole.of_red (hf : f.color = .red) (h : Hole (f :: p) c n) :
    c = .black ∧ Balanced f.other .black n ∧ Hole p .red n := by
  cases h with
  | red _ ho hp => exact ⟨rfl, ho, hp⟩
  | black hb => simp [hf] at hb

theorem Hole.of_black (hf : f.color = .black) (h : Hole (f :: p) c n) :
    (∃ c', Balanced f.other c' n) ∧ Hole p .black (n + 1) := by
  cases h with
  | red hr => simp [hf] at hr
  | black _ ho hp => exact ⟨⟨_, ho⟩, hp⟩

/-- A red tree is missing below a black node. -/
theorem Hole.exists_black (h : Hole p .red n) : ∃ f q c, p = f :: q ∧ f.color = .black ∧
    Balanced f.other c n ∧ Hole q .black (n + 1) := by
  cases h with
  | black hf ho hp => exact ⟨_, _, _, rfl, hf, ho, hp⟩

theorem Hole.black_of (h : Hole p c n) (hn : p = [] ∨ ∃ f q, p = f :: q ∧ f.color = .black) :
    Hole p .black n := by
  cases h with
  | root => exact .root
  | red hf ho hp => exact .red hf ho hp
  | black hf ho hp => exact .black hf ho hp

end Path

end RbTree
