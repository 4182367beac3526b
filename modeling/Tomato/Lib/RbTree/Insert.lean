import Tomato.Lib.RbTree.Augment

/-!
# Insertion

The search for the place of a new node in `rb_find_add_augmented_linked`, and
`__rb_insert`, which repairs the colors above it. A null pointer that is followed is
the value `none`.
-/

namespace RbTree

open RbTree.Path
open RbTree.Tree (join Balanced eq_nil_or_join child_join_near child_join_far rootEntry_join isRed_join
  augOk_join maxOf_join maxOf_eq_of_toList mem_toList_join nodup_toList_join toList_rotate AugOk.rotate)

variable {α : Type*}

/-- The descent of `rb_find_add_augmented_linked`, where `cmp` compares the new node
with the one that is met. The result is the node that compares as equal, or the path
to the place of the new one. -/
def findPlace (cmp : α → Ordering) : Tree α → Path α → Except α (Path α)
  | .nil, path => .ok path
  | .node c l x r, path => match cmp x with
    | .lt => findPlace cmp l (⟨.left, c, x, r⟩ :: path)
    | .gt => findPlace cmp r (⟨.right, c, x, l⟩ :: path)
    | .eq => .error x

section

variable [DecidableEq α] (value : α → ℕ)

/-- Case 3 of `__rb_insert`: rotate at the grandparent. The parent has the children
`near` and `far`. -/
def insertRotate (gparent : Frame α) (near : Tree α) (parent : α) (far : Tree α) (aug : α → ℕ) :
    Tree α × (α → ℕ) :=
  let d := gparent.dir
  let g := join d .red (far.setColor .black) gparent.entry gparent.other
  (join d gparent.color near parent g, augmentRotate value aug g parent)

/-- The loop of `__rb_insert`. The node is red. -/
def insertFix : Tree α → Path α → (α → ℕ) → Option (Tree α × (α → ℕ))
  | node, [], aug => some (node.setColor .black, aug)
  | node, parent :: path, aug =>
    if parent.color = .black then some (zip node (parent :: path), aug)
    else match path with
      | [] => none
      | gparent :: path =>
        if gparent.other.isRed then
          -- Case 1 - color flips
          let gparent := { gparent with color := .red, other := gparent.other.setColor .black }
          let parent := { parent with color := .black }
          insertFix (gparent.fill (parent.fill node)) path aug
        else if parent.dir = gparent.dir then
          let (t, aug) := insertRotate value gparent node parent.entry parent.other aug
          some (zip t path, aug)
        else
          -- Case 2 - rotate at the parent
          let d := gparent.dir
          node.rootEntry.map fun x =>
            let p := join d .red parent.other parent.entry ((node.child d).setColor .black)
            let aug := augmentRotate value aug p x
            let (t, aug) := insertRotate value gparent p x (node.child d.flip) aug
            (zip t path, aug)

/-- `rb_find_add_augmented_linked` without the links. -/
def findAdd (cmp : α → Ordering) (x : α) (tree : Tree α) (aug : α → ℕ) :
    Option (Except α (Tree α × (α → ℕ))) :=
  match findPlace cmp tree [] with
  | .error y => some (.error y)
  | .ok path =>
    let leaf : Tree α := .node .red .nil x .nil
    (insertFix value leaf path (propagate value leaf path aug)).map .ok

end

variable {cmp : α → Ordering} {value aug : α → ℕ} {t node near far : Tree α} {p path : Path α}
  {f g : Frame α} {x : α} {n : ℕ}

/-- The descent ends at a hole of the tree, next to which the new node compares as it
should. -/
theorem findPlace_ok (h : findPlace cmp t p = .ok path) : zip .nil path = zip t p := by
  induction t generalizing p with
  | nil =>
      simp only [findPlace, Except.ok.injEq] at h
      rw [h]
  | node c l x r ihl ihr =>
      rw [findPlace] at h
      split at h
      · exact ihl h
      · exact ihr h
      · simp at h

theorem findPlace_error (h : findPlace cmp t p = .error x) : x ∈ t.toList ∧ cmp x = .eq := by
  induction t generalizing p with
  | nil => simp [findPlace] at h
  | node c l y r ihl ihr =>
      rw [findPlace] at h
      split at h
      · exact ⟨by simp [Tree.toList, (ihl h).1], (ihl h).2⟩
      · exact ⟨by simp [Tree.toList, (ihr h).1], (ihr h).2⟩
      · rename_i hy
        obtain rfl : y = x := by simpa using h
        exact ⟨by simp [Tree.toList], hy⟩

/-- The hole of a balanced tree is black and of height 0. -/
theorem findPlace_hole {c : Color} (h : findPlace cmp t p = .ok path) (ht : Balanced t c n)
    (hp : Hole p c n) : Hole path .black 0 := by
  induction ht generalizing p with
  | nil =>
      simp only [findPlace, Except.ok.injEq] at h
      exact h ▸ hp
  | red hl hr ihl ihr =>
      rw [findPlace] at h
      split at h
      · exact ihl h (.red rfl hr hp)
      · exact ihr h (.red rfl hl hp)
      · simp at h
  | black hl hr ihl ihr =>
      rw [findPlace] at h
      split at h
      · exact ihl h (.black rfl hr hp)
      · exact ihr h (.black rfl hl hp)
      · simp at h

/-- What a change of the colors and the shape of the tree `t` leaves behind. -/
structure Reshaped (value aug aug' : α → ℕ) (t t' : Tree α) : Prop where
  toList : t'.toList = t.toList
  augOk : t'.AugOk value aug'
  same : ∀ z, z ∉ t.toList → aug' z = aug z

namespace Reshaped

variable {aug' aug'' : α → ℕ} {t' t'' : Tree α}

theorem trans (h : Reshaped value aug aug' t t') (h' : Reshaped value aug' aug'' t' t'') :
    Reshaped value aug aug'' t t'' :=
  ⟨h'.toList.trans h.toList, h'.augOk,
    fun z hz => (h'.same z (h.toList ▸ hz)).trans (h.same z hz)⟩

/-- A subtree may be reshaped alone. -/
theorem zip (h : Reshaped value aug aug' t t') (hok : (Path.zip t path).AugOk value aug)
    (hnd : (Path.zip t path).toList.Nodup) :
    Reshaped value aug aug' (Path.zip t path) (Path.zip t' path) := by
  rw [augOk_zip] at hok
  rw [nodup_zip] at hnd
  refine ⟨by rw [toList_zip, toList_zip, h.toList], ?_, ?_⟩
  · rw [augOk_zip, maxOf_eq_of_toList h.toList]
    exact ⟨h.augOk, hok.2.congr fun z hz => h.same z fun hzt => hnd.2.2 hzt hz⟩
  · intro z hz
    rw [mem_zip, not_or] at hz
    exact h.same z hz.1

end Reshaped

/-- The two trees differ in the color of the root at most. -/
def Recolored (t t' : Tree α) : Prop := t' = t ∨ ∃ c, t' = t.setColor c

theorem Recolored.toList (h : Recolored t near) : near.toList = t.toList := by
  obtain rfl | ⟨c, rfl⟩ := h <;> simp

theorem Recolored.augOk (h : Recolored t near) : near.AugOk value aug ↔ t.AugOk value aug := by
  obtain rfl | ⟨c, rfl⟩ := h <;> simp

theorem Recolored.reshaped (h : Recolored t near) (hok : t.AugOk value aug) :
    Reshaped value aug aug t near := ⟨h.toList, h.augOk.mpr hok, fun _ _ => rfl⟩

/-- A rotation reshapes the tree, whatever the colors are. -/
theorem Reshaped.rotate [DecidableEq α] {d : Dir} {c₁ c₂ e f : Color} {a b s a' b' : Tree α}
    {x y : α} (hok : (join d c₁ (join d c₂ a y b) x s).AugOk value aug)
    (hnd : (join d c₁ (join d c₂ a y b) x s).toList.Nodup) (ha : Recolored a a')
    (hb : Recolored b b') :
    Reshaped value aug (augmentRotate value aug (join d e b' x s) y)
      (join d c₁ (join d c₂ a y b) x s) (join d f a' y (join d e b' x s)) := by
  have he : (join d f a' y (join d e b' x s)).toList =
      (join d c₁ (join d c₂ a y b) x s).toList := by
    rw [← toList_rotate (c := c₁) (g := c₂)]
    cases d <;> simp [join, Tree.toList, ha.toList, hb.toList]
  rw [augOk_join, augOk_join, maxOf_join] at hok
  obtain ⟨hx, ⟨hy, ha1, hb1⟩, hs⟩ := hok
  refine ⟨he, AugOk.rotate ?_ (ha.augOk.mpr ha1) (hb.augOk.mpr hb1) hs (he ▸ hnd), ?_⟩
  · rw [hx, maxOf_eq_of_toList ha.toList, maxOf_eq_of_toList hb.toList]
    omega
  · intro z hz
    simp only [mem_toList_join, not_or] at hz
    exact augmentRotate_of_ne (rootEntry_join) hz.2.1 hz.1.2.1

theorem eq_or_eq_flip (d e : Dir) : d = e ∨ d = e.flip := by
  cases d <;> cases e <;> simp [Dir.flip]

theorem flip_ne (d : Dir) : d.flip ≠ d := by
  cases d <;> simp [Dir.flip]

/-- Case 3 of `__rb_insert`. -/
theorem insertRotate_spec [DecidableEq α] {c : Color}
    (hok : (g.fill (join g.dir c near x far)).AugOk value aug)
    (hnd : (g.fill (join g.dir c near x far)).toList.Nodup) (hg : g.color = .black)
    (hnear : Balanced near .red n) (hfar : Balanced far .black n)
    (hother : Balanced g.other .black n) :
    ∃ t' aug', insertRotate value g near x far aug = (t', aug') ∧
      Reshaped value aug aug' (g.fill (join g.dir c near x far)) t' ∧
      Balanced t' .black (n + 1) := by
  refine ⟨_, _, rfl, Reshaped.rotate hok hnd (Or.inl rfl) (Or.inr ⟨.black, rfl⟩), ?_⟩
  rw [hg]
  exact .join_black hnear (.join_red hfar.blacken hother)

/-- Inserting keeps the order, repairs the colors and keeps the data right. -/
theorem insertFix_spec [DecidableEq α] (hn : Balanced node .red n) (hp : Hole path .black n)
    (hok : (zip node path).AugOk value aug) (hnd : (zip node path).toList.Nodup) :
    ∃ t' aug', insertFix value node path aug = some (t', aug') ∧
      Reshaped value aug aug' (zip node path) t' ∧ ∃ m, Balanced t' .black m := by
  obtain ⟨k, hk⟩ : ∃ k, path.length = k := ⟨_, rfl⟩
  induction k using Nat.strong_induction_on generalizing node path n aug with
  | _ k ih =>
    match path, hk with
    | [], _ =>
      exact ⟨_, _, rfl, ⟨by simp [zip], by simpa [zip] using hok, fun _ _ => rfl⟩,
        hn.setColor_black⟩
    | f :: path, hk =>
      rw [insertFix.eq_def]
      simp only
      split
      · rename_i hf
        obtain ⟨⟨c, ho⟩, hp'⟩ := hp.of_black hf
        exact ⟨_, _, rfl, ⟨rfl, hok, fun _ _ => rfl⟩, (Hole.black hf ho hp').zip hn⟩
      rename_i hf
      have hred : f.color = .red := by
        cases hc : f.color with
        | red => rfl
        | black => exact absurd hc hf
      obtain ⟨-, ho, hp'⟩ := hp.of_red hred
      obtain ⟨g, q, cg, rfl, hg, hgo, hq⟩ := hp'.exists_black
      simp only
      have hfill : zip node (f :: g :: q) = zip (g.fill (f.fill node)) q := rfl
      rw [hfill] at hok hnd ⊢
      split
      · -- Case 1
        rename_i hu
        obtain rfl : cg = .red := by
          rw [hgo.color_eq] at hu
          simpa using hu
        have hbal := Balanced.join_red (d := g.dir) (x := g.entry)
          (Balanced.join_black (d := f.dir) (x := f.entry) hn ho) hgo.setColor_red
        have hre : Reshaped value aug aug (g.fill (f.fill node))
            (join g.dir .red (join f.dir .black node f.entry f.other) g.entry
              (g.other.setColor .black)) := by
          rw [augOk_zip] at hok
          refine ⟨?_, ?_, fun _ _ => rfl⟩
          · cases hgd : g.dir <;> cases hfd : f.dir <;>
              simp [Frame.fill, join, Tree.toList, hgd, hfd]
          · simpa [Frame.fill] using hok.1
        have hre' := hre.zip hok hnd
        obtain ⟨t', aug', e, hr, hm⟩ := ih q.length (by simp only [List.length_cons] at hk; omega)
          hbal hq hre'.augOk (hre'.toList ▸ hnd) rfl
        exact ⟨t', aug', e, hre'.trans hr, hm⟩
      rename_i hu
      obtain rfl : cg = .black := by
        rw [hgo.color_eq] at hu
        cases cg <;> simp_all
      have hok' := (augOk_zip.mp hok).1
      have hnd' := (nodup_zip.mp hnd).1
      split
      · -- Case 3
        rename_i hd
        have hpar : f.fill node = join g.dir f.color node f.entry f.other := by rw [Frame.fill, hd]
        rw [hpar] at hok' hnd' hok hnd ⊢
        obtain ⟨t', aug', e, hr, hb⟩ := insertRotate_spec hok' hnd' hg hn ho hgo
        rw [e]
        exact ⟨_, _, rfl, hr.zip hok hnd, hq.zip hb⟩
      · -- Case 2 and 3
        rename_i hd
        have hflip : f.dir = g.dir.flip := (eq_or_eq_flip _ _).resolve_left hd
        obtain rfl | ⟨c, a, y, b, rfl⟩ := eq_nil_or_join g.dir node
        · cases hn
        obtain rfl := hn.of_join
        obtain ⟨-, ha, hb⟩ := hn.of_join_red
        -- the parent and the node seen from the other side
        have hpar : f.fill (join g.dir .red a y b) =
            join g.dir.flip f.color (join g.dir.flip .red b y a) f.entry f.other := by
          rw [Frame.fill, hflip, Tree.join_flip (c := .red)]
        have hnew : join g.dir .red (join g.dir .red f.other f.entry (a.setColor .black)) y b =
            join g.dir.flip .red b y (join g.dir.flip .red (a.setColor .black) f.entry f.other) := by
          rw [Tree.join_flip, Tree.join_flip]
        have hok1 := hok'
        have hnd1 := hnd'
        rw [Frame.fill, augOk_join] at hok1
        rw [Frame.fill, nodup_toList_join] at hnd1
        rw [hpar] at hok1 hnd1
        have hr1 : Reshaped value aug _ _ (join _ .red _ _ (join _ .red _ _ _)) :=
          Reshaped.rotate hok1.2.1 hnd1.1 (Or.inl rfl) (Or.inr ⟨.black, rfl⟩)
        rw [← hpar, ← hnew, Tree.join_flip] at hr1
        have hr2 := (show Reshaped value aug _ (zip _ [g]) (zip _ [g]) from hr1.zip hok' hnd')
        obtain ⟨t', aug', e, hr, hbal⟩ := insertRotate_spec hr2.augOk (hr2.toList ▸ hnd') hg
          (.join_red ho ha.blacken) hb hgo
        simp only [rootEntry_join, Option.map_some, child_join_near, child_join_far, e]
        exact ⟨_, _, rfl, (hr2.trans hr).zip hok hnd, hq.zip hbal⟩

/-- A new node whose own data is right is inserted at the place that the search leads
to, or a node that compares as equal is there already. -/
theorem findAdd_spec [DecidableEq α] (cmp : α → Ordering) (ht : Balanced t .black n)
    (hok : t.AugOk value aug) (hnd : t.toList.Nodup) (hx : x ∉ t.toList) (haug : aug x = value x) :
    (∃ y ∈ t.toList, cmp y = .eq ∧ findAdd value cmp x t aug = some (.error y)) ∨
      ∃ path t' aug', findPlace cmp t [] = .ok path ∧
        findAdd value cmp x t aug = some (.ok (t', aug')) ∧
        t.toList = before path ++ after path ∧ t'.toList = before path ++ x :: after path ∧
        t'.AugOk value aug' ∧ (∀ z, z ∉ t'.toList → aug' z = aug z) ∧
        ∃ m, Balanced t' .black m := by
  unfold findAdd
  cases hf : findPlace cmp t [] with
  | error y => exact Or.inl ⟨y, (findPlace_error hf).1, (findPlace_error hf).2, rfl⟩
  | ok path =>
    have hz : zip .nil path = t := findPlace_ok hf
    have hlist : t.toList = before path ++ after path := by
      rw [← hz, toList_zip]
      simp [Tree.toList]
    let leaf : Tree α := .node .red .nil x .nil
    have hleaf : (zip leaf path).toList = before path ++ x :: after path := by
      rw [toList_zip]
      simp [leaf, Tree.toList]
    have hnd' : (zip leaf path).toList.Nodup := by
      rw [hlist] at hnd hx
      rw [hleaf]
      simp only [List.nodup_append, List.nodup_cons, List.mem_append, List.mem_cons] at *
      grind
    have hlok : leaf.AugOk value aug := ⟨by simp [Tree.maxOf, haug], trivial, trivial⟩
    have hpok : Above value aug path := by
      rw [← hz, augOk_zip] at hok
      exact hok.2.above
    obtain ⟨h1, h2⟩ := propagate_spec hlok hpok hnd'
    obtain ⟨t', aug', e, hr, hb⟩ := insertFix_spec (.red .nil .nil)
      (findPlace_hole hf ht .root) h1 hnd'
    refine Or.inr ⟨path, t', aug', rfl, by simp [leaf, e], hlist, hr.toList.trans hleaf, hr.augOk,
      ?_, hb⟩
    intro z hz
    rw [hr.toList] at hz
    rw [hr.same z hz, h2 z fun hzp => hz (mem_zip.mpr (Or.inr hzp))]

end RbTree
