import Tomato.Lib.RbTree.Insert

/-!
# Erasing

`__rb_erase_augmented`, which takes a node out of the tree and makes the data right,
and `__rb_erase_color`, which repairs the colors above the hole.
-/

namespace RbTree

open RbTree.Path
open RbTree.Tree (join Balanced eq_nil_or_join child_join_near child_join_far rootEntry_join isRed_join
  augOk_join maxOf_join maxOf_eq_of_toList mem_toList_join nodup_toList_join)

variable {α : Type*}

/-- What one turn of the loop in `__rb_erase_color` leads to: it is done with the
subtree of the parent, or goes on with it one node further up. -/
inductive EraseStep (α : Type*)
  | done (t : Tree α) (aug : α → ℕ)
  | up (t : Tree α) (aug : α → ℕ)

section

variable [DecidableEq α] (value : α → ℕ)

/-- Case 4: rotate at the parent. The sibling has the children `near` and `far`. -/
def eraseRotate (node : Tree α) (parent : Frame α) (near : Tree α) (sibling : α) (far : Tree α)
    (aug : α → ℕ) : EraseStep α :=
  let d := parent.dir
  let p := join d .black node parent.entry near
  .done (join d parent.color p sibling (far.setColor .black)) (augmentRotate value aug p sibling)

/-- Case 2 to 4, where the sibling is black. -/
def eraseSibling (node : Tree α) (parent : Frame α) (aug : α → ℕ) : Option (EraseStep α) :=
  let d := parent.dir
  parent.other.rootEntry.bind fun sibling =>
    let near := parent.other.child d
    let far := parent.other.child d.flip
    if far.isRed then some (eraseRotate value node parent near sibling far aug)
    else if near.isRed then
      -- Case 3 - rotate at the sibling
      near.rootEntry.map fun x =>
        let s := join d .black (((near.child d.flip).setColor .black)) sibling far
        eraseRotate value node parent (near.child d) x s (augmentRotate value aug s x)
    else
      -- Case 2 - color flip
      let parent := { parent with other := parent.other.setColor .red }
      if parent.color = .red then some (.done ({ parent with color := .black }.fill node) aug)
      else some (.up (parent.fill node) aug)

/-- The loop of `__rb_erase_color`. -/
def eraseFix : Tree α → Path α → (α → ℕ) → Option (Tree α × (α → ℕ))
  | _, [], _ => none
  | node, parent :: path, aug =>
    if parent.other.isRed then
      -- Case 1 - rotate at the parent
      let d := parent.dir
      let near := parent.other.child d
      parent.other.rootEntry.bind fun sibling => near.rootEntry.bind fun _ =>
        let above : Frame α := ⟨d, parent.color, sibling, parent.other.child d.flip⟩
        let parent := { parent with color := .red, other := near.setColor .black }
        let aug := augmentRotate value aug (parent.fill node) sibling
        match eraseSibling value node parent aug with
        | some (.done t aug) => some (zip t (above :: path), aug)
        -- the parent is red when coming from case 1, so the loop ends here
        | _ => none
    else match eraseSibling value node parent aug with
      | none => none
      | some (.done t aug) => some (zip t path, aug)
      | some (.up t aug) => match path with
        | [] => some (t, aug)
        | path => eraseFix t path aug

/-- The leftmost node of the tree, and the path to it. -/
def popFirst : Tree α → Path α → Option (Color × α × Tree α × Path α)
  | .nil, _ => none
  | .node c .nil x r, path => some (c, x, r, path)
  | .node c l x r, path => popFirst l (⟨.left, c, x, r⟩ :: path)

/-- The end of `__rb_erase_augmented` with no child in the place of a node of the color
`c`, and the call of `__rb_erase_color` where it is needed. -/
def rebalance (c : Color) (path : Path α) (aug : α → ℕ) : Option (Tree α × (α → ℕ)) :=
  match c, path with
  | .black, parent :: path => eraseFix value .nil (parent :: path) aug
  | _, path => some (zip .nil path, aug)

/-- `rb_erase_augmented` of the node with the tree below and the path above it. -/
def eraseAt : Tree α → Path α → (α → ℕ) → Option (Tree α × (α → ℕ))
  | .nil, _, _ => none
  -- Case 1 - at most one child, which takes the color of the node
  | .node c .nil _ r, path, aug =>
    let aug := propagate value r path aug
    match r with
    | .nil => rebalance value c path aug
    | child => some (zip (child.setColor c) path, aug)
  | .node c l _ .nil, path, aug =>
    some (zip (l.setColor c) path, propagate value l path aug)
  -- Case 2 and 3 - the successor takes the place of the node
  | .node c l x r, path, aug =>
    (popFirst r []).bind fun (color, successor, child, frames) =>
      let above : Frame α := ⟨.right, c, successor, l⟩
      let aug := augmentCopy aug x successor
      let aug := propagate value child frames aug
      let aug := propagate value (zip child frames) (above :: path) aug
      match child with
      | .nil => rebalance value color (frames ++ above :: path) aug
      | child => some (zip (child.setColor .black) (frames ++ above :: path), aug)

/-- The node that a pointer points to: the tree below and the path above it. -/
def locate (x : α) : Tree α → Path α → Option (Tree α × Path α)
  | .nil, _ => none
  | .node c l y r, path =>
    if y = x then some (.node c l y r, path)
    else (locate x l (⟨.left, c, y, r⟩ :: path)).or (locate x r (⟨.right, c, y, l⟩ :: path))

/-- `rb_erase_augmented`, where the node is given by its pointer. -/
def erase (x : α) (tree : Tree α) (aug : α → ℕ) : Option (Tree α × (α → ℕ)) :=
  (locate x tree []).bind fun (node, path) => eraseAt value node path aug

end

variable {value aug : α → ℕ} {t l r node child : Tree α} {p path frames : Path α} {f parent : Frame α}
  {x : α} {c : Color} {n m : ℕ}

/-- The two parts of a balanced tree fit together. -/
theorem exists_hole (h : Balanced (zip t path) .black n) :
    ∃ c m, Balanced t c m ∧ Hole path c m := by
  induction path generalizing t with
  | nil => exact ⟨_, _, h, .root⟩
  | cons f p ih =>
      obtain ⟨c, m, hb, hp⟩ := ih h
      cases hf : f.color with
      | red =>
        rw [Frame.fill, hf] at hb
        obtain ⟨rfl, ht, ho⟩ := hb.of_join_red
        exact ⟨_, _, ht, .red hf ho hp⟩
      | black =>
        rw [Frame.fill, hf] at hb
        obtain ⟨rfl, k, rfl, ⟨ca, ht⟩, cb, ho⟩ := hb.of_join_black
        exact ⟨_, _, ht, .black hf ho hp⟩

theorem locate_eq_some [DecidableEq α] (h : locate x t p = some (node, path)) :
    zip node path = zip t p ∧ ∃ c l r, node = .node c l x r := by
  induction t generalizing p with
  | nil => simp [locate] at h
  | node c l y r ihl ihr =>
      rw [locate] at h
      split at h
      · rename_i hy
        subst hy
        simp only [Option.some.injEq, Prod.mk.injEq] at h
        obtain ⟨rfl, rfl⟩ := h
        exact ⟨rfl, _, _, _, rfl⟩
      · rcases Option.or_eq_some_iff.mp h with h | ⟨-, h⟩
        · exact ihl h
        · exact ihr h

theorem locate_isSome [DecidableEq α] (h : x ∈ t.toList) (p : Path α) : (locate x t p).isSome := by
  induction t generalizing p with
  | nil => simp [Tree.toList] at h
  | node c l y r ihl ihr =>
      rw [locate]
      split
      · rfl
      · rename_i hy
        simp only [Tree.toList, List.mem_append, List.mem_cons] at h
        rcases h with h | rfl | h
        · simp [ihl h]
        · exact absurd rfl hy
        · simp [ihr h]

section

variable [DecidableEq α]

/-- The rotation at the parent that brings up its child `x` on the far side. -/
theorem Reshaped.rotate_far {d : Dir} {c₁ c₂ c₃ c₄ : Color} {a b s a' b' : Tree α} {x y : α}
    (hok : (join d c₁ s x (join d c₂ b y a)).AugOk value aug)
    (hnd : (join d c₁ s x (join d c₂ b y a)).toList.Nodup) (ha : Recolored a a')
    (hb : Recolored b b') :
    Reshaped value aug (augmentRotate value aug (join d c₃ s x b') y)
      (join d c₁ s x (join d c₂ b y a)) (join d c₄ (join d c₃ s x b') y a') := by
  simp only [← Tree.join_flip (d := d)] at *
  exact Reshaped.rotate hok hnd ha hb

/-- Case 4. -/
theorem eraseRotate_spec {near far : Tree α} {ca : Color}
    (hother : parent.other = join parent.dir c near x far)
    (hok : (parent.fill node).AugOk value aug) (hnd : (parent.fill node).toList.Nodup)
    (hnode : Balanced node .black n) (hnear : Balanced near ca n)
    (hfar : Balanced (far.setColor .black) .black (n + 1)) :
    ∃ t aug', eraseRotate value node parent near x far aug = .done t aug' ∧
      Reshaped value aug aug' (parent.fill node) t ∧
      (parent.color = .red → Balanced t .red (n + 1)) ∧
      (parent.color = .black → Balanced t .black (n + 2)) := by
  have hp : Balanced (join parent.dir .black node parent.entry near) .black (n + 1) :=
    .join_black hnode hnear
  rw [Frame.fill, hother] at hok hnd ⊢
  refine ⟨_, _, rfl, Reshaped.rotate_far hok hnd (Or.inr ⟨.black, rfl⟩) (Or.inl rfl), ?_, ?_⟩
  · intro hc
    rw [hc]
    exact .join_red hp hfar
  · intro hc
    rw [hc]
    exact .join_black hp hfar

/-- Case 2 to 4: either the height is right again, or the subtree of the parent is one
too low. -/
theorem eraseSibling_spec (hok : (parent.fill node).AugOk value aug)
    (hnd : (parent.fill node).toList.Nodup) (hnode : Balanced node .black n)
    (hother : Balanced parent.other .black (n + 1)) :
    (∃ t aug', eraseSibling value node parent aug = some (.done t aug') ∧
      Reshaped value aug aug' (parent.fill node) t ∧
      (parent.color = .red → ∃ c, Balanced t c (n + 1)) ∧
      (parent.color = .black → Balanced t .black (n + 2))) ∨
    (parent.color = .black ∧ ∃ t, eraseSibling value node parent aug = some (.up t aug) ∧
      Reshaped value aug aug (parent.fill node) t ∧ Balanced t .black (n + 1)) := by
  obtain h | ⟨c, near, x, far, hj⟩ := eq_nil_or_join parent.dir parent.other
  · exact absurd h hother.ne_nil
  have hother' := hother
  rw [hj] at hother'
  obtain rfl := hother'.of_join
  obtain ⟨-, k, hk, ⟨ca, hnear⟩, cb, hfar⟩ := hother'.of_join_black
  obtain rfl : n = k := by omega
  simp only [eraseSibling, hj, rootEntry_join, Option.bind_some, child_join_near, child_join_far,
    Tree.setColor_join]
  split
  · -- Case 4
    rename_i hr
    obtain rfl : cb = .red := by
      rw [hfar.color_eq] at hr
      simpa using hr
    obtain ⟨t, aug', e, hre, h1, h2⟩ := eraseRotate_spec hj hok hnd hnode hnear hfar.setColor_red
    rw [e]
    exact Or.inl ⟨t, aug', rfl, hre, fun hc => ⟨_, h1 hc⟩, h2⟩
  rename_i hb
  obtain rfl : cb = .black := by
    rw [hfar.color_eq] at hb
    cases cb <;> simp_all
  split
  · -- Case 3
    rename_i hr
    obtain rfl : ca = .red := by
      rw [hnear.color_eq] at hr
      simpa using hr
    obtain rfl | ⟨c, a, y, b, rfl⟩ := eq_nil_or_join parent.dir near
    · cases hnear
    obtain rfl := hnear.of_join
    obtain ⟨-, ha, hb⟩ := hnear.of_join_red
    simp only [rootEntry_join, Option.map_some, child_join_near, child_join_far]
    let turned := join parent.dir .black (b.setColor .black) x far
    let parent' : Frame α := { parent with other := join parent.dir .red a y turned }
    let side : Frame α := ⟨parent.dir.flip, parent.color, parent.entry, node⟩
    have hside : ∀ t, side.fill t = ({ parent with other := t } : Frame α).fill node := fun t =>
      Tree.join_flip
    have hfill : parent.fill node = side.fill parent.other := (hside _).symm
    rw [hfill, hj] at hok hnd
    have hok' : (join parent.dir .black (join parent.dir .red a y b) x far).AugOk value aug :=
      (augOk_join.mp hok).2.1
    have hnd' := (nodup_toList_join.mp hnd).1
    have hr1 := Reshaped.rotate (e := .black) (f := .red) hok' hnd' (Or.inl rfl)
      (Or.inr ⟨.black, rfl⟩)
    have hr2 : Reshaped value aug (augmentRotate value aug turned y) (parent.fill node)
        (parent'.fill node) := by
      rw [hfill, hj, show parent'.fill node = side.fill (join parent.dir .red a y turned) from
        (hside _).symm]
      exact show Reshaped value aug _ (zip _ [side]) (zip _ [side]) from hr1.zip hok hnd
    have hturned : Balanced (turned.setColor .black) .black (n + 1) := by
      rw [Tree.setColor_join]
      exact .join_black hb.blacken hfar
    rw [← hj, ← hfill] at hnd
    have hpo : parent'.other = join parent'.dir .red a y turned := rfl
    obtain ⟨t, aug', e, hre, h1, h2⟩ := eraseRotate_spec hpo hr2.augOk (hr2.toList ▸ hnd) hnode
      ha hturned
    refine Or.inl ⟨t, aug', congrArg some e, hr2.trans hre, fun hc => ⟨_, h1 hc⟩, h2⟩
  · -- Case 2
    rename_i hr
    obtain rfl : ca = .black := by
      rw [hnear.color_eq] at hr
      cases ca <;> simp_all
    have hred : Balanced (join parent.dir .red near x far) .red n := .join_red hnear hfar
    have hre : ∀ c, Reshaped value aug aug (parent.fill node)
        (join parent.dir c node parent.entry (join parent.dir .red near x far)) := by
      intro c
      rw [Frame.fill, hj] at hok ⊢
      refine ⟨?_, by simpa using hok, fun _ _ => rfl⟩
      cases parent.dir <;> simp [join, Tree.toList]
    split
    · rename_i hc
      exact Or.inl ⟨_, aug, rfl, hre .black, fun _ => ⟨_, .join_black hnode hred⟩,
        fun hb => by simp [hc] at hb⟩
    · rename_i hc
      have hpb : parent.color = .black := by
        cases h : parent.color with
        | red => exact absurd h hc
        | black => rfl
      refine Or.inr ⟨hpb, _, rfl, ?_, ?_⟩
      · exact hre parent.color
      · rw [Frame.fill, hpb]
        exact .join_black hnode hred

/-- The tree below the path is one too low, and the loop makes up for it. -/
theorem eraseFix_spec (hnode : Balanced node .black n) (hne : path ≠ [])
    (hp : Hole path .black (n + 1)) (hok : (zip node path).AugOk value aug)
    (hnd : (zip node path).toList.Nodup) :
    ∃ t' aug', eraseFix value node path aug = some (t', aug') ∧
      Reshaped value aug aug' (zip node path) t' ∧ ∃ m, Balanced t' .black m := by
  induction path generalizing node n aug with
  | nil => exact absurd rfl hne
  | cons parent path ih =>
      have hok' := (augOk_zip.mp (show (zip (parent.fill node) path).AugOk value aug from hok)).1
      have hnd' := (nodup_zip.mp (show (zip (parent.fill node) path).toList.Nodup from hnd)).1
      rw [eraseFix]
      split
      · -- Case 1
        rename_i hr
        have hpc : parent.color = .black := by
          cases hc : parent.color with
          | black => rfl
          | red =>
            have := (hp.of_red hc).2.1.color_eq
            simp [hr] at this
        obtain ⟨⟨c', hother⟩, hup⟩ := hp.of_black hpc
        obtain rfl : c' = .red := by
          rw [hother.color_eq] at hr
          simpa using hr
        obtain h | ⟨c, near, x, far, hj⟩ := eq_nil_or_join parent.dir parent.other
        · exact absurd h hother.ne_nil
        rw [hj] at hother
        obtain rfl := hother.of_join
        obtain ⟨-, hnear, hfar⟩ := hother.of_join_red
        obtain h | ⟨cn, na, nx, nb, hnj⟩ := eq_nil_or_join parent.dir near
        · exact absurd h hnear.ne_nil
        have hentry : near.rootEntry = some nx := by rw [hnj, rootEntry_join]
        simp only [hj, rootEntry_join, Option.bind_some, child_join_near, child_join_far, hentry]
        let above : Frame α := ⟨parent.dir, parent.color, x, far⟩
        let parent' : Frame α := { parent with color := .red, other := near.setColor .black }
        let aug1 := augmentRotate value aug (parent'.fill node) x
        have hr1 : Reshaped value aug aug1 (parent.fill node) (above.fill (parent'.fill node)) := by
          rw [Frame.fill, hj] at hok' hnd' ⊢
          exact Reshaped.rotate_far hok' hnd' (Or.inl rfl) (Or.inr ⟨.black, rfl⟩)
        have hok1 := (augOk_zip.mp (show (zip (parent'.fill node) [above]).AugOk value aug1 from
          hr1.augOk)).1
        have hnd1 := (nodup_zip.mp (show (zip (parent'.fill node) [above]).toList.Nodup from
          hr1.toList ▸ hnd')).1
        have hrz := hr1.zip hok hnd
        have hhole : Hole (above :: path) .red (n + 1) := .black hpc hfar hup
        rcases eraseSibling_spec hok1 hnd1 hnode (show Balanced parent'.other .black (n + 1) from
          hnear.blacken) with ⟨t, aug', e, hre, hc, -⟩ | ⟨hb, -⟩
        · obtain ⟨c, hbal⟩ := hc rfl
          simp only [parent', aug1] at e
          rw [e]
          have hrz' : Reshaped value _ _ (zip _ (above :: path)) (zip _ (above :: path)) :=
            hre.zip hrz.augOk (hrz.toList ▸ hnd)
          refine ⟨_, _, rfl, hrz.trans hrz', ?_⟩
          cases c with
          | red => exact hhole.zip hbal
          | black => exact Hole.zip (.black hpc hfar hup) hbal
        · cases hb
      · -- the sibling is black
        rename_i hr
        have hother : Balanced parent.other .black (n + 1) := by
          cases hc : parent.color with
          | red => exact (hp.of_red hc).2.1
          | black =>
            obtain ⟨⟨c', ho⟩, -⟩ := hp.of_black hc
            cases c' with
            | black => exact ho
            | red => exact absurd ho.color_eq hr
        rcases eraseSibling_spec hok' hnd' hnode hother with
          ⟨t, aug', e, hre, hc, hb⟩ | ⟨hpb, t, e, hre, hbal⟩
        · rw [e]
          refine ⟨_, _, rfl, hre.zip hok hnd, ?_⟩
          cases hpc : parent.color with
          | red =>
            obtain ⟨c, hbal⟩ := hc hpc
            obtain ⟨f, q, cf, rfl, hf, ho, hq⟩ := (hp.of_red hpc).2.2.exists_black
            exact Hole.zip (.black hf ho hq) hbal
          | black => exact (hp.of_black hpc).2.zip (hb hpc)
        · rw [e]
          have hup := (hp.of_black hpb).2
          have hrz := hre.zip hok hnd
          cases path with
          | nil => exact ⟨_, _, rfl, hrz, _, hbal⟩
          | cons f q =>
            obtain ⟨t', aug', e', hre', hm⟩ := ih hbal (by simp) hup hrz.augOk (hrz.toList ▸ hnd)
            exact ⟨t', aug', e', hrz.trans hre', hm⟩

/-- A node without children is gone from below the path. -/
theorem rebalance_spec (hp : Hole path c (if c = .black then 1 else 0))
    (hok : (zip .nil path).AugOk value aug) (hnd : (zip .nil path).toList.Nodup) :
    ∃ t' aug', rebalance value c path aug = some (t', aug') ∧
      Reshaped value aug aug' (zip .nil path) t' ∧ ∃ m, Balanced t' .black m := by
  cases c with
  | red =>
      obtain ⟨f, q, cf, rfl, hf, ho, hq⟩ := hp.exists_black
      exact ⟨_, _, rfl, ⟨rfl, hok, fun _ _ => rfl⟩, Hole.zip (.black hf ho hq) .nil⟩
  | black =>
      cases path with
      | nil => exact ⟨_, _, rfl, ⟨rfl, hok, fun _ _ => rfl⟩, _, .nil⟩
      | cons f q => exact eraseFix_spec .nil (by simp) hp hok hnd

end

/-- The first node of the tree and the path to it. -/
theorem popFirst_spec (hne : t ≠ .nil) (p : Path α) :
    ∃ c x r path, popFirst t p = some (c, x, r, path) ∧ zip (.node c .nil x r) path = zip t p ∧
      before path = before p := by
  induction t generalizing p with
  | nil => exact absurd rfl hne
  | node c l x r ihl _ =>
      cases l with
      | nil => exact ⟨c, x, r, p, rfl, rfl, rfl⟩
      | node cl ll xl rl =>
        obtain ⟨c', x', r', path, e, h1, h2⟩ := ihl (by simp) (⟨.left, c, x, r⟩ :: p)
        exact ⟨c', x', r', path, e, h1, h2.trans (by simp [before])⟩

/-- Only the colors and the trees beside it matter for the balance of a path. -/
theorem Path.Hole.with_entry (y : α) (h : Hole (p ++ f :: path) c n) :
    Hole (p ++ { f with entry := y } :: path) c n := by
  induction p generalizing c n with
  | nil =>
      cases h with
      | red hf ho hp => exact .red hf ho hp
      | black hf ho hp => exact .black hf ho hp
  | cons g p ih =>
      cases h with
      | red hf ho hp => exact .red hf ho (ih hp)
      | black hf ho hp => exact .black hf ho (ih hp)

/-- A balanced tree of height 0 that is not empty is red. -/
theorem Tree.Balanced.red_of_ne_nil (h : Balanced t c 0) (hne : t ≠ .nil) : c = .red := by
  cases h with
  | nil => exact absurd rfl hne
  | red => rfl

/-- What `eraseAt` leaves behind: the entry is gone, and all the rest is as it was. -/
structure Erased (value aug aug' : α → ℕ) (t t' : Tree α) (xs : List α) : Prop where
  toList : t'.toList = xs
  augOk : t'.AugOk value aug'
  same : ∀ z, z ∉ t.toList → aug' z = aug z
  balanced : ∃ m, Balanced t' .black m

theorem Erased.of_reshaped {aug' aug'' : α → ℕ} {t' t'' : Tree α}
    (hr : Reshaped value aug' aug'' t' t'') (hb : ∃ m, Balanced t'' .black m)
    (hsub : ∀ z ∈ t'.toList, z ∈ t.toList) (hsame : ∀ z, z ∉ t.toList → aug' z = aug z) :
    Erased value aug aug'' t t'' t'.toList :=
  ⟨hr.toList, hr.augOk, fun z hz => (hr.same z fun h => hz (hsub z h)).trans (hsame z hz), hb⟩

/-- The only child of a node is red, and its node is black. -/
theorem single_child {d : Dir} (h : Balanced (join d c .nil x child) c n) (hne : child ≠ .nil) :
    c = .black ∧ Balanced (child.setColor .black) .black n := by
  cases c with
  | red =>
      obtain ⟨-, h0, hc⟩ := h.of_join_red
      cases h0
      exact absurd hc.eq_nil hne
  | black =>
      obtain ⟨-, m, rfl, ⟨ca, h0⟩, cb, hc⟩ := h.of_join_black
      cases h0
      obtain rfl := hc.red_of_ne_nil hne
      exact ⟨rfl, hc.setColor_red⟩

theorem nodup_child {d : Dir} (h : (zip (join d c .nil x child) path).toList.Nodup) :
    (zip child path).toList.Nodup := by
  rw [nodup_zip, nodup_toList_join] at h
  rw [nodup_zip]
  exact ⟨h.1.2.1, h.2.1, fun z hz hzp => h.2.2 (mem_toList_join.mpr (Or.inr (Or.inr hz))) hzp⟩

section

variable [DecidableEq α]

/-- Case 1 with no child. -/
theorem eraseAt_leaf (hbal : Balanced (zip (.node c .nil x .nil) path) .black n)
    (hok : (zip (.node c .nil x .nil) path).AugOk value aug)
    (hnd : (zip (.node c .nil x .nil) path).toList.Nodup) :
    ∃ t' aug', eraseAt value (.node c .nil x .nil) path aug = some (t', aug') ∧
      Erased value aug aug' (zip (.node c .nil x .nil) path) t' (zip .nil path).toList := by
  obtain ⟨c', m, hb, hp⟩ := exists_hole hbal
  obtain rfl : c' = c := hb.of_join (d := .left)
  have hnd' := nodup_child (d := .left) hnd
  obtain ⟨i1, i2⟩ := propagate_spec (show Tree.AugOk value aug .nil from trivial)
    (augOk_zip.mp hok).2.above hnd'
  have hm : Hole path c' (if c' = .black then 1 else 0) := by
    cases hb with
    | red h1 h2 => cases h1; exact hp
    | black h1 h2 => cases h1; exact hp
  obtain ⟨t', aug', e, hr, hbal'⟩ := rebalance_spec hm i1 hnd'
  refine ⟨t', aug', e, .of_reshaped hr hbal' ?_ ?_⟩
  · intro z hz
    rw [mem_zip] at hz ⊢
    exact hz.imp_left fun h => by simp [Tree.toList] at h
  · intro z hz
    rw [mem_zip, not_or] at hz
    exact i2 z hz.2

/-- Case 1 with one child, which takes the place and the color of the node. -/
theorem eraseAt_child (d : Dir) (hne : child ≠ .nil)
    (hbal : Balanced (zip (join d c .nil x child) path) .black n)
    (hok : (zip (join d c .nil x child) path).AugOk value aug)
    (hnd : (zip (join d c .nil x child) path).toList.Nodup) :
    Erased value aug (propagate value child path aug) (zip (join d c .nil x child) path)
      (zip (child.setColor c) path) (zip child path).toList := by
  obtain ⟨c', m, hb, hp⟩ := exists_hole hbal
  obtain rfl : c' = c := hb.of_join
  obtain ⟨rfl, hc⟩ := single_child hb hne
  have hnd' := nodup_child hnd
  obtain ⟨hnode, hpath⟩ := augOk_zip.mp hok
  obtain ⟨i1, i2⟩ := propagate_spec (augOk_join.mp hnode).2.2 hpath.above hnd'
  have hre : Reshaped value (propagate value child path aug) (propagate value child path aug)
      child (child.setColor .black) :=
    Recolored.reshaped (Or.inr ⟨.black, rfl⟩) (augOk_zip.mp i1).1
  refine .of_reshaped (hre.zip i1 hnd') (hp.zip hc) ?_ ?_
  · intro z hz
    rw [mem_zip] at hz ⊢
    exact hz.imp_left fun h => mem_toList_join.mpr (Or.inr (Or.inr h))
  · intro z hz
    rw [mem_zip, not_or] at hz
    exact i2 z hz.2

/-- Case 2 and 3: the successor takes the place and the color of the node, and its own
place is taken by its child. -/
theorem eraseAt_both (hl : l ≠ .nil) (hr : r ≠ .nil)
    (hbal : Balanced (zip (.node c l x r) path) .black n)
    (hok : (zip (.node c l x r) path).AugOk value aug)
    (hnd : (zip (.node c l x r) path).toList.Nodup) :
    ∃ t' aug', eraseAt value (.node c l x r) path aug = some (t', aug') ∧
      Erased value aug aug' (zip (.node c l x r) path) t'
        (before path ++ l.toList ++ r.toList ++ after path) := by
  obtain ⟨k, s, ch, q, e, hz, hbef⟩ := popFirst_spec hr []
  have hzr : zip (.node k .nil s ch) q = r := hz
  let above : Frame α := ⟨.right, c, s, l⟩
  -- the order of the entries
  have hrl : r.toList = s :: (ch.toList ++ after q) := by
    rw [← hzr, toList_zip, hbef]
    simp [before, Tree.toList]
  have hlist : (zip ch (q ++ above :: path)).toList =
      before path ++ l.toList ++ r.toList ++ after path := by
    rw [toList_zip, before_append, after_append, hbef, hrl]
    simp [before, after, above]
  have hall : (zip (.node c l x r) path).toList =
      before path ++ l.toList ++ x :: r.toList ++ after path := by
    rw [toList_zip]
    simp [Tree.toList]
  have hnd' : (zip ch (q ++ above :: path)).toList.Nodup := by
    rw [hlist]
    rw [hall] at hnd
    simp only [List.nodup_append, List.nodup_cons, List.mem_append, List.mem_cons] at hnd ⊢
    grind
  have hndr : (zip (.node k .nil s ch) q).toList.Nodup := by
    rw [hzr]
    rw [hall] at hnd
    simp only [List.nodup_append, List.nodup_cons] at hnd
    grind
  have hsub : ∀ z ∈ (zip ch (q ++ above :: path)).toList,
      z ∈ (zip (.node c l x r) path).toList := by
    intro z hz
    rw [hlist] at hz
    rw [hall]
    simp only [List.mem_append, List.mem_cons] at hz ⊢
    tauto
  -- the data before
  obtain ⟨⟨hx, hlok, hrok⟩, hpath⟩ := augOk_zip.mp hok
  rw [← hx] at hpath
  have hrok' := hrok
  rw [← hzr, augOk_zip] at hrok'
  obtain ⟨⟨-, -, hch⟩, hq⟩ := hrok'
  -- the two parts of the path and the nodes on it
  rw [zip_append] at hnd' hlist hsub
  obtain ⟨hnd1, hnd2, hnd3⟩ := nodup_zip.mp hnd'
  have hsplit := nodup_cons.mp hnd2
  have hs : s ∉ ch.toList ∧ s ∉ entries q := by
    have h1 := nodup_zip.mp hndr
    refine ⟨fun h => ?_, fun h => h1.2.2 (show s ∈ (Tree.node k .nil s ch).toList by
      simp [Tree.toList]) h⟩
    have := h1.1
    simp only [Tree.toList, List.nil_append, List.nodup_cons] at this
    exact this.1 h
  have hsl : s ∉ l.toList := by
    have := hsplit.1
    rw [Frame.fill, nodup_toList_join] at this
    exact this.2.2.2.1
  -- the copy, and the data of the right subtree
  let aug1 := augmentCopy aug x s
  have haug1 : ∀ z, z ≠ s → aug1 z = aug z := fun z hz => Function.update_of_ne hz _ _
  have hch1 : ch.AugOk value aug1 := hch.update hs.1 _
  have hq1 : Above value aug1 q :=
    (hq.congr fun z hz => haug1 z fun h => hs.2 (h ▸ hz)).above
  obtain ⟨i1, i2⟩ := propagate_spec hch1 hq1 hnd1
  let aug2 := propagate value ch q aug1
  -- the data of the successor and above
  have haug2 : ∀ z, z ∉ (zip ch q).toList → aug2 z = aug1 z := fun z hz =>
    i2 z fun h => hz (mem_zip.mpr (Or.inr h))
  have hs2 : aug2 s = aug x := by
    rw [haug2 s fun h => (mem_zip.mp h).elim hs.1 hs.2]
    exact Function.update_self _ _ _
  have hrest : ∀ z, (z ∈ l.toList ∨ z ∈ entries path) → aug2 z = aug z := by
    intro z hz
    have hzin : z ∈ entries (above :: path) := by
      rw [mem_entries_cons]
      tauto
    have hzs : z ≠ s := by
      intro h
      rw [h] at hz
      rcases hz with hz | hz
      · exact hsl hz
      · exact hsplit.2.2.1 hz
    rw [haug2 z fun h => hnd3 h hzin, haug1 z hzs]
  have hup : Above value aug2 (above :: path) := by
    refine ⟨hlok.congr (fun _ _ => rfl) fun z hz => hrest z (Or.inl hz), ?_⟩
    rw [show aug2 above.entry = aug x from hs2]
    exact hpath.congr fun z hz => hrest z (Or.inr hz)
  obtain ⟨j1, j2⟩ := propagate_spec i1 hup hnd'
  let aug3 := propagate value (zip ch q) (above :: path) aug2
  have hsame : ∀ z, z ∉ (zip (.node c l x r) path).toList → aug3 z = aug z := by
    intro z hz
    have hz' : ¬ z ∈ (zip (zip ch q) (above :: path)).toList := fun h => hz (hsub z h)
    rw [mem_zip, not_or] at hz'
    have hzs : z ≠ s := fun h => hz'.2 (mem_entries_cons.mpr (Or.inl h))
    exact (j2 z hz'.2).trans ((haug2 z hz'.1).trans (haug1 z hzs))
  -- the colors
  have hz' : zip (.node k .nil s ch) (q ++ ⟨.right, c, x, l⟩ :: path) =
      zip (.node c l x r) path := by
    rw [zip_append, hzr]
    rfl
  obtain ⟨c', m, hb, hp⟩ := exists_hole (hz' ▸ hbal)
  obtain rfl : c' = k := hb.of_join (d := .left)
  have hhole : Hole (q ++ above :: path) c' m := hp.with_entry s
  have he : ∀ ch', ch = ch' → eraseAt value (.node c l x r) path aug = match ch' with
      | .nil => rebalance value c' (q ++ above :: path) aug3
      | child => some (zip (child.setColor .black) (q ++ above :: path), aug3) := by
    rintro _ rfl
    cases l with
    | nil => exact absurd rfl hl
    | node =>
      cases r with
      | nil => exact absurd rfl hr
      | node =>
        rw [eraseAt.eq_def]
        simp only [e, Option.bind_some]
        rfl
  rw [← zip_append] at j1 hnd' hlist hsub
  have herased : ∀ {t' aug'}, Reshaped value aug3 aug' (zip ch (q ++ above :: path)) t' →
      (∃ m, Balanced t' .black m) → Erased value aug aug' (zip (.node c l x r) path) t'
        (before path ++ l.toList ++ r.toList ++ after path) := fun hre hbal' =>
    hlist ▸ Erased.of_reshaped hre hbal' hsub hsame
  rw [he ch rfl]
  by_cases hch0 : ch = .nil
  · subst hch0
    have hm : m = if c' = .black then 1 else 0 := by
      cases hb with
      | red h1 h2 => cases h1; rfl
      | black h1 h2 => cases h1; rfl
    obtain ⟨t', aug', e', hre, hbal'⟩ := rebalance_spec (hm ▸ hhole) j1 hnd'
    exact ⟨t', aug', e', herased hre hbal'⟩
  · obtain ⟨rfl, hc⟩ := single_child (d := .left) hb hch0
    have hre := (Recolored.reshaped (Or.inr ⟨.black, rfl⟩) (augOk_zip.mp j1).1).zip j1 hnd'
    cases ch with
    | nil => exact absurd rfl hch0
    | node => exact ⟨_, _, rfl, herased hre (hhole.zip hc)⟩

/-- Erasing a node keeps the order, the balance and the data of the others. -/
theorem eraseAt_spec (hbal : Balanced (zip (.node c l x r) path) .black n)
    (hok : (zip (.node c l x r) path).AugOk value aug)
    (hnd : (zip (.node c l x r) path).toList.Nodup) :
    ∃ t' aug', eraseAt value (.node c l x r) path aug = some (t', aug') ∧
      Erased value aug aug' (zip (.node c l x r) path) t'
        (before path ++ l.toList ++ r.toList ++ after path) := by
  by_cases hl : l = .nil
  · subst hl
    by_cases hr : r = .nil
    · subst hr
      obtain ⟨t', aug', e, h⟩ := eraseAt_leaf hbal hok hnd
      rw [toList_zip] at h
      exact ⟨t', aug', e, by simpa [Tree.toList] using h⟩
    · have h := eraseAt_child (d := .left) hr hbal hok hnd
      rw [toList_zip] at h
      cases r with
      | nil => exact absurd rfl hr
      | node => exact ⟨_, _, rfl, by simpa [join, Tree.toList] using h⟩
  · by_cases hr : r = .nil
    · subst hr
      have h := eraseAt_child (d := .right) hl hbal hok hnd
      rw [toList_zip] at h
      cases l with
      | nil => exact absurd rfl hl
      | node => exact ⟨_, _, rfl, by simpa [join, Tree.toList] using h⟩
    · exact eraseAt_both hl hr hbal hok hnd

/-- Erasing takes the entry out of the list of the entries. -/
theorem erase_spec {n : ℕ} (hx : x ∈ t.toList) (hbal : Balanced t .black n)
    (hok : t.AugOk value aug) (hnd : t.toList.Nodup) :
    ∃ t' aug', erase value x t aug = some (t', aug') ∧
      Erased value aug aug' t t' (t.toList.erase x) := by
  obtain ⟨⟨node, path⟩, e⟩ := Option.isSome_iff_exists.mp (locate_isSome hx [])
  obtain ⟨hz, c, l, r, rfl⟩ := locate_eq_some e
  rw [zip] at hz
  subst hz
  obtain ⟨t', aug', e', h⟩ := eraseAt_spec hbal hok hnd
  refine ⟨t', aug', by simp [erase, e, e'], ?_⟩
  convert h using 1
  rw [toList_zip] at hnd ⊢
  have hsplit : before path ++ (Tree.node c l x r).toList ++ after path =
      (before path ++ l.toList) ++ x :: (r.toList ++ after path) := by
    simp [Tree.toList]
  rw [hsplit] at hnd ⊢
  rw [List.erase_append_right _ fun hx => (List.nodup_append.mp hnd).2.2 x hx x (by simp) rfl]
  simp

end

end RbTree
