import Tomato.Lib.RbTree.Linked
import Tomato.Lib.RbTree.Search

/-!
# Operations on linked trees

The operations that keep the tree, the links and the augmented data of its nodes together,
and what each of them does to the list of the nodes in order.
-/

namespace RbTree

open RbTree.Path
open RbTree.Tree (Balanced)

variable {α : Type*}

section

variable [DecidableEq α] (value : α → ℕ)

/-- `rb_find_add_augmented_linked`. The result is the node that compares as equal, or the
tree with the new node. -/
def findAddLinked (cmp : α → Ordering) (x : α) (tree : Tree α) (links : LinkedNodes α)
    (aug : α → ℕ) : Option (Except α (Tree α × LinkedNodes α × (α → ℕ))) :=
  match findPlace cmp tree [] with
  | .error y => some (.error y)
  | .ok path => (findAdd value cmp x tree aug).map fun
    | .error y => .error y
    | .ok (tree, aug) => .ok (tree, links.addNode x path, aug)

/-- `rb_erase_augmented_linked`. -/
def eraseLinked (x : α) (tree : Tree α) (links : LinkedNodes α) (aug : α → ℕ) :
    Option (Tree α × LinkedNodes α × (α → ℕ)) :=
  (erase value x tree aug).map fun (tree, aug) => (tree, links.eraseNode x, aug)

/-- `propagate` from the node `x` up to the root. -/
def propagateFrom (x : α) (tree : Tree α) (aug : α → ℕ) : α → ℕ :=
  match locate x tree [] with
  | some (.node c l y r, path) => propagate value l (⟨.left, c, y, r⟩ :: path) aug
  | _ => aug

end

/-- The tree has the nodes `xs` in order, and so have the links. -/
structure LinkedTree (value aug : α → ℕ) (tree : Tree α) (links : LinkedNodes α) (xs : List α) :
    Prop where
  toList : tree.toList = xs
  nodup : xs.Nodup
  balanced : ∃ n, Balanced tree .black n
  augOk : tree.AugOk value aug
  links : links.Ok xs

/-- A key that is below a node is below the later ones too, and one that is above a node is
above the earlier ones. -/
def Ordered (cmp : α → Ordering) (xs : List α) : Prop :=
  xs.Pairwise fun a b => (cmp a = .lt → cmp b = .lt) ∧ (cmp b = .gt → cmp a = .gt)

variable {value value' aug aug' : α → ℕ} {cmp : α → Ordering} {tree t : Tree α}
  {links links' : LinkedNodes α} {xs A B : List α} {x : α} {p path : Path α} {m : ℕ}

theorem find_eq_find? (h : Ordered cmp t.toList)
    (huniq : ∀ x ∈ t.toList, ∀ y ∈ t.toList, cmp x = .eq → cmp y = .eq → x = y) :
    find cmp t = t.toList.find? (cmp · = .eq) := by
  cases hf : find cmp t with
  | none =>
      refine (List.find?_eq_none.mpr fun x hx => ?_).symm
      simpa using find_eq_none h hf x hx
  | some x =>
      obtain ⟨hx, he⟩ := find_some hf
      cases hy : t.toList.find? (cmp · = .eq) with
      | none => exact absurd (List.find?_eq_none.mp hy x hx) (by simpa using he)
      | some y =>
          have hye : cmp y = .eq := by simpa using List.find?_some hy
          rw [huniq x hx y (List.mem_of_find?_eq_some hy) he hye]

theorem Ordered.lt_right {c : Color} {l r : Tree α} {y : α} {A B : List α}
    (h : Ordered cmp (A ++ (Tree.node c l y r).toList ++ B)) (hlt : cmp y = .lt) :
    ∀ z ∈ r.toList ++ B, cmp z = .lt := by
  simp only [Tree.toList, Ordered, List.append_assoc, List.pairwise_append, List.pairwise_cons,
    List.cons_append] at h
  exact fun z hz => (h.2.1.2.1.1 z hz).1 hlt

theorem Ordered.gt_left {c : Color} {l r : Tree α} {y : α} {A B : List α}
    (h : Ordered cmp (A ++ (Tree.node c l y r).toList ++ B)) (hgt : cmp y = .gt) :
    ∀ z ∈ A ++ l.toList, cmp z = .gt := by
  intro z hz
  simp only [Tree.toList, Ordered, List.append_assoc, List.pairwise_append, List.pairwise_cons,
    List.cons_append, List.mem_append, List.mem_cons] at h hz
  rcases hz with hz | hz
  · exact (h.2.2 z hz y (Or.inr (Or.inl rfl))).2 hgt
  · exact (h.2.1.2.2 z hz y (Or.inl rfl)).2 hgt

/-- The new node is above all the nodes before its place, and below all after it. -/
theorem findPlace_ordered (h : Ordered cmp (before p ++ t.toList ++ after p))
    (hb : ∀ y ∈ before p, cmp y = .gt) (ha : ∀ y ∈ after p, cmp y = .lt)
    (he : findPlace cmp t p = .ok path) :
    (∀ y ∈ before path, cmp y = .gt) ∧ ∀ y ∈ after path, cmp y = .lt := by
  induction t generalizing p with
  | nil =>
      simp only [findPlace, Except.ok.injEq] at he
      subst he
      exact ⟨hb, ha⟩
  | node c l y r ihl ihr =>
      rw [findPlace] at he
      split at he
      · rename_i hlt
        have hr := h.lt_right hlt
        refine ihl ?_ ?_ ?_ he
        · simpa [before, after, Tree.toList] using h
        · simpa [before] using hb
        · simp only [after, List.cons_append, List.mem_cons]
          rintro z (rfl | hz)
          · exact hlt
          · exact hr z hz
      · rename_i hgt
        have hl := h.gt_left hgt
        refine ihr ?_ ?_ ?_ he
        · simpa [before, after, Tree.toList] using h
        · simp only [before, List.mem_append, List.mem_singleton]
          rintro z (hz | hz | rfl)
          · exact hb z hz
          · exact hl z (List.mem_append_right _ hz)
          · exact hgt
        · simpa [after] using ha
      · simp at he

/-- The search by the augmented data skips no node. -/
theorem Promises.of_augOk {k : ℕ} (h : t.AugOk value aug) :
    Promises (fun x => decide (k ≤ value x)) (fun x => decide (k ≤ aug x)) t := by
  induction t with
  | nil => trivial
  | node c l y r ihl ihr =>
      obtain ⟨h1, h2, h3⟩ := h
      refine ⟨?_, ihl h2, ihr h3⟩
      rintro ⟨z, hz, hk⟩
      rw [decide_eq_true_eq] at hk ⊢
      rw [h1]
      exact hk.trans (Tree.le_maxOf hz)

theorem Path.AugOk.congr_value (h : Path.AugOk value aug m p)
    (hv : ∀ z ∈ entries p, value' z = value z) : Path.AugOk value' aug m p := by
  induction p generalizing m with
  | nil => trivial
  | cons f p ih =>
      obtain ⟨h1, h2, h3⟩ := h
      simp only [mem_entries_cons] at hv
      have hother : ∀ z ∈ f.other.toList, value' z = value z := fun z hz =>
        hv z (Or.inr (Or.inl hz))
      refine ⟨?_, h2.congr hother fun _ _ => rfl, ih h3 fun z hz => hv z (Or.inr (Or.inr hz))⟩
      rw [h1, hv _ (Or.inl rfl), Tree.maxOf_congr hother]

namespace LinkedTree

/-- Only the data of the nodes matters. -/
theorem congr (h : LinkedTree value aug tree links xs) (hv : ∀ z ∈ xs, value' z = value z)
    (ha : ∀ z ∈ xs, aug' z = aug z) (hl : links'.leftmost = links.leftmost)
    (hp : ∀ z ∈ xs, links'.prev z = links.prev z) (hn : ∀ z ∈ xs, links'.next z = links.next z) :
    LinkedTree value' aug' tree links' xs :=
  ⟨h.toList, h.nodup, h.balanced, h.augOk.congr (h.toList.symm ▸ hv) (h.toList.symm ▸ ha),
    h.links.congr hl hp hn⟩

variable [DecidableEq α]

/-- A new node is put between the nodes that are below and above it. -/
theorem findAdd (h : LinkedTree value aug tree links xs) (hx : x ∉ xs) (haug : aug x = value x)
    (hord : Ordered cmp xs) :
    (∃ y ∈ xs, cmp y = .eq ∧ findAddLinked value cmp x tree links aug = some (.error y)) ∨
    ∃ A B tree' links' aug', xs = A ++ B ∧ (∀ y ∈ A, cmp y = .gt) ∧ (∀ y ∈ B, cmp y = .lt) ∧
      findAddLinked value cmp x tree links aug = some (.ok (tree', links', aug')) ∧
      LinkedTree value aug' tree' links' (A ++ x :: B) ∧
      (∀ z, z ∉ A ++ x :: B → aug' z = aug z) ∧
      ∀ z, z ∉ A ++ x :: B → links'.prev z = links.prev z ∧ links'.next z = links.next z := by
  obtain ⟨n, hbal⟩ := h.balanced
  have hlist := h.toList
  rcases findAdd_spec cmp hbal h.augOk (hlist ▸ h.nodup) (hlist ▸ hx) haug with
    ⟨y, hy, he, e⟩ | ⟨path, t', aug', hf, e, hxs, hxs', haug', hsame, hbal'⟩
  · refine Or.inl ⟨y, hlist ▸ hy, he, ?_⟩
    unfold findAddLinked
    split
    · rename_i z hz
      simp only [RbTree.findAdd, hz, Option.some.injEq, Except.error.injEq] at e
      rw [e]
    · simp [e]
  · rw [hlist] at hxs
    subst hxs
    have hord' : Ordered cmp (before [] ++ tree.toList ++ after []) := by
      simpa [before, after, hlist] using hord
    obtain ⟨hb, ha⟩ := findPlace_ordered hord' (by simp [before]) (by simp [after]) hf
    have hnd : (before path ++ x :: after path).Nodup := by
      rw [List.nodup_middle, List.nodup_cons]
      exact ⟨hx, h.nodup⟩
    obtain ⟨hl, hsl⟩ := h.links.add hnd
    refine Or.inr ⟨_, _, t', links.addNode x path, aug', rfl, hb, ha, ?_,
      ⟨hxs', hnd, hbal', haug', hl⟩, fun z hz => hsame z (hxs'.symm ▸ hz), hsl⟩
    simp only [findAddLinked, hf, e, Option.map_some]

theorem erase (h : LinkedTree value aug tree links (A ++ x :: B)) :
    ∃ tree' aug', eraseLinked value x tree links aug = some (tree', links.eraseNode x, aug') ∧
      LinkedTree value aug' tree' (links.eraseNode x) (A ++ B) ∧
      (∀ z, z ∉ A ++ x :: B → aug' z = aug z) ∧
      ∀ z, z ∉ A ++ x :: B →
        (links.eraseNode x).prev z = links.prev z ∧ (links.eraseNode x).next z = links.next z := by
  obtain ⟨n, hbal⟩ := h.balanced
  have hmem : x ∈ tree.toList := by simp [h.toList]
  have hnd : tree.toList.Nodup := h.toList ▸ h.nodup
  obtain ⟨tree', aug', e, he⟩ := erase_spec hmem hbal h.augOk hnd
  obtain ⟨hl, hsl⟩ := h.links.eraseNode h.nodup
  have hxA : x ∉ A := fun hc => (List.nodup_append.mp h.nodup).2.2 x hc x (by simp) rfl
  have hlist : tree.toList.erase x = A ++ B := by
    rw [h.toList, List.erase_append_right _ hxA, List.erase_cons_head]
  have hsub : (A ++ B).Nodup := (List.nodup_cons.mp (List.nodup_middle.mp h.nodup)).2
  refine ⟨tree', aug', by simp only [eraseLinked, e, Option.map_some],
    ⟨he.toList.trans hlist, hsub, he.balanced, he.augOk, hl⟩, ?_, hsl⟩
  exact fun z hz => he.same z (h.toList.symm ▸ hz)

/-- The value of one node changes, and the augmented data is made right from there. -/
theorem update (h : LinkedTree value aug tree links xs) (hx : x ∈ xs)
    (hv : ∀ z, z ≠ x → value' z = value z) :
    LinkedTree value' (propagateFrom value' x tree aug) tree links xs ∧
      ∀ z, z ∉ xs → propagateFrom value' x tree aug z = aug z := by
  obtain ⟨⟨node, path⟩, e⟩ := Option.isSome_iff_exists.mp
    (locate_isSome (h.toList.symm ▸ hx : x ∈ tree.toList) [])
  obtain ⟨hz, c, l, r, rfl⟩ := locate_eq_some e
  rw [zip] at hz
  have hnd : (zip (Tree.node c l x r) path).toList.Nodup := by
    rw [hz, h.toList]
    exact h.nodup
  have hok := h.augOk
  rw [← hz, augOk_zip] at hok
  obtain ⟨⟨hax, hl, hr⟩, hpath⟩ := hok
  obtain ⟨hnode, -, hdisj⟩ := nodup_zip.mp hnd
  have hxl : x ∉ l.toList ∧ x ∉ r.toList := by
    simp only [Tree.toList, List.nodup_append, List.nodup_cons, List.mem_cons] at hnode
    exact ⟨fun hc => hnode.2.2 x hc x (Or.inl rfl) rfl, hnode.2.1.1⟩
  have hxp : x ∉ entries path := fun hc => hdisj (by simp [Tree.toList]) hc
  have hv' : ∀ {zs : List α}, x ∉ zs → ∀ z ∈ zs, value' z = value z := fun hzs z hz =>
    hv z fun he => hzs (he ▸ hz)
  have hfill : (⟨.left, c, x, r⟩ : Frame α).fill l = .node c l x r := rfl
  have habove : Above value' aug (⟨.left, c, x, r⟩ :: path) :=
    ⟨hr.congr (hv' hxl.2) fun _ _ => rfl, hax.symm ▸ hpath.congr_value (hv' hxp)⟩
  have hprop : propagateFrom value' x tree aug =
      propagate value' l (⟨.left, c, x, r⟩ :: path) aug := by
    rw [propagateFrom, e]
  obtain ⟨h1, h2⟩ := propagate_spec (hl.congr (hv' hxl.1) fun _ _ => rfl) habove
    (by rwa [zip, hfill])
  rw [zip, hfill, hz] at h1
  rw [hprop]
  refine ⟨⟨h.toList, h.nodup, h.balanced, h1, h.links⟩, fun z hzx => h2 z fun hc => hzx ?_⟩
  rw [← h.toList, ← hz, mem_zip]
  rcases mem_entries_cons.mp hc with rfl | hc | hc
  · exact Or.inl (by simp [Tree.toList])
  · exact Or.inl (by simp [Tree.toList, hc])
  · exact Or.inr hc

end LinkedTree

end RbTree
