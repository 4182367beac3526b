import Tomato.Lib.RbTree.Basic

/-!
# The augmented data

The callbacks that `RB_DECLARE_CALLBACKS_MAX` declares: every node stores the largest
value of its subtree. The values of the nodes are `value` (the `RBCOMPUTE` of the
macro), and what the nodes store is `aug`.

`AugOk` says that the stored data of a tree is right, `PathOk` that the stored data of
a path is right when the subtree below it has the maximum `m`.
-/

namespace RbTree

variable {α : Type*}

section

variable [DecidableEq α] (value aug : α → ℕ)

/-- `compute_max` of a node, without the store. -/
def computeMax : Tree α → ℕ
  | .nil => 0
  | .node _ l x r =>
    let max := value x
    let max := match l with
      | .nil => max
      | .node _ _ child _ => if aug child > max then aug child else max
    match r with
    | .nil => max
    | .node _ _ child _ => if aug child > max then aug child else max

/-- `propagate` from the end of the path up to its beginning, where `t` is the subtree
below it. It stops at the first node that stays the same. -/
def propagate (t : Tree α) : Path α → (α → ℕ) → α → ℕ
  | [], aug => aug
  | f :: path, aug =>
    let max := computeMax value aug (f.fill t)
    if aug f.entry = max then aug
    else propagate (f.fill t) path (Function.update aug f.entry max)

/-- `copy`. -/
def augmentCopy (old new : α) : α → ℕ := Function.update aug new (aug old)

/-- `rotate`, where `old` is the subtree of the old node after the rotation. -/
def augmentRotate (old : Tree α) (new : α) : α → ℕ :=
  match old.rootEntry with
  | none => aug
  | some x =>
    let aug := Function.update aug new (aug x)
    Function.update aug x (computeMax value aug old)

end

namespace Tree

/-- The largest value in the tree. -/
def maxOf (value : α → ℕ) : Tree α → ℕ
  | nil => 0
  | node _ l x r => max (value x) (max (l.maxOf value) (r.maxOf value))

/-- Every node stores the largest value of its subtree. -/
def AugOk (value aug : α → ℕ) : Tree α → Prop
  | nil => True
  | node c l x r => aug x = maxOf value (node c l x r) ∧ AugOk value aug l ∧ AugOk value aug r

variable {value value' aug aug' : α → ℕ} {d : Dir} {c : Color} {t a b : Tree α} {x : α}

@[simp] theorem maxOf_join :
    maxOf value (join d c a x b) = max (value x) (max (a.maxOf value) (b.maxOf value)) := by
  cases d
  · rfl
  · simp [join, maxOf, max_comm (maxOf value b)]

@[simp] theorem augOk_join : AugOk value aug (join d c a x b) ↔
    aug x = max (value x) (max (a.maxOf value) (b.maxOf value)) ∧ AugOk value aug a ∧
      AugOk value aug b := by
  cases d
  · rfl
  · simp only [join, AugOk, maxOf, max_comm (maxOf value b)]
    tauto

@[simp] theorem maxOf_setColor : (t.setColor c).maxOf value = t.maxOf value := by cases t <;> rfl

@[simp] theorem augOk_setColor : AugOk value aug (t.setColor c) ↔ AugOk value aug t := by
  cases t <;> rfl

theorem le_maxOf (hx : x ∈ t.toList) : value x ≤ t.maxOf value := by
  induction t with
  | nil => simp [toList] at hx
  | node c l y r ihl ihr =>
      simp only [toList, List.mem_append, List.mem_cons] at hx
      simp only [maxOf]
      rcases hx with hx | rfl | hx
      · have := ihl hx
        omega
      · omega
      · have := ihr hx
        omega

theorem maxOf_congr (h : ∀ x ∈ t.toList, value' x = value x) :
    t.maxOf value' = t.maxOf value := by
  induction t with
  | nil => rfl
  | node c l y r ihl ihr =>
      simp only [toList, List.mem_append, List.mem_cons] at h
      simp only [maxOf]
      rw [h y (by simp), ihl fun x hx => h x (by simp [hx]), ihr fun x hx => h x (by simp [hx])]

/-- The maximum depends on the entries only. -/
theorem maxOf_eq_foldr : t.maxOf value = t.toList.foldr (fun x m => max (value x) m) 0 := by
  have h : ∀ (l : List α) m, l.foldr (fun x m => max (value x) m) m =
      max (l.foldr (fun x m => max (value x) m) 0) m := by
    intro l m
    induction l with
    | nil => simp
    | cons x l ih => simp only [List.foldr_cons, ih]; omega
  induction t with
  | nil => rfl
  | node c l x r ihl ihr =>
      rw [maxOf, toList, List.foldr_append, List.foldr_cons, h, ihl, ihr]
      omega

theorem maxOf_eq_of_toList {s : Tree α} (h : s.toList = t.toList) :
    s.maxOf value = t.maxOf value := by
  rw [maxOf_eq_foldr, maxOf_eq_foldr, h]

theorem AugOk.congr (h : AugOk value aug t) (hv : ∀ x ∈ t.toList, value' x = value x)
    (ha : ∀ x ∈ t.toList, aug' x = aug x) : AugOk value' aug' t := by
  induction t with
  | nil => trivial
  | node c l y r ihl ihr =>
      have hm := maxOf_congr hv
      simp only [toList, List.mem_append, List.mem_cons] at hv ha
      refine ⟨?_, ihl h.2.1 (fun x hx => hv x (by simp [hx])) fun x hx => ha x (by simp [hx]),
        ihr h.2.2 (fun x hx => hv x (by simp [hx])) fun x hx => ha x (by simp [hx])⟩
      rw [hm, ha y (by simp)]
      exact h.1

theorem AugOk.update [DecidableEq α] (h : AugOk value aug t) (hx : x ∉ t.toList) (n : ℕ) :
    AugOk value (Function.update aug x n) t :=
  h.congr (fun _ _ => rfl) fun y hy => Function.update_of_ne (by rintro rfl; exact hx hy) _ _

theorem computeMax_join (ha : AugOk value aug a) (hb : AugOk value aug b) :
    computeMax value aug (join d c a x b) =
      max (value x) (max (a.maxOf value) (b.maxOf value)) := by
  have h : ∀ t : Tree α, AugOk value aug t → ∀ m, (match t with
      | .nil => m
      | .node _ _ child _ => if aug child > m then aug child else m) = max m (t.maxOf value) := by
    intro t ht m
    cases t with
    | nil => simp [maxOf]
    | node c l y r =>
        simp only [ht.1]
        split <;> omega
  cases d
  · simp only [join, computeMax, h a ha, h b hb]
    omega
  · simp only [join, computeMax, h a ha, h b hb]
    omega

/-- The rotation that brings `y` up past `x` keeps the data right. -/
theorem AugOk.rotate [DecidableEq α] {c₁ c₂ : Color} {s : Tree α} {y : α}
    (hx : aug x = max (value y) (max (a.maxOf value) (max (value x)
      (max (b.maxOf value) (s.maxOf value)))))
    (ha : AugOk value aug a) (hb : AugOk value aug b) (hs : AugOk value aug s)
    (hnd : (join d c₁ a y (join d c₂ b x s)).toList.Nodup) :
    AugOk value (augmentRotate value aug (join d c₂ b x s) y) (join d c₁ a y (join d c₂ b x s)) := by
  rw [nodup_toList_join, nodup_toList_join] at hnd
  obtain ⟨-, ⟨-, -, hxb, hxs, -⟩, hya, hy, hdisj⟩ := hnd
  rw [mem_toList_join, not_or, not_or] at hy
  have hxa : x ∉ a.toList := fun hxa => hdisj hxa (mem_toList_join.mpr (Or.inr (Or.inl rfl)))
  have hb' := hb.update hy.1 (aug x)
  have hs' := hs.update hy.2.2 (aug x)
  simp only [augmentRotate, rootEntry_join, augOk_join, maxOf_join]
  rw [computeMax_join hb' hs', Function.update_of_ne hy.2.1, Function.update_self,
    Function.update_self]
  exact ⟨hx, (ha.update hya _).update hxa _, rfl, hb'.update hxb _, hs'.update hxs _⟩

end Tree

open RbTree.Tree

variable {value aug : α → ℕ} {d : Dir} {c : Color} {t a b : Tree α} {x y : α}

namespace Path

/-- The data stored on the path is right when the tree below has the maximum `m`. -/
def AugOk (value aug : α → ℕ) : ℕ → Path α → Prop
  | _, [] => True
  | m, f :: p => aug f.entry = max (value f.entry) (max m (f.other.maxOf value)) ∧
      f.other.AugOk value aug ∧ AugOk value aug (aug f.entry) p

/-- The data stored on the path above its last node is right for what that node
stores. -/
def Above (value aug : α → ℕ) : Path α → Prop
  | [] => True
  | f :: p => f.other.AugOk value aug ∧ AugOk value aug (aug f.entry) p

variable {p q : Path α} {f : Frame α} {m : ℕ} {aug' : α → ℕ}

theorem mem_of_mem_fill {z : α} : z ∈ (f.fill t).toList ↔
    z ∈ t.toList ∨ z = f.entry ∨ z ∈ f.other.toList := mem_toList_join

/-- The entries of the path and of the trees that hang from it. -/
def entries (p : Path α) : List α := before p ++ after p

theorem mem_zip {z : α} : z ∈ (zip t p).toList ↔ z ∈ t.toList ∨ z ∈ entries p := by
  simp only [toList_zip, entries, List.mem_append]
  tauto

theorem mem_entries_cons {z : α} :
    z ∈ entries (f :: p) ↔ z = f.entry ∨ z ∈ f.other.toList ∨ z ∈ entries p := by
  cases f with
  | mk d c x o =>
      cases d
      · simp [entries, before, after]
        tauto
      · simp [entries, before, after]
        tauto

theorem nodup_zip : (zip t p).toList.Nodup ↔
    t.toList.Nodup ∧ (entries p).Nodup ∧ t.toList.Disjoint (entries p) := by
  simp only [toList_zip, entries, List.nodup_append, List.Disjoint, List.mem_append]
  grind

theorem nodup_cons : (entries (f :: p)).Nodup ↔ (f.fill .nil).toList.Nodup ∧ (entries p).Nodup ∧
    f.entry ∉ entries p ∧ f.other.toList.Disjoint (entries p) := by
  have h := nodup_zip (t := Tree.nil) (p := f :: p)
  rw [zip, nodup_zip] at h
  simp only [toList, List.nodup_nil, List.disjoint_nil_left, true_and, and_true] at h
  rw [← h]
  simp only [List.Disjoint, mem_of_mem_fill, toList, List.not_mem_nil, false_or]
  grind

theorem AugOk.congr (h : AugOk value aug m p) (ha : ∀ z ∈ entries p, aug' z = aug z) :
    AugOk value aug' m p := by
  induction p generalizing m with
  | nil => trivial
  | cons f p ih =>
      obtain ⟨h1, h2, h3⟩ := h
      simp only [mem_entries_cons] at ha
      refine ⟨(ha _ (Or.inl rfl)).trans h1, h2.congr (fun _ _ => rfl) fun z hz =>
        ha z (Or.inr (Or.inl hz)), ?_⟩
      rw [ha _ (Or.inl rfl)]
      exact ih h3 fun z hz => ha z (Or.inr (Or.inr hz))

theorem augOk_zip : (zip t p).AugOk value aug ↔
    t.AugOk value aug ∧ AugOk value aug (t.maxOf value) p := by
  induction p generalizing t with
  | nil => simp [zip, AugOk]
  | cons f p ih =>
      rw [zip, ih, Frame.fill, augOk_join, maxOf_join, AugOk]
      constructor
      · rintro ⟨⟨h1, h2, h3⟩, h4⟩
        exact ⟨h2, h1, h3, h1 ▸ h4⟩
      · rintro ⟨h2, h1, h3, h4⟩
        exact ⟨⟨h1, h2, h3⟩, h1 ▸ h4⟩

theorem AugOk.above (h : AugOk value aug m p) : Above value aug p := by
  cases p with
  | nil => trivial
  | cons f p => exact h.2

end Path

open RbTree.Path

section

variable [DecidableEq α]

/-- A rotation stores to the two nodes only. -/
theorem augmentRotate_of_ne (hx : t.rootEntry = some x) {z : α} (hzx : z ≠ x) (hzy : z ≠ y) :
    augmentRotate value aug t y z = aug z := by
  simp [augmentRotate, hx, Function.update_of_ne hzx, Function.update_of_ne hzy]

theorem augmentRotate_new (hx : t.rootEntry = some x) (hne : x ≠ y) :
    augmentRotate value aug t y y = aug x := by
  simp [augmentRotate, hx, Function.update_of_ne hne.symm]

/-- `propagate` makes the data right, and stores on the path only. -/
theorem propagate_spec {p : Path α} (ht : t.AugOk value aug) (hp : Above value aug p)
    (hnd : (zip t p).toList.Nodup) :
    (zip t p).AugOk value (propagate value t p aug) ∧
      ∀ z, z ∉ entries p → propagate value t p aug z = aug z := by
  induction p generalizing t aug with
  | nil => exact ⟨ht, fun _ _ => rfl⟩
  | cons f p ih =>
      obtain ⟨ho, hp⟩ := hp
      have hc := computeMax_join (d := f.dir) (c := f.color) (x := f.entry) ht ho
      simp only [propagate]
      rw [Frame.fill, hc]
      split
      · rename_i heq
        refine ⟨?_, fun _ _ => rfl⟩
        rw [augOk_zip]
        exact ⟨ht, heq, ho, hp⟩
      · rename_i hne
        have hnd' := hnd
        rw [zip, nodup_zip, Frame.fill, nodup_toList_join] at hnd
        obtain ⟨⟨-, -, hxt, hxo, -⟩, -, hdisj⟩ := hnd
        have hxp : f.entry ∉ entries p := fun hx =>
          hdisj (mem_toList_join.mpr (Or.inr (Or.inl rfl))) hx
        let m := max (value f.entry) (max (t.maxOf value) (f.other.maxOf value))
        have ht' : (f.fill t).AugOk value (Function.update aug f.entry m) := by
          rw [Frame.fill, augOk_join, Function.update_self]
          exact ⟨rfl, ht.update hxt _, ho.update hxo _⟩
        have hp' : Above value (Function.update aug f.entry m) p := by
          refine AugOk.above (m := aug f.entry) (hp.congr fun z hz => ?_)
          exact Function.update_of_ne (by rintro rfl; exact hxp hz) _ _
        obtain ⟨i1, i2⟩ := ih ht' hp' hnd'
        refine ⟨i1, fun z hz => ?_⟩
        rw [mem_entries_cons, not_or, not_or] at hz
        exact (i2 z hz.2.2).trans (Function.update_of_ne hz.1 _ _)

end

end RbTree
