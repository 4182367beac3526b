import Mathlib.Tactic

/-!
# Radix trees of tables

A table has `B` entries, and an entry leads to another table or to none: `child t j` is
the table that the entry `j` of `t` leads to. A key has one digit in base `B` for every
level, and `tableAt d k` is the table that the `d` digits of `k` lead to from the root,
the highest digit first.

`Separate` says that no table is reached in two ways. It is kept when an empty entry is
filled with a fresh table, and this changes `tableAt` at one place only.
-/

namespace Radix

variable {α : Type*} {child child' : α → ℕ → Option α} {root t x : α} {B D d d₀ k k₀ j j₀ : ℕ}

section

variable (child : α → ℕ → Option α) (root : α) (B : ℕ)

def tableAt : ℕ → ℕ → Option α
  | 0, _ => some root
  | d + 1, k => (tableAt d (k / B)).bind fun t => child t (k % B)

/-- The keys of up to `D` digits lead to different tables. -/
def Separate (D : ℕ) : Prop :=
  ∀ d ≤ D, ∀ k < B ^ d, ∀ d' ≤ D, ∀ k' < B ^ d', ∀ t,
    tableAt child root B d k = some t → tableAt child root B d' k' = some t → d = d' ∧ k = k'

end

@[simp] theorem tableAt_zero : tableAt child root B 0 k = some root := rfl

theorem tableAt_succ : tableAt child root B (d + 1) k =
    (tableAt child root B d (k / B)).bind fun t => child t (k % B) := rfl

theorem append_div (hj : j < B) : (k * B + j) / B = k := by
  rw [mul_comm, Nat.mul_add_div (by omega), Nat.div_eq_of_lt hj, add_zero]

theorem append_mod (hj : j < B) : (k * B + j) % B = j := by
  rw [mul_comm, Nat.mul_add_mod, Nat.mod_eq_of_lt hj]

theorem tableAt_append (hj : j < B) : tableAt child root B (d + 1) (k * B + j) =
    (tableAt child root B d k).bind fun t => child t j := by
  rw [tableAt_succ, append_div hj, append_mod hj]

theorem div_lt_pow (hk : k < B ^ (d + 1)) : k / B < B ^ d := by
  rw [pow_succ] at hk
  exact Nat.div_lt_of_lt_mul (by rwa [mul_comm])

theorem append_lt_pow (hk : k < B ^ d) (hj : j < B) : k * B + j < B ^ (d + 1) := by
  have : (k + 1) * B ≤ B ^ d * B := Nat.mul_le_mul_right B hk
  rw [pow_succ]
  linarith

/-- The tables depend on the entries of the tables above them only. -/
theorem tableAt_congr (h : ∀ d < D, ∀ k < B ^ d, ∀ t, tableAt child root B d k = some t →
    ∀ j < B, child' t j = child t j) (hd : d ≤ D) (hk : k < B ^ d) :
    tableAt child' root B d k = tableAt child root B d k := by
  induction d generalizing k with
  | zero => rfl
  | succ d ih =>
      have hk' := div_lt_pow hk
      rw [tableAt_succ, tableAt_succ, ih (by omega) hk']
      cases ht : tableAt child root B d (k / B) with
      | none => rfl
      | some t =>
        have hB : 0 < B := Nat.pos_of_ne_zero fun h0 => by simp [h0] at hk
        exact h d (by omega) _ hk' t ht _ (Nat.mod_lt k hB)

theorem Separate.congr (hs : Separate child root B D)
    (h : ∀ d ≤ D, ∀ k < B ^ d, tableAt child' root B d k = tableAt child root B d k) :
    Separate child' root B D := by
  intro d hd k hk d' hd' k' hk' t ht ht'
  rw [h d hd k hk] at ht
  rw [h d' hd' k' hk'] at ht'
  exact hs d hd k hk d' hd' k' hk' t ht ht'

/-- There is one table if the root is empty. -/
theorem tableAt_of_empty (h : ∀ j < B, child root j = none) (hk : k < B ^ (d + 1)) :
    tableAt child root B (d + 1) k = none := by
  have hB : 0 < B := Nat.pos_of_ne_zero fun h0 => by simp [h0] at hk
  induction d generalizing k with
  | zero => exact h _ (Nat.mod_lt k hB)
  | succ d ih => rw [tableAt_succ, ih (div_lt_pow hk), Option.bind_none]

theorem separate_of_empty (h : ∀ j < B, child root j = none) : Separate child root B D := by
  intro d _ k hk d' _ k' hk' t ht ht'
  cases d with
  | succ d => simp [tableAt_of_empty h hk] at ht
  | zero =>
      cases d' with
      | succ d' => simp [tableAt_of_empty h hk'] at ht'
      | zero => exact ⟨rfl, by rw [pow_zero] at hk hk'; omega⟩

/-- The empty entry `j₀` of the table `t` is filled with the fresh and empty table `x`. -/
structure Inserted (child child' : α → ℕ → Option α) (root : α) (B D d₀ k₀ j₀ : ℕ)
    (t x : α) : Prop where
  depth : d₀ < D
  key : k₀ < B ^ d₀
  index : j₀ < B
  table : tableAt child root B d₀ k₀ = some t
  empty : child t j₀ = none
  entry : child' t j₀ = some x
  fresh : ∀ d ≤ D, ∀ k < B ^ d, tableAt child root B d k ≠ some x
  new : ∀ j < B, child' x j = none
  same : ∀ d < D, ∀ k < B ^ d, ∀ u, tableAt child root B d k = some u →
    ∀ j < B, u ≠ t ∨ j ≠ j₀ → child' u j = child u j

namespace Inserted

theorem tableAt_none (h : Inserted child child' root B D d₀ k₀ j₀ t x) :
    tableAt child root B (d₀ + 1) (k₀ * B + j₀) = none := by
  rw [tableAt_append h.index, h.table, Option.bind_some, h.empty]

theorem tableAt_eq (h : Inserted child child' root B D d₀ k₀ j₀ t x)
    (hs : Separate child root B D) (hd : d ≤ D) (hk : k < B ^ d) :
    tableAt child' root B d k =
      if d = d₀ + 1 ∧ k = k₀ * B + j₀ then some x else tableAt child root B d k := by
  have hB : 0 < B := lt_of_le_of_lt (Nat.zero_le _) h.index
  induction d generalizing k with
  | zero => simp
  | succ d ih =>
      have hk' := div_lt_pow hk
      rw [tableAt_succ, ih (by omega) hk']
      split
      · -- below the new table there is nothing, as there was nothing at its place
        rename_i hc
        obtain ⟨rfl, hkey⟩ := hc
        rw [Option.bind_some, h.new _ (Nat.mod_lt _ hB), if_neg (by omega), tableAt_succ, hkey,
          h.tableAt_none, Option.bind_none]
      · cases ht : tableAt child root B d (k / B) with
        | none =>
            rw [if_neg, tableAt_succ, ht]
            · rfl
            · rintro ⟨he, rfl⟩
              obtain rfl : d = d₀ := by omega
              rw [append_div h.index, h.table] at ht
              simp at ht
        | some u =>
            rw [Option.bind_some]
            by_cases hu : u = t ∧ k % B = j₀
            · obtain ⟨rfl, rfl⟩ := hu
              obtain ⟨rfl, rfl⟩ := hs d (by omega) _ hk' d₀ (by have := h.depth; omega) _ h.key u ht
                h.table
              rw [if_pos ⟨rfl, (Nat.div_add_mod' k B).symm⟩, h.entry]
            · rw [if_neg, tableAt_succ, ht, Option.bind_some]
              · exact h.same d (by omega) _ hk' u ht _ (Nat.mod_lt _ hB) (not_and_or.mp hu)
              · rintro ⟨he, rfl⟩
                obtain rfl : d = d₀ := by omega
                rw [append_div h.index, h.table] at ht
                exact hu ⟨(Option.some.inj ht).symm, append_mod h.index⟩

/-- A table that was there is still there. -/
theorem tableAt_of_some (h : Inserted child child' root B D d₀ k₀ j₀ t x)
    (hs : Separate child root B D) (hd : d ≤ D) (hk : k < B ^ d) {u : α}
    (hu : tableAt child root B d k = some u) : tableAt child' root B d k = some u := by
  rw [h.tableAt_eq hs hd hk, if_neg, hu]
  rintro ⟨rfl, rfl⟩
  rw [h.tableAt_none] at hu
  simp at hu

theorem separate (h : Inserted child child' root B D d₀ k₀ j₀ t x)
    (hs : Separate child root B D) : Separate child' root B D := by
  intro d hd k hk d' hd' k' hk' u hu hu'
  rw [h.tableAt_eq hs hd hk] at hu
  rw [h.tableAt_eq hs hd' hk'] at hu'
  split at hu <;> split at hu'
  · rename_i h1 h2
    exact ⟨h1.1.trans h2.1.symm, h1.2.trans h2.2.symm⟩
  · obtain rfl := Option.some.inj hu
    exact absurd hu' (h.fresh d' hd' k' hk')
  · obtain rfl := Option.some.inj hu'
    exact absurd hu (h.fresh d hd k hk)
  · exact hs d hd k hk d' hd' k' hk' u hu hu'

end Inserted

end Radix
