import Mathlib.Data.Fintype.BigOperators
import Mathlib.Tactic.Common

/-! # Density of a set of positions

Of `m` positions some are marked. Among the `m ^ k` tuples of `k` positions
those that lie in the marked ones are as many as the number of marked ones to
the `k`-th power (`card_hits`). So a filter with few marks, read at `k`
positions at a time, is hit by few tuples (`hits_le`).
-/

namespace Density

variable {m : Nat} {marked : Finset (Fin m)}

/-- The tuples of `k` positions that are all marked. -/
def hits (k : Nat) (marked : Finset (Fin m)) : Finset (Fin k → Fin m) :=
  Fintype.piFinset fun _ => marked

theorem mem_hits {k : Nat} {t : Fin k → Fin m} : t ∈ hits k marked ↔ ∀ j, t j ∈ marked :=
  Fintype.mem_piFinset

theorem card_hits (k : Nat) (marked : Finset (Fin m)) :
    (hits k marked).card = marked.card ^ k :=
  Fintype.card_piFinset_const marked k

/-- A share of `a / b` of the positions gives a share of `(a / b) ^ k` of the
tuples. -/
theorem hits_le {a b : Nat} (h : b * marked.card ≤ a * m) (k : Nat) :
    b ^ k * (hits k marked).card ≤ a ^ k * Fintype.card (Fin k → Fin m) := by
  have htuples : Fintype.card (Fin k → Fin m) = m ^ k := by
    rw [Fintype.card_fun, Fintype.card_fin, Fintype.card_fin]
  rw [card_hits, htuples, ← Nat.mul_pow, ← Nat.mul_pow]
  exact Nat.pow_le_pow_left h k

/-- Marks come from a list of positions, each taken for one at most. -/
theorem card_le_length (positions : List Nat) (h : ∀ i ∈ marked, (i : Nat) ∈ positions) :
    marked.card ≤ positions.length := by
  have hsub : marked.image Fin.val ⊆ positions.toFinset := by
    intro n hn
    obtain ⟨i, hi, rfl⟩ := Finset.mem_image.mp hn
    exact List.mem_toFinset.mpr (h i hi)
  calc marked.card = (marked.image Fin.val).card :=
        (Finset.card_image_of_injective marked Fin.val_injective).symm
    _ ≤ positions.toFinset.card := Finset.card_le_card hsub
    _ ≤ positions.length := List.toFinset_card_le positions

end Density
