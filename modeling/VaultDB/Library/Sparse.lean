import Mathlib.Data.List.TakeWhile
import Mathlib.Order.Lattice

/-! # Sparse indexes

Of a list in key order every `n`-th element is sampled. A search for a key
starts at the last sample that is not above it, and goes on until it meets the
key or a greater one. It looks at no more than `n + 1` elements, however long
the list is (`exists_start`, `steps_le_of_drop`).
-/

namespace Sparse

variable {α K : Type*} [LinearOrder K]

/-- Every `n`-th element, the first one behind `d` others. -/
def sample (n : Nat) : Nat → List α → List α
  | _, [] => []
  | 0, a :: l => a :: sample n (n - 1) l
  | d + 1, _ :: l => sample n d l

/-- How many elements a search looks at that stops at the key or a greater
one. -/
def steps (k : K) : List K → Nat
  | [] => 0
  | a :: l => if a < k then steps k l + 1 else 1

/-- The last sample that is not above the key. -/
def start (key : α → K) (k : K) (samples : List α) : Option α :=
  (samples.takeWhile fun a => ¬ k < key a).getLast?

/-- A search comes to its end at the first greater key. -/
theorem steps_le_of_drop {k : K} {l : List K} {m : Nat} (h : ∀ b ∈ l.drop m, k < b) :
    steps k l ≤ m + 1 := by
  induction l generalizing m with
  | nil => exact Nat.zero_le _
  | cons a l ih =>
      unfold steps
      split_ifs with hlt
      · cases m with
        | zero => exact absurd (h a List.mem_cons_self) (not_lt_of_gt hlt)
        | succ m => exact Nat.succ_le_succ (ih h)
      · exact Nat.le_add_left 1 m

theorem start_cons {key : α → K} {k : K} {a : α} {samples : List α} (hle : ¬ k < key a) :
    start key k (a :: samples) = some ((start key k samples).getD a) := by
  unfold start
  rw [List.takeWhile_cons_of_pos (by simpa using hle), List.getLast?_cons]

theorem start_cons_of_lt {key : α → K} {k : K} {a : α} {samples : List α} (hlt : k < key a) :
    start key k (a :: samples) = none := by
  unfold start
  rw [List.takeWhile_cons_of_neg (by simpa using hlt), List.getLast?_nil]

/-- Where the search starts, and what is greater than the key: all that comes
`n` elements later. Where no sample is below the key, all from the first sample
on is greater. -/
theorem exists_start {key : α → K} {l : List α} (hsorted : l.Pairwise fun a b => key a < key b)
    (k : K) (n d : Nat) :
    (start key k (sample n d l) = none ∧ ∀ a ∈ l.drop d, k < key a) ∨
    ∃ pre a post, start key k (sample n d l) = some a ∧ l = pre ++ a :: post ∧ ¬ k < key a ∧
      ∀ b ∈ post.drop (n - 1), k < key b := by
  induction l generalizing d with
  | nil => exact Or.inl ⟨by cases d <;> rfl, by simp⟩
  | cons a l ih =>
      obtain ⟨hfirst, hrest⟩ := List.pairwise_cons.mp hsorted
      cases d with
      | zero =>
          show (start key k (a :: sample n (n - 1) l) = none ∧ _) ∨
            ∃ pre b post, start key k (a :: sample n (n - 1) l) = some b ∧ _
          by_cases hlt : k < key a
          · -- the first element is greater, and so are all behind it
            refine Or.inl ⟨start_cons_of_lt hlt, ?_⟩
            intro b hb
            rcases List.mem_cons.mp hb with rfl | hb
            · exact hlt
            · exact hlt.trans (hfirst b hb)
          · rw [start_cons hlt]
            rcases ih hrest (n - 1) with
              ⟨hnone, hgreater⟩ | ⟨pre, b, post, hsome, rfl, hle, hgreater⟩
            · exact Or.inr ⟨[], a, l, by rw [hnone]; rfl, rfl, hlt, hgreater⟩
            · exact Or.inr ⟨a :: pre, b, post, by rw [hsome]; rfl, rfl, hle, hgreater⟩
      | succ d =>
          show (start key k (sample n d l) = none ∧ _) ∨
            ∃ pre b post, start key k (sample n d l) = some b ∧ _
          rcases ih hrest d with ⟨hnone, hgreater⟩ | ⟨pre, b, post, hsome, rfl, hle, hgreater⟩
          · exact Or.inl ⟨hnone, hgreater⟩
          · exact Or.inr ⟨a :: pre, b, post, hsome, rfl, hle, hgreater⟩

end Sparse
