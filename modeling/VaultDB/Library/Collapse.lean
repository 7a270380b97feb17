import VaultDB.Library.Layers

/-! # Collapsing the front of a list

Elements come in at the end of a list, and now and then the first two are
merged into one. Whatever the order of these steps, what is left is the list of
all that came in with its first elements folded into one: only the number of
merges matters (`collapse_concat`, `collapse_succ`). Merging that is an overlay
of maps leaves the stack of them what it was (`newest_collapse`).
-/

namespace Collapse

variable {α K V : Type*} {merge : α → α → α} {k : Nat} {a b : α} {l rest : List α}

/-- The first two elements merged, `k` times. -/
def collapse (merge : α → α → α) : Nat → List α → List α
  | k + 1, a :: b :: l => collapse merge k (merge a b :: l)
  | _, l => l

@[simp] theorem collapse_zero (l : List α) : collapse merge 0 l = l := by
  unfold collapse
  rfl

/-- Two elements that can be merged. -/
theorem exists_two (h : k + 1 < l.length) : ∃ a b rest, l = a :: b :: rest := by
  obtain ⟨a, l₁, rfl⟩ := List.exists_cons_of_length_pos (show 0 < l.length by omega)
  have hpos : 0 < l₁.length := by
    rw [List.length_cons] at h
    omega
  obtain ⟨b, rest, rfl⟩ := List.exists_cons_of_length_pos hpos
  exact ⟨a, b, rest, rfl⟩

theorem length_collapse (merge : α → α → α) (h : k < l.length ∨ k = 0) :
    (collapse merge k l).length + k = l.length := by
  induction k generalizing l with
  | zero => rw [collapse_zero, Nat.add_zero]
  | succ k ih =>
      have hlt : k + 1 < l.length := h.resolve_right (Nat.succ_ne_zero k)
      obtain ⟨a, b, rest, rfl⟩ := exists_two hlt
      have hrest : k < (merge a b :: rest).length := Nat.lt_of_succ_lt_succ hlt
      have hlen := ih (Or.inl hrest)
      simp only [collapse, List.length_cons] at hlen ⊢
      omega

/-- What comes in does not stand in the way of the merges. -/
theorem collapse_concat (h : k < l.length ∨ k = 0) (x : α) :
    collapse merge k (l ++ [x]) = collapse merge k l ++ [x] := by
  induction k generalizing l with
  | zero => rw [collapse_zero, collapse_zero]
  | succ k ih =>
      have hlt : k + 1 < l.length := h.resolve_right (Nat.succ_ne_zero k)
      obtain ⟨a, b, rest, rfl⟩ := exists_two hlt
      exact ih (Or.inl (show k < (merge a b :: rest).length from Nat.lt_of_succ_lt_succ hlt))

/-- One more merge. -/
theorem collapse_succ (h : k + 1 < l.length) (hsplit : collapse merge k l = a :: b :: rest) :
    collapse merge (k + 1) l = merge a b :: rest := by
  induction k generalizing l with
  | zero =>
      rw [collapse_zero] at hsplit
      rw [hsplit]
      rfl
  | succ k ih =>
      obtain ⟨c, d, rest', rfl⟩ := exists_two h
      exact ih (show k + 1 < (merge c d :: rest').length from Nat.lt_of_succ_lt_succ h) hsplit

/-- Merges that lay the second map over the first do not change what the stack
reads as. -/
theorem newest_collapse {read : α → K → Option V} {P : α → Prop}
    (hkeep : ∀ a b, P a → P b → P (merge a b))
    (hread : ∀ a b key, P a → P b → read (merge a b) key = (read b key).or (read a key))
    (hl : ∀ a ∈ l, P a) (key : K) :
    Layers.newest ((collapse merge k l).map read) key = Layers.newest (l.map read) key := by
  induction k generalizing l with
  | zero => rw [collapse_zero]
  | succ k ih =>
      rcases l with _ | ⟨a, _ | ⟨b, rest⟩⟩
      · rfl
      · rfl
      · have ha := hl a List.mem_cons_self
        have hb := hl b (List.mem_cons_of_mem _ List.mem_cons_self)
        have hmerged : ∀ c ∈ merge a b :: rest, P c := by
          intro c hc
          rcases List.mem_cons.mp hc with rfl | hc
          · exact hkeep a b ha hb
          · exact hl c (List.mem_cons_of_mem _ (List.mem_cons_of_mem _ hc))
        have hrest := ih hmerged
        rw [List.map_cons, Layers.newest_cons, hread a b key ha hb, ← Option.or_assoc] at hrest
        exact hrest

end Collapse
