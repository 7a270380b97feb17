import Mathlib.Data.List.DropRight

/-! # Pieces of a text

A text is split at its separators, and the empty pieces are dropped (`pieces`);
separators at the end make no difference (`pieces_rdropWhile`). Words are
spread with a separator in front of each. However such a text is cut off, its
pieces are the first words, and at most one more of which the end is missing
(`spread_prefix`, `pieces_spread_append`). A word that is an assignment is cut
in its name, or in its value (`assignment_prefix`).
-/

namespace Pieces

variable {α : Type*} {sep : α → Bool} {c : α}

/-- The maximal pieces without separators. -/
def pieces (sep : α → Bool) (s : List α) : List (List α) :=
  (s.splitOnP sep).filter fun w => !w.isEmpty

/-- The words, each with the separator in front. -/
def spread (c : α) (ws : List (List α)) : List α := ws.flatMap fun w => c :: w

@[simp] theorem pieces_nil : pieces sep [] = [] := by
  simp [pieces]

/-- A text splits at each of its separators. -/
theorem pieces_append_cons (hc : sep c) (s t : List α) :
    pieces sep (s ++ c :: t) = pieces sep s ++ pieces sep t := by
  unfold pieces
  rw [List.splitOnP_append_cons s t hc, List.filter_append]

theorem pieces_cons (hc : sep c) (s : List α) : pieces sep (c :: s) = pieces sep s := by
  simpa using pieces_append_cons hc [] s

/-- A text without separators is one piece, if there is anything of it. -/
theorem pieces_word {w : List α} (hne : w ≠ []) (hw : ∀ b ∈ w, sep b = false) :
    pieces sep w = [w] := by
  unfold pieces
  rw [List.splitOnP_eq_singleton hw]
  simp [hne]

/-- A separator in front makes no difference. -/
theorem pieces_tail {s : List α} (h : ∀ b, s.head? = some b → sep b) :
    pieces sep s.tail = pieces sep s := by
  cases s with
  | nil => rfl
  | cons b s => exact (pieces_cons (h b rfl) s).symm

theorem pieces_separators {s : List α} (h : ∀ b ∈ s, sep b) : pieces sep s = [] := by
  induction s with
  | nil => exact pieces_nil
  | cons b s ih =>
      rw [pieces_cons (h b List.mem_cons_self)]
      exact ih fun d hd => h d (List.mem_cons_of_mem b hd)

/-- Separators behind a text belong to no piece. -/
theorem pieces_append_separators (s : List α) {t : List α} (h : ∀ b ∈ t, sep b) :
    pieces sep (s ++ t) = pieces sep s := by
  cases t with
  | nil => rw [List.append_nil]
  | cons b t =>
      rw [pieces_append_cons (h b List.mem_cons_self),
        pieces_separators fun d hd => h d (List.mem_cons_of_mem b hd), List.append_nil]

theorem pieces_rdropWhile (s : List α) : pieces sep (s.rdropWhile sep) = pieces sep s := by
  have hsplit : s.rdropWhile sep ++ s.rtakeWhile sep = s := List.rdropWhile_append_rtakeWhile
  calc pieces sep (s.rdropWhile sep)
      = pieces sep (s.rdropWhile sep ++ s.rtakeWhile sep) :=
        (pieces_append_separators _ fun b hb => List.mem_rtakeWhile_imp hb).symm
    _ = pieces sep s := by rw [hsplit]

/-- What ends with no separator is not touched. -/
theorem rdropWhile_append {s : List α} (h : s.rdropWhile sep = s) (t : List α) :
    (s ++ t).rdropWhile sep = s ++ t.rdropWhile sep := by
  unfold List.rdropWhile at h ⊢
  rw [List.reverse_append, List.dropWhile_append]
  split_ifs with hempty
  · rw [h, List.isEmpty_iff.mp hempty, List.reverse_nil, List.append_nil]
  · rw [List.reverse_append, List.reverse_reverse]

/-! ## Words that are spread -/

@[simp] theorem spread_nil : spread c [] = [] := rfl

@[simp] theorem spread_cons (w : List α) (ws : List (List α)) :
    spread c (w :: ws) = c :: (w ++ spread c ws) := rfl

theorem spread_head {ws : List (List α)} {b : α} {s : List α} (h : b :: s <+: spread c ws) :
    b = c := by
  cases ws with
  | nil => cases List.prefix_nil.mp h
  | cons w ws => exact (List.cons_prefix_cons.mp h).1

/-- A first part of a list that is another one and more. -/
theorem prefix_append {p s t : List α} (h : p <+: s ++ t) :
    p <+: s ∨ ∃ q, p = s ++ q ∧ q <+: t := by
  rcases List.prefix_or_prefix_of_prefix h (List.prefix_append s t) with hp | ⟨q, rfl⟩
  · exact Or.inl hp
  · exact Or.inr ⟨q, rfl, (List.prefix_append_right_inj s).mp h⟩

/-- The first words, and of the next one a part. -/
theorem spread_prefix {ws : List (List α)} {p : List α} (hp : p <+: spread c ws) :
    ∃ before after, ws = before ++ after ∧ (p = spread c before ∨
      ∃ w later part, after = w :: later ∧ part <+: w ∧ p = spread c before ++ c :: part) := by
  induction ws generalizing p with
  | nil => exact ⟨[], [], rfl, Or.inl (List.prefix_nil.mp hp)⟩
  | cons w ws ih =>
      rw [spread_cons] at hp
      rcases List.prefix_cons_iff.mp hp with rfl | ⟨q, rfl, hq⟩
      · exact ⟨[], w :: ws, rfl, Or.inl rfl⟩
      · rcases prefix_append hq with hpart | ⟨r, rfl, hr⟩
        · exact ⟨[], w :: ws, rfl, Or.inr ⟨w, ws, q, rfl, hpart, rfl⟩⟩
        · -- the word is complete, and the rest is cut
          obtain ⟨before, after, rfl, hcut⟩ := ih hr
          refine ⟨w :: before, after, rfl, ?_⟩
          rcases hcut with rfl | ⟨w', later, part, hafter, hpart, rfl⟩
          · exact Or.inl rfl
          · exact Or.inr ⟨w', later, part, hafter, hpart, by simp⟩

theorem pieces_spread_append (hc : sep c) {ws : List (List α)}
    (hws : ∀ w ∈ ws, w ≠ [] ∧ ∀ b ∈ w, sep b = false) (s : List α) :
    pieces sep (spread c ws ++ c :: s) = ws ++ pieces sep s := by
  induction ws with
  | nil => exact pieces_cons hc s
  | cons w ws ih =>
      obtain ⟨hne, hw⟩ := hws w List.mem_cons_self
      have hrest := ih fun w' hw' => hws w' (List.mem_cons_of_mem w hw')
      have hfirst : ∀ t, pieces sep (c :: (w ++ c :: t)) = w :: pieces sep t := by
        intro t
        rw [pieces_cons hc, pieces_append_cons hc, pieces_word hne hw]
        rfl
      cases ws with
      | nil => simpa using hfirst s
      | cons w' ws =>
          rw [spread_cons, List.cons_append, List.append_assoc, spread_cons, List.cons_append,
            hfirst, ← pieces_cons hc, ← List.cons_append, ← spread_cons, hrest]
          rfl

theorem pieces_spread (hc : sep c) {ws : List (List α)}
    (hws : ∀ w ∈ ws, w ≠ [] ∧ ∀ b ∈ w, sep b = false) : pieces sep (spread c ws) = ws := by
  have h := pieces_spread_append hc hws []
  rw [pieces_append_cons hc, pieces_nil, List.append_nil, List.append_nil] at h
  exact h

/-! ## Assignments -/

variable [BEq α] [LawfulBEq α] {name value part : List α}

theorem splitOn_assignment (hname : c ∉ name) (hvalue : c ∉ value) :
    (name ++ c :: value).splitOn c = [name, value] := by
  rw [List.splitOn_append_cons_self_of_not_mem hname, List.splitOn_eq_singleton hvalue]

omit [BEq α] [LawfulBEq α] in
/-- Part of an assignment is part of the name, or the name and part of the
value. -/
theorem assignment_prefix (h : part <+: name ++ c :: value) :
    part <+: name ∨ ∃ read, part = name ++ c :: read ∧ read <+: value := by
  rcases prefix_append h with hpart | ⟨q, rfl, hq⟩
  · exact Or.inl hpart
  · rcases List.prefix_cons_iff.mp hq with rfl | ⟨read, rfl, hread⟩
    · rw [List.append_nil]
      exact Or.inl (List.prefix_refl name)
    · exact Or.inr ⟨read, rfl, hread⟩

end Pieces
