import Mathlib.Data.List.Infix
import Mathlib.Tactic.Common

/-! # Streams cut at a separator

`segments` are the parts of a stream that a separator ends, `rest` is what
follows the last one. A stream is determined by the two (`induction_lines`),
and receiving it in pieces gives the same segments as receiving it whole, when
the rest of one piece is kept in front of the next (`segments_append`).
-/

namespace Lines

variable {α : Type*} [DecidableEq α]

/-- The parts of the stream that a separator ends, in order, without it. -/
def segments (sep : α) : List α → List (List α)
  | [] => []
  | c :: s =>
    if c = sep then [] :: segments sep s
    else
      match segments sep s with
      | [] => []
      | l :: ls => (c :: l) :: ls

/-- What follows the last separator. -/
def rest (sep : α) : List α → List α
  | [] => []
  | c :: s => if sep ∈ c :: s then rest sep s else c :: s

variable {sep : α}

theorem segments_of_notMem {s : List α} (h : sep ∉ s) : segments sep s = [] := by
  induction s with
  | nil => rfl
  | cons c s ih =>
      rcases not_or.mp (mt List.mem_cons.mpr h) with ⟨hne, hs⟩
      unfold segments
      rw [if_neg (Ne.symm hne), ih hs]

theorem rest_of_notMem {s : List α} (h : sep ∉ s) : rest sep s = s := by
  cases s with
  | nil => rfl
  | cons c s =>
      unfold rest
      rw [if_neg h]

/-- A separator ends the first segment. -/
theorem segments_line {l : List α} (h : sep ∉ l) (s : List α) :
    segments sep (l ++ sep :: s) = l :: segments sep s := by
  induction l with
  | nil =>
      rw [List.nil_append, segments, if_pos rfl]
  | cons c l ih =>
      rcases not_or.mp (mt List.mem_cons.mpr h) with ⟨hne, hl⟩
      rw [List.cons_append, segments, if_neg (Ne.symm hne), ih hl]

theorem rest_line (l s : List α) : rest sep (l ++ sep :: s) = rest sep s := by
  induction l with
  | nil =>
      rw [List.nil_append, rest, if_pos List.mem_cons_self]
  | cons c l ih =>
      have hmem : sep ∈ c :: (l ++ sep :: s) := by simp
      rw [List.cons_append, rest, if_pos hmem, ih]

/-- Induction along the separators of a stream. -/
theorem induction_lines (sep : α) {motive : List α → Prop}
    (last : ∀ s, sep ∉ s → motive s)
    (line : ∀ l s, sep ∉ l → motive s → motive (l ++ sep :: s)) (s : List α) : motive s := by
  induction hn : s.length using Nat.strong_induction_on generalizing s with
  | _ n ih =>
      by_cases hmem : sep ∈ s
      · -- what follows the first separator is shorter
        rcases List.eq_append_cons_of_mem hmem with ⟨l, r, hsplit, hl⟩
        rw [hsplit]
        apply line l r hl
        apply ih r.length ?_ r rfl
        rw [← hn, hsplit, List.length_append, List.length_cons]
        omega
      · exact last s hmem

/-- More of a stream: the segments so far stay, and the rest so far goes in
front of what comes. -/
theorem segments_append (s t : List α) :
    segments sep (s ++ t) = segments sep s ++ segments sep (rest sep s ++ t) := by
  induction s using induction_lines sep with
  | last s h => rw [segments_of_notMem h, rest_of_notMem h, List.nil_append]
  | line l s h ih =>
      rw [List.append_assoc, List.cons_append, segments_line h, segments_line h, rest_line, ih,
        List.cons_append]

theorem rest_append (s t : List α) : rest sep (s ++ t) = rest sep (rest sep s ++ t) := by
  induction s using induction_lines sep with
  | last s h => rw [rest_of_notMem h]
  | line l s h ih =>
      rw [List.append_assoc, List.cons_append, rest_line, rest_line, ih]

/-- Ended parts written one after the other are the segments of what they make. -/
theorem segments_flatMap {ls : List (List α)} (h : ∀ l ∈ ls, sep ∉ l) :
    segments sep (ls.flatMap fun l => l ++ [sep]) = ls ∧
      rest sep (ls.flatMap fun l => l ++ [sep]) = [] := by
  induction ls with
  | nil => exact ⟨rfl, rfl⟩
  | cons l ls ih =>
      rcases ih fun l' hl' => h l' (List.mem_cons_of_mem _ hl') with ⟨hsegments, hrest⟩
      rw [List.flatMap_cons, List.append_assoc, List.singleton_append,
        segments_line (h l List.mem_cons_self), rest_line, hsegments, hrest]
      exact ⟨rfl, rfl⟩

end Lines
