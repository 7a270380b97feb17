import Mathlib.Algebra.Group.Int.Defs
import Mathlib.Algebra.Group.Nat.Defs
import Mathlib.Data.List.Lex
import Mathlib.Tactic.Common

/-! # Byte strings

Byte strings in the order of `std::string` (unsigned bytes, lexicographic) and
the decimal texts of numbers. Texts of one length are ordered as their numbers
are, whatever follows them (`decimal_append_lt`).
-/

namespace Text

/-- A string of bytes. -/
abbrev Bytes := List UInt8

instance byteOrder : LinearOrder UInt8 where
  le_refl := UInt8.le_refl
  le_trans _ _ _ := UInt8.le_trans
  le_antisymm _ _ := UInt8.le_antisymm
  le_total := UInt8.le_total
  lt_iff_le_not_ge a b := by
    simp only [UInt8.lt_iff_toNat_lt, UInt8.le_iff_toNat_le]
    omega
  toDecidableLE := inferInstance
  toDecidableLT := inferInstance
  toDecidableEq := inferInstance

/-- The bytes of a literal. -/
def ascii (s : String) : Bytes := s.toUTF8.data.toList

/-- `s.find(c, pos)`; `none` for `npos`. -/
def find (c : UInt8) (s : Bytes) (pos : Nat) : Option Nat :=
  ((s.drop pos).findIdx? fun b => b = c).map fun i => pos + i

theorem find_zero (c : UInt8) (s : Bytes) : find c s 0 = s.findIdx? fun b => b = c := by
  unfold find
  simp

theorem find_zero_eq_none {c : UInt8} {s : Bytes} : find c s 0 = none ↔ c ∉ s := by
  rw [find_zero, List.findIdx?_eq_none_iff]
  simp only [decide_eq_false_iff_not]
  constructor
  · intro h hmem
    exact h c hmem rfl
  · rintro h b hb rfl
    exact h hb

/-- What is found is the first occurrence. -/
theorem find_zero_eq_some {c : UInt8} {s : Bytes} {pos : Nat} (h : find c s 0 = some pos) :
    s = s.take pos ++ c :: s.drop (pos + 1) ∧ c ∉ s.take pos := by
  rw [find_zero, List.findIdx?_eq_some_iff_getElem] at h
  rcases h with ⟨hlt, hc, hbefore⟩
  have hget : s[pos] = c := of_decide_eq_true hc
  refine ⟨?_, ?_⟩
  · rw [← hget, List.getElem_cons_drop, List.take_append_drop]
  · intro hmem
    rcases List.getElem_of_mem hmem with ⟨i, hi, heq⟩
    rw [List.length_take] at hi
    have hbi := hbefore i (by omega)
    rw [List.getElem_take] at heq
    exact hbi (decide_eq_true heq)

/-- A byte that is new is found where it stands. -/
theorem find_zero_append {c : UInt8} {s rest : Bytes} (h : c ∉ s) :
    find c (s ++ c :: rest) 0 = some s.length := by
  have hnone := find_zero_eq_none.mpr h
  rw [find_zero] at hnone ⊢
  rw [List.findIdx?_append, hnone, List.findIdx?_cons]
  simp

/-- What stands in front of the first `c` is determined. -/
theorem append_cons_inj {c : UInt8} {s s' rest rest' : Bytes} (h : c ∉ s) (h' : c ∉ s')
    (heq : s ++ c :: rest = s' ++ c :: rest') : s = s' ∧ rest = rest' := by
  have hfind : find c (s ++ c :: rest) 0 = some s.length := find_zero_append h
  rw [heq, find_zero_append h'] at hfind
  rcases List.append_inj heq (Option.some.inj hfind).symm with ⟨hs, hrest⟩
  exact ⟨hs, (List.cons.inj hrest).2⟩

/-! ## Order -/

theorem append_lt_append_left (c : Bytes) {a b : Bytes} (h : a < b) : c ++ a < c ++ b :=
  List.append_left_lt h

/-- Strings of one length compare before anything behind them does. -/
theorem append_lt_append_of_length_eq {a b : Bytes} (hlen : a.length = b.length) (h : a < b)
    (c d : Bytes) : a ++ c < b ++ d := by
  induction a generalizing b with
  | nil =>
      have hb : b = [] := List.length_eq_zero_iff.mp hlen.symm
      rw [hb] at h
      exact absurd h (lt_irrefl _)
  | cons x a ih =>
      cases b with
      | nil => cases hlen
      | cons y b =>
          simp only [List.length_cons, Nat.add_right_cancel_iff] at hlen
          rw [List.cons_lt_cons_iff] at h
          rw [List.cons_append, List.cons_append, List.cons_lt_cons_iff]
          -- the first bytes decide, or they are equal and the rest does
          rcases h with h | ⟨rfl, h⟩
          · exact Or.inl h
          · exact Or.inr ⟨rfl, ih hlen h⟩

/-! ## Decimal numbers -/

/-- The byte of a decimal digit. -/
def digit (d : Nat) : UInt8 := UInt8.ofNat d.digitChar.toNat

/-- `std::to_string` of a number that is not negative. -/
def decimal (n : Nat) : Bytes := (Nat.toDigits 10 n).map fun c => UInt8.ofNat c.toNat

theorem toNat_digit {d : Nat} (h : d < 10) : (digit d).toNat = 48 + d := by
  unfold digit
  rw [Nat.toNat_digitChar_of_lt_ten h, UInt8.toNat_ofNat']
  omega

theorem digit_lt_digit {a b : Nat} (hb : b < 10) (h : a < b) : digit a < digit b := by
  rw [UInt8.lt_iff_toNat_lt, toNat_digit (h.trans hb), toNat_digit hb]
  omega

theorem digit_injective {a b : Nat} (ha : a < 10) (hb : b < 10) (h : digit a = digit b) :
    a = b := by
  have hnat := congrArg UInt8.toNat h
  rw [toNat_digit ha, toNat_digit hb] at hnat
  omega

theorem decimal_of_lt {n : Nat} (h : n < 10) : decimal n = [digit n] := by
  unfold decimal
  rw [Nat.toDigits_of_lt_base h]
  rfl

theorem decimal_of_ge {n : Nat} (h : 10 ≤ n) :
    decimal n = decimal (n / 10) ++ [digit (n % 10)] := by
  unfold decimal
  rw [Nat.toDigits_of_base_le (by omega) h, List.map_append]
  rfl

theorem decimal_ne_nil (n : Nat) : decimal n ≠ [] := by
  unfold decimal
  simp

/-- A decimal text holds digits only. -/
theorem mem_decimal {n : Nat} {b : UInt8} (h : b ∈ decimal n) : ∃ d, d < 10 ∧ b = digit d := by
  induction n using Nat.strong_induction_on with
  | _ n ih =>
      by_cases hn : n < 10
      · rw [decimal_of_lt hn] at h
        exact ⟨n, hn, List.mem_singleton.mp h⟩
      · rw [decimal_of_ge (by omega), List.mem_append] at h
        rcases h with h | h
        · exact ih (n / 10) (by omega) h
        · exact ⟨n % 10, by omega, List.mem_singleton.mp h⟩

/-- A byte that is no digit does not stand in a decimal text. -/
theorem notMem_decimal {n : Nat} {b : UInt8} (h : b.toNat < 48 ∨ 57 < b.toNat) :
    b ∉ decimal n := by
  intro hmem
  rcases mem_decimal hmem with ⟨d, hd, rfl⟩
  rw [toNat_digit hd] at h
  omega

theorem decimal_injective {a b : Nat} (h : decimal a = decimal b) : a = b := by
  induction a using Nat.strong_induction_on generalizing b with
  | _ a ih =>
      by_cases ha : a < 10
      · by_cases hb : b < 10
        · rw [decimal_of_lt ha, decimal_of_lt hb] at h
          exact digit_injective ha hb (List.singleton_inj.mp h)
        · -- a text of one digit against one of several
          rw [decimal_of_lt ha, decimal_of_ge (n := b) (by omega)] at h
          have hlen := congrArg List.length h
          have hpos := List.length_pos_iff.mpr (decimal_ne_nil (b / 10))
          simp only [List.length_append, List.length_singleton] at hlen
          omega
      · by_cases hb : b < 10
        · rw [decimal_of_ge (n := a) (by omega), decimal_of_lt hb] at h
          have hlen := congrArg List.length h
          have hpos := List.length_pos_iff.mpr (decimal_ne_nil (a / 10))
          simp only [List.length_append, List.length_singleton] at hlen
          omega
        · -- the last digits agree, and so do the numbers without them
          rw [decimal_of_ge (n := a) (by omega), decimal_of_ge (n := b) (by omega)] at h
          rcases List.append_inj' h rfl with ⟨hdiv, hmod⟩
          have hq := ih (a / 10) (by omega) hdiv
          have hr := digit_injective (by omega) (by omega) (List.singleton_inj.mp hmod)
          omega

/-- Numbers written with the same number of digits are ordered as their texts. -/
theorem decimal_lt_decimal {a b : Nat} (hlen : (decimal a).length = (decimal b).length)
    (h : a < b) : decimal a < decimal b := by
  induction a using Nat.strong_induction_on generalizing b with
  | _ a ih =>
      by_cases hb : b < 10
      · rw [decimal_of_lt (h.trans hb), decimal_of_lt hb, List.cons_lt_cons_iff]
        exact Or.inl (digit_lt_digit hb h)
      · have hb' := decimal_of_ge (n := b) (by omega)
        have hbpos := List.length_pos_iff.mpr (decimal_ne_nil (b / 10))
        by_cases ha : a < 10
        · -- then the texts are of different lengths
          rw [decimal_of_lt ha, hb'] at hlen
          simp only [List.length_append, List.length_singleton] at hlen
          omega
        · have ha' := decimal_of_ge (n := a) (by omega)
          rw [ha', hb'] at hlen ⊢
          simp only [List.length_append, List.length_singleton, Nat.add_right_cancel_iff] at hlen
          by_cases hq : a / 10 < b / 10
          · exact append_lt_append_of_length_eq hlen (ih (a / 10) (by omega) hlen hq) _ _
          · -- the leading digits agree and the last one decides
            have heq : a / 10 = b / 10 := by omega
            rw [heq]
            apply append_lt_append_left
            rw [List.cons_lt_cons_iff]
            exact Or.inl (digit_lt_digit (by omega) (by omega))

theorem decimal_append_lt {a b : Nat} (hlen : (decimal a).length = (decimal b).length)
    (h : a < b) (c d : Bytes) : decimal a ++ c < decimal b ++ d :=
  append_lt_append_of_length_eq hlen (decimal_lt_decimal hlen h) c d

/-! ## Reading numbers -/

/-- `std::isspace` in the default locale. -/
def isSpace (b : UInt8) : Bool := b = 32 || (9 ≤ b && b ≤ 13)

def isDigit (b : UInt8) : Bool := 48 ≤ b && b ≤ 57

/-- The number a string of digits stands for. -/
def digitsValue (ds : Bytes) : Nat := ds.foldl (fun n d => 10 * n + (d.toNat - 48)) 0

/-- `std::stoll`: blanks, a sign and as many digits as there are, whatever
follows. `none` where it throws: no digit, or a number outside `int64_t`. -/
def stoll (s : Bytes) : Option Int :=
  let s := s.dropWhile isSpace
  let negative := s.head? = some 45
  let s := if s.head? = some 45 ∨ s.head? = some 43 then s.tail else s
  let digits := s.takeWhile isDigit
  if digits.isEmpty then none
  else
    let n : Int := if negative then - digitsValue digits else digitsValue digits
    if -2 ^ 63 ≤ n ∧ n < 2 ^ 63 then some n else none

/-- `std::stoi`: `none` also for a number outside `int`. -/
def stoi (s : Bytes) : Option Int :=
  (stoll s).filter fun n => -2 ^ 31 ≤ n ∧ n < 2 ^ 31

/-- `std::to_string` of a signed number. -/
def decimalInt (n : Int) : Bytes := if n < 0 then 45 :: decimal n.natAbs else decimal n.natAbs

/-- A byte that is no digit and no sign does not stand in the text of a number. -/
theorem notMem_decimalInt {n : Int} {b : UInt8} (hsign : b ≠ 45)
    (h : b.toNat < 48 ∨ 57 < b.toNat) : b ∉ decimalInt n := by
  unfold decimalInt
  split_ifs
  · rw [List.mem_cons, not_or]
    exact ⟨hsign, notMem_decimal h⟩
  · exact notMem_decimal h

/-! ## Words -/

/-- The words of a text, the first one continuing `word`. -/
def wordsFrom : Bytes → Bytes → List Bytes
  | word, [] => if word.isEmpty then [] else [word]
  | word, c :: s =>
    if isSpace c then
      if word.isEmpty then wordsFrom [] s else word :: wordsFrom [] s
    else wordsFrom (word ++ [c]) s

/-- What `stream >> token` extracts, time after time, until it fails. -/
def words (s : Bytes) : List Bytes := wordsFrom [] s

theorem mem_wordsFrom {word s w : Bytes} (hword : ∀ b ∈ word, ¬ isSpace b)
    (h : w ∈ wordsFrom word s) : ∀ b ∈ w, ¬ isSpace b := by
  have hnil : ∀ b ∈ ([] : Bytes), ¬ isSpace b := by simp
  induction s generalizing word with
  | nil =>
      unfold wordsFrom at h
      split_ifs at h
      · cases h
      · rw [List.mem_singleton.mp h]
        exact hword
  | cons c s ih =>
      unfold wordsFrom at h
      split_ifs at h with hc hempty
      · exact ih hnil h
      · -- a blank ends the word
        rcases List.mem_cons.mp h with rfl | h
        · exact hword
        · exact ih hnil h
      · apply ih ?_ h
        intro b hb
        rcases List.mem_append.mp hb with hb | hb
        · exact hword b hb
        · rw [List.mem_singleton.mp hb]
          exact hc

/-- No word contains a blank. -/
theorem not_isSpace_of_mem_words {s w : Bytes} (h : w ∈ words s) : ∀ b ∈ w, ¬ isSpace b :=
  mem_wordsFrom (by simp) h

end Text
