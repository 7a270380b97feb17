import Mathlib.Data.List.TakeWhile
import VaultDB.Library.Text

/-! # Texts of numbers

What `std::stoll` accepts: blanks, a sign, digits and whatever follows them
(`Numeral`, `stoll_eq_some_iff`). The full texts of numbers are the ones
without blanks, plus sign and rest (`IntText`). What `std::to_string` makes is
one of them (`intText_decimalInt`), and each reads back as the number it stands
for (`IntText.stoll`).
-/

namespace Text

/-! ## Digits -/

theorem isDigit_iff {b : UInt8} : isDigit b = true ↔ 48 ≤ b.toNat ∧ b.toNat ≤ 57 := by
  unfold isDigit
  rw [Bool.and_eq_true, decide_eq_true_iff, decide_eq_true_iff, UInt8.le_iff_toNat_le,
    UInt8.le_iff_toNat_le]
  exact Iff.rfl

theorem isSpace_iff {b : UInt8} :
    isSpace b = true ↔ b.toNat = 32 ∨ (9 ≤ b.toNat ∧ b.toNat ≤ 13) := by
  unfold isSpace
  rw [Bool.or_eq_true, Bool.and_eq_true, decide_eq_true_iff, decide_eq_true_iff,
    decide_eq_true_iff, UInt8.le_iff_toNat_le, UInt8.le_iff_toNat_le, ← UInt8.toNat_inj]
  exact Iff.rfl

/-- No digit is a blank. -/
theorem not_isSpace_of_isDigit {b : UInt8} (h : isDigit b = true) : isSpace b = false := by
  rw [isDigit_iff] at h
  rw [← Bool.not_eq_true, isSpace_iff]
  omega

theorem isDigit_digit {d : Nat} (h : d < 10) : isDigit (digit d) = true := by
  rw [isDigit_iff, toNat_digit h]
  omega

theorem isDigit_of_mem_decimal {n : Nat} {b : UInt8} (h : b ∈ decimal n) : isDigit b = true := by
  rcases mem_decimal h with ⟨d, hd, rfl⟩
  exact isDigit_digit hd

theorem digitsValue_concat (ds : Bytes) (d : UInt8) :
    digitsValue (ds ++ [d]) = 10 * digitsValue ds + (d.toNat - 48) := by
  unfold digitsValue
  rw [List.foldl_append]
  rfl

/-- A decimal text stands for its number. -/
theorem digitsValue_decimal (n : Nat) : digitsValue (decimal n) = n := by
  induction n using Nat.strong_induction_on with
  | _ n ih =>
      by_cases hn : n < 10
      · rw [decimal_of_lt hn, ← List.nil_append [digit n], digitsValue_concat, toNat_digit hn]
        show 10 * 0 + (48 + n - 48) = n
        omega
      · rw [decimal_of_ge (by omega), digitsValue_concat, ih (n / 10) (by omega),
          toNat_digit (by omega)]
        omega

/-! ## Numerals -/

/-- The parts of a text that starts with a number. -/
structure Numeral where
  blanks : Bytes
  sign : Bytes
  digits : Bytes
  rest : Bytes
  isSpace_blanks : ∀ b ∈ blanks, isSpace b = true
  sign_cases : sign = [] ∨ sign = [43] ∨ sign = [45]
  digits_ne_nil : digits ≠ []
  isDigit_digits : ∀ b ∈ digits, isDigit b = true
  head_rest : ∀ b, rest.head? = some b → isDigit b = false

/-- The value is an `int64_t`. -/
def FitsInt64 (n : Int) : Prop := -2 ^ 63 ≤ n ∧ n < 2 ^ 63

instance (n : Int) : Decidable (FitsInt64 n) := inferInstanceAs (Decidable (_ ∧ _))

namespace Numeral

def text (m : Numeral) : Bytes := m.blanks ++ (m.sign ++ (m.digits ++ m.rest))

def value (m : Numeral) : Int :=
  if m.sign = [45] then - digitsValue m.digits else digitsValue m.digits

/-- An optional minus sign and digits only. -/
def Strict (m : Numeral) : Prop := m.blanks = [] ∧ m.sign ≠ [43] ∧ m.rest = []

theorem takeWhile_digits (m : Numeral) : (m.digits ++ m.rest).takeWhile isDigit = m.digits := by
  rw [List.takeWhile_append_of_pos m.isDigit_digits]
  cases hrest : m.rest with
  | nil => rw [List.takeWhile_nil, List.append_nil]
  | cons b rest =>
      have hb := m.head_rest b (by rw [hrest]; rfl)
      rw [List.takeWhile_cons_of_neg (by rw [hb]; exact Bool.false_ne_true), List.append_nil]

/-- Behind the blanks stands a sign or a digit. -/
theorem dropWhile_text (m : Numeral) :
    m.text.dropWhile isSpace = m.sign ++ (m.digits ++ m.rest) := by
  unfold text
  rw [List.dropWhile_append_of_pos m.isSpace_blanks]
  rcases m.sign_cases with hsign | hsign | hsign
  · rw [hsign, List.nil_append]
    cases hdigits : m.digits with
    | nil => exact absurd hdigits m.digits_ne_nil
    | cons d ds =>
        have hd := not_isSpace_of_isDigit (m.isDigit_digits d (by rw [hdigits]; simp))
        rw [List.cons_append, List.dropWhile_cons_of_neg (by rw [hd]; exact Bool.false_ne_true)]
  · rw [hsign]
    rfl
  · rw [hsign]
    rfl

/-- Neither sign stands in front of a digit. -/
theorem head?_digits_ne (m : Numeral) {b : UInt8} (hb : isDigit b = false) :
    (m.digits ++ m.rest).head? ≠ some b := by
  intro h
  rw [List.head?_append_of_ne_nil _ m.digits_ne_nil] at h
  rw [m.isDigit_digits b (List.mem_of_mem_head? h)] at hb
  cases hb

theorem stoll_text (m : Numeral) :
    stoll m.text = if FitsInt64 m.value then some m.value else none := by
  have hne : m.digits.isEmpty = false := List.isEmpty_eq_false_iff.mpr m.digits_ne_nil
  have hminus := m.head?_digits_ne (b := 45) (by decide)
  have hplus := m.head?_digits_ne (b := 43) (by decide)
  have hdigits := m.takeWhile_digits
  unfold stoll
  rw [m.dropWhile_text]
  unfold value FitsInt64
  generalize m.digits ++ m.rest = behind at *
  rcases m.sign_cases with hsign | hsign | hsign
  · simp [hsign, hminus, hplus, hdigits, hne]
  · simp [hsign, hdigits, hne]
  · simp [hsign, hdigits, hne]

/-- A text is a sign, or nothing, and what `std::stoll` takes the digits from. -/
theorem exists_sign (t : Bytes) :
    ∃ sign u, (sign = [] ∨ sign = [43] ∨ sign = [45]) ∧ t = sign ++ u ∧
      (if t.head? = some 45 ∨ t.head? = some 43 then t.tail else t) = u := by
  cases t with
  | nil => exact ⟨[], [], Or.inl rfl, rfl, rfl⟩
  | cons b t =>
      by_cases hminus : b = 45
      · exact ⟨[45], t, Or.inr (Or.inr rfl), by rw [hminus]; rfl,
          if_pos (Or.inl (by rw [hminus]; rfl))⟩
      · by_cases hplus : b = 43
        · exact ⟨[43], t, Or.inr (Or.inl rfl), by rw [hplus]; rfl,
            if_pos (Or.inr (by rw [hplus]; rfl))⟩
        · refine ⟨[], b :: t, Or.inl rfl, rfl, if_neg ?_⟩
          simp [hminus, hplus]

/-- Everything `std::stoll` accepts begins with a number. -/
theorem exists_of_stoll {s : Bytes} {n : Int} (h : stoll s = some n) :
    ∃ m : Numeral, m.text = s ∧ m.value = n ∧ FitsInt64 n := by
  rcases exists_sign (s.dropWhile isSpace) with ⟨sign, u, hsign, hsplit, hu⟩
  have hdigits : u.takeWhile isDigit ≠ [] := by
    rintro hnil
    unfold stoll at h
    simp [hu, hnil] at h
  let m : Numeral :=
    { blanks := s.takeWhile isSpace
      sign := sign
      digits := u.takeWhile isDigit
      rest := u.dropWhile isDigit
      isSpace_blanks := fun b hb => List.mem_takeWhile_imp hb
      sign_cases := hsign
      digits_ne_nil := hdigits
      isDigit_digits := fun b hb => List.mem_takeWhile_imp hb
      head_rest := fun b hb => by
        have hnot := List.head?_dropWhile_not isDigit u
        rw [hb] at hnot
        exact Bool.eq_false_iff.mpr (by simpa using hnot) }
  have htext : m.text = s := by
    show s.takeWhile isSpace ++ (sign ++ (u.takeWhile isDigit ++ u.dropWhile isDigit)) = s
    rw [List.takeWhile_append_dropWhile, ← hsplit, List.takeWhile_append_dropWhile]
  have hstoll := m.stoll_text
  rw [htext, h] at hstoll
  split_ifs at hstoll with hfits
  rw [Option.some.inj hstoll]
  exact ⟨m, htext, rfl, hfits⟩

theorem stoll_eq_some_iff {s : Bytes} {n : Int} :
    stoll s = some n ↔ ∃ m : Numeral, m.text = s ∧ m.value = n ∧ FitsInt64 n := by
  constructor
  · exact exists_of_stoll
  · rintro ⟨m, rfl, rfl, hn⟩
    rw [m.stoll_text, if_pos hn]

end Numeral

/-! ## Full texts -/

/-- The full decimal text of an `int64_t`: an optional minus sign and digits only. -/
def IntText (field : Bytes) (n : Int) : Prop :=
  FitsInt64 n ∧ ∃ digits : Bytes, digits ≠ [] ∧ (∀ b ∈ digits, isDigit b = true) ∧
    (field = digits ∧ n = digitsValue digits ∨ field = 45 :: digits ∧ n = - digitsValue digits)

theorem Numeral.Strict.intText {m : Numeral} (h : m.Strict) (hfits : FitsInt64 m.value) :
    IntText m.text m.value := by
  rcases h with ⟨hblanks, hplus, hrest⟩
  refine ⟨hfits, m.digits, m.digits_ne_nil, m.isDigit_digits, ?_⟩
  unfold text value
  rcases m.sign_cases with hsign | hsign | hsign
  · exact Or.inl (by simp [hblanks, hrest, hsign])
  · exact absurd hsign hplus
  · exact Or.inr (by simp [hblanks, hrest, hsign])

/-- A full text is a number without the parts that may be left out. -/
theorem IntText.exists_numeral {field : Bytes} {n : Int} (h : IntText field n) :
    ∃ m : Numeral, m.Strict ∧ m.text = field ∧ m.value = n := by
  rcases h with ⟨-, digits, hne, hdigits, hform⟩
  let number (sign : Bytes) (hsign : sign = [] ∨ sign = [43] ∨ sign = [45]) : Numeral :=
    { blanks := []
      sign := sign
      digits := digits
      rest := []
      isSpace_blanks := nofun
      sign_cases := hsign
      digits_ne_nil := hne
      isDigit_digits := hdigits
      head_rest := nofun }
  rcases hform with ⟨rfl, rfl⟩ | ⟨rfl, rfl⟩
  · exact ⟨number [] (Or.inl rfl), ⟨rfl, nofun, rfl⟩, List.append_nil field, rfl⟩
  · exact ⟨number [45] (Or.inr (Or.inr rfl)), ⟨rfl, by simp [number], rfl⟩,
      congrArg (List.cons 45) (List.append_nil digits), rfl⟩

theorem IntText.stoll {field : Bytes} {n : Int} (h : IntText field n) : stoll field = some n := by
  rcases h.exists_numeral with ⟨m, -, htext, hvalue⟩
  exact Numeral.stoll_eq_some_iff.mpr ⟨m, htext, hvalue, h.1⟩

/-- No blank stands in front of a full text. -/
theorem IntText.blanks {m : Numeral} {n : Int} (h : IntText m.text n) : m.blanks = [] := by
  rcases h with ⟨-, digits, -, hdigits, hform⟩
  rw [List.eq_nil_iff_forall_not_mem]
  intro b hb
  have hspace := m.isSpace_blanks b hb
  have hbyte : isDigit b = true ∨ b = 45 := by
    have hmem : b ∈ m.text := List.mem_append_left _ hb
    rcases hform with ⟨hfield, -⟩ | ⟨hfield, -⟩
    · exact Or.inl (hdigits b (hfield ▸ hmem))
    · rw [hfield, List.mem_cons] at hmem
      exact hmem.symm.imp_left (hdigits b)
  rcases hbyte with hdigit | rfl
  · rw [not_isSpace_of_isDigit hdigit] at hspace
    cases hspace
  · exact absurd hspace (by decide)

/-- A number with a part that may be left out is no full text. -/
theorem IntText.strict {m : Numeral} {n : Int} (h : IntText m.text n) : m.Strict := by
  have hblanks := h.blanks
  rcases h with ⟨-, digits, -, hdigits, hform⟩
  unfold Numeral.text at hform
  rw [hblanks, List.nil_append] at hform
  -- the sign is the one the full text has, and digits are all that follows
  have hparts : m.sign ≠ [43] ∧ m.digits ++ m.rest = digits := by
    rcases hform with ⟨hfield, -⟩ | ⟨hfield, -⟩
    · have hsign : ∀ b ∈ m.sign, isDigit b = true :=
        fun b hb => hdigits b (hfield ▸ List.mem_append_left _ hb)
      rcases m.sign_cases with hm | hm | hm
      · rw [hm] at hfield ⊢
        exact ⟨nofun, hfield⟩
      · exact absurd (hsign 43 (by simp [hm])) (by decide)
      · exact absurd (hsign 45 (by simp [hm])) (by decide)
    · rcases m.sign_cases with hm | hm | hm
      · rw [hm, List.nil_append] at hfield
        exact absurd (congrArg List.head? hfield) (m.head?_digits_ne (by decide))
      · rw [hm] at hfield
        exact absurd (List.cons.inj hfield).1 (by decide)
      · rw [hm] at hfield ⊢
        exact ⟨by decide, (List.cons.inj hfield).2⟩
  refine ⟨hblanks, hparts.1, ?_⟩
  have hall : (m.digits ++ m.rest).takeWhile isDigit = m.digits ++ m.rest :=
    List.takeWhile_eq_self_iff.mpr (hparts.2 ▸ hdigits)
  rw [m.takeWhile_digits] at hall
  exact List.self_eq_append_right.mp hall

/-- A byte that is no digit and no minus sign does not stand in a full text. -/
theorem IntText.notMem {field : Bytes} {n : Int} (h : IntText field n) {b : UInt8}
    (hb : isDigit b = false) (hminus : b ≠ 45) : b ∉ field := by
  rcases h with ⟨-, digits, -, hdigits, hform⟩
  intro hmem
  have hdigit : b ∈ digits := by
    rcases hform with ⟨rfl, -⟩ | ⟨rfl, -⟩
    · exact hmem
    · exact (List.mem_cons.mp hmem).resolve_left hminus
  rw [hdigits b hdigit] at hb
  cases hb

/-- What `std::to_string` makes is a full text. -/
theorem intText_decimalInt {n : Int} (h : FitsInt64 n) : IntText (decimalInt n) n := by
  refine ⟨h, decimal n.natAbs, decimal_ne_nil _, fun b hb => isDigit_of_mem_decimal hb, ?_⟩
  unfold decimalInt
  rw [digitsValue_decimal]
  by_cases hneg : n < 0
  · exact Or.inr ⟨if_pos hneg, by omega⟩
  · exact Or.inl ⟨if_neg hneg, by omega⟩

end Text
