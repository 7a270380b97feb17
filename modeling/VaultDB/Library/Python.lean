import VaultDB.Library.Numbers
import VaultDB.Library.Pieces

/-! # Python texts

The methods of Python's `str` that a client uses, on texts that are ASCII, one
byte for each character. What a program in another language prints as a number
is read back as that number (`int_decimalInt`).
-/

namespace Python

open Text

/-- `str.isspace`: the blanks of C, and the four separators before them. -/
def isspace (b : UInt8) : Bool := (9 ≤ b && b ≤ 13) || (28 ≤ b && b ≤ 32)

def strip (s : Bytes) : Bytes := (s.dropWhile isspace).rdropWhile isspace

/-- `s.split()`. -/
def split (s : Bytes) : List Bytes := Pieces.pieces isspace s

/-- `int(s)`; `none` where it raises `ValueError`. Single underscores may stand
between the digits. -/
def int (s : Bytes) : Option Int :=
  let s := strip s
  let digits := if s.head? = some 45 ∨ s.head? = some 43 then s.tail else s
  let groups := digits.splitOn 95
  if groups.all fun g => !g.isEmpty && g.all isDigit then
    let n : Int := digitsValue groups.flatten
    some (if s.head? = some 45 then -n else n)
  else none

def isupper (b : UInt8) : Bool := 65 ≤ b && b ≤ 90

def islower (b : UInt8) : Bool := 97 ≤ b && b ≤ 122

/-- `s.title()`: a letter is upper case where no letter stands before it. -/
def titleFrom : Bool → Bytes → Bytes
  | _, [] => []
  | inWord, b :: s =>
    (if inWord && isupper b then b + 32 else if !inWord && islower b then b - 32 else b) ::
      titleFrom (isupper b || islower b) s

def title (s : Bytes) : Bytes := titleFrom false s

/-- `s.replace(c, d)`. -/
def replace (c d : UInt8) (s : Bytes) : Bytes := s.map fun b => if b = c then d else b

/-! ## Numbers -/

theorem isspace_iff {b : UInt8} :
    isspace b = true ↔ (9 ≤ b.toNat ∧ b.toNat ≤ 13) ∨ (28 ≤ b.toNat ∧ b.toNat ≤ 32) := by
  unfold isspace
  simp only [Bool.or_eq_true, Bool.and_eq_true, decide_eq_true_iff, UInt8.le_iff_toNat_le]
  exact Iff.rfl

/-- Digits and the minus sign are no blanks. -/
theorem isspace_of_mem_decimalInt {n : Int} {b : UInt8} (h : b ∈ decimalInt n) :
    isspace b = false := by
  rw [← Bool.not_eq_true, isspace_iff]
  intro hspace
  have hsign : b ≠ 45 := by
    rintro rfl
    rcases hspace with ⟨-, hle⟩ | ⟨-, hle⟩ <;> exact absurd hle (by decide)
  exact notMem_decimalInt hsign (by omega) h

theorem strip_eq_self {s : Bytes} (h : ∀ b ∈ s, isspace b = false) : strip s = s := by
  unfold strip
  have hleft : s.dropWhile isspace = s := by
    cases s with
    | nil => rfl
    | cons b s => rw [List.dropWhile_cons_of_neg (by simp [h b List.mem_cons_self])]
  rw [hleft, List.rdropWhile_eq_self_iff]
  intro hne
  simp [h _ (List.getLast_mem hne)]

/-- Digits are one group, which is taken for their number. -/
theorem splitOn_decimal (n : Nat) : (decimal n).splitOn 95 = [decimal n] :=
  List.splitOn_eq_singleton (notMem_decimal (by decide))

theorem all_isDigit_decimal (n : Nat) :
    [decimal n].all (fun g => !g.isEmpty && g.all isDigit) = true := by
  have hdigits : (decimal n).all isDigit = true :=
    List.all_eq_true.mpr fun b hb => isDigit_of_mem_decimal hb
  have hne : (decimal n).isEmpty = false := List.isEmpty_eq_false_iff.mpr (decimal_ne_nil n)
  rw [List.all_cons, List.all_nil, hdigits, hne]
  rfl

/-- A number that was printed is read back. -/
theorem int_decimalInt (n : Int) : int (decimalInt n) = some n := by
  have hsign : ∀ {b : UInt8}, b.toNat < 48 → (decimal n.natAbs).head? ≠ some b :=
    fun hb h => notMem_decimal (Or.inl hb) (List.mem_of_mem_head? h)
  have hminus := hsign (b := 45) (by decide)
  have hplus := hsign (b := 43) (by decide)
  unfold int
  rw [strip_eq_self fun b hb => isspace_of_mem_decimalInt hb]
  unfold decimalInt
  split_ifs with hneg
  · have hvalue : - (n.natAbs : Int) = n := by omega
    dsimp only
    rw [List.head?_cons, if_pos (Or.inl rfl), List.tail_cons, splitOn_decimal,
      if_pos (all_isDigit_decimal _), if_pos rfl, List.flatten_singleton, digitsValue_decimal,
      hvalue]
  · have hvalue : (n.natAbs : Int) = n := by omega
    dsimp only
    rw [if_neg (not_or.mpr ⟨hminus, hplus⟩), splitOn_decimal, if_pos (all_isDigit_decimal _),
      if_neg hminus, List.flatten_singleton, digitsValue_decimal, hvalue]

end Python
