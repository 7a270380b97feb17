import Mathlib.Data.List.Infix
import Mathlib.Tactic.Common
import Mathlib.Tactic.Ring

/-! # Self-delimiting records in a byte string

A `Reader` takes one record off the front of a string of tokens. `Reader.all`
reads records until the next one cannot be read, which is how a log or a table
file is decoded. Two laws relate a reader to an encoder:

* `Inverts`: an encoded record is read back, whatever follows it;
* `Exact`: a record is read only where its encoding stands.

Under both laws `all` returns the longest list of records whose encodings the
string begins with (`all_eq_iff`, `isPrefix_all`), and a proper part of one
encoding reads as nothing (`next_of_truncated`).
-/

namespace Codec

/-! ## Little-endian numbers -/

/-- The `w` low bytes of `n`, least significant first. -/
def leBytes : Nat → Nat → List UInt8
  | 0, _ => []
  | w + 1, n => UInt8.ofNat n :: leBytes w (n / 256)

/-- The number whose little-endian bytes are given. -/
def leValue : List UInt8 → Nat
  | [] => 0
  | b :: bs => b.toNat + 256 * leValue bs

@[simp] theorem length_leBytes (w n : Nat) : (leBytes w n).length = w := by
  induction w generalizing n with
  | zero => rfl
  | succ w ih => simp [leBytes, ih]

theorem leValue_leBytes (w n : Nat) : leValue (leBytes w n) = n % 256 ^ w := by
  induction w generalizing n with
  | zero => simp [leBytes, leValue, Nat.mod_one]
  | succ w ih =>
      have hmod : n % (256 * 256 ^ w) = n % 256 + 256 * (n / 256 % 256 ^ w) := Nat.mod_mul
      simp only [leBytes, leValue, ih, UInt8.toNat_ofNat']
      rw [pow_succ' 256 w, hmod]

theorem leValue_lt (bs : List UInt8) : leValue bs < 256 ^ bs.length := by
  induction bs with
  | nil => simp [leValue]
  | cons b bs ih =>
      have hb : b.toNat < 256 := b.toNat_lt
      simp only [leValue, List.length_cons, pow_succ']
      omega

/-- Four bytes hold a number below `2 ^ 32`. -/
theorem leValue_lt_of_length_four {bs : List UInt8} (h : bs.length = 4) :
    leValue bs < 2 ^ 32 := by
  have hlt := leValue_lt bs
  rw [h] at hlt
  exact hlt

theorem leBytes_leValue (bs : List UInt8) : leBytes bs.length (leValue bs) = bs := by
  induction bs with
  | nil => rfl
  | cons b bs ih =>
      have hb : b.toNat < 256 := b.toNat_lt
      have hdiv : (b.toNat + 256 * leValue bs) / 256 = leValue bs := by omega
      have hhead : UInt8.ofNat (b.toNat + 256 * leValue bs) = b := by
        apply UInt8.toNat_inj.mp
        rw [UInt8.toNat_ofNat']
        omega
      simp only [leValue, List.length_cons, leBytes, hdiv, ih, hhead]

/-- A string whose length four bytes can hold. -/
def Fits (s : List UInt8) : Prop := s.length < 2 ^ 32

instance (s : List UInt8) : Decidable (Fits s) := inferInstanceAs (Decidable (_ < _))

/-- Its length is read back from four bytes. -/
theorem Fits.leValue_leBytes {s : List UInt8} (h : Fits s) :
    leValue (leBytes 4 s.length) = s.length := by
  rw [Codec.leValue_leBytes]
  exact Nat.mod_eq_of_lt h

/-! ## Fixed-length fields -/

/-- The next `n` tokens and what follows them, when there are that many. -/
def takeExact {τ : Type*} (n : Nat) (b : List τ) : Option (List τ × List τ) :=
  if n ≤ b.length then some (b.take n, b.drop n) else none

theorem takeExact_eq_some_iff {τ : Type*} {n : Nat} {b x r : List τ} :
    takeExact n b = some (x, r) ↔ b = x ++ r ∧ x.length = n := by
  unfold takeExact
  constructor
  · intro h
    split_ifs at h with hn
    cases h
    refine ⟨(List.take_append_drop n b).symm, ?_⟩
    rw [List.length_take]
    omega
  · rintro ⟨rfl, rfl⟩
    simp

theorem takeExact_eq_none_iff {τ : Type*} {n : Nat} {b : List τ} :
    takeExact n b = none ↔ b.length < n := by
  unfold takeExact
  split_ifs with hn
  · simp
    omega
  · simp
    omega

theorem takeExact_append {τ : Type*} (x r : List τ) : takeExact x.length (x ++ r) = some (x, r) :=
  takeExact_eq_some_iff.mpr ⟨rfl, rfl⟩

/-! ## Readers -/

/-- Takes one record off the front of a token string, using at least one token. -/
structure Reader (τ α : Type*) where
  next : List τ → Option (α × List τ)
  splits : ∀ {b a r}, next b = some (a, r) → ∃ c, c ≠ [] ∧ b = c ++ r

variable {τ α : Type*}

namespace Reader

theorem length_lt (p : Reader τ α) {b r : List τ} {a : α} (h : p.next b = some (a, r)) :
    r.length < b.length := by
  obtain ⟨c, hc, rfl⟩ := p.splits h
  have hpos := List.length_pos_iff.mpr hc
  simp only [List.length_append]
  omega

/-- The records read off the front, until one cannot be read. -/
def all (p : Reader τ α) (b : List τ) : List α :=
  match _h : p.next b with
  | none => []
  | some (a, r) => a :: p.all r
termination_by b.length
decreasing_by exact p.length_lt _h

/-- The tokens left where reading stops. -/
def rest (p : Reader τ α) (b : List τ) : List τ :=
  match _h : p.next b with
  | none => b
  | some (_, r) => p.rest r
termination_by b.length
decreasing_by exact p.length_lt _h

/-- The records paired with the offsets they start at, the string itself
starting at `off`. -/
def located (p : Reader τ α) (b : List τ) (off : Nat) : List (α × Nat) :=
  match _h : p.next b with
  | none => []
  | some (a, r) => (a, off) :: p.located r (off + (b.length - r.length))
termination_by b.length
decreasing_by exact p.length_lt _h

variable (p : Reader τ α)

theorem all_of_none {b : List τ} (h : p.next b = none) : p.all b = [] := by
  rw [all]
  split
  · rfl
  · rename_i h'
    rw [h] at h'
    cases h'

theorem all_of_some {b r : List τ} {a : α} (h : p.next b = some (a, r)) :
    p.all b = a :: p.all r := by
  rw [all]
  split
  · rename_i h'
    rw [h] at h'
    cases h'
  · rename_i h'
    rw [h] at h'
    cases h'
    rfl

theorem rest_of_none {b : List τ} (h : p.next b = none) : p.rest b = b := by
  rw [rest]
  split
  · rfl
  · rename_i h'
    rw [h] at h'
    cases h'

theorem rest_of_some {b r : List τ} {a : α} (h : p.next b = some (a, r)) :
    p.rest b = p.rest r := by
  rw [rest]
  split
  · rename_i h'
    rw [h] at h'
    cases h'
  · rename_i h'
    rw [h] at h'
    cases h'
    rfl

theorem located_of_none {b : List τ} (h : p.next b = none) (off : Nat) :
    p.located b off = [] := by
  rw [located]
  split
  · rfl
  · rename_i h'
    rw [h] at h'
    cases h'

theorem located_of_some {b r : List τ} {a : α} (h : p.next b = some (a, r)) (off : Nat) :
    p.located b off = (a, off) :: p.located r (off + (b.length - r.length)) := by
  rw [located]
  split
  · rename_i h'
    rw [h] at h'
    cases h'
  · rename_i h'
    rw [h] at h'
    cases h'
    rfl

/-- Induction along the records of a string. -/
theorem induction_all {motive : List τ → Prop}
    (stop : ∀ b, p.next b = none → motive b)
    (more : ∀ b a r, p.next b = some (a, r) → motive r → motive b) (b : List τ) : motive b := by
  induction hn : b.length using Nat.strong_induction_on generalizing b with
  | _ n ih =>
      cases h : p.next b with
      | none => exact stop b h
      | some ar =>
          obtain ⟨a, r⟩ := ar
          -- what is left is shorter
          have hlt := p.length_lt h
          exact more b a r h (ih r.length (hn ▸ hlt) r rfl)

theorem map_fst_located (b : List τ) (off : Nat) : (p.located b off).map Prod.fst = p.all b := by
  induction b using p.induction_all generalizing off with
  | stop b h => simp [p.located_of_none h, p.all_of_none h]
  | more b a r h ih => simp [p.located_of_some h, p.all_of_some h, ih]

theorem next_rest (b : List τ) : p.next (p.rest b) = none := by
  induction b using p.induction_all with
  | stop b h => rw [p.rest_of_none h, h]
  | more b a r h ih => rw [p.rest_of_some h, ih]

/-- Seeking to the offset of a located record and reading on from there gives
that record and those after it. -/
theorem all_drop_located {b : List τ} {off : Nat} {pre post : List (α × Nat)} {a : α} {o : Nat}
    (h : p.located b off = pre ++ (a, o) :: post) :
    off ≤ o ∧ p.all (b.drop (o - off)) = a :: post.map Prod.fst := by
  induction b using p.induction_all generalizing off pre with
  | stop b hb =>
      rw [p.located_of_none hb] at h
      simp at h
  | more b a' r hb ih =>
      have hloc := p.located_of_some hb off
      rw [hloc] at h
      cases pre with
      | nil =>
          simp only [List.nil_append, List.cons.injEq, Prod.mk.injEq] at h
          obtain ⟨⟨rfl, rfl⟩, htail⟩ := h
          refine ⟨le_refl _, ?_⟩
          rw [Nat.sub_self, List.drop_zero, p.all_of_some hb, ← htail, p.map_fst_located]
      | cons q pre =>
          simp only [List.cons_append, List.cons.injEq] at h
          obtain ⟨hle, hall⟩ := ih h.2
          -- `c` is what the first record takes of the string
          obtain ⟨c, -, hbr⟩ := p.splits hb
          have hlen : b.length - r.length = c.length := by
            rw [hbr, List.length_append]
            omega
          rw [hlen] at hle hall
          refine ⟨by omega, ?_⟩
          have hsplit : o - off = c.length + (o - (off + c.length)) := by omega
          rw [hbr, hsplit, List.drop_length_add_append]
          exact hall

/-! ## Readers and encoders -/

/-- An encoded record is read back, whatever follows it. -/
def Inverts (enc : α → List τ) (ok : α → Prop) : Prop :=
  ∀ a r, ok a → p.next (enc a ++ r) = some (a, r)

/-- A record is read only where its encoding stands. -/
def Exact (enc : α → List τ) (ok : α → Prop) : Prop :=
  ∀ {b a r}, p.next b = some (a, r) → ok a ∧ b = enc a ++ r

variable {p} {enc : α → List τ} {ok : α → Prop}

theorem Inverts.all_append (hinv : p.Inverts enc ok) {as : List α} (hok : ∀ a ∈ as, ok a)
    (r : List τ) : p.all (as.flatMap enc ++ r) = as ++ p.all r := by
  induction as with
  | nil => simp
  | cons a as ih =>
      have hnext := hinv a (as.flatMap enc ++ r) (hok a (List.mem_cons_self))
      rw [List.flatMap_cons, List.append_assoc, p.all_of_some hnext,
        ih fun a' ha' => hok a' (List.mem_cons_of_mem _ ha'), List.cons_append]

/-- With nothing behind them, the encodings of a list are read as that list. -/
theorem Inverts.all_flatMap (hinv : p.Inverts enc ok) (hnil : p.next [] = none)
    {as : List α} (hok : ∀ a ∈ as, ok a) : p.all (as.flatMap enc) = as := by
  have h := hinv.all_append hok []
  rwa [List.append_nil, p.all_of_none hnil, List.append_nil] at h

/-- The offsets at which encodings written one after the other are found. -/
theorem Inverts.located_cons (hinv : p.Inverts enc ok) {a : α} (ha : ok a) (r : List τ)
    (off : Nat) : p.located (enc a ++ r) off = (a, off) :: p.located r (off + (enc a).length) := by
  rw [p.located_of_some (hinv a r ha)]
  simp

theorem Exact.eq_append_rest (hex : p.Exact enc ok) (b : List τ) :
    (∀ a ∈ p.all b, ok a) ∧ b = (p.all b).flatMap enc ++ p.rest b := by
  induction b using p.induction_all with
  | stop b h => simp [p.all_of_none h, p.rest_of_none h]
  | more b a r h ih =>
      obtain ⟨hok, hb⟩ := hex h
      rw [p.all_of_some h, p.rest_of_some h]
      refine ⟨?_, ?_⟩
      · intro a' ha'
        rcases List.mem_cons.mp ha' with rfl | ha'
        · exact hok
        · exact ih.1 a' ha'
      · rw [List.flatMap_cons, List.append_assoc, ← ih.2]
        exact hb

/-- What reading returns, stated without reading: the records' encodings stand
at the front, and behind them stands no further record. -/
theorem all_eq_iff (hinv : p.Inverts enc ok) (hex : p.Exact enc ok) {b : List τ} {as : List α} :
    p.all b = as ↔
      (∀ a ∈ as, ok a) ∧ ∃ r, b = as.flatMap enc ++ r ∧ p.next r = none := by
  constructor
  · rintro rfl
    obtain ⟨hok, hb⟩ := hex.eq_append_rest b
    exact ⟨hok, p.rest b, hb, p.next_rest b⟩
  · rintro ⟨hok, r, rfl, hr⟩
    rw [hinv.all_append hok, p.all_of_none hr, List.append_nil]

/-- What a string begins with is read from it. -/
theorem Inverts.isPrefix_all (hinv : p.Inverts enc ok) {as : List α} (hok : ∀ a ∈ as, ok a)
    {b : List τ} (h : as.flatMap enc <+: b) : as <+: p.all b := by
  rcases h with ⟨r, rfl⟩
  rw [hinv.all_append hok]
  exact List.prefix_append _ _

/-- What is read stands at the front. -/
theorem Exact.flatMap_isPrefix (hex : p.Exact enc ok) (b : List τ) :
    (p.all b).flatMap enc <+: b :=
  ⟨p.rest b, (hex.eq_append_rest b).2.symm⟩

/-- Encodings cut anywhere are read as the first of the records, as many as are
complete. -/
theorem all_take_flatMap (hinv : p.Inverts enc ok) (hex : p.Exact enc ok) (hnil : p.next [] = none)
    {as : List α} (hok : ∀ a ∈ as, ok a) (n : Nat) :
    ∃ k, p.all ((as.flatMap enc).take n) = as.take k ∧ k ≤ as.length ∧
      ∀ j ≤ as.length, (j ≤ k ↔ ((as.take j).flatMap enc).length ≤ n) := by
  have hcut : (p.all ((as.flatMap enc).take n)).flatMap enc <+: (as.flatMap enc).take n :=
    hex.flatMap_isPrefix _
  have hokcut : ∀ a ∈ p.all ((as.flatMap enc).take n), ok a := (hex.eq_append_rest _).1
  -- what is read from the cut string is the beginning of what was written
  have hread : p.all ((as.flatMap enc).take n) <+: as := by
    have h := hinv.isPrefix_all hokcut (hcut.trans (List.take_prefix _ _))
    rwa [hinv.all_flatMap hnil hok] at h
  have hlen := hread.length_le
  refine ⟨(p.all ((as.flatMap enc).take n)).length, List.prefix_iff_eq_take.mp hread, hlen, ?_⟩
  intro j hj
  constructor
  · intro hle
    have htake : as.take j <+: p.all ((as.flatMap enc).take n) :=
      List.prefix_of_prefix_length_le (List.take_prefix _ _) hread (by
        rw [List.length_take]
        omega)
    rcases htake with ⟨more, hmore⟩
    have hbound := hcut.length_le
    rw [← hmore, List.flatMap_append, List.length_append, List.length_take] at hbound
    omega
  · intro hle
    -- the first `j` encodings lie in front of the cut
    have hfront : (as.take j).flatMap enc <+: (as.flatMap enc).take n := by
      have hwhole : (as.take j).flatMap enc <+: as.flatMap enc :=
        ⟨(as.drop j).flatMap enc, by rw [← List.flatMap_append, List.take_append_drop]⟩
      exact List.prefix_take_iff.mpr ⟨hwhole, hle⟩
    have h := hinv.isPrefix_all (fun a ha => hok a (List.mem_of_mem_take ha)) hfront
    have hj' := h.length_le
    rw [List.length_take] at hj'
    omega

/-- A proper part of an encoding, cut at its end, reads as no record. -/
theorem next_of_truncated (hinv : p.Inverts enc ok) (hex : p.Exact enc ok) {a : α} (ha : ok a)
    {q s : List τ} (hq : enc a = q ++ s) (hs : s ≠ []) : p.next q = none := by
  cases h : p.next q with
  | none => rfl
  | some ar =>
      obtain ⟨a', r⟩ := ar
      obtain ⟨ha', hq'⟩ := hex h
      -- the whole encoding would be read in two ways
      have h₁ : p.next (enc a) = some (a, []) := by
        have := hinv a [] ha
        rwa [List.append_nil] at this
      have h₂ : p.next (enc a) = some (a', r ++ s) := by
        rw [hq, hq', List.append_assoc]
        exact hinv a' (r ++ s) ha'
      rw [h₁] at h₂
      simp only [Option.some.injEq, Prod.mk.injEq, List.nil_eq_append_iff] at h₂
      exact absurd h₂.2.2 hs

/-- A list of encodings followed by a cut one is read as that list. -/
theorem all_append_truncated (hinv : p.Inverts enc ok) (hex : p.Exact enc ok) {as : List α}
    (hok : ∀ a ∈ as, ok a) {a : α} (ha : ok a) {q s : List τ} (hq : enc a = q ++ s)
    (hs : s ≠ []) : p.all (as.flatMap enc ++ q) = as := by
  rw [hinv.all_append hok, p.all_of_none (next_of_truncated hinv hex ha hq hs), List.append_nil]

end Reader

end Codec
