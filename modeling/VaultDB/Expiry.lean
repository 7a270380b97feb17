import VaultDB.Library.Layers
import VaultDB.MemTable

/-! # In-band deletion and expiry marks

Deleted keys and keys with a time to live are told from plain ones by the
bytes of the value alone: `TOMBSTONE` is a deletion, and a value of the form
`EXPIRY:<ms>:<payload>` expires at that time. `marks` is the reading of stored
values that the engine implements.
-/

namespace VaultDB

open Text

/-- The bytes in front of the deadline of an expiring value. -/
def EXPIRY_PREFIX : Bytes := ascii "EXPIRY:"

/-- The parsing done by `LSMEngine::check_ttl`: deadline and payload, or `none`
where the value is returned as it stands. -/
def parseExpiry (value : Bytes) : Option (Int × Bytes) :=
  if value.length < EXPIRY_PREFIX.length ∨
      value.take EXPIRY_PREFIX.length ≠ EXPIRY_PREFIX then none
  else
    let firstColon := EXPIRY_PREFIX.length - 1
    match find 58 value (firstColon + 1) with
    | none => none
    | some secondColon =>
      match stoll ((value.drop (firstColon + 1)).take (secondColon - firstColon - 1)) with
      | none => none
      | some expiryMs => some (expiryMs, value.drop (secondColon + 1))

/-- What the engine takes for marks. -/
def marks : Expiring.Marks Bytes Int := ⟨TOMBSTONE, parseExpiry⟩

/-- `visible(r, now)`: what a client sees at `now` of a raw value. -/
def visible (now : Nat) (raw : Option Bytes) : Option Bytes :=
  Expiring.reading marks (now : Int) raw

/-- The value has a deadline, and it has passed at `now`. -/
abbrev Expired (now : Nat) (value : Bytes) : Prop := Expiring.ExpiredAt marks (now : Int) value

/-- A value that neither the deletion mark nor the expiry form claims. -/
def Plain (value : Bytes) : Prop := value ≠ TOMBSTONE ∧ parseExpiry value = none

instance (value : Bytes) : Decidable (Plain value) := inferInstanceAs (Decidable (_ ∧ _))

@[simp] theorem visible_none (now : Nat) : visible now none = none := rfl

@[simp] theorem visible_tombstone (now : Nat) : visible now (some TOMBSTONE) = none :=
  Expiring.reading_tomb marks _

theorem visible_some {now : Nat} {value : Bytes} (hne : value ≠ TOMBSTONE) :
    visible now (some value) =
      match parseExpiry value with
      | none => some value
      | some (expiryMs, actual) => if expiryMs ≤ (now : Int) then none else some actual := by
  have hdecode : marks.decode value = parseExpiry value := rfl
  rw [visible, Expiring.reading_some, if_neg (show value ≠ marks.tomb from hne), hdecode]
  cases parseExpiry value with
  | none => rfl
  | some p => rfl

/-- The deletion mark carries no deadline. -/
theorem parseExpiry_tombstone : parseExpiry TOMBSTONE = none := by decide

theorem not_expired_tombstone (now : Nat) : ¬ Expired now TOMBSTONE := by
  intro h
  rcases h with ⟨t, w, hdecode, -⟩
  have hnone : parseExpiry TOMBSTONE = some (t, w) := hdecode
  rw [parseExpiry_tombstone] at hnone
  cases hnone

theorem Expired.mono {now later : Nat} {value : Bytes} (h : Expired now value)
    (hle : now ≤ later) : Expired later value :=
  Expiring.ExpiredAt.mono h (Int.ofNat_le.mpr hle)

/-- A value without the prefix has no deadline. -/
theorem parseExpiry_eq_none {value : Bytes} (h : ¬ EXPIRY_PREFIX <+: value) :
    parseExpiry value = none := by
  have hne : value.take EXPIRY_PREFIX.length ≠ EXPIRY_PREFIX := by
    intro heq
    exact h (heq ▸ List.take_prefix _ _)
  unfold parseExpiry
  exact if_pos (Or.inr hne)

/-- The payload is a proper part of the value that carries it. -/
theorem length_payload_lt {value payload : Bytes} {expiryMs : Int}
    (h : parseExpiry value = some (expiryMs, payload)) : payload.length < value.length := by
  unfold parseExpiry at h
  split_ifs at h with hform
  have hlen : EXPIRY_PREFIX.length ≤ value.length := by
    by_contra hlt
    exact hform (Or.inl (by omega))
  have hpos : EXPIRY_PREFIX.length = 7 := by decide
  dsimp only at h
  -- past the colon and the number only one way of returning a payload is left
  split at h
  · cases h
  · split at h
    · cases h
    · simp only [Option.some.injEq, Prod.mk.injEq] at h
      rw [← h.2, List.length_drop]
      omega

/-- A client sees a value, or a shorter one. -/
theorem visible_cases {now : Nat} {value actual : Bytes}
    (h : visible now (some value) = some actual) :
    actual = value ∨ actual.length < value.length := by
  have hne : value ≠ TOMBSTONE := by
    rintro rfl
    rw [visible_tombstone] at h
    cases h
  rw [visible_some hne] at h
  cases hparse : parseExpiry value with
  | none =>
      rw [hparse] at h
      exact Or.inl (Option.some.inj h).symm
  | some p =>
      rcases p with ⟨expiryMs, payload⟩
      have hlt := length_payload_lt hparse
      simp only [hparse] at h
      split_ifs at h
      exact Or.inr (Option.some.inj h ▸ hlt)

/-- A client reads back the value it stored exactly when the value is plain:
every other value reads as absent or as a shorter one. -/
theorem visible_eq_self_iff {now : Nat} {value : Bytes} :
    visible now (some value) = some value ↔ Plain value := by
  unfold Plain
  constructor
  · intro h
    have htomb : value ≠ TOMBSTONE := by
      rintro rfl
      rw [visible_tombstone] at h
      cases h
    refine ⟨htomb, ?_⟩
    rw [visible_some htomb] at h
    cases hparse : parseExpiry value with
    | none => rfl
    | some p =>
        -- a payload is shorter than the value, so it is another string
        rcases p with ⟨expiryMs, payload⟩
        have hlt := length_payload_lt hparse
        simp only [hparse] at h
        split_ifs at h
        rw [Option.some.inj h] at hlt
        exact absurd hlt (lt_irrefl _)
  · rintro ⟨htomb, hparse⟩
    rw [visible_some htomb, hparse]

end VaultDB
