import VaultDB.Library.Numbers
import VaultDB.Reads
import VaultDB.Refinement

/-! # The format of expiring values

The engine writes a deadline as the full text of a number between two colons
(`IsExpiry`). `check_ttl` looks for the next colon and hands what stands before
it to `std::stoll`, which reads more than such texts: blanks and a plus sign in
front, and anything behind. Values with such a field lose their prefix, or
their key, although they are malformed (`checkTtl_follows_format_iff`). All
other values are read back as they were set, but for the deletion mark and those
in the format (`get_after_set`).
-/

namespace VaultDB

open Text FileStream

/-- `EXPIRY:`, the full text of an `int64_t`, a colon and any rest. -/
def IsExpiry (value : Bytes) (expiryMs : Int) (rest : Bytes) : Prop :=
  ∃ field, value = EXPIRY_PREFIX ++ (field ++ 58 :: rest) ∧ IntText field expiryMs

/-- `EXPIRY:`, a field up to the next colon that begins with an `int64_t` but
is not its full text, and any rest. -/
def Lenient (value : Bytes) : Prop :=
  ∃ (m : Numeral) (rest : Bytes), value = EXPIRY_PREFIX ++ (m.text ++ 58 :: rest) ∧
    58 ∉ m.text ∧ FitsInt64 m.value ∧ ¬ m.Strict

/-! ## What is parsed -/

theorem length_EXPIRY_PREFIX : EXPIRY_PREFIX.length = 7 := by decide

/-- Behind the prefix, a field up to a colon is handed to `std::stoll`. -/
theorem parseExpiry_append (behind : Bytes) :
    parseExpiry (EXPIRY_PREFIX ++ behind) =
      (find 58 behind 0).bind fun pos =>
        (stoll (behind.take pos)).map fun expiryMs => (expiryMs, behind.drop (pos + 1)) := by
  have hprefix : ¬ ((EXPIRY_PREFIX ++ behind).length < EXPIRY_PREFIX.length ∨
      (EXPIRY_PREFIX ++ behind).take EXPIRY_PREFIX.length ≠ EXPIRY_PREFIX) := by
    simp
  have hdrop : ∀ n, (EXPIRY_PREFIX ++ behind).drop (7 + n) = behind.drop n :=
    fun n => by rw [← length_EXPIRY_PREFIX, List.drop_length_add_append]
  have hfind : find 58 (EXPIRY_PREFIX ++ behind) 7 = (find 58 behind 0).map fun pos => 7 + pos := by
    unfold find
    rw [show (7 : Nat) = 7 + 0 from rfl, hdrop]
    simp
  unfold parseExpiry
  rw [if_neg hprefix, length_EXPIRY_PREFIX]
  dsimp only
  rw [hfind]
  cases hpos : find 58 behind 0 with
  | none => rfl
  | some pos =>
      have htake : ((EXPIRY_PREFIX ++ behind).drop 7).take (7 + pos - 6 - 1) = behind.take pos := by
        rw [show (7 : Nat) = 7 + 0 from rfl, hdrop]
        congr 1
        omega
      have hrest : (EXPIRY_PREFIX ++ behind).drop (7 + pos + 1) = behind.drop (pos + 1) :=
        hdrop (pos + 1)
      simp only [Option.map_some, htake, hrest, Option.bind_some]
      cases stoll (behind.take pos) with
      | none => rfl
      | some expiryMs => rfl

/-- What is parsed is a field that `std::stoll` accepts, between the prefix and
the next colon. -/
theorem parseExpiry_eq_some_iff {value : Bytes} {expiryMs : Int} {rest : Bytes} :
    parseExpiry value = some (expiryMs, rest) ↔
      ∃ field, 58 ∉ field ∧ value = EXPIRY_PREFIX ++ (field ++ 58 :: rest) ∧
        stoll field = some expiryMs := by
  constructor
  · intro h
    have hprefix : EXPIRY_PREFIX <+: value := by
      by_contra hnot
      rw [parseExpiry_eq_none hnot] at h
      cases h
    rcases hprefix with ⟨behind, rfl⟩
    rw [parseExpiry_append, Option.bind_eq_some_iff] at h
    rcases h with ⟨pos, hfind, hnumber⟩
    rcases find_zero_eq_some hfind with ⟨hsplit, hcolon⟩
    rcases Option.map_eq_some_iff.mp hnumber with ⟨n, hstoll, heq⟩
    cases heq
    exact ⟨_, hcolon, congrArg (EXPIRY_PREFIX ++ ·) hsplit, hstoll⟩
  · rintro ⟨field, hcolon, rfl, hstoll⟩
    rw [parseExpiry_append, find_zero_append hcolon]
    simp [hstoll]

/-- A value in the format is parsed as what it says. -/
theorem IsExpiry.parseExpiry {value rest : Bytes} {expiryMs : Int}
    (h : IsExpiry value expiryMs rest) : parseExpiry value = some (expiryMs, rest) := by
  rcases h with ⟨field, hvalue, htext⟩
  have hcolon : 58 ∉ field := htext.notMem (by decide) (by decide)
  exact parseExpiry_eq_some_iff.mpr ⟨field, hcolon, hvalue, htext.stoll⟩

/-- What is parsed is in the format, or its field is none of a format. -/
theorem isExpiry_or_lenient {value rest : Bytes} {expiryMs : Int}
    (h : VaultDB.parseExpiry value = some (expiryMs, rest)) :
    IsExpiry value expiryMs rest ∨ Lenient value := by
  rcases parseExpiry_eq_some_iff.mp h with ⟨field, hcolon, hvalue, hstoll⟩
  rcases Numeral.stoll_eq_some_iff.mp hstoll with ⟨m, rfl, rfl, hfits⟩
  by_cases hstrict : m.Strict
  · exact Or.inl ⟨m.text, hvalue, hstrict.intText hfits⟩
  · exact Or.inr ⟨m, rest, hvalue, hcolon, hfits, hstrict⟩

/-- A value with a lenient field is parsed, and not in the format. -/
theorem Lenient.parsed {value : Bytes} (h : Lenient value) :
    (∃ expiryMs rest, VaultDB.parseExpiry value = some (expiryMs, rest)) ∧
      ∀ expiryMs rest, ¬ IsExpiry value expiryMs rest := by
  rcases h with ⟨m, rest, rfl, hcolon, hfits, hstrict⟩
  have hstoll : stoll m.text = some m.value := Numeral.stoll_eq_some_iff.mpr ⟨m, rfl, rfl, hfits⟩
  refine ⟨⟨m.value, rest, parseExpiry_eq_some_iff.mpr ⟨m.text, hcolon, rfl, hstoll⟩⟩, ?_⟩
  rintro n rest' ⟨field, hvalue, htext⟩
  -- the fields end at the same colon
  have hcolon' : 58 ∉ field := htext.notMem (by decide) (by decide)
  rcases append_cons_inj hcolon hcolon' (List.append_cancel_left hvalue) with ⟨rfl, -⟩
  exact hstrict htext.strict

namespace LSMEngine

/-- `check_ttl` does what the format asks for: a value in the format is
stripped, or its key marked deleted in the memtable and dropped from the cache;
any other value is returned as it stands, with nothing done. -/
structure FollowsFormat (e : LSMEngine) (key value : Bytes) (now : Int) : Prop where
  expired : ∀ expiryMs rest, IsExpiry value expiryMs rest → expiryMs ≤ now →
    ∃ cache, e.checkTtl key value now =
        some (none, { e with memtable := e.memtable.del key, cache := cache }) ∧
      ∀ k v, cache.Holds k v ↔ k ≠ key ∧ e.cache.Holds k v
  stripped : ∀ expiryMs rest, IsExpiry value expiryMs rest → now < expiryMs →
    e.checkTtl key value now = some (some rest, e)
  unchanged : (∀ expiryMs rest, ¬ IsExpiry value expiryMs rest) →
    e.checkTtl key value now = some (some value, e)

/-- Whatever is parsed does not come back as it stands. -/
theorem checkTtl_ne_self {e e' : LSMEngine} {key value rest : Bytes} {expiryMs now : Int}
    (h : parseExpiry value = some (expiryMs, rest)) :
    e.checkTtl key value now ≠ some (some value, e') := by
  intro hcheck
  have hlt := length_payload_lt h
  unfold checkTtl at hcheck
  simp only [h] at hcheck
  split_ifs at hcheck
  · simp [bind, Option.bind_eq_some_iff] at hcheck
  · simp only [Option.some.injEq, Prod.mk.injEq] at hcheck
    rw [hcheck.1] at hlt
    exact absurd hlt (lt_irrefl _)

/-- Whatever engine, key, value and reading of the clock: `check_ttl` follows
the format exactly for the values whose field is no lenient one. -/
theorem checkTtl_follows_format_iff {capacity : Nat} {e : LSMEngine}
    (hcalls : Calls (LRUCache.new capacity) e.cache) (key value : Bytes) (now : Int) :
    FollowsFormat e key value now ↔ ¬ Lenient value := by
  constructor
  · intro hfollows hlenient
    rcases hlenient.parsed with ⟨⟨expiryMs, rest, hparse⟩, hnot⟩
    exact checkTtl_ne_self hparse (hfollows.unchanged hnot)
  · intro hlenient
    refine ⟨?_, ?_, ?_⟩
    · intro expiryMs rest hexpiry hle
      rcases LRUCache.remove_spec (linked_of_calls hcalls) key with
        ⟨b, cache, hremove, -, -, hholds⟩
      refine ⟨cache, ?_, hholds⟩
      simp [checkTtl, hexpiry.parseExpiry, hle, hremove]
    · intro expiryMs rest hexpiry hlt
      simp [checkTtl, hexpiry.parseExpiry, not_le.mpr hlt]
    · intro hnot
      cases hparse : parseExpiry value with
      | none => simp [checkTtl, hparse]
      | some p =>
          rcases isExpiry_or_lenient hparse with hexpiry | h
          · exact absurd hexpiry (hnot p.1 p.2)
          · exact absurd h hlenient

theorem checkTtl_follows_format_five :
    FollowsFormat (start [] 1 64) (ascii "k") (ascii "EXPIRY:5:v") 7 := by
  refine (checkTtl_follows_format_iff (Calls.of_eq (Calls.refl _)
    (cache_new DataDir.empty [] 1 64 0 Device.sound)) (ascii "k") (ascii "EXPIRY:5:v") 7).mpr ?_
  have hexpiry : IsExpiry (ascii "EXPIRY:5:v") 5 (ascii "v") :=
    ⟨decimalInt 5, by decide, intText_decimalInt (by decide)⟩
  exact fun hlenient => hlenient.parsed.2 _ _ hexpiry

/-- `5abc` is no number, and the value it stands in is lost at the first read. -/
theorem malformed_value_lost :
    ((start [] 1 64).set (ascii "k") (ascii "EXPIRY:5abc:v") (Env.calm 1)).bind
        (fun e => e.answer (ascii "k") 7) = some none ∧
      ¬ FollowsFormat (start [] 1 64) (ascii "k") (ascii "EXPIRY:5abc:v") 7 := by
  refine ⟨by decide +kernel, ?_⟩
  have hlenient : Lenient (ascii "EXPIRY:5abc:v") :=
    ⟨⟨[], [], [53], [97, 98, 99], nofun, Or.inl rfl, by decide, List.all_eq_true.mp (by decide),
      by rintro b ⟨rfl⟩; decide⟩, ascii "v", by decide, by decide, by decide, nofun⟩
  rcases hlenient.parsed with ⟨⟨expiryMs, rest, hparse⟩, hnot⟩
  intro hfollows
  exact checkTtl_ne_self hparse (hfollows.unchanged hnot)

/-! ## What is read back -/

/-- A value is plain if it is neither the deletion mark nor in the format nor
with a lenient field. -/
theorem plain_of_unmarked {value : Bytes} (hmark : value ≠ TOMBSTONE)
    (hformat : ∀ expiryMs rest, ¬ IsExpiry value expiryMs rest) (hlenient : ¬ Lenient value) :
    Plain value := by
  refine ⟨hmark, ?_⟩
  cases hparse : parseExpiry value with
  | none => rfl
  | some p =>
      rcases isExpiry_or_lenient hparse with hexpiry | h
      · exact absurd hexpiry (hformat p.1 p.2)
      · exact absurd h hlenient

/-- In every run with no I/O error, keys and values that fit their length fields
and a path of its own for each file, whatever the clock does and whatever comes
between a `set` and a `get` of its key but another write to it: the value is read
back if it is neither the deletion mark nor in the format nor with a lenient
field, and is not read back if it is the deletion mark or in the format. -/
theorem get_after_set {dataDir : Bytes} {cacheSize : Nat} {threshold : UInt64}
    {pre mid : List Event} {key value : Bytes} {env : Env} {e : LSMEngine}
    (halong : Machine.Along LSMEngine.step Orderly (start dataDir cacheSize threshold)
      (pre ++ ⟨.set key value, env⟩ :: mid))
    (hrun : Machine.run LSMEngine.step (start dataDir cacheSize threshold)
      (pre ++ ⟨.set key value, env⟩ :: mid) = some e)
    (hmid : ∀ ev ∈ mid, ¬ writesKey key ev.op) (now : Nat) :
    (value ≠ TOMBSTONE → (∀ expiryMs rest, ¬ IsExpiry value expiryMs rest) → ¬ Lenient value →
      e.answer key now = some (some value)) ∧
    (value = TOMBSTONE ∨ (∃ expiryMs rest, IsExpiry value expiryMs rest) →
      e.answer key now ≠ some (some value)) := by
  have hback := answer_after_set_iff halong hrun hmid now
  constructor
  · intro hmark hformat hlenient
    exact hback.mpr (plain_of_unmarked hmark hformat hlenient)
  · rintro hmarked hanswer
    obtain ⟨hmark, hparse⟩ := hback.mp hanswer
    rcases hmarked with heq | ⟨expiryMs, rest, hexpiry⟩
    · exact hmark heq
    · rw [hexpiry.parseExpiry] at hparse
      cases hparse

theorem get_after_set_five :
    ∃ e, Machine.run LSMEngine.step (start [] 1 1)
        ([] ++ ⟨.set (ascii "k") (ascii "EXPIRY:5:v"), Env.calm 7⟩ ::
          [⟨.get (ascii "j"), Env.calm 3⟩]) = some e ∧
      e.answer (ascii "k") 2 ≠ some (some (ascii "EXPIRY:5:v")) := by
  have halong := @along_orderly [] 1 1 ([] ++ ⟨.set (ascii "k") (ascii "EXPIRY:5:v"), Env.calm 7⟩ ::
    [⟨.get (ascii "j"), Env.calm 3⟩]) (by decide) (by decide) (by decide +kernel)
  obtain ⟨e, hrun⟩ := run_isSome (by decide) halong
  have hmid : ∀ ev ∈ [(⟨.get (ascii "j"), Env.calm 3⟩ : Event)],
      ¬ writesKey (ascii "k") ev.op := by
    intro ev hev
    rw [List.mem_singleton.mp hev]
    exact not_false
  have hexpiry : IsExpiry (ascii "EXPIRY:5:v") 5 (ascii "v") :=
    ⟨decimalInt 5, by decide, intText_decimalInt (by decide)⟩
  exact ⟨e, hrun, (get_after_set halong hrun hmid 2).2 (Or.inr ⟨5, ascii "v", hexpiry⟩)⟩

end LSMEngine

end VaultDB
