import VaultDB.TornLog

/-! # What the log decodes to

`WAL::recover` is the inverse of `WAL::append`, and on any other byte string
it returns the longest list of records whose encodings the string begins with.
A record whose key or value is too long for its four-byte length is written
with the length modulo 2 ^ 32 and as many bytes; `clip` is the record that was
written then.
-/

namespace VaultDB

open Text Codec FileStream

namespace WAL

/-- The part of a string that is written: its length is taken modulo 2 ^ 32. -/
def clipped (s : Bytes) : Bytes := s.take (s.length % 2 ^ 32)

/-- The record as it is written. -/
def clip (entry : WALEntry) : WALEntry :=
  { entry with key := clipped entry.key, value := clipped entry.value }

theorem length_clipped (s : Bytes) : (clipped s).length = s.length % 2 ^ 32 := by
  unfold clipped
  rw [List.length_take]
  have hle := Nat.mod_le s.length (2 ^ 32)
  omega

theorem fits_clipped (s : Bytes) : Fits (clipped s) := by
  unfold Fits
  rw [length_clipped]
  exact Nat.mod_lt _ (by decide)

theorem recordFits_clip (entry : WALEntry) : RecordFits (clip entry) :=
  ⟨fits_clipped entry.key, fits_clipped entry.value⟩

theorem encode_clip (entry : WALEntry) : encode (clip entry) = encode entry := by
  have hkey := length_clipped entry.key
  have hvalue := length_clipped entry.value
  unfold encode clip
  simp only [hkey, hvalue, Nat.mod_mod]
  rw [List.take_of_length_le (by rw [hkey]), List.take_of_length_le (by rw [hvalue])]
  rfl

theorem encodeAll_clip (entries : List WALEntry) :
    encodeAll (entries.map clip) = encodeAll entries := by
  unfold encodeAll
  rw [List.flatMap_map]
  simp only [encode_clip]

/-- Every list of records that the string begins with is part of what is read. -/
theorem isPrefix_recover {b : Bytes} {entries : List WALEntry} (h : encodeAll entries <+: b) :
    entries.map clip <+: recover b := by
  rw [recover_eq]
  apply walReader_inverts.isPrefix_all
  · intro entry hentry
    rcases List.mem_map.mp hentry with ⟨entry', -, rfl⟩
    exact recordFits_clip entry'
  · rw [← encodeAll_clip] at h
    exact h

/-- Decoding the log. On every byte string the loop of `recover` comes to an
end, its records stand at the front of the string, and every list of records
that stands there is a part of them. A log of appended records is read back as
these, and any first part of it as those that are complete. -/
theorem recover_longest :
    (∀ b : Bytes,
      (∀ turns, recoverLoop (b.length + 1 + turns) (IFStream.openFile b) [] = recover b) ∧
      (∀ entry ∈ recover b, RecordFits entry) ∧ encodeAll (recover b) <+: b ∧
      ∀ entries, encodeAll entries <+: b → entries.map clip <+: recover b) ∧
    ∀ entries : List WALEntry, (∀ entry ∈ entries, RecordFits entry) →
      recover (appendAll WAL.new [] entries).2 = entries ∧
      ∀ n, ∃ k, recover ((appendAll WAL.new [] entries).2.take n) = entries.take k ∧
        k ≤ entries.length ∧
        ∀ j ≤ entries.length, (j ≤ k ↔ (encodeAll (entries.take j)).length ≤ n) := by
  refine ⟨?_, ?_⟩
  · intro b
    refine ⟨?_, ?_, ?_, fun entries h => isPrefix_recover h⟩
    · intro turns
      rw [recoverLoop_eq (IFStream.at_openFile b) (by omega), recover_eq, List.nil_append]
    · rw [recover_eq]
      exact (walReader_exact.eq_append_rest b).1
    · rw [recover_eq]
      exact walReader_exact.flatMap_isPrefix b
  · intro entries hfits
    have hlog : (appendAll WAL.new [] entries).2 = encodeAll entries :=
      CrashLog.log_appendAll rfl [] entries
    rw [hlog]
    refine ⟨recover_encodeAll hfits, ?_⟩
    intro n
    rcases Reader.all_take_flatMap walReader_inverts walReader_exact walReader_next_nil hfits n with
      ⟨k, hread, hk, hcomplete⟩
    exact ⟨k, by rw [recover_eq]; exact hread, hk, hcomplete⟩

end WAL

end VaultDB
