import VaultDB.Library.FileStream
import VaultDB.MemTable

/-! # Write-ahead log

`src/engine/wal.cpp`: one record for each `SET` or `DELETE`, appended before
the memtable changes and replayed when the store starts.

The functions act on the bytes of the log file. `recover` is a loop over an
input stream that looks at the stream state after the third, the fifth and the
sixth read of a record; `recover_eq` shows that it returns what the record
reader `walReader` reads, and the laws of that reader (`walReader_inverts`,
`walReader_exact`) say what this is for every byte string.
-/

namespace VaultDB

open Text Codec FileStream

/-- `enum class WALOp : uint8_t`: any byte may be cast to it. -/
structure WALOp where
  byte : UInt8
deriving Repr, DecidableEq

def WALOp.SET : WALOp := ⟨1⟩

def WALOp.DELETE : WALOp := ⟨2⟩

structure WALEntry where
  timestamp : UInt64
  op : WALOp
  key : Bytes
  value : Bytes
deriving Repr, DecidableEq

/-- The log object: the state bit of its stream `file_`, which stays open, and
the number of records appended. The file itself is `data_dir/wal.log`. -/
structure WAL where
  failbit : Bool
  entryCount : Nat
deriving Repr, DecidableEq

namespace WAL

/-- `WAL(path)`: opens the file in append mode. -/
def new : WAL := ⟨false, 0⟩

/-- The six writes of `append`. The lengths are `uint32_t`. -/
def writeRecord (file : OFStream) (timestamp : UInt64) (op : WALOp) (key value : Bytes) :
    OFStream :=
  let keyLen := key.length % 2 ^ 32
  let valLen := value.length % 2 ^ 32
  let file := file.write (leBytes 8 timestamp.toNat)
  let file := file.write [op.byte]
  let file := file.write (leBytes 4 keyLen)
  let file := file.write (key.take keyLen)
  let file := file.write (leBytes 4 valLen)
  file.write (value.take valLen)

/-- `append`, with the clock at `now` milliseconds and a device that accepts
`room` more bytes. The stream state is not looked at. -/
def append (wal : WAL) (log : Bytes) (room : Option Nat) (now : Nat) (op : WALOp)
    (key value : Bytes) : WAL × Bytes :=
  let timestamp := UInt64.ofNat now
  let file := writeRecord ⟨log, room, wal.failbit⟩ timestamp op key value
  (⟨file.failbit, wal.entryCount + 1⟩, file.content)

/-- One turn of the loop of `recover`: the record it pushes, or `none` where it
breaks off. -/
def recoverTurn (reader : IFStream) : Option (WALEntry × IFStream) :=
  let (next, reader) := reader.peek
  match next with
  | none => none
  | some _ =>
    let (timestamp, reader) := reader.read 8
    let (opByte, reader) := reader.read 1
    let (keyLen, reader) := reader.read 4
    if reader.failbit then none
    else
      let (key, reader) := reader.readString (leValue keyLen)
      let (valLen, reader) := reader.read 4
      if reader.failbit then none
      else
        let (value, reader) := reader.readString (leValue valLen)
        if reader.failbit then none
        else some (⟨UInt64.ofNat (leValue timestamp), ⟨opByte.headD 0⟩, key, value⟩, reader)

/-- The loop of `recover`; `fuel` bounds the number of turns. -/
def recoverLoop : Nat → IFStream → List WALEntry → List WALEntry
  | 0, _, entries => entries
  | fuel + 1, reader, entries =>
    match recoverTurn reader with
    | none => entries
    | some (entry, reader) => recoverLoop fuel reader (entries ++ [entry])

def recover (log : Bytes) : List WALEntry :=
  recoverLoop (log.length + 1) (IFStream.openFile log) []

/-- `checkpoint`: closes the stream, truncates the file and reopens it. -/
def checkpoint (_wal : WAL) : WAL × Bytes := (⟨false, 0⟩, [])

/-! ## The record format -/

/-- The bytes of one record. -/
def encode (entry : WALEntry) : Bytes :=
  leBytes 8 entry.timestamp.toNat ++ ([entry.op.byte] ++
    (leBytes 4 (entry.key.length % 2 ^ 32) ++ (entry.key.take (entry.key.length % 2 ^ 32) ++
      (leBytes 4 (entry.value.length % 2 ^ 32) ++
        entry.value.take (entry.value.length % 2 ^ 32)))))

/-- The bytes of a log. -/
def encodeAll (entries : List WALEntry) : Bytes := entries.flatMap encode

/-- Key and value have lengths that the record can hold. -/
def RecordFits (entry : WALEntry) : Prop := Fits entry.key ∧ Fits entry.value

instance (entry : WALEntry) : Decidable (RecordFits entry) := inferInstanceAs (Decidable (_ ∧ _))

/-- The six writes put the record's bytes into the file, as one write would. -/
theorem writeRecord_eq (file : OFStream) (entry : WALEntry) :
    writeRecord file entry.timestamp entry.op entry.key entry.value =
      file.write (encode entry) := by
  unfold writeRecord encode
  rw [OFStream.write_append, OFStream.write_append, OFStream.write_append, OFStream.write_append,
    OFStream.write_append]

theorem encodeAll_append (es fs : List WALEntry) :
    encodeAll (es ++ fs) = encodeAll es ++ encodeAll fs :=
  List.flatMap_append

theorem encode_ne_nil (entry : WALEntry) : encode entry ≠ [] := by
  intro h
  have hlen := congrArg List.length h
  unfold encode at hlen
  simp only [List.length_append, length_leBytes, List.length_nil] at hlen
  omega

/-- The fields of one record, each read in full or not at all. -/
def nextRecord (b : Bytes) : Option (WALEntry × Bytes) := do
  let (timestamp, b) ← takeExact 8 b
  let (opByte, b) ← takeExact 1 b
  let (keyLen, b) ← takeExact 4 b
  let (key, b) ← takeExact (leValue keyLen) b
  let (valLen, b) ← takeExact 4 b
  let (value, b) ← takeExact (leValue valLen) b
  return (⟨UInt64.ofNat (leValue timestamp), ⟨opByte.headD 0⟩, key, value⟩, b)

/-- What a successful read says about the bytes. -/
theorem nextRecord_eq_some {b r : Bytes} {entry : WALEntry} (h : nextRecord b = some (entry, r)) :
    ∃ timestamp opByte keyLen key valLen value,
      takeExact 8 b = some (timestamp, opByte ++ (keyLen ++ (key ++ (valLen ++ (value ++ r))))) ∧
      opByte.length = 1 ∧ keyLen.length = 4 ∧ key.length = leValue keyLen ∧
      valLen.length = 4 ∧ value.length = leValue valLen ∧
      entry = ⟨UInt64.ofNat (leValue timestamp), ⟨opByte.headD 0⟩, key, value⟩ := by
  unfold nextRecord at h
  simp only [bind, Option.bind_eq_some_iff, Prod.exists, pure, Option.some.injEq,
    Prod.mk.injEq] at h
  rcases h with ⟨timestamp, b₁, h₁, opByte, b₂, h₂, keyLen, b₃, h₃, key, b₄, h₄, valLen, b₅, h₅,
    value, b₆, h₆, hentry, rfl⟩
  rcases takeExact_eq_some_iff.mp h₂ with ⟨rfl, l₂⟩
  rcases takeExact_eq_some_iff.mp h₃ with ⟨rfl, l₃⟩
  rcases takeExact_eq_some_iff.mp h₄ with ⟨rfl, l₄⟩
  rcases takeExact_eq_some_iff.mp h₅ with ⟨rfl, l₅⟩
  rcases takeExact_eq_some_iff.mp h₆ with ⟨rfl, l₆⟩
  exact ⟨timestamp, opByte, keyLen, key, valLen, value, h₁, l₂, l₃, l₄, l₅, l₆, hentry.symm⟩

/-- Where a record is read, its encoding stands. -/
theorem nextRecord_exact {b r : Bytes} {entry : WALEntry} (h : nextRecord b = some (entry, r)) :
    RecordFits entry ∧ b = encode entry ++ r := by
  rcases nextRecord_eq_some h with
    ⟨timestamp, opByte, keyLen, key, valLen, value, h₁, l₂, l₃, l₄, l₅, l₆, rfl⟩
  rcases takeExact_eq_some_iff.mp h₁ with ⟨rfl, l₁⟩
  -- each field is the encoding of what was read from it
  have hkey : key.length < 2 ^ 32 := l₄ ▸ leValue_lt_of_length_four l₃
  have hvalue : value.length < 2 ^ 32 := l₆ ▸ leValue_lt_of_length_four l₅
  have htime : leBytes 8 (UInt64.ofNat (leValue timestamp)).toNat = timestamp := by
    have hlt := leValue_lt timestamp
    rw [l₁] at hlt
    rw [UInt64.toNat_ofNat', Nat.mod_eq_of_lt (by exact hlt), ← l₁, leBytes_leValue]
  have hop : [opByte.headD 0] = opByte := by
    rcases List.length_eq_one_iff.mp l₂ with ⟨x, rfl⟩
    rfl
  have hkeyLen : leBytes 4 key.length = keyLen := by
    rw [l₄, ← l₃, leBytes_leValue]
  have hvalLen : leBytes 4 value.length = valLen := by
    rw [l₆, ← l₅, leBytes_leValue]
  refine ⟨⟨hkey, hvalue⟩, ?_⟩
  unfold encode
  simp only [Nat.mod_eq_of_lt hkey, Nat.mod_eq_of_lt hvalue, List.take_length, htime, hop,
    hkeyLen, hvalLen, List.append_assoc]

theorem nextRecord_encode {entry : WALEntry} (hfits : RecordFits entry) (r : Bytes) :
    nextRecord (encode entry ++ r) = some (entry, r) := by
  rcases entry with ⟨timestamp, op, key, value⟩
  have hkey : key.length % 2 ^ 32 = key.length := Nat.mod_eq_of_lt hfits.1
  have hvalue : value.length % 2 ^ 32 = value.length := Nat.mod_eq_of_lt hfits.2
  have htime : UInt64.ofNat (leValue (leBytes 8 timestamp.toNat)) = timestamp := by
    rw [leValue_leBytes, Nat.mod_eq_of_lt (by exact timestamp.toNat_lt), UInt64.ofNat_toNat]
  have hkeyLen := hfits.1.leValue_leBytes
  have hvalLen := hfits.2.leValue_leBytes
  have t₁ := fun rest => takeExact_append (leBytes 8 timestamp.toNat) rest
  have t₂ := fun rest => takeExact_append [op.byte] rest
  have t₃ := fun rest => takeExact_append (leBytes 4 key.length) rest
  have t₄ := fun rest => takeExact_append key rest
  have t₅ := fun rest => takeExact_append (leBytes 4 value.length) rest
  have t₆ := fun rest => takeExact_append value rest
  simp only [length_leBytes, List.length_singleton] at t₁ t₂ t₃ t₅
  unfold nextRecord encode
  simp only [hkey, hvalue, List.take_length, List.append_assoc, t₁, t₂, t₃, hkeyLen, t₄, t₅,
    hvalLen, t₆, htime, bind, Option.bind, pure]
  rfl

/-- The reader of log records. -/
def walReader : Reader UInt8 WALEntry where
  next := nextRecord
  splits := by
    intro b entry r h
    rcases nextRecord_exact h with ⟨-, rfl⟩
    exact ⟨encode entry, encode_ne_nil entry, rfl⟩

theorem walReader_inverts : walReader.Inverts encode RecordFits :=
  fun _ r hfits => nextRecord_encode hfits r

theorem walReader_exact : walReader.Exact encode RecordFits :=
  fun h => nextRecord_exact h

@[simp] theorem walReader_next_nil : walReader.next [] = none := rfl

/-! ## The loop of `recover` -/

/-- One turn of the loop reads the record the reader reads, or stops where the
reader does: a field cut short fails the stream, and every later read leaves
it failed until the next test of its state. -/
theorem recoverTurn_spec {reader : IFStream} {b : Bytes} (hat : reader.At b) :
    (∃ entry r reader', nextRecord b = some (entry, r) ∧
      recoverTurn reader = some (entry, reader') ∧ reader'.At r) ∨
    (nextRecord b = none ∧ recoverTurn reader = none) := by
  cases b with
  | nil =>
      refine Or.inr ⟨rfl, ?_⟩
      have hpeek := IFStream.peek_nil (s := reader) (Or.inl hat)
      unfold recoverTurn
      simp only [hpeek]
  | cons x b =>
      have hpeek := hat.peek_cons
      unfold recoverTurn nextRecord
      simp only [hpeek]
      -- the three fields in front of the first test
      cases h₁ : takeExact 8 (x :: b) with
      | none =>
          have f₁ := hat.read_none h₁
          have f₃ := IFStream.read_failed (IFStream.read_failed f₁ 1) 4
          exact Or.inr ⟨rfl, by simp only [f₃, if_true]⟩
      | some p₁ =>
          rcases p₁ with ⟨timestamp, b₁⟩
          rcases hat.read_some h₁ with ⟨e₁, a₁, -, -⟩
          cases h₂ : takeExact 1 b₁ with
          | none =>
              have f₃ := IFStream.read_failed (a₁.read_none h₂) 4
              exact Or.inr ⟨by simp [h₂], by simp only [f₃, if_true]⟩
          | some p₂ =>
              rcases p₂ with ⟨opByte, b₂⟩
              rcases a₁.read_some h₂ with ⟨e₂, a₂, -, -⟩
              cases h₃ : takeExact 4 b₂ with
              | none =>
                  have f₃ := a₂.read_none h₃
                  exact Or.inr ⟨by simp [h₂, h₃], by simp only [f₃, if_true]⟩
              | some p₃ =>
                  rcases p₃ with ⟨keyLen, b₃⟩
                  rcases a₂.read_some h₃ with ⟨e₃, a₃, -, -⟩
                  simp only [e₁, e₂, e₃, a₃.failbit, Bool.false_eq_true, if_false]
                  -- the key and the second length are tested together
                  cases h₄ : takeExact (leValue keyLen) b₃ with
                  | none =>
                      have f₅ := IFStream.read_failed (a₃.readString_none h₄) 4
                      exact Or.inr ⟨by simp [h₂, h₃, h₄], by simp only [f₅, if_true]⟩
                  | some p₄ =>
                      rcases p₄ with ⟨key, b₄⟩
                      rcases a₃.readString_some h₄ with ⟨e₄, a₄, -, -⟩
                      cases h₅ : takeExact 4 b₄ with
                      | none =>
                          have f₅ := a₄.read_none h₅
                          exact Or.inr ⟨by simp [h₂, h₃, h₄, h₅], by simp only [f₅, if_true]⟩
                      | some p₅ =>
                          rcases p₅ with ⟨valLen, b₅⟩
                          rcases a₄.read_some h₅ with ⟨e₅, a₅, -, -⟩
                          simp only [e₄, e₅, a₅.failbit, Bool.false_eq_true, if_false]
                          cases h₆ : takeExact (leValue valLen) b₅ with
                          | none =>
                              have f₆ := a₅.readString_none h₆
                              exact Or.inr ⟨by simp [h₂, h₃, h₄, h₅, h₆],
                                by simp only [f₆, if_true]⟩
                          | some p₆ =>
                              rcases p₆ with ⟨value, b₆⟩
                              rcases a₅.readString_some h₆ with ⟨e₆, a₆, -, -⟩
                              refine Or.inl ⟨⟨UInt64.ofNat (leValue timestamp),
                                ⟨opByte.headD 0⟩, key, value⟩, b₆, _, ?_, ?_, a₆⟩
                              · simp [h₂, h₃, h₄, h₅, h₆]
                              · simp only [e₆, a₆.failbit, Bool.false_eq_true, if_false]

theorem recoverLoop_eq {b : Bytes} {reader : IFStream} (hat : reader.At b) {fuel : Nat}
    (hfuel : b.length < fuel) (entries : List WALEntry) :
    recoverLoop fuel reader entries = entries ++ walReader.all b := by
  induction fuel generalizing b reader entries with
  | zero => omega
  | succ fuel ih =>
      unfold recoverLoop
      rcases recoverTurn_spec hat with ⟨entry, r, reader', hnext, hturn, hat'⟩ | ⟨hnext, hturn⟩
      · -- a record takes at least one byte, so the fuel lasts
        have hlt := walReader.length_lt hnext
        simp only [hturn]
        rw [ih hat' (by omega), walReader.all_of_some hnext, List.append_assoc]
        rfl
      · simp only [hturn]
        rw [walReader.all_of_none hnext, List.append_nil]

/-- `recover` returns what the record reader reads. -/
theorem recover_eq (log : Bytes) : recover log = walReader.all log := by
  unfold recover
  rw [recoverLoop_eq (IFStream.at_openFile log) (Nat.lt_succ_self _), List.nil_append]

/-- A log of whole records is recovered in full. -/
theorem recover_encodeAll {entries : List WALEntry} (hfits : ∀ entry ∈ entries, RecordFits entry) :
    recover (encodeAll entries) = entries := by
  rw [recover_eq]
  exact walReader_inverts.all_flatMap walReader_next_nil hfits

/-- A log whose last record is cut anywhere is recovered without it. -/
theorem recover_encodeAll_truncated {entries : List WALEntry}
    (hfits : ∀ entry ∈ entries, RecordFits entry) {entry : WALEntry} (hentry : RecordFits entry)
    {torn missing : Bytes} (htorn : encode entry = torn ++ missing) (hmissing : missing ≠ []) :
    recover (encodeAll entries ++ torn) = entries := by
  rw [recover_eq]
  exact Reader.all_append_truncated walReader_inverts walReader_exact hfits hentry htorn hmissing

/-! ## Appending -/

/-- On a sound device and an unfailed stream the record stands at the end. -/
theorem append_sound {wal : WAL} (hwal : wal.failbit = false) (log : Bytes) (now : Nat)
    (op : WALOp) (key value : Bytes) :
    wal.append log none now op key value =
      (⟨false, wal.entryCount + 1⟩, log ++ encode ⟨UInt64.ofNat now, op, key, value⟩) := by
  unfold append
  have hwrite := writeRecord_eq ⟨log, none, wal.failbit⟩ ⟨UInt64.ofNat now, op, key, value⟩
  rw [hwal] at hwrite
  simp only [hwal, hwrite, OFStream.write_sound]

/-- On a device that stops accepting bytes the record is cut there, and the
stream fails exactly when the cut is inside the record. -/
theorem append_room {wal : WAL} (hwal : wal.failbit = false) (log : Bytes) (n now : Nat)
    (op : WALOp) (key value : Bytes) :
    (wal.append log (some n) now op key value).2 =
        log ++ (encode ⟨UInt64.ofNat now, op, key, value⟩).take n ∧
      ((wal.append log (some n) now op key value).1.failbit = true ↔
        n < (encode ⟨UInt64.ofNat now, op, key, value⟩).length) := by
  unfold append
  have hwrite := writeRecord_eq ⟨log, some n, wal.failbit⟩ ⟨UInt64.ofNat now, op, key, value⟩
  rw [hwal] at hwrite
  simp only [hwal, hwrite]
  exact OFStream.write_room log _ n

/-- On a failed stream nothing is written. -/
theorem append_failed {wal : WAL} (hwal : wal.failbit = true) (log : Bytes) (room : Option Nat)
    (now : Nat) (op : WALOp) (key value : Bytes) :
    wal.append log room now op key value = (⟨true, wal.entryCount + 1⟩, log) := by
  unfold append
  have hwrite := writeRecord_eq ⟨log, room, wal.failbit⟩ ⟨UInt64.ofNat now, op, key, value⟩
  rw [hwal] at hwrite
  simp only [hwal, hwrite, OFStream.write, if_true]

/-- The stream takes the whole record. -/
def Accepts (wal : WAL) (room : Option Nat) (entry : WALEntry) : Prop :=
  wal.failbit = false ∧ ∀ n, room = some n → (encode entry).length ≤ n

/-- Either the record is appended in full, or the stream is left failed with a
proper part of it, possibly none. -/
theorem append_cases (wal : WAL) (log : Bytes) (room : Option Nat) (now : Nat) (op : WALOp)
    (key value : Bytes) :
    (Accepts wal room ⟨UInt64.ofNat now, op, key, value⟩ ∧
      (wal.append log room now op key value).1.failbit = false ∧
      (wal.append log room now op key value).2 =
        log ++ encode ⟨UInt64.ofNat now, op, key, value⟩) ∨
    (¬ Accepts wal room ⟨UInt64.ofNat now, op, key, value⟩ ∧
      (wal.append log room now op key value).1.failbit = true ∧
      ∃ n < (encode ⟨UInt64.ofNat now, op, key, value⟩).length,
        (wal.append log room now op key value).2 =
          log ++ (encode ⟨UInt64.ofNat now, op, key, value⟩).take n) := by
  cases hwal : wal.failbit with
  | true =>
      refine Or.inr ⟨?_, ?_, 0, ?_, ?_⟩
      · rintro ⟨hopen, -⟩
        rw [hwal] at hopen
        cases hopen
      · rw [append_failed hwal]
      · exact List.length_pos_iff.mpr (encode_ne_nil _)
      · rw [append_failed hwal, List.take_zero, List.append_nil]
  | false =>
      cases room with
      | none =>
          refine Or.inl ⟨⟨hwal, by simp⟩, ?_, ?_⟩
          · rw [append_sound hwal]
          · rw [append_sound hwal]
      | some n =>
          rcases append_room hwal log n now op key value with ⟨hlog, hfail⟩
          -- the device stops inside the record or behind it
          by_cases hn : n < (encode ⟨UInt64.ofNat now, op, key, value⟩).length
          · refine Or.inr ⟨?_, hfail.mpr hn, n, hn, hlog⟩
            rintro ⟨-, hroom⟩
            exact absurd hn (not_lt.mpr (hroom n rfl))
          · refine Or.inl ⟨⟨hwal, ?_⟩, ?_, ?_⟩
            · intro m hm
              rw [← Option.some.inj hm]
              exact not_lt.mp hn
            · rw [Bool.eq_false_iff]
              exact fun htrue => hn (hfail.mp htrue)
            · rw [hlog, List.take_of_length_le (not_lt.mp hn)]

end WAL

end VaultDB
