import Mathlib.Data.List.TakeWhile
import VaultDB.BloomFilter
import VaultDB.Library.FileStream
import VaultDB.MemTable

/-! # Sorted string tables

`src/engine/sstable.cpp`: an immutable file of entries in key order, read
through a Bloom filter and a sparse index of every 100th key.

The file format is decoded by three loops, in `get`, `read_all` and
`build_sparse_index`. None of them looks at the stream after the value, so a
value cut short by the end of the file is taken with zero bytes for what is
missing. One reader, `entryReader`, says what all three see in a byte string;
`describe` is the table object that belongs to what it sees. The results are

* `new_eq`: opening a file gives its description;
* `flush_eq`: so does writing one, for entries whose lengths fit;
* `get_describe`: a described table answers as a plain lookup in its entries;
* `get_mergeEntries`: compaction merges by newer-wins.
-/

namespace VaultDB

open Text Codec FileStream

/-- The files in `data_dir/sstables`: path and content. -/
abbrev Files := List (Bytes × Bytes)

structure SparseIndexEntry where
  key : Bytes
  offset : Int
deriving Repr, DecidableEq

structure SSTable where
  path : Bytes
  sparseIndex : List SparseIndexEntry
  bloomFilter : BloomFilter
  entryCount : Nat
deriving Repr, DecidableEq

namespace SSTable

/-! ## Reading loops -/

/-- One turn of the loop of `build_sparse_index`: key and offset of an entry,
its value skipped by a seek; `none` where the loop breaks off. -/
def indexTurn (file : IFStream) : Option (Bytes × Int × IFStream) :=
  let (next, file) := file.peek
  match next with
  | none => none
  | some _ =>
    let offset := file.tellg
    let (keyLen, file) := file.read 4
    if file.failbit then none
    else
      let (key, file) := file.readString (leValue keyLen)
      let (valLen, file) := file.read 4
      if file.failbit then none
      else some (key, offset, file.seekgCur (leValue valLen))

/-- The loop of `build_sparse_index`. -/
def indexLoop : Nat → IFStream → Nat → List SparseIndexEntry → List Bytes →
    List SparseIndexEntry × List Bytes × Nat
  | 0, _, count, index, keys => (index, keys, count)
  | fuel + 1, file, count, index, keys =>
    match indexTurn file with
    | none => (index, keys, count)
    | some (key, offset, file) =>
      let index := if count % 100 = 0 then index ++ [⟨key, offset⟩] else index
      indexLoop fuel file (count + 1) index (keys ++ [key])

/-- `build_sparse_index` on a file with the given content. -/
def buildSparseIndex (path content : Bytes) : SSTable :=
  let (index, keys, count) :=
    indexLoop (content.length + 1) (IFStream.openFile content) 0 [] []
  ⟨path, index, (BloomFilter.new (if count > 0 then count else 1)).addAll keys, count⟩

/-- `SSTable(path)`. -/
def new (files : Files) (path : Bytes) : SSTable :=
  match Assoc.get path files with
  | some content => buildSparseIndex path content
  | none => ⟨path, [], BloomFilter.new 1000, 0⟩

/-- One turn of the loops of `get` and `read_all`: an entry, its value read
without a look at the stream; `none` where the loop breaks off. -/
def readTurn (file : IFStream) : Option (Bytes × Bytes × IFStream) :=
  let (next, file) := file.peek
  match next with
  | none => none
  | some _ =>
    let (keyLen, file) := file.read 4
    if file.failbit then none
    else
      let (key, file) := file.readString (leValue keyLen)
      let (valLen, file) := file.read 4
      if file.failbit then none
      else
        let (value, file) := file.readString (leValue valLen)
        some (key, value, file)

/-- The linear scan of `get`. -/
def scanLoop : Nat → IFStream → Bytes → Option Bytes
  | 0, _, _ => none
  | fuel + 1, file, key =>
    match readTurn file with
    | none => none
    | some (entryKey, entryVal, file) =>
      if entryKey = key then some entryVal
      else if entryKey > key then none
      else scanLoop fuel file key

/-- Where the scan starts: the offset of the last index entry whose key is not
above `key` (one step back from `upper_bound`), or the beginning. -/
def startOffset (index : List SparseIndexEntry) (key : Bytes) : Int :=
  match (index.takeWhile fun entry => ¬ key < entry.key).getLast? with
  | some entry => entry.offset
  | none => 0

def bloomMightContain (table : SSTable) (key : Bytes) : Bool := table.bloomFilter.mightContain key

def get (table : SSTable) (files : Files) (key : Bytes) : Option Bytes :=
  if ¬ table.bloomFilter.mightContain key then none
  else if table.sparseIndex.isEmpty then none
  else
    match Assoc.get table.path files with
    | none => none
    | some content =>
      let file := (IFStream.openFile content).seekg (startOffset table.sparseIndex key)
      scanLoop (content.length + 1) file key

/-- The loop of `read_all`. -/
def readAllLoop : Nat → IFStream → List Entry → List Entry
  | 0, _, entries => entries
  | fuel + 1, file, entries =>
    match readTurn file with
    | none => entries
    | some (key, value, file) => readAllLoop fuel file (entries ++ [(key, value)])

def readAll (table : SSTable) (files : Files) : List Entry :=
  match Assoc.get table.path files with
  | none => []
  | some content => readAllLoop (content.length + 1) (IFStream.openFile content) []

/-! ## Writing -/

/-- The four writes of `flush` for one entry. The lengths are `uint32_t`. -/
def writeEntry (file : OFStream) (key value : Bytes) : OFStream :=
  let keyLen := key.length % 2 ^ 32
  let valLen := value.length % 2 ^ 32
  let file := file.write (leBytes 4 keyLen)
  let file := file.write (key.take keyLen)
  let file := file.write (leBytes 4 valLen)
  file.write (value.take valLen)

/-- The loop of `flush`. -/
def flushLoop : List Entry → Nat → OFStream → List SparseIndexEntry → BloomFilter →
    OFStream × List SparseIndexEntry × BloomFilter × Nat
  | [], count, file, index, bloom => (file, index, bloom, count)
  | (key, value) :: entries, count, file, index, bloom =>
    let index := if count % 100 = 0 then index ++ [⟨key, file.tellp⟩] else index
    let bloom := bloom.add key
    let file := writeEntry file key value
    flushLoop entries (count + 1) file index bloom

/-- `flush`, on a device that may fail. The stream state is not looked at. -/
def flush (table : SSTable) (dev : Device) (files : Files) (entries : List Entry) :
    SSTable × Files :=
  let bloom := BloomFilter.new (if entries.length > 0 then entries.length else 1)
  let (file, index, bloom, count) := flushLoop entries 0 (OFStream.openTrunc dev) [] bloom
  (⟨table.path, index, bloom, count⟩,
    if dev.opens then Assoc.put table.path file.content files else files)

/-- The merge of `compact`: two sorted lists, the newer value winning. -/
def mergeEntries : List Entry → List Entry → List Entry
  | [], new => new
  | old, [] => old
  | o :: old, n :: new =>
    if o.1 < n.1 then o :: mergeEntries old (n :: new)
    else if o.1 > n.1 then n :: mergeEntries (o :: old) new
    else n :: mergeEntries old new
termination_by old new => old.length + new.length

def compact (older newer : SSTable) (dev : Device) (files : Files) (outputPath : Bytes) :
    SSTable × Files :=
  let merged := mergeEntries (older.readAll files) (newer.readAll files)
  (new files outputPath).flush dev files merged

/-! ## The file format -/

/-- The bytes of one entry. -/
def encodeEntry (entry : Entry) : Bytes :=
  leBytes 4 (entry.1.length % 2 ^ 32) ++ (entry.1.take (entry.1.length % 2 ^ 32) ++
    (leBytes 4 (entry.2.length % 2 ^ 32) ++ entry.2.take (entry.2.length % 2 ^ 32)))

/-- The bytes of a table file. -/
def encodeEntries (entries : List Entry) : Bytes := entries.flatMap encodeEntry

theorem writeEntry_eq (file : OFStream) (entry : Entry) :
    writeEntry file entry.1 entry.2 = file.write (encodeEntry entry) := by
  unfold writeEntry encodeEntry
  rw [OFStream.write_append, OFStream.write_append, OFStream.write_append]

/-- The stream of `flush` takes the entries as one write of all their bytes. -/
theorem flushLoop_file (entries : List Entry) (count : Nat) (file : OFStream)
    (index : List SparseIndexEntry) (bloom : BloomFilter) :
    (flushLoop entries count file index bloom).1 = file.write (encodeEntries entries) := by
  induction entries generalizing count file index bloom with
  | nil =>
      unfold flushLoop encodeEntries
      rw [List.flatMap_nil, OFStream.write_nil]
  | cons entry entries ih =>
      have hwrite := writeEntry_eq file entry
      unfold flushLoop
      dsimp only
      rw [ih, hwrite, ← OFStream.write_append]
      rfl

/-- A file written from its beginning on a device that may fail. -/
def putFile (dev : Device) (path content : Bytes) (files : Files) : Files :=
  if dev.opens then Assoc.put path ((OFStream.openTrunc dev).write content).content files
  else files

theorem putFile_sound (path content : Bytes) (files : Files) :
    putFile Device.sound path content files = Assoc.put path content files := rfl

theorem flush_files (table : SSTable) (dev : Device) (files : Files) (entries : List Entry) :
    (table.flush dev files entries).2 = putFile dev table.path (encodeEntries entries) files := by
  have hfile := flushLoop_file entries 0 (OFStream.openTrunc dev) []
    (BloomFilter.new (if entries.length > 0 then entries.length else 1))
  unfold flush putFile
  dsimp only
  rw [hfile]

/-- What the loops see at the front of a byte string: the lengths and the key
in full, and the value with zero bytes for what is missing. -/
def nextEntry (b : Bytes) : Option (Entry × Bytes) := do
  let (keyLen, b) ← takeExact 4 b
  let (key, b) ← takeExact (leValue keyLen) b
  let (valLen, b) ← takeExact 4 b
  let n := leValue valLen
  return ((key, b.take n ++ List.replicate (n - b.length) 0), b.drop n)

theorem nextEntry_eq_some {b r : Bytes} {entry : Entry} (h : nextEntry b = some (entry, r)) :
    ∃ keyLen valLen b', b = keyLen ++ (entry.1 ++ (valLen ++ b')) ∧ keyLen.length = 4 ∧
      entry.1.length = leValue keyLen ∧ valLen.length = 4 ∧
      entry.2 = b'.take (leValue valLen) ++ List.replicate (leValue valLen - b'.length) 0 ∧
      r = b'.drop (leValue valLen) := by
  unfold nextEntry at h
  simp only [bind, Option.bind_eq_some_iff, Prod.exists, pure, Option.some.injEq,
    Prod.mk.injEq] at h
  rcases h with ⟨keyLen, b₁, h₁, key, b₂, h₂, valLen, b₃, h₃, rfl, rfl⟩
  rcases takeExact_eq_some_iff.mp h₁ with ⟨rfl, l₁⟩
  rcases takeExact_eq_some_iff.mp h₂ with ⟨rfl, l₂⟩
  rcases takeExact_eq_some_iff.mp h₃ with ⟨rfl, l₃⟩
  exact ⟨keyLen, valLen, b₃, rfl, l₁, l₂, l₃, rfl, rfl⟩

/-- The reader of table entries. -/
def entryReader : Reader UInt8 Entry where
  next := nextEntry
  splits := by
    intro b entry r h
    rcases nextEntry_eq_some h with ⟨keyLen, valLen, b', rfl, l₁, -, -, -, rfl⟩
    refine ⟨keyLen ++ (entry.1 ++ (valLen ++ b'.take (leValue valLen))), ?_, ?_⟩
    · intro hnil
      have hlen := congrArg List.length hnil
      simp only [List.length_append, List.length_nil] at hlen
      omega
    · simp only [List.append_assoc, List.take_append_drop]

@[simp] theorem entryReader_next_nil : entryReader.next [] = none := rfl

/-- What is read always has lengths that four bytes hold. -/
theorem nextEntry_fits {b r : Bytes} {entry : Entry} (h : nextEntry b = some (entry, r)) :
    EntryFits entry := by
  rcases nextEntry_eq_some h with ⟨keyLen, valLen, b', -, l₁, l₂, l₃, hvalue, -⟩
  refine ⟨?_, ?_⟩
  · show entry.1.length < 2 ^ 32
    rw [l₂]
    exact leValue_lt_of_length_four l₁
  · have hlt := leValue_lt_of_length_four l₃
    show entry.2.length < 2 ^ 32
    rw [hvalue]
    simp only [List.length_append, List.length_take, List.length_replicate]
    omega

theorem fits_of_mem_all {b : Bytes} {entry : Entry} (h : entry ∈ entryReader.all b) :
    EntryFits entry := by
  induction b using entryReader.induction_all with
  | stop b hnext =>
      rw [entryReader.all_of_none hnext] at h
      cases h
  | more b entry' r hnext ih =>
      rw [entryReader.all_of_some hnext] at h
      rcases List.mem_cons.mp h with rfl | h
      · exact nextEntry_fits hnext
      · exact ih h

theorem nextEntry_encode {entry : Entry} (hfits : EntryFits entry) (r : Bytes) :
    nextEntry (encodeEntry entry ++ r) = some (entry, r) := by
  rcases entry with ⟨key, value⟩
  have hkey : key.length % 2 ^ 32 = key.length := Nat.mod_eq_of_lt hfits.1
  have hvalue : value.length % 2 ^ 32 = value.length := Nat.mod_eq_of_lt hfits.2
  have hkeyLen := hfits.1.leValue_leBytes
  have hvalLen := hfits.2.leValue_leBytes
  have t₁ := fun rest => takeExact_append (leBytes 4 key.length) rest
  have t₂ := fun rest => takeExact_append key rest
  have t₃ := fun rest => takeExact_append (leBytes 4 value.length) rest
  simp only [length_leBytes] at t₁ t₃
  unfold nextEntry encodeEntry
  simp only [hkey, hvalue, List.take_length, List.append_assoc, t₁, hkeyLen, t₂, t₃, hvalLen,
    bind, Option.bind, pure]
  simp

theorem entryReader_inverts : entryReader.Inverts encodeEntry EntryFits :=
  fun _ r hfits => nextEntry_encode hfits r

/-- A file of whole entries is read back. -/
theorem all_encodeEntries {entries : List Entry} (hfits : ∀ entry ∈ entries, EntryFits entry) :
    entryReader.all (encodeEntries entries) = entries :=
  entryReader_inverts.all_flatMap entryReader_next_nil hfits

/-! ## The reading loops against the reader -/

theorem readTurn_spec {file : IFStream} {b : Bytes} (hb : file.Before b) :
    (∃ entry r file', nextEntry b = some (entry, r) ∧
      readTurn file = some (entry.1, entry.2, file') ∧ file'.Before r) ∨
    (nextEntry b = none ∧ readTurn file = none) := by
  cases b with
  | nil =>
      refine Or.inr ⟨rfl, ?_⟩
      have hpeek := IFStream.peek_nil hb
      unfold readTurn
      simp only [hpeek]
  | cons x b =>
      have hat := hb.at_cons
      have hpeek := hat.peek_cons
      unfold readTurn nextEntry
      simp only [hpeek]
      cases h₁ : takeExact 4 (x :: b) with
      | none =>
          have f₁ := hat.read_none h₁
          exact Or.inr ⟨rfl, by simp only [f₁, if_true]⟩
      | some p₁ =>
          rcases p₁ with ⟨keyLen, b₁⟩
          rcases hat.read_some h₁ with ⟨e₁, a₁, -, -⟩
          simp only [e₁, a₁.failbit, Bool.false_eq_true, if_false]
          -- a key cut short fails the stream before the second length is read
          cases h₂ : takeExact (leValue keyLen) b₁ with
          | none =>
              have f₃ := IFStream.read_failed (a₁.readString_none h₂) 4
              exact Or.inr ⟨by simp [h₂], by simp only [f₃, if_true]⟩
          | some p₂ =>
              rcases p₂ with ⟨key, b₂⟩
              rcases a₁.readString_some h₂ with ⟨e₂, a₂, -, -⟩
              cases h₃ : takeExact 4 b₂ with
              | none =>
                  have f₃ := a₂.read_none h₃
                  exact Or.inr ⟨by simp [h₂, h₃], by simp only [f₃, if_true]⟩
              | some p₃ =>
                  rcases p₃ with ⟨valLen, b₃⟩
                  rcases a₂.read_some h₃ with ⟨e₃, a₃, -, -⟩
                  simp only [e₂, e₃, a₃.failbit, Bool.false_eq_true, if_false]
                  -- no test follows the value: a short one leaves a failed stream
                  rcases a₃.readString (leValue valLen) with ⟨e₄, hb₄⟩
                  refine Or.inl ⟨(key, b₃.take (leValue valLen) ++
                    List.replicate (leValue valLen - b₃.length) 0), _, _, ?_, ?_, hb₄⟩
                  · simp [h₂, h₃]
                  · rw [e₄]

/-- The index loop sees the entries the reader sees, at their offsets; past the
end of the file there is no offset to record. -/
theorem indexTurn_spec {file : IFStream} {b : Bytes} (hat : file.At b) :
    (∃ entry r, ∃ file' : IFStream, nextEntry b = some (entry, r) ∧
      indexTurn file = some (entry.1, (file.pos : Int), file') ∧ file'.At r ∧
      (r ≠ [] → file'.pos = file.pos + (b.length - r.length))) ∨
    (nextEntry b = none ∧ indexTurn file = none) := by
  cases b with
  | nil =>
      refine Or.inr ⟨rfl, ?_⟩
      have hpeek := IFStream.peek_nil (s := file) (Or.inl hat)
      unfold indexTurn
      simp only [hpeek]
  | cons x b =>
      have hpeek := hat.peek_cons
      unfold indexTurn nextEntry
      simp only [hpeek, hat.tellg]
      cases h₁ : takeExact 4 (x :: b) with
      | none =>
          have f₁ := hat.read_none h₁
          exact Or.inr ⟨rfl, by simp only [f₁, if_true]⟩
      | some p₁ =>
          rcases p₁ with ⟨keyLen, b₁⟩
          rcases hat.read_some h₁ with ⟨e₁, a₁, q₁, -⟩
          simp only [e₁, a₁.failbit, Bool.false_eq_true, if_false]
          cases h₂ : takeExact (leValue keyLen) b₁ with
          | none =>
              have f₃ := IFStream.read_failed (a₁.readString_none h₂) 4
              exact Or.inr ⟨by simp [h₂], by simp only [f₃, if_true]⟩
          | some p₂ =>
              rcases p₂ with ⟨key, b₂⟩
              rcases a₁.readString_some h₂ with ⟨e₂, a₂, q₂, -⟩
              cases h₃ : takeExact 4 b₂ with
              | none =>
                  have f₃ := a₂.read_none h₃
                  exact Or.inr ⟨by simp [h₂, h₃], by simp only [f₃, if_true]⟩
              | some p₃ =>
                  rcases p₃ with ⟨valLen, b₃⟩
                  rcases a₂.read_some h₃ with ⟨e₃, a₃, q₃, -⟩
                  simp only [e₂, e₃, a₃.failbit, Bool.false_eq_true, if_false]
                  refine Or.inl ⟨(key, b₃.take (leValue valLen) ++
                    List.replicate (leValue valLen - b₃.length) 0), b₃.drop (leValue valLen), _,
                    ?_, rfl, a₃.seekgCur _, ?_⟩
                  · simp [h₂, h₃]
                  · -- the seek stays inside the file as long as something is left
                    intro hne
                    rcases takeExact_eq_some_iff.mp h₁ with ⟨s₁, l₁⟩
                    rcases takeExact_eq_some_iff.mp h₂ with ⟨rfl, l₂⟩
                    rcases takeExact_eq_some_iff.mp h₃ with ⟨rfl, l₃⟩
                    have hlen : leValue valLen < b₃.length := by
                      by_contra hge
                      exact hne (List.drop_of_length_le (by omega))
                    have hpos := a₃.pos_seekgCur (leValue valLen)
                    rw [hpos, q₃, q₂, q₁, s₁]
                    simp only [List.length_append, List.length_drop]
                    omega

theorem readAllLoop_eq {b : Bytes} {file : IFStream} (hb : file.Before b) {fuel : Nat}
    (hfuel : b.length < fuel) (entries : List Entry) :
    readAllLoop fuel file entries = entries ++ entryReader.all b := by
  induction fuel generalizing b file entries with
  | zero => omega
  | succ fuel ih =>
      unfold readAllLoop
      rcases readTurn_spec hb with ⟨entry, r, file', hnext, hturn, hb'⟩ | ⟨hnext, hturn⟩
      · have hlt := entryReader.length_lt hnext
        simp only [hturn]
        rw [ih hb' (by omega), entryReader.all_of_some hnext, List.append_assoc]
        rfl
      · simp only [hturn]
        rw [entryReader.all_of_none hnext, List.append_nil]

/-- `read_all` returns what the reader reads from the table's file. -/
theorem readAll_eq {table : SSTable} {files : Files} {content : Bytes}
    (h : Assoc.get table.path files = some content) :
    table.readAll files = entryReader.all content := by
  unfold readAll
  simp only [h]
  rw [readAllLoop_eq (Or.inl (IFStream.at_openFile content)) (Nat.lt_succ_self _),
    List.nil_append]

/-- In key order the scan finds what a plain lookup finds: it may stop at the
first key above the one looked for. -/
theorem scanLoop_eq {b : Bytes} {file : IFStream} (hb : file.Before b) {fuel : Nat}
    (hfuel : b.length < fuel) (hsorted : Assoc.Sorted (entryReader.all b)) (key : Bytes) :
    scanLoop fuel file key = Assoc.get key (entryReader.all b) := by
  induction fuel generalizing b file with
  | zero => omega
  | succ fuel ih =>
      unfold scanLoop
      rcases readTurn_spec hb with ⟨entry, r, file', hnext, hturn, hb'⟩ | ⟨hnext, hturn⟩
      · have hlt := entryReader.length_lt hnext
        have hall := entryReader.all_of_some hnext
        rw [hall] at hsorted
        simp only [hturn, hall]
        by_cases heq : entry.1 = key
        · rw [if_pos heq, ← heq, Assoc.get_cons_self]
        · rw [if_neg heq]
          by_cases hgt : entry.1 > key
          · -- every later key is above this one
            rw [if_pos hgt]
            exact (hsorted.get_of_lt_head hgt).symm
          · rw [if_neg hgt, Assoc.get_cons_ne (Ne.symm heq)]
            exact ih hb' (by omega) (List.pairwise_cons.mp hsorted).2
      · simp only [hturn]
        rw [entryReader.all_of_none hnext]
        rfl

/-! ## The table object that belongs to a file -/

/-- Every 100th of the located entries. -/
def sampleIndex : Nat → List (Entry × Nat) → List SparseIndexEntry
  | _, [] => []
  | count, (entry, offset) :: located =>
    if count % 100 = 0 then ⟨entry.1, offset⟩ :: sampleIndex (count + 1) located
    else sampleIndex (count + 1) located

/-- The object for a file whose entries are found at these offsets. -/
def describe (path : Bytes) (located : List (Entry × Nat)) : SSTable :=
  ⟨path, sampleIndex 0 located,
    (BloomFilter.new (if located.length > 0 then located.length else 1)).addAll
      (located.map fun e => e.1.1),
    located.length⟩

theorem indexLoop_eq {b : Bytes} {file : IFStream} (hat : file.At b) {fuel : Nat}
    (hfuel : b.length < fuel) (off : Nat) (hoff : b ≠ [] → file.pos = off) (count : Nat)
    (index : List SparseIndexEntry) (keys : List Bytes) :
    indexLoop fuel file count index keys =
      (index ++ sampleIndex count (entryReader.located b off),
        keys ++ (entryReader.located b off).map (fun e => e.1.1),
        count + (entryReader.located b off).length) := by
  induction fuel generalizing b file off count index keys with
  | zero => omega
  | succ fuel ih =>
      unfold indexLoop
      rcases indexTurn_spec hat with ⟨entry, r, file', hnext, hturn, hat', hpos⟩ | ⟨hnext, hturn⟩
      · have hlt := entryReader.length_lt hnext
        have hb : b ≠ [] := by
          rintro rfl
          cases hnext
        -- the next entry, if there is one, starts where the stream stands
        have hoff' : r ≠ [] → file'.pos = off + (b.length - r.length) := by
          intro hr
          rw [hpos hr, hoff hb]
        simp only [hturn]
        rw [ih hat' (by omega) _ hoff', entryReader.located_of_some hnext, hoff hb]
        by_cases hcount : count % 100 = 0
        · simp only [hcount, if_true, sampleIndex, List.map_cons, List.length_cons,
            List.append_assoc, List.singleton_append]
          simp only [Prod.mk.injEq, true_and]
          omega
        · simp only [hcount, if_false, sampleIndex, List.map_cons, List.length_cons,
            List.append_assoc, List.singleton_append]
          simp only [Prod.mk.injEq, true_and]
          omega
      · simp only [hturn]
        rw [entryReader.located_of_none hnext]
        simp [sampleIndex]

/-- Opening an existing file. -/
theorem new_eq {files : Files} {path content : Bytes} (h : Assoc.get path files = some content) :
    new files path = describe path (entryReader.located content 0) := by
  unfold new buildSparseIndex describe
  simp only [h]
  rw [indexLoop_eq (IFStream.at_openFile content) (Nat.lt_succ_self _) 0 (fun _ => rfl)]
  simp

theorem path_new (files : Files) (path : Bytes) : (new files path).path = path := by
  cases h : Assoc.get path files with
  | none => simp only [new, h]
  | some content =>
      rw [new_eq h]
      rfl

theorem flushLoop_eq {entries : List Entry} (hfits : ∀ entry ∈ entries, EntryFits entry)
    (count : Nat) (content : Bytes) (index : List SparseIndexEntry) (bloom : BloomFilter) :
    flushLoop entries count ⟨content, none, false⟩ index bloom =
      (⟨content ++ encodeEntries entries, none, false⟩,
        index ++ sampleIndex count (entryReader.located (encodeEntries entries) content.length),
        bloom.addAll ((entryReader.located (encodeEntries entries) content.length).map
          fun e => e.1.1),
        count + (entryReader.located (encodeEntries entries) content.length).length) := by
  induction entries generalizing count content index bloom with
  | nil =>
      unfold flushLoop encodeEntries
      rw [List.flatMap_nil, entryReader.located_of_none entryReader_next_nil]
      simp [sampleIndex, BloomFilter.addAll]
  | cons entry entries ih =>
      have hentry := hfits entry List.mem_cons_self
      have hloc : entryReader.located (encodeEntries (entry :: entries)) content.length =
          (entry, content.length) :: entryReader.located (encodeEntries entries)
            (content ++ encodeEntry entry).length := by
        unfold encodeEntries
        rw [List.flatMap_cons, entryReader_inverts.located_cons hentry, List.length_append]
      -- `tellp` in front of the entry is the offset a reader finds it at
      have hwrite := writeEntry_eq ⟨content, none, false⟩ entry
      unfold flushLoop
      simp only [hwrite, OFStream.write_sound]
      rw [ih fun e he => hfits e (List.mem_cons_of_mem _ he), hloc]
      have hcontent : content ++ encodeEntry entry ++ encodeEntries entries =
          content ++ encodeEntries (entry :: entries) := by
        unfold encodeEntries
        rw [List.flatMap_cons, List.append_assoc]
      rw [hcontent]
      by_cases hcount : count % 100 = 0
      · simp only [hcount, if_true, sampleIndex, List.map_cons, List.length_cons,
          List.append_assoc, List.singleton_append, OFStream.tellp, Bool.false_eq_true, if_false]
        simp only [Prod.mk.injEq, true_and]
        exact ⟨rfl, by omega⟩
      · simp only [hcount, if_false, sampleIndex, List.map_cons, List.length_cons]
        simp only [Prod.mk.injEq, true_and]
        exact ⟨rfl, by omega⟩

/-- Writing a file on a sound device leaves the object that opening the file
would give. -/
theorem flush_eq (table : SSTable) (files : Files) {entries : List Entry}
    (hfits : ∀ entry ∈ entries, EntryFits entry) :
    table.flush Device.sound files entries =
      (describe table.path (entryReader.located (encodeEntries entries) 0),
        Assoc.put table.path (encodeEntries entries) files) := by
  have hlen : (entryReader.located (encodeEntries entries) 0).length = entries.length := by
    rw [← List.length_map Prod.fst, entryReader.map_fst_located, all_encodeEntries hfits]
  have hloop := flushLoop_eq hfits 0 [] []
    (BloomFilter.new (if entries.length > 0 then entries.length else 1))
  unfold flush describe
  simp only [OFStream.openTrunc, Device.sound, Bool.not_true]
  rw [hloop]
  simp only [List.nil_append, List.length_nil, Nat.zero_add, hlen, if_true]

/-- The object that writing entries to a path leaves. On a device that fails it
may describe more than the file holds. -/
def flushedTo (dev : Device) (files : Files) (path : Bytes) (entries : List Entry) : SSTable :=
  ((new files path).flush dev files entries).1

@[simp] theorem path_flushedTo (dev : Device) (files : Files) (path : Bytes)
    (entries : List Entry) : (flushedTo dev files path entries).path = path := path_new files path

theorem flush_new (dev : Device) (files : Files) (path : Bytes) (entries : List Entry) :
    (new files path).flush dev files entries =
      (flushedTo dev files path entries, putFile dev path (encodeEntries entries) files) := by
  have hfiles := flush_files (new files path) dev files entries
  rw [path_new] at hfiles
  exact Prod.ext rfl hfiles

theorem flushedTo_sound (files : Files) (path : Bytes) {entries : List Entry}
    (hfits : ∀ entry ∈ entries, EntryFits entry) :
    flushedTo Device.sound files path entries =
      describe path (entryReader.located (encodeEntries entries) 0) := by
  unfold flushedTo
  rw [flush_eq _ files hfits, path_new]

theorem compact_eq_flushedTo (older newer : SSTable) (dev : Device) (files : Files)
    (path : Bytes) :
    SSTable.compact older newer dev files path =
      (flushedTo dev files path (mergeEntries (older.readAll files) (newer.readAll files)),
        putFile dev path (encodeEntries (mergeEntries (older.readAll files)
          (newer.readAll files))) files) := flush_new _ _ _ _

/-! ## Lookup -/

theorem mem_sampleIndex {located : List (Entry × Nat)} {count : Nat} {e : SparseIndexEntry}
    (h : e ∈ sampleIndex count located) :
    ∃ pre post entry offset, located = pre ++ (entry, offset) :: post ∧
      e = ⟨entry.1, (offset : Nat)⟩ := by
  induction located generalizing count with
  | nil => cases h
  | cons loc located ih =>
      rcases loc with ⟨entry, offset⟩
      -- an entry sampled further on has this one in front of it
      have htail : ∀ count', e ∈ sampleIndex count' located →
          ∃ pre post entry' offset', (entry, offset) :: located = pre ++ (entry', offset') :: post ∧
            e = ⟨entry'.1, (offset' : Nat)⟩ := by
        intro count' hmem
        rcases ih hmem with ⟨pre, post, entry', offset', hsplit, he⟩
        exact ⟨(entry, offset) :: pre, post, entry', offset', by rw [hsplit]; rfl, he⟩
      unfold sampleIndex at h
      split_ifs at h with hcount
      · rcases List.mem_cons.mp h with rfl | h
        · exact ⟨[], located, entry, offset, rfl, rfl⟩
        · exact htail _ h
      · exact htail _ h

/-- The scan starts at an entry that is there and whose key is not above the
key looked for, or at the beginning. -/
theorem startOffset_cases (located : List (Entry × Nat)) (key : Bytes) :
    startOffset (sampleIndex 0 located) key = 0 ∨
    ∃ pre post entry offset, located = pre ++ (entry, offset) :: post ∧ ¬ key < entry.1 ∧
      startOffset (sampleIndex 0 located) key = (offset : Nat) := by
  unfold startOffset
  cases hlast : ((sampleIndex 0 located).takeWhile fun entry => ¬ key < entry.key).getLast? with
  | none => exact Or.inl rfl
  | some e =>
      have hmem := List.mem_of_getLast? hlast
      have hle : ¬ key < e.key := by
        have himp := List.mem_takeWhile_imp hmem
        simpa using himp
      have hindex := (List.takeWhile_sublist _).subset hmem
      rcases mem_sampleIndex hindex with ⟨pre, post, entry, offset, hsplit, rfl⟩
      exact Or.inr ⟨pre, post, entry, offset, hsplit, hle, rfl⟩

/-- The filter of a described table has no false negatives. -/
theorem mightContain_describe {content key : Bytes}
    (hmem : key ∈ (entryReader.all content).map Prod.fst) (path : Bytes) :
    (describe path (entryReader.located content 0)).bloomMightContain key = true := by
  apply BloomFilter.mightContain_of_mem (BloomFilter.new_wellSized _ _)
  rw [← entryReader.map_fst_located content 0, List.map_map] at hmem
  exact hmem

/-- The first entry is always sampled, so an empty index means an empty file. -/
theorem all_of_index_isEmpty {path content : Bytes}
    (h : (describe path (entryReader.located content 0)).sparseIndex.isEmpty = true) :
    entryReader.all content = [] := by
  have hnil : entryReader.located content 0 = [] := by
    cases hlocated : entryReader.located content 0 with
    | nil => rfl
    | cons e located =>
        rw [hlocated] at h
        simp [describe, sampleIndex] at h
  rw [← entryReader.map_fst_located content 0, hnil]
  rfl

/-- Where the filter says no, there is nothing to find. -/
theorem get_of_bloom {table : SSTable} {key : Bytes} (h : table.bloomMightContain key = false)
    (files : Files) : table.get files key = none := by
  unfold bloomMightContain at h
  unfold get
  simp [h]

theorem get_of_index_isEmpty {table : SSTable} (h : table.sparseIndex.isEmpty = true)
    (files : Files) (key : Bytes) : table.get files key = none := by
  unfold get
  rw [if_pos h, ite_self]

/-- A key that the filter lets through is looked for from the offset that the
index gives. -/
theorem get_eq_scan {table : SSTable} {files : Files} {content key : Bytes}
    (hbloom : table.bloomMightContain key = true) (hindex : table.sparseIndex.isEmpty = false)
    (hfile : Assoc.get table.path files = some content) :
    table.get files key = scanLoop (content.length + 1)
      ((IFStream.openFile content).seekg (startOffset table.sparseIndex key)) key := by
  unfold bloomMightContain at hbloom
  unfold get
  simp only [hbloom, not_true_eq_false, if_false, hindex, Bool.false_eq_true, hfile]

/-- The scan from the offset that the sampled index gives finds what is in the file. -/
theorem scanLoop_sampled {content : Bytes} (hsorted : Assoc.Sorted (entryReader.all content))
    (key : Bytes) :
    scanLoop (content.length + 1) ((IFStream.openFile content).seekg
        (startOffset (sampleIndex 0 (entryReader.located content 0)) key)) key =
      Assoc.get key (entryReader.all content) := by
  rcases startOffset_cases (entryReader.located content 0) key with
    hzero | ⟨pre, post, entry, offset, hsplit, hle, hoff⟩
  · have hat := IFStream.at_seekg_openFile content 0
    rw [List.drop_zero] at hat
    rw [hzero]
    exact scanLoop_eq (Or.inl hat) (Nat.lt_succ_self _) hsorted key
  · -- the entries in front of the offset have keys below the one looked for
    have hat := IFStream.at_seekg_openFile content offset
    rcases entryReader.all_drop_located hsplit with ⟨-, hdrop⟩
    rw [Nat.sub_zero] at hdrop
    have hsplit' : entryReader.all content = pre.map Prod.fst ++ entry :: post.map Prod.fst := by
      rw [← entryReader.map_fst_located content 0, hsplit, List.map_append, List.map_cons]
    have hsorted' : Assoc.Sorted (entryReader.all (content.drop offset)) := by
      rw [hdrop]
      rw [hsplit'] at hsorted
      exact (List.pairwise_append.mp hsorted).2.1
    have hlen : (content.drop offset).length < content.length + 1 := by
      rw [List.length_drop]
      omega
    rw [hoff, scanLoop_eq (Or.inl hat) hlen hsorted' key, hdrop]
    rw [hsplit'] at hsorted ⊢
    exact (hsorted.get_of_split (not_lt.mp hle)).symm

/-- Through Bloom filter, sparse index and scan, a described table answers as
a plain lookup in the entries of its file. -/
theorem get_describe {files : Files} {path content : Bytes}
    (hfile : Assoc.get path files = some content)
    (hsorted : Assoc.Sorted (entryReader.all content)) (key : Bytes) :
    (describe path (entryReader.located content 0)).get files key =
      Assoc.get key (entryReader.all content) := by
  cases hbloom : (describe path (entryReader.located content 0)).bloomMightContain key with
  | false =>
      -- the filter has no false negatives, so the key is not there
      rw [get_of_bloom hbloom, eq_comm, Assoc.get_eq_none_iff]
      intro hmem
      rw [mightContain_describe hmem path] at hbloom
      cases hbloom
  | true =>
      cases hempty : (describe path (entryReader.located content 0)).sparseIndex.isEmpty with
      | true =>
          rw [get_of_index_isEmpty hempty, all_of_index_isEmpty hempty]
          rfl
      | false =>
          rw [get_eq_scan hbloom hempty hfile]
          exact scanLoop_sampled hsorted key

/-! ## Merging -/

theorem mem_mergeEntries {old new : List Entry} {entry : Entry}
    (h : entry ∈ mergeEntries old new) : entry ∈ old ∨ entry ∈ new := by
  induction old, new using mergeEntries.induct with
  | case1 new =>
      rw [mergeEntries] at h
      exact Or.inr h
  | case2 old hne =>
      rw [mergeEntries.eq_2 old hne] at h
      exact Or.inl h
  | case3 o old n new hlt ih =>
      rw [mergeEntries, if_pos hlt] at h
      rcases List.mem_cons.mp h with rfl | h
      · exact Or.inl List.mem_cons_self
      · rcases ih h with h | h
        · exact Or.inl (List.mem_cons_of_mem _ h)
        · exact Or.inr h
  | case4 o old n new hlt hgt ih =>
      rw [mergeEntries, if_neg hlt, if_pos hgt] at h
      rcases List.mem_cons.mp h with rfl | h
      · exact Or.inr List.mem_cons_self
      · rcases ih h with h | h
        · exact Or.inl h
        · exact Or.inr (List.mem_cons_of_mem _ h)
  | case5 o old n new hlt hgt ih =>
      rw [mergeEntries, if_neg hlt, if_neg hgt] at h
      rcases List.mem_cons.mp h with rfl | h
      · exact Or.inr List.mem_cons_self
      · rcases ih h with h | h
        · exact Or.inl (List.mem_cons_of_mem _ h)
        · exact Or.inr (List.mem_cons_of_mem _ h)

theorem sorted_mergeEntries {old new : List Entry} (hold : Assoc.Sorted old)
    (hnew : Assoc.Sorted new) : Assoc.Sorted (mergeEntries old new) := by
  induction old, new using mergeEntries.induct with
  | case1 new =>
      rw [mergeEntries]
      exact hnew
  | case2 old hne =>
      rw [mergeEntries.eq_2 old hne]
      exact hold
  | case3 o old n new hlt ih =>
      rcases List.pairwise_cons.mp hold with ⟨ho, hold'⟩
      rcases List.pairwise_cons.mp hnew with ⟨hn, -⟩
      rw [mergeEntries, if_pos hlt]
      refine List.pairwise_cons.mpr ⟨?_, ih hold' hnew⟩
      intro e he
      rcases mem_mergeEntries he with he | he
      · exact ho e he
      · rcases List.mem_cons.mp he with rfl | he
        · exact hlt
        · exact hlt.trans (hn e he)
  | case4 o old n new hlt hgt ih =>
      rcases List.pairwise_cons.mp hold with ⟨ho, -⟩
      rcases List.pairwise_cons.mp hnew with ⟨hn, hnew'⟩
      rw [mergeEntries, if_neg hlt, if_pos hgt]
      refine List.pairwise_cons.mpr ⟨?_, ih hold hnew'⟩
      intro e he
      rcases mem_mergeEntries he with he | he
      · rcases List.mem_cons.mp he with rfl | he
        · exact hgt
        · exact lt_trans hgt (ho e he)
      · exact hn e he
  | case5 o old n new hlt hgt ih =>
      rcases List.pairwise_cons.mp hold with ⟨ho, hold'⟩
      rcases List.pairwise_cons.mp hnew with ⟨hn, hnew'⟩
      -- of two entries with one key the older is dropped
      have heq : o.1 = n.1 := le_antisymm (not_lt.mp hgt) (not_lt.mp hlt)
      rw [mergeEntries, if_neg hlt, if_neg hgt]
      refine List.pairwise_cons.mpr ⟨?_, ih hold' hnew'⟩
      intro e he
      rcases mem_mergeEntries he with he | he
      · exact heq ▸ ho e he
      · exact hn e he

/-- The merged list reads as the newer one laid over the older one. -/
theorem get_mergeEntries {old new : List Entry} (hold : Assoc.Sorted old)
    (hnew : Assoc.Sorted new) (key : Bytes) :
    Assoc.get key (mergeEntries old new) = (Assoc.get key new).or (Assoc.get key old) := by
  induction old, new using mergeEntries.induct with
  | case1 new =>
      rw [mergeEntries]
      simp
  | case2 old hne =>
      rw [mergeEntries.eq_2 old hne]
      simp
  | case3 o old n new hlt ih =>
      rw [mergeEntries, if_pos hlt]
      by_cases hkey : key = o.1
      · -- below the first new key, so only the older list has it
        subst hkey
        rw [hnew.get_of_lt_head hlt, Option.none_or, Assoc.get_cons_self, Assoc.get_cons_self]
      · rw [Assoc.get_cons_ne hkey, Assoc.get_cons_ne hkey,
          ih (List.pairwise_cons.mp hold).2 hnew]
  | case4 o old n new hlt hgt ih =>
      rw [mergeEntries, if_neg hlt, if_pos hgt]
      by_cases hkey : key = n.1
      · -- the newer list has the key, whatever the older one holds
        subst hkey
        rw [Assoc.get_cons_self, Assoc.get_cons_self, Option.some_or]
      · rw [Assoc.get_cons_ne hkey, Assoc.get_cons_ne hkey,
          ih hold (List.pairwise_cons.mp hnew).2]
  | case5 o old n new hlt hgt ih =>
      have heq : o.1 = n.1 := le_antisymm (not_lt.mp hgt) (not_lt.mp hlt)
      rw [mergeEntries, if_neg hlt, if_neg hgt]
      by_cases hkey : key = n.1
      · subst hkey
        rw [Assoc.get_cons_self, Assoc.get_cons_self, Option.some_or]
      · have hkey' : key ≠ o.1 := heq ▸ hkey
        rw [Assoc.get_cons_ne hkey, Assoc.get_cons_ne hkey, Assoc.get_cons_ne hkey',
          ih (List.pairwise_cons.mp hold).2 (List.pairwise_cons.mp hnew).2]

end SSTable

end VaultDB
