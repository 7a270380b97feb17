import VaultDB.Library.Density
import VaultDB.Reload

/-! # False positives

A filter has ten bits for each key of its table, and a key sets three of them.
So at most three tenths of the bits are set, and of the triples of positions at
most 27 in 1000 are hit: a key that is not in the table is let through only if
its three hashes are such a triple. This holds of every live table in every
state an engine can reach, whatever was in its directory and whatever fails
(`filters_sparse`): a filter is filled where its table is written or opened, and
never again.
-/

namespace VaultDB

open Text FileStream SSTable

namespace BloomFilter

/-- The positions of the bits that are set. -/
def marked (filter : BloomFilter) : Finset (Fin filter.numBits) :=
  Finset.univ.filter fun i => filter.bits.getD i false = true

theorem mem_marked {filter : BloomFilter} {i : Fin filter.numBits} :
    i ∈ filter.marked ↔ filter.bits.getD i false = true := by
  unfold marked
  rw [Finset.mem_filter, and_iff_right (Finset.mem_univ i)]

/-- The three positions of a key, as a tuple. -/
def Probes (filter : BloomFilter) (key : Bytes) (t : Fin 3 → Fin filter.numBits) : Prop :=
  ∀ j : Fin 3, (filter.positions key)[(j : Nat)]? = some (t j : Nat)

theorem length_positions (filter : BloomFilter) (key : Bytes) :
    (filter.positions key).length = 3 := rfl

theorem length_flatMap_positions (filter : BloomFilter) (keys : List Bytes) :
    (keys.flatMap filter.positions).length = 3 * keys.length := by
  induction keys with
  | nil => rfl
  | cons key keys ih =>
      rw [List.flatMap_cons, List.length_append, ih, length_positions, List.length_cons]
      omega

theorem lt_of_mem_positions {filter : BloomFilter} (h : filter.WellSized) {key : Bytes} {i : Nat}
    (hi : i ∈ filter.positions key) : i < filter.numBits := by
  obtain ⟨hash, -, rfl⟩ := List.mem_map.mp hi
  exact (h.index_lt hash).trans_eq h.size

/-- A key is let through when its positions are a hit. -/
theorem mightContain_iff_hit {filter : BloomFilter} (h : filter.WellSized) (key : Bytes) :
    filter.mightContain key = true ↔ ∃ t ∈ Density.hits 3 filter.marked, filter.Probes key t := by
  have hmem : ∀ j : Fin 3, (filter.positions key)[j] ∈ filter.positions key :=
    fun j => List.getElem_mem j.isLt
  rw [mightContain_iff]
  constructor
  · intro hset
    refine ⟨fun j => ⟨(filter.positions key)[j], lt_of_mem_positions h (hmem j)⟩, ?_, ?_⟩
    · rw [Density.mem_hits]
      intro j
      exact mem_marked.mpr (hset _ (hmem j))
    · intro j
      exact List.getElem?_eq_getElem j.isLt
  · rintro ⟨t, ht, hprobes⟩ i hi
    obtain ⟨j, hj, rfl⟩ := List.mem_iff_getElem.mp hi
    have hprobe := hprobes ⟨j, hj⟩
    rw [List.getElem?_eq_getElem hj] at hprobe
    rw [Option.some.inj hprobe]
    exact mem_marked.mp (Density.mem_hits.mp ht ⟨j, hj⟩)

theorem addAll_eq_performAll (filter : BloomFilter) (keys : List Bytes) :
    filter.addAll keys = filter.performAll (keys.map .add) ∧ added (keys.map .add) = keys := by
  induction keys using List.reverseRecOn with
  | nil => exact ⟨rfl, rfl⟩
  | append_singleton keys key ih =>
      rw [List.map_append, List.map_singleton, performAll_concat, added_add, ← ih.1, ih.2]
      refine ⟨?_, rfl⟩
      unfold addAll
      rw [List.foldl_append]
      rfl

/-- What is let through are the keys whose positions are a hit, and of all
triples of positions no more than 27 in 1000 are. -/
structure Sparse (filter : BloomFilter) : Prop where
  hit : ∀ key, filter.mightContain key = true ↔
    ∃ t ∈ Density.hits 3 filter.marked, filter.Probes key t
  few : 1000 * (Density.hits 3 filter.marked).card ≤
    27 * Fintype.card (Fin 3 → Fin filter.numBits)

/-- No more than three tenths of a filter with room for its keys. -/
theorem card_marked_le {n : Nat} {keys : List Bytes} (hroom : keys.length ≤ n)
    (hsize : n * 10 < 2 ^ 64) :
    10 * ((new n).addAll keys).marked.card ≤ 3 * ((new n).addAll keys).numBits := by
  obtain ⟨hperform, hadded⟩ := addAll_eq_performAll (new n) keys
  have hnew := new_wellSized n 10
  have hmarks := Marks.performAll hnew (marks_new n 10) (keys.map .add)
  have hbits := (hnew.performAll (keys.map .add)).2
  rw [hadded, ← hperform] at hmarks
  rw [← hperform] at hbits
  have hcard : ((new n).addAll keys).marked.card ≤ 3 * keys.length := by
    have hle := Density.card_le_length (keys.flatMap ((new n).addAll keys).positions)
      fun i hi => by
        obtain ⟨key, hkey, hpos⟩ := (hmarks i).mp (mem_marked.mp hi)
        exact List.mem_flatMap.mpr ⟨key, hkey, hpos⟩
    exact hle.trans_eq (length_flatMap_positions _ keys)
  have hten : 10 * n ≤ (new n).numBits := by
    unfold new
    rw [Nat.mod_eq_of_lt hsize]
    dsimp only
    split_ifs
    · show 10 * n ≤ 64
      omega
    · show 10 * n ≤ n * 10
      omega
  omega

theorem sparse_addAll {n : Nat} {keys : List Bytes} (hroom : keys.length ≤ n)
    (hsize : n * 10 < 2 ^ 64) : ((new n).addAll keys).Sparse := by
  have hsized : ((new n).addAll keys).WellSized := by
    rw [(addAll_eq_performAll _ keys).1]
    exact ((new_wellSized n 10).performAll _).1
  exact ⟨mightContain_iff_hit hsized, Density.hits_le (card_marked_le hroom hsize) 3⟩

end BloomFilter

namespace SSTable

/-- The filter was filled with the keys of the entries counted, and made for
that many, or for the 1000 of a table whose file did not open. -/
def Filled (table : SSTable) : Prop :=
  ∃ n keys, table.bloomFilter = (BloomFilter.new n).addAll keys ∧
    keys.length = table.entryCount ∧ table.entryCount ≤ n ∧ n ≤ max 1000 table.entryCount

theorem filled_of_count {table : SSTable} {keys : List Bytes}
    (hbloom : table.bloomFilter =
      (BloomFilter.new (if table.entryCount > 0 then table.entryCount else 1)).addAll keys)
    (hlen : keys.length = table.entryCount) : table.Filled := by
  refine ⟨_, keys, hbloom, hlen, ?_, ?_⟩
  · split_ifs <;> omega
  · split_ifs <;> omega

theorem indexLoop_count (fuel : Nat) (file : IFStream) (count : Nat)
    (index : List SparseIndexEntry) (keys : List Bytes) (h : keys.length = count) :
    (indexLoop fuel file count index keys).2.1.length =
      (indexLoop fuel file count index keys).2.2 := by
  induction fuel generalizing file count index keys with
  | zero => exact h
  | succ fuel ih =>
      unfold indexLoop
      cases indexTurn file with
      | none => exact h
      | some turn =>
          obtain ⟨key, offset, file'⟩ := turn
          apply ih
          rw [List.length_append, h, List.length_singleton]

theorem filled_buildSparseIndex (path content : Bytes) :
    (buildSparseIndex path content).Filled :=
  @filled_of_count (buildSparseIndex path content) _ rfl
    (indexLoop_count (content.length + 1) (IFStream.openFile content) 0 [] [] rfl)

theorem filled_new (files : Files) (path : Bytes) : (new files path).Filled := by
  unfold new
  cases Assoc.get path files with
  | none => exact ⟨1000, [], rfl, rfl, Nat.zero_le _, le_max_left _ _⟩
  | some content => exact filled_buildSparseIndex path content

theorem flushLoop_filled (entries : List Entry) (count : Nat) (file : OFStream)
    (index : List SparseIndexEntry) (bloom : BloomFilter) :
    (flushLoop entries count file index bloom).2.2 =
      (bloom.addAll (entries.map Prod.fst), count + entries.length) := by
  induction entries generalizing count file index bloom with
  | nil => rfl
  | cons entry entries ih =>
      unfold flushLoop
      dsimp only
      rw [ih, List.length_cons, Nat.add_assoc, Nat.add_comm 1]
      rfl

theorem filled_flushedTo (dev : Device) (files : Files) (path : Bytes) (entries : List Entry) :
    (flushedTo dev files path entries).Filled := by
  have hloop := flushLoop_filled entries 0 (OFStream.openTrunc dev) []
    (BloomFilter.new (if entries.length > 0 then entries.length else 1))
  have hcount : (flushedTo dev files path entries).entryCount = entries.length := by
    show (flushLoop entries 0 _ [] _).2.2.2 = _
    rw [hloop, Nat.zero_add]
  apply @filled_of_count _ (entries.map Prod.fst)
  · rw [hcount]
    show (flushLoop entries 0 _ [] _).2.2.1 = _
    rw [hloop]
  · rw [hcount, List.length_map]

theorem Filled.sparse {table : SSTable} (h : table.Filled)
    (hsize : table.entryCount * 10 < 2 ^ 64) : table.bloomFilter.Sparse := by
  obtain ⟨n, keys, hbloom, hlen, hroom, hbound⟩ := h
  have hn : n * 10 < 2 ^ 64 := by omega
  rw [hbloom]
  exact BloomFilter.sparse_addAll (hlen.trans_le hroom) hn

end SSTable

namespace LSMEngine

variable {e e' : LSMEngine}

def TablesFilled (e : LSMEngine) : Prop := ∀ table ∈ e.sstables, table.Filled

theorem filled_flushMemtable (h : TablesFilled e) (now : Nat) (dev : Device) :
    TablesFilled (e.flushMemtable now dev) := by
  by_cases hnil : e.memtable.data = []
  · rw [flushMemtable_nil hnil]
    exact h
  · rw [flushMemtable_files hnil]
    intro table htable
    rcases List.mem_append.mp htable with htable | htable
    · exact h table htable
    · rw [List.mem_singleton.mp htable]
      exact filled_flushedTo _ _ _ _

theorem filled_flushIfFull (h : TablesFilled e) (now : Nat) (dev : Device) :
    TablesFilled (e.flushIfFull now dev) := by
  rcases flushIfFull_cases e now dev with heq | ⟨-, -, heq⟩
  · rw [heq]
    exact h
  · rw [heq]
    exact filled_flushMemtable h now dev

/-- Filters are filled where a table is written. -/
theorem filled_step (h : TablesFilled e) {ev : Event} (hstep : e.step ev = some e') :
    TablesFilled e' := by
  rcases firstSteps_of_step hstep with ⟨e₁, hsteps, hsame⟩ | ⟨key, hop⟩ | hop
  · have hsstables := (firstSteps_tables hsteps).2.2.2.1
    have hfirst : TablesFilled e₁ := by
      unfold TablesFilled
      rw [hsstables]
      exact h
    unfold TablesFilled
    rw [hsame.sstables]
    exact filled_flushIfFull hfirst _ _
  · obtain ⟨r, hget⟩ := LSMEngine.step_get hop hstep
    unfold TablesFilled
    rw [(readFrame_get hget).sstables]
    exact h
  · rw [← step_compact hop hstep]
    by_cases hmany : 4 < e.sstables.length
    · obtain ⟨older, newer, staying, hsplit⟩ := exists_two_oldest hmany
      rw [compact_files hmany hsplit]
      intro table htable
      rcases List.mem_cons.mp htable with rfl | htable
      · exact filled_flushedTo _ _ _ _
      · apply h table
        rw [hsplit]
        exact List.mem_cons_of_mem _ (List.mem_cons_of_mem _ htable)
    · rw [compact_of_few hmany]
      exact h

/-- And where one is opened. -/
theorem filled_start (disk : DataDir) (dataDir : Bytes) (cacheSize : Nat) (threshold : UInt64)
    (now : Nat) (dev : Device) :
    TablesFilled (new disk dataDir cacheSize threshold now dev) := by
  have hopened : TablesFilled (replayedEngine disk dataDir cacheSize threshold) := by
    intro table htable
    obtain ⟨path, -, rfl⟩ := List.mem_map.mp htable
    exact filled_new disk.tables path
  rcases new_eq_flushIfFull disk dataDir cacheSize threshold now dev with heq | heq
  · rw [heq]
    exact hopened
  · rw [heq]
    exact filled_flushIfFull hopened now dev

/-- Whatever an engine starts on and whatever fails, in every state of every
run: a live table's filter lets a key through when its three hashes are a triple
of positions that are set, and of all triples at most 27 in 1000 are. -/
theorem filters_sparse (disk : DataDir) (dataDir : Bytes) (cacheSize : Nat) (threshold : UInt64)
    (now : Nat) (dev : Device) (evs : List Event) :
    Machine.Always step
      (fun e => ∀ table ∈ e.sstables, table.entryCount * 10 < 2 ^ 64 →
        table.bloomFilter.Sparse)
      (new disk dataDir cacheSize threshold now dev) evs := by
  rw [Machine.always_iff]
  intro pre hpre e hrun table htable hsize
  have hfilled : TablesFilled e :=
    Machine.run_kept (fun _ _ _ h => filled_step h) (filled_start _ _ _ _ _ _) hrun
  exact (hfilled table htable).sparse hsize

end LSMEngine

end VaultDB
