import VaultDB.Responses

/-! # Values that four bytes cannot measure

A table stores the length of a value in four bytes, so a value of `2 ^ 32`
bytes is written as the empty one. Log, memtable and cache do not notice.
-/

namespace VaultDB

open Text Codec FileStream SSTable

namespace SSTable

/-- Writing an entry leaves of its value what is written of it. -/
theorem flushLoop_clip {entries : List Entry} (hkeys : ∀ entry ∈ entries, Fits entry.1)
    (count : Nat) (file : OFStream) (index : List SparseIndexEntry) (bloom : BloomFilter) :
    flushLoop (entries.map clipEntry) count file index bloom =
      flushLoop entries count file index bloom := by
  induction entries generalizing count file index bloom with
  | nil => rfl
  | cons entry entries ih =>
      have hkey : (clipEntry entry).1 = entry.1 := by
        have hfits : entry.1.length < 2 ^ 32 := hkeys entry List.mem_cons_self
        unfold clipEntry WAL.clipped
        rw [Nat.mod_eq_of_lt hfits, List.take_length]
      have hwrite : writeEntry file (clipEntry entry).1 (clipEntry entry).2 =
          writeEntry file entry.1 entry.2 := by
        rw [writeEntry_eq, writeEntry_eq, encodeEntry_clip]
      rw [List.map_cons]
      unfold flushLoop
      dsimp only
      rw [hwrite, hkey]
      exact ih (fun e he => hkeys e (List.mem_cons_of_mem _ he)) _ _ _ _

theorem flushedTo_clip (dev : Device) (files : Files) (path : Bytes) {entries : List Entry}
    (hkeys : ∀ entry ∈ entries, Fits entry.1) :
    flushedTo dev files path (entries.map clipEntry) = flushedTo dev files path entries := by
  unfold flushedTo flush
  simp only [flushLoop_clip hkeys, List.length_map]

/-- A value of `2 ^ 32` bytes is written as the empty one. -/
theorem clipEntry_long {key value : Bytes} (hkey : Fits key) (hlen : value.length = 2 ^ 32) :
    clipEntry (key, value) = (key, []) := by
  have hfits : key.length < 2 ^ 32 := hkey
  unfold clipEntry WAL.clipped
  rw [Nat.mod_eq_of_lt hfits, List.take_length, hlen, Nat.mod_self, List.take_zero]

end SSTable

namespace LSMEngine

/-- Setting a value of `2 ^ 32` bytes where every write is flushed. -/
theorem set_long {e : LSMEngine} {dataDir key value : Bytes} {tables : Files}
    {cache cache' : LRUCache Bytes Bytes} {sstables : List SSTable}
    (h : e.layers = ⟨dataDir, tables, cache, MemTable.new 1, sstables⟩)
    (hput : cache.put key value = some cache') (hkey : Fits key) (hlen : value.length = 2 ^ 32)
    (ms : Nat) :
    ∃ e', e.set key value (Env.calm ms) = some e' ∧
      e'.layers = ⟨dataDir,
        Assoc.put (sstablePath dataDir ms) (encodeEntries [(key, [])]) tables, cache',
        MemTable.new 1,
        sstables ++ [describe (sstablePath dataDir ms)
          (entryReader.located (encodeEntries [(key, [])]) 0)]⟩ := by
  have hdata : ((MemTable.new 1).set key value).data = [(key, value)] := rfl
  have hkeys : ∀ entry ∈ [(key, value)], Fits entry.1 := by
    intro entry hentry
    rw [List.mem_singleton.mp hentry]
    exact hkey
  have hnil : Fits ([] : Bytes) := by decide
  have hclip : [(key, value)].map clipEntry = [(key, [])] := by
    rw [List.map_singleton, clipEntry_long hkey hlen]
  have hfull : ((MemTable.new 1).set key value).isFull = true := by
    have hfits : key.length < 2 ^ 32 := hkey
    show decide ((1 : UInt64) ≤ 0 + (UInt64.ofNat key.length + UInt64.ofNat value.length)) = true
    rw [decide_eq_true_iff, hlen, UInt64.zero_add, ← UInt64.ofNat_add, UInt64.le_iff_toNat_le,
      UInt64.toNat_ofNat']
    show 1 ≤ (key.length + 2 ^ 32) % 2 ^ 64
    omega
  simp only [layers, Layers.mk.injEq] at h
  rcases h with ⟨rfl, rfl, rfl, hmemtable, rfl⟩
  have hne := MemTable.data_set_ne_nil e.memtable key value
  unfold LSMEngine.set setSteps flushIfFull Env.calm
  rw [hmemtable] at hne
  simp only [hput, hmemtable, bind, Option.bind, pure, hfull, if_true]
  rw [flushMemtable_files hne, hdata, putFile_sound, ← flushedTo_clip _ _ _ hkeys,
    ← encodeEntries_clip, hclip, flushedTo_sound _ _ (by
      intro entry hentry
      rw [List.mem_singleton.mp hentry]
      exact ⟨hkey, hnil⟩)]
  exact ⟨_, rfl, rfl⟩

/-- What the slow path depends on. -/
theorem slowPath_of_layers {e : LSMEngine} {dataDir : Bytes} {tables : Files}
    {cache : LRUCache Bytes Bytes} {memtable : MemTable} {sstables : List SSTable}
    (h : e.layers = ⟨dataDir, tables, cache, memtable, sstables⟩) (key : Bytes) :
    ∃ saved, e.slowPath key =
      (memtable.get key).or (searchTables tables key sstables.reverse saved).1 := by
  simp only [layers, Layers.mk.injEq] at h
  rcases h with ⟨rfl, rfl, rfl, rfl, rfl⟩
  exact ⟨e.bloomSaved, rfl⟩

/-- The table of one key with the empty value, written at `ms`. -/
def emptyValueTable (key : Bytes) (ms : Nat) : SSTable :=
  describe (sstablePath [] ms) (entryReader.located (encodeEntries [(key, [])]) 0)

def emptyValueFile (key : Bytes) (ms : Nat) : Bytes × Bytes :=
  (sstablePath [] ms, encodeEntries [(key, [])])

/-- Below the cache the value of `2 ^ 32` bytes is the empty one. -/
theorem slowPath_long {e : LSMEngine} {cache : LRUCache Bytes Bytes}
    (h : e.layers = ⟨[], [emptyValueFile [107] 1], cache, MemTable.new 1,
      [emptyValueTable [107] 1]⟩) : e.slowPath [107] = some [] := by
  have hbloom : (emptyValueTable [107] 1).bloomMightContain [107] = true := by decide +kernel
  have hget : (emptyValueTable [107] 1).get [emptyValueFile [107] 1] [107] = some [] := by
    decide +kernel
  rcases slowPath_of_layers h [107] with ⟨saved, hslow⟩
  rw [hslow]
  simp [searchTables, hbloom, hget]

/-- A cache with room for one entry, after a put. -/
theorem put_one (key value : Bytes) :
    (LRUCache.new 1).put key value = some ⟨1, [⟨0, key, value⟩], [(key, 0)], 1⟩ := by
  simp [LRUCache.put, LRUCache.new, LRUCache.emplaceFront, Assoc.put, Assoc.erase]

end LSMEngine

end VaultDB
