import VaultDB.TableSet

/-! # Sound engines

The invariant of an engine without I/O errors whose files do not collide:
live tables and files in step, memtable in order, cache coherent with the
layers below it, and a log of whole records that the memtable agrees with
except where an expired key was marked deleted. One lemma for each operation
says what it does to the layers and that it keeps the invariant; `step_lapsed`
sums them up against a plain map.
-/

namespace VaultDB

open Text Codec FileStream SSTable Expiring

/-! ## Replaying a log -/

/-- What a record leaves in the memtable for a key. -/
def WALEntry.effect (entry : WALEntry) (key : Bytes) : Option Bytes :=
  if entry.key ≠ key then none
  else if entry.op = WALOp.SET then some entry.value
  else if entry.op = WALOp.DELETE then some TOMBSTONE
  else none

namespace LSMEngine

/-- What the records leave in an empty memtable for a key. -/
def logged (records : List WALEntry) (key : Bytes) : Option Bytes :=
  (replay records (MemTable.new 0)).get key

theorem get_replayEntry (memtable : MemTable) (entry : WALEntry) (key : Bytes) :
    (replayEntry memtable entry).get key = (entry.effect key).or (memtable.get key) := by
  unfold replayEntry WALEntry.effect
  -- a byte that is neither operation leaves the memtable alone
  by_cases hkey : entry.key = key
  · subst hkey
    by_cases hset : entry.op = WALOp.SET
    · simp [hset]
    · by_cases hdel : entry.op = WALOp.DELETE
      · have hne : WALOp.DELETE ≠ WALOp.SET := by decide
        simp [hdel, hne, MemTable.del]
      · simp [hset, hdel]
  · have hkey' : key ≠ entry.key := fun h => hkey h.symm
    by_cases hset : entry.op = WALOp.SET
    · simp [hset, hkey, MemTable.get_set_ne hkey']
    · by_cases hdel : entry.op = WALOp.DELETE
      · have hne : WALOp.DELETE ≠ WALOp.SET := by decide
        simp [hdel, hne, hkey, MemTable.del, MemTable.get_set_ne hkey']
      · simp [hset, hdel, hkey]

theorem replay_concat (records : List WALEntry) (entry : WALEntry) (memtable : MemTable) :
    replay (records ++ [entry]) memtable = replayEntry (replay records memtable) entry := by
  unfold replay
  rw [List.foldl_append]
  rfl

@[simp] theorem logged_nil (key : Bytes) : logged [] key = none := rfl

theorem logged_concat (records : List WALEntry) (entry : WALEntry) (key : Bytes) :
    logged (records ++ [entry]) key = (entry.effect key).or (logged records key) := by
  unfold logged
  rw [replay_concat, get_replayEntry]

/-- The records decide over what the memtable held before. -/
theorem get_replay (records : List WALEntry) (memtable : MemTable) (key : Bytes) :
    (replay records memtable).get key = (logged records key).or (memtable.get key) := by
  induction records using List.reverseRecOn with
  | nil => rfl
  | append_singleton records entry ih =>
      rw [replay_concat, get_replayEntry, ih, logged_concat, Option.or_assoc]

theorem ordered_replay {records : List WALEntry} (hfits : ∀ r ∈ records, WAL.RecordFits r)
    {memtable : MemTable} (h : memtable.Ordered) : (replay records memtable).Ordered := by
  induction records using List.reverseRecOn with
  | nil => exact h
  | append_singleton records entry ih =>
      have hentry := hfits entry (by simp)
      have hrest := ih fun r hr => hfits r (List.mem_append_left _ hr)
      rw [replay_concat]
      unfold replayEntry
      split_ifs
      · exact hrest.set hentry.1 hentry.2
      · exact hrest.set hentry.1 fits_tombstone
      · exact hrest

/-! ## The layers of an engine -/

/-- The raw value that memtable and tables hold for a key. -/
def lookup (e : LSMEngine) (key : Bytes) : Option Bytes :=
  (e.memtable.get key).or (onDisk e.disk.tables e.sstables key)

/-- The records in the log. -/
def records (e : LSMEngine) : List WALEntry := WAL.recover e.disk.walLog

/-- What a key would be found to hold if the log were replayed into an empty
memtable above the same tables. -/
def replayed (e : LSMEngine) (key : Bytes) : Option Bytes :=
  (logged e.records key).or (onDisk e.disk.tables e.sstables key)

/-- Tables, memtable and cache are in order, whatever the log holds. -/
structure Layered (e : LSMEngine) : Prop where
  stored : Stored e.disk.tables e.sstables
  ordered : e.memtable.Ordered
  linked : e.cache.Linked
  coherent : ∀ key value, e.cache.Holds key value → e.lookup key = some value
  /-- A cache without room has served nothing but deletions. -/
  serves : 0 < e.cache.capacity ∨
    (e.cache.items = [] ∧ ∀ key value, e.lookup key = some value → value = TOMBSTONE)

/-- The log is open and whole besides, and the memtable agrees with it. -/
structure Sound (e : LSMEngine) : Prop extends Layered e where
  logOpen : e.wal.failbit = false
  logWhole : WAL.encodeAll e.records = e.disk.walLog
  /-- The memtable holds what the log does, or a deletion mark. -/
  shadow : ∀ key, e.memtable.get key = logged e.records key ∨ e.memtable.get key = some TOMBSTONE

theorem records_fit (e : LSMEngine) : ∀ r ∈ e.records, WAL.RecordFits r := by
  unfold records
  rw [WAL.recover_eq]
  exact (WAL.walReader_exact.eq_append_rest e.disk.walLog).1

theorem lookup_congr {e e' : LSMEngine} (hdisk : e'.disk = e.disk)
    (hmemtable : e'.memtable = e.memtable) (hsstables : e'.sstables = e.sstables) :
    e'.lookup = e.lookup := by
  unfold lookup
  rw [hdisk, hmemtable, hsstables]

theorem replayed_congr {e e' : LSMEngine} (hdisk : e'.disk = e.disk)
    (hsstables : e'.sstables = e.sstables) : e'.replayed = e.replayed := by
  unfold replayed records
  rw [hdisk, hsstables]

/-- Another coherent cache in place of the old one; the counters do not matter. -/
theorem Layered.withCache {e e' : LSMEngine} (h : Layered e) (hdisk : e'.disk = e.disk)
    (hmemtable : e'.memtable = e.memtable) (hsstables : e'.sstables = e.sstables)
    (hlinked : e'.cache.Linked) (hholds : ∀ k v, e'.cache.Holds k v → e.lookup k = some v)
    (hserves : 0 < e'.cache.capacity ∨
      (e'.cache.items = [] ∧ ∀ k v, e.lookup k = some v → v = TOMBSTONE)) : Layered e' := by
  have hlookup := lookup_congr hdisk hmemtable hsstables
  refine ⟨?_, ?_, hlinked, ?_, ?_⟩
  · rw [hdisk, hsstables]
    exact h.stored
  · rw [hmemtable]
    exact h.ordered
  · rw [hlookup]
    exact hholds
  · rw [hlookup]
    exact hserves

/-- Equal up to the counters. -/
structure SameState (e e' : LSMEngine) : Prop where
  dataDir : e'.dataDir = e.dataDir
  disk : e'.disk = e.disk
  cache : e'.cache = e.cache
  memtable : e'.memtable = e.memtable
  wal : e'.wal = e.wal
  sstables : e'.sstables = e.sstables

theorem SameState.refl (e : LSMEngine) : SameState e e := ⟨rfl, rfl, rfl, rfl, rfl, rfl⟩

theorem SameState.layered {e e' : LSMEngine} (hsame : SameState e e') (h : Layered e) :
    Layered e' := by
  apply h.withCache hsame.disk hsame.memtable hsame.sstables
  · rw [hsame.cache]
    exact h.linked
  · rw [hsame.cache]
    exact h.coherent
  · rw [hsame.cache]
    exact h.serves

theorem SameState.records {e e' : LSMEngine} (hsame : SameState e e') :
    e'.records = e.records := by
  unfold LSMEngine.records
  rw [hsame.disk]

theorem SameState.sound {e e' : LSMEngine} (hsame : SameState e e') (h : Sound e) :
    Sound e' := by
  refine ⟨hsame.layered h.toLayered, ?_, ?_, ?_⟩
  · rw [hsame.wal]
    exact h.logOpen
  · rw [hsame.records, hsame.disk]
    exact h.logWhole
  · rw [hsame.records, hsame.memtable]
    exact h.shadow

/-- Every key the layers hold has a length that four bytes hold. -/
theorem Layered.fits_of_lookup {e : LSMEngine} (h : Layered e) {key value : Bytes}
    (hlookup : e.lookup key = some value) : EntryFits (key, value) := by
  unfold lookup at hlookup
  rcases Option.or_eq_some_iff.mp hlookup with hmem | ⟨-, hdisk⟩
  · exact h.ordered.fits_of_get hmem
  · rcases Layers.exists_of_newest hdisk with ⟨l, hl, hvalue⟩
    rcases List.mem_map.mp hl with ⟨table, htable, rfl⟩
    exact (h.stored.backed table htable).fits _ (Assoc.mem_of_get hvalue)

/-! ## Flush -/

/-- An empty memtable is not flushed. -/
theorem flushMemtable_nil {e : LSMEngine} (hnil : e.memtable.data = []) (now : Nat)
    (dev : Device) : e.flushMemtable now dev = e := by
  unfold flushMemtable MemTable.getSortedEntries
  simp only [hnil, List.isEmpty_nil, if_true]

/-- What a flush does on any device. -/
theorem flushMemtable_files {e : LSMEngine} (hne : e.memtable.data ≠ []) (now : Nat)
    (dev : Device) :
    e.flushMemtable now dev =
      { e with
        disk := ⟨[], putFile dev (sstablePath e.dataDir now) (encodeEntries e.memtable.data)
          e.disk.tables⟩
        sstables := e.sstables ++
          [flushedTo dev e.disk.tables (sstablePath e.dataDir now) e.memtable.data]
        memtable := e.memtable.clear
        wal := ⟨false, 0⟩ } := by
  have hempty : e.memtable.data.isEmpty = false := by
    rw [List.isEmpty_eq_false_iff]
    exact hne
  unfold flushMemtable MemTable.getSortedEntries
  simp only [hempty, Bool.false_eq_true, if_false, flush_new, WAL.checkpoint]

/-- A flush of entries that fit, on a sound device. -/
theorem flushMemtable_eq {e : LSMEngine} (hordered : e.memtable.Ordered)
    (hne : e.memtable.data ≠ []) (now : Nat) :
    e.flushMemtable now Device.sound =
      { e with
        disk := ⟨[], Assoc.put (sstablePath e.dataDir now) (encodeEntries e.memtable.data)
          e.disk.tables⟩
        sstables := e.sstables ++ [describe (sstablePath e.dataDir now)
          (entryReader.located (encodeEntries e.memtable.data) 0)]
        memtable := e.memtable.clear
        wal := ⟨false, 0⟩ } := by
  rw [flushMemtable_files hne, flushedTo_sound _ _ hordered.fits, putFile_sound]

/-- A write flushes nothing, or a full memtable that holds something. -/
theorem flushIfFull_cases (e : LSMEngine) (now : Nat) (dev : Device) :
    e.flushIfFull now dev = e ∨ (e.memtable.isFull = true ∧ e.memtable.data ≠ [] ∧
      e.flushIfFull now dev = e.flushMemtable now dev) := by
  unfold flushIfFull
  by_cases hfull : e.memtable.isFull = true
  · rw [if_pos hfull]
    by_cases hnil : e.memtable.data = []
    · exact Or.inl (flushMemtable_nil hnil now dev)
    · exact Or.inr ⟨hfull, hnil, rfl⟩
  · rw [if_neg hfull]
    exact Or.inl rfl

/-- A flush moves the memtable into the newest table and changes no key. -/
theorem Layered.flushMemtable {e : LSMEngine} (h : Layered e) {now : Nat}
    (hfresh : sstablePath e.dataDir now ∉ e.sstables.map SSTable.path) :
    Layered (e.flushMemtable now Device.sound) ∧
      ∀ key, (e.flushMemtable now Device.sound).lookup key = e.lookup key := by
  by_cases hne : e.memtable.data = []
  · rw [flushMemtable_nil hne]
    exact ⟨h, fun _ => rfl⟩
  · rw [flushMemtable_eq h.ordered hne]
    rcases h.stored.flush hfresh h.ordered.fits h.ordered.sorted with ⟨hstored, hdisk⟩
    have hlookup : ∀ key, ((none : Option Bytes).or (onDisk
        (Assoc.put (sstablePath e.dataDir now) (encodeEntries e.memtable.data) e.disk.tables)
        (e.sstables ++ [describe (sstablePath e.dataDir now)
          (entryReader.located (encodeEntries e.memtable.data) 0)]) key)) = e.lookup key := by
      intro key
      rw [hdisk key, Option.none_or]
      rfl
    refine ⟨⟨hstored, MemTable.Ordered.clear, h.linked, ?_, ?_⟩, hlookup⟩
    · intro key value hholds
      exact (hlookup key).trans (h.coherent key value hholds)
    · rcases h.serves with hcap | ⟨hitems, htomb⟩
      · exact Or.inl hcap
      · refine Or.inr ⟨hitems, ?_⟩
        intro key value hvalue
        exact htomb key value ((hlookup key).symm.trans hvalue)

/-- A flush empties log and memtable alike, so the replayed log follows. -/
theorem Sound.flushMemtable {e : LSMEngine} (h : Sound e) {now : Nat}
    (hfresh : sstablePath e.dataDir now ∉ e.sstables.map SSTable.path) :
    Sound (e.flushMemtable now Device.sound) ∧
      (∀ key, (e.flushMemtable now Device.sound).lookup key = e.lookup key) ∧
      (∀ key, (e.flushMemtable now Device.sound).replayed key = e.lookup key) := by
  rcases h.toLayered.flushMemtable hfresh with ⟨hlayered, hlookup⟩
  by_cases hne : e.memtable.data = []
  · rw [flushMemtable_nil hne]
    refine ⟨h, fun _ => rfl, ?_⟩
    intro key
    have hget : e.memtable.get key = none := by
      unfold MemTable.get
      rw [hne]
      rfl
    -- nothing in the memtable means nothing in the log
    rcases h.shadow key with hsame | hmark
    · unfold replayed lookup
      rw [← hsame, hget]
    · rw [hget] at hmark
      cases hmark
  · -- the log is truncated, and the new table holds what the memtable did
    refine ⟨⟨hlayered, ?_, ?_, ?_⟩, hlookup, ?_⟩
    · rw [flushMemtable_eq h.ordered hne]
    · rw [flushMemtable_eq h.ordered hne]
      rfl
    · rw [flushMemtable_eq h.ordered hne]
      intro key
      exact Or.inl rfl
    · intro key
      rw [← hlookup key, flushMemtable_eq h.ordered hne]
      rfl

theorem Layered.flushIfFull {e : LSMEngine} (h : Layered e) {now : Nat}
    (hfresh : e.memtable.isFull = true →
      sstablePath e.dataDir now ∉ e.sstables.map SSTable.path) :
    Layered (e.flushIfFull now Device.sound) ∧
      ∀ key, (e.flushIfFull now Device.sound).lookup key = e.lookup key := by
  unfold LSMEngine.flushIfFull
  by_cases hfull : e.memtable.isFull = true
  · rw [if_pos hfull]
    exact h.flushMemtable (hfresh hfull)
  · rw [if_neg hfull]
    exact ⟨h, fun _ => rfl⟩

theorem Sound.flushIfFull {e : LSMEngine} (h : Sound e) {now : Nat}
    (hfresh : e.memtable.isFull = true →
      sstablePath e.dataDir now ∉ e.sstables.map SSTable.path) :
    Sound (e.flushIfFull now Device.sound) ∧
      (∀ key, (e.flushIfFull now Device.sound).lookup key = e.lookup key) ∧
      (∀ key, (e.flushIfFull now Device.sound).replayed key =
        if e.memtable.isFull then e.lookup key else e.replayed key) := by
  unfold LSMEngine.flushIfFull
  by_cases hfull : e.memtable.isFull = true
  · simp only [hfull, if_true]
    exact h.flushMemtable (hfresh hfull)
  · simp only [hfull]
    exact ⟨h, fun _ => rfl, fun _ => rfl⟩

/-! ## Writes -/

/-- The engine once `entry` is logged and `value` stands in the memtable. -/
def written (e : LSMEngine) (entry : WALEntry) (value : Bytes) (cache : LRUCache Bytes Bytes) :
    LSMEngine :=
  { e with
    disk := ⟨e.disk.walLog ++ WAL.encode entry, e.disk.tables⟩
    cache := cache
    memtable := e.memtable.set entry.key value
    wal := ⟨false, e.wal.entryCount + 1⟩ }

theorem setSteps_eq {e e₁ : LSMEngine} (h : Sound e) {key value : Bytes} {env : Env}
    (hroom : env.logRoom = none) (hset : e.setSteps key value env = some e₁) :
    ∃ cache, e.cache.put key value = some cache ∧
      e₁ = e.written ⟨UInt64.ofNat env.stamp, WALOp.SET, key, value⟩ value cache := by
  unfold setSteps at hset
  rw [hroom, WAL.append_sound h.logOpen] at hset
  simp only [bind, Option.bind_eq_some_iff, pure, Option.some.injEq] at hset
  rcases hset with ⟨cache, hput, rfl⟩
  exact ⟨cache, hput, rfl⟩

theorem delSteps_eq {e e₁ : LSMEngine} (h : Sound e) {key : Bytes} {env : Env}
    (hroom : env.logRoom = none) (hdel : e.delSteps key env = some e₁) :
    ∃ b cache, e.cache.remove key = some (b, cache) ∧
      e₁ = e.written ⟨UInt64.ofNat env.stamp, WALOp.DELETE, key, []⟩ TOMBSTONE cache := by
  unfold delSteps at hdel
  rw [hroom, WAL.append_sound h.logOpen] at hdel
  simp only [bind, Option.bind_eq_some_iff, pure, Option.some.injEq, Prod.exists] at hdel
  rcases hdel with ⟨b, cache, hremove, rfl⟩
  exact ⟨b, cache, hremove, rfl⟩

/-- `set` is its first steps, a flush if the memtable is full, and a count. -/
theorem set_eq_some {e e' : LSMEngine} {key value : Bytes} {env : Env}
    (hset : e.set key value env = some e') :
    ∃ e₁, e.setSteps key value env = some e₁ ∧
      e' = { e₁.flushIfFull env.now env.dev with
        writeCount := (e₁.flushIfFull env.now env.dev).writeCount + 1 } := by
  unfold set at hset
  simp only [bind, Option.bind_eq_some_iff, pure, Option.some.injEq] at hset
  rcases hset with ⟨e₁, hsteps, rfl⟩
  exact ⟨e₁, hsteps, rfl⟩

theorem del_eq_some {e e' : LSMEngine} {key : Bytes} {env : Env}
    (hdel : e.del key env = some e') :
    ∃ e₁, e.delSteps key env = some e₁ ∧ e' = e₁.flushIfFull env.now env.dev := by
  unfold del at hdel
  simp only [bind, Option.bind_eq_some_iff, pure, Option.some.injEq] at hdel
  rcases hdel with ⟨e₁, hsteps, rfl⟩
  exact ⟨e₁, hsteps, rfl⟩

theorem records_written {e : LSMEngine} (h : Sound e) {entry : WALEntry}
    (hentry : WAL.RecordFits entry) (value : Bytes) (cache : LRUCache Bytes Bytes) :
    (e.written entry value cache).records = e.records ++ [entry] := by
  have hlog : (e.written entry value cache).disk.walLog =
      WAL.encodeAll (e.records ++ [entry]) := by
    rw [WAL.encodeAll_append, h.logWhole]
    simp [written, WAL.encodeAll]
  show WAL.recover (e.written entry value cache).disk.walLog = _
  rw [hlog]
  apply WAL.recover_encodeAll
  intro r hr
  rcases List.mem_append.mp hr with hr | hr
  · exact e.records_fit r hr
  · rw [List.mem_singleton.mp hr]
    exact hentry

theorem lookup_written (e : LSMEngine) (entry : WALEntry) (value : Bytes)
    (cache : LRUCache Bytes Bytes) (key : Bytes) :
    (e.written entry value cache).lookup key =
      if key = entry.key then some value else e.lookup key := by
  unfold lookup written
  by_cases hkey : key = entry.key
  · subst hkey
    simp
  · simp only [MemTable.get_set_ne hkey, if_neg hkey]

/-- A record that leaves the value it stands for. -/
def Leaves (entry : WALEntry) (value : Bytes) : Prop :=
  entry.effect entry.key = some value

theorem WALEntry.effect_ne {entry : WALEntry} {key : Bytes} (h : key ≠ entry.key) :
    entry.effect key = none := by
  unfold WALEntry.effect
  rw [if_pos (Ne.symm h)]

theorem replayed_written {e : LSMEngine} (h : Sound e) {entry : WALEntry}
    (hentry : WAL.RecordFits entry) {value : Bytes} (hleaves : Leaves entry value)
    (cache : LRUCache Bytes Bytes) (key : Bytes) :
    (e.written entry value cache).replayed key =
      if key = entry.key then some value else e.replayed key := by
  unfold replayed
  rw [records_written h hentry, logged_concat]
  by_cases hkey : key = entry.key
  · subst hkey
    rw [hleaves]
    simp
  · rw [WALEntry.effect_ne hkey, if_neg hkey]
    rfl

/-- Logging a record, changing the memtable and letting the cache hold at most
the new value for the key. -/
theorem Sound.written {e : LSMEngine} (h : Sound e) {entry : WALEntry}
    (hentry : WAL.RecordFits entry) {value : Bytes} (hvalue : Fits value)
    (hleaves : Leaves entry value) {cache : LRUCache Bytes Bytes} (hlinked : cache.Linked)
    (hholds : ∀ k v, cache.Holds k v →
      (k = entry.key ∧ v = value) ∨ (k ≠ entry.key ∧ e.cache.Holds k v))
    (hserves : 0 < cache.capacity ∨ (cache.items = [] ∧ value = TOMBSTONE ∧
      ∀ k v, e.lookup k = some v → v = TOMBSTONE)) :
    Sound (e.written entry value cache) := by
  refine ⟨⟨h.stored, h.ordered.set hentry.1 hvalue, hlinked, ?_, ?_⟩, rfl, ?_, ?_⟩
  · -- coherence: the cache holds the new value, or what it held of another key
    intro k v hkv
    rw [lookup_written]
    rcases hholds k v hkv with ⟨rfl, rfl⟩ | ⟨hne, hkv⟩
    · exact if_pos rfl
    · rw [if_neg hne]
      exact h.coherent k v hkv
  · rcases hserves with hcap | ⟨hitems, htomb, hall⟩
    · exact Or.inl hcap
    · refine Or.inr ⟨hitems, ?_⟩
      intro k v hkv
      rw [lookup_written] at hkv
      split_ifs at hkv
      · rw [← Option.some.inj hkv]
        exact htomb
      · exact hall k v hkv
  · rw [records_written h hentry, WAL.encodeAll_append, h.logWhole]
    simp [LSMEngine.written, WAL.encodeAll]
  · -- log and memtable change at the same key by the same value
    intro k
    have hmemtable : (e.written entry value cache).memtable = e.memtable.set entry.key value := rfl
    rw [records_written h hentry, logged_concat, hmemtable]
    by_cases hkey : k = entry.key
    · subst hkey
      rw [hleaves, MemTable.get_set_self]
      exact Or.inl rfl
    · rw [WALEntry.effect_ne hkey, MemTable.get_set_ne hkey, Option.none_or]
      exact h.shadow k

/-- A write and the flush that may end it. -/
theorem Sound.write {e : LSMEngine} (h : Sound e) {entry : WALEntry}
    (hentry : WAL.RecordFits entry) {value : Bytes} (hleaves : Leaves entry value)
    {cache : LRUCache Bytes Bytes} (hsound : Sound (e.written entry value cache)) {now : Nat}
    (hfresh : (e.memtable.set entry.key value).isFull = true →
      sstablePath e.dataDir now ∉ e.sstables.map SSTable.path) :
    let e' := (e.written entry value cache).flushIfFull now Device.sound
    Sound e' ∧ (∀ k, e'.lookup k = if k = entry.key then some value else e.lookup k) ∧
      (∀ k, e'.replayed k =
        if (e.memtable.set entry.key value).isFull then e'.lookup k
        else if k = entry.key then some value else e.replayed k) := by
  intro e'
  rcases hsound.flushIfFull hfresh with ⟨hsound', hlookup, hreplayed⟩
  refine ⟨hsound', ?_, ?_⟩
  · intro k
    rw [hlookup k, lookup_written]
  · intro k
    have hfull : (e.written entry value cache).memtable.isFull =
        (e.memtable.set entry.key value).isFull := rfl
    rw [hreplayed k, hlookup k, hfull, replayed_written h hentry hleaves]

theorem leaves_set (stamp : UInt64) (key value : Bytes) :
    Leaves ⟨stamp, WALOp.SET, key, value⟩ value := by
  unfold Leaves WALEntry.effect
  simp

theorem leaves_delete (stamp : UInt64) (key : Bytes) :
    Leaves ⟨stamp, WALOp.DELETE, key, []⟩ TOMBSTONE := by
  have hne : WALOp.DELETE ≠ WALOp.SET := by decide
  unfold Leaves WALEntry.effect
  simp [hne]

theorem Sound.written_set {e : LSMEngine} (h : Sound e) {key value : Bytes} (hkey : Fits key)
    (hvalue : Fits value) (stamp : UInt64) {cache : LRUCache Bytes Bytes}
    (hput : e.cache.put key value = some cache) :
    Sound (e.written ⟨stamp, WALOp.SET, key, value⟩ value cache) := by
  rcases LRUCache.put_spec h.linked hput with ⟨hlinked, hcap, hholds⟩
  apply h.written ⟨hkey, hvalue⟩ hvalue (leaves_set stamp key value) hlinked hholds
  rcases h.serves with hpos | ⟨hitems, -⟩
  · exact Or.inl (by rw [hcap]; exact hpos)
  · -- without capacity the insertion would have been undefined
    by_cases hpos : 0 < e.cache.capacity
    · exact Or.inl (by rw [hcap]; exact hpos)
    · rw [LRUCache.put_eq_none h.linked (by omega) hitems] at hput
      cases hput

/-- A cache that lost nodes has none if there were none. -/
theorem items_eq_nil_of_holds {cache cache' : LRUCache Bytes Bytes}
    (h : ∀ k v, cache'.Holds k v → cache.Holds k v) (hitems : cache.items = []) :
    cache'.items = [] := by
  rw [List.eq_nil_iff_forall_not_mem]
  intro n hn
  rcases h n.key n.value ⟨n, hn, rfl, rfl⟩ with ⟨m, hm, -, -⟩
  rw [hitems] at hm
  cases hm

theorem Sound.written_delete {e : LSMEngine} (h : Sound e) {key : Bytes} (hkey : Fits key)
    (stamp : UInt64) {b : Bool} {cache : LRUCache Bytes Bytes}
    (hremove : e.cache.remove key = some (b, cache)) :
    Sound (e.written ⟨stamp, WALOp.DELETE, key, []⟩ TOMBSTONE cache) := by
  have hnil : Fits [] := by decide
  rcases LRUCache.remove_spec h.linked key with ⟨b', cache', hremove', hlinked, hcap, hholds⟩
  rw [hremove'] at hremove
  simp only [Option.some.injEq, Prod.mk.injEq] at hremove
  rcases hremove with ⟨-, rfl⟩
  apply h.written ⟨hkey, hnil⟩ fits_tombstone (leaves_delete stamp key) hlinked
  · intro k v hkv
    exact Or.inr ((hholds k v).mp hkv)
  · rcases h.serves with hpos | ⟨hitems, htomb⟩
    · exact Or.inl (by rw [hcap]; exact hpos)
    · exact Or.inr ⟨items_eq_nil_of_holds (fun k v hkv => ((hholds k v).mp hkv).2) hitems,
        rfl, htomb⟩

/-! ## Reads -/

/-- What a read of `key` may change besides cache and counters: an expired
value is marked deleted in the memtable. -/
structure ReadEffect (e e' : LSMEngine) (key : Bytes) (now : Nat) : Prop where
  dataDir : e'.dataDir = e.dataDir
  disk : e'.disk = e.disk
  sstables : e'.sstables = e.sstables
  wal : e'.wal = e.wal
  memtable : e'.memtable = e.memtable ∨
    ∃ value, e.lookup key = some value ∧ Expired now value ∧ e'.memtable = e.memtable.del key

theorem ReadEffect.of_same {e e₁ e' : LSMEngine} {key : Bytes} {now : Nat}
    (h : ReadEffect e₁ e' key now) (hdir : e₁.dataDir = e.dataDir) (hdisk : e₁.disk = e.disk)
    (hsstables : e₁.sstables = e.sstables) (hwal : e₁.wal = e.wal)
    (hmemtable : e₁.memtable = e.memtable) : ReadEffect e e' key now := by
  have hlookup := lookup_congr hdisk hmemtable hsstables
  refine ⟨h.dataDir.trans hdir, h.disk.trans hdisk, h.sstables.trans hsstables,
    h.wal.trans hwal, ?_⟩
  rw [← hmemtable, ← hlookup]
  exact h.memtable

theorem ReadEffect.replayed {e e' : LSMEngine} {key : Bytes} {now : Nat}
    (h : ReadEffect e e' key now) : e'.replayed = e.replayed :=
  replayed_congr h.disk h.sstables

/-- A read touches neither the log nor what the memtable says of it. -/
theorem ReadEffect.sound {e e' : LSMEngine} {key : Bytes} {now : Nat}
    (h : ReadEffect e e' key now) (hsound : Sound e) (hlayered : Layered e') : Sound e' := by
  have hrecords : e'.records = e.records := by
    unfold records
    rw [h.disk]
  refine ⟨hlayered, ?_, ?_, ?_⟩
  · rw [h.wal]
    exact hsound.logOpen
  · rw [hrecords, h.disk]
    exact hsound.logWhole
  · intro k
    rw [hrecords]
    rcases h.memtable with hsame | ⟨value, -, -, hmark⟩
    · rw [hsame]
      exact hsound.shadow k
    · -- the mark is the one difference from the log that is allowed
      rw [hmark, MemTable.del]
      by_cases hk : k = key
      · subst hk
        exact Or.inr (MemTable.get_set_self _ _ _)
      · rw [MemTable.get_set_ne hk]
        exact hsound.shadow k

theorem Layered.checkTtl {e : LSMEngine} (h : Layered e) {key value : Bytes}
    (hlookup : e.lookup key = some value) (hne : value ≠ TOMBSTONE) (now : Nat) :
    ∃ e', e.checkTtl key value now = some (visible now (some value), e') ∧ Layered e' ∧
      ReadEffect e e' key now := by
  have hvisible := @visible_some now _ hne
  unfold LSMEngine.checkTtl
  cases hparse : parseExpiry value with
  | none =>
      rw [hparse] at hvisible
      exact ⟨e, by rw [hvisible], h, rfl, rfl, rfl, rfl, Or.inl rfl⟩
  | some p =>
      rcases p with ⟨expiryMs, actual⟩
      rw [hparse] at hvisible
      by_cases hexpired : expiryMs ≤ (now : Int)
      · -- expired: the key is marked in the memtable and dropped from the cache
        have hfits := h.fits_of_lookup hlookup
        rcases LRUCache.remove_spec h.linked key with
          ⟨b, cache, hremove, hlinked, hcap, hholds⟩
        have hlookup' : ∀ k, (MemTable.get (e.memtable.del key) k).or
            (onDisk e.disk.tables e.sstables k) =
              if k = key then some TOMBSTONE else e.lookup k := by
          intro k
          unfold MemTable.del
          by_cases hk : k = key
          · subst hk
            simp
          · rw [MemTable.get_set_ne hk, if_neg hk]
            rfl
        refine ⟨{ e with memtable := e.memtable.del key, cache := cache }, ?_, ?_, ?_⟩
        · simp only [hvisible, hremove, hexpired, if_true]
          rfl
        · refine ⟨h.stored, h.ordered.set hfits.1 fits_tombstone, hlinked, ?_, ?_⟩
          · intro k v hkv
            rcases (hholds k v).mp hkv with ⟨hk, hkv⟩
            exact (hlookup' k).trans ((if_neg hk).trans (h.coherent k v hkv))
          · rcases h.serves with hpos | ⟨hitems, htomb⟩
            · exact Or.inl (by rw [hcap]; exact hpos)
            · exact absurd (htomb key value hlookup) hne
        · refine ⟨rfl, rfl, rfl, rfl, Or.inr ⟨value, hlookup, ?_, rfl⟩⟩
          exact ⟨expiryMs, actual, hparse, hexpired⟩
      · refine ⟨e, ?_, h, rfl, rfl, rfl, rfl, Or.inl rfl⟩
        simp only [hvisible, hexpired, if_false]

theorem Layered.serve {e : LSMEngine} (h : Layered e) {key value : Bytes}
    (hlookup : e.lookup key = some value) (now : Nat) :
    ∃ e', e.serve key value now = some (visible now (some value), e') ∧ Layered e' ∧
      ReadEffect e e' key now := by
  unfold LSMEngine.serve
  by_cases hne : value = TOMBSTONE
  · refine ⟨e, ?_, h, rfl, rfl, rfl, rfl, Or.inl rfl⟩
    rw [if_pos hne, hne, visible_tombstone]
  · -- a cache without capacity has only marks below it, so there is room
    have hcap : 0 < e.cache.capacity := by
      rcases h.serves with hcap | ⟨-, htomb⟩
      · exact hcap
      · exact absurd (htomb key value hlookup) hne
    rcases LRUCache.put_isSome h.linked hcap key value with ⟨cache, hput⟩
    rcases LRUCache.put_spec h.linked hput with ⟨hlinked, hcap', hholds⟩
    have hlayered : Layered { e with cache := cache } := by
      refine h.withCache rfl rfl rfl hlinked ?_ ?_
      · intro k v hkv
        rcases hholds k v hkv with ⟨rfl, rfl⟩ | ⟨-, hkv⟩
        · exact hlookup
        · exact h.coherent k v hkv
      · exact Or.inl (by rw [hcap']; exact hcap)
    have hlookup' : ({ e with cache := cache } : LSMEngine).lookup key = some value := hlookup
    rcases hlayered.checkTtl hlookup' hne now with ⟨e', hcheck, hlayered', heffect⟩
    refine ⟨e', ?_, hlayered', heffect.of_same rfl rfl rfl rfl rfl⟩
    rw [if_neg hne]
    simp only [hput, bind, Option.bind]
    exact hcheck

/-- What `get` finds below the cache: in the memtable, else in the tables. -/
def slowPath (e : LSMEngine) (key : Bytes) : Option Bytes :=
  (e.memtable.get key).or (searchTables e.disk.tables key e.sstables.reverse e.bloomSaved).1

/-- A cache hit. -/
theorem get_of_hit {e : LSMEngine} {key value : Bytes} {cache : LRUCache Bytes Bytes}
    (hcache : e.cache.get key = some (some value, cache)) (now : Nat) :
    e.get key now =
      if value = TOMBSTONE then
        some (none, { e with
          readCount := e.readCount + 1, cache := cache, cacheHits := e.cacheHits + 1 })
      else
        { e with
          readCount := e.readCount + 1
          cache := cache
          cacheHits := e.cacheHits + 1 }.checkTtl key value now := by
  unfold get
  simp only [hcache, bind, Option.bind]

/-- A cache miss: what the slow path finds is served. -/
theorem get_of_miss {e : LSMEngine} {key : Bytes} {cache : LRUCache Bytes Bytes}
    (hcache : e.cache.get key = some (none, cache)) (now : Nat) :
    ∃ saved, e.get key now =
      match e.slowPath key with
      | some value =>
        { e with
          readCount := e.readCount + 1
          cache := cache
          bloomSaved := saved }.serve key value now
      | none =>
        some (none, { e with
          readCount := e.readCount + 1, cache := cache, bloomSaved := saved }) := by
  unfold get slowPath
  simp only [hcache, bind, Option.bind]
  cases e.memtable.get key with
  | some value => exact ⟨e.bloomSaved, rfl⟩
  | none =>
      refine ⟨(searchTables e.disk.tables key e.sstables.reverse e.bloomSaved).2, ?_⟩
      cases (searchTables e.disk.tables key e.sstables.reverse e.bloomSaved).1 with
      | some value => rfl
      | none => rfl

theorem Layered.slowPath_eq {e : LSMEngine} (h : Layered e) (key : Bytes) :
    e.slowPath key = e.lookup key := by
  unfold slowPath lookup
  rw [searchTables_eq h.stored.backed key e.bloomSaved]

/-- `get` answers what is visible of the raw value the layers hold. -/
theorem Layered.get {e : LSMEngine} (h : Layered e) (key : Bytes) (now : Nat) :
    ∃ e', e.get key now = some (visible now (e.lookup key), e') ∧ Layered e' ∧
      ReadEffect e e' key now := by
  rcases LRUCache.get_spec h.linked key with ⟨cached, cache, hcache, hlinked, hcap, hcached, hholds⟩
  -- the cache access keeps the invariant, whatever is counted beside it
  have hafter : ∀ hits saved, Layered { e with
      readCount := e.readCount + 1
      cache := cache
      cacheHits := hits
      bloomSaved := saved } := by
    intro hits saved
    refine h.withCache rfl rfl rfl hlinked ?_ ?_
    · intro k v hkv
      exact h.coherent k v ((hholds k v).mp hkv)
    · rcases h.serves with hpos | ⟨hitems, htomb⟩
      · exact Or.inl (by rw [hcap]; exact hpos)
      · exact Or.inr ⟨items_eq_nil_of_holds (fun k v => (hholds k v).mp) hitems, htomb⟩
  cases cached with
  | some value =>
      -- a hit: the cache is coherent with the layers below
      have hlookup : e.lookup key = some value := h.coherent key value ((hcached value).mp rfl)
      rw [get_of_hit hcache, hlookup]
      by_cases hne : value = TOMBSTONE
      · rw [if_pos hne, hne, visible_tombstone]
        exact ⟨_, rfl, hafter _ _, rfl, rfl, rfl, rfl, Or.inl rfl⟩
      · rw [if_neg hne]
        rcases (hafter (e.cacheHits + 1) e.bloomSaved).checkTtl (show _ = some value from hlookup)
          hne now with ⟨e', hcheck, he', heffect⟩
        exact ⟨e', hcheck, he', heffect.of_same rfl rfl rfl rfl rfl⟩
  | none =>
      rcases get_of_miss hcache now with ⟨saved, hget⟩
      rw [hget, h.slowPath_eq]
      cases hlookup : e.lookup key with
      | some value =>
          rcases (hafter e.cacheHits saved).serve (show _ = some value from hlookup) now with
            ⟨e', hserve, he', heffect⟩
          exact ⟨e', hserve, he', heffect.of_same rfl rfl rfl rfl rfl⟩
      | none =>
          rw [visible_none]
          exact ⟨_, rfl, hafter _ _, rfl, rfl, rfl, rfl, Or.inl rfl⟩

theorem Layered.answer {e : LSMEngine} (h : Layered e) (key : Bytes) (now : Nat) :
    e.answer key now = some (visible now (e.lookup key)) := by
  rcases h.get key now with ⟨e', hget, -, -⟩
  unfold LSMEngine.answer
  rw [hget]
  rfl

/-! ## Compaction -/

/-- What a compaction does on any device. -/
theorem compact_files {e : LSMEngine} {older newer : SSTable} {staying : List SSTable}
    (hmany : 4 < e.sstables.length) (hsplit : e.sstables = older :: newer :: staying)
    (now : Nat) (dev : Device) :
    let merged := mergeEntries (older.readAll e.disk.tables) (newer.readAll e.disk.tables)
    let path := compactedPath e.dataDir now
    e.compact now dev =
      { e with
        disk := ⟨e.disk.walLog, Assoc.erase newer.path (Assoc.erase older.path
          (putFile dev path (encodeEntries merged) e.disk.tables))⟩
        sstables := flushedTo dev e.disk.tables path merged :: staying } := by
  intro merged path
  have hnot : ¬ (older :: newer :: staying).length ≤ 4 := by
    rw [← hsplit]
    omega
  unfold LSMEngine.compact
  simp only [hsplit, hnot, if_false, compact_eq_flushedTo]
  rfl

/-- A compaction of entries that fit, on a sound device. -/
theorem compact_eq {e : LSMEngine} {older newer : SSTable} {staying : List SSTable}
    (hmany : 4 < e.sstables.length) (hsplit : e.sstables = older :: newer :: staying)
    (hfits : ∀ entry ∈ mergeEntries (older.readAll e.disk.tables) (newer.readAll e.disk.tables),
      EntryFits entry) (now : Nat) :
    let merged := mergeEntries (older.readAll e.disk.tables) (newer.readAll e.disk.tables)
    let path := compactedPath e.dataDir now
    e.compact now Device.sound =
      { e with
        disk := ⟨e.disk.walLog, Assoc.erase newer.path (Assoc.erase older.path
          (Assoc.put path (encodeEntries merged) e.disk.tables))⟩
        sstables := describe path (entryReader.located (encodeEntries merged) 0) :: staying } := by
  intro merged path
  rw [compact_files hmany hsplit, flushedTo_sound _ _ hfits, putFile_sound]

theorem Layered.fits_merged {e : LSMEngine} (h : Layered e) {older newer : SSTable}
    {staying : List SSTable} (hsplit : e.sstables = older :: newer :: staying) :
    ∀ entry ∈ mergeEntries (older.readAll e.disk.tables) (newer.readAll e.disk.tables),
      EntryFits entry := by
  intro entry hentry
  have hbacked := h.stored.backed
  rw [hsplit] at hbacked
  rcases mem_mergeEntries hentry with hentry | hentry
  · exact (hbacked older (by simp)).fits entry hentry
  · exact (hbacked newer (by simp)).fits entry hentry

theorem compact_of_few {e : LSMEngine} (hfew : ¬ 4 < e.sstables.length) (now : Nat)
    (dev : Device) : e.compact now dev = e := by
  unfold LSMEngine.compact
  rw [if_pos (by omega)]

theorem exists_two_oldest {sstables : List SSTable} (h : 4 < sstables.length) :
    ∃ older newer staying, sstables = older :: newer :: staying := by
  match sstables, h with
  | older :: newer :: staying, _ => exact ⟨older, newer, staying, rfl⟩

/-- A compaction changes no key. -/
theorem Layered.compact {e : LSMEngine} (h : Layered e) {now : Nat}
    (hfresh : 4 < e.sstables.length →
      compactedPath e.dataDir now ∉ e.sstables.map SSTable.path) :
    Layered (e.compact now Device.sound) ∧
      (∀ key, (e.compact now Device.sound).lookup key = e.lookup key) ∧
      (∀ key, (e.compact now Device.sound).replayed key = e.replayed key) := by
  by_cases hmany : 4 < e.sstables.length
  · rcases exists_two_oldest hmany with ⟨older, newer, staying, hsplit⟩
    have hstored := h.stored
    have hfresh' := hfresh hmany
    rw [hsplit] at hstored hfresh'
    rw [compact_eq hmany hsplit (h.fits_merged hsplit)]
    rcases hstored.compact hfresh' with ⟨hstored', hdisk⟩
    rw [← hsplit] at hdisk
    -- memtable and log stand above the same answers of the tables
    have hlookup := fun key => congrArg (Option.or (e.memtable.get key)) (hdisk key)
    have hreplayed := fun key => congrArg (Option.or (logged e.records key)) (hdisk key)
    refine ⟨⟨hstored', h.ordered, h.linked, ?_, ?_⟩, hlookup, hreplayed⟩
    · intro key value hkv
      exact (hlookup key).trans (h.coherent key value hkv)
    · rcases h.serves with hcap | ⟨hitems, htomb⟩
      · exact Or.inl hcap
      · refine Or.inr ⟨hitems, ?_⟩
        intro key value hkv
        exact htomb key value ((hlookup key).symm.trans hkv)
  · rw [compact_of_few hmany]
    exact ⟨h, fun _ => rfl, fun _ => rfl⟩

/-- A compaction touches neither log nor memtable. -/
theorem compact_log (e : LSMEngine) (now : Nat) (dev : Device) :
    (e.compact now dev).disk.walLog = e.disk.walLog ∧ (e.compact now dev).wal = e.wal ∧
      (e.compact now dev).memtable = e.memtable := by
  by_cases hmany : 4 < e.sstables.length
  · rcases exists_two_oldest hmany with ⟨older, newer, staying, hsplit⟩
    rw [compact_files hmany hsplit]
    exact ⟨rfl, rfl, rfl⟩
  · rw [compact_of_few hmany]
    exact ⟨rfl, rfl, rfl⟩

theorem Sound.compact {e : LSMEngine} (h : Sound e) {now : Nat}
    (hfresh : 4 < e.sstables.length →
      compactedPath e.dataDir now ∉ e.sstables.map SSTable.path) :
    Sound (e.compact now Device.sound) := by
  rcases compact_log e now Device.sound with ⟨hlog, hwal, hmemtable⟩
  have hrecords : (e.compact now Device.sound).records = e.records := by
    unfold records
    rw [hlog]
  refine ⟨(h.toLayered.compact hfresh).1, ?_, ?_, ?_⟩
  · rw [hwal]
    exact h.logOpen
  · rw [hrecords, hlog]
    exact h.logWhole
  · rw [hrecords, hmemtable]
    exact h.shadow

end LSMEngine

end VaultDB
