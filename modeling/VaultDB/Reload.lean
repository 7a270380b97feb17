import VaultDB.Runs

/-! # Starting an engine on what is on disk

The constructor opens the files in the order of their names, replays the log
into an empty memtable and flushes it if it is full. `restored` is what a key
is then found to hold; it is a function of the directory alone
(`answer_new`). With names made of growing readings of one decimal length a
new file comes last (`tablePaths_put`), also the file of a compaction, whose two
inputs are then removed (`tablePaths_erase`).
-/

namespace VaultDB

open Text Codec FileStream SSTable LSMEngine

/-! ## Files by path -/

/-- The map that the file at a path is. -/
def fileMap (files : Files) (path key : Bytes) : Option Bytes :=
  (Assoc.get path files).bind fun content => Assoc.get key (entryReader.all content)

/-- What the files at the paths hold for a key; the last one is the newest. -/
def readPaths (files : Files) (paths : List Bytes) (key : Bytes) : Option Bytes :=
  Layers.newest (paths.map (fileMap files)) key

theorem tableMap_eq (files : Files) (table : SSTable) :
    tableMap files table = fileMap files table.path := by
  funext key
  unfold tableMap fileMap
  cases hfile : Assoc.get table.path files with
  | none =>
      unfold readAll
      simp only [hfile]
      rfl
  | some content =>
      rw [readAll_eq hfile]
      rfl

/-- The live tables are read as their files are. -/
theorem onDisk_eq (files : Files) (sstables : List SSTable) (key : Bytes) :
    onDisk files sstables key = readPaths files (sstables.map SSTable.path) key := by
  unfold onDisk readPaths
  rw [List.map_map]
  congr 1
  apply List.map_congr_left
  intro table _
  exact tableMap_eq files table

theorem fileMap_congr {files files' : Files} {path : Bytes}
    (h : Assoc.get path files' = Assoc.get path files) :
    fileMap files' path = fileMap files path := by
  funext key
  unfold fileMap
  rw [h]

theorem readPaths_congr {files files' : Files} {paths : List Bytes}
    (h : ∀ path ∈ paths, Assoc.get path files' = Assoc.get path files) (key : Bytes) :
    readPaths files' paths key = readPaths files paths key := by
  unfold readPaths
  congr 1
  exact List.map_congr_left fun path hpath => fileMap_congr (h path hpath)

theorem readPaths_concat (files : Files) (paths : List Bytes) (path key : Bytes) :
    readPaths files (paths ++ [path]) key =
      (fileMap files path key).or (readPaths files paths key) := by
  unfold readPaths
  rw [List.map_append, List.map_singleton, Layers.newest_concat]

theorem fileMap_put_self (files : Files) (path content key : Bytes) :
    fileMap (Assoc.put path content files) path key = Assoc.get key (entryReader.all content) := by
  unfold fileMap
  rw [Assoc.get_put_self]
  rfl

/-! ## Loading -/

/-- Every file has the extension of a table, and its keys are in order. -/
structure Loadable (files : Files) : Prop where
  nodup : (files.map Prod.fst).Nodup
  ext : ∀ path ∈ files.map Prod.fst, extension path = ascii ".sst"
  sorted : ∀ path content, Assoc.get path files = some content →
    Assoc.Sorted (entryReader.all content)

theorem Loadable.mem_tablePaths {files : Files} (h : Loadable files) (path : Bytes) :
    path ∈ tablePaths files ↔ path ∈ files.map Prod.fst := by
  unfold tablePaths
  rw [List.mem_insertionSort, List.mem_filter]
  constructor
  · intro hmem
    exact hmem.1
  · intro hmem
    exact ⟨hmem, decide_eq_true (h.ext path hmem)⟩

/-- The order of the names is strict. -/
theorem Loadable.tablePaths_strict {files : Files} (h : Loadable files) :
    (tablePaths files).Pairwise (· < ·) := by
  have hle : (tablePaths files).Pairwise (· ≤ ·) := List.pairwise_insertionSort _ _
  have hnodup : (tablePaths files).Nodup :=
    ((List.perm_insertionSort _ _).nodup_iff).mpr (h.nodup.sublist List.filter_sublist)
  exact (List.pairwise_and_iff.mpr ⟨hle, hnodup⟩).imp fun hab => lt_of_le_of_ne hab.1 hab.2

/-- A strictly ordered list of the names is the list that is loaded. -/
theorem Loadable.tablePaths_eq {files : Files} (h : Loadable files) {paths : List Bytes}
    (hstrict : paths.Pairwise (· < ·)) (hmem : ∀ p, p ∈ paths ↔ p ∈ files.map Prod.fst) :
    tablePaths files = paths := by
  apply List.Pairwise.eq_of_mem_iff h.tablePaths_strict hstrict
  intro p
  rw [h.mem_tablePaths, hmem]

theorem Loadable.stored {files : Files} (h : Loadable files) :
    Stored files ((tablePaths files).map (SSTable.new files)) := by
  have hpaths : ((tablePaths files).map (SSTable.new files)).map SSTable.path =
      tablePaths files := by
    rw [List.map_map]
    conv_rhs => rw [← List.map_id (tablePaths files)]
    apply List.map_congr_left
    intro path _
    exact path_new files path
  refine ⟨?_, ?_, h.nodup, ?_⟩
  · rw [hpaths]
    exact h.tablePaths_strict.imp fun hlt => ne_of_lt hlt
  · intro table htable
    rcases List.mem_map.mp htable with ⟨path, hpath, rfl⟩
    have hmem := (h.mem_tablePaths path).mp hpath
    -- the constructor builds the object that describes its file
    rcases Option.isSome_iff_exists.mp (Assoc.get_isSome_iff.mpr hmem) with ⟨content, hfile⟩
    refine ⟨content, ?_, ?_, h.sorted path content hfile⟩
    · rw [path_new]
      exact hfile
    · rw [path_new]
      exact new_eq hfile
  · intro path hpath
    rw [hpaths]
    exact (h.mem_tablePaths path).mpr hpath

theorem Loadable.onDisk_eq {files : Files} (key : Bytes) :
    onDisk files ((tablePaths files).map (SSTable.new files)) key =
      readPaths files (tablePaths files) key := by
  rw [VaultDB.onDisk_eq, List.map_map]
  congr 1
  conv_rhs => rw [← List.map_id (tablePaths files)]
  apply List.map_congr_left
  intro path _
  exact path_new files path

/-! ## The constructor -/

/-- An engine in the constructor, tables loaded and log replayed. -/
def LSMEngine.replayedEngine (disk : DataDir) (dataDir : Bytes) (cacheSize : Nat)
    (memtableSizeBytes : UInt64) : LSMEngine :=
  { dataDir := dataDir
    disk := disk
    cache := LRUCache.new cacheSize
    memtable := replay (WAL.recover disk.walLog) (MemTable.new memtableSizeBytes)
    wal := WAL.new
    sstables := (tablePaths disk.tables).map (SSTable.new disk.tables)
    writeCount := 0
    readCount := 0
    cacheHits := 0
    bloomSaved := 0 }

/-- What is left for the constructor is a flush, if the memtable is full. -/
theorem LSMEngine.new_eq_flushIfFull (disk : DataDir) (dataDir : Bytes) (cacheSize : Nat)
    (memtableSizeBytes : UInt64) (now : Nat) (dev : Device) :
    new disk dataDir cacheSize memtableSizeBytes now dev =
        replayedEngine disk dataDir cacheSize memtableSizeBytes ∨
      new disk dataDir cacheSize memtableSizeBytes now dev =
        (replayedEngine disk dataDir cacheSize memtableSizeBytes).flushIfFull now dev := by
  unfold new LSMEngine.recover
  dsimp only
  split_ifs
  · exact Or.inr rfl
  · exact Or.inl rfl

/-- What a key is found to hold by an engine started on the directory. -/
def restored (disk : DataDir) (key : Bytes) : Option Bytes :=
  (logged (WAL.recover disk.walLog) key).or
    (readPaths disk.tables (tablePaths disk.tables) key)

theorem get_replayedEngine (disk : DataDir) (dataDir : Bytes) (cacheSize : Nat)
    (threshold : UInt64) (key : Bytes) :
    (replayedEngine disk dataDir cacheSize threshold).memtable.get key =
      logged (WAL.recover disk.walLog) key := by
  have hmem := get_replay (WAL.recover disk.walLog) (MemTable.new threshold) key
  rw [MemTable.get_new, Option.or_none] at hmem
  exact hmem

theorem lookup_replayedEngine (disk : DataDir) (dataDir : Bytes) (cacheSize : Nat)
    (threshold : UInt64) (key : Bytes) :
    (replayedEngine disk dataDir cacheSize threshold).lookup key = restored disk key := by
  unfold lookup restored
  rw [get_replayedEngine, ← Loadable.onDisk_eq]
  rfl

section Starting

variable {disk : DataDir} (hload : Loadable disk.tables) {dataDir : Bytes} {cacheSize : Nat}
  (hcache : 0 < cacheSize) {threshold : UInt64} {ms : Nat}
include hload

theorem fresh_replayedEngine (hfresh : sstablePath dataDir ms ∉ disk.tables.map Prod.fst) :
    sstablePath dataDir ms ∉
      (replayedEngine disk dataDir cacheSize threshold).sstables.map SSTable.path :=
  fun hmem => hfresh (hload.stored.mem_files hmem)

include hcache

theorem layered_replayedEngine :
    Layered (replayedEngine disk dataDir cacheSize threshold) := by
  have hrecords := (replayedEngine disk dataDir cacheSize threshold).records_fit
  refine ⟨hload.stored, ordered_replay hrecords (MemTable.ordered_new _), LRUCache.linked_new _,
    ?_, Or.inl hcache⟩
  rintro key value ⟨n, hn, -⟩
  cases hn

theorem layered_new (hfresh : sstablePath dataDir ms ∉ disk.tables.map Prod.fst) :
    Layered (LSMEngine.new disk dataDir cacheSize threshold ms Device.sound) ∧
      ∀ key, (LSMEngine.new disk dataDir cacheSize threshold ms Device.sound).lookup key =
        restored disk key := by
  have h : Layered (replayedEngine disk dataDir cacheSize threshold) :=
    layered_replayedEngine hload hcache
  rcases new_eq_flushIfFull disk dataDir cacheSize threshold ms Device.sound with heq | heq
  · rw [heq]
    exact ⟨h, lookup_replayedEngine disk dataDir cacheSize threshold⟩
  · rcases h.flushIfFull fun _ => fresh_replayedEngine hload hfresh with ⟨hflushed, hsame⟩
    rw [heq]
    refine ⟨hflushed, ?_⟩
    intro key
    rw [hsame, lookup_replayedEngine]

end Starting

theorem answer_new {disk : DataDir} (hload : Loadable disk.tables) {dataDir : Bytes}
    {cacheSize : Nat} (hcache : 0 < cacheSize) {threshold : UInt64} {ms : Nat}
    (hfresh : sstablePath dataDir ms ∉ disk.tables.map Prod.fst) (key : Bytes) (now : Nat) :
    (LSMEngine.new disk dataDir cacheSize threshold ms Device.sound).answer key now =
      some (visible now (restored disk key)) := by
  rcases @layered_new disk hload dataDir cacheSize hcache threshold ms hfresh with
    ⟨hlayered, hlookup⟩
  rw [hlayered.answer, hlookup]

/-! ## Directories of sound engines -/

/-- Names used in order, all of one decimal length. -/
structure GrowingNames (used : List Nat) : Prop where
  lt : used.Pairwise (· < ·)
  length : ∀ a ∈ used, ∀ b ∈ used, (decimal a).length = (decimal b).length

theorem LSMEngine.Sound.loadable {e : LSMEngine} (h : Sound e) {dataDir : Bytes} {used : List Nat}
    (hnamed : Named dataDir used e) : Loadable e.disk.tables := by
  refine ⟨h.stored.filesNodup, ?_, ?_⟩
  · intro path hpath
    rcases List.mem_map.mp (h.stored.only path hpath) with ⟨table, htable, rfl⟩
    rcases hnamed.named table htable with ⟨ms, -, hname⟩
    exact hname.extension
  · intro path content hfile
    have hpath := Assoc.get_isSome_iff.mp (Option.isSome_iff_exists.mpr ⟨content, hfile⟩)
    rcases List.mem_map.mp (h.stored.only path hpath) with ⟨table, htable, rfl⟩
    have hsorted := (h.stored.backed table htable).sorted
    rw [readAll_eq hfile] at hsorted
    exact hsorted

/-- Every file has a name made at one of the readings. -/
def NamedFiles (dataDir : Bytes) (used : List Nat) (files : Files) : Prop :=
  ∀ path ∈ files.map Prod.fst, ∃ ms ∈ used, NamedAt dataDir ms path

theorem LSMEngine.Named.of_file {e : LSMEngine} {dataDir : Bytes} {used : List Nat}
    (hnamed : Named dataDir used e) (hstored : Stored e.disk.tables e.sstables) :
    NamedFiles dataDir used e.disk.tables := by
  intro path hpath
  rcases List.mem_map.mp (hstored.only path hpath) with ⟨table, htable, rfl⟩
  exact hnamed.named table htable

namespace NamedFiles

variable {dataDir : Bytes} {used : List Nat} {files : Files} {now : Nat} {path : Bytes}

/-- A later reading makes a name that is not there yet. -/
theorem not_mem_of_later (h : NamedFiles dataDir used files) (hlater : ∀ ms ∈ used, ms < now)
    (hpath : NamedAt dataDir now path) : path ∉ files.map Prod.fst := by
  intro hfile
  rcases h path hfile with ⟨ms, hms, hname⟩
  exact absurd (hname.injective hpath) (Nat.ne_of_lt (hlater ms hms))

theorem mono (h : NamedFiles dataDir used files) {used' : List Nat} (hsub : used ⊆ used') :
    NamedFiles dataDir used' files := by
  intro path hpath
  rcases h path hpath with ⟨ms, hms, hname⟩
  exact ⟨ms, hsub hms, hname⟩

theorem put (h : NamedFiles dataDir used files) (hpath : NamedAt dataDir now path)
    (content : Bytes) : NamedFiles dataDir (used ++ [now]) (Assoc.put path content files) := by
  intro p hp
  rcases Assoc.mem_keys_put.mp hp with rfl | hp
  · exact ⟨now, List.mem_append_right _ List.mem_cons_self, hpath⟩
  · exact h.mono (List.subset_append_left _ _) p hp

theorem erase (h : NamedFiles dataDir used files) (path : Bytes) :
    NamedFiles dataDir used (Assoc.erase path files) := by
  intro p hp
  exact h p (Assoc.mem_keys_erase.mp hp).1

end NamedFiles

/-- The last of growing names is later than the others. -/
theorem GrowingNames.lt_last {used : List Nat} {now : Nat} (h : GrowingNames (used ++ [now])) :
    ∀ ms ∈ used, ms < now :=
  fun ms hms => (List.pairwise_append.mp h.lt).2.2 ms hms now (List.mem_singleton.mpr rfl)

/-- A file named later than all others is put behind them. -/
theorem Loadable.tablePaths_put {files : Files} (h : Loadable files) {dataDir : Bytes}
    {used : List Nat} {now : Nat} (hgrow : GrowingNames (used ++ [now]))
    (hfiles : NamedFiles dataDir used files) {path : Bytes}
    (hpath : NamedAt dataDir now path) {content : Bytes}
    (hsorted : Assoc.Sorted (entryReader.all content)) :
    Loadable (Assoc.put path content files) ∧
      tablePaths (Assoc.put path content files) = tablePaths files ++ [path] := by
  have hlater : ∀ p ∈ files.map Prod.fst, p < path := by
    intro p hp
    rcases hfiles p hp with ⟨ms, hms, hname⟩
    have hlen := hgrow.length ms (List.mem_append_left _ hms) now
      (List.mem_append_right _ (List.mem_singleton.mpr rfl))
    exact hname.lt hpath hlen (hgrow.lt_last ms hms)
  have hload : Loadable (Assoc.put path content files) := by
    refine ⟨Assoc.nodup_put h.nodup, ?_, ?_⟩
    · intro p hp
      rcases Assoc.mem_keys_put.mp hp with rfl | hp
      · exact hpath.extension
      · exact h.ext p hp
    · intro p c hfile
      -- the new file is in order by assumption, the others were before
      by_cases hp : p = path
      · subst hp
        rw [Assoc.get_put_self] at hfile
        rw [← Option.some.inj hfile]
        exact hsorted
      · rw [Assoc.get_put_ne hp] at hfile
        exact h.sorted p c hfile
  refine ⟨hload, hload.tablePaths_eq ?_ ?_⟩
  · rw [List.pairwise_append]
    refine ⟨h.tablePaths_strict, List.pairwise_singleton _ _, ?_⟩
    intro p hp q hq
    rw [List.mem_singleton.mp hq]
    exact hlater p ((h.mem_tablePaths p).mp hp)
  · intro p
    rw [List.mem_append, List.mem_singleton, h.mem_tablePaths, Assoc.mem_keys_put, or_comm]

theorem Loadable.erase {files : Files} (h : Loadable files) (path : Bytes) :
    Loadable (Assoc.erase path files) := by
  refine ⟨Assoc.nodup_erase h.nodup, ?_, ?_⟩
  · intro p hp
    exact h.ext p (Assoc.mem_keys_erase.mp hp).1
  · intro p c hfile
    exact h.sorted p c (Assoc.get_erase_eq_some_iff.mp hfile).2

/-- Removing a file takes it out of the order. -/
theorem Loadable.tablePaths_erase {files : Files} (h : Loadable files) (path : Bytes) :
    tablePaths (Assoc.erase path files) = (tablePaths files).filter (· ≠ path) := by
  apply (h.erase path).tablePaths_eq (h.tablePaths_strict.sublist List.filter_sublist)
  intro p
  rw [List.mem_filter, h.mem_tablePaths, Assoc.mem_keys_erase, decide_eq_true_eq]

/-- One more file, named later than all others, hides what the older files
hold for its keys; the log hides both. -/
theorem restored_put (log : Bytes) {files : Files} (h : Loadable files) {dataDir : Bytes}
    {used : List Nat} {now : Nat} (hgrow : GrowingNames (used ++ [now]))
    (hfiles : NamedFiles dataDir used files) {path : Bytes}
    (hpath : NamedAt dataDir now path) {content : Bytes}
    (hsorted : Assoc.Sorted (entryReader.all content)) (key : Bytes) :
    restored ⟨log, Assoc.put path content files⟩ key =
      (logged (WAL.recover log) key).or
        ((Assoc.get key (entryReader.all content)).or
          (readPaths files (tablePaths files) key)) := by
  rcases h.tablePaths_put hgrow hfiles hpath hsorted with ⟨-, hpaths⟩
  have hkeep : ∀ p ∈ tablePaths files,
      Assoc.get p (Assoc.put path content files) = Assoc.get p files := by
    intro p hp
    apply Assoc.get_put_ne
    rintro rfl
    -- a file of that name would have been named at an earlier reading
    exact hfiles.not_mem_of_later hgrow.lt_last hpath ((h.mem_tablePaths p).mp hp)
  unfold restored
  dsimp only
  rw [hpaths, readPaths_concat, fileMap_put_self, readPaths_congr hkeep]

/-- Removing a file whose keys the newest file has too changes nothing. -/
theorem readPaths_erase {files : Files} (h : Loadable files) {older : List Bytes}
    {newest path : Bytes} (hpaths : tablePaths files = older ++ [newest]) (hne : path ≠ newest)
    (hhidden : ∀ key, fileMap files newest key = none → fileMap files path key = none) :
    tablePaths (Assoc.erase path files) = older.filter (· ≠ path) ++ [newest] ∧
      ∀ key, readPaths (Assoc.erase path files) (tablePaths (Assoc.erase path files)) key =
        readPaths files (tablePaths files) key := by
  have hfilter : tablePaths (Assoc.erase path files) = older.filter (· ≠ path) ++ [newest] := by
    rw [h.tablePaths_erase, hpaths, List.filter_append]
    congr 1
    simp [Ne.symm hne]
  refine ⟨hfilter, ?_⟩
  intro key
  have hkeep : ∀ p ∈ tablePaths (Assoc.erase path files),
      Assoc.get p (Assoc.erase path files) = Assoc.get p files := by
    intro p hp
    rw [h.tablePaths_erase, List.mem_filter, decide_eq_true_eq] at hp
    exact Assoc.get_erase_ne hp.2 files
  rw [readPaths_congr hkeep, hfilter, hpaths, readPaths_concat, readPaths_concat]
  cases hnewest : fileMap files newest key with
  | some value => rfl
  | none =>
      -- then the removed file does not have the key either
      rw [Option.none_or, Option.none_or]
      apply Layers.newest_filter
      intro p _ hp
      have heq : p = path := by simpa using hp
      rw [heq]
      exact hhidden key hnewest

end VaultDB
