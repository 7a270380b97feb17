import VaultDB.LSMEngine

/-! # The set of live tables

The vector `sstables_` against the files in the directory. `Stored` says that
every table object describes a sorted file of its own and that no other file
is there; then a search through Bloom filters and indexes reads the newest
file that holds the key (`searchTables_eq`). Adding a table at a fresh path
(`Stored.flush`) and merging the two oldest ones into a fresh path
(`Stored.compact`) keep this, and say what the files hold afterwards.
-/

namespace VaultDB

open Text Codec FileStream SSTable

/-! ## Paths -/

theorem sstablePath_injective {dataDir : Bytes} {a b : Nat}
    (h : sstablePath dataDir a = sstablePath dataDir b) : a = b := by
  unfold sstablePath at h
  have hname := List.append_cancel_left h
  exact decimal_injective (List.append_cancel_right hname)

theorem compactedPath_injective {dataDir : Bytes} {a b : Nat}
    (h : compactedPath dataDir a = compactedPath dataDir b) : a = b := by
  unfold compactedPath at h
  have hname := List.append_cancel_left h
  exact decimal_injective (List.append_cancel_right hname)

/-- Behind the number one scheme has a dot and the other an underscore. -/
theorem sstablePath_ne_compactedPath (dataDir : Bytes) (a b : Nat) :
    sstablePath dataDir a ≠ compactedPath dataDir b := by
  intro h
  unfold sstablePath compactedPath at h
  have hname := List.append_cancel_left h
  have hmem : (95 : UInt8) ∈ decimal a ++ ascii ".sst" := by
    rw [hname]
    exact List.mem_append_right _ (by decide)
  rcases List.mem_append.mp hmem with hmem | hmem
  · exact notMem_decimal (Or.inr (by decide)) hmem
  · revert hmem
    decide

/-- The path of a table made at the reading `ms`, by a flush or a compaction. -/
def NamedAt (dataDir : Bytes) (ms : Nat) (path : Bytes) : Prop :=
  path = sstablePath dataDir ms ∨ path = compactedPath dataDir ms

theorem NamedAt.injective {dataDir path : Bytes} {a b : Nat} (ha : NamedAt dataDir a path)
    (hb : NamedAt dataDir b path) : a = b := by
  rcases ha with rfl | rfl
  · rcases hb with hb | hb
    · exact sstablePath_injective hb
    · exact absurd hb (sstablePath_ne_compactedPath dataDir a b)
  · rcases hb with hb | hb
    · exact absurd hb.symm (sstablePath_ne_compactedPath dataDir b a)
    · exact compactedPath_injective hb

theorem extension_append {stem : Bytes} (hne : stem ≠ []) (hlast : stem.getLast? ≠ some 47) :
    extension (stem ++ ascii ".sst") = ascii ".sst" := by
  have hrev : (stem ++ ascii ".sst").reverse = [116, 115, 115, 46] ++ stem.reverse := by
    rw [List.reverse_append]
    rfl
  unfold extension
  simp only [List.reverse_reverse, hrev]
  cases hstem : stem.reverse with
  | nil => exact absurd (List.reverse_eq_nil_iff.mp hstem) hne
  | cons c rest =>
      -- the file name has a character in front of the dot
      have hc : c ≠ 47 := by
        rintro rfl
        apply hlast
        rw [← List.head?_reverse, hstem]
        rfl
      simp [hc]
      decide

theorem getLast?_pathStem_append (dataDir : Bytes) (ms : Nat) (s : Bytes)
    (hs : s.getLast? ≠ some 47) :
    (pathStem dataDir ++ (decimal ms ++ s)) ≠ [] ∧
      (pathStem dataDir ++ (decimal ms ++ s)).getLast? ≠ some 47 := by
  have hne := decimal_ne_nil ms
  refine ⟨by simp [hne], ?_⟩
  rw [List.getLast?_append_of_ne_nil _ (by simp [hne])]
  cases hs' : s with
  | nil =>
      rw [List.append_nil]
      intro hlast
      exact notMem_decimal (Or.inl (by decide)) (List.mem_of_getLast? hlast)
  | cons c s' =>
      rw [← hs', List.getLast?_append_of_ne_nil _ (by simp [hs'])]
      exact hs

/-- Both kinds of table file are found again by their extension. -/
theorem NamedAt.extension {dataDir path : Bytes} {ms : Nat} (h : NamedAt dataDir ms path) :
    extension path = ascii ".sst" := by
  rcases h with rfl | rfl
  · have hsplit : sstablePath dataDir ms =
        (pathStem dataDir ++ (decimal ms ++ [])) ++ ascii ".sst" := by
      unfold sstablePath
      simp
    rcases getLast?_pathStem_append dataDir ms [] (by decide) with ⟨hne, hlast⟩
    rw [hsplit]
    exact extension_append hne hlast
  · have hsplit : compactedPath dataDir ms =
        (pathStem dataDir ++ (decimal ms ++ ascii "_compacted")) ++ ascii ".sst" := by
      unfold compactedPath
      have hend : ascii "_compacted.sst" = ascii "_compacted" ++ ascii ".sst" := by decide
      rw [hend]
      simp
    rcases getLast?_pathStem_append dataDir ms (ascii "_compacted") (by decide) with ⟨hne, hlast⟩
    rw [hsplit]
    exact extension_append hne hlast

/-- Names made at readings of the same decimal length are ordered by time. -/
theorem NamedAt.lt {dataDir p q : Bytes} {a b : Nat} (hp : NamedAt dataDir a p)
    (hq : NamedAt dataDir b q) (hlen : (decimal a).length = (decimal b).length) (h : a < b) :
    p < q := by
  rcases hp with rfl | rfl
  · rcases hq with rfl | rfl
    · exact append_lt_append_left _ (decimal_append_lt hlen h _ _)
    · exact append_lt_append_left _ (decimal_append_lt hlen h _ _)
  · rcases hq with rfl | rfl
    · exact append_lt_append_left _ (decimal_append_lt hlen h _ _)
    · exact append_lt_append_left _ (decimal_append_lt hlen h _ _)

/-! ## What the files hold -/

/-- The map that a table's file is. -/
def tableMap (files : Files) (table : SSTable) (key : Bytes) : Option Bytes :=
  Assoc.get key (table.readAll files)

/-- What the live files hold for a key, the newest file first. -/
def onDisk (files : Files) (sstables : List SSTable) (key : Bytes) : Option Bytes :=
  Layers.newest (sstables.map (tableMap files)) key

/-- The object describes its file, whose keys are in order. -/
def Backed (files : Files) (table : SSTable) : Prop :=
  ∃ content, Assoc.get table.path files = some content ∧
    table = describe table.path (entryReader.located content 0) ∧
    Assoc.Sorted (entryReader.all content)

theorem Backed.get_eq {files : Files} {table : SSTable} (h : Backed files table) (key : Bytes) :
    table.get files key = tableMap files table key := by
  rcases h with ⟨content, hfile, htable, hsorted⟩
  unfold tableMap
  rw [readAll_eq hfile]
  conv_lhs => rw [htable]
  exact get_describe hfile hsorted key

theorem Backed.sorted {files : Files} {table : SSTable} (h : Backed files table) :
    Assoc.Sorted (table.readAll files) := by
  rcases h with ⟨content, hfile, -, hsorted⟩
  rw [readAll_eq hfile]
  exact hsorted

theorem Backed.fits {files : Files} {table : SSTable} (h : Backed files table) :
    ∀ entry ∈ table.readAll files, EntryFits entry := by
  rcases h with ⟨content, hfile, -, -⟩
  rw [readAll_eq hfile]
  exact fun entry hentry => fits_of_mem_all hentry

/-- A table only sees its own file. -/
theorem readAll_congr {files files' : Files} {table : SSTable}
    (h : Assoc.get table.path files' = Assoc.get table.path files) :
    table.readAll files' = table.readAll files := by
  unfold readAll
  rw [h]

theorem tableMap_congr {files files' : Files} {table : SSTable}
    (h : Assoc.get table.path files' = Assoc.get table.path files) :
    tableMap files' table = tableMap files table := by
  funext key
  unfold tableMap
  rw [readAll_congr h]

theorem Backed.congr {files files' : Files} {table : SSTable} (hb : Backed files table)
    (h : Assoc.get table.path files' = Assoc.get table.path files) : Backed files' table := by
  rcases hb with ⟨content, hfile, htable, hsorted⟩
  exact ⟨content, h.trans hfile, htable, hsorted⟩

theorem onDisk_congr {files files' : Files} {sstables : List SSTable}
    (h : ∀ table ∈ sstables, Assoc.get table.path files' = Assoc.get table.path files)
    (key : Bytes) : onDisk files' sstables key = onDisk files sstables key := by
  unfold onDisk
  congr 1
  exact List.map_congr_left fun table htable => tableMap_congr (h table htable)

/-- Writing a file leaves a table that describes it. -/
theorem backed_describe {files : Files} {path : Bytes} {entries : List Entry}
    (hfits : ∀ entry ∈ entries, EntryFits entry) (hsorted : Assoc.Sorted entries) :
    Backed (Assoc.put path (encodeEntries entries) files)
      (describe path (entryReader.located (encodeEntries entries) 0)) := by
  refine ⟨encodeEntries entries, Assoc.get_put_self _ _ _, rfl, ?_⟩
  rw [all_encodeEntries hfits]
  exact hsorted

theorem readAll_describe {files : Files} {path : Bytes} {entries : List Entry}
    (hfits : ∀ entry ∈ entries, EntryFits entry) :
    (describe path (entryReader.located (encodeEntries entries) 0)).readAll
      (Assoc.put path (encodeEntries entries) files) = entries := by
  have hfile : Assoc.get (describe path (entryReader.located (encodeEntries entries) 0)).path
      (Assoc.put path (encodeEntries entries) files) = some (encodeEntries entries) :=
    Assoc.get_put_self _ _ _
  rw [readAll_eq hfile, all_encodeEntries hfits]

theorem tableMap_describe {files : Files} {path : Bytes} {entries : List Entry}
    (hfits : ∀ entry ∈ entries, EntryFits entry) (key : Bytes) :
    tableMap (Assoc.put path (encodeEntries entries) files)
      (describe path (entryReader.located (encodeEntries entries) 0)) key =
      Assoc.get key entries := by
  unfold tableMap
  rw [readAll_describe hfits]

/-! ## Live tables and files in step -/

structure Stored (files : Files) (sstables : List SSTable) : Prop where
  paths : (sstables.map SSTable.path).Nodup
  backed : ∀ table ∈ sstables, Backed files table
  filesNodup : (files.map Prod.fst).Nodup
  only : ∀ path, path ∈ files.map Prod.fst → path ∈ sstables.map SSTable.path

theorem stored_empty : Stored [] [] := by
  refine ⟨List.nodup_nil, ?_, List.nodup_nil, ?_⟩
  · intro table htable
    cases htable
  · intro path hpath
    exact hpath

/-- Every live table has its file. -/
theorem Stored.mem_files {files : Files} {sstables : List SSTable} (h : Stored files sstables)
    {path : Bytes} (hpath : path ∈ sstables.map SSTable.path) : path ∈ files.map Prod.fst := by
  rcases List.mem_map.mp hpath with ⟨table, htable, rfl⟩
  rcases h.backed table htable with ⟨content, hfile, -, -⟩
  exact Assoc.get_isSome_iff.mp (by rw [hfile]; rfl)

/-- The search from the newest table on finds what the newest file that has
the key holds; a table the Bloom filter skips does not have it. -/
theorem searchTables_reverse {files : Files} {sstables : List SSTable}
    (h : ∀ table ∈ sstables, Backed files table) (key : Bytes) (saved : UInt64) :
    (LSMEngine.searchTables files key sstables saved).1 = onDisk files sstables.reverse key := by
  induction sstables generalizing saved with
  | nil => rfl
  | cons table older ih =>
      have ih' := ih fun t ht => h t (List.mem_cons_of_mem _ ht)
      have hget := (h table List.mem_cons_self).get_eq key
      unfold LSMEngine.searchTables onDisk
      rw [List.reverse_cons, List.map_append, List.map_singleton, Layers.newest_concat, ← hget]
      cases hbloom : table.bloomMightContain key with
      | false =>
          rw [get_of_bloom hbloom, Option.none_or]
          simp only [Bool.false_eq_true, not_false_eq_true, if_true]
          exact ih' (saved + 1)
      | true =>
          simp only [not_true_eq_false, if_false]
          cases table.get files key with
          | some value => rfl
          | none =>
              rw [Option.none_or]
              exact ih' saved

theorem searchTables_eq {files : Files} {sstables : List SSTable}
    (h : ∀ table ∈ sstables, Backed files table) (key : Bytes) (saved : UInt64) :
    (LSMEngine.searchTables files key sstables.reverse saved).1 = onDisk files sstables key := by
  rw [searchTables_reverse (fun table htable => h table (List.mem_reverse.mp htable)),
    List.reverse_reverse]

/-- A flush to a path no live table has. -/
theorem Stored.flush {files : Files} {sstables : List SSTable} (h : Stored files sstables)
    {path : Bytes} (hfresh : path ∉ sstables.map SSTable.path) {entries : List Entry}
    (hfits : ∀ entry ∈ entries, EntryFits entry) (hsorted : Assoc.Sorted entries) :
    let files' := Assoc.put path (encodeEntries entries) files
    let sstables' := sstables ++ [describe path (entryReader.located (encodeEntries entries) 0)]
    Stored files' sstables' ∧ ∀ key, onDisk files' sstables' key =
      (Assoc.get key entries).or (onDisk files sstables key) := by
  intro files' sstables'
  have hkeep : ∀ table ∈ sstables,
      Assoc.get table.path files' = Assoc.get table.path files := by
    intro table htable
    apply Assoc.get_put_ne
    rintro rfl
    exact hfresh (List.mem_map_of_mem htable)
  refine ⟨⟨?_, ?_, Assoc.nodup_put h.filesNodup, ?_⟩, ?_⟩
  · -- the new path is none of the others
    rw [List.map_append, List.nodup_append]
    refine ⟨h.paths, List.nodup_singleton _, ?_⟩
    intro p hp q hq
    rw [List.map_singleton, List.mem_singleton] at hq
    have hq' : q = path := hq
    intro heq
    apply hfresh
    rw [← hq', ← heq]
    exact hp
  · intro table htable
    rcases List.mem_append.mp htable with htable | htable
    · exact (h.backed table htable).congr (hkeep table htable)
    · rw [List.mem_singleton.mp htable]
      exact backed_describe hfits hsorted
  · intro p hp
    rw [List.map_append, List.mem_append]
    rcases Assoc.mem_keys_put.mp hp with rfl | hp
    · exact Or.inr (List.mem_singleton.mpr rfl)
    · exact Or.inl (h.only p hp)
  · intro key
    show Layers.newest (sstables'.map (tableMap files')) key = _
    rw [List.map_append, List.map_singleton, Layers.newest_concat, tableMap_describe hfits]
    congr 1
    exact onDisk_congr hkeep key

/-- A compaction of the two oldest tables into a path no live table has. The
file `path` is written, then the two inputs are removed. -/
theorem Stored.compact {files : Files} {older newer : SSTable} {staying : List SSTable}
    (h : Stored files (older :: newer :: staying)) {path : Bytes}
    (hfresh : path ∉ (older :: newer :: staying).map SSTable.path) :
    let merged := mergeEntries (older.readAll files) (newer.readAll files)
    let files' := Assoc.erase newer.path (Assoc.erase older.path
      (Assoc.put path (encodeEntries merged) files))
    let sstables' := describe path (entryReader.located (encodeEntries merged) 0) :: staying
    Stored files' sstables' ∧
      ∀ key, onDisk files' sstables' key = onDisk files (older :: newer :: staying) key := by
  intro merged files' sstables'
  have hpaths := h.paths
  simp only [List.map_cons, List.nodup_cons, List.mem_cons, not_or] at hpaths hfresh
  rcases hpaths with ⟨⟨hne, holder⟩, hnewer, hstaying⟩
  rcases hfresh with ⟨hpo, hpn, hps⟩
  have hbo := h.backed older List.mem_cons_self
  have hbn := h.backed newer (List.mem_cons_of_mem _ List.mem_cons_self)
  have hsorted : Assoc.Sorted merged := sorted_mergeEntries hbo.sorted hbn.sorted
  have hfits : ∀ entry ∈ merged, EntryFits entry := by
    intro entry hentry
    rcases mem_mergeEntries hentry with hentry | hentry
    · exact hbo.fits entry hentry
    · exact hbn.fits entry hentry
  -- the removals touch neither the merged file nor a staying one
  have hget : ∀ p, p ≠ older.path → p ≠ newer.path → Assoc.get p files' =
      Assoc.get p (Assoc.put path (encodeEntries merged) files) := by
    intro p h₁ h₂
    rw [Assoc.get_erase_ne h₂, Assoc.get_erase_ne h₁]
  have hkeep : ∀ table ∈ staying,
      Assoc.get table.path files' = Assoc.get table.path files := by
    intro table htable
    have hmem := List.mem_map_of_mem (f := SSTable.path) htable
    have h₁ : table.path ≠ older.path := fun heq => holder (heq ▸ hmem)
    have h₂ : table.path ≠ newer.path := fun heq => hnewer (heq ▸ hmem)
    have h₃ : table.path ≠ path := fun heq => hps (heq ▸ hmem)
    rw [hget _ h₁ h₂, Assoc.get_put_ne h₃]
  have hmerged := hget path hpo hpn
  refine ⟨⟨?_, ?_, ?_, ?_⟩, ?_⟩
  · exact List.nodup_cons.mpr ⟨hps, hstaying⟩
  · intro table htable
    rcases List.mem_cons.mp htable with rfl | htable
    · exact (backed_describe hfits hsorted).congr hmerged
    · exact (h.backed table (List.mem_cons_of_mem _ (List.mem_cons_of_mem _ htable))).congr
        (hkeep table htable)
  · exact Assoc.nodup_erase (Assoc.nodup_erase (Assoc.nodup_put h.filesNodup))
  · intro p hp
    rcases Assoc.mem_keys_erase.mp hp with ⟨hp, hpn'⟩
    rcases Assoc.mem_keys_erase.mp hp with ⟨hp, hpo'⟩
    rcases Assoc.mem_keys_put.mp hp with rfl | hp
    · exact List.mem_cons_self
    · have hlive := h.only p hp
      simp only [List.map_cons, List.mem_cons] at hlive
      rcases hlive with rfl | rfl | hlive
      · exact absurd rfl hpo'
      · exact absurd rfl hpn'
      · exact List.mem_cons_of_mem _ hlive
  · intro key
    show (Layers.newest (staying.map (tableMap files')) key).or
      (tableMap files' (describe path (entryReader.located (encodeEntries merged) 0)) key) = _
    rw [tableMap_congr hmerged, tableMap_describe hfits,
      get_mergeEntries hbo.sorted hbn.sorted]
    -- the merged table reads as its two inputs did, below the staying ones
    have hrest := onDisk_congr hkeep key
    unfold onDisk at hrest ⊢
    rw [hrest]
    simp only [List.map_cons, Layers.newest_cons, Option.or_assoc]
    rfl

end VaultDB
