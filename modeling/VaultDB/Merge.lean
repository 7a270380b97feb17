import VaultDB.Lives

/-! # Compaction and deleted keys

`SSTable::compact` merges two tables by newer-wins without loss
(`compact_newer_wins`). Its contract in `sstable.h` promises more: deletion
marks are to go, which is sound where the two tables are the oldest ones. The
merge copies them, so in a run in which nothing else goes wrong a compaction
reclaims deleted keys exactly when there is none to reclaim (`reclaims_iff`).
-/

namespace VaultDB

open Text Codec FileStream SSTable

/-- A deletion mark is read as absent. -/
def live (r : Option Bytes) : Option Bytes := r.filter fun value => value ≠ TOMBSTONE

/-- The value that wins among two tables: the newer one's, else the older one's. -/
def winning (files : Files) (older newer : SSTable) (key : Bytes) : Option Bytes :=
  (tableMap files newer key).or (tableMap files older key)

namespace SSTable

/-- What is read has lengths that fit, also where there is no file. -/
theorem fits_readAll {table : SSTable} {files : Files} :
    ∀ entry ∈ table.readAll files, EntryFits entry := by
  intro entry hentry
  cases hfile : Assoc.get table.path files with
  | none =>
      unfold readAll at hentry
      rw [hfile] at hentry
      cases hentry
  | some content =>
      rw [readAll_eq hfile] at hentry
      exact fits_of_mem_all hentry

theorem fits_mergeEntries (older newer : SSTable) (files : Files) :
    ∀ entry ∈ mergeEntries (older.readAll files) (newer.readAll files), EntryFits entry := by
  intro entry hentry
  rcases mem_mergeEntries hentry with hentry | hentry
  · exact fits_readAll entry hentry
  · exact fits_readAll entry hentry

/-- The merged file, in closed form. -/
theorem compact_sound (older newer : SSTable) (files : Files) (outputPath : Bytes) :
    compact older newer Device.sound files outputPath =
      (describe outputPath (entryReader.located
        (encodeEntries (mergeEntries (older.readAll files) (newer.readAll files))) 0),
        Assoc.put outputPath
          (encodeEntries (mergeEntries (older.readAll files) (newer.readAll files))) files) := by
  rw [compact_eq_flushedTo, flushedTo_sound _ _ (fits_mergeEntries older newer files),
    putFile_sound]

/-- Compaction merges by newer-wins: the file is in key order, holds nothing
that is not in an input, every live winner, and reads as the newer table laid
over the older one; the inputs stay. -/
theorem compact_newer_wins {older newer : SSTable} {files : Files} {outputPath : Bytes}
    (hold : Assoc.Sorted (older.readAll files)) (hnew : Assoc.Sorted (newer.readAll files))
    (holder : outputPath ≠ older.path) (hnewer : outputPath ≠ newer.path) :
    let (merged, files') := compact older newer Device.sound files outputPath
    Assoc.Sorted (merged.readAll files') ∧
      (∀ entry ∈ merged.readAll files',
        entry ∈ older.readAll files ∨ entry ∈ newer.readAll files) ∧
      (∀ key value, winning files older newer key = some value → value ≠ TOMBSTONE →
        (key, value) ∈ merged.readAll files') ∧
      (∀ key, live (merged.get files' key) = live (winning files older newer key)) ∧
      (Backed files older → Backed files newer → ∀ key,
        live (merged.get files' key) = live ((newer.get files key).or (older.get files key))) ∧
      Assoc.get older.path files' = Assoc.get older.path files ∧
      Assoc.get newer.path files' = Assoc.get newer.path files := by
  rw [compact_sound]
  have hfits := fits_mergeEntries older newer files
  have hsorted := sorted_mergeEntries hold hnew
  have hmerged : ∀ key, Assoc.get key
      (mergeEntries (older.readAll files) (newer.readAll files)) =
        winning files older newer key := fun key => get_mergeEntries hold hnew key
  have hget : ∀ key, (describe outputPath (entryReader.located
      (encodeEntries (mergeEntries (older.readAll files) (newer.readAll files))) 0)).get
      (Assoc.put outputPath
        (encodeEntries (mergeEntries (older.readAll files) (newer.readAll files))) files) key =
      winning files older newer key := by
    intro key
    rw [(backed_describe hfits hsorted).get_eq, tableMap_describe hfits, hmerged]
  dsimp only
  rw [readAll_describe hfits]
  refine ⟨hsorted, fun entry => mem_mergeEntries, ?_, ?_, ?_, ?_, ?_⟩
  · intro key value hwins _
    exact Assoc.mem_of_get ((hmerged key).trans hwins)
  · intro key
    rw [hget]
  · intro hbackedOld hbackedNew key
    rw [hget, hbackedOld.get_eq, hbackedNew.get_eq]
    rfl
  · exact Assoc.get_put_ne (Ne.symm holder) _ _
  · exact Assoc.get_put_ne (Ne.symm hnewer) _ _

/-- Duplicate first keys, one deleted, and the longer list left over. -/
def overlappingFiles : Files :=
  [(ascii "1", encodeEntries [(ascii "a", ascii "1"), (ascii "c", ascii "1")]),
    (ascii "2", encodeEntries [(ascii "a", TOMBSTONE), (ascii "b", ascii "2")])]

theorem compact_newer_wins_overlapping :
    let older := new overlappingFiles (ascii "1")
    let newer := new overlappingFiles (ascii "2")
    let (merged, files') := compact older newer Device.sound overlappingFiles (ascii "3")
    ∀ key, live (merged.get files' key) = live (winning overlappingFiles older newer key) := by
  have hold : (new overlappingFiles (ascii "1")).readAll overlappingFiles =
      [(ascii "a", ascii "1"), (ascii "c", ascii "1")] := by decide +kernel
  have hnew : (new overlappingFiles (ascii "2")).readAll overlappingFiles =
      [(ascii "a", TOMBSTONE), (ascii "b", ascii "2")] := by decide +kernel
  exact (compact_newer_wins (by rw [hold]; decide) (by rw [hnew]; decide)
    (by rw [path_new]; decide) (by rw [path_new]; decide)).2.2.2.1

end SSTable

namespace LSMEngine

/-- Compacting the two oldest tables of the engine leaves a table with exactly
their live winners, and changes no read. -/
def Reclaims (e : LSMEngine) (older newer : SSTable) (now : Nat) : Prop :=
  ∃ merged staying, (e.compact now Device.sound).sstables = merged :: staying ∧
    (∀ key value, (key, value) ∈ merged.readAll (e.compact now Device.sound).disk.tables ↔
      winning e.disk.tables older newer key = some value ∧ value ≠ TOMBSTONE) ∧
    ∀ key t, (e.compact now Device.sound).answer key t = e.answer key t

/-- In an orderly state the merged table holds all winners, the deletion marks
among them. -/
theorem Layered.compact_merged {e : LSMEngine} (h : Layered e) {older newer : SSTable}
    {staying : List SSTable} (hmany : 4 < e.sstables.length)
    (hsplit : e.sstables = older :: newer :: staying) {now : Nat}
    (hfresh : compactedPath e.dataDir now ∉ e.sstables.map SSTable.path) :
    ∃ merged, (e.compact now Device.sound).sstables = merged :: staying ∧
      ∀ key value, (key, value) ∈ merged.readAll (e.compact now Device.sound).disk.tables ↔
        winning e.disk.tables older newer key = some value := by
  have hbacked := h.stored.backed
  rw [hsplit] at hbacked hfresh
  have hold := (hbacked older (by simp)).sorted
  have hnew := (hbacked newer (by simp)).sorted
  have holder : compactedPath e.dataDir now ≠ older.path := fun heq => hfresh (by simp [heq])
  have hnewer : compactedPath e.dataDir now ≠ newer.path := fun heq => hfresh (by simp [heq])
  have hfits := h.fits_merged hsplit
  rw [compact_eq hmany hsplit hfits]
  refine ⟨_, rfl, ?_⟩
  -- removing the inputs leaves the output in place
  have hfile : ∀ content, Assoc.get (compactedPath e.dataDir now) (Assoc.erase newer.path
      (Assoc.erase older.path (Assoc.put (compactedPath e.dataDir now) content e.disk.tables))) =
      some content := by
    intro content
    rw [Assoc.get_erase_ne hnewer, Assoc.get_erase_ne holder, Assoc.get_put_self]
  intro key value
  rw [readAll_eq (hfile _), all_encodeEntries hfits]
  have hsorted := sorted_mergeEntries hold hnew
  have hwinning := get_mergeEntries hold hnew key
  constructor
  · intro hmem
    exact hwinning.symm.trans (Assoc.get_of_mem hsorted.nodup_keys hmem)
  · intro hwins
    exact Assoc.mem_of_get (hwinning.trans hwins)

variable {dataDir : Bytes} {cacheSize : Nat} {threshold : UInt64}

theorem Layered.reclaims_iff_live {e : LSMEngine} (h : Layered e)
    (hmany : 4 < e.sstables.length) {older newer : SSTable} {staying : List SSTable}
    (hsplit : e.sstables = older :: newer :: staying) {now : Nat}
    (hfresh : compactedPath e.dataDir now ∉ e.sstables.map SSTable.path) :
    Reclaims e older newer now ↔
      ∀ key, winning e.disk.tables older newer key ≠ some TOMBSTONE := by
  rcases h.compact_merged hmany hsplit hfresh with ⟨merged, hmerged, hmem⟩
  rcases h.compact fun _ => hfresh with ⟨hlayered, hlookup, -⟩
  constructor
  · -- a mark that wins is copied
    rintro ⟨merged', staying', hmerged', hlive, -⟩ key hmark
    rw [hmerged] at hmerged'
    rcases List.cons.inj hmerged' with ⟨rfl, -⟩
    exact ((hlive key TOMBSTONE).mp ((hmem key TOMBSTONE).mpr hmark)).2 rfl
  · intro hnone
    refine ⟨merged, staying, hmerged, ?_, ?_⟩
    · intro key value
      rw [hmem]
      constructor
      · intro hwins
        refine ⟨hwins, ?_⟩
        rintro rfl
        exact hnone key hwins
      · exact fun hwins => hwins.1
    · intro key t
      rw [hlayered.answer, h.answer, hlookup]

/-- In every state with more than four tables, restarts included, a compaction
reclaims the deleted keys of the two oldest tables, if the run was orderly (no
device fails, every key and value fits its length field, every file gets a path
of its own, and a new engine has room in its cache), the output gets a path of
its own too, and no deletion mark wins among the two; and where the run and the
output's path are in order, only then. -/
theorem reclaims_iff {evs : List LifeEvent} {e : LSMEngine}
    (hrun : Machine.run lifeStep (start dataDir cacheSize threshold) evs = some e)
    (hmany : 4 < e.sstables.length) {older newer : SSTable} {staying : List SSTable}
    (hsplit : e.sstables = older :: newer :: staying) (now : Nat) :
    (Machine.Along lifeStep OrderlyLife (start dataDir cacheSize threshold) evs ∧
        compactedPath e.dataDir now ∉ e.sstables.map SSTable.path ∧
        (∀ key, winning e.disk.tables older newer key ≠ some TOMBSTONE) →
      Reclaims e older newer now) ∧
    (Machine.Along lifeStep OrderlyLife (start dataDir cacheSize threshold) evs →
      compactedPath e.dataDir now ∉ e.sstables.map SSTable.path → Reclaims e older newer now →
      ∀ key, winning e.disk.tables older newer key ≠ some TOMBSTONE) := by
  constructor
  · rintro ⟨horderly, hfresh, hlive⟩
    have h := (sound_lives horderly hrun).toLayered
    exact (h.reclaims_iff_live hmany hsplit hfresh).mpr hlive
  · intro horderly hfresh hreclaims
    have h := (sound_lives horderly hrun).toLayered
    exact (h.reclaims_iff_live hmany hsplit hfresh).mp hreclaims

/-- Five tables, the first two made by a write of `a` and by `op`, and a restart. -/
def fiveWrites (op : Op) : List LifeEvent :=
  [.call ⟨.set (ascii "a") (ascii "1"), Env.calm 11⟩, .call ⟨op, Env.calm 12⟩,
    .call ⟨.set (ascii "c") (ascii "1"), Env.calm 13⟩, .restart 1 1 (Env.calm 14),
    .call ⟨.set (ascii "d") (ascii "1"), Env.calm 14⟩,
    .call ⟨.set (ascii "e") (ascii "1"), Env.calm 15⟩]

theorem reclaims_iff_nothing_deleted :
    ∃ e older newer, Machine.run lifeStep (start [] 1 1)
        (fiveWrites (.set (ascii "b") (ascii "1"))) = some e ∧ Reclaims e older newer 16 := by
  have horderly : Machine.Along lifeStep OrderlyLife (start [] 1 1)
      (fiveWrites (.set (ascii "b") (ascii "1"))) := by decide +kernel
  have hfacts : (Machine.run lifeStep (start [] 1 1)
      (fiveWrites (.set (ascii "b") (ascii "1")))).map (fun e => (e.sstables.length,
        decide (compactedPath e.dataDir 16 ∉ e.sstables.map SSTable.path))) = some (5, true) := by
    decide +kernel
  have htables : (Machine.run lifeStep (start [] 1 1)
      (fiveWrites (.set (ascii "b") (ascii "1")))).map (fun e =>
        (e.sstables.take 2).map fun table => table.readAll e.disk.tables) =
      some [[(ascii "a", ascii "1")], [(ascii "b", ascii "1")]] := by decide +kernel
  rcases Option.map_eq_some_iff.mp hfacts with ⟨e, hrun, heq⟩
  rw [hrun] at htables
  have hread : (e.sstables.take 2).map (fun table => table.readAll e.disk.tables) =
      [[(ascii "a", ascii "1")], [(ascii "b", ascii "1")]] := Option.some.inj htables
  rcases Prod.mk.inj heq with ⟨hlen, hnew⟩
  have hfresh := of_decide_eq_true hnew
  rcases exists_two_oldest (show 4 < e.sstables.length by omega) with
    ⟨older, newer, staying, hsplit⟩
  rw [hsplit] at hread
  simp only [List.take_succ_cons, List.take_zero, List.map_cons, List.map_nil, List.cons.injEq,
    and_true] at hread
  refine ⟨e, older, newer, hrun, ?_⟩
  refine (reclaims_iff hrun (by omega) hsplit 16).1 ⟨horderly, hfresh, ?_⟩
  intro key hmark
  unfold winning tableMap at hmark
  rw [hread.1, hread.2] at hmark
  -- the two values are there to be looked at
  rcases Option.or_eq_some_iff.mp hmark with hmark | ⟨-, hmark⟩
  · have hmem := List.mem_singleton.mp (Assoc.mem_of_get hmark)
    exact absurd (Prod.mk.inj hmem).2 (by decide)
  · have hmem := List.mem_singleton.mp (Assoc.mem_of_get hmark)
    exact absurd (Prod.mk.inj hmem).2 (by decide)

/-- The deletion mark of `a` is copied into the merged table, below which
there is nothing that it could hide. -/
theorem deleted_key_not_reclaimed :
    ∃ e older newer staying, Machine.Along lifeStep OrderlyLife (start [] 1 1)
        (fiveWrites (.del (ascii "a"))) ∧
      Machine.run lifeStep (start [] 1 1) (fiveWrites (.del (ascii "a"))) = some e ∧
      e.sstables = older :: newer :: staying ∧ 4 < e.sstables.length ∧
      ((e.compact 16 Device.sound).sstables.map fun table =>
        table.readAll (e.compact 16 Device.sound).disk.tables).head? =
          some [(ascii "a", TOMBSTONE)] ∧
      ¬ Reclaims e older newer 16 := by
  have horderly : Machine.Along lifeStep OrderlyLife (start [] 1 1)
      (fiveWrites (.del (ascii "a"))) := by decide +kernel
  have hfacts : (Machine.run lifeStep (start [] 1 1)
      (fiveWrites (.del (ascii "a")))).map (fun e => (e.sstables.length,
        ((e.compact 16 Device.sound).sstables.map fun table =>
          table.readAll (e.compact 16 Device.sound).disk.tables).head?)) =
      some (5, some [(ascii "a", TOMBSTONE)]) := by decide +kernel
  rcases Option.map_eq_some_iff.mp hfacts with ⟨e, hrun, heq⟩
  rcases Prod.mk.inj heq with ⟨hlen, hhead⟩
  rcases exists_two_oldest (show 4 < e.sstables.length by omega) with
    ⟨older, newer, staying, hsplit⟩
  refine ⟨e, older, newer, staying, horderly, hrun, hsplit, by omega, hhead, ?_⟩
  rintro ⟨merged, staying', hmerged, hlive, -⟩
  rw [hmerged] at hhead
  have hread : merged.readAll (e.compact 16 Device.sound).disk.tables =
      [(ascii "a", TOMBSTONE)] := Option.some.inj hhead
  have hmem : (ascii "a", TOMBSTONE) ∈ merged.readAll (e.compact 16 Device.sound).disk.tables := by
    rw [hread]
    exact List.mem_singleton.mpr rfl
  exact ((hlive _ _).mp hmem).2 rfl

end LSMEngine

end VaultDB
