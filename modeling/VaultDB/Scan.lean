import VaultDB.Library.Sparse
import VaultDB.Refinement

/-! # What a lookup reads

`SSTable::get` opens the file at the entry that the sparse index names and
reads on. The index has every 100th key, so a lookup reads 101 entries of a
table at most, however many the table has: the 100 up to the next indexed key,
and that one (`counted_le`). The search of `get` reads that much of each table
that its Bloom filter does not rule out, in every state of every run
(`reads_bounded`).
-/

namespace VaultDB

open Text Codec FileStream

namespace SSTable

/-- The scan of `get`, with the number of entries it reads. -/
def scanCounted : Nat → IFStream → Bytes → Option Bytes × Nat
  | 0, _, _ => (none, 0)
  | fuel + 1, file, key =>
    match readTurn file with
    | none => (none, 0)
    | some (entryKey, entryVal, file) =>
      if entryKey = key then (some entryVal, 1)
      else if entryKey > key then (none, 1)
      else
        let (found, turns) := scanCounted fuel file key
        (found, turns + 1)

/-- `get`, with the number of entries it reads. -/
def getCounted (table : SSTable) (files : Files) (key : Bytes) : Option Bytes × Nat :=
  if ¬ table.bloomFilter.mightContain key then (none, 0)
  else if table.sparseIndex.isEmpty then (none, 0)
  else
    match Assoc.get table.path files with
    | none => (none, 0)
    | some content =>
      let file := (IFStream.openFile content).seekg (startOffset table.sparseIndex key)
      scanCounted (content.length + 1) file key

theorem scanCounted_fst (fuel : Nat) (file : IFStream) (key : Bytes) :
    (scanCounted fuel file key).1 = scanLoop fuel file key := by
  induction fuel generalizing file with
  | zero => rfl
  | succ fuel ih =>
      unfold scanCounted scanLoop
      cases readTurn file with
      | none => rfl
      | some turn =>
          obtain ⟨entryKey, entryVal, file'⟩ := turn
          dsimp only
          split_ifs
          · rfl
          · rfl
          · exact ih file'

theorem getCounted_fst (table : SSTable) (files : Files) (key : Bytes) :
    (table.getCounted files key).1 = table.get files key := by
  unfold getCounted get
  by_cases hbloom : ¬ table.bloomFilter.mightContain key
  · rw [if_pos hbloom, if_pos hbloom]
  rw [if_neg hbloom, if_neg hbloom]
  by_cases hindex : table.sparseIndex.isEmpty
  · rw [if_pos hindex, if_pos hindex]
  rw [if_neg hindex, if_neg hindex]
  cases hfile : Assoc.get table.path files with
  | none => rfl
  | some content => exact scanCounted_fst _ _ _

/-! ## One table -/

/-- The scan reads up to the key or the first greater one. -/
theorem scanCounted_snd {b : Bytes} {file : IFStream} (hb : file.Before b) {fuel : Nat}
    (hfuel : b.length < fuel) (key : Bytes) :
    (scanCounted fuel file key).2 = Sparse.steps key ((entryReader.all b).map Prod.fst) := by
  induction fuel generalizing b file with
  | zero => omega
  | succ fuel ih =>
      unfold scanCounted
      rcases readTurn_spec hb with ⟨entry, r, file', hnext, hturn, hb'⟩ | ⟨hnext, hturn⟩
      · have hlt := entryReader.length_lt hnext
        have hrest := ih hb' (by omega)
        rw [entryReader.all_of_some hnext]
        simp only [hturn, List.map_cons, Sparse.steps]
        by_cases heq : entry.1 = key
        · rw [if_pos heq, if_neg (heq ▸ lt_irrefl _)]
        · rw [if_neg heq]
          by_cases hgt : entry.1 > key
          · rw [if_pos hgt, if_neg (not_lt_of_gt hgt)]
          · rw [if_neg hgt, if_pos (lt_of_le_of_ne (not_lt.mp hgt) heq)]
            exact congrArg (· + 1) hrest
      · rw [entryReader.all_of_none hnext]
        simp only [hturn]
        rfl

/-- The entry of the index for a located entry. -/
def indexed (located : Entry × Nat) : SparseIndexEntry := ⟨located.1.1, (located.2 : Nat)⟩

/-- The index is a sample of the entries. -/
theorem sampleIndex_eq (count : Nat) (located : List (Entry × Nat)) :
    sampleIndex count located =
      (Sparse.sample 100 ((100 - count % 100) % 100) located).map indexed := by
  induction located generalizing count with
  | nil =>
      unfold sampleIndex
      cases (100 - count % 100) % 100 <;> rfl
  | cons loc located ih =>
      obtain ⟨entry, offset⟩ := loc
      unfold sampleIndex
      by_cases hcount : count % 100 = 0
      · have hzero : (100 - count % 100) % 100 = 0 := by omega
        have hnext : (100 - (count + 1) % 100) % 100 = 99 := by omega
        rw [if_pos hcount, hzero, ih, hnext]
        rfl
      · obtain ⟨d, hd⟩ : ∃ d, (100 - count % 100) % 100 = d + 1 :=
          ⟨(100 - count % 100) % 100 - 1, by omega⟩
        have hnext : (100 - (count + 1) % 100) % 100 = d := by omega
        rw [if_neg hcount, hd, ih, hnext]
        rfl

theorem startOffset_eq (located : List (Entry × Nat)) (key : Bytes) :
    startOffset (sampleIndex 0 located) key =
      ((Sparse.start (fun e => e.1.1) key (Sparse.sample 100 0 located)).elim 0
        fun e => (e.2 : Int)) := by
  have hlast : ((sampleIndex 0 located).takeWhile fun entry => ¬ key < entry.key).getLast? =
      (Sparse.start (fun e => e.1.1) key (Sparse.sample 100 0 located)).map indexed := by
    have hsample := sampleIndex_eq 0 located
    rw [Nat.zero_mod, Nat.sub_zero, Nat.mod_self] at hsample
    unfold Sparse.start
    rw [hsample, List.takeWhile_map, List.getLast?_map]
    congr 3
    funext a
    exact decide_eq_decide.mpr Iff.rfl
  unfold startOffset
  rw [hlast]
  cases Sparse.start (fun e => e.1.1) key (Sparse.sample 100 0 located) with
  | none => rfl
  | some e => rfl

/-- From the offset of the index on, at most 101 entries are read. -/
theorem scanCounted_le {content : Bytes} (hsorted : Assoc.Sorted (entryReader.all content))
    (key : Bytes) :
    (scanCounted (content.length + 1) ((IFStream.openFile content).seekg
      (startOffset (sampleIndex 0 (entryReader.located content 0)) key)) key).2 ≤ 101 := by
  have hlocated := entryReader.map_fst_located content 0
  have hpairs : (entryReader.located content 0).Pairwise fun a b => a.1.1 < b.1.1 := by
    rw [← hlocated] at hsorted
    have hkeys := List.pairwise_map.mp hsorted
    exact hkeys
  rw [startOffset_eq]
  rcases Sparse.exists_start hpairs key 100 0 with
    ⟨hnone, hgreater⟩ | ⟨pre, loc, post, hsome, hsplit, -, hgreater⟩
  · -- no key of the index is below: the first entry is greater already
    have hat := IFStream.at_seekg_openFile content 0
    rw [List.drop_zero] at hat
    rw [hnone, Option.elim_none]
    have hcount := scanCounted_snd (Or.inl hat) (Nat.lt_succ_self _) key
    rw [← hlocated, List.map_map] at hcount
    refine (hcount.trans_le (Sparse.steps_le_of_drop (m := 0) ?_)).trans (by omega)
    intro b hb
    rcases List.mem_map.mp hb with ⟨a, ha, rfl⟩
    exact hgreater a ha
  · have hat := IFStream.at_seekg_openFile content loc.2
    rcases entryReader.all_drop_located hsplit with ⟨-, hdrop⟩
    rw [Nat.sub_zero] at hdrop
    have hlen : (content.drop loc.2).length < content.length + 1 := by
      rw [List.length_drop]
      omega
    have hcount := scanCounted_snd (Or.inl hat) hlen key
    rw [hdrop, List.map_cons, List.map_map] at hcount
    rw [hsome, Option.elim_some]
    refine hcount.trans_le (Sparse.steps_le_of_drop (m := 100) ?_)
    intro b hb
    rw [List.drop_succ_cons, ← List.map_drop] at hb
    rcases List.mem_map.mp hb with ⟨a, ha, rfl⟩
    exact hgreater a ha

theorem counted_le {files : Files} {table : SSTable} (h : Backed files table) (key : Bytes) :
    (table.getCounted files key).2 ≤ 101 := by
  rcases h with ⟨content, hfile, htable, hsorted⟩
  have hindex := congrArg SSTable.sparseIndex htable
  unfold getCounted
  by_cases hbloom : ¬ table.bloomFilter.mightContain key
  · rw [if_pos hbloom]
    exact Nat.zero_le _
  rw [if_neg hbloom]
  by_cases hempty : table.sparseIndex.isEmpty
  · rw [if_pos hempty]
    exact Nat.zero_le _
  rw [if_neg hempty, hindex]
  simp only [hfile]
  exact scanCounted_le hsorted key

end SSTable

namespace LSMEngine

/-- `searchTables`, with the number of entries it reads. -/
def searchCounted (files : Files) (key : Bytes) :
    List SSTable → UInt64 → (Option Bytes × UInt64) × Nat
  | [], saved => ((none, saved), 0)
  | table :: older, saved =>
    if ¬ table.bloomMightContain key then searchCounted files key older (saved + 1)
    else
      match table.getCounted files key with
      | (some value, turns) => ((some value, saved), turns)
      | (none, turns) =>
        let (found, more) := searchCounted files key older saved
        (found, turns + more)

theorem searchCounted_fst (files : Files) (key : Bytes) (tables : List SSTable) (saved : UInt64) :
    (searchCounted files key tables saved).1 = searchTables files key tables saved := by
  induction tables generalizing saved with
  | nil => rfl
  | cons table older ih =>
      have hget := SSTable.getCounted_fst table files key
      unfold searchCounted searchTables
      by_cases hbloom : ¬ table.bloomMightContain key
      · rw [if_pos hbloom, if_pos hbloom]
        exact ih (saved + 1)
      rw [if_neg hbloom, if_neg hbloom, ← hget]
      rcases table.getCounted files key with ⟨found, turns⟩
      cases found with
      | some value => rfl
      | none => exact ih saved

/-- The tables whose filter lets the key through. -/
def candidates (key : Bytes) (tables : List SSTable) : Nat :=
  tables.countP fun table => table.bloomMightContain key

theorem searchCounted_snd_le {files : Files} {tables : List SSTable}
    (h : ∀ table ∈ tables, Backed files table) (key : Bytes) (saved : UInt64) :
    (searchCounted files key tables saved).2 ≤ 101 * candidates key tables := by
  induction tables generalizing saved with
  | nil => exact Nat.zero_le _
  | cons table older ih =>
      have hrest := ih fun t ht => h t (List.mem_cons_of_mem _ ht)
      have htable := SSTable.counted_le (h table List.mem_cons_self) key
      unfold searchCounted
      by_cases hbloom : ¬ table.bloomMightContain key
      · have hsame : candidates key (table :: older) = candidates key older :=
          List.countP_cons_of_neg hbloom
        rw [if_pos hbloom, hsame]
        exact hrest (saved + 1)
      have hone : candidates key (table :: older) = candidates key older + 1 :=
        List.countP_cons_of_pos (not_not.mp hbloom)
      rw [if_neg hbloom, hone, Nat.mul_succ]
      have hmore := hrest saved
      rcases hcount : table.getCounted files key with ⟨found, turns⟩
      rw [hcount] at htable
      cases found with
      | some value => exact le_trans htable (Nat.le_add_left _ _)
      | none => exact (Nat.add_le_add htable hmore).trans_eq (Nat.add_comm _ _)

/-- On sound devices, with lengths that fit and no name used twice: after every
run the search of `get` finds what the newest file that has the key holds, and
reads at most 101 entries of each table whose filter lets the key through,
however large the tables are. -/
theorem reads_bounded {dataDir : Bytes} {cacheSize : Nat} {threshold : UInt64}
    {evs : List Event} {e : LSMEngine} (hio : ∀ ev ∈ evs, NoIoError ev)
    (hfits : ∀ ev ∈ evs, OpFits ev.op)
    (hnames : (Machine.trace LSMEngine.step nameReadings (start dataDir cacheSize threshold)
      evs).Nodup)
    (hrun : Machine.run LSMEngine.step (start dataDir cacheSize threshold) evs = some e)
    (key : Bytes) :
    ∃ entries, searchCounted e.disk.tables key e.sstables.reverse e.bloomSaved =
        (searchTables e.disk.tables key e.sstables.reverse e.bloomSaved, entries) ∧
      (searchTables e.disk.tables key e.sstables.reverse e.bloomSaved).1 =
        onDisk e.disk.tables e.sstables key ∧
      entries ≤ 101 * candidates key e.sstables ∧
      ∀ table ∈ e.sstables, (table.getCounted e.disk.tables key).2 ≤ 101 := by
  have hbacked := (sound_run (along_orderly hio hfits hnames) hrun).stored.backed
  have hle := searchCounted_snd_le
    (fun table htable => hbacked table (List.mem_reverse.mp htable)) key e.bloomSaved
  have hsame : candidates key e.sstables.reverse = candidates key e.sstables :=
    List.countP_reverse
  rw [hsame] at hle
  refine ⟨_, ?_, searchTables_eq hbacked key e.bloomSaved, hle, ?_⟩
  · rw [← searchCounted_fst]
  · intro table htable
    exact SSTable.counted_le (hbacked table htable) key

/-- Two writes that each fill the memtable: the older key is read from the older
table, behind a newer one that its filter rules out or that is read too. -/
theorem reads_bounded_twoTables :
    ∃ e, Machine.run LSMEngine.step (start [] 2 1)
        [⟨.set (ascii "a") (ascii "1"), Env.calm 1⟩,
          ⟨.set (ascii "b") (ascii "2"), Env.calm 2⟩] = some e ∧
      ∃ entries, searchCounted e.disk.tables (ascii "a") e.sstables.reverse e.bloomSaved =
          (searchTables e.disk.tables (ascii "a") e.sstables.reverse e.bloomSaved, entries) ∧
        (searchTables e.disk.tables (ascii "a") e.sstables.reverse e.bloomSaved).1 =
          onDisk e.disk.tables e.sstables (ascii "a") ∧
        entries ≤ 101 * candidates (ascii "a") e.sstables ∧
        ∀ table ∈ e.sstables, (table.getCounted e.disk.tables (ascii "a")).2 ≤ 101 := by
  have hio : ∀ ev ∈ [(⟨.set (ascii "a") (ascii "1"), Env.calm 1⟩ : Event),
      ⟨.set (ascii "b") (ascii "2"), Env.calm 2⟩], NoIoError ev := by decide
  have hfits : ∀ ev ∈ [(⟨.set (ascii "a") (ascii "1"), Env.calm 1⟩ : Event),
      ⟨.set (ascii "b") (ascii "2"), Env.calm 2⟩], OpFits ev.op := by decide
  have hnames : (Machine.trace LSMEngine.step nameReadings (start [] 2 1)
      [⟨.set (ascii "a") (ascii "1"), Env.calm 1⟩,
        ⟨.set (ascii "b") (ascii "2"), Env.calm 2⟩]).Nodup := by decide +kernel
  obtain ⟨e, hrun⟩ := run_isSome (by decide) (along_orderly hio hfits hnames)
  exact ⟨e, hrun, reads_bounded hio hfits hnames hrun (ascii "a")⟩

end LSMEngine

end VaultDB
