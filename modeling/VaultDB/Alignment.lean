import VaultDB.LogDecoding
import VaultDB.Reload
import VaultDB.Values

/-! # Values without a newline

What is stored comes from the words of a command line, so no value on any layer
contains a newline; but a table file holds length fields, which may. A read
stays clear of them as long as every offset in the index of a live table is the
start of an entry of its file. `Aligned` is this invariant. A step keeps it
unless it writes a file at the path of a live table whose index does not fit
the new content (`Unharmed`), which takes two files with one name.
-/

namespace VaultDB

open Text Codec FileStream SSTable

/-- The text has no newline. -/
def OneLine (s : Bytes) : Prop := 10 ∉ s

instance (s : Bytes) : Decidable (OneLine s) := inferInstanceAs (Decidable (¬ _))

theorem OneLine.subset {s t : Bytes} (h : OneLine t) (hsub : s ⊆ t) : OneLine s :=
  fun hmem => h (hsub hmem)

/-- A payload is a part of the value that carries it. -/
theorem payload_subset {value payload : Bytes} {expiryMs : Int}
    (h : parseExpiry value = some (expiryMs, payload)) : payload ⊆ value := by
  unfold parseExpiry at h
  split_ifs at h
  dsimp only at h
  split at h
  · cases h
  · split at h
    · cases h
    · simp only [Option.some.injEq, Prod.mk.injEq] at h
      rw [← h.2]
      exact List.drop_subset _ _

theorem valueClass_oneLine : ValueClass OneLine :=
  ⟨by decide, fun hvalue hparse => hvalue.subset (payload_subset hparse)⟩

namespace SSTable

/-! ## Entries as they are written -/

/-- The entry as it is written. -/
def clipEntry (entry : Entry) : Entry := (WAL.clipped entry.1, WAL.clipped entry.2)

theorem fits_clipEntry (entry : Entry) : EntryFits (clipEntry entry) :=
  ⟨WAL.fits_clipped entry.1, WAL.fits_clipped entry.2⟩

theorem encodeEntry_clip (entry : Entry) : encodeEntry (clipEntry entry) = encodeEntry entry := by
  have hkey := WAL.length_clipped entry.1
  have hvalue := WAL.length_clipped entry.2
  unfold encodeEntry clipEntry
  simp only [hkey, hvalue, Nat.mod_mod]
  rw [List.take_of_length_le (by rw [hkey]), List.take_of_length_le (by rw [hvalue])]
  rfl

theorem encodeEntries_clip (entries : List Entry) :
    encodeEntries (entries.map clipEntry) = encodeEntries entries := by
  unfold encodeEntries
  rw [List.flatMap_map]
  simp only [encodeEntry_clip]

theorem encodeEntries_append (front back : List Entry) :
    encodeEntries (front ++ back) = encodeEntries front ++ encodeEntries back :=
  List.flatMap_append

/-- A file made of whole entries whose values have no newline. -/
def Clean (content : Bytes) : Prop :=
  ∃ entries : List Entry, content = encodeEntries entries ∧
    ∀ entry ∈ entries, EntryFits entry ∧ OneLine entry.2

theorem clean_encodeEntries {entries : List Entry} (h : ∀ entry ∈ entries, OneLine entry.2) :
    Clean (encodeEntries entries) := by
  refine ⟨entries.map clipEntry, (encodeEntries_clip entries).symm, ?_⟩
  intro entry hentry
  rcases List.mem_map.mp hentry with ⟨entry', hentry', rfl⟩
  exact ⟨fits_clipEntry entry', (h entry' hentry').subset (List.take_subset _ _)⟩

theorem Clean.all {content : Bytes} (h : Clean content) :
    ∀ entry ∈ entryReader.all content, OneLine entry.2 := by
  rcases h with ⟨entries, rfl, hentries⟩
  rw [all_encodeEntries fun entry hentry => (hentries entry hentry).1]
  exact fun entry hentry => (hentries entry hentry).2

/-! ## Offsets -/

/-- The offset is the start of an entry of the file, or its end. -/
def EntryStart (content : Bytes) (offset : Int) : Prop :=
  ∃ front back : List Entry, content = encodeEntries (front ++ back) ∧
    offset = ((encodeEntries front).length : Int)

/-- Every offset in the table's index is the start of an entry of the file. -/
def Fitting (table : SSTable) (content : Bytes) : Prop :=
  ∀ e ∈ table.sparseIndex, EntryStart content e.offset

/-- What is read from the start of an entry on is a part of the file's entries. -/
theorem EntryStart.all_drop {content : Bytes} {offset : Int} (h : EntryStart content offset) :
    ∃ n : Nat, offset = n ∧
      ∀ entry ∈ entryReader.all (content.drop n), entry ∈ entryReader.all content := by
  rcases h with ⟨front, back, hcontent, hoffset⟩
  refine ⟨(encodeEntries front).length, hoffset, ?_⟩
  have hfits : ∀ es : List Entry, ∀ entry ∈ es.map clipEntry, EntryFits entry := by
    intro es entry hentry
    rcases List.mem_map.mp hentry with ⟨entry', -, rfl⟩
    exact fits_clipEntry entry'
  have hdrop : content.drop (encodeEntries front).length = encodeEntries back := by
    rw [hcontent, encodeEntries_append, List.drop_left]
  rw [hdrop, hcontent, ← encodeEntries_clip back, ← encodeEntries_clip (front ++ back),
    all_encodeEntries (hfits back), all_encodeEntries (hfits (front ++ back)), List.map_append]
  intro entry hentry
  exact List.mem_append_right _ hentry

/-- The scan returns the value of an entry that the reader reads. -/
theorem mem_of_scanLoop {b : Bytes} {file : IFStream} (hb : file.Before b) {fuel : Nat}
    {key value : Bytes} (h : scanLoop fuel file key = some value) :
    ∃ entry ∈ entryReader.all b, entry.2 = value := by
  induction fuel generalizing b file with
  | zero => cases h
  | succ fuel ih =>
      unfold scanLoop at h
      rcases readTurn_spec hb with ⟨entry, r, file', hnext, hturn, hb'⟩ | ⟨-, hturn⟩
      · simp only [hturn] at h
        rw [entryReader.all_of_some hnext]
        split_ifs at h
        · exact ⟨entry, List.mem_cons_self, Option.some.inj h⟩
        · rcases ih hb' h with ⟨entry', hmem, hvalue⟩
          exact ⟨entry', List.mem_cons_of_mem _ hmem, hvalue⟩
      · simp only [hturn] at h
        cases h

theorem startOffset_mem (index : List SparseIndexEntry) (key : Bytes) :
    startOffset index key = 0 ∨ ∃ e ∈ index, startOffset index key = e.offset := by
  unfold startOffset
  cases hlast : (index.takeWhile fun entry => ¬ key < entry.key).getLast? with
  | none => exact Or.inl rfl
  | some e =>
      exact Or.inr ⟨e, (List.takeWhile_sublist _).subset (List.mem_of_getLast? hlast), rfl⟩

/-- A table that fits its clean file returns values without a newline, whatever
keys it was made for. -/
theorem oneLine_of_get {table : SSTable} {files : Files}
    (hclean : ∀ content, Assoc.get table.path files = some content → Clean content)
    (hfitting : ∀ content, Assoc.get table.path files = some content → Fitting table content)
    {key value : Bytes} (hget : table.get files key = some value) : OneLine value := by
  unfold SSTable.get at hget
  split_ifs at hget
  cases hfile : Assoc.get table.path files with
  | none =>
      rw [hfile] at hget
      cases hget
  | some content =>
      simp only [hfile] at hget
      rcases startOffset_mem table.sparseIndex key with hzero | ⟨e, he, hoffset⟩
      · rw [hzero] at hget
        have hat := IFStream.at_seekg_openFile content 0
        rcases mem_of_scanLoop (Or.inl hat) hget with ⟨entry, hentry, rfl⟩
        exact (hclean content hfile).all entry hentry
      · rcases (hfitting content hfile e he).all_drop with ⟨n, hn, hsub⟩
        rw [hoffset, hn] at hget
        have hat := IFStream.at_seekg_openFile content n
        rcases mem_of_scanLoop (Or.inl hat) hget with ⟨entry, hentry, rfl⟩
        exact (hclean content hfile).all entry (hsub entry hentry)

/-- The offsets that `flush` records are starts of the entries it writes. -/
theorem mem_flushLoop_index {entries : List Entry} {count : Nat} {content : Bytes}
    {index : List SparseIndexEntry} {bloom : BloomFilter} {e : SparseIndexEntry}
    (h : e ∈ (flushLoop entries count ⟨content, none, false⟩ index bloom).2.1) :
    e ∈ index ∨ ∃ front back, entries = front ++ back ∧
      e.offset = ((content ++ encodeEntries front).length : Int) := by
  induction entries generalizing count content index bloom with
  | nil => exact Or.inl h
  | cons entry entries ih =>
      have hwrite := writeEntry_eq ⟨content, none, false⟩ entry
      unfold flushLoop at h
      simp only [hwrite, OFStream.write_sound] at h
      rcases ih h with hindex | ⟨front, back, rfl, hoffset⟩
      · split_ifs at hindex
        · rcases List.mem_append.mp hindex with hindex | hindex
          · exact Or.inl hindex
          · -- recorded in front of this entry
            rw [List.mem_singleton.mp hindex]
            refine Or.inr ⟨[], entry :: entries, rfl, ?_⟩
            simp [encodeEntries, OFStream.tellp]
        · exact Or.inl hindex
      · refine Or.inr ⟨entry :: front, back, rfl, ?_⟩
        rw [hoffset, List.append_assoc]
        rfl

theorem fitting_flush (table : SSTable) (files : Files) (entries : List Entry) :
    Fitting (table.flush Device.sound files entries).1 (encodeEntries entries) := by
  intro e he
  rcases mem_flushLoop_index he with hnil | ⟨front, back, rfl, hoffset⟩
  · cases hnil
  · exact ⟨front, back, rfl, hoffset⟩

/-- The object left of writing entries to a path fits what is then there. -/
theorem fitting_flushedTo (files files' : Files) (path : Bytes) (entries : List Entry) :
    ∀ content, Assoc.get (flushedTo Device.sound files path entries).path
        (Assoc.put path (encodeEntries entries) files') = some content →
      Fitting (flushedTo Device.sound files path entries) content := by
  intro content hfile
  rw [path_flushedTo, Assoc.get_put_self] at hfile
  rw [← Option.some.inj hfile]
  exact fitting_flush _ _ _

/-- The offsets that opening a file records are starts of its entries. -/
theorem fitting_new {files : Files} {path content : Bytes}
    (hfile : Assoc.get path files = some content) (hclean : Clean content) :
    Fitting (new files path) content := by
  rcases hclean with ⟨entries, rfl, hentries⟩
  have hfits : ∀ entry ∈ entries, EntryFits entry := fun entry hentry => (hentries entry hentry).1
  -- opening gives the object that writing gives
  have hflush := congrArg Prod.fst (flush_eq ⟨path, [], BloomFilter.new 1, 0⟩ files hfits)
  rw [new_eq hfile]
  have hfitting := fitting_flush ⟨path, [], BloomFilter.new 1, 0⟩ files entries
  rw [hflush] at hfitting
  exact hfitting

end SSTable

namespace LSMEngine

/-! ## The invariant -/

/-- No value on any layer contains a newline, and every live table whose file is
there fits it. -/
structure Aligned (e : LSMEngine) : Prop where
  holding : Holding OneLine e
  logOpen : e.wal.failbit = false
  log : ∃ records, e.disk.walLog = WAL.encodeAll records ∧
    ∀ r ∈ records, WAL.RecordFits r ∧ OneLine r.value
  files : ∀ p ∈ e.disk.tables, Clean p.2
  tables : ∀ t ∈ e.sstables, ∀ content, Assoc.get t.path e.disk.tables = some content →
    Fitting t content

theorem Aligned.clean {e : LSMEngine} (h : Aligned e) {path content : Bytes}
    (hfile : Assoc.get path e.disk.tables = some content) : Clean content :=
  h.files _ (Assoc.mem_of_get hfile)

theorem oneLine_of_searchTables {files : Files} {key value : Bytes} {tables : List SSTable}
    {saved : UInt64} (h : (searchTables files key tables saved).1 = some value)
    (htables : ∀ t ∈ tables, ∀ v, t.get files key = some v → OneLine v) : OneLine value := by
  induction tables generalizing saved with
  | nil => cases h
  | cons table tables ih =>
      have hrest : ∀ t ∈ tables, ∀ v, t.get files key = some v → OneLine v :=
        fun t ht => htables t (List.mem_cons_of_mem _ ht)
      unfold searchTables at h
      by_cases hbloom : table.bloomMightContain key = true
      · rw [if_neg (not_not.mpr hbloom)] at h
        cases hget : table.get files key with
        | none =>
            rw [hget] at h
            exact ih h hrest
        | some v =>
            rw [hget] at h
            rw [← Option.some.inj h]
            exact htables table List.mem_cons_self v hget
      · rw [if_pos hbloom] at h
        exact ih h hrest

/-- What the tables answer has no newline. -/
theorem Aligned.searchTables {e : LSMEngine} (h : Aligned e) (key : Bytes) :
    ∀ v, (searchTables e.disk.tables key e.sstables.reverse e.bloomSaved).1 = some v →
      OneLine v := by
  intro v hv
  apply oneLine_of_searchTables hv
  intro t ht w hw
  exact oneLine_of_get (fun content hfile => h.clean hfile)
    (h.tables t (List.mem_reverse.mp ht)) hw

/-- What compaction reads has no newline. -/
theorem Aligned.readAll {e : LSMEngine} (h : Aligned e) (table : SSTable) :
    ∀ entry ∈ table.readAll e.disk.tables, OneLine entry.2 := by
  intro entry hentry
  cases hfile : Assoc.get table.path e.disk.tables with
  | none =>
      unfold SSTable.readAll at hentry
      rw [hfile] at hentry
      cases hentry
  | some content =>
      rw [readAll_eq hfile] at hentry
      exact (h.clean hfile).all entry hentry

theorem Aligned.mergeEntries {e : LSMEngine} (h : Aligned e) (older newer : SSTable) :
    ∀ entry ∈ mergeEntries (older.readAll e.disk.tables) (newer.readAll e.disk.tables),
      OneLine entry.2 := by
  intro entry hentry
  rcases mem_mergeEntries hentry with hentry | hentry
  · exact h.readAll older entry hentry
  · exact h.readAll newer entry hentry

/-! ## Steps -/

/-- The tables that are live before and after an operation. -/
def stayingTables (e : LSMEngine) : Op → List SSTable
  | .compact => e.sstables.drop 2
  | _ => e.sstables

/-- A step that writes a table file over that of a live table writes one that
the live table fits. -/
def Unharmed (e : LSMEngine) (ev : Event) : Prop :=
  writesTable e ev.op = true → ∀ t ∈ stayingTables e ev.op, t.path = outputPath e ev →
    Fitting t (encodeEntries (outputEntries e ev.op))

theorem stayingTables_subset (e : LSMEngine) (op : Op) : stayingTables e op ⊆ e.sstables := by
  unfold stayingTables
  split
  · exact List.drop_subset _ _
  · exact List.Subset.refl _

/-- A file with a name of its own does no harm. -/
theorem unharmed_of_fresh {e : LSMEngine} {ev : Event} (h : Fresh e ev) : Unharmed e ev := by
  intro hwrites t ht hpath
  have hlive := List.mem_map_of_mem (stayingTables_subset e ev.op ht) (f := SSTable.path)
  rw [hpath] at hlive
  exact absurd hlive (h hwrites)

/-- A file written among those of the live tables. -/
theorem fitting_put {files : Files} {path : Bytes} {entries : List Entry} {t : SSTable}
    (hbefore : ∀ content, Assoc.get t.path files = some content → Fitting t content)
    (hsame : t.path = path → Fitting t (encodeEntries entries)) :
    ∀ content, Assoc.get t.path (Assoc.put path (encodeEntries entries) files) = some content →
      Fitting t content := by
  intro content hfile
  by_cases hpath : t.path = path
  · rw [hpath, Assoc.get_put_self] at hfile
    rw [← Option.some.inj hfile]
    exact hsame hpath
  · rw [Assoc.get_put_ne hpath] at hfile
    exact hbefore content hfile

/-- A flush. -/
theorem Aligned.flushMemtable {e : LSMEngine} (h : Aligned e) {now : Nat}
    (hsafe : ∀ t ∈ e.sstables, t.path = sstablePath e.dataDir now →
      Fitting t (encodeEntries e.memtable.data)) :
    Aligned (e.flushMemtable now Device.sound) := by
  by_cases hne : e.memtable.data = []
  · rw [flushMemtable_nil hne]
    exact h
  · rw [flushMemtable_files hne, putFile_sound]
    refine ⟨⟨h.holding.cache, ?_⟩, rfl, ⟨[], rfl, by simp⟩, ?_, ?_⟩
    · intro entry hentry
      cases hentry
    · intro p hp
      rcases Assoc.mem_put hp with rfl | hp
      · exact clean_encodeEntries h.holding.memtable
      · exact h.files p hp
    · intro t ht
      rcases List.mem_append.mp ht with ht | ht
      · exact fitting_put (h.tables t ht) (hsafe t ht)
      · rw [List.mem_singleton.mp ht]
        exact fitting_flushedTo _ _ _ _

theorem Aligned.flushIfFull {e : LSMEngine} (h : Aligned e) {now : Nat}
    (hsafe : e.memtable.isFull = true → ∀ t ∈ e.sstables, t.path = sstablePath e.dataDir now →
      Fitting t (encodeEntries e.memtable.data)) :
    Aligned (e.flushIfFull now Device.sound) := by
  unfold LSMEngine.flushIfFull
  by_cases hfull : e.memtable.isFull = true
  · rw [if_pos hfull]
    exact h.flushMemtable (hsafe hfull)
  · rw [if_neg hfull]
    exact h

/-- The counters do not matter. -/
theorem SameState.aligned {e e' : LSMEngine} (hsame : SameState e e') (h : Aligned e) :
    Aligned e' := by
  refine ⟨⟨?_, ?_⟩, ?_, ?_, ?_, ?_⟩
  · rw [hsame.cache]
    exact h.holding.cache
  · rw [hsame.memtable]
    exact h.holding.memtable
  · rw [hsame.wal]
    exact h.logOpen
  · rw [hsame.disk]
    exact h.log
  · rw [hsame.disk]
    exact h.files
  · rw [hsame.sstables, hsame.disk]
    exact h.tables

/-- The value an operation writes, if any, has no newline. -/
def OneLineOp : Op → Prop
  | .set _ value => OneLine value
  | _ => True

theorem Aligned.log_append {e : LSMEngine} (h : Aligned e) (stamp : Nat) (op : WALOp) (key : Bytes)
    {value : Bytes} (hvalue : OneLine value) :
    (e.wal.append e.disk.walLog none stamp op key value).1.failbit = false ∧
      ∃ records, (e.wal.append e.disk.walLog none stamp op key value).2 =
        WAL.encodeAll records ∧ ∀ r ∈ records, WAL.RecordFits r ∧ OneLine r.value := by
  rcases h.log with ⟨records, hlog, hrecords⟩
  rw [WAL.append_sound h.logOpen, hlog]
  refine ⟨rfl, records ++ [WAL.clip ⟨UInt64.ofNat stamp, op, key, value⟩], ?_, ?_⟩
  · rw [WAL.encodeAll_append, ← WAL.encode_clip]
    unfold WAL.encodeAll
    rw [List.flatMap_singleton]
  · intro r hr
    rcases List.mem_append.mp hr with hr | hr
    · exact hrecords r hr
    · rw [List.mem_singleton.mp hr]
      exact ⟨WAL.recordFits_clip _, hvalue.subset (List.take_subset _ _)⟩

/-- Up to its flush a write changes log, memtable and cache. -/
theorem Aligned.firstSteps {e e₁ : LSMEngine} (h : Aligned e) {ev : Event} (hio : NoIoError ev)
    (hop : OneLineOp ev.op) (hsteps : e.firstSteps ev = some e₁) : Aligned e₁ := by
  rcases ev with ⟨op, env⟩
  have hroom : env.logRoom = none := hio.1
  cases op with
  | set key value =>
      rcases setSteps_some hsteps with ⟨cache, hput, rfl⟩
      rw [hroom]
      rcases h.log_append env.stamp WALOp.SET key hop with ⟨hopen, hlog⟩
      exact ⟨⟨(h.holding.cache.put hop hput).1, h.holding.memtable.set hop⟩, hopen, hlog, h.files,
        h.tables⟩
  | del key =>
      rcases delSteps_some hsteps with ⟨b, cache, hremove, rfl⟩
      rcases h.holding.cache.remove key with ⟨b', cache', hremove', hkeeps, -⟩
      rw [hremove] at hremove'
      cases hremove'
      have hnil : OneLine [] := by decide
      rw [hroom]
      rcases h.log_append env.stamp WALOp.DELETE key hnil with ⟨hopen, hlog⟩
      exact ⟨⟨hkeeps, h.holding.memtable.set valueClass_oneLine.tombstone⟩, hopen, hlog, h.files,
        h.tables⟩
  | get key => cases hsteps
  | compact => cases hsteps

theorem stayingTables_of_ne {e : LSMEngine} {op : Op} (h : op ≠ .compact) :
    stayingTables e op = e.sstables := by
  unfold stayingTables
  split
  · exact absurd rfl h
  · rfl

/-- A compaction: the inputs are removed, and a table that stays keeps its file
or fits the one that is written over it. -/
theorem Aligned.compact {e : LSMEngine} (h : Aligned e) {now : Nat}
    (hsafe : 4 < e.sstables.length → ∀ t ∈ stayingTables e .compact,
      t.path = compactedPath e.dataDir now →
        Fitting t (encodeEntries (outputEntries e .compact))) :
    Aligned (e.compact now Device.sound) := by
  by_cases hmany : 4 < e.sstables.length
  · rcases exists_two_oldest hmany with ⟨older, newer, staying, hsplit⟩
    have hsafe' := hsafe hmany
    rw [outputEntries_compact hsplit] at hsafe'
    have hstaying : stayingTables e .compact = staying := by
      show e.sstables.drop 2 = staying
      rw [hsplit]
      rfl
    rw [hstaying] at hsafe'
    rw [compact_files hmany hsplit, putFile_sound]
    refine ⟨⟨h.holding.cache, h.holding.memtable⟩, h.logOpen, h.log, ?_, ?_⟩
    · intro p hp
      rcases Assoc.mem_put (Assoc.mem_of_mem_erase (Assoc.mem_of_mem_erase hp)) with rfl | hp
      · exact clean_encodeEntries (h.mergeEntries older newer)
      · exact h.files p hp
    · intro t ht content hcontent
      -- erasing files takes contents away and makes no new ones
      have hget := (Assoc.get_erase_eq_some_iff.mp (Assoc.get_erase_eq_some_iff.mp hcontent).2).2
      rcases List.mem_cons.mp ht with rfl | ht
      · exact fitting_flushedTo _ _ _ _ content hget
      · have hlive : t ∈ e.sstables := by
          rw [hsplit]
          exact List.mem_cons_of_mem _ (List.mem_cons_of_mem _ ht)
        exact fitting_put (h.tables t hlive) (hsafe' t ht) content hget
  · rw [compact_of_few hmany]
    exact h

/-- A read changes cache and memtable only, and its answer has no newline. -/
theorem Aligned.get {e e' : LSMEngine} (h : Aligned e) {key : Bytes} {now : Nat}
    {r : Option Bytes} (hget : e.get key now = some (r, e')) :
    Aligned e' ∧ ∀ v, r = some v → OneLine v := by
  have hframe := readFrame_get hget
  rcases h.holding.get valueClass_oneLine key (h.searchTables key) now with
    ⟨r', e'', hget', -, hholding, hr⟩ | ⟨hnone, -⟩
  · rw [hget] at hget'
    cases hget'
    refine ⟨⟨hholding, ?_, ?_, ?_, ?_⟩, hr⟩
    · rw [hframe.wal]
      exact h.logOpen
    · rw [hframe.disk]
      exact h.log
    · rw [hframe.disk]
      exact h.files
    · rw [hframe.disk, hframe.sstables]
      exact h.tables
  · rw [hget] at hnone
    cases hnone

/-- What a step needs to keep the invariant. -/
structure Careful (e : LSMEngine) (ev : Event) : Prop where
  io : NoIoError ev
  oneLine : OneLineOp ev.op
  unharmed : Unharmed e ev

theorem Aligned.step {e e' : LSMEngine} (h : Aligned e) {ev : Event} (hcareful : Careful e ev)
    (hstep : e.step ev = some e') : Aligned e' := by
  have hunharmed := hcareful.unharmed
  unfold Unharmed at hunharmed
  rcases firstSteps_of_step hstep with ⟨e₁, hsteps, hsame⟩ | ⟨key, hop⟩ | hop
  · rcases firstSteps_tables hsteps with ⟨hne, hdir, -, hsstables, hmemtable, -⟩
    rcases writesTable_of_firstSteps hsteps with ⟨hwrites, hout⟩
    rw [hcareful.io.2] at hsame
    apply hsame.aligned
    apply (h.firstSteps hcareful.io hcareful.oneLine hsteps).flushIfFull
    rw [hwrites, stayingTables_of_ne hne, hout, outputEntries_of_ne hne, ← hmemtable,
      ← hsstables, ← hdir] at hunharmed
    exact hunharmed
  · rcases step_get hop hstep with ⟨r, hget⟩
    exact (h.get hget).1
  · rw [← step_compact hop hstep, hcareful.io.2]
    apply h.compact
    intro hmany
    have hwrites := (writesTable_compact hop).mpr hmany
    have hsafe := hunharmed hwrites
    have hout : outputPath e ev = compactedPath e.dataDir ev.env.now := by
      unfold outputPath
      rw [hop]
    rw [hop, hout] at hsafe
    exact hsafe

theorem Aligned.run {e e' : LSMEngine} (h : Aligned e) {evs : List Event}
    (hcareful : Machine.Along LSMEngine.step Careful e evs)
    (hrun : Machine.run LSMEngine.step e evs = some e') : Aligned e' :=
  Machine.run_invariant (fun _ _ _ hs hP hstep => hs.step hP hstep) h hcareful hrun

/-! ## Starting -/

/-- A start that flushes does so over no live table that does not fit. -/
def UnharmedStart (disk : DataDir) (dataDir : Bytes) (memtableSizeBytes : UInt64) (now : Nat) :
    Prop :=
  let e := replayedEngine disk dataDir 0 memtableSizeBytes
  e.memtable.isFull = true → ∀ t ∈ e.sstables, t.path = sstablePath dataDir now →
    Fitting t (encodeEntries e.memtable.data)

/-- The flush of a start does no harm if no file that is loaded has its path. -/
theorem unharmedStart_of_fresh {disk : DataDir} {dataDir : Bytes} {memtableSizeBytes : UInt64}
    {now : Nat} (h : sstablePath dataDir now ∉ tablePaths disk.tables) :
    UnharmedStart disk dataDir memtableSizeBytes now := by
  intro _ t ht hpath
  rcases List.mem_map.mp ht with ⟨path, hmem, rfl⟩
  rw [path_new] at hpath
  rw [hpath] at hmem
  exact absurd hmem h

theorem Aligned.restart {e : LSMEngine} (h : Aligned e) (dataDir : Bytes) (cacheSize : Nat)
    {memtableSizeBytes : UInt64} {now : Nat}
    (hsafe : UnharmedStart e.disk dataDir memtableSizeBytes now) :
    Aligned (new e.disk dataDir cacheSize memtableSizeBytes now Device.sound) := by
  have hreplayed : Aligned (replayedEngine e.disk dataDir cacheSize memtableSizeBytes) := by
    rcases h.log with ⟨records, hlog, hrecords⟩
    have hrecover : WAL.recover e.disk.walLog = records := by
      rw [hlog]
      exact WAL.recover_encodeAll fun r hr => (hrecords r hr).1
    refine ⟨⟨LRUCache.keeps_new cacheSize, ?_⟩, rfl, h.log, h.files, ?_⟩
    · apply MemTable.Holds.replay valueClass_oneLine _ (MemTable.holds_new memtableSizeBytes)
      rw [hrecover]
      exact fun r hr => (hrecords r hr).2
    · -- each table is made from the file it reads
      intro t ht content hfile
      rcases List.mem_map.mp ht with ⟨path, -, rfl⟩
      rw [path_new] at hfile
      exact fitting_new hfile (h.clean hfile)
  rcases new_eq_flushIfFull e.disk dataDir cacheSize memtableSizeBytes now Device.sound with
    heq | heq
  · rw [heq]
    exact hreplayed
  · rw [heq]
    exact hreplayed.flushIfFull hsafe

/-- An engine on an empty directory. -/
theorem aligned_start (dataDir : Bytes) (cacheSize : Nat) (memtableSizeBytes : UInt64) :
    Aligned (start dataDir cacheSize memtableSizeBytes) := by
  refine ⟨⟨LRUCache.keeps_new cacheSize, MemTable.holds_new memtableSizeBytes⟩, rfl,
    ⟨[], rfl, by simp⟩, ?_, ?_⟩
  · intro p hp
    cases hp
  · intro t ht
    cases ht

end LSMEngine

end VaultDB
