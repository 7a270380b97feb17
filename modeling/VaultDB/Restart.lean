import VaultDB.Reload

/-! # Restarts

A directory is `Faithful` at a time when an engine started on it reads then
what the plain map says. Writes, reads and flushes keep a directory faithful.
A compaction names its output, the oldest data there is, by the current time,
and the next start loads it as the newest table: it keeps the directory
faithful exactly when the merged values that no log record hides still read as
the engine reads those keys (`Current`). So restarts preserve what is read in
the runs whose strings fit their length fields and whose compactions are of this
kind, and of the runs with such strings in no others (`restart_preserves_iff`);
they do not in all runs (`restart_reverts`).
-/

namespace VaultDB

open Text Codec FileStream SSTable Expiring LSMEngine

/-- Started on the directory, an engine reads at `t` what the plain map says. -/
def Faithful (t : Nat) (P : PlainMap) (disk : DataDir) : Prop :=
  ∀ key, visible t (restored disk key) = visible t (P key)

/-- A directory with one more table on top is faithful exactly when the values
in it that no log record hides are the right ones. -/
theorem faithful_overlay_iff {t : Nat} {P : PlainMap} {disk disk' : DataDir}
    {overlay : Bytes → Option Bytes}
    (hrestored : ∀ key, restored disk' key = (logged (WAL.recover disk.walLog) key).or
      ((overlay key).or (readPaths disk.tables (tablePaths disk.tables) key)))
    (hfaithful : Faithful t P disk) :
    Faithful t P disk' ↔ ∀ key value, logged (WAL.recover disk.walLog) key = none →
      overlay key = some value → visible t (some value) = visible t (P key) := by
  constructor
  · intro h key value hlog hvalue
    have hkey := h key
    rw [hrestored, hlog, hvalue] at hkey
    exact hkey
  · intro hcurrent key
    have hkey := hfaithful key
    unfold restored at hkey
    rw [hrestored]
    cases hlog : logged (WAL.recover disk.walLog) key with
    | some value =>
        rw [hlog] at hkey
        exact hkey
    | none =>
        -- the table on top decides, and where it is silent nothing has changed
        rw [hlog, Option.none_or] at hkey
        rw [Option.none_or]
        cases hvalue : overlay key with
        | none => exact hkey
        | some value => exact hcurrent key value hlog hvalue

/-! ## Writes and flushes -/

theorem restored_written {e : LSMEngine} (h : Sound e) {entry : WALEntry}
    (hentry : WAL.RecordFits entry) {value : Bytes} (hleaves : Leaves entry value)
    (cache : LRUCache Bytes Bytes) (key : Bytes) :
    restored (e.written entry value cache).disk key =
      if key = entry.key then some value else restored e.disk key := by
  have hrecords := records_written h hentry value cache
  unfold records at hrecords
  unfold restored
  rw [hrecords, logged_concat]
  by_cases hkey : key = entry.key
  · subst hkey
    rw [hleaves, if_pos rfl]
    rfl
  · rw [WALEntry.effect_ne hkey, if_neg hkey]
    rfl

theorem faithful_written {t : Nat} {P : PlainMap} {e : LSMEngine} (h : Sound e)
    (hfaithful : Faithful t P e.disk) {entry : WALEntry} (hentry : WAL.RecordFits entry)
    {value : Bytes} (hleaves : Leaves entry value) (cache : LRUCache Bytes Bytes) :
    Faithful t (Function.update P entry.key (some value)) (e.written entry value cache).disk := by
  intro key
  rw [restored_written h hentry hleaves]
  by_cases hkey : key = entry.key
  · subst hkey
    rw [if_pos rfl, Function.update_self]
  · rw [if_neg hkey, Function.update_of_ne hkey]
    exact hfaithful key

/-- What was just written is read back, and every other key as before. -/
theorem reads_written {t : Nat} {P : PlainMap} {e : LSMEngine}
    (hreads : ∀ key, visible t (e.lookup key) = visible t (P key)) (entry : WALEntry)
    (value : Bytes) (cache : LRUCache Bytes Bytes) (key : Bytes) :
    visible t ((e.written entry value cache).lookup key) =
      visible t (Function.update P entry.key (some value) key) := by
  rw [lookup_written]
  by_cases hkey : key = entry.key
  · rw [if_pos hkey, hkey, Function.update_self]
  · rw [if_neg hkey, Function.update_of_ne hkey]
    exact hreads key

/-- A flush: the new table holds what the memtable did, and where the memtable
was silent so was the log. -/
theorem faithful_flush {t : Nat} {P : PlainMap} {e : LSMEngine} (h : Sound e)
    {dataDir : Bytes} {used : List Nat} (hnamed : Named dataDir used e) {now : Nat}
    (hgrow : GrowingNames (used ++ [now])) (hfaithful : Faithful t P e.disk)
    (hreads : ∀ key, visible t (e.lookup key) = visible t (P key)) :
    Faithful t P (e.flushMemtable now Device.sound).disk := by
  by_cases hne : e.memtable.data = []
  · rw [flushMemtable_nil hne]
    exact hfaithful
  · intro key
    have hsorted : Assoc.Sorted (entryReader.all (encodeEntries e.memtable.data)) := by
      rw [all_encodeEntries h.ordered.fits]
      exact h.ordered.sorted
    have hpath : NamedAt dataDir now (sstablePath e.dataDir now) := by
      rw [hnamed.dir]
      exact Or.inl rfl
    rw [flushMemtable_eq h.ordered hne]
    rw [restored_put [] (h.loadable hnamed) hgrow (hnamed.of_file h.stored) hpath
      hsorted, all_encodeEntries h.ordered.fits]
    have hempty : logged (WAL.recover []) key = none := rfl
    have hreadsKey := hreads key
    unfold lookup MemTable.get at hreadsKey
    rw [hempty, Option.none_or]
    cases hmem : Assoc.get key e.memtable.data with
    | some value =>
        rw [hmem] at hreadsKey
        exact hreadsKey
    | none =>
        -- the log has nothing either, so the key was read from the older files before
        have hlog : logged e.records key = none := by
          rcases h.shadow key with hsame | hmark
          · exact hsame.symm.trans hmem
          · rw [MemTable.get, hmem] at hmark
            cases hmark
        have hkey := hfaithful key
        unfold restored at hkey
        unfold records at hlog
        rw [hlog] at hkey
        exact hkey

/-! ## Compactions -/

/-- The values among the entries that no log record hides read at `t` as the
engine reads those keys. -/
def Current (t : Nat) (e : LSMEngine) (entries : List Entry) : Prop :=
  ∀ key value, logged e.records key = none → Assoc.get key entries = some value →
    visible t (some value) = visible t (e.lookup key)

/-- The two inputs and the output of a compaction have three paths, and a key
that the output does not hold is in neither input. -/
theorem inputs_hidden {e : LSMEngine} (h : Sound e) {dataDir : Bytes} {used : List Nat}
    (hnamed : Named dataDir used e) {now : Nat} (hgrow : GrowingNames (used ++ [now]))
    {older newer : SSTable} {staying : List SSTable}
    (hsplit : e.sstables = older :: newer :: staying) :
    older.path ≠ compactedPath dataDir now ∧ newer.path ≠ compactedPath dataDir now ∧
      older.path ≠ newer.path ∧
      ∀ key, Assoc.get key (outputEntries e .compact) = none →
        fileMap e.disk.tables older.path key = none ∧
          fileMap e.disk.tables newer.path key = none := by
  have hbacked := h.stored.backed
  have hpaths := h.stored.paths
  -- the inputs have older names than the output, and distinct ones
  have hinput : ∀ table ∈ e.sstables, table.path ≠ compactedPath dataDir now := by
    intro table htable heq
    apply (hnamed.of_file h.stored).not_mem_of_later hgrow.lt_last (Or.inr rfl)
    rw [← heq]
    exact h.stored.mem_files (List.mem_map_of_mem htable)
  rw [hsplit] at hbacked hpaths hinput
  refine ⟨hinput older List.mem_cons_self,
    hinput newer (List.mem_cons_of_mem _ List.mem_cons_self), ?_, ?_⟩
  · rw [List.map_cons, List.nodup_cons] at hpaths
    intro heq
    apply hpaths.1
    rw [heq]
    exact List.mem_cons_self
  · intro key hkey
    have hold := (hbacked older List.mem_cons_self).sorted
    have hnew := (hbacked newer (List.mem_cons_of_mem _ List.mem_cons_self)).sorted
    rw [outputEntries_compact hsplit, get_mergeEntries hold hnew, Option.or_eq_none_iff] at hkey
    rw [← tableMap_eq, ← tableMap_eq]
    exact ⟨hkey.2, hkey.1⟩

/-- What a compaction writes is in key order, and is read back. -/
theorem all_outputEntries {e : LSMEngine} (h : Sound e) {older newer : SSTable}
    {staying : List SSTable} (hsplit : e.sstables = older :: newer :: staying) :
    (∀ entry ∈ outputEntries e .compact, EntryFits entry) ∧
      Assoc.Sorted (outputEntries e .compact) ∧
      entryReader.all (encodeEntries (outputEntries e .compact)) = outputEntries e .compact := by
  have hbacked := h.stored.backed
  have hfits := h.fits_merged hsplit
  rw [hsplit] at hbacked
  rw [outputEntries_compact hsplit]
  exact ⟨hfits, sorted_mergeEntries (hbacked older List.mem_cons_self).sorted
    (hbacked newer (List.mem_cons_of_mem _ List.mem_cons_self)).sorted, all_encodeEntries hfits⟩

/-- The directory at the three moments of a compaction: output written, older
input removed, newer input removed. The output hides both inputs, so each of
the three is the directory with the output on top. -/
theorem restored_compacting {e : LSMEngine} (h : Sound e) {dataDir : Bytes} {used : List Nat}
    (hnamed : Named dataDir used e) {now : Nat} (hgrow : GrowingNames (used ++ [now]))
    {older newer : SSTable} {staying : List SSTable}
    (hsplit : e.sstables = older :: newer :: staying) {files : Files}
    (hfiles :
      let output := Assoc.put (compactedPath dataDir now)
        (encodeEntries (outputEntries e .compact)) e.disk.tables
      files = output ∨ files = Assoc.erase older.path output ∨
        files = Assoc.erase newer.path (Assoc.erase older.path output)) :
    Loadable files ∧ ∀ key, restored ⟨e.disk.walLog, files⟩ key =
      (logged e.records key).or ((Assoc.get key (outputEntries e .compact)).or
        (readPaths e.disk.tables (tablePaths e.disk.tables) key)) := by
  rcases inputs_hidden h hnamed hgrow hsplit with ⟨hpo, hpn, hne, hhidden⟩
  rcases all_outputEntries h hsplit with ⟨-, hsorted, hall⟩
  have hload := h.loadable hnamed
  have hnames := hnamed.of_file h.stored
  rw [← hall] at hsorted
  rcases hload.tablePaths_put hgrow hnames (Or.inr rfl) hsorted with ⟨hloadOut, hpathsOut⟩
  have houtput := restored_put e.disk.walLog hload hgrow hnames (Or.inr rfl) hsorted
  rw [hall] at houtput
  -- where the output is silent, so is each input at the moment it is removed
  have holder : ∀ key,
      fileMap (Assoc.put (compactedPath dataDir now)
        (encodeEntries (outputEntries e .compact)) e.disk.tables)
        (compactedPath dataDir now) key = none →
      fileMap (Assoc.put (compactedPath dataDir now)
        (encodeEntries (outputEntries e .compact)) e.disk.tables) older.path key = none := by
    intro key hkey
    rw [fileMap_put_self, hall] at hkey
    rw [fileMap_congr (Assoc.get_put_ne hpo _ _)]
    exact (hhidden key hkey).1
  rcases readPaths_erase hloadOut hpathsOut hpo holder with ⟨hpathsOlder, hreadOlder⟩
  have hnewer : ∀ key,
      fileMap (Assoc.erase older.path (Assoc.put (compactedPath dataDir now)
        (encodeEntries (outputEntries e .compact)) e.disk.tables))
        (compactedPath dataDir now) key = none →
      fileMap (Assoc.erase older.path (Assoc.put (compactedPath dataDir now)
        (encodeEntries (outputEntries e .compact)) e.disk.tables)) newer.path key = none := by
    intro key hkey
    rw [fileMap_congr (Assoc.get_erase_ne (Ne.symm hpo) _), fileMap_put_self, hall] at hkey
    rw [fileMap_congr (Assoc.get_erase_ne (Ne.symm hne) _),
      fileMap_congr (Assoc.get_put_ne hpn _ _)]
    exact (hhidden key hkey).2
  rcases readPaths_erase (hloadOut.erase older.path) hpathsOlder hpn hnewer with ⟨-, hreadNewer⟩
  rcases hfiles with rfl | rfl | rfl
  · exact ⟨hloadOut, houtput⟩
  · -- each removal leaves the reading of the moment before
    refine ⟨hloadOut.erase _, ?_⟩
    intro key
    refine Eq.trans ?_ (houtput key)
    unfold restored
    rw [hreadOlder key]
  · refine ⟨(hloadOut.erase _).erase _, ?_⟩
    intro key
    refine Eq.trans ?_ (houtput key)
    unfold restored
    rw [hreadNewer key, hreadOlder key]

/-- A compaction keeps the directory faithful exactly when what it merges is
current. -/
theorem faithful_compact_iff {t : Nat} {P : PlainMap} {e : LSMEngine} (h : Sound e)
    {dataDir : Bytes} {used : List Nat} (hnamed : Named dataDir used e) {now : Nat}
    (hgrow : GrowingNames (used ++ [now])) (hmany : 4 < e.sstables.length)
    (hfaithful : Faithful t P e.disk)
    (hreads : ∀ key, visible t (e.lookup key) = visible t (P key)) :
    Faithful t P (e.compact now Device.sound).disk ↔ Current t e (outputEntries e .compact) := by
  rcases exists_two_oldest hmany with ⟨older, newer, staying, hsplit⟩
  have hstates := (restored_compacting h hnamed hgrow hsplit (Or.inr (Or.inr rfl))).2
  rw [compact_eq hmany hsplit (h.fits_merged hsplit), ← outputEntries_compact hsplit, hnamed.dir]
  rw [faithful_overlay_iff hstates hfaithful]
  unfold Current records
  simp only [hreads]

/-! ## Runs -/

/-- No I/O error, lengths that fit, a clock that does not run backwards, and
growing names. -/
structure Regular (dataDir : Bytes) (cacheSize : Nat) (threshold : UInt64)
    (evs : List Event) : Prop where
  io : ∀ ev ∈ evs, NoIoError ev
  fits : ∀ ev ∈ evs, OpFits ev.op
  clock : (evs.flatMap readings).Pairwise (· ≤ ·)
  names : GrowingNames
    (Machine.trace LSMEngine.step nameReadings (start dataDir cacheSize threshold) evs)

theorem GrowingNames.sublist {used used' : List Nat} (h : GrowingNames used)
    (hsub : used'.Sublist used) : GrowingNames used' :=
  ⟨h.lt.sublist hsub, fun a ha b hb => h.length a (hsub.subset ha) b (hsub.subset hb)⟩

/-- Every name is made of a reading of the run. -/
theorem mem_readings_of_mem_names {e : LSMEngine} {evs : List Event} {ms : Nat}
    (h : ms ∈ Machine.trace LSMEngine.step nameReadings e evs) : ms ∈ evs.flatMap readings := by
  rcases Machine.mem_trace h with ⟨e', ev, hev, hms⟩
  unfold nameReadings at hms
  split_ifs at hms
  · rw [List.mem_singleton.mp hms]
    exact List.mem_flatMap.mpr ⟨ev, hev, now_mem_readings ev⟩
  · cases hms

/-- Later than a run is later than the run without its last event. -/
theorem later_of_concat {evs : List Event} {ev : Event} {t : Nat}
    (hlater : ∀ r ∈ (evs ++ [ev]).flatMap readings, r < t) :
    ∀ r ∈ evs.flatMap readings, r < t := by
  intro r hr
  apply hlater
  rw [List.flatMap_append]
  exact List.mem_append_left _ hr

/-- No device fails, and every key and value fits its length field. -/
def Unhindered (evs : List Event) : Prop := ∀ ev ∈ evs, NoIoError ev ∧ OpFits ev.op

instance (evs : List Event) : Decidable (Unhindered evs) :=
  inferInstanceAs (Decidable (∀ ev ∈ evs, _ ∧ _))

section

variable {dataDir : Bytes} {cacheSize : Nat} {threshold : UInt64}

theorem Unhindered.regular {evs : List Event} (h : Unhindered evs)
    (hclock : (evs.flatMap readings).Pairwise (· ≤ ·))
    (hnames : GrowingNames
      (Machine.trace LSMEngine.step nameReadings (start dataDir cacheSize threshold) evs)) :
    Regular dataDir cacheSize threshold evs :=
  ⟨fun ev hev => (h ev hev).1, fun ev hev => (h ev hev).2, hclock, hnames⟩

theorem Regular.isPrefix {evs pre : List Event} (h : Regular dataDir cacheSize threshold evs)
    (hpre : pre <+: evs) : Regular dataDir cacheSize threshold pre := by
  rcases hpre with ⟨post, rfl⟩
  refine ⟨fun ev hev => h.io ev (List.mem_append_left _ hev),
    fun ev hev => h.fits ev (List.mem_append_left _ hev), ?_, ?_⟩
  · have hclock := h.clock
    rw [List.flatMap_append] at hclock
    exact (List.pairwise_append.mp hclock).1
  · exact h.names.sublist (Machine.isPrefix_trace _ pre post).sublist

theorem Regular.along {evs : List Event} (h : Regular dataDir cacheSize threshold evs) :
    Machine.Along LSMEngine.step Orderly (start dataDir cacheSize threshold) evs :=
  along_orderly h.io h.fits (h.names.lt.imp fun hlt => ne_of_lt hlt)

theorem Regular.answer {evs : List Event} (h : Regular dataDir cacheSize threshold evs)
    {e : LSMEngine}
    (hrun : Machine.run LSMEngine.step (start dataDir cacheSize threshold) evs = some e)
    {t : Nat} (hlater : ∀ ms ∈ evs.flatMap readings, ms < t) (key : Bytes) :
    e.answer key t = some (visible t (PlainMap.after evs key)) := by
  apply answer_run h.along hrun
  intro ev hev
  exact Nat.le_of_lt (hlater _ (List.mem_flatMap.mpr ⟨ev, hev, now_mem_readings ev⟩))

/-- At a later time the layers read as the plain map does. -/
theorem Regular.reads {evs : List Event} (h : Regular dataDir cacheSize threshold evs)
    {e : LSMEngine}
    (hrun : Machine.run LSMEngine.step (start dataDir cacheSize threshold) evs = some e)
    {t : Nat} (hlater : ∀ ms ∈ evs.flatMap readings, ms < t) (key : Bytes) :
    visible t (e.lookup key) = visible t (PlainMap.after evs key) := by
  have hanswer := h.answer hrun hlater key
  rw [(sound_run h.along hrun).toLayered.answer] at hanswer
  exact Option.some.inj hanswer

/-- The readings before the last event, and its own, are no later than the
reading the last event takes last. -/
theorem Regular.le_now {evs : List Event} {ev : Event}
    (h : Regular dataDir cacheSize threshold (evs ++ [ev])) :
    ∀ ms ∈ (evs ++ [ev]).flatMap readings, ms ≤ ev.env.now := by
  have hclock := h.clock
  rw [List.flatMap_append, List.pairwise_append] at hclock
  intro ms hms
  rw [List.flatMap_append, List.mem_append] at hms
  rcases hms with hms | hms
  · exact hclock.2.2 ms hms _ (by simp [now_mem_readings])
  · -- within one event the record is stamped before the file is named
    have hlast := hclock.2.1
    rw [List.flatMap_singleton] at hms hlast
    rcases ev with ⟨op, env⟩
    cases op <;> simp [readings] at hms hlast ⊢ <;> omega

/-- Later than a run is later than its last event. -/
theorem Regular.now_lt_iff {evs : List Event} {ev : Event}
    (h : Regular dataDir cacheSize threshold (evs ++ [ev])) (t : Nat) :
    ev.env.now < t ↔ ∀ r ∈ (evs ++ [ev]).flatMap readings, r < t := by
  constructor
  · intro ht r hr
    exact lt_of_le_of_lt (h.le_now r hr) ht
  · intro ht
    exact ht _ (List.mem_flatMap.mpr ⟨ev, by simp, now_mem_readings ev⟩)

/-- A step keeps the directory faithful, a compaction when and only when what
it merges is current. -/
theorem LSMEngine.Sound.faithful_step_iff {e e' : LSMEngine} (h : Sound e) {ev : Event}
    (hio : NoIoError ev) (hfits : OpFits ev.op) (hstep : e.step ev = some e') {used : List Nat}
    (hnamed : Named dataDir used e) (hnames : GrowingNames (used ++ nameReadings e ev)) {t : Nat}
    {P : PlainMap} (hreads : ∀ key, visible t (e.lookup key) = visible t (P key))
    (hfaithful : Faithful t P e.disk) :
    Faithful t (P.apply ev.op) e'.disk ↔
      (ev.op = .compact → 4 < e.sstables.length → Current t e (outputEntries e .compact)) := by
  cases h.step_cases hio hfits hstep with
  | write entry value cache hop hentry hleaves hwritten hsame =>
      have hne : ev.op ≠ .compact := by
        rcases hop with hop | ⟨hop, -⟩
        · rw [hop]
          exact Op.noConfusion
        · rw [hop]
          exact Op.noConfusion
      -- the record is right at once, and a flush that follows keeps it so
      refine iff_of_true ?_ fun hop' => absurd hop' hne
      have hbefore := faithful_written h hfaithful hentry hleaves cache
      rw [apply_written hop, hsame.disk]
      unfold LSMEngine.flushIfFull
      split_ifs with hfull
      · have hnamed' : Named dataDir used (e.written entry value cache) :=
          ⟨hnamed.dir, hnamed.named⟩
        rw [nameReadings_of_writes ((writesTable_written hop e).trans hfull)] at hnames
        exact faithful_flush hwritten hnamed' hnames hbefore
          (reads_written hreads entry value cache)
      · exact hbefore
  | read key hop hlayered heffect =>
      rw [hop, heffect.disk]
      exact iff_of_true hfaithful fun hop' => Op.noConfusion hop'
  | compact hop heq =>
      rw [hop, heq]
      by_cases hmany : 4 < e.sstables.length
      · rw [nameReadings_of_writes ((writesTable_compact hop).mpr hmany)] at hnames
        have hiff := faithful_compact_iff h hnamed hnames hmany hfaithful hreads
        exact hiff.trans ⟨fun hcurrent _ _ => hcurrent, fun hcurrent => hcurrent rfl hmany⟩
      · rw [compact_of_few hmany]
        exact iff_of_true hfaithful fun _ hmany' => absurd hmany' hmany

theorem faithful_step_iff {evs : List Event} {ev : Event}
    (h : Regular dataDir cacheSize threshold (evs ++ [ev])) {e e' : LSMEngine}
    (hrun : Machine.run LSMEngine.step (start dataDir cacheSize threshold) evs = some e)
    (hstep : e.step ev = some e') {t : Nat}
    (hlater : ∀ ms ∈ (evs ++ [ev]).flatMap readings, ms < t)
    (hfaithful : Faithful t (PlainMap.after evs) e.disk) :
    Faithful t (PlainMap.after (evs ++ [ev])) e'.disk ↔
      (ev.op = .compact → 4 < e.sstables.length → Current t e (outputEntries e .compact)) := by
  have hpre := h.isPrefix (List.prefix_append evs [ev])
  have hnames := h.names
  rw [Machine.trace_concat hrun hstep] at hnames
  rw [PlainMap.after_concat]
  exact (sound_run hpre.along hrun).faithful_step_iff (h.io ev (by simp)) (h.fits ev (by simp))
    hstep (named_run hrun) hnames (hpre.reads hrun (later_of_concat hlater)) hfaithful

/-- A compaction that merges two tables at `ev` merges values that are current
at every later time. -/
def CompactsCurrent (e : LSMEngine) (ev : Event) : Prop :=
  ev.op = .compact → 4 < e.sstables.length → ∀ t, ev.env.now < t →
    Current t e (outputEntries e .compact)

/-- The directories of a regular run are faithful exactly when its compactions
merge current values. -/
theorem faithful_run_iff {evs : List Event} (h : Regular dataDir cacheSize threshold evs) :
    (∀ pre, pre <+: evs → ∀ e,
      Machine.run LSMEngine.step (start dataDir cacheSize threshold) pre = some e →
      ∀ t, (∀ ms ∈ pre.flatMap readings, ms < t) → Faithful t (PlainMap.after pre) e.disk) ↔
    Machine.Along LSMEngine.step CompactsCurrent (start dataDir cacheSize threshold) evs := by
  apply Machine.forall_isPrefix_iff_along
    (R := fun pre (e : LSMEngine) => ∀ t, (∀ ms ∈ pre.flatMap readings, ms < t) →
      Faithful t (PlainMap.after pre) e.disk)
  · intro t _ key
    rfl
  · intro pre ev e e' hprefix hrun hstep hbefore
    have hreg := h.isPrefix hprefix
    have hstepIff : ∀ t, ev.env.now < t → (Faithful t (PlainMap.after (pre ++ [ev])) e'.disk ↔
        (ev.op = .compact → 4 < e.sstables.length → Current t e (outputEntries e .compact))) := by
      intro t ht
      have hlater := (hreg.now_lt_iff t).mp ht
      exact faithful_step_iff hreg hrun hstep hlater (hbefore t (later_of_concat hlater))
    constructor
    · intro hafter hop hmany t ht
      exact (hstepIff t ht).mp (hafter t ((hreg.now_lt_iff t).mp ht)) hop hmany
    · intro hcurrent t ht
      have ht' := (hreg.now_lt_iff t).mpr ht
      exact (hstepIff t ht').mpr fun hop hmany => hcurrent hop hmany t ht'

/-- Constructed on the directory later than the events, with room in its cache,
an engine answers every `get` from then on as `e` does. -/
def RestartsAs (evs : List Event) (disk : DataDir) (e : LSMEngine) : Prop :=
  ∀ (cacheSize : Nat) (threshold : UInt64) (ms t : Nat) (key : Bytes), 0 < cacheSize →
    (∀ r ∈ evs.flatMap readings, r < ms) → ms ≤ t →
    (LSMEngine.new disk e.dataDir cacheSize threshold ms Device.sound).answer key t =
      e.answer key t

/-- Where the old engine answers as the plain map does, the new one does too
exactly when the directory is faithful. -/
theorem restartsAs_iff {evs : List Event} {disk : DataDir} {e : LSMEngine} {P : PlainMap}
    (hload : Loadable disk.tables)
    (hfresh : ∀ ms, (∀ r ∈ evs.flatMap readings, r < ms) →
      sstablePath e.dataDir ms ∉ disk.tables.map Prod.fst)
    (hanswer : ∀ t, (∀ r ∈ evs.flatMap readings, r < t) →
      ∀ key, e.answer key t = some (visible t (P key))) :
    RestartsAs evs disk e ↔
      ∀ t, (∀ r ∈ evs.flatMap readings, r < t) → Faithful t P disk := by
  constructor
  · intro hsame t ht key
    -- the new engine may be started and read at the same moment
    have hnew := hsame 1 0 t t key (by decide) ht (le_refl t)
    rw [answer_new hload (by decide) (hfresh t ht), hanswer t ht] at hnew
    exact Option.some.inj hnew
  · intro hfaithful cacheSize threshold ms t key hcache hms ht
    have hlater : ∀ r ∈ evs.flatMap readings, r < t := fun r hr => lt_of_lt_of_le (hms r hr) ht
    rw [answer_new hload hcache (hfresh ms hms), hanswer t hlater, hfaithful t hlater key]

/-- A name made later than the events is none of those made in them. -/
theorem later_of_names {evs : List Event} {e : LSMEngine} {ms : Nat}
    (hlater : ∀ r ∈ evs.flatMap readings, r < ms) :
    ∀ ms' ∈ Machine.trace LSMEngine.step nameReadings e evs, ms' < ms :=
  fun ms' hms' => hlater ms' (mem_readings_of_mem_names hms')

/-- Also when the last event is stopped in the middle of its file. -/
theorem later_of_names_concat {evs : List Event} {ev : Event} {e : LSMEngine} {ms : Nat}
    (hlater : ∀ r ∈ (evs ++ [ev]).flatMap readings, r < ms) :
    ∀ ms' ∈ Machine.trace LSMEngine.step nameReadings e evs ++ [ev.env.now], ms' < ms := by
  intro ms' hms'
  rcases List.mem_append.mp hms' with hms' | hms'
  · exact later_of_names (later_of_concat hlater) ms' hms'
  · rw [List.mem_singleton.mp hms']
    exact hlater _ (List.mem_flatMap.mpr ⟨ev, by simp, now_mem_readings ev⟩)

theorem Regular.later_name {evs : List Event} (h : Regular dataDir cacheSize threshold evs)
    {e : LSMEngine}
    (hrun : Machine.run LSMEngine.step (start dataDir cacheSize threshold) evs = some e)
    {ms : Nat} (hms : ∀ r ∈ evs.flatMap readings, r < ms) :
    sstablePath e.dataDir ms ∉ e.disk.tables.map Prod.fst := by
  have hnamed := named_run hrun
  rw [hnamed.dir]
  have hfiles := hnamed.of_file (sound_run h.along hrun).stored
  exact hfiles.not_mem_of_later (later_of_names hms) (Or.inl rfl)

/-- A restart after any first part of the run preserves what is read. -/
def RestartsPreserve (dataDir : Bytes) (cacheSize : Nat) (threshold : UInt64)
    (evs : List Event) : Prop :=
  ∀ pre, pre <+: evs → ∀ e,
    Machine.run LSMEngine.step (start dataDir cacheSize threshold) pre = some e →
    RestartsAs pre e.disk e

theorem Regular.restartsPreserve_iff {evs : List Event}
    (h : Regular dataDir cacheSize threshold evs) :
    RestartsPreserve dataDir cacheSize threshold evs ↔
      Machine.Along LSMEngine.step CompactsCurrent (start dataDir cacheSize threshold) evs := by
  rw [← faithful_run_iff h]
  unfold RestartsPreserve
  apply forall₄_congr
  intro pre hpre e hrun
  have hreg := h.isPrefix hpre
  apply restartsAs_iff
  · exact (sound_run hreg.along hrun).loadable (named_run hrun)
  · exact fun ms hms => hreg.later_name hrun hms
  · exact fun t ht key => hreg.answer hrun ht key

/-- Restarts preserve what is read if every key and value fits its length field
and the compactions merge current values; and where the keys and values fit they
do so only then. -/
theorem restart_preserves_iff {evs : List Event} (hio : ∀ ev ∈ evs, NoIoError ev)
    (hclock : (evs.flatMap readings).Pairwise (· ≤ ·))
    (hnames : GrowingNames
      (Machine.trace LSMEngine.step nameReadings (start dataDir cacheSize threshold) evs)) :
    ((∀ ev ∈ evs, OpFits ev.op) ∧
        Machine.Along LSMEngine.step CompactsCurrent (start dataDir cacheSize threshold) evs →
      RestartsPreserve dataDir cacheSize threshold evs) ∧
    ((∀ ev ∈ evs, OpFits ev.op) → RestartsPreserve dataDir cacheSize threshold evs →
      Machine.Along LSMEngine.step CompactsCurrent (start dataDir cacheSize threshold) evs) := by
  constructor
  · rintro ⟨hfits, hcurrent⟩
    have h : Regular dataDir cacheSize threshold evs := ⟨hio, hfits, hclock, hnames⟩
    exact h.restartsPreserve_iff.mpr hcurrent
  · intro hfits hpreserve
    have h : Regular dataDir cacheSize threshold evs := ⟨hio, hfits, hclock, hnames⟩
    exact h.restartsPreserve_iff.mp hpreserve

end

/-- A write whose record is stamped at `ms`, one millisecond before its flush. -/
def Env.ticking (ms : Nat) : Env := ⟨ms, ms + 1, none, Device.sound⟩

/-- Five tables, `k` being held by the first and by the third, and a compaction
of the first two. -/
def staleMerge : List Event :=
  [⟨.set (ascii "k") (ascii "old"), Env.ticking 10⟩,
    ⟨.set (ascii "a") (ascii "x"), Env.ticking 12⟩,
    ⟨.set (ascii "k") (ascii "new"), Env.ticking 14⟩,
    ⟨.set (ascii "b") (ascii "y"), Env.ticking 16⟩,
    ⟨.set (ascii "c") (ascii "z"), Env.ticking 18⟩,
    ⟨.compact, Env.calm 20⟩]

theorem restart_preserves_iff_staleMerge :
    RestartsPreserve [] 1 1 staleMerge ↔
      Machine.Along LSMEngine.step CompactsCurrent (start [] 1 1) staleMerge := by
  have h := @restart_preserves_iff [] 1 1 staleMerge (by decide) (by decide)
    ⟨by decide +kernel, by decide +kernel⟩
  have hfits : ∀ ev ∈ staleMerge, OpFits ev.op := by decide
  exact ⟨h.2 hfits, fun hcurrent => h.1 ⟨hfits, hcurrent⟩⟩

/-- After the compaction a restart brings back the older value of `k`. -/
theorem restart_reverts :
    ¬ ∀ (evs : List Event), (∀ ev ∈ evs, NoIoError ev) → (∀ ev ∈ evs, OpFits ev.op) →
      GrowingNames (evs.flatMap readings) →
      ∀ e, Machine.run LSMEngine.step (start [] 1 1) evs = some e → RestartsAs evs e.disk e := by
  intro hall
  have hold : (Machine.run LSMEngine.step (start [] 1 1) staleMerge).bind (fun e =>
      (LSMEngine.new e.disk e.dataDir 1 1 21 Device.sound).answer (ascii "k") 21) =
        some (some (ascii "old")) := by decide +kernel
  have hnew : (Machine.run LSMEngine.step (start [] 1 1) staleMerge).bind (fun e =>
      e.answer (ascii "k") 21) = some (some (ascii "new")) := by decide +kernel
  rcases Option.bind_eq_some_iff.mp hnew with ⟨e, hrun, hanswer⟩
  rw [hrun, Option.bind_some] at hold
  have hsame := hall staleMerge (by decide) (by decide) ⟨by decide, by decide +kernel⟩ e hrun
    1 1 21 21 (ascii "k") (by decide) (by decide) (le_refl 21)
  rw [hold, hanswer] at hsame
  revert hsame
  decide

end VaultDB
