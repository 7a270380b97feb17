import VaultDB.Restart
import VaultDB.TornTable

/-! # Crashes during a flush

`flush_memtable` writes the new table, then truncates the log. Up to the
truncation the log still has a record of every key of the memtable, except of
keys that an expired read marked deleted: that mark is in no log. So where no
device fails and every string fits its length field a crash shows exactly when
it cuts the deletion mark of such a key (`flush_crash_iff`), since the readers of
a table take the cut mark for a value (`torn_mark_is_read`).
-/

namespace VaultDB

open Text Codec FileStream SSTable Expiring LSMEngine

variable {dataDir : Bytes} {cacheSize : Nat} {threshold : UInt64}

/-! ## Crash points -/

/-- A point in `flush_memtable`: before the file is created, after `n` bytes of
it have reached the disk, or after the log is truncated. -/
inductive FlushPoint where
  | before
  | writing (n : Nat)
  | truncated
deriving DecidableEq

/-- What is on disk when the flush of `e` is cut at the point. -/
def flushCrash (e : LSMEngine) (now : Nat) : FlushPoint → DataDir
  | .before => e.disk
  | .writing n =>
    let sstable := SSTable.new e.disk.tables (sstablePath e.dataDir now)
    ⟨e.disk.walLog,
      (sstable.flush (Device.full n) e.disk.tables e.memtable.getSortedEntries).2⟩
  | .truncated => (e.flushMemtable now Device.sound).disk

/-- The cut falls inside the value of an entry whose key no log record has. -/
def CutsUnlogged (e : LSMEngine) (n : Nat) : Prop :=
  ∃ pre key value post, e.memtable.data = pre ++ (key, value) :: post ∧
    logged e.records key = none ∧
    (encodeEntries pre).length + headLength (key, value) ≤ n ∧
    n < (encodeEntries pre).length + headLength (key, value) + value.length

theorem flushCrash_writing (e : LSMEngine) (now n : Nat) :
    flushCrash e now (.writing n) = ⟨e.disk.walLog, Assoc.put (sstablePath e.dataDir now)
      ((encodeEntries e.memtable.data).take n) e.disk.tables⟩ := by
  unfold flushCrash MemTable.getSortedEntries
  dsimp only
  rw [flush_new, putFile_full]

/-! ## The state in front of a flush -/

/-- What the first steps of a write leave at the end of a regular run. -/
structure Midway (dataDir : Bytes) (used : List Nat) (P : PlainMap) (t : Nat)
    (e : LSMEngine) : Prop where
  sound : Sound e
  named : Named dataDir used e
  reads : ∀ key, visible t (e.lookup key) = visible t (P key)
  faithful : Faithful t P e.disk

theorem Regular.midway {evs : List Event} {ev : Event}
    (h : Regular dataDir cacheSize threshold (evs ++ [ev])) {e e₁ : LSMEngine}
    (hrun : Machine.run LSMEngine.step (start dataDir cacheSize threshold) evs = some e)
    (hsteps : e.firstSteps ev = some e₁) {t : Nat}
    (hlater : ∀ r ∈ (evs ++ [ev]).flatMap readings, r < t)
    (hfaithful : Faithful t (PlainMap.after evs) e.disk) :
    Midway dataDir (Machine.trace LSMEngine.step nameReadings (start dataDir cacheSize threshold)
      evs) (PlainMap.after (evs ++ [ev])) t e₁ := by
  have hpre := h.isPrefix (List.prefix_append evs [ev])
  have hsound := sound_run hpre.along hrun
  have hnamed := named_run hrun
  rcases hsound.firstSteps (h.io ev (by simp)) (h.fits ev (by simp)) hsteps with
    ⟨entry, value, cache, hop, -, hentry, hleaves, hwritten, rfl⟩
  rw [PlainMap.after_concat, apply_written hop]
  refine ⟨hwritten, ⟨hnamed.dir, hnamed.named⟩, ?_, ?_⟩
  · exact reads_written (hpre.reads hrun (later_of_concat hlater)) entry value cache
  · exact faithful_written hsound hfaithful hentry hleaves cache

/-- The flush that follows names its file by the reading of the event. -/
theorem Regular.growing_of_full {evs : List Event} {ev : Event}
    (h : Regular dataDir cacheSize threshold (evs ++ [ev])) {e e₁ : LSMEngine}
    (hrun : Machine.run LSMEngine.step (start dataDir cacheSize threshold) evs = some e)
    (hsteps : e.firstSteps ev = some e₁) (hfull : e₁.memtable.isFull = true) :
    GrowingNames (Machine.trace LSMEngine.step nameReadings (start dataDir cacheSize threshold)
      evs ++ [ev.env.now]) := by
  rcases step_of_firstSteps hsteps with ⟨e', hstep, -⟩
  have hwrites := (writesTable_of_firstSteps hsteps).1.trans hfull
  have hnames := h.names
  rw [Machine.trace_concat hrun hstep, nameReadings_of_writes hwrites] at hnames
  exact hnames

/-- Without a compaction every directory of a regular run is faithful. -/
theorem Regular.faithful {evs : List Event} (h : Regular dataDir cacheSize threshold evs)
    (hnone : ∀ ev ∈ evs, ev.op ≠ .compact) {e : LSMEngine}
    (hrun : Machine.run LSMEngine.step (start dataDir cacheSize threshold) evs = some e) {t : Nat}
    (hlater : ∀ r ∈ evs.flatMap readings, r < t) : Faithful t (PlainMap.after evs) e.disk := by
  apply (faithful_run_iff h).mpr _ evs List.prefix_rfl e hrun t hlater
  refine Machine.along_of_forall hnone ?_
  intro s ev hne hop
  exact absurd hop hne

/-! ## Torn tables -/

/-- A deletion mark that is cut is a value like any other. -/
theorem plain_cutValue_tombstone {n : Nat} (hn : n < TOMBSTONE.length) :
    Plain (cutValue TOMBSTONE n) := by
  have hall : ∀ m < TOMBSTONE.length, cutValue TOMBSTONE m ≠ TOMBSTONE ∧
      parseExpiry (cutValue TOMBSTONE m) = none := by decide +kernel
  exact hall n hn

/-- A key without a record that stands in the memtable is marked deleted. -/
theorem LSMEngine.Sound.marked {e : LSMEngine} (h : Sound e) {key value : Bytes}
    (hlog : logged e.records key = none) (hmem : e.memtable.get key = some value) :
    value = TOMBSTONE := by
  rcases h.shadow key with hsame | hmark
  · rw [hmem, hlog] at hsame
    cases hsame
  · exact Option.some.inj (hmem.symm.trans hmark)

/-- What a torn table shows that no log record hides is right exactly when no
deletion mark is cut. -/
theorem unlogged_right_iff {used : List Nat} {P : PlainMap} {t : Nat} {e : LSMEngine}
    (h : Midway dataDir used P t e) (n : Nat) :
    (∀ key value, logged e.records key = none →
      Assoc.get key (torn e.memtable.data n) = some value →
        visible t (some value) = visible t (P key)) ↔ ¬ CutsUnlogged e n := by
  have hsorted := h.sound.ordered.sorted
  have hfits := h.sound.ordered.fits
  -- a key that stands in the memtable unlogged reads as absent
  have habsent : ∀ key value, logged e.records key = none →
      e.memtable.get key = some value → visible t (P key) = none := by
    intro key value hlog hmem
    have hread := h.reads key
    unfold lookup at hread
    rw [hmem, h.sound.marked hlog hmem] at hread
    exact hread.symm
  constructor
  · -- a cut value is shown, though its key reads as absent
    rintro hright ⟨pre, key, value, post, hsplit, hlog, hhead, hcut⟩
    have hmem : e.memtable.get key = some value := by
      apply Assoc.get_of_mem hsorted.nodup_keys
      rw [hsplit]
      exact List.mem_append_right _ List.mem_cons_self
    have hseen : (key, cutValue value
        (n - ((encodeEntries pre).length + headLength (key, value)))) ∈
        torn e.memtable.data n :=
      (mem_torn_iff hfits).mpr ⟨pre, value, post, hsplit, hhead, rfl⟩
    have hshown := hright key _ hlog
      (Assoc.get_of_mem (sorted_torn hsorted n).nodup_keys hseen)
    rw [habsent key value hlog hmem] at hshown
    rcases h.sound.marked hlog hmem with rfl
    rw [visible_eq_self_iff.mpr (plain_cutValue_tombstone (by omega))] at hshown
    cases hshown
  · -- what is shown is a whole deletion mark
    intro hnot key value hlog hget
    rcases (mem_torn_iff hfits).mp (Assoc.mem_of_get hget) with
      ⟨pre, whole, post, hsplit, hhead, rfl⟩
    have hmem : e.memtable.get key = some whole := by
      apply Assoc.get_of_mem hsorted.nodup_keys
      rw [hsplit]
      exact List.mem_append_right _ List.mem_cons_self
    rw [habsent key whole hlog hmem]
    by_cases hcut : n < (encodeEntries pre).length + headLength (key, whole) + whole.length
    · exact absurd ⟨pre, key, whole, post, hsplit, hlog, hhead, hcut⟩ hnot
    · rw [cutValue_of_le (by omega), h.sound.marked hlog hmem, visible_tombstone]

/-! ## Restarting after the crash -/

/-- The directory at every crash point can be loaded, and is faithful except
where the cut falls in an unlogged value. -/
theorem faithful_flushCrash_iff {used : List Nat} {P : PlainMap} {t : Nat} {e : LSMEngine}
    (h : Midway dataDir used P t e) {now : Nat} (hgrow : GrowingNames (used ++ [now]))
    (point : FlushPoint) :
    Faithful t P (flushCrash e now point) ↔ ∀ n, point = .writing n → ¬ CutsUnlogged e n := by
  have hload := h.sound.loadable h.named
  have hnames := h.named.of_file h.sound.stored
  have hpath : NamedAt dataDir now (sstablePath e.dataDir now) := by
    rw [h.named.dir]
    exact Or.inl rfl
  cases point with
  | before => exact iff_of_true h.faithful fun n hpoint => FlushPoint.noConfusion hpoint
  | writing n =>
      have hall := all_take h.sound.ordered.fits n
      have hsorted : Assoc.Sorted (entryReader.all ((encodeEntries e.memtable.data).take n)) := by
        rw [hall]
        exact sorted_torn h.sound.ordered.sorted n
      have hrestored := restored_put e.disk.walLog hload hgrow hnames hpath hsorted
      rw [hall] at hrestored
      rw [flushCrash_writing, faithful_overlay_iff hrestored h.faithful]
      refine (unlogged_right_iff h n).trans ⟨?_, fun hnot => hnot n rfl⟩
      intro hnot m hpoint
      rw [← FlushPoint.writing.inj hpoint]
      exact hnot
  | truncated =>
      refine iff_of_true ?_ fun n hpoint => FlushPoint.noConfusion hpoint
      exact faithful_flush h.sound h.named hgrow h.faithful h.reads

theorem loadable_flushCrash {used : List Nat} {P : PlainMap} {t : Nat} {e : LSMEngine}
    (h : Midway dataDir used P t e) {now : Nat} (hgrow : GrowingNames (used ++ [now]))
    (point : FlushPoint) :
    Loadable (flushCrash e now point).tables ∧
      NamedFiles dataDir (used ++ [now]) (flushCrash e now point).tables := by
  have hload := h.sound.loadable h.named
  have hnames := h.named.of_file h.sound.stored
  have hpath : NamedAt dataDir now (sstablePath e.dataDir now) := by
    rw [h.named.dir]
    exact Or.inl rfl
  have hearlier : NamedFiles dataDir (used ++ [now]) e.disk.tables :=
    hnames.mono (List.subset_append_left _ _)
  -- the file that is being written has the name made at `now`
  have hput : ∀ content, Assoc.Sorted (entryReader.all content) →
      Loadable (Assoc.put (sstablePath e.dataDir now) content e.disk.tables) ∧
        NamedFiles dataDir (used ++ [now])
          (Assoc.put (sstablePath e.dataDir now) content e.disk.tables) := by
    intro content hsorted
    exact ⟨(hload.tablePaths_put hgrow hnames hpath hsorted).1, hnames.put hpath content⟩
  cases point with
  | before => exact ⟨hload, hearlier⟩
  | writing n =>
      rw [flushCrash_writing]
      apply hput
      rw [all_take h.sound.ordered.fits]
      exact sorted_torn h.sound.ordered.sorted n
  | truncated =>
      show Loadable (e.flushMemtable now Device.sound).disk.tables ∧
        NamedFiles dataDir (used ++ [now]) (e.flushMemtable now Device.sound).disk.tables
      by_cases hne : e.memtable.data = []
      · rw [flushMemtable_nil hne]
        exact ⟨hload, hearlier⟩
      · rw [flushMemtable_eq h.sound.ordered hne]
        apply hput
        rw [all_encodeEntries h.sound.ordered.fits]
        exact h.sound.ordered.sorted

theorem Regular.restartsAs_flushCrash_iff {evs : List Event} {ev : Event}
    (h : Regular dataDir cacheSize threshold (evs ++ [ev]))
    (hnone : ∀ ev' ∈ evs, ev'.op ≠ .compact) {e e₁ : LSMEngine}
    (hrun : Machine.run LSMEngine.step (start dataDir cacheSize threshold) evs = some e)
    (hsteps : e.firstSteps ev = some e₁) (hfull : e₁.memtable.isFull = true)
    (point : FlushPoint) :
    RestartsAs (evs ++ [ev]) (flushCrash e₁ ev.env.now point) e₁ ↔
      ∀ n, point = .writing n → ¬ CutsUnlogged e₁ n := by
  have hgrow := h.growing_of_full hrun hsteps hfull
  have hpre := h.isPrefix (List.prefix_append evs [ev])
  have hmid : ∀ t, (∀ r ∈ (evs ++ [ev]).flatMap readings, r < t) →
      Midway dataDir (Machine.trace LSMEngine.step nameReadings
        (start dataDir cacheSize threshold) evs) (PlainMap.after (evs ++ [ev])) t e₁ := by
    intro t ht
    exact h.midway hrun hsteps ht (hpre.faithful hnone hrun (later_of_concat ht))
  -- some time is later than all readings
  have hnext := (h.now_lt_iff (ev.env.now + 1)).mp (Nat.lt_succ_self _)
  rcases loadable_flushCrash (hmid _ hnext) hgrow point with ⟨hload, hnames⟩
  rw [restartsAs_iff (P := PlainMap.after (evs ++ [ev])) hload]
  · constructor
    · intro hall
      exact (faithful_flushCrash_iff (hmid _ hnext) hgrow point).mp (hall _ hnext)
    · intro hnot t ht
      exact (faithful_flushCrash_iff (hmid t ht) hgrow point).mpr hnot
  · intro ms hms
    rw [(hmid _ hnext).named.dir]
    exact hnames.not_mem_of_later (later_of_names_concat hms) (Or.inl rfl)
  · intro t ht key
    rw [(hmid t ht).sound.toLayered.answer, (hmid t ht).reads]

/-- In a run without compactions, a flush cut at any point is followed by a
restart that answers as before, if no device fails, every key and value fits its
length field, and the cut does not fall inside the value of a key that no log
record has; and where no device fails and all fits, only then. -/
theorem flush_crash_iff {evs : List Event} {ev : Event}
    (hclock : ((evs ++ [ev]).flatMap readings).Pairwise (· ≤ ·))
    (hnames : GrowingNames (Machine.trace LSMEngine.step nameReadings
      (start dataDir cacheSize threshold) (evs ++ [ev])))
    (hnone : ∀ ev' ∈ evs, ev'.op ≠ .compact) {e e₁ : LSMEngine}
    (hrun : Machine.run LSMEngine.step (start dataDir cacheSize threshold) evs = some e)
    (hsteps : e.firstSteps ev = some e₁) (hfull : e₁.memtable.isFull = true)
    (point : FlushPoint) :
    (Unhindered (evs ++ [ev]) ∧ (∀ n, point = .writing n → ¬ CutsUnlogged e₁ n) →
      RestartsAs (evs ++ [ev]) (flushCrash e₁ ev.env.now point) e₁) ∧
    (Unhindered (evs ++ [ev]) →
      RestartsAs (evs ++ [ev]) (flushCrash e₁ ev.env.now point) e₁ →
      ∀ n, point = .writing n → ¬ CutsUnlogged e₁ n) := by
  constructor
  · rintro ⟨hunhindered, hcut⟩
    have h := hunhindered.regular hclock hnames
    exact (h.restartsAs_flushCrash_iff hnone hrun hsteps hfull point).mpr hcut
  · intro hunhindered hsame
    have h := hunhindered.regular hclock hnames
    exact (h.restartsAs_flushCrash_iff hnone hrun hsteps hfull point).mp hsame

/-- A key with a deadline is flushed at 1, expires and is marked deleted by a
read at 6; the next write fills the memtable. -/
def expiredMark : List Event :=
  [⟨.set (ascii "a") (ascii "EXPIRY:5:w"), Env.calm 1⟩, ⟨.get (ascii "a"), Env.calm 6⟩]

theorem flush_crash_iff_expiredMark :
    ∃ e e₁, Machine.run LSMEngine.step (start [] 1 1) expiredMark = some e ∧
      e.firstSteps ⟨.set (ascii "z") (ascii "y"), Env.calm 7⟩ = some e₁ ∧
      (RestartsAs (expiredMark ++ [⟨.set (ascii "z") (ascii "y"), Env.calm 7⟩])
          (flushCrash e₁ 7 (.writing 12)) e₁ ↔
        ∀ n, FlushPoint.writing 12 = .writing n → ¬ CutsUnlogged e₁ n) := by
  have hfull : ((Machine.run LSMEngine.step (start [] 1 1) expiredMark).bind fun e =>
      (e.firstSteps ⟨.set (ascii "z") (ascii "y"), Env.calm 7⟩).map fun e₁ =>
        e₁.memtable.isFull) = some true := by decide +kernel
  have hunhindered : Unhindered
      (expiredMark ++ [⟨.set (ascii "z") (ascii "y"), Env.calm 7⟩]) := by decide
  rcases Option.bind_eq_some_iff.mp hfull with ⟨e, hrun, hmap⟩
  rcases Option.map_eq_some_iff.mp hmap with ⟨e₁, hsteps, hfull₁⟩
  have h := flush_crash_iff (by decide) ⟨by decide +kernel, by decide +kernel⟩ (by decide) hrun
    hsteps hfull₁ (.writing 12)
  exact ⟨e, e₁, hrun, hsteps, h.2 hunhindered, fun hcut => h.1 ⟨hunhindered, hcut⟩⟩

/-- The flush is cut three bytes into the mark of `a`: after a restart `a`
reads as those bytes and zeros. -/
theorem torn_mark_is_read :
    ¬ ∀ (evs : List Event) (ev : Event) (e e₁ : LSMEngine) (point : FlushPoint),
      Regular [] 1 1 (evs ++ [ev]) → (∀ ev' ∈ evs, ev'.op ≠ .compact) →
      Machine.run LSMEngine.step (start [] 1 1) evs = some e → e.firstSteps ev = some e₁ →
      e₁.memtable.isFull = true →
      RestartsAs (evs ++ [ev]) (flushCrash e₁ ev.env.now point) e₁ := by
  intro hall
  have hfacts : ((Machine.run LSMEngine.step (start [] 1 1) expiredMark).bind fun e =>
      (e.firstSteps ⟨.set (ascii "z") (ascii "y"), Env.calm 7⟩).map fun e₁ =>
        (e₁.memtable.isFull,
          (LSMEngine.new (flushCrash e₁ 7 (.writing 12)) e₁.dataDir 1 1 8 Device.sound).answer
            (ascii "a") 8,
          e₁.answer (ascii "a") 8)) =
      some (true, some (some (cutValue TOMBSTONE 3)), some none) := by decide +kernel
  rcases Option.bind_eq_some_iff.mp hfacts with ⟨e, hrun, hmap⟩
  rcases Option.map_eq_some_iff.mp hmap with ⟨e₁, hsteps, htriple⟩
  rcases Prod.mk.inj htriple with ⟨hfull, hpair⟩
  rcases Prod.mk.inj hpair with ⟨hnew, hold⟩
  have hsame := hall expiredMark ⟨.set (ascii "z") (ascii "y"), Env.calm 7⟩ e e₁ (.writing 12)
    ⟨by decide, by decide, by decide, by decide +kernel, by decide +kernel⟩ (by decide) hrun
    hsteps hfull 1 1 8 8 (ascii "a") (by decide) (by decide) (le_refl 8)
  exact absurd (hnew.symm.trans (hsame.trans hold)) (by decide)

end VaultDB
