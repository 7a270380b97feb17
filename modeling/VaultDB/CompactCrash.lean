import VaultDB.LogReplay
import VaultDB.Restart
import VaultDB.TornTable

/-! # Crashes during a compaction

`compact` writes the merge of the two oldest tables, then removes them. The
output is named by the current time, so from its first byte on a restart takes
it for the newest table: what is written of it hides the other tables, a last
value cut short included. Where nothing else goes wrong (no device fails, all
strings fit, the clock does not go back, and the compactions before merged
current values) a restart answers as before exactly when every written value
that no log record hides reads as the engine reads its key (`compact_crash_iff`).
-/

namespace VaultDB

open Text Codec FileStream SSTable Expiring LSMEngine

variable {dataDir : Bytes} {cacheSize : Nat} {threshold : UInt64}

/-- A point in `compact`: before the output is created, after `n` bytes of it
have reached the disk, and after each of the two removals. -/
inductive CompactPoint where
  | before
  | writing (n : Nat)
  | olderRemoved
  | newerRemoved
deriving DecidableEq

/-- What is on disk when the compaction of `e` is cut at the point. -/
def compactCrash (e : LSMEngine) (now : Nat) (point : CompactPoint) : DataDir :=
  match e.sstables with
  | older :: newer :: _ =>
    let path := compactedPath e.dataDir now
    let output := fun dev => (SSTable.compact older newer dev e.disk.tables path).2
    match point with
    | .before => e.disk
    | .writing n => ⟨e.disk.walLog, output (Device.full n)⟩
    | .olderRemoved => ⟨e.disk.walLog, Assoc.erase older.path (output Device.sound)⟩
    | .newerRemoved =>
      ⟨e.disk.walLog, Assoc.erase newer.path (Assoc.erase older.path (output Device.sound))⟩
  | _ => e.disk

/-- The merged entries a restart sees at the point. -/
def writtenEntries (e : LSMEngine) : CompactPoint → List Entry
  | .before => []
  | .writing n => torn (outputEntries e .compact) n
  | _ => outputEntries e .compact

/-- The written entries are current, and where they are silent the directory
reads at `t` as the engine does. -/
structure CrashSafe (t : Nat) (e : LSMEngine) (entries : List Entry) : Prop where
  written : Current t e entries
  rest : ∀ key, Assoc.get key entries = none →
    visible t (restored e.disk key) = visible t (e.lookup key)

/-- On a directory that is faithful only the written entries matter. -/
theorem crashSafe_iff_current {t : Nat} {e : LSMEngine} {P : PlainMap}
    (hfaithful : Faithful t P e.disk)
    (hreads : ∀ key, visible t (e.lookup key) = visible t (P key)) (entries : List Entry) :
    CrashSafe t e entries ↔ Current t e entries := by
  refine ⟨fun h => h.written, fun h => ⟨h, ?_⟩⟩
  intro key _
  rw [hfaithful key, hreads key]

/-- At every point the directory is the old one with the written entries on
top of the tables, for every key. -/
theorem restored_compactCrash {e : LSMEngine} (h : Sound e) {used : List Nat}
    (hnamed : Named dataDir used e) {now : Nat} (hgrow : GrowingNames (used ++ [now]))
    (hmany : 4 < e.sstables.length) (point : CompactPoint) :
    Loadable (compactCrash e now point).tables ∧
      NamedFiles dataDir (used ++ [now]) (compactCrash e now point).tables ∧
      ∀ key, restored (compactCrash e now point) key = (logged e.records key).or
        ((Assoc.get key (writtenEntries e point)).or
          (readPaths e.disk.tables (tablePaths e.disk.tables) key)) := by
  rcases exists_two_oldest hmany with ⟨older, newer, staying, hsplit⟩
  have hload := h.loadable hnamed
  have hnames := hnamed.of_file h.stored
  rcases all_outputEntries h hsplit with ⟨hfits, hmerged, -⟩
  -- every file at a later point is an old one or the output
  have hput : ∀ content, NamedFiles dataDir (used ++ [now])
      (Assoc.put (compactedPath dataDir now) content e.disk.tables) :=
    fun content => hnames.put (Or.inr rfl) content
  have hwhole := @restored_compacting e h dataDir used hnamed now hgrow older newer staying hsplit
  unfold compactCrash
  simp only [hsplit, compact_eq_flushedTo, ← outputEntries_compact hsplit, hnamed.dir,
    putFile_sound, putFile_full]
  cases point with
  | before =>
      refine ⟨hload, hnames.mono (List.subset_append_left _ _), ?_⟩
      intro key
      rfl
  | writing n =>
      have hall := all_take hfits n
      have hsorted : Assoc.Sorted
          (entryReader.all ((encodeEntries (outputEntries e .compact)).take n)) := by
        rw [hall]
        exact sorted_torn hmerged n
      refine ⟨(hload.tablePaths_put hgrow hnames (Or.inr rfl) hsorted).1, hput _, ?_⟩
      intro key
      have hrestored := restored_put e.disk.walLog hload hgrow hnames (Or.inr rfl)
        hsorted key
      rw [hall] at hrestored
      exact hrestored
  | olderRemoved =>
      -- the complete output hides the input that is gone
      rcases hwhole (Or.inr (Or.inl rfl)) with ⟨hloadable, hrestored⟩
      exact ⟨hloadable, (hput _).erase _, hrestored⟩
  | newerRemoved =>
      rcases hwhole (Or.inr (Or.inr rfl)) with ⟨hloadable, hrestored⟩
      exact ⟨hloadable, ((hput _).erase _).erase _, hrestored⟩

/-- What the log holds is right at later times, so only unlogged keys decide. -/
theorem faithful_compactCrash_iff {t : Nat} {e : LSMEngine} {disk : DataDir}
    {entries : List Entry}
    (hrestored : ∀ key, restored disk key = (logged e.records key).or
      ((Assoc.get key entries).or (readPaths e.disk.tables (tablePaths e.disk.tables) key)))
    (hlogged : ∀ key, visible t (e.replayed key) = visible t (e.lookup key)) :
    Faithful t e.lookup disk ↔ CrashSafe t e entries := by
  have hbefore : ∀ key, restored e.disk key = (logged e.records key).or
      (readPaths e.disk.tables (tablePaths e.disk.tables) key) := fun key => rfl
  constructor
  · intro h
    refine ⟨?_, ?_⟩
    · intro key value hlog hvalue
      have hkey := h key
      rw [hrestored, hlog, hvalue] at hkey
      exact hkey
    · intro key hnone
      have hkey := h key
      rw [hrestored, hnone, Option.none_or] at hkey
      exact hkey
  · intro h key
    rw [hrestored]
    cases hlog : logged e.records key with
    | some value =>
        have hkey := hlogged key
        unfold replayed at hkey
        rw [hlog] at hkey
        exact hkey
    | none =>
        -- an unlogged key: the written part decides, else the rest
        cases hvalue : Assoc.get key entries with
        | some value => exact h.written key value hlog hvalue
        | none =>
            have hkey := h.rest key hvalue
            rw [hbefore, hlog] at hkey
            exact hkey

/-- A restart answers as before exactly when what is written of the output is
current and the rest of the directory was. -/
theorem Regular.restartsAs_compactCrash_iff {evs : List Event} {ev : Event} (hop : ev.op = .compact)
    (h : Regular dataDir cacheSize threshold (evs ++ [ev])) {e : LSMEngine}
    (hrun : Machine.run LSMEngine.step (start dataDir cacheSize threshold) evs = some e)
    (hmany : 4 < e.sstables.length) (point : CompactPoint) :
    RestartsAs (evs ++ [ev]) (compactCrash e ev.env.now point) e ↔
      ∀ t, ev.env.now < t → CrashSafe t e (writtenEntries e point) := by
  have hpre := h.isPrefix (List.prefix_append evs [ev])
  have hsound := sound_run hpre.along hrun
  have hnamed := named_run hrun
  -- the step would have named its file at the reading of the event
  have hgrow : GrowingNames (Machine.trace LSMEngine.step nameReadings
      (start dataDir cacheSize threshold) evs ++ [ev.env.now]) := by
    have hwrites := (writesTable_compact hop).mpr hmany
    have hstep : e.step ev = some (e.compact ev.env.now ev.env.dev) := by
      unfold LSMEngine.step
      rw [hop]
    have hnames := h.names
    rw [Machine.trace_concat hrun hstep] at hnames
    rw [nameReadings_of_writes hwrites] at hnames
    exact hnames
  rcases restored_compactCrash hsound hnamed hgrow hmany point with ⟨hload, hnames, hrestored⟩
  rw [restartsAs_iff (P := e.lookup) hload]
  · apply forall_congr'
    intro t
    rw [← h.now_lt_iff t]
    apply imp_congr_right
    intro ht
    apply faithful_compactCrash_iff hrestored
    have hlater := later_of_concat ((h.now_lt_iff t).mp ht)
    exact visible_replayed hpre.along hrun fun r hr => Nat.le_of_lt (hlater r hr)
  · intro ms hms
    rw [hnamed.dir]
    exact hnames.not_mem_of_later (later_of_names_concat hms) (Or.inl rfl)
  · intro t _ key
    exact hsound.toLayered.answer key t

/-- A compaction cut at any point is followed by a restart that answers as
before, if no device fails, all strings fit, the clock does not go back, the
compactions before merged current values, and what is written of the output is
current: the winners of the two oldest tables, a last value cut short being
filled up with zero bytes. Where no device fails, all fits and the clock does
not go back, what is written has to be current. -/
theorem compact_crash_iff {evs : List Event} {ev : Event} (hop : ev.op = .compact)
    (hnames : GrowingNames (Machine.trace LSMEngine.step nameReadings
      (start dataDir cacheSize threshold) (evs ++ [ev]))) {e : LSMEngine}
    (hrun : Machine.run LSMEngine.step (start dataDir cacheSize threshold) evs = some e)
    (hmany : 4 < e.sstables.length) (point : CompactPoint) :
    (Unhindered (evs ++ [ev]) ∧ ((evs ++ [ev]).flatMap readings).Pairwise (· ≤ ·) ∧
        Machine.Along LSMEngine.step CompactsCurrent (start dataDir cacheSize threshold) evs ∧
        (∀ t, ev.env.now < t → Current t e (writtenEntries e point)) →
      RestartsAs (evs ++ [ev]) (compactCrash e ev.env.now point) e) ∧
    (Unhindered (evs ++ [ev]) → ((evs ++ [ev]).flatMap readings).Pairwise (· ≤ ·) →
      RestartsAs (evs ++ [ev]) (compactCrash e ev.env.now point) e →
      ∀ t, ev.env.now < t → Current t e (writtenEntries e point)) := by
  constructor
  · rintro ⟨hunhindered, hclock, hmerges, hcurrent⟩
    have h := hunhindered.regular hclock hnames
    apply (h.restartsAs_compactCrash_iff hop hrun hmany point).mpr
    intro t ht
    -- the compactions before have left a faithful directory, so the rest is right
    have hpre := h.isPrefix (List.prefix_append evs [ev])
    have hlater := later_of_concat ((h.now_lt_iff t).mp ht)
    have hfaithful := (faithful_run_iff hpre).mpr hmerges evs List.prefix_rfl e hrun t hlater
    exact (crashSafe_iff_current hfaithful (hpre.reads hrun hlater) _).mpr (hcurrent t ht)
  · intro hunhindered hclock hsame t ht
    have h := hunhindered.regular hclock hnames
    exact ((h.restartsAs_compactCrash_iff hop hrun hmany point).mp hsame t ht).written

/-- Five tables with one key each. -/
def fiveTables : List Event :=
  [⟨.set (ascii "a") (ascii "xyz"), Env.calm 11⟩, ⟨.set (ascii "b") (ascii "x"), Env.calm 12⟩,
    ⟨.set (ascii "c") (ascii "x"), Env.calm 13⟩, ⟨.set (ascii "d") (ascii "x"), Env.calm 14⟩,
    ⟨.set (ascii "e") (ascii "x"), Env.calm 15⟩]

theorem compact_crash_iff_fiveTables :
    ∃ e, Machine.run LSMEngine.step (start [] 1 1) fiveTables = some e ∧
      (RestartsAs (fiveTables ++ [⟨.compact, Env.calm 16⟩]) (compactCrash e 16 (.writing 10)) e →
        ∀ t, 16 < t → Current t e (writtenEntries e (.writing 10))) := by
  have hcount : (Machine.run LSMEngine.step (start [] 1 1) fiveTables).map
      (fun e => e.sstables.length) = some 5 := by decide +kernel
  have hunhindered : Unhindered (fiveTables ++ [⟨.compact, Env.calm 16⟩]) := by decide
  have hnames : GrowingNames (Machine.trace LSMEngine.step nameReadings (start [] 1 1)
      (fiveTables ++ [⟨.compact, Env.calm 16⟩])) := ⟨by decide +kernel, by decide +kernel⟩
  rcases Option.map_eq_some_iff.mp hcount with ⟨e, hrun, hlen⟩
  have hmany : 4 < e.sstables.length := by rw [hlen]; decide
  exact ⟨e, hrun,
    (compact_crash_iff rfl hnames hrun hmany (.writing 10)).2 hunhindered (by decide)⟩

/-- The output is cut one byte into the value of `a`: after a restart `a`
reads as that byte and zeros, though its table is still there. -/
theorem torn_output_is_read :
    ¬ ∀ (evs : List Event) (ev : Event) (e : LSMEngine) (point : CompactPoint),
      ev.op = .compact → Regular [] 1 1 (evs ++ [ev]) →
      Machine.run LSMEngine.step (start [] 1 1) evs = some e → 4 < e.sstables.length →
      RestartsAs (evs ++ [ev]) (compactCrash e ev.env.now point) e := by
  intro hall
  have hfacts : (Machine.run LSMEngine.step (start [] 1 1) fiveTables).map (fun e =>
      (e.sstables.length,
        (LSMEngine.new (compactCrash e 16 (.writing 10)) e.dataDir 1 1 17 Device.sound).answer
          (ascii "a") 17,
        e.answer (ascii "a") 17)) =
      some (5, some (some [120, 0, 0]), some (some (ascii "xyz"))) := by decide +kernel
  rcases Option.map_eq_some_iff.mp hfacts with ⟨e, hrun, htriple⟩
  rcases Prod.mk.inj htriple with ⟨hlen, hpair⟩
  rcases Prod.mk.inj hpair with ⟨hnew, hold⟩
  have hsame := hall fiveTables ⟨.compact, Env.calm 16⟩ e (.writing 10) rfl
    ⟨by decide, by decide, by decide, by decide +kernel, by decide +kernel⟩ hrun
    (by rw [hlen]; decide) 1 1 17 17 (ascii "a") (by decide) (by decide) (le_refl 17)
  exact absurd (hnew.symm.trans (hsame.trans hold)) (by decide)

end VaultDB
