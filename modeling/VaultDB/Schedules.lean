import VaultDB.Coherence
import VaultDB.Library.Collapse

/-! # Schedules of compaction

The background thread compacts at moments that no client chooses. A run is
compared with the run of its client operations alone, in which nothing is ever
compacted. Log, memtable, cache and the counters of both are the same (`front`),
and the files of the first hold what those of the second do, the oldest ones
merged into one (`compactions_erased`). So of two schedules of compactions with
the same operations, which differ at any points, none can be told from the
other by an answer; and with the same number of tables they have the same
entries in their files (`schedules_agree`).
-/

namespace VaultDB

open Text FileStream SSTable LSMEngine Collapse

/-- An operation of a client. -/
def isForeground (ev : Event) : Bool := ev.op ≠ .compact

namespace LSMEngine

/-- The engine without its tables and what only they have an effect on. -/
def front (e : LSMEngine) : LSMEngine :=
  { e with disk := ⟨e.disk.walLog, []⟩, sstables := [], bloomSaved := 0 }

/-- What the live files hold, the oldest first. -/
def tableEntries (e : LSMEngine) : List (List Entry) :=
  e.sstables.map fun table => table.readAll e.disk.tables

theorem length_tableEntries (e : LSMEngine) : e.tableEntries.length = e.sstables.length :=
  List.length_map _

variable {e e₀ e' e₀' : LSMEngine} {ev : Event} {key : Bytes}

theorem front_compact (e : LSMEngine) (now : Nat) (dev : Device) :
    (e.compact now dev).front = e.front := by
  unfold compact
  split_ifs
  · rfl
  · cases hsstables : e.sstables with
    | nil => rfl
    | cons older rest =>
        cases rest with
        | nil => rfl
        | cons newer staying => rfl

theorem front_flushIfFull (e : LSMEngine) (now : Nat) (dev : Device) :
    (e.flushIfFull now dev).front = (e.front.flushIfFull now dev).front := by
  unfold flushIfFull
  by_cases hfull : e.memtable.isFull
  · have hfull' : e.front.memtable.isFull := hfull
    rw [if_pos hfull, if_pos hfull']
    by_cases hnil : e.memtable.data = []
    · have hnil' : e.front.memtable.data = [] := hnil
      rw [flushMemtable_nil hnil, flushMemtable_nil hnil']
      rfl
    · have hnil' : e.front.memtable.data ≠ [] := hnil
      rw [flushMemtable_files hnil, flushMemtable_files hnil']
      rfl
  · have hfull' : ¬ e.front.memtable.isFull := hfull
    rw [if_neg hfull, if_neg hfull']
    rfl

/-- Neither `check_ttl` nor what is served looks at the tables. -/
theorem front_checkTtl (e : LSMEngine) (key value : Bytes) (now : Nat) :
    (e.checkTtl key value now).map (Prod.map id front) = e.front.checkTtl key value now := by
  unfold checkTtl
  cases parseExpiry value with
  | none => rfl
  | some p =>
      obtain ⟨expiryMs, actual⟩ := p
      dsimp only
      split_ifs
      · have hcache : e.front.cache = e.cache := rfl
        rw [hcache]
        cases e.cache.remove key with
        | none => rfl
        | some p => rfl
      · rfl

theorem front_serve (e : LSMEngine) (key value : Bytes) (now : Nat) :
    (e.serve key value now).map (Prod.map id front) = e.front.serve key value now := by
  unfold serve
  split_ifs
  · rfl
  · have hcache : e.front.cache = e.cache := rfl
    rw [hcache]
    cases e.cache.put key value with
    | none => rfl
    | some cache => exact front_checkTtl { e with cache := cache } key value now

/-- A read takes its course by the front and by what it finds below the cache. -/
theorem front_get (hfront : e.front = e₀.front) (hslow : e.slowPath key = e₀.slowPath key)
    (now : Nat) :
    (e.get key now).map (Prod.map id front) = (e₀.get key now).map (Prod.map id front) := by
  have hsame : e.cache = e₀.cache := by
    show e.front.cache = e₀.front.cache
    rw [hfront]
  have hhit : ∀ cache : LRUCache Bytes Bytes,
      front { e with readCount := e.readCount + 1, cache := cache, cacheHits := e.cacheHits + 1 } =
      front { e₀ with
        readCount := e₀.readCount + 1, cache := cache, cacheHits := e₀.cacheHits + 1 } :=
    fun cache => congrArg (fun s : LSMEngine => { s with
      readCount := s.readCount + 1, cache := cache, cacheHits := s.cacheHits + 1 }) hfront
  have hmiss : ∀ (cache : LRUCache Bytes Bytes) (saved saved₀ : UInt64),
      front { e with readCount := e.readCount + 1, cache := cache, bloomSaved := saved } =
      front { e₀ with readCount := e₀.readCount + 1, cache := cache, bloomSaved := saved₀ } :=
    fun cache saved saved₀ => congrArg (fun s : LSMEngine => { s with
      readCount := s.readCount + 1, cache := cache }) hfront
  cases hcache : e.cache.get key with
  | none =>
      have hcache₀ : e₀.cache.get key = none := hsame ▸ hcache
      unfold get
      simp only [hcache, hcache₀, bind, Option.bind]
  | some p =>
      obtain ⟨cached, cache⟩ := p
      have hcache₀ : e₀.cache.get key = some (cached, cache) := hsame ▸ hcache
      cases cached with
      | some value =>
          rw [get_of_hit hcache, get_of_hit hcache₀]
          split_ifs
          · exact congrArg (fun s => some (none, s)) (hhit cache)
          · rw [front_checkTtl, front_checkTtl, hhit]
      | none =>
          obtain ⟨saved, hget⟩ := get_of_miss hcache now
          obtain ⟨saved₀, hget₀⟩ := get_of_miss hcache₀ now
          rw [hget, hget₀, hslow]
          cases e₀.slowPath key with
          | some value =>
              dsimp only
              rw [front_serve, front_serve, hmiss cache saved saved₀]
          | none => exact congrArg (fun s => some (none, s)) (hmiss cache saved saved₀)

/-! ## Writes -/

theorem front_setSteps (e : LSMEngine) (key value : Bytes) (env : Env) :
    (e.setSteps key value env).map front = e.front.setSteps key value env := by
  have hcache : e.front.cache = e.cache := rfl
  unfold setSteps
  rw [hcache]
  cases e.cache.put key value with
  | none => rfl
  | some cache => rfl

theorem front_delSteps (e : LSMEngine) (key : Bytes) (env : Env) :
    (e.delSteps key env).map front = e.front.delSteps key env := by
  have hcache : e.front.cache = e.cache := rfl
  unfold delSteps
  rw [hcache]
  cases e.cache.remove key with
  | none => rfl
  | some p => rfl

theorem front_set (e : LSMEngine) (key value : Bytes) (env : Env) :
    (e.set key value env).map front = (e.front.set key value env).map front := by
  have hsteps := front_setSteps e key value env
  unfold set
  rw [← hsteps]
  cases e.setSteps key value env with
  | none => rfl
  | some e₁ =>
      exact congrArg (fun s : LSMEngine => some { s with writeCount := s.writeCount + 1 })
        (front_flushIfFull e₁ env.now env.dev)

theorem front_del (e : LSMEngine) (key : Bytes) (env : Env) :
    (e.del key env).map front = (e.front.del key env).map front := by
  have hsteps := front_delSteps e key env
  unfold del
  rw [← hsteps]
  cases e.delSteps key env with
  | none => rfl
  | some e₁ => exact congrArg some (front_flushIfFull e₁ env.now env.dev)

/-- A client operation does to the front what front and slow path say. -/
theorem front_step (hop : isForeground ev = true) (hfront : e.front = e₀.front)
    (hslow : ∀ key, e.slowPath key = e₀.slowPath key) (hstep : e.step ev = some e')
    (hstep₀ : e₀.step ev = some e₀') : e'.front = e₀'.front := by
  have hmap : (e.step ev).map front = (e₀.step ev).map front := by
    obtain ⟨op, env⟩ := ev
    cases op with
    | set key value =>
        show (e.set key value env).map front = (e₀.set key value env).map front
        rw [front_set e, front_set e₀, hfront]
    | get key =>
        have hget := congrArg (Option.map Prod.snd) (front_get hfront (hslow key) env.now)
        simp only [Option.map_map] at hget
        show ((e.get key env.now).map Prod.snd).map front =
          ((e₀.get key env.now).map Prod.snd).map front
        rw [Option.map_map, Option.map_map]
        exact hget
    | del key =>
        show (e.del key env).map front = (e₀.del key env).map front
        rw [front_del e, front_del e₀, hfront]
    | compact => cases hop
  rw [hstep, hstep₀] at hmap
  exact Option.some.inj hmap

/-! ## Tables -/

/-- The entries a client operation flushes to a table. -/
def flushedBy (e : LSMEngine) (ev : Event) : List (List Entry) :=
  if writesTable e ev.op then [(memtableAt e ev.op).data] else []

theorem flushedBy_front (hop : isForeground ev = true) (hfront : e.front = e₀.front) :
    flushedBy e ev = flushedBy e₀ ev ∧ nameReadings e ev = nameReadings e₀ ev := by
  have hmemtable : e.memtable = e₀.memtable := by
    show e.front.memtable = e₀.front.memtable
    rw [hfront]
  have hwrites : writesTable e ev.op = writesTable e₀ ev.op := by
    obtain ⟨op, env⟩ := ev
    cases op with
    | compact => cases hop
    | _ =>
        unfold writesTable
        rw [hmemtable]
  have hdata : memtableAt e ev.op = memtableAt e₀ ev.op := by
    unfold memtableAt
    rw [hmemtable]
  unfold flushedBy nameReadings
  rw [hwrites, hdata]
  exact ⟨rfl, rfl⟩

/-- What the memtable holds where it may be flushed has lengths that fit. -/
theorem fits_memtableAt (h : Sound e) (hfits : OpFits ev.op) :
    ∀ entry ∈ (memtableAt e ev.op).data, EntryFits entry := by
  obtain ⟨op, env⟩ := ev
  cases op with
  | set key value => exact (h.ordered.set hfits.1 hfits.2).fits
  | get key => exact h.ordered.fits
  | del key => exact (h.ordered.set hfits fits_tombstone).fits
  | compact => exact h.ordered.fits

theorem readAll_encoded {files : Files} {table : SSTable} {entries : List Entry}
    (hfile : Assoc.get table.path files = some (encodeEntries entries))
    (hfits : ∀ entry ∈ entries, EntryFits entry) : table.readAll files = entries := by
  rw [readAll_eq hfile, all_encodeEntries hfits]

/-- An operation of a client adds what it flushes to the tables. -/
theorem tableEntries_foreground (h : Sound e) (horderly : Orderly e ev)
    (hop : isForeground ev = true) (hstep : e.step ev = some e') :
    e'.tableEntries = e.tableEntries ++ flushedBy e ev := by
  have hne : ev.op ≠ .compact := by simpa [isForeground] using hop
  unfold tableEntries flushedBy
  cases fileEffect hstep with
  | none hnone hsstables hfiles =>
      rw [hsstables, hfiles, if_neg (by rw [hnone]; exact Bool.false_ne_true), List.append_nil]
  | flushed table hop' hwrites hpath hsstables hfiles =>
      have hfresh := horderly.fresh hwrites
      rw [horderly.io.2, putFile_sound, outputEntries_of_ne hne] at hfiles
      rw [hsstables, hfiles, List.map_append, List.map_singleton, if_pos hwrites]
      congr 1
      · -- no file in place is overwritten
        apply List.map_congr_left
        intro other hother
        apply readAll_congr
        apply Assoc.get_put_ne
        intro heq
        exact hfresh (heq ▸ List.mem_map_of_mem hother)
      · rw [readAll_encoded (by rw [hpath]; exact Assoc.get_put_self _ _ _)
          (fits_memtableAt h horderly.fits)]
  | merged table older newer staying hop' hwrites hsplit hpath hsstables hfiles =>
      exact absurd hop' hne

/-- A compaction merges the first two, or changes nothing. -/
theorem tableEntries_compact (h : Sound e) (horderly : Orderly e ev)
    (hop : isForeground ev = false) (hstep : e.step ev = some e') :
    e'.tableEntries = e.tableEntries ∨ ∃ older newer staying,
      e.tableEntries = older :: newer :: staying ∧
      e'.tableEntries = mergeEntries older newer :: staying := by
  have hcompact : ev.op = .compact := by simpa [isForeground] using hop
  unfold tableEntries
  cases fileEffect hstep with
  | none hnone hsstables hfiles =>
      left
      rw [hsstables, hfiles]
  | flushed table hop' hwrites hpath hsstables hfiles => exact absurd hcompact hop'
  | merged table older newer staying hop' hwrites hsplit hpath hsstables hfiles =>
      right
      have hfresh := horderly.fresh hwrites
      have hpaths := h.stored.paths
      have hfits := h.toLayered.fits_merged hsplit
      rw [hcompact, horderly.io.2, putFile_sound, outputEntries_compact hsplit] at hfiles
      rw [hsplit] at hfresh hpaths
      simp only [List.map_cons, List.mem_cons, not_or, List.nodup_cons] at hfresh hpaths
      obtain ⟨hpo, hpn, hps⟩ := hfresh
      obtain ⟨⟨-, holder⟩, hnewer, -⟩ := hpaths
      refine ⟨older.readAll e.disk.tables, newer.readAll e.disk.tables,
        staying.map fun table => table.readAll e.disk.tables, by rw [hsplit]; rfl, ?_⟩
      rw [hsstables, hfiles, List.map_cons]
      congr 1
      · apply readAll_encoded _ hfits
        rw [hpath, Assoc.get_erase_ne hpn, Assoc.get_erase_ne hpo, Assoc.get_put_self]
      · -- the files that stay are neither written nor removed
        apply List.map_congr_left
        intro other hother
        have hmem := List.mem_map_of_mem (f := SSTable.path) hother
        have h₁ : other.path ≠ newer.path := fun heq => hnewer (heq ▸ hmem)
        have h₂ : other.path ≠ older.path := fun heq => holder (heq ▸ hmem)
        have h₃ : other.path ≠ outputPath e ev := fun heq => hps (heq ▸ hmem)
        apply readAll_congr
        rw [Assoc.get_erase_ne h₁, Assoc.get_erase_ne h₂, Assoc.get_put_ne h₃]

theorem sorted_tableEntries (h : Layered e) : ∀ entries ∈ e.tableEntries, Assoc.Sorted entries := by
  intro entries hentries
  obtain ⟨table, htable, rfl⟩ := List.mem_map.mp hentries
  exact (h.stored.backed table htable).sorted

/-- A lookup reads the memtable over the stack of the tables. -/
theorem lookup_tableEntries (e : LSMEngine) (key : Bytes) :
    e.lookup key = (e.memtable.get key).or
      (Layers.newest (e.tableEntries.map fun entries key => Assoc.get key entries) key) := by
  unfold lookup onDisk tableEntries
  rw [List.map_map]
  rfl

/-! ## Both runs -/

/-- A run with compactions beside the run of its client operations. -/
structure Shadows (e e₀ : LSMEngine) : Prop where
  sound : Sound e
  sound₀ : Sound e₀
  front : e.front = e₀.front
  /-- Some of the oldest tables are merged into one. -/
  merged : ∃ k, (k < e₀.tableEntries.length ∨ k = 0) ∧
    e.tableEntries = collapse mergeEntries k e₀.tableEntries

theorem Shadows.lookup (h : Shadows e e₀) (key : Bytes) : e.lookup key = e₀.lookup key := by
  obtain ⟨k, -, hmerged⟩ := h.merged
  have hmemtable : e.memtable = e₀.memtable := by
    show e.front.memtable = e₀.front.memtable
    rw [h.front]
  rw [lookup_tableEntries, lookup_tableEntries, hmemtable, hmerged]
  congr 1
  exact newest_collapse (fun _ _ => sorted_mergeEntries)
    (fun _ _ key ha hb => get_mergeEntries ha hb key) (sorted_tableEntries h.sound₀.toLayered) key

theorem Shadows.foreground (h : Shadows e e₀) (horderly : Orderly e ev) (horderly₀ : Orderly e₀ ev)
    (hop : isForeground ev = true) (hstep : e.step ev = some e') (hstep₀ : e₀.step ev = some e₀') :
    Shadows e' e₀' := by
  have hslow : ∀ key, e.slowPath key = e₀.slowPath key := by
    intro key
    rw [h.sound.toLayered.slowPath_eq, h.sound₀.toLayered.slowPath_eq, h.lookup]
  refine ⟨h.sound.step horderly.io horderly.fits horderly.fresh hstep,
    h.sound₀.step horderly₀.io horderly₀.fits horderly₀.fresh hstep₀,
    front_step hop h.front hslow hstep hstep₀, ?_⟩
  obtain ⟨k, hk, hmerged⟩ := h.merged
  rw [tableEntries_foreground h.sound horderly hop hstep,
    tableEntries_foreground h.sound₀ horderly₀ hop hstep₀, (flushedBy_front hop h.front).1, hmerged]
  refine ⟨k, ?_, ?_⟩
  · rw [List.length_append]
    omega
  · unfold flushedBy
    split_ifs
    · exact (collapse_concat hk _).symm
    · rw [List.append_nil, List.append_nil]

theorem Shadows.background (h : Shadows e e₀) (horderly : Orderly e ev)
    (hop : isForeground ev = false) (hstep : e.step ev = some e') : Shadows e' e₀ := by
  have hcompact : ev.op = .compact := by simpa [isForeground] using hop
  refine ⟨h.sound.step horderly.io horderly.fits horderly.fresh hstep, h.sound₀, ?_, ?_⟩
  · rw [← step_compact hcompact hstep, front_compact, h.front]
  · obtain ⟨k, hk, hmerged⟩ := h.merged
    rcases tableEntries_compact h.sound horderly hop hstep with
      hsame | ⟨older, newer, staying, hsplit, hnext⟩
    · exact ⟨k, hk, hsame.trans hmerged⟩
    · rw [hmerged] at hsplit
      have hlong : k + 1 < e₀.tableEntries.length := by
        have hlen := length_collapse mergeEntries hk
        rw [hsplit, List.length_cons, List.length_cons] at hlen
        omega
      exact ⟨k + 1, Or.inl hlong, hnext.trans (collapse_succ hlong hsplit).symm⟩

end LSMEngine

variable {dataDir : Bytes} {cacheSize : Nat} {threshold : UInt64}

/-- Run lemma of `Shadows.foreground` and `Shadows.background`. -/
theorem shadows_run (hcache : 0 < cacheSize) {evs : List Event}
    (hio : ∀ ev ∈ evs, NoIoError ev) (hfits : ∀ ev ∈ evs, OpFits ev.op)
    (hnames : (Machine.trace LSMEngine.step nameReadings (start dataDir cacheSize threshold)
      evs).Nodup) :
    ∃ e e₀, Machine.run LSMEngine.step (start dataDir cacheSize threshold) evs = some e ∧
      Machine.run LSMEngine.step (start dataDir cacheSize threshold)
        (evs.filter isForeground) = some e₀ ∧
      (Machine.trace LSMEngine.step nameReadings (start dataDir cacheSize threshold)
        (evs.filter isForeground)).Sublist
        (Machine.trace LSMEngine.step nameReadings (start dataDir cacheSize threshold) evs) ∧
      Shadows e e₀ := by
  induction evs using List.reverseRecOn with
  | nil =>
      exact ⟨_, _, rfl, rfl, List.Sublist.refl _, sound_start, sound_start, rfl, 0, Or.inr rfl,
        (collapse_zero _).symm⟩
  | append_singleton evs ev ih =>
      have horder := along_orderly hio hfits hnames
      obtain ⟨e, e₀, hrun, hrun₀, hsub, hshadows⟩ :=
        ih (fun ev' hev' => hio ev' (List.mem_append_left _ hev'))
          (fun ev' hev' => hfits ev' (List.mem_append_left _ hev'))
          (hnames.sublist (Machine.isPrefix_trace _ evs [ev]).sublist)
      have hcap : 0 < e.cache.capacity := by
        rw [capacity_run hrun]
        exact hcache
      obtain ⟨e', hstep⟩ := hshadows.sound.step_isSome hcap ev
      have horderly := (Machine.along_concat.mp horder).2 e e' hrun hstep
      have hrun' := Machine.run_concat.mpr ⟨e, hrun, hstep⟩
      rw [Machine.trace_concat hrun hstep] at hnames ⊢
      cases hop : isForeground ev with
      | true =>
          have hcap₀ : 0 < e₀.cache.capacity := by
            rw [capacity_run hrun₀]
            exact hcache
          obtain ⟨e₀', hstep₀⟩ := hshadows.sound₀.step_isSome hcap₀ ev
          have hsame := (flushedBy_front hop hshadows.front).2
          -- the shorter run names fewer files, and this one by the same reading
          have horderly₀ : Orderly e₀ ev := by
            refine ⟨horderly.io, horderly.fits, (named_run hrun₀).fresh ?_⟩
            rw [← hsame]
            intro ms hms hused
            exact (List.nodup_append.mp hnames).2.2 ms (hsub.subset hused) ms hms rfl
          have hfilter : (evs ++ [ev]).filter isForeground = evs.filter isForeground ++ [ev] := by
            rw [List.filter_append, List.filter_singleton, hop, cond_true]
          rw [hfilter, Machine.trace_concat hrun₀ hstep₀, ← hsame]
          exact ⟨e', e₀', hrun', Machine.run_concat.mpr ⟨e₀, hrun₀, hstep₀⟩, hsub.append_right _,
            hshadows.foreground horderly horderly₀ hop hstep hstep₀⟩
      | false =>
          have hfilter : (evs ++ [ev]).filter isForeground = evs.filter isForeground := by
            rw [List.filter_append, List.filter_singleton, hop, cond_false, List.append_nil]
          rw [hfilter]
          exact ⟨e', e₀, hrun', hrun₀, hsub.trans (List.sublist_append_left _ _),
            hshadows.background horderly hop hstep⟩

/-- No device fails, lengths fit and no name is used twice: a run with
compactions at any points ends as the run of its client operations alone does,
with the same log, memtable, cache and counters, and the same answers. Its
table files hold what the files of that run hold, some of the oldest merged
into one by newer-wins. -/
theorem compactions_erased (hcache : 0 < cacheSize) {evs : List Event}
    (hio : ∀ ev ∈ evs, NoIoError ev) (hfits : ∀ ev ∈ evs, OpFits ev.op)
    (hnames : (Machine.trace LSMEngine.step nameReadings (start dataDir cacheSize threshold)
      evs).Nodup) :
    ∃ e e₀ k, Machine.run LSMEngine.step (start dataDir cacheSize threshold) evs = some e ∧
      Machine.run LSMEngine.step (start dataDir cacheSize threshold)
        (evs.filter isForeground) = some e₀ ∧
      e.front = e₀.front ∧ e.sstables.length + k = e₀.sstables.length ∧
      e.tableEntries = collapse mergeEntries k e₀.tableEntries ∧
      ∀ key now, e.answer key now = e₀.answer key now := by
  obtain ⟨e, e₀, hrun, hrun₀, -, hshadows⟩ := shadows_run hcache hio hfits hnames
  obtain ⟨k, hk, hmerged⟩ := hshadows.merged
  refine ⟨e, e₀, k, hrun, hrun₀, hshadows.front, ?_, hmerged, ?_⟩
  · have hlen := length_collapse mergeEntries hk
    rwa [← hmerged, length_tableEntries, length_tableEntries] at hlen
  · intro key now
    rw [hshadows.sound.toLayered.answer, hshadows.sound₀.toLayered.answer, hshadows.lookup]

/-- Six writes of a table each. The first compaction finds too few tables, the
second merges the two oldest of six. -/
def mergedOnce : List Event :=
  [⟨.set (ascii "a") (ascii "1"), Env.calm 1⟩, ⟨.compact, Env.calm 2⟩,
    ⟨.set (ascii "b") (ascii "2"), Env.calm 3⟩, ⟨.set (ascii "a") (ascii "3"), Env.calm 4⟩,
    ⟨.del (ascii "b"), Env.calm 5⟩, ⟨.set (ascii "c") (ascii "4"), Env.calm 6⟩,
    ⟨.set (ascii "d") (ascii "5"), Env.calm 7⟩, ⟨.compact, Env.calm 8⟩]

theorem compactions_erased_mergedOnce :
    ∃ e e₀ k, Machine.run LSMEngine.step (start [] 2 1) mergedOnce = some e ∧
      Machine.run LSMEngine.step (start [] 2 1) (mergedOnce.filter isForeground) = some e₀ ∧
      e.front = e₀.front ∧ e.sstables.length + k = e₀.sstables.length ∧
      e.tableEntries = collapse mergeEntries k e₀.tableEntries ∧
      ∀ key now, e.answer key now = e₀.answer key now :=
  compactions_erased (by decide) (by decide) (by decide) (by decide +kernel)

/-- Two schedules of compactions around the same operations: no answer tells
them apart, and where they leave as many tables they leave the same entries in
them. -/
theorem schedules_agree (hcache : 0 < cacheSize) {evs evs' : List Event}
    (hio : ∀ ev ∈ evs, NoIoError ev) (hfits : ∀ ev ∈ evs, OpFits ev.op)
    (hnames : (Machine.trace LSMEngine.step nameReadings (start dataDir cacheSize threshold)
      evs).Nodup)
    (hio' : ∀ ev ∈ evs', NoIoError ev) (hfits' : ∀ ev ∈ evs', OpFits ev.op)
    (hnames' : (Machine.trace LSMEngine.step nameReadings (start dataDir cacheSize threshold)
      evs').Nodup)
    (hsame : evs'.filter isForeground = evs.filter isForeground) :
    ∃ e e', Machine.run LSMEngine.step (start dataDir cacheSize threshold) evs = some e ∧
      Machine.run LSMEngine.step (start dataDir cacheSize threshold) evs' = some e' ∧
      e'.front = e.front ∧ (∀ key now, e'.answer key now = e.answer key now) ∧
      (e'.sstables.length = e.sstables.length → e'.tableEntries = e.tableEntries) := by
  obtain ⟨e, e₀, hrun, hrun₀, -, hshadows⟩ := shadows_run hcache hio hfits hnames
  obtain ⟨e', e₀', hrun', hrun₀', -, hshadows'⟩ := shadows_run hcache hio' hfits' hnames'
  rw [hsame, hrun₀] at hrun₀'
  cases hrun₀'
  refine ⟨e, e', hrun, hrun', hshadows'.front.trans hshadows.front.symm, ?_, ?_⟩
  · intro key now
    rw [hshadows'.sound.toLayered.answer, hshadows.sound.toLayered.answer, hshadows'.lookup,
      hshadows.lookup]
  · intro hcount
    obtain ⟨k, hk, hmerged⟩ := hshadows.merged
    obtain ⟨k', hk', hmerged'⟩ := hshadows'.merged
    have hlen := length_collapse mergeEntries hk
    have hlen' := length_collapse mergeEntries hk'
    rw [← hmerged, length_tableEntries] at hlen
    rw [← hmerged', length_tableEntries] at hlen'
    have hequal : k' = k := by omega
    rw [hmerged', hmerged, hequal]

end VaultDB
