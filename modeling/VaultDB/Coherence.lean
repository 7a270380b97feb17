import VaultDB.LongValues
import VaultDB.Reads
import VaultDB.Refinement

/-! # Coherence of the cache

What the cache holds for a key is what the slow path finds for it, in every
state of an orderly run. So no answer depends on the cache: entries may be
dropped from it at any moment, and the run goes on with the same files, the
same memtable and the same answers (`Twin`, `cache_coherent`).
-/

namespace VaultDB

open Text Codec FileStream SSTable Expiring LSMEngine

/-- Some entries, or all or none, are gone from the cache. -/
structure Thinned (cache cache' : LRUCache Bytes Bytes) : Prop where
  linked : cache'.Linked
  capacity : cache'.capacity = cache.capacity
  holds : ∀ key value, cache'.Holds key value → cache.Holds key value

theorem thinned_clear (cache : LRUCache Bytes Bytes) : Thinned cache cache.clear :=
  ⟨LRUCache.Linked.clear, rfl, fun _ _ ⟨_, hn, _⟩ => absurd hn List.not_mem_nil⟩

/-- A run of the events in which entries are dropped from the cache now and then. -/
inductive ThinnedRun : LSMEngine → List Event → LSMEngine → Prop where
  | nil (e : LSMEngine) : ThinnedRun e [] e
  | step {e e₁ e' : LSMEngine} {ev : Event} {evs : List Event} (hstep : e.step ev = some e₁)
      (hrest : ThinnedRun e₁ evs e') : ThinnedRun e (ev :: evs) e'
  | drop {e e' : LSMEngine} {evs : List Event} (cache : LRUCache Bytes Bytes)
      (hthinned : Thinned e.cache cache) (hrest : ThinnedRun { e with cache := cache } evs e') :
      ThinnedRun e evs e'

namespace LSMEngine

/-! ## Engines that differ in the cache -/

/-- Equal but for the cache and the counters. -/
structure Twin (e e' : LSMEngine) : Prop where
  dataDir : e'.dataDir = e.dataDir
  disk : e'.disk = e.disk
  memtable : e'.memtable = e.memtable
  wal : e'.wal = e.wal
  sstables : e'.sstables = e.sstables

theorem Twin.refl (e : LSMEngine) : Twin e e := ⟨rfl, rfl, rfl, rfl, rfl⟩

variable {e e' : LSMEngine}

theorem Twin.lookup (h : Twin e e') : e'.lookup = e.lookup :=
  lookup_congr h.disk h.memtable h.sstables

theorem Twin.fresh (h : Twin e e') {ev : Event} (hfresh : Fresh e ev) : Fresh e' ev := by
  have hout : outputPath e' ev = outputPath e ev := by
    unfold outputPath
    rw [h.dataDir]
  have hwrites : writesTable e' ev.op = writesTable e ev.op := by
    unfold writesTable
    rw [h.memtable, h.sstables]
  unfold Fresh at *
  rw [hout, hwrites, h.sstables]
  exact hfresh

theorem Twin.flushIfFull (h : Twin e e') (now : Nat) (dev : Device) :
    Twin (e.flushIfFull now dev) (e'.flushIfFull now dev) := by
  unfold LSMEngine.flushIfFull
  rw [h.memtable]
  by_cases hfull : e.memtable.isFull = true
  · rw [if_pos hfull, if_pos hfull]
    by_cases hnil : e.memtable.data = []
    · rw [flushMemtable_nil hnil, flushMemtable_nil (h.memtable ▸ hnil)]
      exact h
    · rw [flushMemtable_files hnil, flushMemtable_files (h.memtable ▸ hnil)]
      refine ⟨h.dataDir, ?_, ?_, rfl, ?_⟩
      · rw [h.dataDir, h.disk, h.memtable]
      · rw [h.memtable]
      · rw [h.dataDir, h.disk, h.memtable, h.sstables]
  · rw [if_neg hfull, if_neg hfull]
    exact h

/-- A coherent engine finds what its layers hold. -/
theorem Layered.found_eq (h : Layered e) (key : Bytes) : e.found key = e.lookup key := by
  unfold found
  cases hget : Assoc.get key e.cache.contents with
  | none => exact h.slowPath_eq key
  | some value => exact (h.coherent key value (h.linked.get_contents.mp hget)).symm

/-- The log and the memtable of a write do not depend on the cache. -/
theorem Twin.firstSteps (h : Twin e e') {ev : Event} {e₁ e₁' : LSMEngine}
    (hsteps : e.firstSteps ev = some e₁) (hsteps' : e'.firstSteps ev = some e₁') : Twin e₁ e₁' := by
  rcases ev with ⟨op, env⟩
  cases op with
  | set key value =>
      rcases setSteps_some hsteps with ⟨cache, -, rfl⟩
      rcases setSteps_some hsteps' with ⟨cache', -, rfl⟩
      exact ⟨h.dataDir, by rw [h.disk, h.wal], by rw [h.memtable], by rw [h.disk, h.wal],
        h.sstables⟩
  | get key => cases hsteps
  | del key =>
      rcases delSteps_some hsteps with ⟨b, cache, -, rfl⟩
      rcases delSteps_some hsteps' with ⟨b', cache', -, rfl⟩
      exact ⟨h.dataDir, by rw [h.disk, h.wal], by rw [h.memtable], by rw [h.disk, h.wal],
        h.sstables⟩
  | compact => cases hsteps

theorem Twin.write (h : Twin e e') {ev : Event} {record : WALEntry}
    (hrecord : recordOf ev = some record) {e₁ e₁' : LSMEngine} (hstep : e.step ev = some e₁)
    (hstep' : e'.step ev = some e₁') : Twin e₁ e₁' := by
  rcases firstSteps_of_record hrecord hstep with ⟨e₂, hsteps, hsame⟩
  rcases firstSteps_of_record hrecord hstep' with ⟨e₂', hsteps', hsame'⟩
  have hflushed := (h.firstSteps hsteps hsteps').flushIfFull ev.env.now ev.env.dev
  refine ⟨?_, ?_, ?_, ?_, ?_⟩
  · rw [hsame'.dataDir, hsame.dataDir, hflushed.dataDir]
  · rw [hsame'.disk, hsame.disk, hflushed.disk]
  · rw [hsame'.memtable, hsame.memtable, hflushed.memtable]
  · rw [hsame'.wal, hsame.wal, hflushed.wal]
  · rw [hsame'.sstables, hsame.sstables, hflushed.sstables]

/-- Both reads find the same raw value, so both mark the key deleted or neither does. -/
theorem Twin.get (h : Twin e e') (hlayered : Layered e) (hlayered' : Layered e') {key : Bytes}
    {now : Nat} {r r' : Option Bytes} {e₁ e₁' : LSMEngine} (hget : e.get key now = some (r, e₁))
    (hget' : e'.get key now = some (r', e₁')) : Twin e₁ e₁' := by
  have hframe := readFrame_get hget
  have hframe' := readFrame_get hget'
  have hfinds := get_finds hlayered.linked hget
  have hfinds' := get_finds hlayered'.linked hget'
  rw [hlayered.found_eq] at hfinds
  rw [hlayered'.found_eq, h.lookup] at hfinds'
  have hmemtable : e₁'.memtable = e₁.memtable := by
    rcases hfinds.memtable_cases with ⟨value, hraw, hexpired, hmark⟩ | ⟨hlive, hsame⟩
    · rw [hfinds'.lapsed value hraw hexpired, hmark, h.memtable]
    · rw [hfinds'.kept hlive, hsame, h.memtable]
  exact ⟨by rw [hframe'.dataDir, hframe.dataDir, h.dataDir],
    by rw [hframe'.disk, hframe.disk, h.disk], hmemtable,
    by rw [hframe'.wal, hframe.wal, h.wal],
    by rw [hframe'.sstables, hframe.sstables, h.sstables]⟩

theorem Twin.compact (h : Twin e e') (now : Nat) (dev : Device) :
    Twin (e.compact now dev) (e'.compact now dev) := by
  by_cases hmany : 4 < e.sstables.length
  · rcases exists_two_oldest hmany with ⟨older, newer, staying, hsplit⟩
    rw [compact_files hmany hsplit, compact_files (h.sstables ▸ hmany) (h.sstables ▸ hsplit)]
    refine ⟨h.dataDir, ?_, h.memtable, h.wal, ?_⟩
    · rw [h.dataDir, h.disk]
    · rw [h.dataDir, h.disk]
  · rw [compact_of_few hmany, compact_of_few (h.sstables ▸ hmany)]
    exact h

/-- One step of two engines that differ in the cache. -/
theorem Twin.step (h : Twin e e') (hlayered : Layered e) (hlayered' : Layered e') {ev : Event}
    {e₁ e₁' : LSMEngine} (hstep : e.step ev = some e₁) (hstep' : e'.step ev = some e₁') :
    Twin e₁ e₁' := by
  rcases ev with ⟨op, env⟩
  cases op with
  | set key value => exact h.write rfl hstep hstep'
  | get key =>
      rcases LSMEngine.step_get rfl hstep with ⟨r, hget⟩
      rcases LSMEngine.step_get rfl hstep' with ⟨r', hget'⟩
      exact h.get hlayered hlayered' hget hget'
  | del key => exact h.write rfl hstep hstep'
  | compact =>
      rw [← step_compact rfl hstep, ← step_compact rfl hstep']
      exact h.compact env.now env.dev

/-- A sound engine whose cache has lost entries is sound. -/
theorem Sound.thin (h : Sound e) {cache : LRUCache Bytes Bytes} (hthinned : Thinned e.cache cache)
    (hcap : 0 < e.cache.capacity) : Sound { e with cache := cache } := by
  have hlayered : Layered { e with cache := cache } :=
    h.toLayered.withCache rfl rfl rfl hthinned.linked
      (fun k v hkv => h.coherent k v (hthinned.holds k v hkv))
      (Or.inl (hthinned.capacity ▸ hcap))
  exact ⟨hlayered, h.logOpen, h.logWhole, h.shadow⟩

/-- Run lemma of `Twin.step`: dropping entries on the way changes cache and
counters only. -/
theorem Twin.run {s s' e' : LSMEngine} {evs : List Event} (hthinned : ThinnedRun s' evs e')
    (h : Twin s s') (hsound : Sound s) (hsound' : Sound s') (hcap : 0 < s'.cache.capacity)
    (halong : Machine.Along LSMEngine.step Orderly s evs)
    (hrun : Machine.run LSMEngine.step s evs = some e) :
    Twin e e' ∧ Sound e' ∧ 0 < e'.cache.capacity := by
  induction hthinned generalizing s with
  | nil s' =>
      cases hrun
      exact ⟨h, hsound', hcap⟩
  | step hstep' hrest ih =>
      rcases Machine.run_cons.mp hrun with ⟨s₁, hstep, hrun₁⟩
      rcases halong s₁ hstep with ⟨horderly, halong₁⟩
      have hfresh' := h.fresh horderly.fresh
      refine ih (h.step hsound.toLayered hsound'.toLayered hstep hstep') ?_ ?_ ?_ halong₁ hrun₁
      · exact hsound.step horderly.io horderly.fits horderly.fresh hstep
      · exact hsound'.step horderly.io horderly.fits hfresh' hstep'
      · rw [(step_frame hstep').2]
        exact hcap
  | drop cache hthin hrest ih =>
      refine ih ⟨h.dataDir, h.disk, h.memtable, h.wal, h.sstables⟩ hsound (hsound'.thin hthin hcap)
        ?_ halong hrun
      show 0 < cache.capacity
      rw [hthin.capacity]
      exact hcap

end LSMEngine

variable {dataDir : Bytes} {cacheSize : Nat} {threshold : UInt64}

/-- In every state of every run, a raw value the cache maps a key to is the one
the slow path finds. Dropping any entries from the cache at any moments of the
run leaves every operation defined, and every later answer what it was. -/
theorem cache_coherent (hcache : 0 < cacheSize) {evs : List Event}
    (hio : ∀ ev ∈ evs, NoIoError ev) (hfits : ∀ ev ∈ evs, OpFits ev.op)
    (hnames : (Machine.trace LSMEngine.step nameReadings (start dataDir cacheSize threshold)
      evs).Pairwise (· < ·)) :
    ∃ e, Machine.run LSMEngine.step (start dataDir cacheSize threshold) evs = some e ∧
      (∀ key value, e.cache.Holds key value → e.slowPath key = some value) ∧
      ∀ e', ThinnedRun (start dataDir cacheSize threshold) evs e' →
        (∀ ev, ∃ e'', e'.step ev = some e'') ∧
          ∀ key now, e'.answer key now = e.answer key now := by
  have halong := along_orderly hio hfits (hnames.imp fun hlt => ne_of_lt hlt)
  rcases run_isSome hcache halong with ⟨e, hrun⟩
  have hsound := sound_run halong hrun
  refine ⟨e, hrun, ?_, ?_⟩
  · intro key value hholds
    rw [hsound.toLayered.slowPath_eq]
    exact hsound.coherent key value hholds
  · intro e' hthinned
    rcases Twin.run hthinned (Twin.refl _) sound_start sound_start hcache halong hrun with
      ⟨htwin, hsound', hcap'⟩
    refine ⟨hsound'.step_isSome hcap', ?_⟩
    intro key now
    rw [hsound'.toLayered.answer, hsound.toLayered.answer, htwin.lookup]

/-- A cache cleared after a write: the memtable answers. -/
theorem cache_coherent_cleared :
    ∃ e, Machine.run LSMEngine.step (start [] 1 64)
        [⟨.set (ascii "k") (ascii "v"), Env.calm 1⟩] = some e ∧
      ({ e with cache := e.cache.clear } : LSMEngine).answer (ascii "k") 2 =
        e.answer (ascii "k") 2 := by
  rcases @cache_coherent [] 1 64 (by decide) [⟨.set (ascii "k") (ascii "v"), Env.calm 1⟩]
    (by decide) (by decide) (by decide +kernel) with ⟨e, hrun, -, hdrop⟩
  rcases Machine.run_cons.mp hrun with ⟨e₁, hstep, hnil⟩
  cases hnil
  have hthinned := ThinnedRun.step hstep
    (ThinnedRun.drop _ (thinned_clear e.cache) (ThinnedRun.nil _))
  exact ⟨e, hrun, (hdrop _ hthinned).2 _ _⟩

/-- A single step names at most one file. -/
theorem pairwise_single (e : LSMEngine) (ev : Event) :
    (Machine.trace LSMEngine.step nameReadings e [ev]).Pairwise (· < ·) := by
  have hone : (nameReadings e ev).Pairwise (· < ·) := by
    unfold nameReadings
    split_ifs
    · exact List.pairwise_singleton _ _
    · exact List.Pairwise.nil
  unfold Machine.trace
  split
  · exact List.Pairwise.nil
  · rw [Machine.trace, List.append_nil]
    exact hone

/-- The cache holds a value of `2 ^ 32` bytes, and the table the empty one. -/
theorem long_value_incoherent :
    ¬ ∀ evs : List Event, (∀ ev ∈ evs, NoIoError ev) →
      (Machine.trace LSMEngine.step nameReadings (start [] 1 1) evs).Pairwise (· < ·) →
      ∀ e, Machine.run LSMEngine.step (start [] 1 1) evs = some e →
        ∀ key value, e.cache.Holds key value → e.slowPath key = some value := by
  intro hall
  have hlong : ∃ value : Bytes, value.length = 2 ^ 32 :=
    ⟨List.replicate (2 ^ 32) 0, List.length_replicate⟩
  rcases hlong with ⟨value, hlen⟩
  rcases set_long (e := start [] 1 1) rfl (put_one [107] value) (by decide) hlen 1 with
    ⟨e, hset, hlayers⟩
  have hrun : Machine.run LSMEngine.step (start [] 1 1) [⟨.set [107] value, Env.calm 1⟩] =
      some e := Machine.run_cons.mpr ⟨e, hset, rfl⟩
  have hnames := pairwise_single (start [] 1 1) ⟨.set [107] value, Env.calm 1⟩
  have hio : ∀ ev ∈ [(⟨.set [107] value, Env.calm 1⟩ : Event)], NoIoError ev := by
    intro ev hev
    rw [List.mem_singleton.mp hev]
    exact ⟨rfl, rfl⟩
  have hlayers' : e.layers = ⟨[], [emptyValueFile [107] 1],
      ⟨1, [⟨0, [107], value⟩], [([107], 0)], 1⟩, MemTable.new 1, [emptyValueTable [107] 1]⟩ :=
    hlayers
  have hcache : e.cache = ⟨1, [⟨0, [107], value⟩], [([107], 0)], 1⟩ :=
    congrArg Layers.cache hlayers'
  have hholds : e.cache.Holds [107] value := by
    rw [hcache]
    exact ⟨_, List.mem_singleton.mpr rfl, rfl, rfl⟩
  have hslow := slowPath_long hlayers'
  rw [hall _ hio hnames e hrun [107] value hholds] at hslow
  rw [Option.some.inj hslow] at hlen
  exact absurd hlen (by decide)

end VaultDB
