import VaultDB.Reload

/-! # Runs with restarts

An orderly shutdown leaves the directory as it is, and the next process starts
an engine on it. What holds of a sound engine in one life holds in the next
(`sound_lives`): the tables are loaded from whole files, and the log that is
replayed is whole.
-/

namespace VaultDB

open Text Codec FileStream SSTable LSMEngine

/-- An operation of an engine, or the start of the next one. -/
inductive LifeEvent where
  | call (ev : Event)
  | restart (cacheSize : Nat) (memtableSizeBytes : UInt64) (env : Env)
deriving Repr, DecidableEq

namespace LSMEngine

def lifeStep (e : LSMEngine) : LifeEvent → Option LSMEngine
  | .call ev => e.step ev
  | .restart cacheSize memtableSizeBytes env =>
    some (new e.disk e.dataDir cacheSize memtableSizeBytes env.now env.dev)

/-- No I/O error, room in the cache, and a fresh path if the start flushes. -/
structure OrderlyStart (e : LSMEngine) (cacheSize : Nat) (memtableSizeBytes : UInt64)
    (env : Env) : Prop where
  dev : env.dev = Device.sound
  cache : 0 < cacheSize
  fresh : (replayedEngine e.disk e.dataDir cacheSize memtableSizeBytes).memtable.isFull = true →
    sstablePath e.dataDir env.now ∉ e.disk.tables.map Prod.fst

def OrderlyLife (e : LSMEngine) : LifeEvent → Prop
  | .call ev => Orderly e ev
  | .restart cacheSize memtableSizeBytes env => OrderlyStart e cacheSize memtableSizeBytes env

instance (e : LSMEngine) : (ev : LifeEvent) → Decidable (OrderlyLife e ev)
  | .call ev => inferInstanceAs (Decidable (Orderly e ev))
  | .restart cacheSize memtableSizeBytes env =>
    decidable_of_iff (env.dev = Device.sound ∧ 0 < cacheSize ∧
      ((replayedEngine e.disk e.dataDir cacheSize memtableSizeBytes).memtable.isFull = true →
        sstablePath e.dataDir env.now ∉ e.disk.tables.map Prod.fst))
      ⟨fun h => ⟨h.1, h.2.1, h.2.2⟩, fun h => ⟨h.dev, h.cache, h.fresh⟩⟩

/-- Sound, with tables that the next life will find. -/
structure Tended (e : LSMEngine) : Prop where
  sound : Sound e
  named : ∃ used, Named e.dataDir used e

theorem Tended.loadable {e : LSMEngine} (h : Tended e) : Loadable e.disk.tables := by
  rcases h.named with ⟨used, hnamed⟩
  exact h.sound.loadable hnamed

theorem sound_replayedEngine {e : LSMEngine} (h : Tended e) {cacheSize : Nat}
    (hcache : 0 < cacheSize) (dataDir : Bytes) (memtableSizeBytes : UInt64) :
    Sound (replayedEngine e.disk dataDir cacheSize memtableSizeBytes) := by
  refine ⟨layered_replayedEngine h.loadable hcache, rfl, h.sound.logWhole, ?_⟩
  intro key
  exact Or.inl (get_replayedEngine e.disk dataDir cacheSize memtableSizeBytes key)

/-- The tables that are loaded are the files that are there. -/
theorem named_replayedEngine {e : LSMEngine} (h : Tended e) (cacheSize : Nat)
    (memtableSizeBytes : UInt64) :
    ∃ used, Named e.dataDir used (replayedEngine e.disk e.dataDir cacheSize memtableSizeBytes) := by
  rcases h.named with ⟨used, hnamed⟩
  refine ⟨used, rfl, ?_⟩
  intro table htable
  rcases List.mem_map.mp htable with ⟨path, hpath, rfl⟩
  rw [path_new]
  exact hnamed.of_file h.sound.stored path ((h.loadable.mem_tablePaths path).mp hpath)

theorem Named.flushIfFull {e : LSMEngine} {dataDir : Bytes} {used : List Nat}
    (h : Named dataDir used e) (now : Nat) (dev : Device) :
    Named dataDir (used ++ [now]) (e.flushIfFull now dev) := by
  refine ⟨(flushIfFull_frame e now dev).1.trans h.dir, ?_⟩
  have hbefore : ∀ t ∈ e.sstables, ∃ ms ∈ used ++ [now], NamedAt dataDir ms t.path := by
    intro t ht
    rcases h.named t ht with ⟨ms, hms, hname⟩
    exact ⟨ms, List.mem_append_left _ hms, hname⟩
  rcases flushIfFull_cases e now dev with heq | ⟨-, hne, heq⟩
  · rw [heq]
    exact hbefore
  · rw [heq, flushMemtable_files hne]
    intro t ht
    rcases List.mem_append.mp ht with ht | ht
    · exact hbefore t ht
    · rw [List.mem_singleton.mp ht, path_flushedTo, h.dir]
      exact ⟨now, List.mem_append_right _ List.mem_cons_self, Or.inl rfl⟩

theorem Tended.restart {e : LSMEngine} (h : Tended e) {cacheSize : Nat}
    {memtableSizeBytes : UInt64} {env : Env}
    (hstart : OrderlyStart e cacheSize memtableSizeBytes env) :
    Tended (new e.disk e.dataDir cacheSize memtableSizeBytes env.now env.dev) := by
  have hsound := sound_replayedEngine h hstart.cache e.dataDir memtableSizeBytes
  rcases named_replayedEngine h cacheSize memtableSizeBytes with ⟨used, hnamed⟩
  rw [hstart.dev]
  rcases new_eq_flushIfFull e.disk e.dataDir cacheSize memtableSizeBytes env.now Device.sound with
    heq | heq
  · rw [heq]
    exact ⟨hsound, used, hnamed⟩
  · have hfresh : (replayedEngine e.disk e.dataDir cacheSize memtableSizeBytes).memtable.isFull =
        true → sstablePath e.dataDir env.now ∉
          (replayedEngine e.disk e.dataDir cacheSize memtableSizeBytes).sstables.map
            SSTable.path :=
      fun hfull => fresh_replayedEngine h.loadable (hstart.fresh hfull)
    have hdir := (hnamed.flushIfFull env.now Device.sound).dir
    rw [heq]
    refine ⟨(hsound.flushIfFull hfresh).1, used ++ [env.now], ?_⟩
    rw [hdir]
    exact hnamed.flushIfFull env.now Device.sound

theorem Tended.step {e e' : LSMEngine} (h : Tended e) {ev : LifeEvent}
    (horderly : OrderlyLife e ev) (hstep : e.lifeStep ev = some e') : Tended e' := by
  cases ev with
  | call ev =>
      rcases h.named with ⟨used, hnamed⟩
      have hdir : e'.dataDir = e.dataDir := (step_frame hstep).1
      refine ⟨h.sound.step horderly.io horderly.fits horderly.fresh hstep,
        used ++ nameReadings e ev, ?_⟩
      rw [hdir]
      exact hnamed.step hstep
  | restart cacheSize memtableSizeBytes env =>
      cases hstep
      exact h.restart horderly

variable {dataDir : Bytes} {cacheSize : Nat} {threshold : UInt64}

theorem tended_start : Tended (start dataDir cacheSize threshold) := by
  refine ⟨sound_start, [], rfl, ?_⟩
  intro t ht
  cases ht

/-- Run lemma over any number of lives. -/
theorem sound_lives {evs : List LifeEvent} {e : LSMEngine}
    (halong : Machine.Along lifeStep OrderlyLife (start dataDir cacheSize threshold) evs)
    (hrun : Machine.run lifeStep (start dataDir cacheSize threshold) evs = some e) : Sound e :=
  (Machine.run_invariant (fun _ _ _ h horderly hstep => h.step horderly hstep) tended_start
    halong hrun).sound

end LSMEngine

end VaultDB
