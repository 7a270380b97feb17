import VaultDB.Runs

/-! # The values an engine holds

Nothing in a read or a write makes up a value: what comes out of the cache and
the memtable, and what goes back in, is a value that was put there or read
from a table, a deletion mark, or the payload of an expiring value. So a
property of values that marks have and payloads inherit is kept by every
operation, provided the values written and the values found in tables have it
(`Holding`). The rules ask nothing of the tables and the log, whose devices
may have failed.
-/

namespace VaultDB

open Text Codec FileStream SSTable

/-- Deletion marks have the property and payloads inherit it. -/
structure ValueClass (P : Bytes → Prop) : Prop where
  tombstone : P TOMBSTONE
  payload : ∀ {value payload expiryMs}, P value → parseExpiry value = some (expiryMs, payload) →
    P payload

theorem valueClass_true : ValueClass fun _ => True := ⟨trivial, fun _ _ => trivial⟩

namespace MemTable

/-- Every value in the memtable has the property. -/
def Holds (P : Bytes → Prop) (table : MemTable) : Prop := ∀ entry ∈ table.data, P entry.2

variable {P : Bytes → Prop}

theorem holds_new (maxSizeBytes : UInt64) : (new maxSizeBytes).Holds P := by
  intro entry hentry
  cases hentry

theorem Holds.set {table : MemTable} (h : table.Holds P) {key value : Bytes} (hvalue : P value) :
    (table.set key value).Holds P := by
  intro entry hentry
  rcases Assoc.mem_insert hentry with rfl | hentry
  · exact hvalue
  · exact h entry hentry

theorem Holds.get {table : MemTable} (h : table.Holds P) {key value : Bytes}
    (hget : table.get key = some value) : P value :=
  h _ (Assoc.mem_of_get hget)

theorem Holds.replay (hP : ValueClass P) {records : List WALEntry}
    (hrecords : ∀ r ∈ records, P r.value) {table : MemTable} (h : table.Holds P) :
    (LSMEngine.replay records table).Holds P := by
  unfold LSMEngine.replay
  induction records generalizing table with
  | nil => exact h
  | cons record records ih =>
      rw [List.foldl_cons]
      apply ih fun r hr => hrecords r (List.mem_cons_of_mem _ hr)
      unfold LSMEngine.replayEntry
      split_ifs
      · exact h.set (hrecords record List.mem_cons_self)
      · exact h.set hP.tombstone
      · exact h

end MemTable

namespace LSMEngine

/-- Cache and memtable hold values with the property only, and the cache is
one that has been in use. -/
structure Holding (P : Bytes → Prop) (e : LSMEngine) : Prop where
  cache : e.cache.Keeps P
  memtable : e.memtable.Holds P

/-! ## Reads -/

section Reads

variable {P : Bytes → Prop} {e : LSMEngine} (h : Holding P e)
include h

theorem Holding.checkTtl (hP : ValueClass P) (key : Bytes) {value : Bytes} (hvalue : P value)
    (now : Nat) :
    ∃ r e', e.checkTtl key value now = some (r, e') ∧ Holding P e' ∧ ∀ v, r = some v → P v := by
  unfold LSMEngine.checkTtl
  cases hparse : parseExpiry value with
  | none =>
      refine ⟨some value, e, rfl, h, ?_⟩
      rintro v ⟨rfl⟩
      exact hvalue
  | some p =>
      rcases p with ⟨expiryMs, actual⟩
      by_cases hexpired : (now : Int) ≥ expiryMs
      · rcases h.cache.remove key with ⟨b, cache, hremove, hcache, -⟩
        refine ⟨none, { e with memtable := e.memtable.del key, cache := cache }, ?_,
          ⟨hcache, h.memtable.set hP.tombstone⟩, ?_⟩
        · simp [hexpired, hremove]
        · intro v hv
          cases hv
      · refine ⟨some actual, e, by simp [hexpired], h, ?_⟩
        rintro v ⟨rfl⟩
        exact hP.payload hvalue hparse

/-- A value is served unless there is no room for it in the cache. -/
theorem Holding.serve (hP : ValueClass P) (key : Bytes) {value : Bytes} (hvalue : P value)
    (now : Nat) :
    (∃ r e', e.serve key value now = some (r, e') ∧ (value = TOMBSTONE ∨ 0 < e.cache.capacity) ∧
      Holding P e' ∧ ∀ v, r = some v → P v) ∨
    (e.serve key value now = none ∧ ¬ (value = TOMBSTONE ∨ 0 < e.cache.capacity)) := by
  unfold LSMEngine.serve
  by_cases htomb : value = TOMBSTONE
  · rw [if_pos htomb]
    refine Or.inl ⟨none, e, rfl, Or.inl htomb, h, ?_⟩
    intro v hv
    cases hv
  · rw [if_neg htomb]
    cases hput : e.cache.put key value with
    | none =>
        refine Or.inr ⟨rfl, ?_⟩
        rintro (heq | hpos)
        · exact htomb heq
        · rcases (h.cache.put_isSome_iff key value).mpr hpos with ⟨cache, hput'⟩
          rw [hput] at hput'
          cases hput'
    | some cache =>
        have hkeeps := (h.cache.put hvalue hput).1
        have hafter : Holding P { e with cache := cache } := ⟨hkeeps, h.memtable⟩
        rcases hafter.checkTtl hP key hvalue now with ⟨r, e', hcheck, he', hr⟩
        have hroom := (h.cache.put_isSome_iff key value).mp ⟨cache, hput⟩
        exact Or.inl ⟨r, e', hcheck, Or.inr hroom, he', hr⟩

/-- A read comes to an end unless it finds a live value below a cache that has
no room for it. -/
theorem Holding.get (hP : ValueClass P) (key : Bytes)
    (hslow : ∀ v, (searchTables e.disk.tables key e.sstables.reverse e.bloomSaved).1 = some v →
      P v) (now : Nat) :
    (∃ r e', e.get key now = some (r, e') ∧
      (0 < e.cache.capacity ∨ ∀ v, e.slowPath key = some v → v = TOMBSTONE) ∧
      Holding P e' ∧ ∀ v, r = some v → P v) ∨
    (e.get key now = none ∧
      ¬ (0 < e.cache.capacity ∨ ∀ v, e.slowPath key = some v → v = TOMBSTONE)) := by
  rcases h.cache.get key with ⟨cached, cache, hcache, hkeeps, hcap, hheld⟩
  cases cached with
  | some value =>
      have hholds := (hheld value).mp rfl
      have hpos := h.cache.pos_of_holds hholds
      have hvalue := h.cache.values key value hholds
      rw [get_of_hit hcache]
      split_ifs
      · refine Or.inl ⟨none, _, rfl, Or.inl hpos, ⟨hkeeps, h.memtable⟩, ?_⟩
        intro v hv
        cases hv
      · have hafter : Holding P { e with
            readCount := e.readCount + 1
            cache := cache
            cacheHits := e.cacheHits + 1 } := ⟨hkeeps, h.memtable⟩
        rcases hafter.checkTtl hP key hvalue now with ⟨r, e', hcheck, he', hr⟩
        exact Or.inl ⟨r, e', hcheck, Or.inl hpos, he', hr⟩
  | none =>
      rcases get_of_miss hcache now with ⟨saved, hget⟩
      rw [hget]
      have hafter : Holding P { e with
          readCount := e.readCount + 1
          cache := cache
          bloomSaved := saved } := ⟨hkeeps, h.memtable⟩
      cases hfound : e.slowPath key with
      | none =>
          refine Or.inl ⟨none, _, rfl, Or.inr ?_, hafter, ?_⟩
          · intro v hv
            cases hv
          · intro v hv
            cases hv
      | some value =>
          have hvalue : P value := by
            rcases Option.or_eq_some_iff.mp hfound with hmem | ⟨-, htable⟩
            · exact h.memtable.get hmem
            · exact hslow value htable
          have hiff : (0 < e.cache.capacity ∨ ∀ v, some value = some v → v = TOMBSTONE) ↔
              (value = TOMBSTONE ∨ 0 < cache.capacity) := by
            rw [hcap, or_comm]
            simp
          rw [hiff]
          exact hafter.serve hP key hvalue now

end Reads

/-! ## Writes -/

/-- A flush may empty the memtable and changes nothing else of it. -/
theorem memtable_flushIfFull (e : LSMEngine) (now : Nat) (dev : Device) :
    (e.flushIfFull now dev).memtable = e.memtable ∨
      (e.flushIfFull now dev).memtable = e.memtable.clear := by
  rcases flushIfFull_cases e now dev with heq | ⟨-, hne, heq⟩
  · rw [heq]
    exact Or.inl rfl
  · rw [heq, flushMemtable_files hne]
    exact Or.inr rfl

theorem cache_compact (e : LSMEngine) (now : Nat) (dev : Device) :
    (e.compact now dev).cache = e.cache := by
  by_cases hmany : 4 < e.sstables.length
  · rcases exists_two_oldest hmany with ⟨older, newer, staying, hsplit⟩
    rw [compact_files hmany hsplit]
  · rw [compact_of_few hmany]

theorem cache_background (e : LSMEngine) (merges : List Env) :
    (e.background merges).cache = e.cache := by
  unfold background
  induction merges generalizing e with
  | nil => rfl
  | cons env merges ih => exact (ih (e.compact env.now env.dev)).trans (cache_compact _ _ _)

section Writes

variable {P : Bytes → Prop} {e : LSMEngine} (h : Holding P e)
include h

theorem Holding.flushIfFull (now : Nat) (dev : Device) : Holding P (e.flushIfFull now dev) := by
  refine ⟨?_, ?_⟩
  · rw [(flushIfFull_frame e now dev).2]
    exact h.cache
  · rcases memtable_flushIfFull e now dev with heq | heq
    · rw [heq]
      exact h.memtable
    · rw [heq]
      intro entry hentry
      cases hentry

/-- A write comes to an end exactly when the cache has room for a value. -/
theorem Holding.set_isSome_iff {key value : Bytes} {env : Env} :
    (∃ e', e.set key value env = some e') ↔ 0 < e.cache.capacity := by
  rw [← h.cache.put_isSome_iff key value]
  constructor
  · rintro ⟨e', hset⟩
    rcases set_eq_some hset with ⟨e₁, hsteps, -⟩
    rcases setSteps_some hsteps with ⟨cache, hput, -⟩
    exact ⟨cache, hput⟩
  · rintro ⟨cache, hput⟩
    unfold LSMEngine.set setSteps
    simp [hput]

theorem Holding.set {e' : LSMEngine} {key value : Bytes} (hvalue : P value) {env : Env}
    (hset : e.set key value env = some e') :
    Holding P e' ∧ e'.cache.capacity = e.cache.capacity := by
  rcases set_eq_some hset with ⟨e₁, hsteps, rfl⟩
  rcases setSteps_some hsteps with ⟨cache, hput, rfl⟩
  rcases h.cache.put hvalue hput with ⟨hkeeps, hcap⟩
  have hwritten : Holding P { e with
      disk := ⟨(e.wal.append e.disk.walLog env.logRoom env.stamp WALOp.SET key value).2,
        e.disk.tables⟩
      cache := cache
      memtable := e.memtable.set key value
      wal := (e.wal.append e.disk.walLog env.logRoom env.stamp WALOp.SET key value).1 } :=
    ⟨hkeeps, h.memtable.set hvalue⟩
  have hflushed := hwritten.flushIfFull env.now env.dev
  refine ⟨⟨hflushed.cache, hflushed.memtable⟩, ?_⟩
  exact (congrArg LRUCache.capacity (flushIfFull_frame _ env.now env.dev).2).trans hcap

theorem Holding.del (hP : ValueClass P) (key : Bytes) (env : Env) :
    ∃ e', e.del key env = some e' ∧ Holding P e' := by
  rcases h.cache.remove key with ⟨b, cache, hremove, hkeeps, -⟩
  have hwritten : Holding P { e with
      disk := ⟨(e.wal.append e.disk.walLog env.logRoom env.stamp WALOp.DELETE key []).2,
        e.disk.tables⟩
      cache := cache
      memtable := e.memtable.del key
      wal := (e.wal.append e.disk.walLog env.logRoom env.stamp WALOp.DELETE key []).1 } :=
    ⟨hkeeps, h.memtable.set hP.tombstone⟩
  refine ⟨_, ?_, hwritten.flushIfFull env.now env.dev⟩
  unfold LSMEngine.del delSteps
  simp [hremove]

theorem Holding.compact (now : Nat) (dev : Device) : Holding P (e.compact now dev) := by
  by_cases hmany : 4 < e.sstables.length
  · rcases exists_two_oldest hmany with ⟨older, newer, staying, hsplit⟩
    rw [compact_files hmany hsplit]
    exact ⟨h.cache, h.memtable⟩
  · rw [compact_of_few hmany]
    exact h

theorem Holding.background (merges : List Env) : Holding P (e.background merges) := by
  unfold LSMEngine.background
  induction merges generalizing e with
  | nil => exact h
  | cons env merges ih => exact ih (h.compact env.now env.dev)

end Writes

/-! ## Engines in use -/

/-- An engine as the constructor makes it, on any directory whose log records
have the property. -/
theorem holding_new {P : Bytes → Prop} (hP : ValueClass P) {disk : DataDir}
    (hrecords : ∀ r ∈ WAL.recover disk.walLog, P r.value) (dataDir : Bytes) (cacheSize : Nat)
    (memtableSizeBytes : UInt64) (now : Nat) (dev : Device) :
    Holding P (new disk dataDir cacheSize memtableSizeBytes now dev) := by
  have hreplayed := MemTable.Holds.replay hP hrecords (MemTable.holds_new memtableSizeBytes)
  unfold new recover
  dsimp only
  split_ifs
  · apply Holding.flushIfFull
    exact ⟨LRUCache.keeps_new cacheSize, hreplayed⟩
  · exact ⟨LRUCache.keeps_new cacheSize, hreplayed⟩

/-- Whatever happens to its files, an engine in use has a cache in order. -/
theorem holding_step {e e' : LSMEngine} (h : Holding (fun _ => True) e) {ev : Event}
    (hstep : e.step ev = some e') : Holding (fun _ => True) e' := by
  rcases ev with ⟨op, env⟩
  cases op with
  | set key value => exact (h.set trivial hstep).1
  | get key =>
      rcases LSMEngine.step_get rfl hstep with ⟨r, hget⟩
      rcases h.get valueClass_true key (fun _ _ => trivial) env.now with
        ⟨r', e'', hget', -, he'', -⟩ | ⟨hnone, -⟩
      · rw [hget] at hget'
        cases hget'
        exact he''
      · rw [hget] at hnone
        cases hnone
  | del key =>
      rcases h.del valueClass_true key env with ⟨e'', hdel, he''⟩
      have heq : some e'' = some e' := hdel.symm.trans hstep
      cases heq
      exact he''
  | compact =>
      rw [← step_compact rfl hstep]
      exact h.compact env.now env.dev

theorem holding_run {disk : DataDir} {dataDir : Bytes} {cacheSize : Nat}
    {memtableSizeBytes : UInt64} {now : Nat} {dev : Device} {evs : List Event} {e : LSMEngine}
    (hrun : Machine.run step (new disk dataDir cacheSize memtableSizeBytes now dev) evs =
      some e) : Holding (fun _ => True) e := by
  have hnew : Holding (fun _ => True) (new disk dataDir cacheSize memtableSizeBytes now dev) :=
    holding_new valueClass_true (fun _ _ => trivial) dataDir cacheSize memtableSizeBytes now dev
  exact Machine.run_kept (fun _ _ _ hs hstep => holding_step hs hstep) hnew hrun

end LSMEngine

end VaultDB
