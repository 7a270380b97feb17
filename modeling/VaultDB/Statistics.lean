import VaultDB.Reads

/-! # Statistics

The counters of `get_stats`: writes, reads and cache hits of the engine since
it was constructed. Over every run they grow by the number of `set` calls, the
number of `get` calls, and the number of those whose key was in the cache
(`counted_run`), whatever devices fail and whatever the background compactions
do. A counter is a `size_t`, so past `2^64` it starts again at zero.
-/

namespace VaultDB

open Text FileStream

namespace LSMEngine

variable {e e' : LSMEngine} {key value : Bytes} {now : Nat} {r : Option Bytes}

def isWrite : Op → Bool
  | .set _ _ => true
  | _ => false

def isRead : Op → Bool
  | .get _ => true
  | _ => false

/-- The step is a read that finds its key in the cache. -/
def isHit (e : LSMEngine) (ev : Event) : Bool :=
  match ev.op with
  | .get key => (Assoc.get key e.cache.index).isSome
  | _ => false

/-- Nothing has been counted. -/
structure Uncounted (e e' : LSMEngine) : Prop where
  writes : e'.writeCount = e.writeCount
  reads : e'.readCount = e.readCount
  hits : e'.cacheHits = e.cacheHits

theorem uncounted_checkTtl (h : e.checkTtl key value now = some (r, e')) : Uncounted e e' := by
  unfold LSMEngine.checkTtl at h
  split at h
  · cases h
    exact ⟨rfl, rfl, rfl⟩
  · split_ifs at h
    · simp only [bind, Option.bind_eq_some_iff, pure, Option.some.injEq, Prod.mk.injEq,
        Prod.exists] at h
      rcases h with ⟨b, cache, -, -, rfl⟩
      exact ⟨rfl, rfl, rfl⟩
    · cases h
      exact ⟨rfl, rfl, rfl⟩

theorem uncounted_serve (h : e.serve key value now = some (r, e')) : Uncounted e e' := by
  unfold LSMEngine.serve at h
  split_ifs at h
  · cases h
    exact ⟨rfl, rfl, rfl⟩
  · simp only [bind, Option.bind_eq_some_iff] at h
    rcases h with ⟨cache, -, httl⟩
    have hsame := uncounted_checkTtl httl
    exact ⟨hsame.writes, hsame.reads, hsame.hits⟩

theorem uncounted_flushIfFull (e : LSMEngine) (now : Nat) (dev : Device) :
    Uncounted e (e.flushIfFull now dev) := by
  rcases flushIfFull_cases e now dev with heq | ⟨-, hne, heq⟩
  · rw [heq]
    exact ⟨rfl, rfl, rfl⟩
  · rw [heq, flushMemtable_files hne]
    exact ⟨rfl, rfl, rfl⟩

theorem uncounted_compact (e : LSMEngine) (now : Nat) (dev : Device) :
    Uncounted e (e.compact now dev) := by
  by_cases hmany : 4 < e.sstables.length
  · rcases exists_two_oldest hmany with ⟨older, newer, staying, hsplit⟩
    rw [compact_files hmany hsplit]
    exact ⟨rfl, rfl, rfl⟩
  · rw [compact_of_few hmany]
    exact ⟨rfl, rfl, rfl⟩

/-- The lookup finds what the index has. -/
theorem isSome_cached {cache : LRUCache Bytes Bytes} {cached : Option Bytes}
    (hcache : e.cache.get key = some (cached, cache)) :
    cached.isSome = (Assoc.get key e.cache.index).isSome := by
  unfold LRUCache.get at hcache
  split at hcache
  · rename_i hnone
    cases hcache
    rw [hnone]
    rfl
  · rename_i hit
    simp only [bind, Option.bind_eq_some_iff, pure, Option.some.injEq, Prod.mk.injEq] at hcache
    rcases hcache with ⟨-, -, node, -, rfl, -⟩
    rw [hit]
    rfl

/-- `write_count_`, `read_count_` and `cache_hits_` have grown by these. -/
structure Counted (writes reads hits : Nat) (e e' : LSMEngine) : Prop where
  writes : e'.writeCount = e.writeCount + UInt64.ofNat writes
  reads : e'.readCount = e.readCount + UInt64.ofNat reads
  hits : e'.cacheHits = e.cacheHits + UInt64.ofNat hits

theorem Uncounted.counted (h : Uncounted e e') : Counted 0 0 0 e e' := by
  refine ⟨?_, ?_, ?_⟩
  · rw [h.writes]
    exact (UInt64.add_zero _).symm
  · rw [h.reads]
    exact (UInt64.add_zero _).symm
  · rw [h.hits]
    exact (UInt64.add_zero _).symm

variable {writes reads hits : Nat}

theorem Counted.append {writes' reads' hits' : Nat} {e'' : LSMEngine}
    (h : Counted writes reads hits e e') (h' : Counted writes' reads' hits' e' e'') :
    Counted (writes + writes') (reads + reads') (hits + hits') e e'' := by
  refine ⟨?_, ?_, ?_⟩
  · rw [h'.writes, h.writes, UInt64.ofNat_add, UInt64.add_assoc]
  · rw [h'.reads, h.reads, UInt64.ofNat_add, UInt64.add_assoc]
  · rw [h'.hits, h.hits, UInt64.ofNat_add, UInt64.add_assoc]

theorem counted_get {env : Env} (h : e.get key now = some (r, e')) :
    Counted 0 1 (if e.isHit ⟨.get key, env⟩ then 1 else 0) e e' := by
  have hcall : ∃ cached cache, e.cache.get key = some (cached, cache) := by
    unfold LSMEngine.get at h
    simp only [bind, Option.bind_eq_some_iff] at h
    rcases h with ⟨⟨cached, cache⟩, hcache, -⟩
    exact ⟨cached, cache, hcache⟩
  rcases hcall with ⟨cached, cache, hcache⟩
  have hhit : e.isHit ⟨.get key, env⟩ = cached.isSome := (isSome_cached hcache).symm
  rw [hhit]
  cases cached with
  | some value =>
      rw [get_of_hit hcache] at h
      have hsame : Uncounted
          { e with readCount := e.readCount + 1, cache, cacheHits := e.cacheHits + 1 } e' := by
        split_ifs at h
        · cases h
          exact ⟨rfl, rfl, rfl⟩
        · exact uncounted_checkTtl h
      exact ⟨hsame.writes.trans (UInt64.add_zero _).symm, hsame.reads, hsame.hits⟩
  | none =>
      rcases get_of_miss hcache now with ⟨saved, hget⟩
      rw [hget] at h
      have hsame : Uncounted
          { e with readCount := e.readCount + 1, cache, bloomSaved := saved } e' := by
        split at h
        · exact uncounted_serve h
        · cases h
          exact ⟨rfl, rfl, rfl⟩
      exact ⟨hsame.writes.trans (UInt64.add_zero _).symm, hsame.reads,
        hsame.hits.trans (UInt64.add_zero _).symm⟩

theorem counted_step {ev : Event} (hstep : e.step ev = some e') :
    Counted (if isWrite ev.op then 1 else 0) (if isRead ev.op then 1 else 0)
      (if e.isHit ev then 1 else 0) e e' := by
  rcases ev with ⟨op, env⟩
  cases op with
  | set key value =>
      rcases set_eq_some hstep with ⟨e₁, hsteps, rfl⟩
      rcases setSteps_some hsteps with ⟨cache, -, rfl⟩
      have hsame := (uncounted_flushIfFull { e with
        disk := ⟨(e.wal.append e.disk.walLog env.logRoom env.stamp WALOp.SET key value).2,
          e.disk.tables⟩
        cache := cache
        memtable := e.memtable.set key value
        wal := (e.wal.append e.disk.walLog env.logRoom env.stamp WALOp.SET key value).1 }
        env.now env.dev)
      exact ⟨congrArg (· + 1) hsame.writes, hsame.counted.reads, hsame.counted.hits⟩
  | get key =>
      rcases LSMEngine.step_get rfl hstep with ⟨r, hget⟩
      exact counted_get hget
  | del key =>
      rcases del_eq_some hstep with ⟨e₁, hsteps, rfl⟩
      rcases delSteps_some hsteps with ⟨b, cache, -, rfl⟩
      have hsame := (uncounted_flushIfFull { e with
        disk := ⟨(e.wal.append e.disk.walLog env.logRoom env.stamp WALOp.DELETE key []).2,
          e.disk.tables⟩
        cache := cache
        memtable := e.memtable.del key
        wal := (e.wal.append e.disk.walLog env.logRoom env.stamp WALOp.DELETE key []).1 }
        env.now env.dev).counted
      exact ⟨hsame.writes, hsame.reads, hsame.hits⟩
  | compact =>
      have heq : e.compact env.now env.dev = e' := Option.some.inj hstep
      rw [← heq]
      exact (uncounted_compact e env.now env.dev).counted

/-- The notes of the cache hits of a run. -/
def noteHit (e : LSMEngine) (ev : Event) : List Unit := if e.isHit ev then [()] else []

theorem length_noteHit (e : LSMEngine) (ev : Event) :
    (noteHit e ev).length = if e.isHit ev then 1 else 0 := by
  unfold noteHit
  split_ifs <;> rfl

/-- The `get` calls of a run whose key was in the cache. -/
def hitCount (e : LSMEngine) (evs : List Event) : Nat := (Machine.trace step noteHit e evs).length

/-- Over a run from any state the counters grow by the calls of `set`, the
calls of `get`, and those whose key was in the cache. -/
theorem counted_run {evs : List Event} (hrun : Machine.run step e evs = some e') :
    Counted (evs.countP fun ev => isWrite ev.op) (evs.countP fun ev => isRead ev.op)
      (hitCount e evs) e e' := by
  unfold hitCount
  induction evs using List.reverseRecOn generalizing e' with
  | nil =>
      cases hrun
      exact (⟨rfl, rfl, rfl⟩ : Uncounted e e).counted
  | append_singleton evs ev ih =>
      rcases Machine.run_concat.mp hrun with ⟨e₁, hrun₁, hstep⟩
      rw [Machine.trace_concat hrun₁ hstep, List.length_append, length_noteHit, List.countP_append,
        List.countP_append, List.countP_singleton, List.countP_singleton]
      exact (ih hrun₁).append (counted_step hstep)

/-- An engine that was just constructed has counted nothing. -/
theorem counted_new (disk : DataDir) (dataDir : Bytes) (cacheSize : Nat)
    (memtableSizeBytes : UInt64) (dev : Device) {e : LSMEngine}
    (he : new disk dataDir cacheSize memtableSizeBytes now dev = e) :
    e.writeCount = 0 ∧ e.readCount = 0 ∧ e.cacheHits = 0 := by
  unfold new recover at he
  dsimp only at he
  rw [← he]
  split_ifs
  · obtain ⟨hwrites, hreads, hhits⟩ := uncounted_flushIfFull
      { (loadExistingSstables ⟨dataDir, disk, LRUCache.new cacheSize,
          MemTable.new memtableSizeBytes, WAL.new, [], 0, 0, 0, 0⟩) with
        memtable := replay (WAL.recover disk.walLog) (MemTable.new memtableSizeBytes) } now dev
    exact ⟨hwrites, hreads, hhits⟩
  · exact ⟨rfl, rfl, rfl⟩

/-- An engine that started on an empty directory shows its counts in 64 bits. -/
theorem counts_run {dataDir : Bytes} {cacheSize : Nat} {threshold : UInt64} {evs : List Event}
    (hrun : Machine.run step (start dataDir cacheSize threshold) evs = some e) :
    e.writeCount = UInt64.ofNat (evs.countP fun ev => isWrite ev.op) ∧
      e.readCount = UInt64.ofNat (evs.countP fun ev => isRead ev.op) ∧
      e.cacheHits = UInt64.ofNat (hitCount (start dataDir cacheSize threshold) evs) := by
  have hcounted := counted_run hrun
  exact ⟨hcounted.writes.trans (UInt64.zero_add _), hcounted.reads.trans (UInt64.zero_add _),
    hcounted.hits.trans (UInt64.zero_add _)⟩

/-- Compactions count nothing. -/
theorem uncounted_background (e : LSMEngine) (merges : List Env) :
    Uncounted e (e.background merges) := by
  induction merges generalizing e with
  | nil => exact ⟨rfl, rfl, rfl⟩
  | cons env merges ih =>
      obtain ⟨hwrites, hreads, hhits⟩ := ih (e.compact env.now env.dev)
      have hcompact := uncounted_compact e env.now env.dev
      exact ⟨hwrites.trans hcompact.writes, hreads.trans hcompact.reads,
        hhits.trans hcompact.hits⟩

/-- A hit is a read. -/
theorem hitCount_le {evs : List Event} (hrun : Machine.run step e evs = some e') :
    hitCount e evs ≤ evs.countP fun ev => isRead ev.op := by
  unfold hitCount
  induction evs using List.reverseRecOn generalizing e' with
  | nil => exact Nat.le_refl 0
  | append_singleton evs ev ih =>
      rcases Machine.run_concat.mp hrun with ⟨e₁, hrun₁, hstep⟩
      have hlast : (if e₁.isHit ev then 1 else 0) ≤ if isRead ev.op then 1 else 0 := by
        rcases ev with ⟨op, env⟩
        cases op <;> simp only [isHit, isRead] <;> split_ifs <;> simp_all
      have hbefore := ih hrun₁
      rw [Machine.trace_concat hrun₁ hstep, List.length_append, length_noteHit, List.countP_append,
        List.countP_singleton]
      omega

end LSMEngine

end VaultDB
