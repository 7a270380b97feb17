import VaultDB.CachePolicy
import VaultDB.Values

/-! # What a read finds

Whatever the state of the files, a read finds the value the cache has for the
key, and otherwise the one memtable and tables have. It answers what is visible
of that value, and marks the key deleted exactly when the value has expired
(`get_finds`). All that any operation does to the cache is a number of calls of
it (`step_calls`), so an engine's cache is a cache after some calls
(`calls_run`), to which the policy applies.
-/

namespace VaultDB

open Text FileStream SSTable

namespace LSMEngine

/-- The raw value a read finds. -/
def found (e : LSMEngine) (key : Bytes) : Option Bytes :=
  (Assoc.get key e.cache.contents).or (e.slowPath key)

/-- The cache after some calls. -/
def Calls (cache cache' : LRUCache Bytes Bytes) : Prop :=
  ∃ ops, Machine.run LRUCache.step cache ops = some cache'

theorem Calls.refl (cache : LRUCache Bytes Bytes) : Calls cache cache := ⟨[], rfl⟩

theorem Calls.of_eq {cache cache₁ cache₂ : LRUCache Bytes Bytes} (h : Calls cache cache₁)
    (heq : cache₂ = cache₁) : Calls cache cache₂ :=
  heq ▸ h

theorem Calls.trans {cache cache₁ cache₂ : LRUCache Bytes Bytes} (h : Calls cache cache₁)
    (h' : Calls cache₁ cache₂) : Calls cache cache₂ := by
  rcases h with ⟨ops, hrun⟩
  rcases h' with ⟨ops', hrun'⟩
  exact ⟨ops ++ ops', Machine.run_append.mpr ⟨cache₁, hrun, hrun'⟩⟩

theorem Calls.single {cache cache' : LRUCache Bytes Bytes} {op : Recency.Op Bytes Bytes}
    (h : cache.step op = some cache') : Calls cache cache' :=
  ⟨[op], Machine.run_cons.mpr ⟨cache', h, rfl⟩⟩

theorem capacity_of_calls {cache cache' : LRUCache Bytes Bytes} (h : Calls cache cache') :
    cache'.capacity = cache.capacity := by
  rcases h with ⟨ops, hrun⟩
  induction ops generalizing cache with
  | nil =>
      cases hrun
      rfl
  | cons op ops ih =>
      rcases Machine.run_cons.mp hrun with ⟨cache₁, hstep, hrest⟩
      rw [ih hrest]
      exact LRUCache.capacity_step hstep

theorem calls_get {cache cache' : LRUCache Bytes Bytes} {key : Bytes} {r : Option Bytes}
    (h : cache.get key = some (r, cache')) : Calls cache cache' :=
  @Calls.single _ _ (.get key) (by simp only [LRUCache.step, h, Option.map_some])

theorem calls_put {cache cache' : LRUCache Bytes Bytes} {key value : Bytes}
    (h : cache.put key value = some cache') : Calls cache cache' :=
  @Calls.single _ _ (.put key value) h

theorem calls_remove {cache cache' : LRUCache Bytes Bytes} {key : Bytes} {b : Bool}
    (h : cache.remove key = some (b, cache')) : Calls cache cache' :=
  @Calls.single _ _ (.remove key) (by simp only [LRUCache.step, h, Option.map_some])

/-! ## Reads -/

/-- A read of `key` that found `raw`, answered `r` and left `e'`. -/
structure Finds (e e' : LSMEngine) (key : Bytes) (now : Nat) (raw r : Option Bytes) : Prop where
  answer : r = visible now raw
  lapsed : ∀ value, raw = some value → Expired now value → e'.memtable = e.memtable.del key
  kept : (∀ value, raw = some value → ¬ Expired now value) → e'.memtable = e.memtable
  calls : Calls e.cache e'.cache

variable {e e' : LSMEngine} {key value : Bytes} {now : Nat} {r : Option Bytes}

/-- Nothing of the memtable changes where nothing has expired. -/
theorem Finds.of_live {raw : Option Bytes} (hanswer : r = visible now raw)
    (hlive : ∀ value, raw = some value → ¬ Expired now value)
    (hmemtable : e'.memtable = e.memtable) (hcalls : Calls e.cache e'.cache) :
    Finds e e' key now raw r :=
  ⟨hanswer, fun value hraw hexpired => absurd hexpired (hlive value hraw), fun _ => hmemtable,
    hcalls⟩

/-- Calls of the cache in front of a read are part of it. -/
theorem Finds.after {e₁ : LSMEngine} {raw : Option Bytes} (h : Finds e₁ e' key now raw r)
    (hmemtable : e₁.memtable = e.memtable) (hcalls : Calls e.cache e₁.cache) :
    Finds e e' key now raw r := by
  refine ⟨h.answer, ?_, ?_, hcalls.trans h.calls⟩
  · rw [← hmemtable]
    exact h.lapsed
  · rw [← hmemtable]
    exact h.kept

/-- What a read leaves of the memtable, by whether it found an expired value. -/
theorem Finds.memtable_cases {raw : Option Bytes} (h : Finds e e' key now raw r) :
    (∃ value, raw = some value ∧ Expired now value ∧ e'.memtable = e.memtable.del key) ∨
      ((∀ value, raw = some value → ¬ Expired now value) ∧ e'.memtable = e.memtable) := by
  by_cases hlapsed : ∃ value, raw = some value ∧ Expired now value
  · rcases hlapsed with ⟨value, hraw, hexpired⟩
    exact Or.inl ⟨value, hraw, hexpired, h.lapsed value hraw hexpired⟩
  · have hlive : ∀ value, raw = some value → ¬ Expired now value :=
      fun value hraw hexpired => hlapsed ⟨value, hraw, hexpired⟩
    exact Or.inr ⟨hlive, h.kept hlive⟩

theorem checkTtl_finds (hne : value ≠ TOMBSTONE) (h : e.checkTtl key value now = some (r, e')) :
    Finds e e' key now (some value) r := by
  have hvisible := @visible_some now _ hne
  unfold checkTtl at h
  cases hparse : parseExpiry value with
  | none =>
      rw [hparse] at hvisible
      simp only [hparse, Option.some.injEq, Prod.mk.injEq] at h
      rcases h with ⟨rfl, rfl⟩
      refine Finds.of_live hvisible.symm ?_ rfl (Calls.refl _)
      rintro v ⟨rfl⟩ ⟨t, w, hdecode, -⟩
      have hsome : parseExpiry value = some (t, w) := hdecode
      rw [hparse] at hsome
      cases hsome
  | some p =>
      rcases p with ⟨expiryMs, actual⟩
      rw [hparse] at hvisible
      simp only [hparse] at h
      split_ifs at h with hexpired
      · -- expired: the key is marked in the memtable and dropped from the cache
        simp only [bind, Option.bind_eq_some_iff, pure, Option.some.injEq, Prod.mk.injEq,
          Prod.exists] at h
        rcases h with ⟨b, cache, hremove, rfl, rfl⟩
        refine ⟨?_, fun _ _ _ => rfl, ?_, calls_remove hremove⟩
        · rw [hvisible]
          exact (if_pos hexpired).symm
        · intro hlive
          exact absurd ⟨expiryMs, actual, hparse, hexpired⟩ (hlive value rfl)
      · simp only [Option.some.injEq, Prod.mk.injEq] at h
        rcases h with ⟨rfl, rfl⟩
        refine Finds.of_live ?_ ?_ rfl (Calls.refl _)
        · rw [hvisible]
          exact (if_neg hexpired).symm
        · rintro v ⟨rfl⟩ ⟨t, w, hdecode, hle⟩
          have hsome : parseExpiry value = some (t, w) := hdecode
          rw [hparse] at hsome
          cases hsome
          exact hexpired hle

/-- The deletion mark reads as nothing and does not expire. -/
theorem finds_tombstone (hmemtable : e'.memtable = e.memtable) (hcalls : Calls e.cache e'.cache) :
    Finds e e' key now (some TOMBSTONE) none := by
  refine Finds.of_live (visible_tombstone now).symm ?_ hmemtable hcalls
  rintro v ⟨rfl⟩
  exact not_expired_tombstone now

theorem serve_finds (h : e.serve key value now = some (r, e')) :
    Finds e e' key now (some value) r := by
  unfold serve at h
  split_ifs at h with htomb
  · cases h
    rw [htomb]
    exact finds_tombstone rfl (Calls.refl _)
  · simp only [bind, Option.bind_eq_some_iff] at h
    rcases h with ⟨cache, hput, hcheck⟩
    exact (checkTtl_finds htomb hcheck).after rfl (calls_put hput)

/-- What a read finds decides over its answer and its mark. -/
theorem get_finds (hlinked : e.cache.Linked) (h : e.get key now = some (r, e')) :
    Finds e e' key now (e.found key) r := by
  rcases LRUCache.get_spec hlinked key with ⟨cached, cache, hcache, -⟩
  have hcontents := (hlinked.contents_get hcache).1
  unfold found
  rw [← hcontents]
  cases cached with
  | some value =>
      rw [get_of_hit hcache] at h
      rw [Option.some_or]
      split_ifs at h with htomb
      · cases h
        rw [htomb]
        exact finds_tombstone rfl (calls_get hcache)
      · exact (checkTtl_finds htomb h).after rfl (calls_get hcache)
  | none =>
      rcases get_of_miss hcache now with ⟨saved, hget⟩
      rw [hget] at h
      rw [Option.none_or]
      cases hslow : e.slowPath key with
      | some value =>
          rw [hslow] at h
          exact (serve_finds h).after rfl (calls_get hcache)
      | none =>
          rw [hslow] at h
          cases h
          exact Finds.of_live rfl nofun rfl (calls_get hcache)

/-! ## The cache of an engine -/

/-- Whatever a step does, it does to the cache by calls. -/
theorem step_calls {ev : Event} (hlinked : e.cache.Linked) (hstep : e.step ev = some e') :
    Calls e.cache e'.cache := by
  rcases ev with ⟨op, env⟩
  cases op with
  | set key value =>
      rcases set_eq_some hstep with ⟨e₁, hsteps, rfl⟩
      rcases setSteps_some hsteps with ⟨cache, hput, rfl⟩
      exact (calls_put hput).of_eq (flushIfFull_frame _ env.now env.dev).2
  | get key =>
      rcases LSMEngine.step_get rfl hstep with ⟨r, hget⟩
      exact (get_finds hlinked hget).calls
  | del key =>
      rcases del_eq_some hstep with ⟨e₁, hsteps, rfl⟩
      rcases delSteps_some hsteps with ⟨b, cache, hremove, rfl⟩
      exact (calls_remove hremove).of_eq (flushIfFull_frame _ env.now env.dev).2
  | compact =>
      rw [← step_compact rfl hstep]
      exact (Calls.refl _).of_eq (cache_compact e env.now env.dev)

/-- A cache in use is linked. -/
theorem linked_of_calls {capacity : Nat} {cache : LRUCache Bytes Bytes}
    (h : Calls (LRUCache.new capacity) cache) : cache.Linked := by
  rcases h with ⟨ops, hrun⟩
  exact ((LRUCache.keeps_new capacity).run hrun).linked

/-- What was put is what a read finds next. -/
theorem get_contents_of_put {capacity : Nat} {cache cache' : LRUCache Bytes Bytes}
    (h : Calls (LRUCache.new capacity) cache) {key value : Bytes}
    (hput : cache.put key value = some cache') :
    Assoc.get key cache'.contents = some value := by
  rcases h with ⟨ops, hrun⟩
  have hkeeps : cache.Keeps fun _ => True :=
    (LRUCache.keeps_new capacity).run hrun
  have hroom : 1 ≤ capacity := by
    have hcap := capacity_of_calls ⟨ops, hrun⟩
    have hpos := (hkeeps.put_isSome_iff key value).mp ⟨cache', hput⟩
    rw [hcap] at hpos
    exact hpos
  rcases LRUCache.run_contents hroom (ops ++ [.put key value]) with ⟨cache₁, hrun₁, -, -, hcontents⟩
  have hrun' : Machine.run LRUCache.step (LRUCache.new capacity) (ops ++ [.put key value]) =
      some cache' := Machine.run_concat.mpr ⟨cache, hrun, hput⟩
  rw [hrun'] at hrun₁
  cases hrun₁
  rw [hcontents, Recency.after_concat]
  exact Recency.get_apply_put hroom _ key value

theorem cache_new (disk : DataDir) (dataDir : Bytes) (cacheSize : Nat)
    (memtableSizeBytes : UInt64) (now : Nat) (dev : Device) :
    (new disk dataDir cacheSize memtableSizeBytes now dev).cache = LRUCache.new cacheSize := by
  unfold new recover
  dsimp only
  split_ifs
  · exact (flushIfFull_frame _ now dev).2
  · rfl

/-- The cache of an engine in use is a cache after some calls. -/
theorem calls_run {disk : DataDir} {dataDir : Bytes} {cacheSize : Nat}
    {memtableSizeBytes : UInt64} {dev : Device} {evs : List Event}
    (hrun : Machine.run step (new disk dataDir cacheSize memtableSizeBytes now dev) evs =
      some e) : Calls (LRUCache.new cacheSize) e.cache := by
  induction evs using List.reverseRecOn generalizing e with
  | nil =>
      cases hrun
      exact (Calls.refl _).of_eq (cache_new disk dataDir cacheSize memtableSizeBytes now dev)
  | append_singleton evs ev ih =>
      rcases Machine.run_concat.mp hrun with ⟨e₁, hrun₁, hstep⟩
      exact (ih hrun₁).trans (step_calls (holding_run hrun₁).cache.linked hstep)

end LSMEngine

end VaultDB
