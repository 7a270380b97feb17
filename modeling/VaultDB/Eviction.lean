import VaultDB.Reads

/-! # Eviction at every capacity

`put` compares the size with a capacity that nothing checks, and takes the back
of the list to make room. With room for one entry there is always a back to
take. Without room there never is: such an engine runs exactly as long as
nothing is put (`eviction_safe_iff`).
-/

namespace VaultDB

open Text FileStream SSTable LSMEngine

/-- The step puts a value into the cache: a write does, and a read that finds a
live value below the cache. -/
def Puts (e : LSMEngine) (ev : Event) : Prop :=
  match ev.op with
  | .set _ _ => True
  | .get key =>
    Assoc.get key e.cache.contents = none ∧ ∃ value, e.slowPath key = some value ∧ value ≠ TOMBSTONE
  | .del _ => False
  | .compact => False

/-- A cache after some calls is within its capacity. -/
theorem size_le_of_calls {c : Nat} {cache : LRUCache Bytes Bytes}
    (hcalls : Calls (LRUCache.new c) cache) (hempty : c = 0 → cache.items = []) :
    cache.size ≤ c := by
  rcases Nat.eq_zero_or_pos c with hzero | hpos
  · unfold LRUCache.size
    rw [hempty hzero]
    exact Nat.zero_le _
  · rcases hcalls with ⟨ops, hrun⟩
    rcases LRUCache.run_contents hpos ops with ⟨cache', hrun', -, -, hcontents⟩
    rw [hrun] at hrun'
    cases hrun'
    rw [← LRUCache.length_contents, hcontents]
    exact (Recency.faithful_after c ops).room

theorem contents_of_empty {cache : LRUCache Bytes Bytes} (h : cache.items = []) :
    cache.contents = [] := by
  unfold LRUCache.contents
  rw [h]
  rfl

/-- A step is undefined only where it puts into a cache without room. -/
theorem step_isSome_iff {e : LSMEngine} (h : Holding (fun _ => True) e) (ev : Event) :
    (∃ e', e.step ev = some e') ↔ 0 < e.cache.capacity ∨ ¬ Puts e ev := by
  rcases ev with ⟨op, env⟩
  cases op with
  | set key value =>
      have hiff : (∃ e', e.set key value env = some e') ↔ 0 < e.cache.capacity := h.set_isSome_iff
      simpa [LSMEngine.step, Puts] using hiff
  | get key =>
      show (∃ e', (e.get key env.now).map Prod.snd = some e') ↔ _
      have hputs : (0 < e.cache.capacity ∨ ∀ v, e.slowPath key = some v → v = TOMBSTONE) ↔
          (0 < e.cache.capacity ∨ ¬ Puts e ⟨.get key, env⟩) := by
        by_cases hpos : 0 < e.cache.capacity
        · simp [hpos]
        · -- a cache without room holds nothing
          have hmiss : Assoc.get key e.cache.contents = none := by
            rw [contents_of_empty (h.cache.empty (by omega))]
            rfl
          simp [hpos, Puts, hmiss]
      rw [← hputs]
      rcases h.get valueClass_true key (fun _ _ => trivial) env.now with
        ⟨r, e', hget, hroom, -⟩ | ⟨hget, hroom⟩
      · simp [hget, hroom]
      · simp [hget, hroom]
  | del key =>
      rcases h.del valueClass_true key env with ⟨e', hdel, -⟩
      exact ⟨fun _ => Or.inr not_false, fun _ => ⟨e', hdel⟩⟩
  | compact => exact ⟨fun _ => Or.inr not_false, fun _ => ⟨_, rfl⟩⟩

section

variable (disk : DataDir) (dataDir : Bytes) (cacheSize : Nat) (memtableSizeBytes : UInt64)
  (now : Nat) (dev : Device) (evs : List Event)

/-- The cache is within its capacity at every moment of every run. -/
theorem always_size_le :
    Machine.Always LSMEngine.step (fun e => e.cache.size ≤ cacheSize)
      (new disk dataDir cacheSize memtableSizeBytes now dev) evs := by
  rw [Machine.always_iff]
  intro pre _ e hrun
  have hcalls := calls_run hrun
  apply size_le_of_calls hcalls
  intro hzero
  apply (holding_run hrun).cache.empty
  rw [capacity_of_calls hcalls]
  exact hzero

/-- For every directory, every capacity and every sequence of operations: no
`put` takes the back of an empty list, and the cache stays within its capacity,
exactly when the capacity is positive or no operation puts into the cache. -/
theorem eviction_safe_iff :
    ((∃ e, Machine.run LSMEngine.step
        (new disk dataDir cacheSize memtableSizeBytes now dev) evs = some e) ∧
      Machine.Always LSMEngine.step (fun e => e.cache.size ≤ cacheSize)
        (new disk dataDir cacheSize memtableSizeBytes now dev) evs) ↔
      0 < cacheSize ∨ Machine.Guarded LSMEngine.step (fun e ev => ¬ Puts e ev)
        (new disk dataDir cacheSize memtableSizeBytes now dev) evs := by
  rw [and_iff_left (always_size_le disk dataDir cacheSize memtableSizeBytes now dev evs)]
  have hstart : Holding (fun _ => True) (new disk dataDir cacheSize memtableSizeBytes now dev) ∧
      (new disk dataDir cacheSize memtableSizeBytes now dev).cache.capacity = cacheSize :=
    ⟨holding_new valueClass_true (fun _ _ => trivial) _ _ _ _ _, by rw [cache_new]; rfl⟩
  have hkeep : ∀ (e : LSMEngine) (ev : Event) (e' : LSMEngine),
      Holding (fun _ => True) e ∧ e.cache.capacity = cacheSize → e.step ev = some e' →
      Holding (fun _ => True) e' ∧ e'.cache.capacity = cacheSize :=
    fun e ev e' h hstep => ⟨holding_step h.1 hstep, (step_frame hstep).2.trans h.2⟩
  have hexact : ∀ (e : LSMEngine) (ev : Event),
      Holding (fun _ => True) e ∧ e.cache.capacity = cacheSize →
      ((∃ e', e.step ev = some e') ↔ 0 < cacheSize ∨ ¬ Puts e ev) :=
    fun e ev h => h.2 ▸ step_isSome_iff h.1 ev
  rw [Machine.run_isSome_iff_guarded hkeep hexact hstart]
  by_cases hpos : 0 < cacheSize
  · simp only [hpos, true_or, iff_true]
    exact Machine.guarded_of_forall fun _ _ => trivial
  · simp only [hpos, false_or]

end

/-- A cache that is configured without room fails at the first write. -/
theorem eviction_of_empty_list :
    ¬ ∀ (cacheSize : Nat) (evs : List Event),
      (∃ e, Machine.run LSMEngine.step (start [] cacheSize 1024) evs = some e) ∧
        Machine.Always LSMEngine.step (fun e => e.cache.size ≤ cacheSize)
          (start [] cacheSize 1024) evs := by
  intro hall
  rcases (hall 0 [⟨.set (ascii "k") (ascii "v"), Env.calm 1⟩]).1 with ⟨e, hrun⟩
  have hnone : Machine.run LSMEngine.step (start [] 0 1024)
      [⟨.set (ascii "k") (ascii "v"), Env.calm 1⟩] = none := by decide +kernel
  rw [hrun] at hnone
  cases hnone

end VaultDB
