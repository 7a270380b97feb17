import VaultDB.Reads

/-! # The memtable and its threshold

`set`, `del` and recovery end with a check for a full memtable. The deletion
mark that a read puts over an expired value is not followed by one. So the
memtable stays below its threshold exactly as long as these marks fit
(`below_threshold_iff`).
-/

namespace VaultDB

open Text FileStream SSTable LSMEngine

/-- A read that marks an expired key deleted leaves the memtable with room. -/
def MarkFits (e : LSMEngine) (ev : Event) : Prop :=
  match ev.op with
  | .get key => ∀ value, e.found key = some value → Expired ev.env.now value →
      (e.memtable.del key).isFull = false
  | .set _ _ => True
  | .del _ => True
  | .compact => True

namespace MemTable

/-- The buffer is below its threshold. -/
def Below (table : MemTable) : Prop := table.sizeBytes < table.maxSizeBytes

theorem below_iff {table : MemTable} : table.Below ↔ table.isFull = false := by
  unfold Below isFull sizeBytes
  rw [decide_eq_false_iff_not, UInt64.not_le]

theorem below_clear {table : MemTable} (hm : 0 < table.maxSizeBytes) : table.clear.Below := hm

end MemTable

namespace LSMEngine

/-- The check for a full memtable restores the bound. -/
theorem below_flushIfFull {e : LSMEngine} (memtable : MemTable) (hmemtable : e.memtable = memtable)
    (hm : 0 < memtable.maxSizeBytes) (hne : memtable.data ≠ []) (now : Nat) (dev : Device) :
    (e.flushIfFull now dev).memtable.Below := by
  subst hmemtable
  unfold flushIfFull
  by_cases hfull : e.memtable.isFull = true
  · rw [if_pos hfull, flushMemtable_files hne]
    exact MemTable.below_clear hm
  · rw [if_neg hfull, MemTable.below_iff]
    exact Bool.eq_false_iff.mpr hfull

/-- A memtable below the threshold is left alone. -/
theorem flushIfFull_of_below {e : LSMEngine} (hbelow : e.memtable.Below) (now : Nat)
    (dev : Device) : e.flushIfFull now dev = e := by
  unfold flushIfFull
  rw [MemTable.below_iff.mp hbelow]
  rfl

theorem maxSizeBytes_flushIfFull (e : LSMEngine) (now : Nat) (dev : Device) :
    (e.flushIfFull now dev).memtable.maxSizeBytes = e.memtable.maxSizeBytes := by
  rcases memtable_flushIfFull e now dev with heq | heq
  · rw [heq]
  · rw [heq]
    rfl

theorem maxSizeBytes_step {e e' : LSMEngine} {ev : Event} (hlinked : e.cache.Linked)
    (hstep : e.step ev = some e') : e'.memtable.maxSizeBytes = e.memtable.maxSizeBytes := by
  rcases ev with ⟨op, env⟩
  cases op with
  | set key value =>
      rcases set_eq_some hstep with ⟨e₁, hsteps, rfl⟩
      rcases setSteps_some hsteps with ⟨cache, -, rfl⟩
      exact maxSizeBytes_flushIfFull _ env.now env.dev
  | get key =>
      rcases LSMEngine.step_get rfl hstep with ⟨r, hget⟩
      rcases (get_finds hlinked hget).memtable_cases with ⟨value, -, -, hmark⟩ | ⟨-, hsame⟩
      · rw [hmark]
        rfl
      · rw [hsame]
  | del key =>
      rcases del_eq_some hstep with ⟨e₁, hsteps, rfl⟩
      rcases delSteps_some hsteps with ⟨b, cache, -, rfl⟩
      exact maxSizeBytes_flushIfFull _ env.now env.dev
  | compact =>
      rw [← step_compact rfl hstep, (compact_log e env.now env.dev).2.2]

/-- From below the threshold a step ends below it exactly when its mark fits. -/
theorem below_step_iff {e e' : LSMEngine} {ev : Event} (hlinked : e.cache.Linked)
    (hm : 0 < e.memtable.maxSizeBytes) (hbelow : e.memtable.Below)
    (hstep : e.step ev = some e') : e'.memtable.Below ↔ MarkFits e ev := by
  rcases ev with ⟨op, env⟩
  cases op with
  | set key value =>
      rcases set_eq_some hstep with ⟨e₁, hsteps, rfl⟩
      rcases setSteps_some hsteps with ⟨cache, -, rfl⟩
      refine iff_of_true ?_ trivial
      exact below_flushIfFull (e.memtable.set key value) rfl hm (MemTable.data_set_ne_nil _ _ _)
        env.now env.dev
  | get key =>
      rcases LSMEngine.step_get rfl hstep with ⟨r, hget⟩
      rcases (get_finds hlinked hget).memtable_cases with
        ⟨value, hfound, hexpired, hmark⟩ | ⟨hlive, hsame⟩
      · rw [hmark, MemTable.below_iff]
        exact ⟨fun hroom _ _ _ => hroom, fun hfits => hfits value hfound hexpired⟩
      · rw [hsame]
        exact iff_of_true hbelow fun value hfound hexpired =>
          absurd hexpired (hlive value hfound)
  | del key =>
      rcases del_eq_some hstep with ⟨e₁, hsteps, rfl⟩
      rcases delSteps_some hsteps with ⟨b, cache, -, rfl⟩
      refine iff_of_true ?_ trivial
      exact below_flushIfFull (e.memtable.del key) rfl hm (MemTable.data_set_ne_nil _ _ _)
        env.now env.dev
  | compact =>
      rw [← step_compact rfl hstep, (compact_log e env.now env.dev).2.2]
      exact iff_of_true hbelow trivial

/-! ## Recovery -/

/-- Replaying records leaves a memtable alone or with an entry. -/
theorem replay_cases (records : List WALEntry) (memtable : MemTable) :
    replay records memtable = memtable ∨ (replay records memtable).data ≠ [] := by
  induction records using List.reverseRecOn with
  | nil => exact Or.inl rfl
  | append_singleton records entry ih =>
      rw [replay_concat]
      unfold replayEntry
      split_ifs
      · exact Or.inr (MemTable.data_set_ne_nil _ _ _)
      · exact Or.inr (MemTable.data_set_ne_nil _ _ _)
      · exact ih

theorem maxSizeBytes_replay (records : List WALEntry) (memtable : MemTable) :
    (replay records memtable).maxSizeBytes = memtable.maxSizeBytes := by
  induction records using List.reverseRecOn with
  | nil => rfl
  | append_singleton records entry ih =>
      rw [replay_concat]
      unfold replayEntry
      split_ifs <;> exact ih

theorem below_recover {e : LSMEngine} (hm : 0 < e.memtable.maxSizeBytes)
    (hbelow : e.memtable.Below) (now : Nat) (dev : Device) :
    (e.recover now dev).memtable.Below ∧
      (e.recover now dev).memtable.maxSizeBytes = e.memtable.maxSizeBytes := by
  have hmax := maxSizeBytes_replay (WAL.recover e.disk.walLog) e.memtable
  unfold recover
  dsimp only
  split_ifs with hrecords
  · refine ⟨?_, (maxSizeBytes_flushIfFull _ now dev).trans hmax⟩
    rcases replay_cases (WAL.recover e.disk.walLog) e.memtable with hsame | hne
    · -- records of neither operation change nothing
      rw [hsame]
      have hsame' := flushIfFull_of_below (e := { e with memtable := e.memtable }) hbelow now dev
      rw [hsame']
      exact hbelow
    · exact below_flushIfFull _ rfl (hmax ▸ hm) hne now dev
  · have hnil : WAL.recover e.disk.walLog = [] := by simpa using hrecords
    rw [hnil]
    exact ⟨hbelow, rfl⟩

theorem below_new {threshold : UInt64} (hm : 0 < threshold) (disk : DataDir) (dataDir : Bytes)
    (cacheSize : Nat) (now : Nat) (dev : Device) :
    (new disk dataDir cacheSize threshold now dev).memtable.Below ∧
      (new disk dataDir cacheSize threshold now dev).memtable.maxSizeBytes = threshold :=
  below_recover (e := loadExistingSstables ⟨dataDir, disk, LRUCache.new cacheSize,
    MemTable.new threshold, WAL.new, [], 0, 0, 0, 0⟩) hm hm now dev

end LSMEngine

/-- For every threshold above zero, every directory and every run: the memtable
is below its threshold after recovery and after every operation exactly when
every read of the run that marks an expired key leaves room. -/
theorem below_threshold_iff {threshold : UInt64} (hm : 0 < threshold) (disk : DataDir)
    (dataDir : Bytes) (cacheSize : Nat) (now : Nat) (dev : Device) (evs : List Event) :
    Machine.Always LSMEngine.step (fun e => e.memtable.sizeBytes < threshold)
        (new disk dataDir cacheSize threshold now dev) evs ↔
      Machine.Along LSMEngine.step MarkFits
        (new disk dataDir cacheSize threshold now dev) evs := by
  rcases below_new hm disk dataDir cacheSize now dev with ⟨hbelow, hmax⟩
  apply Machine.always_iff_along_of_invariant
    (I := fun e => Holding (fun _ => True) e ∧ e.memtable.maxSizeBytes = threshold)
  · intro e ev e' h hstep
    exact ⟨holding_step h.1 hstep, (maxSizeBytes_step h.1.cache.linked hstep).trans h.2⟩
  · intro e ev e' h hsize hstep
    have hlinked := h.1.cache.linked
    rw [← h.2] at hm hsize
    rw [← h.2, ← maxSizeBytes_step hlinked hstep]
    exact below_step_iff hlinked hm hsize hstep
  · exact ⟨holding_new valueClass_true (fun _ _ => trivial) _ _ _ _ _, hmax⟩
  · unfold MemTable.Below at hbelow
    rw [hmax] at hbelow
    exact hbelow

/-- A mark that fits. -/
theorem below_threshold_iff_room :
    Machine.Always LSMEngine.step (fun e => e.memtable.sizeBytes < 64)
      (new DataDir.empty [] 1 64 0 Device.sound)
      [⟨.set (ascii "k") (ascii "EXPIRY:1:v"), Env.calm 0⟩, ⟨.get (ascii "k"), Env.calm 5⟩] := by
  refine (below_threshold_iff (by decide) _ _ _ _ _ _).mpr ?_
  intro e hset
  refine ⟨trivial, ?_⟩
  intro e' _
  refine ⟨?_, trivial⟩
  intro value _ _
  have hroom : (LSMEngine.step (new DataDir.empty [] 1 64 0 Device.sound)
      ⟨.set (ascii "k") (ascii "EXPIRY:1:v"), Env.calm 0⟩).map
      (fun e => (e.memtable.del (ascii "k")).isFull) = some false := by decide +kernel
  rw [hset] at hroom
  exact Option.some.inj hroom

/-- The tombstone of one lapsed key fills a small memtable. -/
theorem mark_over_threshold :
    ¬ ∀ (threshold : UInt64) (evs : List Event), 0 < threshold → (∀ ev ∈ evs, NoIoError ev) →
      Machine.Always LSMEngine.step (fun e => e.memtable.sizeBytes < threshold)
        (start [] 1 threshold) evs := by
  intro hall
  have hbelow := hall 20 [⟨.set (ascii "k") (ascii "EXPIRY:1:v"), Env.calm 0⟩,
    ⟨.get (ascii "k"), Env.calm 5⟩] (by decide) (by decide)
  have hover : (Machine.run LSMEngine.step (start [] 1 20)
      [⟨.set (ascii "k") (ascii "EXPIRY:1:v"), Env.calm 0⟩, ⟨.get (ascii "k"), Env.calm 5⟩]).map
      (fun e => e.memtable.sizeBytes) = some 22 := by decide +kernel
  rcases Option.map_eq_some_iff.mp hover with ⟨e, hrun, hsize⟩
  have hlt := Machine.always_iff.mp hbelow _ List.prefix_rfl e hrun
  rw [hsize] at hlt
  exact absurd hlt (by decide)

end VaultDB
