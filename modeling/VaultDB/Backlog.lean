import VaultDB.Accounting
import VaultDB.Library.Bucket
import VaultDB.Threshold

/-! # The backlog of tables

Every flush adds a table and pays for it with a memtable full of bytes; every
compaction takes one away while there are more than four. So the bytes in the
tables and in the memtable, counted in thresholds, are a level in a leaky
bucket: operations pour in what they write, and a compaction drains one
threshold. Where no stretch of a run writes more than its compactions drain and
`burst` more, the number of tables stays bounded (`tables_bounded`), however
long the run is and whatever devices fail.
-/

namespace VaultDB

open Text FileStream

namespace LSMEngine

/-- The value has a deadline, and it has passed. -/
def pastDeadline (now : Nat) (value : Bytes) : Bool :=
  match parseExpiry value with
  | some (expiryMs, _) => expiryMs ≤ (now : Int)
  | none => false

/-- A read finds an expired value and marks its key deleted. -/
def lapses (e : LSMEngine) (key : Bytes) (now : Nat) : Bool := (e.found key).any (pastDeadline now)

/-- The bytes of the entry an operation writes into the memtable. -/
def bytesWritten (e : LSMEngine) (ev : Event) : Nat :=
  match ev.op with
  | .set key value => MemTable.entryBytes (key, value)
  | .get key => if e.lapses key ev.env.now then MemTable.entryBytes (key, TOMBSTONE) else 0
  | .del key => MemTable.entryBytes (key, TOMBSTONE)
  | .compact => 0

def isCompact (ev : Event) : Bool := ev.op = .compact

/-- The bytes that compactions can make room for. -/
def bytesDrained (threshold : UInt64) (ev : Event) : Nat :=
  if isCompact ev then threshold.toNat else 0

/-- What the tables and the memtable hold, a table counting as one threshold
and the memtable as no more than that. -/
def level (threshold : UInt64) (e : LSMEngine) : Nat :=
  e.sstables.length * threshold.toNat + min e.memtable.liveBytes threshold.toNat

/-- The sizes of the memtable are accounted for, against this threshold. -/
structure Metered (threshold : UInt64) (e : LSMEngine) : Prop where
  holding : Holding (fun _ => True) e
  counted : e.memtable.Counted
  bound : e.memtable.maxSizeBytes = threshold

variable {e e' e₁ : LSMEngine} {threshold : UInt64} {key value : Bytes}

theorem pastDeadline_iff {now : Nat} : pastDeadline now value = true ↔ Expired now value := by
  unfold pastDeadline
  constructor
  · intro h
    cases hparse : parseExpiry value with
    | none =>
        rw [hparse] at h
        cases h
    | some parsed =>
        obtain ⟨expiryMs, actual⟩ := parsed
        rw [hparse] at h
        exact ⟨expiryMs, actual, hparse, of_decide_eq_true h⟩
  · rintro ⟨expiryMs, actual, hdecode, hle⟩
    have hparse : parseExpiry value = some (expiryMs, actual) := hdecode
    rw [hparse]
    exact decide_eq_true hle

theorem lapses_iff {now : Nat} :
    e.lapses key now = true ↔ ∃ value, e.found key = some value ∧ Expired now value := by
  unfold lapses
  rw [Option.any_eq_true]
  simp only [pastDeadline_iff]

/-! ## The memtable -/

/-- A write adds no more bytes than its entry has. -/
theorem liveBytes_set_le {table : MemTable} (h : table.Counted) (key value : Bytes) :
    (table.set key value).liveBytes ≤ table.liveBytes + MemTable.entryBytes (key, value) := by
  have hlive := MemTable.liveBytes_set h.sorted key value
  omega

/-- The counter is never ahead of the entries. -/
theorem sizeBytes_le_liveBytes {table : MemTable} (h : table.Counted) :
    table.sizeBytes.toNat ≤ table.liveBytes := by
  unfold MemTable.sizeBytes
  rw [h.counter, UInt64.toNat_ofNat']
  exact Nat.mod_le _ _

/-- A full memtable holds a threshold of bytes. -/
theorem threshold_le_liveBytes {table : MemTable} (h : table.Counted)
    (hfull : table.isFull = true) : table.maxSizeBytes.toNat ≤ table.liveBytes := by
  have hle : table.maxSizeBytes ≤ table.currentSizeBytes := of_decide_eq_true hfull
  exact (UInt64.le_iff_toNat_le.mp hle).trans (sizeBytes_le_liveBytes h)

/-! ## One step -/

theorem counted_flushIfFull (h : e.memtable.Counted) (now : Nat) (dev : Device) :
    (e.flushIfFull now dev).memtable.Counted := by
  rcases memtable_flushIfFull e now dev with heq | heq
  · rw [heq]
    exact h
  · rw [heq]
    exact MemTable.Counted.clear

/-- A flush pays for its table. -/
theorem level_flushIfFull (hcounted : e.memtable.Counted)
    (hbound : e.memtable.maxSizeBytes = threshold) (now : Nat) (dev : Device) :
    (e.flushIfFull now dev).level threshold ≤ e.level threshold := by
  rcases flushIfFull_cases e now dev with heq | ⟨hfull, hne, heq⟩
  · rw [heq]
  · have hpaid := threshold_le_liveBytes hcounted hfull
    rw [hbound] at hpaid
    rw [heq, flushMemtable_files hne]
    have hempty : e.memtable.clear.liveBytes = 0 := rfl
    unfold level
    rw [List.length_append, List.length_singleton, hempty, Nat.min_eq_right hpaid, Nat.add_mul]
    omega

/-- A write into the memtable, the check for a full one behind it. -/
theorem level_write (hmetered : Metered threshold e) (e₁ : LSMEngine)
    (hmemtable : e₁.memtable = e.memtable.set key value) (hsstables : e₁.sstables = e.sstables)
    (now : Nat) (dev : Device) :
    (e₁.flushIfFull now dev).level threshold ≤
        e.level threshold + MemTable.entryBytes (key, value) ∧
      (e₁.flushIfFull now dev).memtable.Counted := by
  have hcounted : e₁.memtable.Counted := hmemtable ▸ hmetered.counted.set key value
  have hbound : e₁.memtable.maxSizeBytes = threshold := by
    rw [hmemtable]
    exact hmetered.bound
  have hflush := level_flushIfFull hcounted hbound now dev
  refine ⟨hflush.trans ?_, counted_flushIfFull hcounted now dev⟩
  have hlive := liveBytes_set_le hmetered.counted key value
  unfold level
  rw [hmemtable, hsstables]
  omega

/-- A compaction takes one table away while there are more than four. -/
theorem length_compact (e : LSMEngine) (now : Nat) (dev : Device) :
    (e.compact now dev).sstables.length =
      if 4 < e.sstables.length then e.sstables.length - 1 else e.sstables.length := by
  by_cases hmany : 4 < e.sstables.length
  · obtain ⟨older, newer, staying, hsplit⟩ := exists_two_oldest hmany
    rw [compact_files hmany hsplit, if_pos hmany, hsplit]
    rfl
  · rw [compact_of_few hmany, if_neg hmany]

theorem level_compact (e : LSMEngine) (now : Nat) (dev : Device) :
    (e.compact now dev).level threshold ≤
      max (5 * threshold.toNat) (e.level threshold - threshold.toNat) := by
  have hmemtable := (compact_log e now dev).2.2
  unfold level
  rw [hmemtable, length_compact]
  split_ifs with hmany
  · refine le_max_of_le_right ?_
    obtain ⟨n, hn⟩ := Nat.exists_eq_add_of_lt hmany
    rw [hn, Nat.add_sub_cancel, Nat.add_mul _ 1, Nat.one_mul]
    omega
  · -- the bucket does not have to drain: four tables and a memtable are on the floor
    refine le_max_of_le_left ?_
    have htables := Nat.mul_le_mul_right threshold.toNat (Nat.le_of_not_lt hmany)
    omega

/-- An operation pours in what it writes; a compaction drains one threshold. -/
theorem level_step (hmetered : Metered threshold e) {ev : Event} (hstep : e.step ev = some e') :
    Metered threshold e' ∧ e'.level threshold ≤
      max (5 * threshold.toNat)
        (e.level threshold + e.bytesWritten ev - bytesDrained threshold ev) := by
  have hlinked := hmetered.holding.cache.linked
  have hholding := holding_step hmetered.holding hstep
  have hbound := (maxSizeBytes_step hlinked hstep).trans hmetered.bound
  obtain ⟨op, env⟩ := ev
  cases op with
  | set key value =>
      rcases set_eq_some hstep with ⟨e₁, hsteps, rfl⟩
      rcases setSteps_some hsteps with ⟨cache, -, rfl⟩
      obtain ⟨hlevel, hcounted⟩ := level_write hmetered
        { e with
          disk := ⟨(e.wal.append e.disk.walLog env.logRoom env.stamp WALOp.SET key value).2,
            e.disk.tables⟩
          cache := cache
          memtable := e.memtable.set key value
          wal := (e.wal.append e.disk.walLog env.logRoom env.stamp WALOp.SET key value).1 }
        rfl rfl env.now env.dev
      exact ⟨⟨hholding, hcounted, hbound⟩, le_max_of_le_right hlevel⟩
  | get key =>
      obtain ⟨r, hget⟩ := LSMEngine.step_get rfl hstep
      have hsstables := (readFrame_get hget).sstables
      rcases (get_finds hlinked hget).memtable_cases with
        ⟨value, hfound, hexpired, hmark⟩ | ⟨-, hsame⟩
      · have hlapses : e.lapses key env.now = true := lapses_iff.mpr ⟨value, hfound, hexpired⟩
        have hlive := liveBytes_set_le hmetered.counted key TOMBSTONE
        refine ⟨⟨hholding, hmark ▸ hmetered.counted.set key TOMBSTONE, hbound⟩, ?_⟩
        refine le_max_of_le_right ?_
        unfold level bytesWritten bytesDrained isCompact MemTable.del at *
        simp only [hsstables, hmark, hlapses, if_true, reduceCtorEq, decide_false,
          Bool.false_eq_true, if_false]
        omega
      · refine ⟨⟨hholding, hsame ▸ hmetered.counted, hbound⟩, le_max_of_le_right ?_⟩
        unfold level bytesDrained isCompact
        simp only [hsstables, hsame, reduceCtorEq, decide_false, Bool.false_eq_true, if_false]
        omega
  | del key =>
      rcases del_eq_some hstep with ⟨e₁, hsteps, rfl⟩
      rcases delSteps_some hsteps with ⟨b, cache, -, rfl⟩
      obtain ⟨hlevel, hcounted⟩ := level_write hmetered
        { e with
          disk := ⟨(e.wal.append e.disk.walLog env.logRoom env.stamp WALOp.DELETE key []).2,
            e.disk.tables⟩
          cache := cache
          memtable := e.memtable.del key
          wal := (e.wal.append e.disk.walLog env.logRoom env.stamp WALOp.DELETE key []).1 }
        rfl rfl env.now env.dev
      exact ⟨⟨hholding, hcounted, hbound⟩, le_max_of_le_right hlevel⟩
  | compact =>
      rw [← step_compact rfl hstep] at hholding hbound ⊢
      refine ⟨⟨hholding, ?_, hbound⟩, level_compact e env.now env.dev⟩
      rw [(compact_log e env.now env.dev).2.2]
      exact hmetered.counted

/-! ## Start -/

theorem counted_replay (records : List WALEntry) {memtable : MemTable} (h : memtable.Counted) :
    (replay records memtable).Counted := by
  induction records using List.reverseRecOn with
  | nil => exact h
  | append_singleton records entry ih =>
      rw [replay_concat]
      unfold replayEntry
      split_ifs
      · exact ih.set entry.key entry.value
      · exact ih.set entry.key TOMBSTONE
      · exact ih

theorem metered_new (hthreshold : 0 < threshold) (disk : DataDir) (dataDir : Bytes)
    (cacheSize : Nat) (now : Nat) (dev : Device) :
    Metered threshold (new disk dataDir cacheSize threshold now dev) := by
  refine ⟨holding_new valueClass_true (fun _ _ => trivial) _ _ _ _ _, ?_,
    (below_new hthreshold disk dataDir cacheSize now dev).2⟩
  have hreplayed := counted_replay (WAL.recover disk.walLog) (MemTable.counted_new threshold)
  unfold new recover
  dsimp only
  split_ifs
  · exact counted_flushIfFull hreplayed now dev
  · exact hreplayed

/-- Run lemma of `level_step`. -/
theorem level_run (hmetered : Metered threshold e) {evs : List Event}
    (hrun : Machine.run step e evs = some e') :
    e'.level threshold ≤ max (e.level threshold) (5 * threshold.toNat) +
      Bucket.gauge step bytesWritten (fun _ => bytesDrained threshold) 0 e evs :=
  Bucket.level_le_gauge (fun _ _ _ h hstep => (level_step h hstep).1)
    (fun _ _ _ h hstep => (level_step h hstep).2) hmetered hrun

theorem flow_bytesDrained {evs : List Event} (hrun : Machine.run step e evs = some e') :
    Bucket.flow step (fun _ => bytesDrained threshold) e evs =
      evs.countP isCompact * threshold.toNat := by
  rw [Bucket.flow_eq_sum hrun]
  clear hrun
  induction evs with
  | nil => rw [List.map_nil, List.sum_nil, List.countP_nil, Nat.zero_mul]
  | cons ev evs ih =>
      rw [List.map_cons, List.sum_cons, ih, List.countP_cons, Nat.add_mul, bytesDrained]
      split_ifs <;> omega

/-- A run that the gauge never sees above `burst` keeps to the rate. -/
theorem rate_of_gauge {evs : List Event} {burst : Nat}
    (hdefined : ∃ e', Machine.run step e evs = some e')
    (hgauge : ∀ pre, pre <+: evs →
      Bucket.gauge step bytesWritten (fun _ => bytesDrained threshold) 0 e pre ≤ burst) :
    ∀ pre post, pre ++ post <+: evs → ∀ e₁, Machine.run step e pre = some e₁ →
      Bucket.flow step bytesWritten e₁ post ≤
        post.countP isCompact * threshold.toNat + burst := by
  intro pre post hprefix e₁ hpre
  obtain ⟨rest, rfl⟩ := hprefix
  obtain ⟨e', hrun⟩ := hdefined
  obtain ⟨e₂, hrun₂, -⟩ := Machine.run_append.mp hrun
  have hflow := (Bucket.gauge_le_iff hrun₂).mp (hgauge _ (List.prefix_append _ _)) pre post e₁
    rfl hpre
  rw [flow_bytesDrained (Machine.run_rest hpre hrun₂)] at hflow
  exact hflow

/-- Whatever directory an engine starts on and whatever fails: as long as no
stretch of a run writes more than a threshold for each of its compactions and
`burst` bytes, the tables are no more than those at the start, or four, one
more, and what the burst fills. -/
theorem tables_bounded {threshold : UInt64} (hthreshold : 0 < threshold) (disk : DataDir)
    (dataDir : Bytes) (cacheSize : Nat) (now : Nat) (dev : Device) {evs : List Event}
    {burst : Nat}
    (hrate : ∀ pre post, pre ++ post <+: evs → ∀ e,
      Machine.run step (new disk dataDir cacheSize threshold now dev) pre = some e →
      Bucket.flow step bytesWritten e post ≤
        post.countP isCompact * threshold.toNat + burst) :
    Machine.Always step
      (fun e => e.sstables.length ≤
        max (new disk dataDir cacheSize threshold now dev).sstables.length 4 + 1 +
          burst / threshold.toNat)
      (new disk dataDir cacheSize threshold now dev) evs := by
  rw [Machine.always_iff]
  intro pre hpre e hrun
  have hmetered := metered_new hthreshold disk dataDir cacheSize now dev
  have hgauge : Bucket.gauge step bytesWritten (fun _ => bytesDrained threshold) 0
      (new disk dataDir cacheSize threshold now dev) pre ≤ burst := by
    rw [Bucket.gauge_le_iff hrun]
    intro first last e₁ hsplit hfirst
    rw [flow_bytesDrained (Machine.run_rest hfirst (hsplit ▸ hrun))]
    exact hrate first last (hsplit ▸ hpre) e₁ hfirst
  have hlevel := level_run hmetered hrun
  generalize new disk dataDir cacheSize threshold now dev = start at hlevel hgauge ⊢
  -- a memtable counts for one table, and the burst for as many as it fills
  have hpos : 0 < threshold.toNat := UInt64.lt_iff_toNat_lt.mp hthreshold
  have hstart : start.level threshold ≤ (start.sstables.length + 1) * threshold.toNat := by
    unfold level
    rw [Nat.add_mul]
    omega
  have hfloor : max (start.level threshold) (5 * threshold.toNat) ≤
      (max start.sstables.length 4 + 1) * threshold.toNat := by
    refine max_le (hstart.trans (Nat.mul_le_mul_right _ (by omega))) ?_
    exact Nat.mul_le_mul_right _ (by omega)
  have hfull : e.sstables.length * threshold.toNat ≤ e.level threshold := Nat.le_add_right _ _
  have htables : e.sstables.length * threshold.toNat ≤
      burst + (max start.sstables.length 4 + 1) * threshold.toNat := by omega
  calc e.sstables.length
      ≤ (burst + (max start.sstables.length 4 + 1) * threshold.toNat) / threshold.toNat :=
        (Nat.le_div_iff_mul_le hpos).mpr htables
    _ = max start.sstables.length 4 + 1 + burst / threshold.toNat := by
        rw [Nat.add_mul_div_right _ _ hpos, Nat.add_comm]

/-- Six values a threshold long and two more bytes, a compaction after each. -/
def sixWrites : List Event :=
  (List.range 6).flatMap fun i =>
    [⟨.set (decimal i) (ascii "value"), Env.calm i⟩, ⟨.compact, Env.calm (100 + i)⟩]

theorem tables_bounded_sixWrites :
    Machine.Always step
      (fun e => e.sstables.length ≤
        max (new DataDir.empty [] 1 4 0 Device.sound).sstables.length 4 + 1 +
          16 / (4 : UInt64).toNat)
      (new DataDir.empty [] 1 4 0 Device.sound) sixWrites := by
  refine tables_bounded (by decide) DataDir.empty [] 1 0 Device.sound ?_
  refine rate_of_gauge ?_ ?_
  · rw [← Option.isSome_iff_exists]
    decide +kernel
  · have hall : ∀ pre ∈ sixWrites.inits,
        Bucket.gauge step bytesWritten (fun _ => bytesDrained 4) 0
          (new DataDir.empty [] 1 4 0 Device.sound) pre ≤ 16 := by decide +kernel
    intro pre hpre
    exact hall pre ((List.mem_inits pre sixWrites).mpr hpre)

end LSMEngine

end VaultDB
