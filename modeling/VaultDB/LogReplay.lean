import VaultDB.Runs

/-! # The log reproduces the memtable

An expired read marks its key deleted in the memtable and not in the log, so
the two differ; but what is expired stays expired, and no later read can tell.
In runs whose files do not collide, the log replayed above the same tables
answers as the engine does (`log_reproduces`), and a record that is cut shows
the state before its operation until it is complete. Where files collide the
memtable may hide what the tables have lost (`collision_shows`).
-/

namespace VaultDB

open Text Codec FileStream SSTable Expiring LSMEngine

variable {dataDir : Bytes} {cacheSize : Nat} {threshold : UInt64}

/-- The engine with the memtable that a log leaves, above the same tables. -/
def replayedOn (e : LSMEngine) (log : Bytes) (cacheSize : Nat) : LSMEngine :=
  { e with
    disk := ⟨log, e.disk.tables⟩
    memtable := replay (WAL.recover log) e.memtable.clear
    cache := LRUCache.new cacheSize }

/-- The log when a write is cut after `n` bytes of its record. -/
def cutLog (e : LSMEngine) (ev : Event) (n : Nat) : Bytes :=
  match ev.op with
  | .set key value =>
    (e.wal.append e.disk.walLog (some n) ev.env.stamp WALOp.SET key value).2
  | .del key => (e.wal.append e.disk.walLog (some n) ev.env.stamp WALOp.DELETE key []).2
  | _ => e.disk.walLog

/-- From the time of the events on, the log answers as the engine does; and
with the next write cut after `n` bytes of its record, as the engine did before
the write, or as it does after the write if the record is complete. -/
structure Reproduces (evs : List Event) (e : LSMEngine) : Prop where
  replay : ∀ (cacheSize t : Nat) (key : Bytes), 0 < cacheSize →
    (∀ r ∈ evs.flatMap readings, r ≤ t) →
    (replayedOn e e.disk.walLog cacheSize).answer key t = e.answer key t
  cut : ∀ (ev : Event) (entry : WALEntry) (e₁ : LSMEngine) (n cacheSize t : Nat) (key : Bytes),
    NoIoError ev → OpFits ev.op → recordOf ev = some entry → e.firstSteps ev = some e₁ →
    0 < cacheSize → (∀ r ∈ evs.flatMap readings, r ≤ t) →
    (replayedOn e (cutLog e ev n) cacheSize).answer key t =
      if n < (WAL.encode entry).length then e.answer key t else e₁.answer key t

theorem cutLog_eq {e : LSMEngine} (hopen : e.wal.failbit = false) {ev : Event}
    {entry : WALEntry} (hrecord : recordOf ev = some entry) (n : Nat) :
    cutLog e ev n = e.disk.walLog ++ (WAL.encode entry).take n := by
  rcases ev with ⟨op, env⟩
  unfold cutLog
  cases op with
  | set key value =>
      rw [← Option.some.inj hrecord]
      exact (WAL.append_room hopen e.disk.walLog n env.stamp WALOp.SET key value).1
  | del key =>
      rw [← Option.some.inj hrecord]
      exact (WAL.append_room hopen e.disk.walLog n env.stamp WALOp.DELETE key []).1
  | get key => cases hrecord
  | compact => cases hrecord

/-- Above the same tables, a log is answered from as its records say. -/
theorem answer_replayedOn {e : LSMEngine} (h : Sound e) {log : Bytes} {cacheSize : Nat}
    (hcache : 0 < cacheSize) (key : Bytes) (t : Nat) :
    (replayedOn e log cacheSize).answer key t =
      some (visible t ((logged (WAL.recover log) key).or
        (onDisk e.disk.tables e.sstables key))) := by
  have hrecords := (replayedOn e log cacheSize).records_fit
  have hlayered : Layered (replayedOn e log cacheSize) := by
    refine ⟨h.stored, ordered_replay hrecords MemTable.Ordered.clear, LRUCache.linked_new _, ?_,
      Or.inl hcache⟩
    rintro k v ⟨n, hn, -⟩
    cases hn
  rw [hlayered.answer]
  have hmem := get_replay (WAL.recover log) e.memtable.clear key
  rw [MemTable.get_clear, Option.or_none] at hmem
  show some (visible t (((replay (WAL.recover log) e.memtable.clear).get key).or
    (onDisk e.disk.tables e.sstables key))) = _
  rw [hmem]

/-- The log as it stands answers as the layers do. -/
theorem visible_replayed {evs : List Event} {e : LSMEngine}
    (halong : Machine.Along LSMEngine.step Orderly (start dataDir cacheSize threshold) evs)
    (hrun : Machine.run LSMEngine.step (start dataDir cacheSize threshold) evs = some e)
    {t : Nat} (hlater : ∀ r ∈ evs.flatMap readings, r ≤ t) (key : Bytes) :
    visible t (e.replayed key) = visible t (e.lookup key) := by
  rcases lapsed_run halong hrun (E := Expired t) (fun ev hev v hv =>
    hv.mono (hlater _ (List.mem_flatMap.mpr ⟨ev, hev, now_mem_readings ev⟩))) with
    ⟨hlookup, hreplayed⟩
  -- both sides have lapsed from the plain map by values expired at `t` only
  exact (hreplayed.reading_eq (le_refl _) key).trans (hlookup.reading_eq (le_refl _) key).symm

/-- In every run whose files do not collide, the log reproduces the memtable,
and a write that is cut shows before or after itself and nothing else. -/
theorem log_reproduces {evs : List Event} {e : LSMEngine}
    (halong : Machine.Along LSMEngine.step Orderly (start dataDir cacheSize threshold) evs)
    (hrun : Machine.run LSMEngine.step (start dataDir cacheSize threshold) evs = some e) :
    Reproduces evs e := by
  have hsound := sound_run halong hrun
  refine ⟨?_, ?_⟩
  · intro c t key hc ht
    rw [answer_replayedOn hsound hc, hsound.toLayered.answer]
    exact congrArg some (visible_replayed halong hrun ht key)
  · intro ev entry e₁ n c t key hio hfits hrecord hsteps hc ht
    rcases hsound.firstSteps hio hfits hsteps with
      ⟨entry', value, cache, -, hrecord', hentry, hleaves, hwritten, rfl⟩
    rcases Option.some.inj (hrecord.symm.trans hrecord') with rfl
    rw [answer_replayedOn hsound hc, cutLog_eq hsound.logOpen hrecord]
    rw [hsound.toLayered.answer, hwritten.toLayered.answer]
    have hreads := visible_replayed halong hrun ht
    by_cases hcut : n < (WAL.encode entry).length
    · -- the cut record is not there for `recover`
      have hmissing : (WAL.encode entry).drop n ≠ [] := by
        intro hnil
        have hlen := List.drop_eq_nil_iff.mp hnil
        omega
      have hrecover := WAL.recover_encodeAll_truncated e.records_fit hentry
        (List.take_append_drop n _).symm hmissing
      rw [hsound.logWhole] at hrecover
      rw [if_pos hcut, hrecover]
      exact congrArg some (hreads key)
    · -- the whole record leaves the log that the write itself leaves
      rw [if_neg hcut, List.take_of_length_le (not_lt.mp hcut)]
      have hrecords := records_written hsound hentry value cache
      unfold records at hrecords
      have hlog : (e.written entry value cache).disk.walLog =
          e.disk.walLog ++ WAL.encode entry := rfl
      rw [hlog] at hrecords
      rw [hrecords, lookup_written, logged_concat]
      by_cases hkey : key = entry.key
      · subst hkey
        rw [hleaves, if_pos rfl]
        rfl
      · rw [WALEntry.effect_ne hkey, if_neg hkey]
        exact congrArg some (hreads key)

/-- A key that was flushed with a deadline and read after it. -/
theorem log_reproduces_expired :
    ∃ e, Machine.run LSMEngine.step (start [] 1 1)
        [⟨.set (ascii "k") (ascii "EXPIRY:5:w"), Env.calm 1⟩, ⟨.get (ascii "k"), Env.calm 6⟩] =
        some e ∧
      Reproduces [⟨.set (ascii "k") (ascii "EXPIRY:5:w"), Env.calm 1⟩,
        ⟨.get (ascii "k"), Env.calm 6⟩] e := by
  have halong := @along_orderly [] 1 1 [⟨.set (ascii "k") (ascii "EXPIRY:5:w"), Env.calm 1⟩,
    ⟨.get (ascii "k"), Env.calm 6⟩] (by decide) (by decide) (by decide +kernel)
  rcases run_isSome (by decide) halong with ⟨e, hrun⟩
  exact ⟨e, hrun, log_reproduces halong hrun⟩

/-- Two flushes at 2 leave one file; the deadline of `k` passes while it is
still cached, and behind its deletion mark stands an older value. -/
def collision : List Event :=
  [⟨.set (ascii "k") (ascii "old"), Env.calm 1⟩,
    ⟨.set (ascii "k") (ascii "EXPIRY:5:w"), Env.calm 2⟩,
    ⟨.set (ascii "j") (ascii "x"), Env.calm 2⟩, ⟨.get (ascii "k"), Env.calm 6⟩]

theorem collision_shows :
    ¬ ∀ (evs : List Event) (e : LSMEngine), (∀ ev ∈ evs, NoIoError ev) →
      (evs.flatMap readings).Pairwise (· ≤ ·) →
      Machine.run LSMEngine.step (start [] 2 1) evs = some e → Reproduces evs e := by
  intro hall
  have hfacts : (Machine.run LSMEngine.step (start [] 2 1) collision).map (fun e =>
      ((replayedOn e e.disk.walLog 1).answer (ascii "k") 6, e.answer (ascii "k") 6)) =
      some (some (some (ascii "old")), some none) := by decide +kernel
  rcases Option.map_eq_some_iff.mp hfacts with ⟨e, hrun, hpair⟩
  rcases Prod.mk.inj hpair with ⟨hreplayed, hanswer⟩
  have hsame := (hall collision e (by decide) (by decide) hrun).replay 1 6 (ascii "k")
    (by decide) (by decide)
  exact absurd (hreplayed.symm.trans (hsame.trans hanswer)) (by decide)

end VaultDB
