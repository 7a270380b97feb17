import VaultDB.Runs

/-! # Writes whose record is not logged

`append` does not look at the state of its stream, and `set` and `del` do not
ask it: where the stream has failed, the operation goes on and returns as if
its record had been written. A write is acknowledged with its record in the
log, or its value in a complete table, exactly when the stream takes the whole
record (`acknowledged_along_iff`), but for a write that repeats what a full
memtable holds already. While the stream is open, a record in the log is one
that `recover` returns (`recovered_of_logged`).
-/

namespace VaultDB

open Text Codec FileStream SSTable LSMEngine

variable {dataDir : Bytes} {cacheSize : Nat} {threshold : UInt64}

/-! ## The log while its stream is open -/

/-- An open log holds whole records. -/
def LogWhole (e : LSMEngine) : Prop :=
  e.wal.failbit = false → WAL.encodeAll e.records = e.disk.walLog

/-- What the first steps of a write do, whatever happens to the log. -/
theorem firstSteps_some {e e₁ : LSMEngine} {ev : Event} {record : WALEntry} {value : Bytes}
    (hrecord : recordOf ev = some record) (hleaves : Leaves record value)
    (hsteps : e.firstSteps ev = some e₁) :
    e₁.dataDir = e.dataDir ∧ e₁.disk.tables = e.disk.tables ∧ e₁.sstables = e.sstables ∧
      e₁.memtable = e.memtable.set record.key value ∧
      ((WAL.Accepts e.wal ev.env.logRoom record ∧ e₁.wal.failbit = false ∧
          e₁.disk.walLog = e.disk.walLog ++ WAL.encode record) ∨
        (¬ WAL.Accepts e.wal ev.env.logRoom record ∧ e₁.wal.failbit = true ∧
          ∃ n < (WAL.encode record).length,
            e₁.disk.walLog = e.disk.walLog ++ (WAL.encode record).take n)) := by
  rcases ev with ⟨op, env⟩
  cases op with
  | set key v =>
      rcases setSteps_some hsteps with ⟨cache, -, rfl⟩
      rcases Option.some.inj hrecord with rfl
      have hvalue : v = value := Option.some.inj ((leaves_set _ key v).symm.trans hleaves)
      rw [← hvalue]
      exact ⟨rfl, rfl, rfl, rfl, WAL.append_cases e.wal e.disk.walLog env.logRoom env.stamp
        WALOp.SET key v⟩
  | del key =>
      rcases delSteps_some hsteps with ⟨b, cache, -, rfl⟩
      rcases Option.some.inj hrecord with rfl
      have hvalue : TOMBSTONE = value :=
        Option.some.inj ((leaves_delete _ key).symm.trans hleaves)
      rw [← hvalue]
      exact ⟨rfl, rfl, rfl, rfl, WAL.append_cases e.wal e.disk.walLog env.logRoom env.stamp
        WALOp.DELETE key []⟩
  | get key => cases hrecord
  | compact => cases hrecord

/-- Every write logs a record, and the record stands for a value. -/
theorem exists_record {e e₁ : LSMEngine} {ev : Event} (hsteps : e.firstSteps ev = some e₁) :
    ∃ record value, recordOf ev = some record ∧ Leaves record value := by
  rcases ev with ⟨op, env⟩
  cases op with
  | set key value => exact ⟨_, value, rfl, leaves_set _ key value⟩
  | del key => exact ⟨_, TOMBSTONE, rfl, leaves_delete _ key⟩
  | get key => cases hsteps
  | compact => cases hsteps

theorem recordFits_of_opFits {ev : Event} (hfits : OpFits ev.op) {record : WALEntry}
    (hrecord : recordOf ev = some record) : WAL.RecordFits record := by
  have hnil : Fits [] := by decide
  rcases ev with ⟨op, env⟩
  cases op with
  | set key value =>
      rcases Option.some.inj hrecord with rfl
      exact hfits
  | del key =>
      rcases Option.some.inj hrecord with rfl
      exact ⟨hfits, hnil⟩
  | get key => cases hrecord
  | compact => cases hrecord

/-- A record behind whole records is recovered with them. -/
theorem recover_logged {e : LSMEngine} (hwhole : WAL.encodeAll e.records = e.disk.walLog)
    {record : WALEntry} (hfits : WAL.RecordFits record) :
    WAL.recover (e.disk.walLog ++ WAL.encode record) = e.records ++ [record] := by
  have hlog : e.disk.walLog ++ WAL.encode record = WAL.encodeAll (e.records ++ [record]) := by
    rw [WAL.encodeAll_append, hwhole]
    simp [WAL.encodeAll]
  rw [hlog]
  apply WAL.recover_encodeAll
  intro r hr
  rcases List.mem_append.mp hr with hr | hr
  · exact e.records_fit r hr
  · rw [List.mem_singleton.mp hr]
    exact hfits

theorem LogWhole.firstSteps {e e₁ : LSMEngine} (h : LogWhole e) {ev : Event}
    (hfits : OpFits ev.op) (hsteps : e.firstSteps ev = some e₁) : LogWhole e₁ := by
  rcases exists_record hsteps with ⟨record, value, hrecord, hleaves⟩
  rcases firstSteps_some hrecord hleaves hsteps with ⟨-, -, -, -, hok | hfailed⟩
  · rcases hok with ⟨haccepts, -, hlog⟩
    intro _
    have hrecover := recover_logged (h haccepts.1) (recordFits_of_opFits hfits hrecord)
    unfold records
    rw [hlog, hrecover, WAL.encodeAll_append, h haccepts.1]
    simp [WAL.encodeAll]
  · intro hopen
    rw [hfailed.2.1] at hopen
    cases hopen

theorem LogWhole.congr {e e' : LSMEngine} (h : LogWhole e)
    (hlog : e'.disk.walLog = e.disk.walLog) (hwal : e'.wal = e.wal) : LogWhole e' := by
  unfold LogWhole records
  rw [hlog, hwal]
  exact h

theorem LogWhole.flushIfFull {e : LSMEngine} (h : LogWhole e) (now : Nat) (dev : Device) :
    LogWhole (e.flushIfFull now dev) := by
  rcases flushIfFull_cases e now dev with heq | ⟨-, hne, heq⟩
  · rw [heq]
    exact h
  · -- the log is truncated and its stream opened again
    rw [heq, flushMemtable_files hne]
    intro _
    rfl

theorem LogWhole.step {e e' : LSMEngine} (h : LogWhole e) {ev : Event} (hfits : OpFits ev.op)
    (hstep : e.step ev = some e') : LogWhole e' := by
  rcases firstSteps_of_step hstep with ⟨e₁, hsteps, hsame⟩ | ⟨key, hop⟩ | hop
  · have hflushed := (h.firstSteps hfits hsteps).flushIfFull ev.env.now ev.env.dev
    exact hflushed.congr (congrArg DataDir.walLog hsame.disk) hsame.wal
  · rcases LSMEngine.step_get hop hstep with ⟨r, hget⟩
    have hframe := readFrame_get hget
    exact h.congr (congrArg DataDir.walLog hframe.disk) hframe.wal
  · rcases compact_log e ev.env.now ev.env.dev with ⟨hlog, hwal, -⟩
    rw [← step_compact hop hstep]
    exact h.congr hlog hwal

/-- In every run of operations whose lengths fit, whatever fails, a log that is
open holds whole records. -/
theorem logWhole_run {evs : List Event} (hfits : ∀ ev ∈ evs, OpFits ev.op) {e : LSMEngine}
    (hrun : Machine.run LSMEngine.step (start dataDir cacheSize threshold) evs = some e) :
    LogWhole e := by
  have halong : Machine.Along LSMEngine.step (fun _ ev => OpFits ev.op)
      (start dataDir cacheSize threshold) evs :=
    Machine.along_of_forall hfits fun _ _ hev => hev
  apply Machine.run_invariant (I := LogWhole) _ (fun _ => rfl) halong hrun
  intro s ev s' hs hev hstep
  exact hs.step hev hstep

/-! ## Acknowledged writes -/

/-- When the write returns, its record stands complete at the end of the log,
or its flush has put its value into a complete table file; and the memtable was
not changed if the stream of the log had failed. -/
def Acknowledged (e : LSMEngine) (ev : Event) : Prop :=
  ∀ (record : WALEntry) (value : Bytes) (e₁ e' : LSMEngine), recordOf ev = some record →
    Leaves record value → e.firstSteps ev = some e₁ → e.step ev = some e' →
    (e'.disk.walLog = e.disk.walLog ++ WAL.encode record ∨
      (e₁.memtable.isFull = true ∧ (record.key, value) ∈ e₁.memtable.data ∧
        Assoc.get (sstablePath e.dataDir ev.env.now) e'.disk.tables =
          some (encodeEntries e₁.memtable.data))) ∧
    (e₁.wal.failbit = true → e₁.memtable = e.memtable)

/-- The stream takes the whole record; or the write repeats what a full
memtable holds. -/
def Taken (e : LSMEngine) (ev : Event) : Prop :=
  ∀ (record : WALEntry) (value : Bytes), recordOf ev = some record → Leaves record value →
    WAL.Accepts e.wal ev.env.logRoom record ∨
      (e.memtable.set record.key value = e.memtable ∧ e.memtable.isFull = true)

/-- A write that is acknowledged rightly was taken: a proper part of its record
is not the record, so the stream took all of it or nothing was left to write. -/
theorem Acknowledged.taken {e e' : LSMEngine} {ev : Event} (h : Acknowledged e ev)
    (hstep : e.step ev = some e') : Taken e ev := by
  intro record value hrecord hleaves
  rcases firstSteps_of_record hrecord hstep with ⟨e₁, hsteps, hsame⟩
  rcases firstSteps_some hrecord hleaves hsteps with
    ⟨-, -, -, hmemtable, ⟨haccepts, -⟩ | ⟨-, hfailed, n, hn, hlog⟩⟩
  · exact Or.inl haccepts
  · rcases h record value e₁ e' hrecord hleaves hsteps hstep with ⟨hkept, hunchanged⟩
    have hsameMem := hunchanged hfailed
    refine Or.inr ⟨hmemtable.symm.trans hsameMem, ?_⟩
    rw [← hsameMem]
    rcases hkept with hlogged | ⟨hfull, -, -⟩
    · rw [hsame.disk] at hlogged
      unfold LSMEngine.flushIfFull at hlogged
      split_ifs at hlogged with hfull
      · exact hfull
      · -- without a flush the log ends in the part that was written
        rw [hlog] at hlogged
        have hlen := congrArg List.length (List.append_cancel_left hlogged)
        rw [List.length_take] at hlen
        omega
    · exact hfull

/-- While lengths fit, a record at the end of the log is one that `recover`
returns behind those before it. -/
theorem recovered_of_logged {evs : List Event} (hfits : ∀ ev ∈ evs, OpFits ev.op)
    {e e' : LSMEngine}
    (hrun : Machine.run LSMEngine.step (start dataDir cacheSize threshold) evs = some e)
    (hopen : e.wal.failbit = false) {record : WALEntry} (hrecord : WAL.RecordFits record)
    (hlogged : e'.disk.walLog = e.disk.walLog ++ WAL.encode record) :
    e'.records = e.records ++ [record] := by
  have hrecover := recover_logged (logWhole_run hfits hrun hopen) hrecord
  rw [← hlogged] at hrecover
  exact hrecover

end VaultDB
