import VaultDB.Library.Run
import VaultDB.WAL

/-! # Crashes in the middle of an append

A crash in `append` leaves a part of a record at the end of the log. `recover`
reads up to it, but the log is opened again in append mode, so the next record
stands behind the torn bytes. Over any run of crashes and appends, `recover`
goes on to return the acknowledged records exactly when the bytes behind them
stay harmless (`always_recovered_iff`); one torn byte in front of an
acknowledged record is not (`appended_behind_tear_lost`).
-/

namespace VaultDB

open Text Codec FileStream WAL

/-- The log file, and the records whose `append` has returned. -/
structure CrashLog where
  log : Bytes
  acked : List WALEntry
deriving DecidableEq

/-- A crash after `n` bytes of the record `torn`, the log being opened again
after it, or a list of records appended one after the other. -/
inductive LogEvent where
  | crash (torn : WALEntry) (n : Nat)
  | append (entries : List WALEntry)

/-- Appends the records, each at its own time, on a sound device. -/
def appendAll (wal : WAL) (log : Bytes) : List WALEntry → WAL × Bytes
  | [] => (wal, log)
  | entry :: entries =>
    let (wal, log) :=
      wal.append log none entry.timestamp.toNat entry.op entry.key entry.value
    appendAll wal log entries

namespace CrashLog

/-- An empty log. -/
def start : CrashLog := ⟨[], []⟩

/-- The bytes that stand behind the acknowledged records. -/
def leftover (s : CrashLog) : Bytes := s.log.drop (encodeAll s.acked).length

/-- Every event finds the log opened anew. -/
def step (s : CrashLog) (ev : LogEvent) : Option CrashLog :=
  match ev with
  | .crash torn n =>
    some ⟨(WAL.new.append s.log (some n) torn.timestamp.toNat torn.op torn.key torn.value).2,
      s.acked⟩
  | .append entries => some ⟨(appendAll WAL.new s.log entries).2, s.acked ++ entries⟩

/-- `recover` returns the acknowledged records. -/
def Recovered (s : CrashLog) : Prop := recover s.log = s.acked

/-- No record stands complete at the front. -/
def NoRecord (b : Bytes) : Prop := ∀ entry, RecordFits entry → ¬ encode entry <+: b

/-- The bytes behind the acknowledged records do no harm: with the torn ones
they are no record, and in front of appended records they cannot be told from
the records themselves. Without such bytes nothing is asked of what is
appended but its lengths. -/
def Harmless (s : CrashLog) : LogEvent → Prop
  | .crash torn n => NoRecord (s.leftover ++ (encode torn).take n)
  | .append entries =>
    (∀ entry ∈ entries, RecordFits entry) ∧
      ∃ r, s.leftover ++ encodeAll entries = encodeAll entries ++ r ∧ NoRecord r

theorem noRecord_iff {b : Bytes} : NoRecord b ↔ walReader.next b = none := by
  constructor
  · intro h
    cases hnext : walReader.next b with
    | none => rfl
    | some p =>
        rcases p with ⟨entry, r⟩
        rcases walReader_exact hnext with ⟨hfits, rfl⟩
        exact absurd (List.prefix_append _ r) (h entry hfits)
  · rintro hnone entry hfits ⟨r, rfl⟩
    rw [walReader_inverts entry r hfits] at hnone
    cases hnone

theorem log_appendAll {wal : WAL} (hwal : wal.failbit = false) (log : Bytes)
    (entries : List WALEntry) : (appendAll wal log entries).2 = log ++ encodeAll entries := by
  induction entries generalizing wal log with
  | nil => exact (List.append_nil log).symm
  | cons entry entries ih =>
      unfold appendAll
      rw [append_sound hwal, UInt64.ofNat_toNat]
      rw [ih rfl, List.append_assoc]
      rfl

theorem log_crash (log : Bytes) (torn : WALEntry) (n : Nat) :
    (WAL.new.append log (some n) torn.timestamp.toNat torn.op torn.key torn.value).2 =
      log ++ (encode torn).take n := by
  have hopen : WAL.new.failbit = false := rfl
  have hcut := (append_room hopen log n torn.timestamp.toNat torn.op torn.key torn.value).1
  rw [UInt64.ofNat_toNat] at hcut
  exact hcut

/-- A log that is recovered is the acknowledged records and what is left over. -/
theorem Recovered.log_eq {s : CrashLog} (h : Recovered s) :
    (∀ entry ∈ s.acked, RecordFits entry) ∧ s.log = encodeAll s.acked ++ s.leftover := by
  unfold Recovered at h
  rw [recover_eq] at h
  rcases walReader_exact.eq_append_rest s.log with ⟨hfits, hlog⟩
  rw [h] at hfits hlog
  have hrest : s.leftover = walReader.rest s.log := by
    unfold leftover
    conv_lhs => rw [hlog]
    exact List.drop_left
  exact ⟨hfits, hrest ▸ hlog⟩

/-- Bytes put behind a log that is recovered are read together with what was
left over. -/
theorem Recovered.recover_append {s : CrashLog} (h : Recovered s) (b : Bytes) :
    recover (s.log ++ b) = s.acked ++ walReader.all (s.leftover ++ b) := by
  rcases h.log_eq with ⟨hfits, hlog⟩
  rw [recover_eq, hlog, List.append_assoc]
  exact walReader_inverts.all_append hfits _

theorem recovered_step_iff {s s' : CrashLog} {ev : LogEvent} (h : Recovered s)
    (hstep : step s ev = some s') : Recovered s' ↔ Harmless s ev := by
  cases ev with
  | crash torn n =>
      have heq : s' = ⟨s.log ++ (encode torn).take n, s.acked⟩ := by
        rw [← log_crash]
        exact (Option.some.inj hstep).symm
      rw [heq]
      show recover (s.log ++ (encode torn).take n) = s.acked ↔
        NoRecord (s.leftover ++ (encode torn).take n)
      rw [h.recover_append, noRecord_iff]
      -- nothing was acknowledged, so nothing may be read behind the records
      constructor
      · intro hsame
        have hall : walReader.all (s.leftover ++ (encode torn).take n) = [] :=
          List.append_cancel_left (hsame.trans (List.append_nil _).symm)
        rcases (Reader.all_eq_iff walReader_inverts walReader_exact).mp hall with ⟨-, r, hr, hnone⟩
        rw [hr]
        exact hnone
      · intro hnone
        rw [walReader.all_of_none hnone, List.append_nil]
  | append entries =>
      have hopen : WAL.new.failbit = false := rfl
      have heq : s' = ⟨s.log ++ encodeAll entries, s.acked ++ entries⟩ := by
        rw [← log_appendAll hopen]
        exact (Option.some.inj hstep).symm
      rw [heq]
      unfold Recovered Harmless
      -- the leftover bytes and the new ones must read as the new records
      rw [h.recover_append, List.append_cancel_left_eq]
      rw [Reader.all_eq_iff walReader_inverts walReader_exact]
      simp only [noRecord_iff]
      rfl

/-- In every run of crashes and appends, `recover` returns the acknowledged
records at every moment exactly when every event is harmless. -/
theorem always_recovered_iff (evs : List LogEvent) :
    Machine.Always step Recovered start evs ↔ Machine.Along step Harmless start evs := by
  have hstart : Recovered start := by
    unfold Recovered start
    rw [recover_eq]
    exact walReader.all_of_none walReader_next_nil
  exact Machine.always_iff_along (G := fun _ => True)
    (fun s ev s' h _ hstep => recovered_step_iff h hstep) (fun _ _ => trivial) hstart

/-- A crash in the middle of a record, and records whose lengths fit. -/
def Proper : LogEvent → Prop
  | .crash torn n => RecordFits torn ∧ 0 < n ∧ n < (encode torn).length
  | .append entries => ∀ entry ∈ entries, RecordFits entry

/-- A record appended behind one torn byte is not recovered. -/
theorem appended_behind_tear_lost :
    ¬ ∀ evs : List LogEvent, (∀ ev ∈ evs, Proper ev) →
      Machine.Always step Recovered start evs := by
  intro hall
  let entry : WALEntry := ⟨1, WALOp.SET, ascii "k", ascii "v"⟩
  have hproper : ∀ ev ∈ [LogEvent.crash entry 1, LogEvent.append [entry]], Proper ev := by
    intro ev hev
    rcases List.mem_cons.mp hev with rfl | hev
    · exact ⟨by decide, by decide, by decide⟩
    · rw [List.mem_singleton.mp hev]
      intro e he
      rw [List.mem_singleton.mp he]
      decide
  have halways := hall _ hproper
  have hrun : (Machine.run step start [LogEvent.crash entry 1, LogEvent.append [entry]]).map
      (fun s => decide (recover s.log = s.acked)) = some false := by decide +kernel
  rcases Option.map_eq_some_iff.mp hrun with ⟨s, hs, hlost⟩
  exact of_decide_eq_false hlost (Machine.always_iff.mp halways _ List.prefix_rfl s hs)

end CrashLog

end VaultDB
