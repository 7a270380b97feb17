import VaultDB.CompactCrash
import VaultDB.FlushCrash
import VaultDB.Sections
import VaultDB.TornLog

/-! # Kills

The process is killed at any statement of an operation, or after some bytes of
what the statement writes. `Stage` says what each statement finds on disk. The
directory that is left can be loaded, and reads as before the operation or as
after it, by whether the record of the operation is whole (`killed`), unless the
kill cuts the value of a key that the log does not hold, in a table file that is
being written.
-/

namespace VaultDB

open Text Codec FileStream SSTable Expiring LSMEngine

/-! ## What is left on disk -/

/-- The directory when the process is killed at a statement: before it, or when
`n` bytes of the file it writes have reached the disk. -/
def cutAt (e : LSMEngine) (pc : Statement) (upTo : Option Nat) : DataDir :=
  match pc, upTo with
  | .setLog key value env, some n =>
    ⟨(e.wal.append e.disk.walLog (some n) env.stamp WALOp.SET key value).2, e.disk.tables⟩
  | .delLog key env, some n =>
    ⟨(e.wal.append e.disk.walLog (some n) env.stamp WALOp.DELETE key []).2, e.disk.tables⟩
  | .writeTable env _, some n =>
    ⟨e.disk.walLog, ((SSTable.new e.disk.tables (sstablePath e.dataDir env.now)).flush
      (Device.full n) e.disk.tables e.memtable.getSortedEntries).2⟩
  | .writeMerged older newer env, some n =>
    ⟨e.disk.walLog, (SSTable.compact older newer (Device.full n) e.disk.tables
      (compactedPath e.dataDir env.now)).2⟩
  | _, _ => e.disk

/-- After `n` bytes of the file of these entries a value is incomplete, and its
key is not in the log. -/
def CutsValue (e : LSMEngine) (entries : List Entry) (n : Nat) : Prop :=
  ∃ pre key value post, entries = pre ++ (key, value) :: post ∧ logged e.records key = none ∧
    (encodeEntries pre).length + headLength (key, value) ≤ n ∧
    n < (encodeEntries pre).length + headLength (key, value) + value.length

theorem cutsValue_iff {e : LSMEngine} {entries : List Entry} {n : Nat} :
    CutsValue e entries n ↔ ∃ i : Fin entries.length, logged e.records entries[i].1 = none ∧
      (encodeEntries (entries.take i)).length + headLength entries[i] ≤ n ∧
      n < (encodeEntries (entries.take i)).length + headLength entries[i] +
        entries[i].2.length := by
  constructor
  · rintro ⟨pre, key, value, post, rfl, hlog, hhead, hcut⟩
    exact ⟨⟨pre.length, by simp⟩, by simpa using hlog, by simpa using hhead, by simpa using hcut⟩
  · rintro ⟨i, hlog, hhead, hcut⟩
    refine ⟨entries.take i, entries[i].1, entries[i].2, entries.drop (i + 1), ?_, hlog, hhead,
      hcut⟩
    exact (List.take_append_drop i entries).symm.trans
      (congrArg (entries.take i ++ ·) (List.drop_eq_getElem_cons i.isLt))

instance (e : LSMEngine) (entries : List Entry) (n : Nat) : Decidable (CutsValue e entries n) :=
  decidable_of_iff _ cutsValue_iff.symm

/-- No value of an unlogged key is cut. -/
def Uncut (e : LSMEngine) (pc : Statement) (upTo : Option Nat) : Prop :=
  match pc, upTo with
  | .writeTable _ _, some n => ¬ CutsValue e e.memtable.getSortedEntries n
  | .writeMerged older newer _, some n =>
    ¬ CutsValue e (mergeEntries (older.readAll e.disk.tables) (newer.readAll e.disk.tables)) n
  | _, _ => True

instance (e : LSMEngine) (pc : Statement) (upTo : Option Nat) : Decidable (Uncut e pc upTo) := by
  cases upTo <;> cases pc <;>
    first
    | exact isTrue trivial
    | exact inferInstanceAs (Decidable (¬ CutsValue _ _ _))

/-- The record of the write is whole when the process is killed at the
statement, `upTo` bytes of what it writes having reached the disk. -/
def recorded (pc : Statement) (upTo : Option Nat) : Bool :=
  match pc, upTo with
  | .setLog key value env, some n =>
    (WAL.encode ⟨UInt64.ofNat env.stamp, WALOp.SET, key, value⟩).length ≤ n
  | .delLog key env, some n =>
    (WAL.encode ⟨UInt64.ofNat env.stamp, WALOp.DELETE, key, []⟩).length ≤ n
  | .setMemtable _ _ _, _ | .setCache _ _ _, _ | .delMemtable _ _, _ | .delCache _ _, _
  | .checkFull _ _, _ | .writeTable _ _, _ | .pushTable _ _, _ | .clearMemtable _, _
  | .checkpoint _, _ | .countWrite, _ => true
  | _, _ => false

/-- A part of a record is left at the end of the log. -/
def tears (pc : Statement) (upTo : Option Nat) : Bool :=
  match pc, upTo with
  | .setLog _ _ _, some n | .delLog _ _, some n => 0 < n && !recorded pc (some n)
  | _, _ => false

/-- Four statements write a file. -/
theorem cutAt_cases (e : LSMEngine) (pc : Statement) (upTo : Option Nat) :
    (cutAt e pc upTo = e.disk ∧ recorded pc upTo = recorded pc none ∧ tears pc upTo = false) ∨
      ∃ n, upTo = some n ∧
        ((∃ key value env, pc = .setLog key value env) ∨ (∃ key env, pc = .delLog key env) ∨
          (∃ env counts, pc = .writeTable env counts) ∨
          ∃ older newer env, pc = .writeMerged older newer env) := by
  cases upTo with
  | none => exact Or.inl (by cases pc <;> exact ⟨rfl, rfl, rfl⟩)
  | some n =>
      cases pc with
      | setLog key value env => exact Or.inr ⟨n, rfl, Or.inl ⟨key, value, env, rfl⟩⟩
      | delLog key env => exact Or.inr ⟨n, rfl, Or.inr (Or.inl ⟨key, env, rfl⟩)⟩
      | writeTable env counts =>
          exact Or.inr ⟨n, rfl, Or.inr (Or.inr (Or.inl ⟨env, counts, rfl⟩))⟩
      | writeMerged older newer env =>
          exact Or.inr ⟨n, rfl, Or.inr (Or.inr (Or.inr ⟨older, newer, env, rfl⟩))⟩
      | _ => exact Or.inl ⟨rfl, rfl, rfl⟩

/-! ## Where a section stands -/

/-- The first steps of a write are done, and the engine is `e₁`. -/
def Written (before : LSMEngine) (request : Request) (env : Env) (e₁ : LSMEngine) : Prop :=
  ∃ op, request = .op op ∧ before.firstSteps ⟨op, env⟩ = some e₁

/-- The two oldest tables of more than four. -/
def Oldest (before : LSMEngine) (older newer : SSTable) : Prop :=
  4 < before.sstables.length ∧ ∃ staying, before.sstables = older :: newer :: staying

/-- The directory with the merge of the two tables written out. -/
def mergedTables (before : LSMEngine) (older newer : SSTable) (env : Env) : Files :=
  (SSTable.compact older newer env.dev before.disk.tables
    (compactedPath before.dataDir env.now)).2

/-- A section that began in the state `before` is at the statement, the engine
being `e`. -/
def Stage (before : LSMEngine) (request : Request) (env : Env) (e : LSMEngine) :
    Statement → Prop
  | .setLog key value env' => request = .op (.set key value) ∧ env' = env ∧ e = before
  | .setMemtable key value env' =>
    request = .op (.set key value) ∧ env' = env ∧
      e = { before with
        disk := ⟨(before.wal.append before.disk.walLog env.logRoom env.stamp WALOp.SET key
          value).2, before.disk.tables⟩
        wal := (before.wal.append before.disk.walLog env.logRoom env.stamp WALOp.SET key value).1 }
  | .setCache key value env' =>
    request = .op (.set key value) ∧ env' = env ∧
      e = { before with
        disk := ⟨(before.wal.append before.disk.walLog env.logRoom env.stamp WALOp.SET key
          value).2, before.disk.tables⟩
        wal := (before.wal.append before.disk.walLog env.logRoom env.stamp WALOp.SET key value).1
        memtable := before.memtable.set key value }
  | .delLog key env' => request = .op (.del key) ∧ env' = env ∧ e = before
  | .delMemtable key env' =>
    request = .op (.del key) ∧ env' = env ∧
      e = { before with
        disk := ⟨(before.wal.append before.disk.walLog env.logRoom env.stamp WALOp.DELETE key
          []).2, before.disk.tables⟩
        wal := (before.wal.append before.disk.walLog env.logRoom env.stamp WALOp.DELETE key []).1 }
  | .delCache key env' =>
    request = .op (.del key) ∧ env' = env ∧
      e = { before with
        disk := ⟨(before.wal.append before.disk.walLog env.logRoom env.stamp WALOp.DELETE key
          []).2, before.disk.tables⟩
        wal := (before.wal.append before.disk.walLog env.logRoom env.stamp WALOp.DELETE key []).1
        memtable := before.memtable.del key }
  | .checkFull env' _ => env' = env ∧ Written before request env e
  | .writeTable env' _ =>
    env' = env ∧ Written before request env e ∧ e.memtable.isFull = true
  | .pushTable _ _ | .clearMemtable _ | .checkpoint _ =>
    ∃ e₁, Written before request env e₁ ∧ e₁.memtable.isFull = true ∧
      e.disk = ⟨e₁.disk.walLog, putFile env.dev (sstablePath e₁.dataDir env.now)
        (encodeEntries e₁.memtable.data) e₁.disk.tables⟩
  | .countWrite =>
    ∃ e₁, Written before request env e₁ ∧ e.disk = (e₁.flushIfFull env.now env.dev).disk
  | .checkTables env' => request = .op .compact ∧ env' = env ∧ e = before
  | .writeMerged older newer env' =>
    request = .op .compact ∧ env' = env ∧ e = before ∧ Oldest before older newer
  | .removeOlder older newer _ =>
    request = .op .compact ∧ Oldest before older newer ∧
      e.disk = ⟨before.disk.walLog, mergedTables before older newer env⟩
  | .removeNewer newer _ =>
    request = .op .compact ∧ ∃ older, Oldest before older newer ∧
      e.disk = ⟨before.disk.walLog,
        Assoc.erase older.path (mergedTables before older newer env)⟩
  | .replaceTables _ =>
    request = .op .compact ∧ ∃ older newer, Oldest before older newer ∧
      e.disk = ⟨before.disk.walLog, Assoc.erase newer.path
        (Assoc.erase older.path (mergedTables before older newer env))⟩
  -- a read leaves the disk alone
  | _ => e.disk = before.disk

variable {before e e' : LSMEngine} {request : Request} {env : Env} {pc pc' : Statement}

/-- A full memtable is written out and the log is emptied. -/
theorem Written.flushed {e₁ : LSMEngine} (h : Written before request env e₁)
    (hfull : e₁.memtable.isFull = true) :
    (e₁.flushIfFull env.now env.dev).disk = ⟨[], putFile env.dev
      (sstablePath e₁.dataDir env.now) (encodeEntries e₁.memtable.data) e₁.disk.tables⟩ := by
  rcases h with ⟨op, -, hsteps⟩
  have hne := (firstSteps_tables hsteps).2.2.2.2.2
  unfold flushIfFull
  rw [if_pos hfull, flushMemtable_files hne]

theorem stage_afterFlush {counts : Bool} {b : LSMEngine}
    (hrun : some (b, Statement.afterFlush counts) = some (e', .inl pc'))
    (hdisk : ∃ e₁, Written before request env e₁ ∧
      b.disk = (e₁.flushIfFull env.now env.dev).disk) : Stage before request env e' pc' := by
  cases counts with
  | false => cases hrun
  | true =>
      cases hrun
      exact hdisk

theorem stage_afterHit {key value : Bytes} {now : Nat} {b : LSMEngine}
    (hrun : some (b, Statement.afterHit key value now) = some (e', .inl pc'))
    (hdisk : b.disk = before.disk) : Stage before request env e' pc' := by
  unfold Statement.afterHit at hrun
  split at hrun
  · cases hrun
  · cases hrun
    exact hdisk

theorem Stage.next_write (h : Stage before request env e pc)
    (hrun : pc.run e = some (e', .inl pc')) (hpc : ∃ counts,
      pc = .checkFull env counts ∨ pc = .writeTable env counts) :
    Stage before request env e' pc' := by
  rcases hpc with ⟨counts, rfl | rfl⟩
  · have hlast : some (e, Statement.afterFlush counts) = some (e', .inl pc') →
        e.flushIfFull env.now env.dev = e → Stage before request env e' pc' := by
      intro hsome hsame
      exact stage_afterFlush hsome ⟨e, h.2, by rw [hsame]⟩
    by_cases hfull : e.memtable.isFull = true
    · by_cases hempty : e.memtable.getSortedEntries.isEmpty = true
      · simp only [Statement.run, if_pos hfull, if_pos hempty] at hrun
        apply hlast hrun
        unfold flushIfFull
        rw [if_pos hfull]
        exact flushMemtable_nil (List.isEmpty_iff.mp hempty) _ _
      · simp only [Statement.run, if_pos hfull, if_neg hempty] at hrun
        cases hrun
        exact ⟨rfl, h.2, hfull⟩
    · simp only [Statement.run, if_neg hfull] at hrun
      apply hlast hrun
      unfold flushIfFull
      rw [if_neg hfull]
  · simp only [Statement.run, flush_new] at hrun
    cases hrun
    exact ⟨e, h.2.1, h.2.2, rfl⟩

/-- One case for each statement. -/
theorem Stage.next (h : Stage before request env e pc) (hrun : pc.run e = some (e', .inl pc')) :
    Stage before request env e' pc' := by
  cases pc with
  | setLog key value env' =>
      rcases h with ⟨hreq, rfl, rfl⟩
      cases hrun
      exact ⟨hreq, rfl, rfl⟩
  | setMemtable key value env' =>
      rcases h with ⟨hreq, rfl, rfl⟩
      cases hrun
      exact ⟨hreq, rfl, rfl⟩
  | setCache key value env' =>
      rcases h with ⟨hreq, rfl, rfl⟩
      simp only [Statement.run, bind, Option.bind_eq_some_iff, pure, Option.some.injEq,
        Prod.mk.injEq, Sum.inl.injEq] at hrun
      rcases hrun with ⟨cache, hput, rfl, rfl⟩
      refine ⟨rfl, _, hreq, ?_⟩
      have hput' : before.cache.put key value = some cache := hput
      unfold firstSteps setSteps
      simp only [hput']
      rfl
  | delLog key env' =>
      rcases h with ⟨hreq, rfl, rfl⟩
      cases hrun
      exact ⟨hreq, rfl, rfl⟩
  | delMemtable key env' =>
      rcases h with ⟨hreq, rfl, rfl⟩
      cases hrun
      exact ⟨hreq, rfl, rfl⟩
  | delCache key env' =>
      rcases h with ⟨hreq, rfl, rfl⟩
      simp only [Statement.run, bind, Option.bind_eq_some_iff, pure, Option.some.injEq,
        Prod.mk.injEq, Sum.inl.injEq, Prod.exists] at hrun
      rcases hrun with ⟨removed, cache, hremove, rfl, rfl⟩
      refine ⟨rfl, _, hreq, ?_⟩
      have hremove' : before.cache.remove key = some (removed, cache) := hremove
      unfold firstSteps delSteps
      simp only [hremove']
      rfl
  | checkFull env' counts =>
      have henv := h.1
      subst henv
      exact h.next_write hrun ⟨counts, Or.inl rfl⟩
  | writeTable env' counts =>
      have henv := h.1
      subst henv
      exact h.next_write hrun ⟨counts, Or.inr rfl⟩
  | pushTable sstable counts =>
      cases hrun
      exact h
  | clearMemtable counts =>
      cases hrun
      exact h
  | checkpoint counts =>
      rcases h with ⟨e₁, hwritten, hfull, hdisk⟩
      refine stage_afterFlush (b := _) hrun ⟨e₁, hwritten, ?_⟩
      rw [hwritten.flushed hfull]
      show (⟨[], e.disk.tables⟩ : DataDir) = _
      rw [hdisk]
  | countWrite => cases hrun
  | countRead key now =>
      cases hrun
      exact h
  | readCache key now =>
      simp only [Statement.run, bind, Option.bind_eq_some_iff, Prod.exists] at hrun
      rcases hrun with ⟨cached, cache, -, hrun⟩
      cases cached with
      | none =>
          cases hrun
          exact h
      | some value =>
          simp only [pure, Option.some.injEq, Prod.mk.injEq] at hrun
          rcases hrun with ⟨rfl, hnext⟩
          split at hnext
          · cases hnext
          · cases hnext
            exact h
  | readMemtable key now =>
      simp only [Statement.run] at hrun
      split at hrun
      · exact stage_afterHit hrun h
      · cases hrun
        exact h
  | readTables older key now =>
      cases older with
      | nil => cases hrun
      | cons table older =>
          simp only [Statement.run] at hrun
          split at hrun
          · cases hrun
            exact h
          · split at hrun
            · exact stage_afterHit hrun h
            · cases hrun
              exact h
  | fillCache key value now =>
      simp only [Statement.run, bind, Option.bind_eq_some_iff, pure, Option.some.injEq,
        Prod.mk.injEq, Sum.inl.injEq] at hrun
      rcases hrun with ⟨cache, -, rfl, rfl⟩
      exact h
  | checkTtl key value now =>
      simp only [Statement.run] at hrun
      split at hrun
      · cases hrun
      · split at hrun
        · cases hrun
          exact h
        · cases hrun
  | expireMemtable key =>
      cases hrun
      exact h
  | expireCache key =>
      simp only [Statement.run, bind, Option.bind_eq_some_iff, pure, Option.some.injEq,
        Prod.mk.injEq, Prod.exists] at hrun
      rcases hrun with ⟨removed, cache, -, -, hnext⟩
      cases hnext
  | checkTables env' =>
      rcases h with ⟨hreq, rfl, rfl⟩
      simp only [Statement.run] at hrun
      split at hrun
      · cases hrun
      · rename_i hfew
        split at hrun
        · rename_i older newer staying hsplit
          cases hrun
          exact ⟨hreq, rfl, rfl, Nat.lt_of_not_le hfew, staying, hsplit⟩
        · cases hrun
  | writeMerged older newer env' =>
      rcases h with ⟨hreq, rfl, rfl, holdest⟩
      cases hrun
      exact ⟨hreq, holdest, rfl⟩
  | removeOlder older newer merged =>
      rcases h with ⟨hreq, holdest, hdisk⟩
      cases hrun
      refine ⟨hreq, older, holdest, ?_⟩
      show (⟨e.disk.walLog, Assoc.erase older.path e.disk.tables⟩ : DataDir) = _
      rw [hdisk]
  | removeNewer newer merged =>
      rcases h with ⟨hreq, older, holdest, hdisk⟩
      cases hrun
      refine ⟨hreq, older, newer, holdest, ?_⟩
      show (⟨e.disk.walLog, Assoc.erase newer.path e.disk.tables⟩ : DataDir) = _
      rw [hdisk]
  | replaceTables merged => cases hrun
  | readStats => cases hrun

theorem stage_enter (before : LSMEngine) (request : Request) (env : Env) :
    Stage before request env before (sections.enter request env) := by
  cases request with
  | getStats => rfl
  | op op =>
      cases op with
      | set key value => exact ⟨rfl, rfl, rfl⟩
      | get key => rfl
      | del key => exact ⟨rfl, rfl, rfl⟩
      | compact => exact ⟨rfl, rfl, rfl⟩

theorem stage_reaches
    (hreaches : sections.Reaches (before, sections.enter request env) (e, pc)) :
    Stage before request env e pc := by
  refine Lock.Code.Reaches.kept (I := Stage before request env) ?_ hreaches
    (stage_enter before request env)
  intro a b hnext h
  exact h.next hnext

/-! ## What is read of torn files -/

/-- A record that is cut is no record. -/
theorem restored_torn (h : Sound e) {entry : WALEntry} (hentry : WAL.RecordFits entry) {n : Nat}
    (hcut : n < (WAL.encode entry).length) (key : Bytes) :
    restored ⟨e.disk.walLog ++ (WAL.encode entry).take n, e.disk.tables⟩ key =
      restored e.disk key := by
  have hnone : WAL.walReader.next ((WAL.encode entry).take n) = none := by
    apply Reader.next_of_truncated WAL.walReader_inverts WAL.walReader_exact hentry
      (List.take_append_drop n _).symm
    intro hnil
    have hlen := List.drop_eq_nil_iff.mp hnil
    omega
  have hrecover : WAL.recover (e.disk.walLog ++ (WAL.encode entry).take n) =
      WAL.recover e.disk.walLog := by
    rw [← h.logWhole, WAL.recover_encodeAll e.records_fit, WAL.recover_eq]
    refine (WAL.walReader_inverts.all_append e.records_fit _).trans ?_
    rw [WAL.walReader.all_of_none hnone, List.append_nil]
  unfold restored
  rw [hrecover]

/-- What is complete of a file of current entries is current, and the last
value is complete if it is not cut. -/
theorem current_torn {t n : Nat} {entries : List Entry}
    (hfits : ∀ entry ∈ entries, EntryFits entry) (hsorted : Assoc.Sorted entries)
    (h : Current t e entries) (hclean : ¬ CutsValue e entries n) :
    Current t e (torn entries n) := by
  intro key value hlog hget
  rcases (mem_torn_iff hfits).mp (Assoc.mem_of_get hget) with
    ⟨pre, whole, post, hsplit, hhead, rfl⟩
  have hwhole : Assoc.get key entries = some whole := by
    apply Assoc.get_of_mem hsorted.nodup_keys
    rw [hsplit]
    exact List.mem_append_right _ List.mem_cons_self
  by_cases hcut : n < (encodeEntries pre).length + headLength (key, whole) + whole.length
  · exact absurd ⟨pre, key, whole, post, hsplit, hlog, hhead, hcut⟩ hclean
  · rw [cutValue_of_le (by omega)]
    exact h key whole hlog hwhole

/-- At the end of the file no value is cut. -/
theorem not_cutsValue_of_length {entries : List Entry}
    (hfits : ∀ entry ∈ entries, EntryFits entry) {n : Nat}
    (hn : (encodeEntries entries).length ≤ n) : ¬ CutsValue e entries n := by
  rintro ⟨pre, key, value, post, hsplit, -, -, hcut⟩
  have hentry := length_encodeEntry (hfits (key, value) (by rw [hsplit]; simp))
  have hlen : (encodeEntries entries).length = (encodeEntries pre).length +
      ((encodeEntry (key, value)).length + (encodeEntries post).length) := by
    rw [hsplit]
    unfold encodeEntries
    rw [List.flatMap_append, List.flatMap_cons, List.length_append, List.length_append]
  have hvalue : ((key, value) : Entry).2.length = value.length := rfl
  omega

/-! ## What the next start finds -/

/-- A directory that a start can load and that is faithful, with files named by
readings in `used`. The log is whole unless it is `torn`. -/
structure Left (dataDir : Bytes) (used : List Nat) (P : PlainMap) (t : Nat) (torn : Bool)
    (disk : DataDir) : Prop where
  loadable : Loadable disk.tables
  names : NamedFiles dataDir used disk.tables
  faithful : Faithful t P disk
  whole : torn = false → WAL.encodeAll (WAL.recover disk.walLog) = disk.walLog

variable {dataDir : Bytes} {used : List Nat} {P : PlainMap} {t : Nat}

theorem Left.mono {torn : Bool} {disk : DataDir} (h : Left dataDir used P t torn disk)
    {used' : List Nat} (hsub : used ⊆ used') : Left dataDir used' P t torn disk :=
  ⟨h.loadable, h.names.mono hsub, h.faithful, h.whole⟩

/-- What is asked of an operation, and of a time from which on it is looked at. -/
structure Allowed (used : List Nat) (t : Nat) (before : LSMEngine) (ev : Event) : Prop where
  io : NoIoError ev
  fits : OpFits ev.op
  grow : ∀ after, before.step ev = some after → GrowingNames (used ++ nameReadings before ev)
  now : ev.env.now < t
  current : ev.op = .compact → 4 < before.sstables.length →
    Current t before (outputEntries before .compact)

namespace Midway

theorem left (h : Midway dataDir used P t e) : Left dataDir used P t false e.disk :=
  ⟨h.sound.loadable h.named, h.named.of_file h.sound.stored, h.faithful,
    fun _ => h.sound.logWhole⟩

/-- The first steps of a write, which leave its record and its value. -/
theorem firstSteps (h : Midway dataDir used P t before) {ev : Event} (hio : NoIoError ev)
    (hfits : OpFits ev.op) (hsteps : before.firstSteps ev = some e) :
    Midway dataDir used (P.apply ev.op) t e := by
  rcases h.sound.firstSteps hio hfits hsteps with
    ⟨entry, value, cache, hop, -, hentry, hleaves, hwritten, rfl⟩
  rw [apply_written hop]
  exact ⟨hwritten, ⟨h.named.dir, h.named.named⟩, reads_written h.reads entry value cache,
    faithful_written h.sound h.faithful hentry hleaves cache⟩

/-- One step, from one state that answers as a plain map to the next. -/
theorem step (h : Midway dataDir used P t before) {ev : Event}
    (hallowed : Allowed used t before ev) (hstep : before.step ev = some e') :
    Midway dataDir (used ++ nameReadings before ev) (P.apply ev.op) t e' := by
  rcases hallowed with ⟨hio, hfits, hnames, hnow, hcurrent⟩
  have hgrow := hnames e' hstep
  have hfresh : Fresh before ev := by
    apply h.named.fresh
    intro ms hms hused
    exact absurd rfl (ne_of_lt ((List.pairwise_append.mp hgrow.lt).2.2 ms hused ms hms))
  refine ⟨h.sound.step hio hfits hfresh hstep, h.named.step hstep, ?_,
    (h.sound.faithful_step_iff hio hfits hstep h.named hgrow h.reads h.faithful).mpr hcurrent⟩
  intro key
  cases h.sound.step_cases hio hfits hstep with
  | write entry value cache hop hentry hleaves hwritten hsame =>
      have hflushed := (hwritten.flushIfFull (fresh_written hop hfresh)).2.1
      rw [apply_written hop, lookup_congr hsame.disk hsame.memtable hsame.sstables, hflushed]
      exact reads_written h.reads entry value cache key
  | read k hop hlayered heffect =>
      -- what the read lets lapse is expired at `t`
      have hlapsed := heffect.lapsed (E := Expired t) (fun v hv => hv.mono (Nat.le_of_lt hnow))
        (Lapsed.refl before.lookup)
      rw [hop]
      exact (hlapsed.reading_eq (le_refl _) key).trans (h.reads key)
  | compact hop heq =>
      rw [hop, heq, (h.sound.toLayered.compact (fresh_compact hop hfresh)).2.1]
      exact h.reads key

/-- A record counts from its last byte on. -/
theorem logged (h : Midway dataDir used P t before) {ev : Event} {record : WALEntry}
    {value : Bytes} (hrecord : WAL.RecordFits record) (hleaves : Leaves record value)
    (hop : ev.op = .set record.key value ∨ (ev.op = .del record.key ∧ value = TOMBSTONE))
    (n : Nat) :
    Left dataDir used (if (WAL.encode record).length ≤ n then P.apply ev.op else P) t
      (0 < n && !decide ((WAL.encode record).length ≤ n))
      ⟨before.disk.walLog ++ (WAL.encode record).take n, before.disk.tables⟩ := by
  by_cases hwhole : (WAL.encode record).length ≤ n
  · have hnone : (0 < n && !decide ((WAL.encode record).length ≤ n)) = false := by
      rw [decide_eq_true hwhole]
      exact Bool.and_false _
    have hrecords := records_written h.sound hrecord value before.cache
    rw [if_pos hwhole, hnone, List.take_of_length_le hwhole, apply_written hop]
    refine ⟨h.left.loadable, h.left.names,
      faithful_written h.sound h.faithful hrecord hleaves before.cache, fun _ => ?_⟩
    have hlog : WAL.recover (before.disk.walLog ++ WAL.encode record) =
        before.records ++ [record] := hrecords
    show WAL.encodeAll (WAL.recover (before.disk.walLog ++ WAL.encode record)) =
      before.disk.walLog ++ WAL.encode record
    rw [hlog, WAL.encodeAll_append, h.sound.logWhole]
    simp [WAL.encodeAll]
  · rw [if_neg hwhole]
    refine ⟨h.left.loadable, h.left.names, ?_, ?_⟩
    · intro key
      rw [restored_torn h.sound hrecord (Nat.lt_of_not_le hwhole)]
      exact h.faithful key
    · intro hnone
      have hzero : n = 0 := by simpa [hwhole] using hnone
      rw [hzero, List.take_zero, List.append_nil]
      exact h.sound.logWhole

/-- A table file that is being written shows what the log does. -/
theorem flushing (h : Midway dataDir used P t e) {now : Nat}
    (hgrow : GrowingNames (used ++ [now])) {n : Nat} (hclean : ¬ CutsUnlogged e n) :
    Left dataDir (used ++ [now]) P t false (flushCrash e now (.writing n)) := by
  rcases loadable_flushCrash h hgrow (.writing n) with ⟨hload, hnames⟩
  refine ⟨hload, hnames, (faithful_flushCrash_iff h hgrow (.writing n)).mpr ?_, fun _ => ?_⟩
  · intro m hm
    rw [← FlushPoint.writing.inj hm]
    exact hclean
  · rw [flushCrash_writing]
    exact h.sound.logWhole

/-- At every point of a compaction the directory reads as before it. -/
theorem compacting (h : Midway dataDir used P t before) {now : Nat}
    (hgrow : GrowingNames (used ++ [now])) (hmany : 4 < before.sstables.length)
    (hcurrent : Current t before (outputEntries before .compact)) (point : CompactPoint)
    (hclean : ∀ n, point = .writing n → ¬ CutsValue before (outputEntries before .compact) n) :
    Left dataDir (used ++ [now]) P t false (compactCrash before now point) := by
  rcases restored_compactCrash h.sound h.named hgrow hmany point with ⟨hload, hnames, hrestored⟩
  rcases exists_two_oldest hmany with ⟨older, newer, staying, hsplit⟩
  rcases all_outputEntries h.sound hsplit with ⟨hfits, hsorted, -⟩
  refine ⟨hload, hnames, (faithful_overlay_iff hrestored h.faithful).mpr ?_, fun _ => ?_⟩
  · -- what is written of the merge is as current as the whole
    intro key value hlog hvalue
    rw [← h.reads key]
    cases point with
    | before => cases hvalue
    | writing n =>
        exact current_torn hfits hsorted hcurrent (hclean n rfl) key value hlog hvalue
    | olderRemoved => exact hcurrent key value hlog hvalue
    | newerRemoved => exact hcurrent key value hlog hvalue
  · have hlog : (compactCrash before now point).walLog = before.disk.walLog := by
      unfold compactCrash
      rw [hsplit]
      cases point <;> rfl
    rw [hlog]
    exact h.sound.logWhole

variable {op : Op} {pc : Statement} {upTo : Option Nat}

/-- A record that is being written. -/
theorem logging (h : Midway dataDir used P t before) (hfits : OpFits op) {record : WALEntry}
    {value : Bytes} (hrecord : recordOf ⟨op, env⟩ = some record) (hleaves : Leaves record value)
    (hop : op = .set record.key value ∨ (op = .del record.key ∧ value = TOMBSTONE)) (n : Nat) :
    Left dataDir used (if (WAL.encode record).length ≤ n then P.apply op else P) t
      (0 < n && !decide ((WAL.encode record).length ≤ n))
      ⟨(before.wal.append before.disk.walLog (some n) env.stamp record.op record.key
        record.value).2, before.disk.tables⟩ := by
  have hentry : WAL.RecordFits record := by
    rcases hop with rfl | ⟨rfl, rfl⟩
    · rw [← Option.some.inj hrecord]
      exact hfits
    · have hnil : Fits [] := by decide
      rw [← Option.some.inj hrecord]
      exact ⟨hfits, hnil⟩
  have hstamp : (⟨UInt64.ofNat env.stamp, record.op, record.key, record.value⟩ : WALEntry) =
      record := by
    rcases hop with rfl | ⟨rfl, rfl⟩
    · rw [← Option.some.inj hrecord]
    · rw [← Option.some.inj hrecord]
  rw [(WAL.append_room h.sound.logOpen _ _ _ _ _ _).1, hstamp]
  have hevent : (⟨op, env⟩ : Event).op = .set record.key value ∨
      ((⟨op, env⟩ : Event).op = .del record.key ∧ value = TOMBSTONE) := hop
  exact h.logged hentry hleaves hevent n

/-- With all of its bytes the record is what the device takes. -/
theorem appended (h : Midway dataDir used P t before) (hroom : env.logRoom = none)
    (hfits : OpFits op) {record : WALEntry} {value : Bytes}
    (hrecord : recordOf ⟨op, env⟩ = some record) (hleaves : Leaves record value)
    (hop : op = .set record.key value ∨ (op = .del record.key ∧ value = TOMBSTONE)) :
    Left dataDir used (P.apply op) t false
      ⟨(before.wal.append before.disk.walLog env.logRoom env.stamp record.op record.key
        record.value).2, before.disk.tables⟩ := by
  have hstamp : (⟨UInt64.ofNat env.stamp, record.op, record.key, record.value⟩ : WALEntry) =
      record := by
    rcases hop with rfl | ⟨rfl, rfl⟩
    · rw [← Option.some.inj hrecord]
    · rw [← Option.some.inj hrecord]
  have hlogging := h.logging hfits hrecord hleaves hop (WAL.encode record).length
  rw [(WAL.append_room h.sound.logOpen _ _ _ _ _ _).1, hstamp, List.take_length,
    if_pos (le_refl _), decide_eq_true (le_refl _), Bool.not_true, Bool.and_false] at hlogging
  rw [hroom, WAL.append_sound h.sound.logOpen, hstamp]
  exact hlogging

/-- The whole table is written and the log still there. -/
theorem flushed (h : Midway dataDir used P t before) (hallowed : Allowed used t before ⟨op, env⟩)
    {e₁ : LSMEngine} (hsteps : before.firstSteps ⟨op, env⟩ = some e₁)
    (hfull : e₁.memtable.isFull = true) :
    Left dataDir (used ++ nameReadings before ⟨op, env⟩) (P.apply op) t false
      ⟨e₁.disk.walLog, putFile env.dev (sstablePath e₁.dataDir env.now)
        (encodeEntries e₁.memtable.data) e₁.disk.tables⟩ := by
  rcases hallowed with ⟨hio, hfits, hnames, -, -⟩
  rcases step_of_firstSteps hsteps with ⟨e', hstep, -⟩
  have hgrow := hnames e' hstep
  have hwrites := (writesTable_of_firstSteps hsteps).1.trans hfull
  have hmid := h.firstSteps hio hfits hsteps
  rw [nameReadings_of_writes hwrites] at hgrow ⊢
  have hflushing := hmid.flushing hgrow
    (not_cutsValue_of_length hmid.sound.ordered.fits (le_refl _))
  rw [flushCrash_writing, List.take_length] at hflushing
  have hdev : env.dev = Device.sound := hio.2
  rw [hdev, putFile_sound]
  exact hflushing

/-- The three moments of a compaction behind its file. -/
theorem merged (h : Midway dataDir used P t before)
    (hallowed : Allowed used t before ⟨.compact, env⟩) {older newer : SSTable}
    (holdest : Oldest before older newer) {files : Files}
    (hfiles : files = mergedTables before older newer env ∨
      files = Assoc.erase older.path (mergedTables before older newer env) ∨
      files = Assoc.erase newer.path
        (Assoc.erase older.path (mergedTables before older newer env))) :
    Left dataDir (used ++ nameReadings before ⟨.compact, env⟩) P t false
      ⟨before.disk.walLog, files⟩ := by
  rcases hallowed with ⟨hio, -, hnames, -, hcurrent⟩
  rcases holdest with ⟨hmany, staying, hsplit⟩
  have hgrow := hnames _ rfl
  have hdev : env.dev = Device.sound := hio.2
  have hfits := (all_outputEntries h.sound hsplit).1
  have hwhole := not_cutsValue_of_length (e := before) hfits (le_refl _)
  have hcompact : (⟨.compact, env⟩ : Event).op = .compact := rfl
  rw [nameReadings_of_writes ((writesTable_compact hcompact).mpr hmany)] at hgrow ⊢
  have hat := h.compacting hgrow hmany (hcurrent rfl hmany)
  unfold mergedTables at hfiles
  rw [hdev] at hfiles
  rcases hfiles with rfl | rfl | rfl
  · have hwriting := hat (.writing (encodeEntries (outputEntries before .compact)).length)
      (by intro n hn; rw [← CompactPoint.writing.inj hn]; exact hwhole)
    unfold compactCrash at hwriting
    simp only [hsplit, compact_eq_flushedTo, putFile_full, ← outputEntries_compact hsplit,
      List.take_length] at hwriting
    rw [compact_eq_flushedTo, putFile_sound, ← outputEntries_compact hsplit]
    exact hwriting
  · have holder := hat .olderRemoved nofun
    unfold compactCrash at holder
    simp only [hsplit] at holder
    exact holder
  · have hnewer := hat .newerRemoved nofun
    unfold compactCrash at hnewer
    simp only [hsplit] at hnewer
    exact hnewer

/-- Killed between two statements. -/
theorem killed_between (h : Midway dataDir used P t before)
    (hallowed : Allowed used t before ⟨op, env⟩) (hstage : Stage before (.op op) env e pc) :
    Left dataDir (used ++ nameReadings before ⟨op, env⟩)
      (if recorded pc none then P.apply op else P) t false e.disk := by
  have hroom : env.logRoom = none := hallowed.io.1
  have hfits : OpFits op := hallowed.fits
  have hsub : used ⊆ used ++ nameReadings before ⟨op, env⟩ := List.subset_append_left _ _
  have huntouched : e.disk = before.disk →
      Left dataDir (used ++ nameReadings before ⟨op, env⟩) P t false e.disk := by
    intro hdisk
    rw [hdisk]
    exact h.left.mono hsub
  have hwritten : Written before (.op op) env e →
      Left dataDir (used ++ nameReadings before ⟨op, env⟩) (P.apply op) t false e.disk := by
    rintro ⟨op', hop, hsteps⟩
    cases hop
    exact (h.firstSteps hallowed.io hfits hsteps).left.mono hsub
  have hflushed : (∃ e₁, Written before (.op op) env e₁ ∧ e₁.memtable.isFull = true ∧
      e.disk = ⟨e₁.disk.walLog, putFile env.dev (sstablePath e₁.dataDir env.now)
        (encodeEntries e₁.memtable.data) e₁.disk.tables⟩) →
      Left dataDir (used ++ nameReadings before ⟨op, env⟩) (P.apply op) t false e.disk := by
    rintro ⟨e₁, ⟨op', hop, hsteps⟩, hfull, hdisk⟩
    cases hop
    rw [hdisk]
    exact h.flushed hallowed hsteps hfull
  cases pc with
  | setLog key value env' => exact huntouched (congrArg LSMEngine.disk hstage.2.2)
  | setMemtable key value env' =>
      rcases hstage with ⟨hreq, rfl, rfl⟩
      cases hreq
      exact (h.appended hroom hfits rfl (leaves_set _ key value) (Or.inl rfl)).mono hsub
  | setCache key value env' =>
      rcases hstage with ⟨hreq, rfl, rfl⟩
      cases hreq
      exact (h.appended hroom hfits rfl (leaves_set _ key value) (Or.inl rfl)).mono hsub
  | delLog key env' => exact huntouched (congrArg LSMEngine.disk hstage.2.2)
  | delMemtable key env' =>
      rcases hstage with ⟨hreq, rfl, rfl⟩
      cases hreq
      exact (h.appended hroom hfits rfl (leaves_delete _ key) (Or.inr ⟨rfl, rfl⟩)).mono hsub
  | delCache key env' =>
      rcases hstage with ⟨hreq, rfl, rfl⟩
      cases hreq
      exact (h.appended hroom hfits rfl (leaves_delete _ key) (Or.inr ⟨rfl, rfl⟩)).mono hsub
  | checkFull env' counts => exact hwritten hstage.2
  | writeTable env' counts => exact hwritten hstage.2.1
  | pushTable sstable counts => exact hflushed hstage
  | clearMemtable counts => exact hflushed hstage
  | checkpoint counts => exact hflushed hstage
  | countWrite =>
      rcases hstage with ⟨e₁, ⟨op', hop, hsteps⟩, hdisk⟩
      cases hop
      rcases step_of_firstSteps hsteps with ⟨e', hstep, hstate⟩
      have hdone := (h.step hallowed hstep).left
      rw [hstate.disk, ← hdisk] at hdone
      exact hdone
  | checkTables env' => exact huntouched (congrArg LSMEngine.disk hstage.2.2)
  | writeMerged older newer env' => exact huntouched (congrArg LSMEngine.disk hstage.2.2.1)
  | removeOlder older newer merged =>
      rcases hstage with ⟨hreq, holdest, hdisk⟩
      cases hreq
      rw [hdisk]
      exact h.merged hallowed holdest (Or.inl rfl)
  | removeNewer newer merged =>
      rcases hstage with ⟨hreq, older, holdest, hdisk⟩
      cases hreq
      rw [hdisk]
      exact h.merged hallowed holdest (Or.inr (Or.inl rfl))
  | replaceTables merged =>
      rcases hstage with ⟨hreq, older, newer, holdest, hdisk⟩
      cases hreq
      rw [hdisk]
      exact h.merged hallowed holdest (Or.inr (Or.inr rfl))
  -- reads
  | countRead key now => exact huntouched hstage
  | readCache key now => exact huntouched hstage
  | readMemtable key now => exact huntouched hstage
  | readTables older key now => exact huntouched hstage
  | fillCache key value now => exact huntouched hstage
  | checkTtl key value now => exact huntouched hstage
  | expireMemtable key => exact huntouched hstage
  | expireCache key => exact huntouched hstage
  | readStats => exact huntouched hstage

/-- Killed in the middle of what a statement writes, too: what is left has the
operation done if its record is whole, and not begun if not. -/
theorem killed (h : Midway dataDir used P t before)
    (hallowed : Allowed used t before ⟨op, env⟩) (hstage : Stage before (.op op) env e pc)
    (huncut : Uncut e pc upTo) :
    Left dataDir (used ++ nameReadings before ⟨op, env⟩)
      (if recorded pc upTo then P.apply op else P) t (tears pc upTo) (cutAt e pc upTo) := by
  have hsub : used ⊆ used ++ nameReadings before ⟨op, env⟩ := List.subset_append_left _ _
  rcases cutAt_cases e pc upTo with ⟨hsame, hrecorded, hwhole⟩ | ⟨n, rfl,
    ⟨key, value, env', rfl⟩ | ⟨key, env', rfl⟩ | ⟨env', counts, rfl⟩ | ⟨older, newer, env', rfl⟩⟩
  · rw [hsame, hrecorded, hwhole]
    exact h.killed_between hallowed hstage
  · rcases hstage with ⟨hreq, rfl, rfl⟩
    cases hreq
    have hrecord : recordOf ⟨.set key value, env'⟩ =
        some ⟨UInt64.ofNat env'.stamp, WALOp.SET, key, value⟩ := rfl
    have hlogging := h.logging hallowed.fits hrecord (leaves_set _ key value) (Or.inl rfl) n
    simpa [recorded, tears, cutAt] using hlogging.mono hsub
  · rcases hstage with ⟨hreq, rfl, rfl⟩
    cases hreq
    have hrecord : recordOf ⟨.del key, env'⟩ =
        some ⟨UInt64.ofNat env'.stamp, WALOp.DELETE, key, []⟩ := rfl
    have hlogging := h.logging hallowed.fits hrecord (leaves_delete _ key)
      (Or.inr ⟨rfl, rfl⟩) n
    simpa [recorded, tears, cutAt] using hlogging.mono hsub
  · rcases hstage with ⟨rfl, ⟨op', hop, hsteps⟩, hfull⟩
    cases hop
    rcases step_of_firstSteps hsteps with ⟨e', hstep, -⟩
    have hwrites := (writesTable_of_firstSteps hsteps).1.trans hfull
    have hgrow := hallowed.grow e' hstep
    rw [nameReadings_of_writes hwrites] at hgrow ⊢
    exact (h.firstSteps hallowed.io hallowed.fits hsteps).flushing hgrow huncut
  · rcases hstage with ⟨hreq, rfl, rfl, hmany, staying, hsplit⟩
    cases hreq
    have hgrow := hallowed.grow _ rfl
    have hcompact : (⟨.compact, env'⟩ : Event).op = .compact := rfl
    rw [nameReadings_of_writes ((writesTable_compact hcompact).mpr hmany)] at hgrow ⊢
    have hwriting := h.compacting hgrow hmany (hallowed.current rfl hmany) (.writing n) (by
      intro m hm
      rw [← CompactPoint.writing.inj hm, outputEntries_compact hsplit]
      exact huncut)
    unfold compactCrash at hwriting
    simp only [hsplit] at hwriting
    exact hwriting

end Midway

end VaultDB
