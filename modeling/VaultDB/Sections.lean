import VaultDB.Invariant
import VaultDB.Library.Lock

/-! # Critical sections

The public operations of `src/engine/lsm_engine.cpp` as the code between
`engine_mutex_` being taken and given back, one call of a component to a step.
The requests of any number of threads, the compaction thread among them, meet
in the engine only between such steps. `completes_iff` says that a section run
from its beginning to its end is the operation of `LSMEngine`.
-/

namespace VaultDB

open Text FileStream

/-- The public operations. -/
inductive Request where
  | op (op : Op)
  | getStats
deriving Repr, DecidableEq

inductive Reply where
  | done
  | value (found : Option Bytes)
  | stats (stats : LSMEngine.Stats)
deriving Repr, DecidableEq

/-- Where the code of a section is, with the variables it still needs. In a
flush `counts` says whether the write is to be counted after it, as in `set`. -/
inductive Statement where
  | setLog (key value : Bytes) (env : Env)
  | setMemtable (key value : Bytes) (env : Env)
  | setCache (key value : Bytes) (env : Env)
  | delLog (key : Bytes) (env : Env)
  | delMemtable (key : Bytes) (env : Env)
  | delCache (key : Bytes) (env : Env)
  | checkFull (env : Env) (counts : Bool)
  | writeTable (env : Env) (counts : Bool)
  | pushTable (sstable : SSTable) (counts : Bool)
  | clearMemtable (counts : Bool)
  | checkpoint (counts : Bool)
  | countWrite
  | countRead (key : Bytes) (now : Nat)
  | readCache (key : Bytes) (now : Nat)
  | readMemtable (key : Bytes) (now : Nat)
  /-- The loop over the tables, with those still to be asked, newest first. -/
  | readTables (older : List SSTable) (key : Bytes) (now : Nat)
  | fillCache (key value : Bytes) (now : Nat)
  | checkTtl (key value : Bytes) (now : Nat)
  | expireMemtable (key : Bytes)
  | expireCache (key : Bytes)
  | checkTables (env : Env)
  | writeMerged (older newer : SSTable) (env : Env)
  | removeOlder (older newer merged : SSTable)
  | removeNewer (newer merged : SSTable)
  | replaceTables (merged : SSTable)
  | readStats
deriving Repr, DecidableEq

namespace Statement

/-- The first statement of an operation. -/
def enter (request : Request) (env : Env) : Statement :=
  match request with
  | .op (.set key value) => .setLog key value env
  | .op (.get key) => .countRead key env.now
  | .op (.del key) => .delLog key env
  | .op .compact => .checkTables env
  | .getStats => .readStats

/-- What comes behind the check for a full memtable. -/
def afterFlush (counts : Bool) : Statement ⊕ Reply := if counts then .inl countWrite else .inr .done

/-- What `get` does next with a value that a memtable or table holds. -/
def afterHit (key value : Bytes) (now : Nat) : Statement ⊕ Reply :=
  if value = TOMBSTONE then .inr (.value none) else .inl (fillCache key value now)

/-- One statement, and where the code goes on. -/
def run (e : LSMEngine) : Statement → Option (LSMEngine × (Statement ⊕ Reply))
  | .setLog key value env =>
    let (wal, log) := e.wal.append e.disk.walLog env.logRoom env.stamp WALOp.SET key value
    some ({ e with disk := ⟨log, e.disk.tables⟩, wal }, .inl (.setMemtable key value env))
  | .setMemtable key value env =>
    some ({ e with memtable := e.memtable.set key value }, .inl (.setCache key value env))
  | .setCache key value env => do
    let cache ← e.cache.put key value
    return ({ e with cache }, .inl (.checkFull env true))
  | .delLog key env =>
    let (wal, log) := e.wal.append e.disk.walLog env.logRoom env.stamp WALOp.DELETE key []
    some ({ e with disk := ⟨log, e.disk.tables⟩, wal }, .inl (.delMemtable key env))
  | .delMemtable key env =>
    some ({ e with memtable := e.memtable.del key }, .inl (.delCache key env))
  | .delCache key env => do
    let (_, cache) ← e.cache.remove key
    return ({ e with cache }, .inl (.checkFull env false))
  | .checkFull env counts =>
    if e.memtable.isFull then
      if e.memtable.getSortedEntries.isEmpty then some (e, afterFlush counts)
      else some (e, .inl (.writeTable env counts))
    else some (e, afterFlush counts)
  | .writeTable env counts =>
    let path := sstablePath e.dataDir env.now
    let (sstable, tables) :=
      (SSTable.new e.disk.tables path).flush env.dev e.disk.tables e.memtable.getSortedEntries
    some ({ e with disk := ⟨e.disk.walLog, tables⟩ }, .inl (.pushTable sstable counts))
  | .pushTable sstable counts =>
    some ({ e with sstables := e.sstables ++ [sstable] }, .inl (.clearMemtable counts))
  | .clearMemtable counts =>
    some ({ e with memtable := e.memtable.clear }, .inl (.checkpoint counts))
  | .checkpoint counts =>
    let (wal, log) := e.wal.checkpoint
    some ({ e with disk := ⟨log, e.disk.tables⟩, wal }, afterFlush counts)
  | .countWrite => some ({ e with writeCount := e.writeCount + 1 }, .inr .done)
  | .countRead key now =>
    some ({ e with readCount := e.readCount + 1 }, .inl (.readCache key now))
  | .readCache key now => do
    let (cached, cache) ← e.cache.get key
    match cached with
    | some value =>
      return ({ e with cache, cacheHits := e.cacheHits + 1 },
        if value = TOMBSTONE then .inr (.value none) else .inl (.checkTtl key value now))
    | none => return ({ e with cache }, .inl (.readMemtable key now))
  | .readMemtable key now =>
    match e.memtable.get key with
    | some value => some (e, afterHit key value now)
    | none => some (e, .inl (.readTables e.sstables.reverse key now))
  | .readTables [] _ _ => some (e, .inr (.value none))
  | .readTables (table :: older) key now =>
    if ¬ table.bloomMightContain key then
      some ({ e with bloomSaved := e.bloomSaved + 1 }, .inl (.readTables older key now))
    else
      match table.get e.disk.tables key with
      | some value => some (e, afterHit key value now)
      | none => some (e, .inl (.readTables older key now))
  | .fillCache key value now => do
    let cache ← e.cache.put key value
    return ({ e with cache }, .inl (.checkTtl key value now))
  | .checkTtl key value now =>
    match parseExpiry value with
    | none => some (e, .inr (.value (some value)))
    | some (expiryMs, actual) =>
      if (now : Int) ≥ expiryMs then some (e, .inl (.expireMemtable key))
      else some (e, .inr (.value (some actual)))
  | .expireMemtable key => some ({ e with memtable := e.memtable.del key }, .inl (.expireCache key))
  | .expireCache key => do
    let (_, cache) ← e.cache.remove key
    return ({ e with cache }, .inr (.value none))
  | .checkTables env =>
    if e.sstables.length ≤ 4 then some (e, .inr .done)
    else
      match e.sstables with
      | older :: newer :: _ => some (e, .inl (.writeMerged older newer env))
      | _ => some (e, .inr .done)
  | .writeMerged older newer env =>
    let (merged, tables) :=
      SSTable.compact older newer env.dev e.disk.tables (compactedPath e.dataDir env.now)
    some ({ e with disk := ⟨e.disk.walLog, tables⟩ }, .inl (.removeOlder older newer merged))
  | .removeOlder older newer merged =>
    some ({ e with disk := ⟨e.disk.walLog, Assoc.erase older.path e.disk.tables⟩ },
      .inl (.removeNewer newer merged))
  | .removeNewer newer merged =>
    some ({ e with disk := ⟨e.disk.walLog, Assoc.erase newer.path e.disk.tables⟩ },
      .inl (.replaceTables merged))
  | .replaceTables merged =>
    some ({ e with sstables := merged :: e.sstables.drop 2 }, .inr .done)
  | .readStats => some (e, .inr (.stats e.getStats))

end Statement

/-- The operations under `engine_mutex_`. -/
def sections : Lock.Code LSMEngine Request Env Statement Reply where
  enter := Statement.enter
  small := Statement.run

namespace LSMEngine

/-- A whole operation, with its result. -/
def perform (e : LSMEngine) (request : Request) (env : Env) : Option (Reply × LSMEngine) :=
  match request with
  | .op (.set key value) => (e.set key value env).map fun e => (.done, e)
  | .op (.get key) => (e.get key env.now).map fun (found, e) => (.value found, e)
  | .op (.del key) => (e.del key env).map fun e => (.done, e)
  | .op .compact => some (.done, e.compact env.now env.dev)
  | .getStats => some (.stats e.getStats, e)

end LSMEngine

namespace Statement

open Lock.Code LSMEngine

variable {e e' : LSMEngine} {reply : Reply}

/-- A statement after which the section goes on. -/
theorem completes_next {pc pc' : Statement} {e₁ : LSMEngine}
    (hrun : pc.run e = some (e₁, .inl pc')) :
    sections.Completes (e, pc) reply e' ↔ sections.Completes (e₁, pc') reply e' := by
  have hnext : sections.Next (e, pc) (e₁, pc') := hrun
  exact completes_of_next hnext

/-- The last statement. -/
theorem completes_done {pc : Statement} {e₁ : LSMEngine} {reply₁ : Reply}
    (hrun : pc.run e = some (e₁, .inr reply₁)) :
    sections.Completes (e, pc) reply e' ↔ some (reply₁, e₁) = some (reply, e') := by
  have hdone : sections.small (e, pc).1 (e, pc).2 = some (e₁, .inr reply₁) := hrun
  rw [completes_of_done hdone]
  simp only [Option.some.injEq, Prod.mk.injEq]
  exact ⟨fun h => ⟨h.1.symm, h.2.symm⟩, fun h => ⟨h.1.symm, h.2.symm⟩⟩

theorem completes_none {pc : Statement} (hrun : pc.run e = none) :
    sections.Completes (e, pc) reply e' ↔ none = some (reply, e') := by
  have hnone : sections.small (e, pc).1 (e, pc).2 = none := hrun
  constructor
  · exact fun h => absurd h (not_completes_of_none hnone)
  · nofun

/-! ## Writes -/

/-- What is left of a write behind its flush. -/
def counted (e : LSMEngine) (counts : Bool) : LSMEngine :=
  if counts then { e with writeCount := e.writeCount + 1 } else e

theorem completes_afterFlush {pc : Statement} {e₁ : LSMEngine} {counts : Bool}
    (hrun : pc.run e = some (e₁, afterFlush counts)) :
    sections.Completes (e, pc) reply e' ↔ some (.done, counted e₁ counts) = some (reply, e') := by
  cases counts with
  | false => exact completes_done hrun
  | true =>
      rw [completes_next hrun]
      exact completes_done rfl

theorem completes_checkFull (env : Env) (counts : Bool) :
    sections.Completes (e, .checkFull env counts) reply e' ↔
      some (.done, counted (e.flushIfFull env.now env.dev) counts) = some (reply, e') := by
  unfold flushIfFull flushMemtable
  by_cases hfull : e.memtable.isFull = true
  · rw [if_pos hfull]
    by_cases hempty : e.memtable.getSortedEntries.isEmpty = true
    · have hrun : (checkFull env counts).run e = some (e, afterFlush counts) := by
        simp only [run, if_pos hfull, if_pos hempty]
      rw [completes_afterFlush hrun, if_pos hempty]
    · -- the file, the table list, the memtable, the log
      rw [completes_next (by simp only [run, if_pos hfull, if_neg hempty]; rfl), completes_next rfl,
        completes_next rfl, completes_next rfl, completes_afterFlush rfl, if_neg hempty]
      rfl
  · have hrun : (checkFull env counts).run e = some (e, afterFlush counts) := by
      simp only [run, if_neg hfull]
    rw [completes_afterFlush hrun, if_neg hfull]

theorem completes_setLog (key value : Bytes) (env : Env) :
    sections.Completes (e, .setLog key value env) reply e' ↔
      e.perform (.op (.set key value)) env = some (reply, e') := by
  rw [completes_next rfl, completes_next rfl]
  unfold perform LSMEngine.set setSteps
  cases hput : e.cache.put key value with
  | none =>
      rw [completes_none (by simp [run, hput])]
      simp [hput]
  | some cache =>
      rw [completes_next (by simp only [run, hput]; rfl), completes_checkFull]
      simp only [hput]
      rfl

theorem completes_delLog (key : Bytes) (env : Env) :
    sections.Completes (e, .delLog key env) reply e' ↔
      e.perform (.op (.del key)) env = some (reply, e') := by
  rw [completes_next rfl, completes_next rfl]
  unfold perform LSMEngine.del delSteps
  cases hremove : e.cache.remove key with
  | none =>
      rw [completes_none (by simp [run, hremove])]
      simp [hremove]
  | some removed =>
      rw [completes_next (by simp only [run, hremove]; rfl), completes_checkFull]
      simp only [hremove]
      rfl

/-! ## Reads -/

/-- The answer of a read as a reply. -/
def answered (read : Option (Option Bytes × LSMEngine)) : Option (Reply × LSMEngine) :=
  read.map fun (found, e) => (.value found, e)

theorem completes_checkTtl (key value : Bytes) (now : Nat) :
    sections.Completes (e, .checkTtl key value now) reply e' ↔
      answered (e.checkTtl key value now) = some (reply, e') := by
  unfold LSMEngine.checkTtl
  cases hparse : parseExpiry value with
  | none => exact completes_done (by simp only [run, hparse])
  | some parsed =>
      rcases parsed with ⟨expiryMs, actual⟩
      by_cases hlapsed : (now : Int) ≥ expiryMs
      · rw [completes_next (by simp only [run, hparse, if_pos hlapsed]; rfl), completes_next rfl]
        simp only [if_pos hlapsed]
        cases hremove : e.cache.remove key with
        | none =>
            rw [completes_none (by simp [run, hremove])]
            simp [answered]
        | some removed =>
            rw [completes_done (by simp only [run, hremove]; rfl)]
            rfl
      · simp only [if_neg hlapsed]
        exact completes_done (by simp only [run, hparse, if_neg hlapsed])

/-- A value found in the memtable or in a table. -/
theorem completes_afterHit {pc : Statement} {key value : Bytes} {now : Nat}
    (hrun : pc.run e = some (e, afterHit key value now)) :
    sections.Completes (e, pc) reply e' ↔
      answered (e.serve key value now) = some (reply, e') := by
  unfold LSMEngine.serve
  by_cases htombstone : value = TOMBSTONE
  · rw [if_pos htombstone]
    exact completes_done (by rw [hrun, afterHit, if_pos htombstone])
  · rw [if_neg htombstone, completes_next (by rw [hrun, afterHit, if_neg htombstone])]
    cases hput : e.cache.put key value with
    | none =>
        rw [completes_none (by simp [run, hput])]
        simp [answered]
    | some cache =>
        rw [completes_next (by simp only [run, hput]; rfl), completes_checkTtl]
        rfl

/-- What a read does when it has asked the tables. -/
def searched (e : LSMEngine) (key : Bytes) (now : Nat) (search : Option Bytes × UInt64) :
    Option (Option Bytes × LSMEngine) :=
  match search.1 with
  | some value => { e with bloomSaved := search.2 }.serve key value now
  | none => some (none, { e with bloomSaved := search.2 })

/-- The induction is over the tables still to be asked; the count of those the
filters saved grows on the way. -/
theorem completes_readTables (older : List SSTable) (key : Bytes) (now : Nat) :
    sections.Completes (e, .readTables older key now) reply e' ↔
      answered (searched e key now (searchTables e.disk.tables key older e.bloomSaved)) =
        some (reply, e') := by
  induction older generalizing e with
  | nil => exact completes_done rfl
  | cons table older ih =>
      unfold searchTables
      by_cases hfilter : table.bloomMightContain key = true
      · have hnot : ¬ ¬ table.bloomMightContain key = true := not_not_intro hfilter
        rw [if_neg hnot]
        cases hget : table.get e.disk.tables key with
        | some value => exact completes_afterHit (by simp only [run, if_neg hnot, hget])
        | none =>
            rw [completes_next (by simp only [run, if_neg hnot, hget]; rfl)]
            exact ih
      · rw [if_pos hfilter, completes_next (by simp only [run, if_pos hfilter]; rfl)]
        exact ih

/-- What a read does when it has asked the memtable. -/
def buffered (e : LSMEngine) (key : Bytes) (now : Nat) (held : Option Bytes) :
    Option (Option Bytes × LSMEngine) :=
  match held with
  | some value => e.serve key value now
  | none => searched e key now (searchTables e.disk.tables key e.sstables.reverse e.bloomSaved)

theorem completes_readMemtable (key : Bytes) (now : Nat) :
    sections.Completes (e, .readMemtable key now) reply e' ↔
      answered (buffered e key now (e.memtable.get key)) = some (reply, e') := by
  cases hget : e.memtable.get key with
  | some value => exact completes_afterHit (by simp only [run, hget])
  | none =>
      rw [completes_next (by simp only [run, hget]; rfl)]
      exact completes_readTables _ key now

theorem completes_countRead (key : Bytes) (env : Env) :
    sections.Completes (e, .countRead key env.now) reply e' ↔
      e.perform (.op (.get key)) env = some (reply, e') := by
  unfold perform LSMEngine.get
  rw [completes_next rfl]
  cases hcached : e.cache.get key with
  | none =>
      rw [completes_none (by simp [run, hcached])]
      simp [hcached]
  | some found =>
      rcases found with ⟨cached, cache⟩
      cases cached with
      | some value =>
          have hrun : (readCache key env.now).run { e with readCount := e.readCount + 1 } =
              some ({ e with cache, readCount := e.readCount + 1, cacheHits := e.cacheHits + 1 },
                if value = TOMBSTONE then .inr (.value none)
                else .inl (.checkTtl key value env.now)) := by
            simp only [run, hcached]
            rfl
          simp only [hcached]
          by_cases htombstone : value = TOMBSTONE
          · rw [if_pos htombstone] at hrun
            rw [completes_done hrun]
            simp [htombstone]
          · rw [if_neg htombstone] at hrun
            rw [completes_next hrun, completes_checkTtl]
            simp only [Option.bind_eq_bind, Option.bind_some, if_neg htombstone]
            rfl
      | none =>
          rw [completes_next (by simp only [run, hcached]; rfl), completes_readMemtable]
          simp only [hcached]
          rfl

/-! ## Compaction -/

theorem completes_checkTables (env : Env) :
    sections.Completes (e, .checkTables env) reply e' ↔
      e.perform (.op .compact) env = some (reply, e') := by
  unfold perform LSMEngine.compact
  by_cases hfew : e.sstables.length ≤ 4
  · rw [completes_done (by simp only [run, if_pos hfew]; rfl), if_pos hfew]
  · rcases exists_two_oldest (Nat.lt_of_not_le hfew) with ⟨older, newer, staying, hsplit⟩
    have hrun : (checkTables env).run e = some (e, .inl (.writeMerged older newer env)) := by
      unfold run
      simp only [if_neg hfew]
      rw [hsplit]
    rw [completes_next hrun, completes_next rfl, completes_next rfl, completes_next rfl,
      completes_done rfl, if_neg hfew, hsplit]
    rfl

/-- A section run to its end is the whole operation. -/
theorem completes_iff (request : Request) (env : Env) :
    sections.Completes (e, sections.enter request env) reply e' ↔
      e.perform request env = some (reply, e') := by
  cases request with
  | getStats => exact completes_done rfl
  | op op =>
      cases op with
      | set key value => exact completes_setLog key value env
      | get key => exact completes_countRead key env
      | del key => exact completes_delLog key env
      | compact => exact completes_checkTables env

/-! ## Ends -/

/-- A cache on which no statement is undefined. -/
structure Workable (e : LSMEngine) : Prop where
  linked : e.cache.Linked
  room : 0 < e.cache.capacity

/-- The engine is workable, and a search has only tables of the engine before
it. -/
def Ready (e : LSMEngine) (pc : Statement) : Prop :=
  Workable e ∧
    match pc with
    | readTables older _ _ => older.length ≤ e.sstables.length
    | _ => True

/-- How many statements are left at most. -/
def left (e : LSMEngine) : Statement → Nat
  | setLog _ _ _ => 9
  | setMemtable _ _ _ => 8
  | setCache _ _ _ => 7
  | delLog _ _ => 9
  | delMemtable _ _ => 8
  | delCache _ _ => 7
  | checkFull _ _ => 6
  | writeTable _ _ => 5
  | pushTable _ _ => 4
  | clearMemtable _ => 3
  | checkpoint _ => 2
  | countWrite => 1
  | countRead _ _ => e.sstables.length + 8
  | readCache _ _ => e.sstables.length + 7
  | readMemtable _ _ => e.sstables.length + 6
  | readTables older _ _ => older.length + 5
  | fillCache _ _ _ => 4
  | checkTtl _ _ _ => 3
  | expireMemtable _ => 2
  | expireCache _ => 1
  | checkTables _ => 5
  | writeMerged _ _ _ => 4
  | removeOlder _ _ _ => 3
  | removeNewer _ _ => 2
  | replaceTables _ => 1
  | readStats => 1

/-- No section has more statements than this to go. -/
theorem left_le {pc : Statement} (h : Ready e pc) : left e pc ≤ e.sstables.length + 9 := by
  cases pc with
  | readTables older key now =>
      have hle : older.length ≤ e.sstables.length := h.2
      simp only [left]
      omega
  | _ => simp only [left]; omega

theorem Workable.put (h : Workable e) (key value : Bytes) :
    ∃ cache, e.cache.put key value = some cache ∧ Workable { e with cache } := by
  rcases LRUCache.put_isSome h.linked h.room key value with ⟨cache, hput⟩
  rcases LRUCache.put_spec h.linked hput with ⟨hlinked, hcapacity, -⟩
  exact ⟨cache, hput, hlinked, hcapacity ▸ h.room⟩

theorem Workable.get (h : Workable e) (key : Bytes) :
    ∃ found cache, e.cache.get key = some (found, cache) ∧ Workable { e with cache } := by
  rcases LRUCache.get_spec h.linked key with ⟨found, cache, hget, hlinked, hcapacity, -⟩
  exact ⟨found, cache, hget, hlinked, hcapacity ▸ h.room⟩

theorem Workable.remove (h : Workable e) (key : Bytes) :
    ∃ removed cache, e.cache.remove key = some (removed, cache) ∧ Workable { e with cache } := by
  rcases LRUCache.remove_spec h.linked key with ⟨removed, cache, hremove, hlinked, hcapacity, -⟩
  exact ⟨removed, cache, hremove, hlinked, hcapacity ▸ h.room⟩

/-- The statement is defined, and the section goes on with fewer to come, or is
over. -/
def Proceeds (e : LSMEngine) (pc : Statement) : Prop :=
  (∃ e₁ pc', pc.run e = some (e₁, .inl pc') ∧ Ready e₁ pc' ∧ left e₁ pc' < left e pc) ∨
    ∃ e₁ reply, pc.run e = some (e₁, .inr reply) ∧ Workable e₁

variable {pc pc' : Statement} {e₁ : LSMEngine}

theorem proceeds_next (hrun : pc.run e = some (e₁, .inl pc')) (hready : Ready e₁ pc')
    (hlt : left e₁ pc' < left e pc) : Proceeds e pc :=
  Or.inl ⟨e₁, pc', hrun, hready, hlt⟩

theorem proceeds_done (hrun : pc.run e = some (e₁, .inr reply)) (h : Workable e₁) :
    Proceeds e pc :=
  Or.inr ⟨e₁, reply, hrun, h⟩

theorem proceeds_afterFlush {counts : Bool} (hrun : pc.run e = some (e₁, afterFlush counts))
    (h : Workable e₁) (hlt : 1 < left e pc) : Proceeds e pc := by
  cases counts with
  | false => exact proceeds_done hrun h
  | true => exact proceeds_next hrun ⟨h, trivial⟩ hlt

theorem proceeds_afterHit {key value : Bytes} {now : Nat}
    (hrun : pc.run e = some (e, afterHit key value now)) (h : Workable e)
    (hlt : 4 < left e pc) : Proceeds e pc := by
  unfold afterHit at hrun
  split at hrun
  · exact proceeds_done hrun h
  · exact proceeds_next hrun ⟨h, trivial⟩ hlt

theorem proceeds_checkFull (h : Workable e) (env : Env) (counts : Bool) :
    Proceeds e (.checkFull env counts) := by
  have hlast : (checkFull env counts).run e = some (e, afterFlush counts) →
      Proceeds e (.checkFull env counts) := fun hrun =>
    proceeds_afterFlush hrun h (by simp only [left]; omega)
  by_cases hfull : e.memtable.isFull = true
  · by_cases hempty : e.memtable.getSortedEntries.isEmpty = true
    · exact hlast (by simp only [run, if_pos hfull, if_pos hempty])
    · have hrun : (checkFull env counts).run e = some (e, .inl (.writeTable env counts)) := by
        simp only [run, if_pos hfull, if_neg hempty]
      exact proceeds_next hrun ⟨h, trivial⟩ (by simp only [left]; omega)
  · exact hlast (by simp only [run, if_neg hfull])

theorem proceeds_readCache (h : Workable e) (key : Bytes) (now : Nat) :
    Proceeds e (.readCache key now) := by
  rcases h.get key with ⟨cached, cache, hget, hcache⟩
  cases cached with
  | none =>
      exact proceeds_next (by simp only [run, hget]; rfl) ⟨hcache, trivial⟩
        (by simp only [left]; omega)
  | some value =>
      have hrun : (readCache key now).run e =
          some ({ e with cache, cacheHits := e.cacheHits + 1 },
            if value = TOMBSTONE then .inr (.value none) else .inl (.checkTtl key value now)) := by
        simp only [run, hget]
        rfl
      split at hrun
      · exact proceeds_done hrun ⟨hcache.linked, hcache.room⟩
      · exact proceeds_next hrun ⟨⟨hcache.linked, hcache.room⟩, trivial⟩
          (by simp only [left]; omega)

theorem proceeds_readMemtable (h : Workable e) (key : Bytes) (now : Nat) :
    Proceeds e (.readMemtable key now) := by
  cases hget : e.memtable.get key with
  | some value =>
      exact proceeds_afterHit (by simp only [run, hget]; rfl) h (by simp only [left]; omega)
  | none =>
      have hlen : e.sstables.reverse.length = e.sstables.length := List.length_reverse
      exact proceeds_next (by simp only [run, hget]; rfl) ⟨h, hlen.le⟩
        (by simp only [left]; omega)

theorem proceeds_readTables (older : List SSTable) (key : Bytes) (now : Nat)
    (h : Ready e (.readTables older key now)) : Proceeds e (.readTables older key now) := by
  cases older with
  | nil => exact proceeds_done rfl h.1
  | cons table older =>
      have hle : older.length + 1 ≤ e.sstables.length := h.2
      have hlt : older.length + 5 < (table :: older).length + 5 := by
        rw [List.length_cons]
        omega
      by_cases hfilter : table.bloomMightContain key = true
      · have hnot : ¬ ¬ table.bloomMightContain key = true := not_not_intro hfilter
        cases hget : table.get e.disk.tables key with
        | some value =>
            exact proceeds_afterHit (by simp only [run, if_neg hnot, hget]; rfl) h.1
              (by simp only [left, List.length_cons]; omega)
        | none =>
            have hrun : (readTables (table :: older) key now).run e =
                some (e, .inl (.readTables older key now)) := by
              simp only [run, if_neg hnot, hget]
            exact proceeds_next hrun ⟨h.1, Nat.le_of_succ_le hle⟩ hlt
      · have hrun : (readTables (table :: older) key now).run e =
            some ({ e with bloomSaved := e.bloomSaved + 1 }, .inl (.readTables older key now)) := by
          simp only [run, if_pos hfilter]
        exact proceeds_next hrun ⟨⟨h.1.linked, h.1.room⟩, Nat.le_of_succ_le hle⟩ hlt

theorem proceeds_checkTtl (h : Workable e) (key value : Bytes) (now : Nat) :
    Proceeds e (.checkTtl key value now) := by
  cases hparse : parseExpiry value with
  | none => exact proceeds_done (by simp only [run, hparse]; rfl) h
  | some parsed =>
      rcases parsed with ⟨expiryMs, actual⟩
      by_cases hlapsed : (now : Int) ≥ expiryMs
      · exact proceeds_next (by simp only [run, hparse, if_pos hlapsed]; rfl) ⟨h, trivial⟩
          (by simp only [left]; omega)
      · exact proceeds_done (by simp only [run, hparse, if_neg hlapsed]; rfl) h

theorem proceeds_checkTables (h : Workable e) (env : Env) : Proceeds e (.checkTables env) := by
  by_cases hfew : e.sstables.length ≤ 4
  · exact proceeds_done (by simp only [run, if_pos hfew]; rfl) h
  · rcases exists_two_oldest (Nat.lt_of_not_le hfew) with ⟨older, newer, staying, hsplit⟩
    have hrun : (checkTables env).run e = some (e, .inl (.writeMerged older newer env)) := by
      unfold run
      simp only [if_neg hfew]
      rw [hsplit]
    exact proceeds_next hrun ⟨h, trivial⟩ (by simp only [left]; omega)

/-- One case for each statement. -/
theorem proceeds (h : Ready e pc) : Proceeds e pc := by
  have hw := h.1
  have hsame : ∀ {e₁ : LSMEngine}, e₁.cache = e.cache → Workable e₁ := fun hcache =>
    ⟨hcache ▸ hw.linked, hcache ▸ hw.room⟩
  have hdown : ∀ {m n : Nat}, m + 1 = n → m < n := fun heq => heq ▸ Nat.lt_succ_self _
  cases pc with
  | setLog key value env => exact proceeds_next rfl ⟨hsame rfl, trivial⟩ (hdown rfl)
  | setMemtable key value env => exact proceeds_next rfl ⟨hsame rfl, trivial⟩ (hdown rfl)
  | setCache key value env =>
      rcases hw.put key value with ⟨cache, hput, hcache⟩
      exact proceeds_next (by simp only [run, hput]; rfl) ⟨hcache, trivial⟩ (hdown rfl)
  | delLog key env => exact proceeds_next rfl ⟨hsame rfl, trivial⟩ (hdown rfl)
  | delMemtable key env => exact proceeds_next rfl ⟨hsame rfl, trivial⟩ (hdown rfl)
  | delCache key env =>
      rcases hw.remove key with ⟨removed, cache, hremove, hcache⟩
      exact proceeds_next (by simp only [run, hremove]; rfl) ⟨hcache, trivial⟩ (hdown rfl)
  | checkFull env counts => exact proceeds_checkFull hw env counts
  | writeTable env counts => exact proceeds_next rfl ⟨hsame rfl, trivial⟩ (hdown rfl)
  | pushTable sstable counts => exact proceeds_next rfl ⟨hsame rfl, trivial⟩ (hdown rfl)
  | clearMemtable counts => exact proceeds_next rfl ⟨hsame rfl, trivial⟩ (hdown rfl)
  | checkpoint counts => exact proceeds_afterFlush rfl (hsame rfl) (hdown rfl)
  | countWrite => exact proceeds_done rfl (hsame rfl)
  | countRead key now => exact proceeds_next rfl ⟨hsame rfl, trivial⟩ (hdown rfl)
  | readCache key now => exact proceeds_readCache hw key now
  | readMemtable key now => exact proceeds_readMemtable hw key now
  | readTables older key now => exact proceeds_readTables older key now h
  | fillCache key value now =>
      rcases hw.put key value with ⟨cache, hput, hcache⟩
      exact proceeds_next (by simp only [run, hput]; rfl) ⟨hcache, trivial⟩ (hdown rfl)
  | checkTtl key value now => exact proceeds_checkTtl hw key value now
  | expireMemtable key => exact proceeds_next rfl ⟨hsame rfl, trivial⟩ (hdown rfl)
  | expireCache key =>
      rcases hw.remove key with ⟨removed, cache, hremove, hcache⟩
      exact proceeds_done (by simp only [run, hremove]; rfl) hcache
  | checkTables env => exact proceeds_checkTables hw env
  | writeMerged older newer env => exact proceeds_next rfl ⟨hsame rfl, trivial⟩ (hdown rfl)
  | removeOlder older newer merged => exact proceeds_next rfl ⟨hsame rfl, trivial⟩ (hdown rfl)
  | removeNewer newer merged => exact proceeds_next rfl ⟨hsame rfl, trivial⟩ (hdown rfl)
  | replaceTables merged => exact proceeds_done rfl (hsame rfl)
  | readStats => exact proceeds_done rfl hw

/-- Between operations the cache is workable, and every section comes to its
end. -/
theorem advances : Lock.Advances sections Workable Ready left where
  enter op env h := by
    refine ⟨h, ?_⟩
    cases op with
    | getStats => trivial
    | op op => cases op <;> trivial
  small h := proceeds h

end Statement

end VaultDB
