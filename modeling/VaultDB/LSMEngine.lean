import Mathlib.Data.List.Sort
import VaultDB.Expiry
import VaultDB.Library.Run
import VaultDB.LRUCache
import VaultDB.SSTable
import VaultDB.WAL

/-! # The LSM engine

`src/engine/lsm_engine.cpp`: the coordinator of log, memtable, cache and
tables. Writes go log, memtable, cache, and to a new table when the memtable
is full; reads go cache, memtable, tables from the newest to the oldest.

Every clock reading and every device an operation may use is an argument
(`Env`), so a run is a list of events and `step` is one public operation or
one background compaction under the engine mutex. Operations return `Option`:
`none` is undefined behaviour of the cache (a capacity of zero).
-/

namespace VaultDB

open Text FileStream

/-! ## Data directory -/

/-- What is on disk: `wal.log`, and the files in `sstables`. -/
structure DataDir where
  walLog : Bytes
  tables : Files
deriving Repr, DecidableEq

def DataDir.empty : DataDir := ⟨[], []⟩

/-- `data_dir_ + "/sstables/sstable_"`, the start of every table's path. -/
def pathStem (dataDir : Bytes) : Bytes := dataDir ++ ascii "/sstables/sstable_"

/-- The path `flush_memtable` makes of a clock reading. -/
def sstablePath (dataDir : Bytes) (ms : Nat) : Bytes :=
  pathStem dataDir ++ (decimal ms ++ ascii ".sst")

/-- The path `compact` makes of a clock reading. -/
def compactedPath (dataDir : Bytes) (ms : Nat) : Bytes :=
  pathStem dataDir ++ (decimal ms ++ ascii "_compacted.sst")

/-- `entry.path().extension()` of a directory entry: from the last dot of the
file name, unless the name begins with that dot. -/
def extension (path : Bytes) : Bytes :=
  let filename := (path.reverse.takeWhile fun b => b ≠ 47).reverse
  let ending := (filename.reverse.takeWhile fun b => b ≠ 46).reverse
  if filename.length ≤ ending.length + 1 then [] else 46 :: ending

/-! ## State -/

structure LSMEngine where
  dataDir : Bytes
  disk : DataDir
  cache : LRUCache Bytes Bytes
  memtable : MemTable
  wal : WAL
  /-- Oldest first. -/
  sstables : List SSTable
  writeCount : UInt64
  readCount : UInt64
  cacheHits : UInt64
  bloomSaved : UInt64
deriving Repr, DecidableEq

/-- The surroundings of one operation: the reading `WAL::append` stamps its
record with, the later reading of `check_ttl`, `flush_memtable` or `compact`,
the room left for the log (`none`: no limit) and the device of a table file. -/
structure Env where
  stamp : Nat
  now : Nat
  logRoom : Option Nat := none
  dev : Device := Device.sound
deriving Repr, DecidableEq

/-- Every reading is `ms`, and nothing fails. -/
def Env.calm (ms : Nat) : Env := ⟨ms, ms, none, Device.sound⟩

inductive Op where
  | set (key value : Bytes)
  | get (key : Bytes)
  | del (key : Bytes)
  | compact
deriving Repr, DecidableEq

structure Event where
  op : Op
  env : Env
deriving Repr, DecidableEq

namespace LSMEngine

/-! ## Flush and log replay -/

def flushMemtable (e : LSMEngine) (now : Nat) (dev : Device) : LSMEngine :=
  let entries := e.memtable.getSortedEntries
  if entries.isEmpty then e
  else
    let path := sstablePath e.dataDir now
    let (sstable, tables) := (SSTable.new e.disk.tables path).flush dev e.disk.tables entries
    let (wal, log) := e.wal.checkpoint
    { e with
      disk := ⟨log, tables⟩
      sstables := e.sstables ++ [sstable]
      memtable := e.memtable.clear
      wal := wal }

/-- The check that ends `set`, `del` and `recover`. -/
def flushIfFull (e : LSMEngine) (now : Nat) (dev : Device) : LSMEngine :=
  if e.memtable.isFull then e.flushMemtable now dev else e

/-- One turn of the loop of `recover`. -/
def replayEntry (memtable : MemTable) (entry : WALEntry) : MemTable :=
  if entry.op = WALOp.SET then memtable.set entry.key entry.value
  else if entry.op = WALOp.DELETE then memtable.del entry.key
  else memtable

def replay (entries : List WALEntry) (memtable : MemTable) : MemTable :=
  entries.foldl replayEntry memtable

def recover (e : LSMEngine) (now : Nat) (dev : Device) : LSMEngine :=
  let entries := WAL.recover e.disk.walLog
  let e := { e with memtable := replay entries e.memtable }
  if !entries.isEmpty then e.flushIfFull now dev else e

/-- The paths `load_existing_sstables` opens, in its order. -/
def tablePaths (tables : Files) : List Bytes :=
  ((tables.map Prod.fst).filter fun path => extension path = ascii ".sst").insertionSort (· ≤ ·)

def loadExistingSstables (e : LSMEngine) : LSMEngine :=
  { e with
    sstables := e.sstables ++ (tablePaths e.disk.tables).map (SSTable.new e.disk.tables) }

/-- The constructor, on a directory with the given content. -/
def new (disk : DataDir) (dataDir : Bytes) (cacheSize : Nat) (memtableSizeBytes : UInt64)
    (now : Nat) (dev : Device) : LSMEngine :=
  let e : LSMEngine :=
    { dataDir := dataDir
      disk := disk
      cache := LRUCache.new cacheSize
      memtable := MemTable.new memtableSizeBytes
      wal := WAL.new
      sstables := []
      writeCount := 0
      readCount := 0
      cacheHits := 0
      bloomSaved := 0 }
  e.loadExistingSstables.recover now dev

/-- An engine just started on an empty directory. -/
def start (dataDir : Bytes) (cacheSize : Nat) (memtableSizeBytes : UInt64) : LSMEngine :=
  new DataDir.empty dataDir cacheSize memtableSizeBytes 0 Device.sound

/-! ## Operations -/

/-- Steps 1 to 3 of `set`: log, memtable and cache. -/
def setSteps (e : LSMEngine) (key value : Bytes) (env : Env) : Option LSMEngine := do
  let (wal, log) := e.wal.append e.disk.walLog env.logRoom env.stamp WALOp.SET key value
  let memtable := e.memtable.set key value
  let cache ← e.cache.put key value
  return { e with disk := ⟨log, e.disk.tables⟩, cache, memtable, wal }

def set (e : LSMEngine) (key value : Bytes) (env : Env) : Option LSMEngine := do
  let e ← e.setSteps key value env
  let e := e.flushIfFull env.now env.dev
  return { e with writeCount := e.writeCount + 1 }

/-- `del` up to its check for a full memtable. -/
def delSteps (e : LSMEngine) (key : Bytes) (env : Env) : Option LSMEngine := do
  let (wal, log) := e.wal.append e.disk.walLog env.logRoom env.stamp WALOp.DELETE key []
  let memtable := e.memtable.del key
  let (_, cache) ← e.cache.remove key
  return { e with disk := ⟨log, e.disk.tables⟩, cache, memtable, wal }

def del (e : LSMEngine) (key : Bytes) (env : Env) : Option LSMEngine := do
  let e ← e.delSteps key env
  return e.flushIfFull env.now env.dev

/-- `check_ttl`, an expired key being marked deleted in the memtable only. -/
def checkTtl (e : LSMEngine) (key value : Bytes) (now : Int) :
    Option (Option Bytes × LSMEngine) :=
  match parseExpiry value with
  | none => some (some value, e)
  | some (expiryMs, actual) =>
    if now ≥ expiryMs then do
      let memtable := e.memtable.del key
      let (_, cache) ← e.cache.remove key
      return (none, { e with memtable, cache })
    else some (some actual, e)

/-- The loop of `get` over the tables, newest first, counting the tables the
Bloom filters save. -/
def searchTables (files : Files) (key : Bytes) : List SSTable → UInt64 → Option Bytes × UInt64
  | [], saved => (none, saved)
  | table :: older, saved =>
    if ¬ table.bloomMightContain key then searchTables files key older (saved + 1)
    else
      match table.get files key with
      | some value => (some value, saved)
      | none => searchTables files key older saved

/-- What `get` does with a value found in the memtable or in a table. -/
def serve (e : LSMEngine) (key value : Bytes) (now : Nat) : Option (Option Bytes × LSMEngine) :=
  if value = TOMBSTONE then some (none, e)
  else do
    let cache ← e.cache.put key value
    { e with cache }.checkTtl key value now

def get (e : LSMEngine) (key : Bytes) (now : Nat) : Option (Option Bytes × LSMEngine) := do
  let e := { e with readCount := e.readCount + 1 }
  let (cached, cache) ← e.cache.get key
  let e := { e with cache }
  match cached with
  | some value =>
    let e := { e with cacheHits := e.cacheHits + 1 }
    if value = TOMBSTONE then some (none, e) else e.checkTtl key value now
  | none =>
    match e.memtable.get key with
    | some value => e.serve key value now
    | none =>
      let (found, saved) := searchTables e.disk.tables key e.sstables.reverse e.bloomSaved
      let e := { e with bloomSaved := saved }
      match found with
      | some value => e.serve key value now
      | none => some (none, e)

def compact (e : LSMEngine) (now : Nat) (dev : Device) : LSMEngine :=
  if e.sstables.length ≤ 4 then e
  else
    match e.sstables with
    | older :: newer :: staying =>
      let outputPath := compactedPath e.dataDir now
      let (merged, tables) := SSTable.compact older newer dev e.disk.tables outputPath
      let tables := Assoc.erase older.path tables
      let tables := Assoc.erase newer.path tables
      { e with disk := ⟨e.disk.walLog, tables⟩, sstables := merged :: staying }
    | _ => e

/-- The counters are `size_t`, the rate a `double`. -/
structure Stats where
  writeCount : UInt64
  readCount : UInt64
  cacheHits : UInt64
  cacheSize : Nat
  memtableSizeBytes : UInt64
  memtableEntries : Nat
  sstableCount : Nat
  cacheHitRate : Float
  bloomFilterSavedReads : UInt64
deriving Repr, DecidableEq

/-- Hits of reads in per cent, every step of it rounded to a `double`. -/
def hitRate (cacheHits readCount : UInt64) : Float :=
  if readCount > 0 then cacheHits.toFloat / readCount.toFloat * 100.0 else 0.0

def getStats (e : LSMEngine) : Stats :=
  { writeCount := e.writeCount
    readCount := e.readCount
    cacheHits := e.cacheHits
    cacheSize := e.cache.size
    memtableSizeBytes := e.memtable.sizeBytes
    memtableEntries := e.memtable.count
    sstableCount := e.sstables.length
    cacheHitRate := hitRate e.cacheHits e.readCount
    bloomFilterSavedReads := e.bloomSaved }

/-- Compactions of the background thread, one after the other. -/
def background (e : LSMEngine) (merges : List Env) : LSMEngine :=
  merges.foldl (fun e env => e.compact env.now env.dev) e

/-- One operation of a client, or one background compaction. -/
def step (e : LSMEngine) (ev : Event) : Option LSMEngine :=
  match ev.op with
  | .set key value => e.set key value ev.env
  | .get key => (e.get key ev.env.now).map Prod.snd
  | .del key => e.del key ev.env
  | .compact => some (e.compact ev.env.now ev.env.dev)

/-- The answer of `get` at a time, its effect on the engine left aside. -/
def answer (e : LSMEngine) (key : Bytes) (now : Nat) : Option (Option Bytes) :=
  (e.get key now).map Prod.fst

end LSMEngine

end VaultDB
