import VaultDB.Values

/-! # Protocol

`src/protocol/parser.cpp`: a command line is split at blanks into a name and
arguments, and executed against the engine. Every command answers with one
response; a request that is refused answers with an `ERROR` and must change
nothing.

`execute_iff` says for which lines, engines and surroundings that is what
happens: not where `TTL` is given a number of seconds that `std::stoi` rejects
(it throws, and nothing on the way to `main` catches), not where the deadline
is outside the clock's 64 bits, and not where a value goes into a cache without
room.
-/

namespace VaultDB

open Text FileStream

structure Command where
  name : Bytes
  args : List Bytes
deriving Repr, DecidableEq

/-- The surroundings of one command: the reading of `system_clock`, in its
nanoseconds, that `TTL` takes; for each call of the engine, the background
compactions that take the engine mutex before it, and what it meets itself; and
the milliseconds between the two readings of the timer of `BENCH`. -/
structure ExecEnv where
  nowNs : Int
  merges : Nat → List Env
  calls : Nat → Env
  durationMs : Int

/-- Every reading is `ms`, and nothing fails. -/
def ExecEnv.calm (ms : Nat) : ExecEnv :=
  ⟨ms * 10 ^ 6, fun _ => [], fun _ => Env.calm ms, 0⟩

/-- How `execute` ends. -/
inductive Outcome where
  | returned (response : Bytes) (engine : LSMEngine)
  /-- An exception leaves `execute`. -/
  | thrown
  /-- Undefined behaviour. -/
  | undefined
deriving Repr, DecidableEq

namespace Parser

/-- `std::toupper` in the default locale. A byte from 128 on reaches it as a
negative `int`, for which the standard defines nothing and the C library gives
the byte back. -/
def toupper (c : UInt8) : UInt8 := if 97 ≤ c ∧ c ≤ 122 then c - 32 else c

def parse (input : Bytes) : Command :=
  match words input with
  | [] => ⟨[], []⟩
  | token :: args => ⟨token.map toupper, args⟩

/-- `static_cast<int>` of a `double`: what stands behind the point is cut off.
For a number beyond `int` the standard defines nothing; here it is the nearest
`int`. -/
def castInt (x : Float) : Int := x.toModel.toInt32.toInt

/-- The arguments joined by single blanks. -/
def join (args : List Bytes) : Bytes := (ascii " ").intercalate args

/-- A response that is returned unless the call before it is undefined. -/
def respond (response : Bytes) : Option LSMEngine → Outcome
  | some e => .returned response e
  | none => .undefined

def executeSet (args : List Bytes) (e : LSMEngine) (env : ExecEnv) : Outcome :=
  match args with
  | key :: value :: values =>
    respond (ascii "OK\n")
      ((e.background (env.merges 0)).set key (join (value :: values)) (env.calls 0))
  | _ => .returned (ascii "ERROR Usage: SET key value\n") e

def executeGet (args : List Bytes) (e : LSMEngine) (env : ExecEnv) : Outcome :=
  match args with
  | [] => .returned (ascii "ERROR Usage: GET key\n") e
  | key :: _ =>
    match (e.background (env.merges 0)).get key (env.calls 0).now with
    | none => .undefined
    | some (some value, e) => .returned (ascii "VALUE " ++ value ++ ascii "\n") e
    | some (none, e) => .returned (ascii "NULL\n") e

def executeDel (args : List Bytes) (e : LSMEngine) (env : ExecEnv) : Outcome :=
  match args with
  | [] => .returned (ascii "ERROR Usage: DEL key\n") e
  | key :: _ => respond (ascii "OK\n") ((e.background (env.merges 0)).del key (env.calls 0))

/-- The stored form of a value with a deadline. -/
def expiryValue (expiryMs : Int) (value : Bytes) : Bytes :=
  ascii "EXPIRY:" ++ decimalInt expiryMs ++ ascii ":" ++ value

/-- `now + std::chrono::seconds(n)`, in the nanoseconds of `system_clock`. -/
def expiryNs (nowNs seconds : Int) : Int := nowNs + seconds * 10 ^ 9

/-- The clock's count is an `int64_t`. -/
def ClockFits (ns : Int) : Prop := -2 ^ 63 ≤ ns ∧ ns < 2 ^ 63

instance (ns : Int) : Decidable (ClockFits ns) := inferInstanceAs (Decidable (_ ∧ _))

def executeTtl (args : List Bytes) (e : LSMEngine) (env : ExecEnv) : Outcome :=
  match args with
  | key :: seconds :: value :: values =>
    match stoi seconds with
    | none => .thrown
    | some n =>
      if ClockFits (expiryNs env.nowNs n) then
        -- `duration_cast` rounds towards zero
        let expiryMs := (expiryNs env.nowNs n).tdiv (10 ^ 6)
        let stored := expiryValue expiryMs (join (value :: values))
        respond (ascii "OK\n") ((e.background (env.merges 0)).set key stored (env.calls 0))
      else .undefined
  | _ => .returned (ascii "ERROR Usage: TTL key seconds value\n") e

/-- The loop of `BENCH` from `i` on, with the turns that are left. -/
def benchLoop (env : ExecEnv) : Nat → Nat → LSMEngine → Option LSMEngine
  | 0, _, e => some e
  | left + 1, i, e => do
    let e ← (e.background (env.merges i)).set (ascii "bench_key_" ++ decimal i)
      (ascii "bench_value_" ++ decimal i) (env.calls i)
    benchLoop env left (i + 1) e

/-- The number of turns `BENCH` is asked for. -/
def benchCount (args : List Bytes) : Option Int :=
  match args with
  | [] => some 10000
  | n :: _ => stoi n

/-- `ops_per_sec`. -/
def opsPerSec (n durationMs : Int) : Float :=
  if durationMs > 0 then Float.ofInt n / Float.ofInt durationMs * 1000.0 else 0.0

def executeBench (args : List Bytes) (e : LSMEngine) (env : ExecEnv) : Outcome :=
  match benchCount args with
  | none => .returned (ascii "ERROR Invalid number\n") e
  | some n =>
    let response := ascii "OK " ++ decimalInt n ++ ascii " ops in " ++ decimalInt env.durationMs ++
      ascii "ms (" ++ decimalInt (castInt (opsPerSec n env.durationMs)) ++ ascii " ops/sec)\n"
    respond response (benchLoop env n.toNat 0 e)

def executeStats (e : LSMEngine) (env : ExecEnv) : Outcome :=
  let e := e.background (env.merges 0)
  let stats := e.getStats
  .returned (ascii "STATS" ++
    ascii " writes=" ++ decimal stats.writeCount.toNat ++
    ascii " reads=" ++ decimal stats.readCount.toNat ++
    ascii " cache_hits=" ++ decimal stats.cacheHits.toNat ++
    ascii " cache_size=" ++ decimal stats.cacheSize ++
    ascii " memtable_bytes=" ++ decimal stats.memtableSizeBytes.toNat ++
    ascii " memtable_entries=" ++ decimal stats.memtableEntries ++
    ascii " sstables=" ++ decimal stats.sstableCount ++
    ascii " cache_hit_rate=" ++ decimalInt (castInt stats.cacheHitRate) ++ ascii "%" ++
    ascii " bloom_saved=" ++ decimal stats.bloomFilterSavedReads.toNat ++ ascii "\n") e

def execute (cmd : Command) (e : LSMEngine) (env : ExecEnv) : Outcome :=
  if cmd.name = ascii "PING" then .returned (ascii "PONG\n") e
  else if cmd.name = ascii "SET" then executeSet cmd.args e env
  else if cmd.name = ascii "GET" then executeGet cmd.args e env
  else if cmd.name = ascii "DEL" then executeDel cmd.args e env
  else if cmd.name = ascii "TTL" then executeTtl cmd.args e env
  else if cmd.name = ascii "BENCH" then executeBench cmd.args e env
  else if cmd.name = ascii "STATS" then executeStats e env
  else .returned (ascii "ERROR Unknown command: " ++ cmd.name ++ ascii "\n") e

/-! ## Which requests are answered -/

/-- A response comes back, and if it is an `ERROR` the engine is as it was. -/
def Answered (outcome : Outcome) (e : LSMEngine) : Prop :=
  ∃ response e', outcome = .returned response e' ∧ (ascii "ERROR" <+: response → e' = e)

/-- What a request needs to be answered: room in the cache for every value it
puts there, and for `TTL` a number of seconds with a deadline the clock can
express. -/
structure Answerable (cmd : Command) (e : LSMEngine) (env : ExecEnv) : Prop where
  set : cmd.name = ascii "SET" → 2 ≤ cmd.args.length → 0 < e.cache.capacity
  get : cmd.name = ascii "GET" → ∀ key value, cmd.args.head? = some key →
    (e.background (env.merges 0)).slowPath key = some value → value ≠ TOMBSTONE →
    0 < e.cache.capacity
  ttl : cmd.name = ascii "TTL" → 3 ≤ cmd.args.length →
    (∃ n, stoi (cmd.args.getD 1 []) = some n ∧ ClockFits (expiryNs env.nowNs n)) ∧
      0 < e.cache.capacity
  bench : cmd.name = ascii "BENCH" → ∀ n, benchCount cmd.args = some n → 0 < n →
    0 < e.cache.capacity

/-- A refusal changes nothing. -/
theorem answered_refusal (response : Bytes) (e : LSMEngine) :
    Answered (.returned response e) e :=
  ⟨response, e, rfl, fun _ => rfl⟩

theorem not_error_of_head {response : Bytes} (h : response.head? ≠ some 69) :
    ¬ ascii "ERROR" <+: response := by
  rintro ⟨rest, rfl⟩
  exact h rfl

theorem answered_returned {response : Bytes} (h : response.head? ≠ some 69) (e e' : LSMEngine) :
    Answered (.returned response e') e :=
  ⟨response, e', rfl, fun herror => absurd herror (not_error_of_head h)⟩

/-- The first byte is that of the text in front. -/
theorem head?_append_ne {text rest : Bytes} {b : UInt8} (hne : text ≠ [])
    (h : text.head? ≠ some b) : (text ++ rest).head? ≠ some b := by
  rw [List.head?_append_of_ne_nil _ hne]
  exact h

/-- Any other response needs the call of the engine to come to an end. -/
theorem answered_respond {response : Bytes} (h : response.head? ≠ some 69)
    {call : Option LSMEngine} {e : LSMEngine} :
    Answered (respond response call) e ↔ ∃ e', call = some e' := by
  constructor
  · rintro ⟨r, e', hreturned, -⟩
    cases call with
    | none => cases hreturned
    | some e'' => exact ⟨e'', rfl⟩
  · rintro ⟨e', rfl⟩
    exact answered_returned h e e'

theorem not_answered_thrown (e : LSMEngine) : ¬ Answered .thrown e := by
  rintro ⟨response, e', hreturned, -⟩
  cases hreturned

theorem not_answered_undefined (e : LSMEngine) : ¬ Answered .undefined e := by
  rintro ⟨response, e', hreturned, -⟩
  cases hreturned

theorem answered_stats (e : LSMEngine) (env : ExecEnv) : Answered (executeStats e env) e := by
  refine answered_returned ?_ e _
  simp only [List.append_assoc]
  exact head?_append_ne (by decide) (by decide)

section Commands

variable {e : LSMEngine} (h : e.Holding fun _ => True) (args : List Bytes) (env : ExecEnv)
include h

theorem answered_set_iff :
    Answered (executeSet args e env) e ↔ (2 ≤ args.length → 0 < e.cache.capacity) := by
  unfold executeSet
  match args with
  | [] => simp [answered_refusal]
  | [key] => simp [answered_refusal]
  | key :: value :: values =>
      dsimp only
      rw [answered_respond (by decide), (h.background (env.merges 0)).set_isSome_iff,
        LSMEngine.cache_background]
      simp

theorem answered_get_iff :
    Answered (executeGet args e env) e ↔ ∀ key value, args.head? = some key →
      (e.background (env.merges 0)).slowPath key = some value → value ≠ TOMBSTONE →
      0 < e.cache.capacity := by
  have hholding := h.background (env.merges 0)
  unfold executeGet
  cases args with
  | nil => simp [answered_refusal]
  | cons key args =>
      have hiff : (∀ k value, (key :: args).head? = some k →
          (e.background (env.merges 0)).slowPath k = some value → value ≠ TOMBSTONE →
          0 < e.cache.capacity) ↔ (0 < e.cache.capacity ∨
            ∀ v, (e.background (env.merges 0)).slowPath key = some v → v = TOMBSTONE) := by
        constructor
        · intro hroom
          by_cases hpos : 0 < e.cache.capacity
          · exact Or.inl hpos
          · refine Or.inr fun v hv => ?_
            by_contra hne
            exact hpos (hroom key v rfl hv hne)
        · rintro (hpos | hmarks) k value ⟨rfl⟩ hfound hne
          · exact hpos
          · exact absurd (hmarks value hfound) hne
      rw [hiff, ← LSMEngine.cache_background e (env.merges 0)]
      rcases hholding.get valueClass_true key (fun _ _ => trivial) (env.calls 0).now with
        ⟨r, e', hget, hroom, -⟩ | ⟨hget, hroom⟩
      · simp only [hget, hroom, iff_true]
        cases r with
        | none => exact answered_returned (by decide) e e'
        | some value =>
            refine answered_returned ?_ e e'
            rw [List.append_assoc]
            exact head?_append_ne (by decide) (by decide)
      · simp only [hget, hroom, iff_false]
        exact not_answered_undefined e

theorem answered_del : Answered (executeDel args e env) e := by
  unfold executeDel
  cases args with
  | nil => exact answered_refusal _ e
  | cons key args =>
      rcases (h.background (env.merges 0)).del valueClass_true key (env.calls 0) with
        ⟨e', hdel, -⟩
      exact (answered_respond (by decide)).mpr ⟨e', hdel⟩

theorem answered_ttl_iff :
    Answered (executeTtl args e env) e ↔ (3 ≤ args.length →
      (∃ n, stoi (args.getD 1 []) = some n ∧ ClockFits (expiryNs env.nowNs n)) ∧
        0 < e.cache.capacity) := by
  unfold executeTtl
  match args with
  | [] => simp [answered_refusal]
  | [key] => simp [answered_refusal]
  | [key, seconds] => simp [answered_refusal]
  | key :: seconds :: value :: values =>
      have hthree : 3 ≤ (key :: seconds :: value :: values).length := by simp
      have hsecond : (key :: seconds :: value :: values).getD 1 [] = seconds := rfl
      simp only [hthree, hsecond, forall_const]
      cases hstoi : stoi seconds with
      | none => simp [not_answered_thrown]
      | some n =>
          by_cases hfits : ClockFits (expiryNs env.nowNs n)
          · simp only [if_pos hfits]
            rw [answered_respond (by decide), (h.background (env.merges 0)).set_isSome_iff,
              LSMEngine.cache_background]
            simp [hfits]
          · simp only [if_neg hfits]
            simp [hfits, not_answered_undefined]

/-- The loop of `BENCH` comes to an end if it has nothing to do or the cache has room. -/
theorem benchLoop_isSome_iff (left i : Nat) :
    (∃ e', benchLoop env left i e = some e') ↔ (0 < left → 0 < e.cache.capacity) := by
  induction left generalizing i e with
  | zero => simp [benchLoop]
  | succ left ih =>
      have hholding := h.background (env.merges i)
      unfold benchLoop
      simp only [bind, Option.bind_eq_some_iff, Nat.zero_lt_succ, forall_const]
      rw [← LSMEngine.cache_background e (env.merges i)]
      constructor
      · rintro ⟨e', e₁, hset, -⟩
        exact hholding.set_isSome_iff.mp ⟨e₁, hset⟩
      · intro hpos
        rcases hholding.set_isSome_iff.mpr hpos with ⟨e₁, hset⟩
        rcases hholding.set trivial hset with ⟨h₁, hcap⟩
        rcases (ih h₁ (i + 1)).mpr (fun _ => hcap ▸ hpos) with ⟨e', hloop⟩
        exact ⟨e', e₁, hset, hloop⟩

theorem answered_bench_iff :
    Answered (executeBench args e env) e ↔
      ∀ n, benchCount args = some n → 0 < n → 0 < e.cache.capacity := by
  unfold executeBench
  cases hcount : benchCount args with
  | none => simp [answered_refusal]
  | some n =>
      have hhead : (ascii "OK " ++ decimalInt n ++ ascii " ops in " ++ decimalInt env.durationMs ++
          ascii "ms (" ++ decimalInt (castInt (opsPerSec n env.durationMs)) ++
          ascii " ops/sec)\n").head? ≠ some 69 := by
        simp only [List.append_assoc]
        exact head?_append_ne (by decide) (by decide)
      dsimp only
      rw [answered_respond hhead, benchLoop_isSome_iff h]
      constructor
      · rintro hroom m ⟨rfl⟩ hpos
        exact hroom (by omega)
      · intro hroom hpos
        exact hroom n rfl (by omega)

end Commands

/-- For every line, every engine in use and all surroundings: the request is
answered, and an `ERROR` leaves the engine alone, exactly when it is one of the
answerable ones. -/
theorem execute_iff {disk : DataDir} {dataDir : Bytes} {cacheSize : Nat}
    {memtableSizeBytes : UInt64} {now : Nat} {dev : Device} {evs : List Event} {e : LSMEngine}
    (hrun : Machine.run LSMEngine.step
      (LSMEngine.new disk dataDir cacheSize memtableSizeBytes now dev) evs = some e)
    (line : Bytes) (env : ExecEnv) :
    Answered (execute (parse line) e env) e ↔ Answerable (parse line) e env := by
  have h := LSMEngine.holding_run hrun
  -- a field about another command asks nothing
  have hother : ∀ {name name' : Bytes} {Q : Prop}, (parse line).name = name → name ≠ name' →
      (parse line).name = name' → Q := fun hname hne hname' => absurd (hname.symm.trans hname') hne
  unfold execute
  split_ifs with hping hset hget hdel httl hbench hstats
  · exact iff_of_true (answered_refusal _ e) ⟨hother hping (by decide), hother hping (by decide),
      hother hping (by decide), hother hping (by decide)⟩
  · rw [answered_set_iff h]
    exact ⟨fun hroom => ⟨fun _ => hroom, hother hset (by decide), hother hset (by decide),
      hother hset (by decide)⟩, fun hanswerable => hanswerable.set hset⟩
  · rw [answered_get_iff h]
    exact ⟨fun hroom => ⟨hother hget (by decide), fun _ => hroom, hother hget (by decide),
      hother hget (by decide)⟩, fun hanswerable => hanswerable.get hget⟩
  · exact iff_of_true (answered_del h _ env) ⟨hother hdel (by decide), hother hdel (by decide),
      hother hdel (by decide), hother hdel (by decide)⟩
  · rw [answered_ttl_iff h]
    exact ⟨fun hneeds => ⟨hother httl (by decide), hother httl (by decide), fun _ => hneeds,
      hother httl (by decide)⟩, fun hanswerable => hanswerable.ttl httl⟩
  · rw [answered_bench_iff h]
    exact ⟨fun hroom => ⟨hother hbench (by decide), hother hbench (by decide),
      hother hbench (by decide), fun _ => hroom⟩, fun hanswerable => hanswerable.bench hbench⟩
  · exact iff_of_true (answered_stats e env) ⟨hother hstats (by decide),
      hother hstats (by decide), hother hstats (by decide), hother hstats (by decide)⟩
  · exact iff_of_true (answered_refusal _ e) ⟨fun hname => absurd hname hset,
      fun hname => absurd hname hget, fun hname => absurd hname httl,
      fun hname => absurd hname hbench⟩

theorem execute_iff_at_start :
    Answered (execute (parse (ascii "SET k v")) (LSMEngine.start (ascii "./data") 10000 4194304)
      (ExecEnv.calm 1000)) (LSMEngine.start (ascii "./data") 10000 4194304) := by
  refine (execute_iff (Machine.run_nil _) (ascii "SET k v") (ExecEnv.calm 1000)).mpr ?_
  exact ⟨by decide, fun hname => absurd hname (by decide), fun hname => absurd hname (by decide),
    fun hname => absurd hname (by decide)⟩

/-- `TTL` with a word for a number: the exception leaves `execute`. -/
theorem ttl_not_answered :
    let e := LSMEngine.start (ascii "./data") 10000 4194304
    execute (parse (ascii "TTL k abc v")) e (ExecEnv.calm 1000) = .thrown ∧
      ¬ Answered (execute (parse (ascii "TTL k abc v")) e (ExecEnv.calm 1000)) e := by
  have hthrown : execute (parse (ascii "TTL k abc v"))
      (LSMEngine.start (ascii "./data") 10000 4194304) (ExecEnv.calm 1000) = .thrown := by decide
  refine ⟨hthrown, ?_⟩
  rw [hthrown]
  exact not_answered_thrown _

end Parser

end VaultDB
