import VaultDB.Library.Deadlines
import VaultDB.Responses
import VaultDB.Statistics
import VaultDB.TimeToLive

/-! # The service

What the server is for: keys that hold values, some of them until a deadline,
and two counters. The server refines this: whatever clients there are, however
their bytes arrive and whatever the background thread compacts, the exchanges
of all clients are one history of commands, each of them answered as the
service answers it after those in front (`server_serves`).
-/

namespace VaultDB

open Text Codec FileStream Expiring LSMEngine VaultDB.Parser

/-- What the keys hold, and the calls that `STATS` counts. -/
structure Service where
  held : Deadlines.Store Bytes Bytes Int
  writes : Nat
  reads : Nat

namespace Service

def empty : Service := ⟨fun _ => none, 0, 0⟩

def store (s : Service) (key : Bytes) (h : Deadlines.Held Bytes Int) : Service :=
  { s with held := Function.update s.held key (some h), writes := s.writes + 1 }

def forget (s : Service) (key : Bytes) : Service :=
  { s with held := Function.update s.held key none }

def countRead (s : Service) : Service := { s with reads := s.reads + 1 }

/-- The turns of `BENCH` from `i` on. -/
def bench (s : Service) : Nat → Nat → Service
  | 0, _ => s
  | left + 1, i =>
    bench (s.store (ascii "bench_key_" ++ decimal i) ⟨ascii "bench_value_" ++ decimal i, none⟩)
      left (i + 1)

def applySet (s : Service) (args : List Bytes) : Service :=
  match args with
  | key :: value :: values => s.store key ⟨join (value :: values), none⟩
  | _ => s

def applyGet (s : Service) (args : List Bytes) : Service :=
  match args with
  | [] => s
  | _ :: _ => s.countRead

def applyDel (s : Service) (args : List Bytes) : Service :=
  match args with
  | [] => s
  | key :: _ => s.forget key

/-- The clock, read at `nowNs`, gives the deadline in milliseconds. -/
def applyTtl (s : Service) (args : List Bytes) (nowNs : Int) : Service :=
  match args with
  | key :: seconds :: value :: values =>
    match stoi seconds with
    | none => s
    | some n => s.store key ⟨join (value :: values), some ((expiryNs nowNs n).tdiv (10 ^ 6))⟩
  | _ => s

def applyBench (s : Service) (args : List Bytes) : Service :=
  match benchCount args with
  | none => s
  | some n => s.bench n.toNat 0

/-- What a command does. -/
def apply (s : Service) (cmd : Command) (nowNs : Int) : Service :=
  if cmd.name = ascii "PING" then s
  else if cmd.name = ascii "SET" then s.applySet cmd.args
  else if cmd.name = ascii "GET" then s.applyGet cmd.args
  else if cmd.name = ascii "DEL" then s.applyDel cmd.args
  else if cmd.name = ascii "TTL" then s.applyTtl cmd.args nowNs
  else if cmd.name = ascii "BENCH" then s.applyBench cmd.args
  else s

/-- A response that only depends on whether there are enough arguments. -/
def accepting (enough : Prop) [Decidable enough] (usage : Bytes) : Bytes :=
  if enough then ascii "OK\n" else ascii "ERROR Usage: " ++ usage ++ ascii "\n"

/-- The line that shows what was read. -/
def shown : Option Bytes → Bytes
  | some value => ascii "VALUE " ++ value ++ ascii "\n"
  | none => ascii "NULL\n"

def replyGet (s : Service) (args : List Bytes) (readMs : Nat) : Bytes :=
  match args with
  | [] => ascii "ERROR Usage: GET key\n"
  | key :: _ => shown (Deadlines.read s.held readMs key)

/-- What `BENCH` measures is left open. -/
def RepliesBench (args : List Bytes) (response : Bytes) : Prop :=
  match benchCount args with
  | none => response = ascii "ERROR Invalid number\n"
  | some n => ∃ ms : Int, response = ascii "OK " ++ decimalInt n ++ ascii " ops in " ++
      decimalInt ms ++ ascii "ms (" ++ decimalInt (castInt (opsPerSec n ms)) ++
      ascii " ops/sec)\n"

/-- The counts are shown in 64 bits. What else `STATS` shows is left open. -/
def RepliesStats (s : Service) (response : Bytes) : Prop :=
  ∃ hits rest, hits ≤ s.reads ∧
    response = ascii "STATS" ++ ascii " writes=" ++ decimal (s.writes % 2 ^ 64) ++
      ascii " reads=" ++ decimal (s.reads % 2 ^ 64) ++ ascii " cache_hits=" ++
      decimal (hits % 2 ^ 64) ++ rest

/-- The responses the service may give, the key being read at millisecond
`readMs`. -/
def Replies (s : Service) (cmd : Command) (readMs : Nat) (response : Bytes) : Prop :=
  if cmd.name = ascii "PING" then response = ascii "PONG\n"
  else if cmd.name = ascii "SET" then
    response = accepting (2 ≤ cmd.args.length) (ascii "SET key value")
  else if cmd.name = ascii "GET" then response = s.replyGet cmd.args readMs
  else if cmd.name = ascii "DEL" then
    response = accepting (1 ≤ cmd.args.length) (ascii "DEL key")
  else if cmd.name = ascii "TTL" then
    response = accepting (3 ≤ cmd.args.length) (ascii "TTL key seconds value")
  else if cmd.name = ascii "BENCH" then RepliesBench cmd.args response
  else if cmd.name = ascii "STATS" then s.RepliesStats response
  else response = ascii "ERROR Unknown command: " ++ cmd.name ++ ascii "\n"

/-! ## What the engine's events stand for -/

/-- The service is what the writes among the events make, with what they count. -/
structure Holds (s : Service) (evs : List Event) : Prop where
  held : s.held = Deadlines.ofRaw marks (PlainMap.after evs)
  writes : s.writes = evs.countP fun ev => isWrite ev.op
  reads : s.reads = evs.countP fun ev => isRead ev.op

theorem holds_empty : empty.Holds [] := ⟨rfl, rfl, rfl⟩

variable {s : Service} {evs : List Event} {env : ExecEnv} {i : Nat} {key value : Bytes}

/-- Compactions are not seen. -/
theorem Holds.background (h : s.Holds evs) (merges : List Env) :
    s.Holds (evs ++ merges.map (Event.mk .compact)) := by
  induction merges using List.reverseRecOn with
  | nil => simpa using h
  | append_singleton merges merge ih =>
      rw [List.map_append, ← List.append_assoc]
      refine ⟨?_, ?_, ?_⟩
      · rw [List.map_singleton, PlainMap.after_concat]
        exact ih.held
      · rw [List.map_singleton, List.countP_append, ← ih.writes]
        rfl
      · rw [List.map_singleton, List.countP_append, ← ih.reads]
        rfl

theorem Holds.set (h : s.Holds evs) {held : Deadlines.Held Bytes Int}
    (hdecode : Deadlines.decode marks value = some held) :
    (s.store key held).Holds (evs ++ callEvents env i (.set key value)) := by
  have hback := h.background (env.merges i)
  unfold callEvents
  rw [← List.append_assoc]
  refine ⟨?_, ?_, ?_⟩
  · rw [PlainMap.after_concat, PlainMap.apply, Deadlines.ofRaw_update, hdecode, ← hback.held]
    rfl
  · rw [List.countP_append, ← hback.writes]
    rfl
  · rw [List.countP_append, ← hback.reads]
    rfl

theorem Holds.get (h : s.Holds evs) :
    s.countRead.Holds (evs ++ callEvents env i (.get key)) := by
  have hback := h.background (env.merges i)
  unfold callEvents
  rw [← List.append_assoc]
  refine ⟨?_, ?_, ?_⟩
  · rw [PlainMap.after_concat, PlainMap.apply, ← hback.held]
    rfl
  · rw [List.countP_append, ← hback.writes]
    rfl
  · rw [List.countP_append, ← hback.reads]
    rfl

theorem Holds.del (h : s.Holds evs) :
    (s.forget key).Holds (evs ++ callEvents env i (.del key)) := by
  have hback := h.background (env.merges i)
  have hmark : Deadlines.decode marks TOMBSTONE = none := Deadlines.decode_tomb marks
  unfold callEvents
  rw [← List.append_assoc]
  refine ⟨?_, ?_, ?_⟩
  · rw [PlainMap.after_concat, PlainMap.apply, Deadlines.ofRaw_update, hmark, ← hback.held]
    rfl
  · rw [List.countP_append, ← hback.writes]
    rfl
  · rw [List.countP_append, ← hback.reads]
    rfl

theorem decode_of_plain (h : Plain value) : Deadlines.decode marks value = some ⟨value, none⟩ :=
  Deadlines.decode_plain h.1 h.2

theorem plain_bench (i : Nat) : Plain (ascii "bench_value_" ++ decimal i) := by
  refine ⟨?_, parseExpiry_eq_none ?_⟩
  · intro heq
    have hhead := congrArg List.head? heq
    rw [List.head?_append_of_ne_nil _ (by decide)] at hhead
    exact absurd hhead (by decide)
  · rintro ⟨rest, heq⟩
    have hhead := congrArg List.head? heq
    rw [List.head?_append_of_ne_nil _ (by decide), List.head?_append_of_ne_nil _ (by decide)]
      at hhead
    exact absurd hhead (by decide)

theorem Holds.bench (h : s.Holds evs) (left i : Nat) :
    (s.bench left i).Holds (evs ++ benchLoopEvents env left i) := by
  induction left generalizing s evs i with
  | zero => simpa [benchLoopEvents, Service.bench] using h
  | succ left ih =>
      unfold benchLoopEvents Service.bench
      rw [← List.append_assoc]
      exact ih (h.set (decode_of_plain (plain_bench i))) (i + 1)

theorem decode_expiryValue {expiryMs : Int} (h : FitsInt64 expiryMs) (value : Bytes) :
    Deadlines.decode marks (expiryValue expiryMs value) = some ⟨value, some expiryMs⟩ := by
  have hparse := parseExpiry_expiryValue h value
  refine Deadlines.decode_until ?_ hparse
  intro heq
  have hmark : expiryValue expiryMs value = TOMBSTONE := heq
  rw [hmark, parseExpiry_tombstone] at hparse
  cases hparse

/-! ## Commands -/

/-- A `SET` whose value says of itself neither that it is deleted nor until when
it is held. -/
def PlainSet (cmd : Command) : Prop :=
  cmd.name = ascii "SET" → 2 ≤ cmd.args.length → Plain (join cmd.args.tail)

instance (cmd : Command) : Decidable (PlainSet cmd) := inferInstanceAs (Decidable (_ → _ → _))

theorem Holds.applySet (h : s.Holds evs) {args : List Bytes}
    (hplain : 2 ≤ args.length → Plain (join args.tail)) :
    (s.applySet args).Holds (evs ++ setEvents args env) := by
  unfold Service.applySet setEvents
  split
  · rename_i key value values
    exact h.set (decode_of_plain (hplain (by simp)))
  · simpa using h

theorem Holds.applyGet (h : s.Holds evs) (args : List Bytes) :
    (s.applyGet args).Holds (evs ++ getEvents args env) := by
  unfold Service.applyGet getEvents
  cases args with
  | nil => simpa using h
  | cons key args => exact h.get

theorem Holds.applyDel (h : s.Holds evs) (args : List Bytes) :
    (s.applyDel args).Holds (evs ++ delEvents args env) := by
  unfold Service.applyDel delEvents
  cases args with
  | nil => simpa using h
  | cons key args => exact h.del

/-- A deadline that the clock can express is read back. -/
theorem Holds.applyTtl (h : s.Holds evs) {args : List Bytes} {e e' : LSMEngine} {r : Bytes}
    (hexecute : executeTtl args e env = .returned r e') :
    (s.applyTtl args env.nowNs).Holds (evs ++ ttlEvents args env) := by
  unfold executeTtl at hexecute
  unfold Service.applyTtl ttlEvents
  split
  · rename_i key seconds value values
    dsimp only at hexecute ⊢
    cases hstoi : stoi seconds with
    | none => simpa using h
    | some n =>
        simp only [hstoi] at hexecute
        split_ifs at hexecute with hfits
        exact h.set (decode_expiryValue (fitsInt64_tdiv hfits) _)
  · simpa using h

theorem Holds.applyBench (h : s.Holds evs) (args : List Bytes) :
    (s.applyBench args).Holds (evs ++ benchEvents args env) := by
  unfold Service.applyBench benchEvents
  cases benchCount args with
  | none => simpa using h
  | some n => exact h.bench n.toNat 0

/-- After what a command does to the engine, the service has done the command. -/
theorem Holds.apply (h : s.Holds evs) {cmd : Command} (hplain : PlainSet cmd) {e e' : LSMEngine}
    {r : Bytes} (hexecute : execute cmd e env = .returned r e') :
    (s.apply cmd env.nowNs).Holds (evs ++ events cmd env) := by
  unfold execute at hexecute
  unfold Service.apply events
  split_ifs at hexecute ⊢ with hping hset
  · simpa using h
  · exact h.applySet (hplain hset)
  · exact h.applyGet _
  · exact h.applyDel _
  · exact h.applyTtl hexecute
  · exact h.applyBench _
  · exact h.background (env.merges 0)
  · simpa using h

end Service

/-! ## Responses -/

namespace Parser

variable {e e' : LSMEngine} {args : List Bytes} {env : ExecEnv} {r : Bytes}

/-- A command that returns is a run of the engine. -/
theorem execute_run {cmd : Command} (h : execute cmd e env = .returned r e') :
    Machine.run LSMEngine.step e (events cmd env) = some e' := by
  unfold execute at h
  unfold events
  split_ifs at h ⊢
  · cases h
    rfl
  · exact (executeSet_run h).1
  · exact executeGet_run h
  · exact (executeDel_run h).1
  · exact (executeTtl_run h).1
  · exact (executeBench_run h).1
  · exact (executeStats_run h).1
  · cases h
    rfl

theorem response_set (h : executeSet args e env = .returned r e') :
    r = Service.accepting (2 ≤ args.length) (ascii "SET key value") := by
  unfold executeSet at h
  split at h
  · rw [(of_respond h).1]
    exact (if_pos (by simp)).symm
  · rename_i hfew
    cases h
    refine (if_neg ?_).symm
    intro hlen
    rcases args with _ | ⟨key, _ | ⟨value, values⟩⟩
    · simp at hlen
    · simp at hlen
    · exact hfew key value values rfl

theorem response_del (h : executeDel args e env = .returned r e') :
    r = Service.accepting (1 ≤ args.length) (ascii "DEL key") := by
  unfold executeDel at h
  cases args with
  | nil =>
      cases h
      rfl
  | cons key args =>
      rw [(of_respond h).1]
      exact (if_pos (by simp)).symm

theorem response_ttl (h : executeTtl args e env = .returned r e') :
    r = Service.accepting (3 ≤ args.length) (ascii "TTL key seconds value") := by
  unfold executeTtl at h
  split at h
  · rename_i key seconds value values
    cases hstoi : stoi seconds with
    | none =>
        rw [hstoi] at h
        cases h
    | some n =>
        simp only [hstoi] at h
        split_ifs at h
        rw [(of_respond h).1]
        exact (if_pos (by simp)).symm
  · rename_i hfew
    cases h
    refine (if_neg ?_).symm
    intro hlen
    rcases args with _ | ⟨key, _ | ⟨seconds, _ | ⟨value, values⟩⟩⟩
    · simp at hlen
    · simp at hlen
    · simp at hlen
    · exact hfew key seconds value values rfl

theorem response_bench (h : executeBench args e env = .returned r e') :
    Service.RepliesBench args r := by
  unfold executeBench at h
  unfold Service.RepliesBench
  cases hcount : benchCount args with
  | none =>
      rw [hcount] at h
      cases h
      rfl
  | some n =>
      simp only [hcount] at h
      exact ⟨env.durationMs, (of_respond h).1⟩

theorem response_stats (h : executeStats e env = .returned r e') :
    ∃ rest, r = ascii "STATS" ++ ascii " writes=" ++
      decimal (e.background (env.merges 0)).writeCount.toNat ++ ascii " reads=" ++
      decimal (e.background (env.merges 0)).readCount.toNat ++ ascii " cache_hits=" ++
      decimal (e.background (env.merges 0)).cacheHits.toNat ++ rest := by
  unfold executeStats at h
  simp only [Outcome.returned.injEq] at h
  rw [← h.1]
  simp only [List.append_assoc, LSMEngine.getStats, List.append_cancel_left_eq]
  exact ⟨_, rfl⟩

theorem response_get {key : Bytes} (h : executeGet (key :: args) e env = .returned r e') :
    ∃ found, (e.background (env.merges 0)).answer key (env.calls 0).now = some found ∧
      r = Service.shown found := by
  unfold executeGet LSMEngine.answer at *
  dsimp only at h
  split at h
  · cases h
  · rename_i value e₁ hget
    cases h
    rw [hget]
    exact ⟨some value, rfl, rfl⟩
  · rename_i e₁ hget
    cases h
    rw [hget]
    exact ⟨none, rfl, rfl⟩

end Parser

namespace Service

variable {s : Service} {evs : List Event} {env : ExecEnv}

/-- No device fails, lengths fit, no two files get one name, and the clock does
not go back. -/
structure Steady (dataDir : Bytes) (cacheSize : Nat) (threshold : UInt64)
    (evs : List Event) : Prop where
  io : ∀ ev ∈ evs, NoIoError ev
  fits : ∀ ev ∈ evs, OpFits ev.op
  names : (Machine.trace LSMEngine.step nameReadings (start dataDir cacheSize threshold)
    evs).Nodup
  clock : evs.Pairwise fun ev ev' => ev.env.now ≤ ev'.env.now

variable {dataDir : Bytes} {cacheSize : Nat} {threshold : UInt64}

theorem Steady.isPrefix {pre : List Event} (h : Steady dataDir cacheSize threshold evs)
    (hpre : pre <+: evs) : Steady dataDir cacheSize threshold pre := by
  rcases hpre with ⟨post, rfl⟩
  exact ⟨fun ev hev => h.io ev (List.mem_append_left _ hev),
    fun ev hev => h.fits ev (List.mem_append_left _ hev),
    h.names.sublist (Machine.isPrefix_trace _ pre post).sublist,
    (List.pairwise_append.mp h.clock).1⟩

/-- A read at the end of a steady run finds what the service holds. -/
theorem Holds.read (h : s.Holds evs) {ev : Event}
    (hsteady : Steady dataDir cacheSize threshold (evs ++ [ev])) {e : LSMEngine}
    (hrun : Machine.run LSMEngine.step (start dataDir cacheSize threshold) evs = some e)
    (key : Bytes) :
    e.answer key ev.env.now = some (Deadlines.read s.held (ev.env.now : Int) key) := by
  have hpre := hsteady.isPrefix (List.prefix_append evs [ev])
  have halong := along_orderly hpre.io hpre.fits hpre.names
  have hnow : ∀ ev' ∈ evs, ev'.env.now ≤ ev.env.now :=
    fun ev' hev' => (List.pairwise_append.mp hsteady.clock).2.2 ev' hev' ev (by simp)
  rw [answer_run halong hrun hnow, h.held, Deadlines.read_ofRaw]
  rfl

/-- The counters that `get_stats` reads are those of the service, in 64 bits. -/
theorem Holds.stats (h : s.Holds evs) {e : LSMEngine}
    (hrun : Machine.run LSMEngine.step (start dataDir cacheSize threshold) evs = some e) :
    e.writeCount.toNat = s.writes % 2 ^ 64 ∧ e.readCount.toNat = s.reads % 2 ^ 64 ∧
      ∃ hits, hits ≤ s.reads ∧ e.cacheHits.toNat = hits % 2 ^ 64 := by
  obtain ⟨hwrites, hreads, hhits⟩ := counts_run hrun
  rw [h.writes, h.reads, hwrites, hreads, hhits]
  exact ⟨UInt64.toNat_ofNat', UInt64.toNat_ofNat', _, hitCount_le hrun, UInt64.toNat_ofNat'⟩

/-- A command at the end of a steady run is answered as the service answers it. -/
theorem Holds.replies (h : s.Holds evs) {cmd : Command}
    (hsteady : Steady dataDir cacheSize threshold (evs ++ events cmd env)) {e e' : LSMEngine}
    (hrun : Machine.run LSMEngine.step (start dataDir cacheSize threshold) evs = some e)
    {r : Bytes} (hexecute : execute cmd e env = .returned r e') :
    s.Replies cmd (env.calls 0).now r := by
  have hmerged : Machine.run LSMEngine.step (start dataDir cacheSize threshold)
      (evs ++ (env.merges 0).map (Event.mk .compact)) = some (e.background (env.merges 0)) :=
    Machine.run_append.mpr ⟨e, hrun, run_background e _⟩
  unfold execute at hexecute
  unfold events at hsteady
  unfold Replies
  split_ifs at hexecute hsteady ⊢
  · cases hexecute
    rfl
  · exact response_set hexecute
  · unfold getEvents callEvents at hsteady
    unfold replyGet
    cases hargs : cmd.args with
    | nil =>
        rw [hargs] at hexecute
        cases hexecute
        rfl
    | cons key args =>
        rw [hargs] at hexecute
        simp only [hargs] at hsteady
        rw [← List.append_assoc] at hsteady
        rcases response_get hexecute with ⟨found, hanswer, rfl⟩
        have hread := (h.background (env.merges 0)).read hsteady hmerged key
        rw [hanswer] at hread
        rw [Option.some.inj hread]
  · exact response_del hexecute
  · exact response_ttl hexecute
  · exact response_bench hexecute
  · rcases (h.background (env.merges 0)).stats hmerged with
      ⟨hwrites, hreads, hits, hhits, heq⟩
    rcases response_stats hexecute with ⟨rest, rfl⟩
    rw [hwrites, hreads, heq]
    exact ⟨hits, rest, hhits, rfl⟩
  · cases hexecute
    rfl

end Service

end VaultDB
