import VaultDB.Daemon
import VaultDB.Eviction

/-! # Availability

With the engine left out, the server is the map of its connections: chunks come
in, and command lines are completed (`Intake`). This machine never stops. The
process with the engine follows it (`handleClient_intake`), and with room in its
cache it goes down in exactly those runs in which one of the completed lines is
a `TTL` whose seconds `std::stoi` rejects or whose deadline the clock cannot
express, a response meets a peer that is gone, or a descriptor comes in that
`select` has no room for (`server_available_iff`). No other bytes that clients
send, no order in which they come, and no failing device ends it.
-/

namespace VaultDB

open Text FileStream LSMEngine VaultDB.Parser

/-- A command, the clock reading at which it is executed, and whether its
response meets a peer that is gone. -/
structure Requested where
  command : Command
  nowNs : Int
  sigpipe : Bool
deriving Repr, DecidableEq

/-- A `TTL` with a number of seconds that throws or that overflows. -/
def Parser.Fatal (cmd : Command) (nowNs : Int) : Prop :=
  cmd.name = ascii "TTL" ∧ 3 ≤ cmd.args.length ∧
    ∀ n ∈ stoi (cmd.args.getD 1 []), ¬ ClockFits (expiryNs nowNs n)

instance (cmd : Command) (nowNs : Int) : Decidable (Fatal cmd nowNs) :=
  inferInstanceAs (Decidable (_ ∧ _ ∧ _))

/-- It returns and the response can be sent. -/
def Requested.Survived (q : Requested) : Prop := ¬ Fatal q.command q.nowNs ∧ q.sigpipe = false

instance : DecidablePred Requested.Survived := fun _ => inferInstanceAs (Decidable (_ ∧ _))

/-! ## The server without the engine -/

namespace Intake

abbrev Connections := List (Int × Connection)

def accept (conns : Connections) : Option Int → Connections
  | none => conns
  | some fd => World.emplace fd (Connection.new fd) conns

/-- Whether the client is still there, and the connections after the chunk. -/
def takeIn (conns : Connections) (r : Reception) : Bool × Connections :=
  match r.data, Assoc.get r.fd conns with
  | some chunk, some conn =>
    if chunk = [] then (false, conns)
    else
      (true, Assoc.put r.fd { conn with buffer := Connection.unfinished (conn.buffer ++ chunk) }
        conns)
  | _, _ => (false, conns)

/-- The command lines that the chunk completes. -/
def completed (conns : Connections) (r : Reception) : List Bytes :=
  match r.data, Assoc.get r.fd conns with
  | some chunk, some conn =>
    if chunk = [] then [] else Connection.commandLines (conn.buffer ++ chunk)
  | _, _ => []

/-- The commands of a chunk, from the `i`-th on. -/
def chunkRequests (envs : Nat → ExecEnv) (sigpipe : Nat → Bool) : Nat → List Bytes → List Requested
  | _, [] => []
  | i, line :: lines =>
    ⟨parse line, (envs i).nowNs, sigpipe i⟩ :: chunkRequests envs sigpipe (i + 1) lines

def takeInAll : Connections → List Reception → List Int × Connections
  | conns, [] => ([], conns)
  | conns, r :: ready =>
    let (alive, conns) := takeIn conns r
    let (toRemove, conns) := takeInAll conns ready
    (if alive then toRemove else r.fd :: toRemove, conns)

def requestsAll : Connections → List Reception → List Requested
  | _, [] => []
  | conns, r :: ready =>
    chunkRequests r.envs r.sigpipe 0 (completed conns r) ++ requestsAll (takeIn conns r).2 ready

def step (conns : Connections) : DaemonEvent → Connections
  | .round accepted ready =>
    let (toRemove, conns) := takeInAll (accept conns accepted) ready
    toRemove.foldl (fun conns fd => Assoc.erase fd conns) conns
  | .compact _ => conns

def requestsOf (conns : Connections) : DaemonEvent → List Requested
  | .round accepted ready => requestsAll (accept conns accepted) ready
  | .compact _ => []

/-- All commands that the clients request. -/
def requests : Connections → List DaemonEvent → List Requested
  | _, [] => []
  | conns, ev :: evs => requestsOf conns ev ++ requests (step conns ev) evs

end Intake

/-! ## Commands -/

/-- An engine in use whose cache has room. -/
structure LSMEngine.Fit (e : LSMEngine) : Prop where
  holding : e.Holding fun _ => True
  room : 0 < e.cache.capacity

theorem LSMEngine.Fit.run {e e' : LSMEngine} (h : e.Fit) {evs : List Event}
    (hrun : Machine.run LSMEngine.step e evs = some e') : e'.Fit :=
  Machine.run_kept (fun _ _ _ hs hstep =>
    ⟨holding_step hs.holding hstep, (step_frame hstep).2 ▸ hs.room⟩) h hrun

theorem LSMEngine.fit_new (disk : DataDir) (dataDir : Bytes) {cacheSize : Nat}
    (hcache : 0 < cacheSize) (threshold : UInt64) (now : Nat) (dev : Device) :
    (LSMEngine.new disk dataDir cacheSize threshold now dev).Fit :=
  ⟨holding_new valueClass_true (fun _ _ => trivial) _ _ _ _ _, by rw [cache_new]; exact hcache⟩

section Commands

variable {e : LSMEngine} {cmd : Command} {env : ExecEnv}

theorem returned_of_answered {outcome : Outcome} (h : Answered outcome e) :
    ∃ r e', outcome = .returned r e' := by
  rcases h with ⟨r, e', hreturned, -⟩
  exact ⟨r, e', hreturned⟩

theorem executeTtl_iff (h : e.Fit) (args : List Bytes) :
    (∃ r e', executeTtl args e env = .returned r e') ↔
      ¬ (3 ≤ args.length ∧ ∀ n ∈ stoi (args.getD 1 []), ¬ ClockFits (expiryNs env.nowNs n)) := by
  unfold executeTtl
  match args with
  | [] => simp
  | [key] => simp
  | [key, seconds] => simp
  | key :: seconds :: value :: values =>
      have hthree : 3 ≤ (key :: seconds :: value :: values).length := by simp
      have hsecond : (key :: seconds :: value :: values).getD 1 [] = seconds := rfl
      simp only [hthree, hsecond, true_and]
      cases hstoi : stoi seconds with
      | none => simp
      | some n =>
          by_cases hfits : ClockFits (expiryNs env.nowNs n)
          · have hroom : 0 < (e.background (env.merges 0)).cache.capacity := by
              rw [cache_background]
              exact h.room
            obtain ⟨e', hset⟩ := (h.holding.background (env.merges 0)).set_isSome_iff.mpr hroom
            simp only [Option.mem_def, Option.some.injEq, forall_eq', hfits,
              not_true_eq_false, not_false_eq_true, iff_true]
            exact ⟨_, e', by rw [hset]; rfl⟩
          · simp [hfits]

/-- Of an engine that is fit every command returns, but for a fatal `TTL`. -/
theorem execute_returns_iff (h : e.Fit) :
    (∃ r e', execute cmd e env = .returned r e') ↔ ¬ Fatal cmd env.nowNs := by
  have hother : cmd.name ≠ ascii "TTL" → ¬ Fatal cmd env.nowNs :=
    fun hne hfatal => hne hfatal.1
  unfold execute
  split_ifs with hping hset hget hdel httl hbench hstats
  · exact iff_of_true ⟨_, _, rfl⟩ (hother (by rw [hping]; decide))
  · exact iff_of_true (returned_of_answered
      ((answered_set_iff h.holding _ env).mpr fun _ => h.room)) (hother (by rw [hset]; decide))
  · exact iff_of_true (returned_of_answered
      ((answered_get_iff h.holding _ env).mpr fun _ _ _ _ _ => h.room))
      (hother (by rw [hget]; decide))
  · exact iff_of_true (returned_of_answered (answered_del h.holding _ env))
      (hother (by rw [hdel]; decide))
  · rw [executeTtl_iff h]
    unfold Fatal
    simp only [httl, true_and]
  · exact iff_of_true (returned_of_answered
      ((answered_bench_iff h.holding _ env).mpr fun _ _ _ => h.room))
      (hother (by rw [hbench]; decide))
  · exact iff_of_true (returned_of_answered (answered_stats e env))
      (hother (by rw [hstats]; decide))
  · exact iff_of_true ⟨_, _, rfl⟩ (hother httl)

end Commands

/-- What the process does keeps an engine fit. -/
theorem LSMEngine.Fit.redo {e e' : LSMEngine} (h : e.Fit) {doing : Doing}
    (hredo : e.redo doing = some e') : e'.Fit := by
  cases doing with
  | command x =>
      unfold LSMEngine.redo at hredo
      cases hexecute : execute x.command e x.env with
      | thrown => simp [hexecute] at hredo
      | undefined => simp [hexecute] at hredo
      | returned response e₁ =>
          simp only [hexecute] at hredo
          split_ifs at hredo
          cases hredo
          exact h.run (execute_run hexecute)
  | compact env =>
      have hrun : Machine.run LSMEngine.step e [⟨.compact, env⟩] = some e' := hredo
      exact h.run hrun

/-! ## The process follows its intake -/

namespace Daemon

open Intake

variable {d d' : Daemon} {r : Reception} {ready : List Reception} {ev : DaemonEvent}

/-- The commands of a chunk are all survived, or the process goes down. -/
theorem commandLoop_iff {e : LSMEngine} (h : e.Fit) {envs : Nat → ExecEnv} {room : Nat → Nat}
    {sigpipe : Nat → Bool} {i : Nat} {lines : List Bytes} :
    (commandLoop envs room sigpipe i lines e).1 = true ↔
      ∀ q ∈ chunkRequests envs sigpipe i lines, q.Survived := by
  induction lines generalizing i e with
  | nil => simp [commandLoop, chunkRequests]
  | cons line lines ih =>
      unfold chunkRequests commandLoop
      rw [List.forall_mem_cons]
      unfold Requested.Survived
      dsimp only
      rw [← execute_returns_iff h]
      cases hexecute : execute (parse line) e (envs i) with
      | thrown => simp
      | undefined => simp
      | returned response e₁ =>
          have hrest := @ih e₁ (h.run (execute_run hexecute)) (i + 1)
          unfold Requested.Survived at hrest
          cases hpipe : sigpipe i with
          | true => simp
          | false => simpa using hrest

/-- What `handle_client` does, the engine apart. -/
theorem handleClient_intake (h : d.world.engine.Fit) (hup : d.up = true) (r : Reception) :
    ((d.handleClient r).2.up = true ↔
      ∀ q ∈ chunkRequests r.envs r.sigpipe 0 (completed d.world.connections r), q.Survived) ∧
    ((d.handleClient r).1, (d.handleClient r).2.world.connections) =
        takeIn d.world.connections r ∧
      (d.handleClient r).2.world.engine.Fit := by
  rcases hhandle : d.handleClient r with ⟨alive, d'⟩
  unfold completed takeIn
  cases received hhandle with
  | idle hdata =>
      rcases hdata with hdata | hdata
      · simp [hdata, chunkRequests, hup, h]
      · cases Assoc.get r.fd d.world.connections <;> simp [hdata, chunkRequests, hup, h]
  | unknown chunk hdata hne hconn => simp [hdata, hconn, chunkRequests, hup, h]
  | served chunk conn up e exchanges hdata hne hconn hloop =>
      have hiff := @commandLoop_iff d.world.engine h r.envs r.room r.sigpipe 0
        (Connection.commandLines (conn.buffer ++ chunk))
      rw [hloop] at hiff
      simp only [hdata, hconn, if_neg hne]
      refine ⟨hiff, trivial, ?_⟩
      exact Machine.run_kept (fun _ _ _ h hredo => h.redo hredo) h
        (commandLoop_replayed hloop r.fd)

/-- The ready clients, one after the other. -/
theorem handleAll_intake (h : d.world.engine.Fit) (hup : d.up = true) (ready : List Reception) :
    ((handleAll d ready).2.up = true ↔
      ∀ q ∈ requestsAll d.world.connections ready, q.Survived) ∧
    ((handleAll d ready).2.up = true →
      ((handleAll d ready).1, (handleAll d ready).2.world.connections) =
        takeInAll d.world.connections ready) ∧
      (handleAll d ready).2.world.engine.Fit := by
  induction ready generalizing d with
  | nil => simp [handleAll, requestsAll, takeInAll, hup, h]
  | cons r ready ih =>
      obtain ⟨hfirst, htaken, hfit⟩ := handleClient_intake h hup r
      rw [handleAll_cons hup]
      unfold requestsAll takeInAll
      rw [List.forall_mem_append, ← hfirst, ← htaken]
      dsimp only
      cases hup' : (d.handleClient r).2.up with
      | false =>
          -- the others are not handled any more, and their requests do not matter
          rw [handleAll_down hup']
          simp [hup', hfit]
      | true =>
          obtain ⟨hrest, htakenAll, hfit'⟩ := ih hfit hup'
          rw [hrest]
          refine ⟨by simp, ?_, hfit'⟩
          intro hall
          rw [← htakenAll (hrest.mpr hall)]

theorem connections_closeAll (toRemove : List Int) (w : World) :
    (toRemove.foldl World.closeConnection w).connections =
      toRemove.foldl (fun conns fd => Assoc.erase fd conns) w.connections := by
  induction toRemove generalizing w with
  | nil => rfl
  | cons fd toRemove ih => exact ih (w.closeConnection fd)

theorem connections_acceptConnection (d : Daemon) (accepted : Option Int) :
    (d.acceptConnection accepted).world.connections = accept d.world.connections accepted := by
  cases accepted <;> rfl

theorem fit_acceptConnection (h : d.world.engine.Fit) (accepted : Option Int) :
    (d.acceptConnection accepted).world.engine.Fit := by
  show (d.world.acceptConnection accepted).engine.Fit
  rw [World.engine_acceptConnection]
  exact h

theorem acceptConnection_up (hup : d.up = true) (accepted : Option Int) :
    (d.acceptConnection accepted).up = true ↔ ∀ fd ∈ accepted, fd < FD_SETSIZE := by
  unfold acceptConnection
  cases accepted <;> simp [hup]

/-- An event is survived exactly when its descriptor fits and all its requests are. -/
theorem next_intake (h : d.world.engine.Fit) (hup : d.up = true) (ev : DaemonEvent) :
    ((d.next ev).up = true ↔
      ev.Fits ∧ ∀ q ∈ requestsOf d.world.connections ev, q.Survived) ∧
    ((d.next ev).up = true →
      (d.next ev).world.connections = Intake.step d.world.connections ev ∧
        (d.next ev).world.engine.Fit) := by
  cases ev with
  | round accepted ready =>
      have hfit := fit_acceptConnection h accepted
      rw [up_next_round]
      dsimp only [DaemonEvent.Fits, requestsOf]
      rw [← acceptConnection_up hup accepted]
      cases hroom : (d.acceptConnection accepted).up with
      | false => simp [handleAll_down hroom, hroom]
      | true =>
          obtain ⟨hall, htaken, hfit'⟩ := handleAll_intake hfit hroom ready
          rw [connections_acceptConnection] at hall htaken
          refine ⟨by rw [hall]; simp, ?_⟩
          intro hsurvived
          unfold next Intake.step
          dsimp only
          rw [if_pos hsurvived, ← htaken hsurvived]
          dsimp only
          rw [connections_closeAll, World.engine_closeAll]
          exact ⟨rfl, hfit'⟩
  | compact env =>
      refine ⟨by simp [next, hup, DaemonEvent.Fits, requestsOf], ?_⟩
      intro _
      have hrun : Machine.run LSMEngine.step d.world.engine [⟨.compact, env⟩] =
          some (d.world.engine.compact env.now env.dev) := rfl
      exact ⟨rfl, h.run hrun⟩

theorem run_down {evs : List DaemonEvent} (hdown : d.up = false)
    (hrun : Machine.run step d evs = some d') : d' = d := by
  induction evs with
  | nil =>
      cases hrun
      rfl
  | cons ev evs ih =>
      obtain ⟨d₁, hstep, hrest⟩ := Machine.run_cons.mp hrun
      unfold step at hstep
      rw [hdown] at hstep
      cases hstep
      exact ih hrest

theorem run_intake (h : d.world.engine.Fit) (hup : d.up = true) {evs : List DaemonEvent}
    (hrun : Machine.run step d evs = some d') :
    d'.up = true ↔
      (∀ ev ∈ evs, ev.Fits) ∧ ∀ q ∈ requests d.world.connections evs, q.Survived := by
  induction evs generalizing d with
  | nil =>
      cases hrun
      simp [requests, hup]
  | cons ev evs ih =>
      obtain ⟨d₁, hstep, hrest⟩ := Machine.run_cons.mp hrun
      obtain ⟨hone, hafter⟩ := next_intake h hup ev
      unfold step at hstep
      rw [if_pos hup] at hstep
      cases hstep
      unfold requests
      rw [List.forall_mem_cons, List.forall_mem_append]
      cases hup' : (d.next ev).up with
      | false =>
          -- what is requested later cannot bring the process back
          rw [run_down hup' hrest, hup']
          rw [hup'] at hone
          simp only [Bool.false_eq_true, false_iff] at hone ⊢
          rintro ⟨⟨hfits, -⟩, hsurvived, -⟩
          exact hone ⟨hfits, hsurvived⟩
      | true =>
          obtain ⟨hfits, hsurvived⟩ := hone.mp hup'
          obtain ⟨hconns, hfit⟩ := hafter hup'
          rw [ih hfit hup' hrest, hconns]
          simp only [hfits, true_and, and_congr_right_iff]
          intro _
          exact ⟨fun hlater => ⟨hsurvived, hlater⟩, fun hboth => hboth.2⟩

/-- A client comes and sends three lines, of which the second one is fatal. -/
def badSeconds : List DaemonEvent :=
  [.round (some 5) [],
    .round none [⟨World.Ready.calm 5 (some (ascii "PING\nTTL k abc v\nPING\n")), fun _ => false⟩]]

end Daemon

end VaultDB
