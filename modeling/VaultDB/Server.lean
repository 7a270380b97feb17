import VaultDB.Connection
import VaultDB.Parser

/-! # The event loop

`src/server/server.cpp`: one thread that waits for descriptors with `select`,
accepts a client, handles those from which there is something to read, and
then closes and forgets those that are gone.

A `World` is the server together with the operating system's side of its
descriptors: which of them are open, what each has delivered since its
`accept`, and what was sent to it. An event is one turn of the loop, a
background compaction between two turns, or a restart. As long as it goes on,
the commands executed for a client are those of its own stream, whatever
descriptors are used again (`Isolated.run`). What puts an end to it, and the
engine's part in the responses, is in `VaultDB.Daemon`.
-/

namespace VaultDB

open Text FileStream

/-- A command line, the response to it, and how many bytes of that `send` took. -/
structure Exchange where
  line : Bytes
  response : Bytes
  accepted : Nat
deriving Repr, DecidableEq

/-- What went through a descriptor since its `accept`. -/
structure Client where
  received : Bytes
  exchanges : List Exchange
deriving Repr, DecidableEq

def Client.new : Client := ⟨[], []⟩

structure World where
  engine : LSMEngine
  /-- `connections_`. -/
  connections : List (Int × Connection)
  /-- The descriptors of clients that are open. -/
  clients : List (Int × Client)
  /-- Those that have been closed. -/
  past : List (Int × Client)
deriving Repr, DecidableEq

/-- A descriptor that `select` reports: what `recv` returns (`none` for an
error, no bytes for the end of the stream), and for each command that is
completed its surroundings and the bytes that `send` has room for. -/
structure Ready where
  fd : Int
  data : Option Bytes
  envs : Nat → ExecEnv
  room : Nat → Nat

inductive ServerEvent where
  /-- One turn: the descriptor that `accept` returned, if there was one, and
  the clients that are ready, in the order of the map. -/
  | round (accepted : Option Int) (ready : List Ready)
  | compact (env : Env)
  /-- `stop`, and a new process on the directory. -/
  | restart (cacheSize : Nat) (memtableSizeBytes : UInt64) (env : Env)

namespace World

/-- A server that has just been started with an engine. -/
def start (engine : LSMEngine) : World := ⟨engine, [], [], []⟩

/-- `connections_.emplace`, which leaves an existing entry alone. -/
def emplace (fd : Int) (conn : Connection) (connections : List (Int × Connection)) :
    List (Int × Connection) :=
  if (Assoc.get fd connections).isSome then connections else Assoc.put fd conn connections

/-- `accept_connection`, for a descriptor that the sets of `select` have room for. -/
def acceptConnection (w : World) : Option Int → World
  | none => w
  | some fd =>
    { w with
      clients := Assoc.put fd Client.new w.clients
      connections := emplace fd (Connection.new fd) w.connections }

/-- Something goes through an open descriptor. -/
def update (fd : Int) (f : Client → Client) (clients : List (Int × Client)) :
    List (Int × Client) :=
  match Assoc.get fd clients with
  | some client => Assoc.put fd (f client) clients
  | none => clients

/-- The loop of `handle_client` over the commands of one chunk, from the `i`-th
on, where no `send` raises `SIGPIPE`. There is no state after a command that
does not return. -/
def commandLoop (envs : Nat → ExecEnv) (room : Nat → Nat) :
    Nat → List Bytes → LSMEngine → Option (LSMEngine × List Exchange)
  | _, [], e => some (e, [])
  | i, line :: lines, e =>
    match Parser.execute (Parser.parse line) e (envs i) with
    | .returned response e => do
      let (e, later) ← commandLoop envs room (i + 1) lines e
      return (e, ⟨line, response, min (room i) response.length⟩ :: later)
    | _ => none

/-- `handle_client`: whether the client is still there. -/
def handleClient (w : World) (r : Ready) : Option (Bool × World) :=
  match r.data with
  | none => some (false, w)
  | some [] => some (false, w)
  | some chunk =>
    let clients := update r.fd (fun c => { c with received := c.received ++ chunk }) w.clients
    match Assoc.get r.fd w.connections with
    | none => some (false, { w with clients := clients })
    | some conn => do
      let (commands, conn) ← (conn.appendData chunk).extractCommands
      let (engine, exchanges) ← commandLoop r.envs r.room 0 commands w.engine
      return (true,
        { w with
          engine := engine
          connections := Assoc.put r.fd conn w.connections
          clients := update r.fd (fun c => { c with exchanges := c.exchanges ++ exchanges })
            clients })

/-- The loop over the ready clients, with those to remove. -/
def handleAll : World → List Ready → Option (List Int × World)
  | w, [] => some ([], w)
  | w, r :: ready => do
    let (alive, w) ← w.handleClient r
    let (toRemove, w) ← handleAll w ready
    return (if alive then toRemove else r.fd :: toRemove, w)

/-- `close` and `erase`. -/
def closeConnection (w : World) (fd : Int) : World :=
  { w with
    connections := Assoc.erase fd w.connections
    clients := Assoc.erase fd w.clients
    past := w.past ++ ((Assoc.get fd w.clients).map fun client => (fd, client)).toList }

def step (w : World) : ServerEvent → Option World
  | .round accepted ready => do
    let (toRemove, w) ← handleAll (w.acceptConnection accepted) ready
    return toRemove.foldl closeConnection w
  | .compact env => some { w with engine := w.engine.compact env.now env.dev }
  | .restart cacheSize memtableSizeBytes env =>
    some
      { engine := LSMEngine.new w.engine.disk w.engine.dataDir cacheSize memtableSizeBytes env.now
          env.dev
        connections := []
        clients := []
        past := w.past ++ w.clients }

/-- `accept` returns a descriptor that is not open. -/
def AcceptsClosed (w : World) : ServerEvent → Prop
  | .round (some fd) _ => Assoc.get fd w.clients = none
  | _ => True

instance (w : World) : (ev : ServerEvent) → Decidable (AcceptsClosed w ev)
  | .round (some fd) _ => inferInstanceAs (Decidable (Assoc.get fd w.clients = none))
  | .round none _ => isTrue trivial
  | .compact _ => isTrue trivial
  | .restart _ _ _ => isTrue trivial

/-! ## Isolation -/

/-- The lines executed for the client are the lines of its own stream, in
order, and no `send` to it took more than its response. -/
structure Served (client : Client) : Prop where
  lines : client.exchanges.map Exchange.line = Connection.commandLines client.received
  accepted : ∀ x ∈ client.exchanges, x.accepted ≤ x.response.length

/-- The keys of the map are the open descriptors, and behind each stands what is
unfinished of that client's own stream. -/
def Keyed (w : World) : Prop :=
  ∀ fd, Assoc.get fd w.connections =
    (Assoc.get fd w.clients).map fun client => ⟨fd, Connection.unfinished client.received⟩

structure Isolated (w : World) : Prop where
  same : Keyed w
  served : ∀ p ∈ w.clients, Served p.2
  past : ∀ p ∈ w.past, Served p.2

theorem served_new : Served Client.new := by
  refine ⟨rfl, ?_⟩
  intro x hx
  cases hx

theorem get_update (fd fd' : Int) (f : Client → Client) (clients : List (Int × Client)) :
    Assoc.get fd' (update fd f clients) =
      if fd' = fd then (Assoc.get fd clients).map f else Assoc.get fd' clients := by
  unfold update
  by_cases hfd : fd' = fd
  · subst hfd
    rw [if_pos rfl]
    cases hget : Assoc.get fd' clients with
    | none => simp [hget]
    | some client => simp
  · rw [if_neg hfd]
    cases Assoc.get fd clients with
    | none => rfl
    | some client => exact Assoc.get_put_ne hfd _ _

theorem update_update (fd : Int) (f g : Client → Client) (clients : List (Int × Client)) :
    update fd g (update fd f clients) = update fd (fun c => g (f c)) clients := by
  unfold update
  cases hget : Assoc.get fd clients with
  | none => simp only [hget]
  | some client => simp only [Assoc.get_put_self, Assoc.put_put]

/-- One command is executed, and then the others. -/
theorem commandLoop_cons {envs : Nat → ExecEnv} {room : Nat → Nat} {i : Nat} {line : Bytes}
    {lines : List Bytes} {e e' : LSMEngine} {exchanges : List Exchange} :
    commandLoop envs room i (line :: lines) e = some (e', exchanges) ↔
      ∃ response e₁ later, Parser.execute (Parser.parse line) e (envs i) = .returned response e₁ ∧
        commandLoop envs room (i + 1) lines e₁ = some (e', later) ∧
        exchanges = ⟨line, response, min (room i) response.length⟩ :: later := by
  rw [commandLoop]
  cases hexecute : Parser.execute (Parser.parse line) e (envs i) with
  | thrown => simp
  | undefined => simp
  | returned response e₁ =>
      simp only [bind, Option.bind_eq_some_iff, Prod.exists, pure, Option.some.injEq,
        Prod.mk.injEq, Outcome.returned.injEq]
      constructor
      · rintro ⟨e₂, later, hlater, rfl, rfl⟩
        exact ⟨response, e₁, later, ⟨rfl, rfl⟩, hlater, rfl⟩
      · rintro ⟨_, _, later, ⟨rfl, rfl⟩, hlater, rfl⟩
        exact ⟨e', later, hlater, rfl, rfl⟩

/-- The commands of one chunk are executed in order, each with one response. -/
theorem commandLoop_spec {envs : Nat → ExecEnv} {room : Nat → Nat} {i : Nat} {lines : List Bytes}
    {e e' : LSMEngine} {exchanges : List Exchange}
    (h : commandLoop envs room i lines e = some (e', exchanges)) :
    exchanges.map Exchange.line = lines ∧
      ∀ x ∈ exchanges, x.accepted ≤ x.response.length := by
  induction lines generalizing i e exchanges with
  | nil =>
      simp only [commandLoop, Option.some.injEq, Prod.mk.injEq] at h
      rw [← h.2]
      simp
  | cons line lines ih =>
      rcases commandLoop_cons.mp h with ⟨response, e₁, later, hexecute, hlater, rfl⟩
      rcases ih hlater with ⟨hlines, haccepted⟩
      refine ⟨by rw [List.map_cons, hlines], ?_⟩
      intro x hx
      rcases List.mem_cons.mp hx with rfl | hx
      · exact Nat.min_le_right _ _
      · exact haccepted x hx

/-- What was served stays so when a chunk comes and its commands are answered. -/
theorem Served.receive {client : Client} (h : Served client) {chunk : Bytes}
    {exchanges : List Exchange}
    (hlines : exchanges.map Exchange.line =
      Connection.commandLines (Connection.unfinished client.received ++ chunk))
    (haccepted : ∀ x ∈ exchanges, x.accepted ≤ x.response.length) :
    Served ⟨client.received ++ chunk, client.exchanges ++ exchanges⟩ := by
  refine ⟨?_, ?_⟩
  · rw [List.map_append, h.lines, hlines, ← Connection.commandLines_append]
  · intro x hx
    rcases List.mem_append.mp hx with hx | hx
    · exact h.accepted x hx
    · exact haccepted x hx

theorem isolated_start (engine : LSMEngine) : Isolated (start engine) := by
  refine ⟨fun _ => rfl, ?_, ?_⟩
  · intro p hp
    cases hp
  · intro p hp
    cases hp

/-- A descriptor that is not open has no entry, so `emplace` makes a new one. -/
theorem Keyed.acceptConnection {w : World} (h : Keyed w) {accepted : Option Int}
    (hclosed : ∀ fd, accepted = some fd → Assoc.get fd w.clients = none) :
    Keyed (w.acceptConnection accepted) := by
  cases accepted with
  | none => exact h
  | some fd =>
      have hnone : Assoc.get fd w.connections = none := by
        rw [h, hclosed fd rfl]
        rfl
      have hnew : emplace fd (Connection.new fd) w.connections =
          Assoc.put fd (Connection.new fd) w.connections := by
        unfold emplace
        rw [hnone]
        rfl
      intro fd'
      show Assoc.get fd' (emplace fd (Connection.new fd) w.connections) =
        (Assoc.get fd' (Assoc.put fd Client.new w.clients)).map _
      rw [hnew]
      by_cases hfd : fd' = fd
      · rw [hfd, Assoc.get_put_self, Assoc.get_put_self]
        rfl
      · rw [Assoc.get_put_ne hfd, Assoc.get_put_ne hfd]
        exact h fd'

/-- Bytes for no connection are for no client. -/
theorem Keyed.update_unknown {w : World} (h : Keyed w) {fd : Int}
    (hconn : Assoc.get fd w.connections = none) (f : Client → Client) :
    update fd f w.clients = w.clients := by
  rw [h, Option.map_eq_none_iff] at hconn
  unfold update
  rw [hconn]

/-- A chunk goes to the buffer and to the client of one descriptor. -/
theorem Keyed.receive {w : World} (h : Keyed w) {fd : Int} {conn : Connection}
    (hconn : Assoc.get fd w.connections = some conn) (chunk : Bytes) (exchanges : List Exchange)
    (engine : LSMEngine) :
    Keyed { w with
      engine := engine
      connections := Assoc.put fd
        { conn with buffer := Connection.unfinished (conn.buffer ++ chunk) } w.connections
      clients := update fd (fun c => ⟨c.received ++ chunk, c.exchanges ++ exchanges⟩)
        w.clients } := by
  rw [h] at hconn
  rcases Option.map_eq_some_iff.mp hconn with ⟨client, hclient, rfl⟩
  intro fd'
  rw [get_update]
  by_cases hfd : fd' = fd
  · subst hfd
    rw [if_pos rfl, Assoc.get_put_self, hclient]
    simp only [Option.map_some]
    rw [← Connection.unfinished_append]
  · rw [if_neg hfd, Assoc.get_put_ne hfd]
    exact h fd'

theorem Keyed.closeConnection {w : World} (h : Keyed w) (fd : Int) :
    Keyed (w.closeConnection fd) := by
  intro fd'
  show Assoc.get fd' (Assoc.erase fd w.connections) =
    (Assoc.get fd' (Assoc.erase fd w.clients)).map _
  by_cases hfd : fd' = fd
  · rw [hfd, Assoc.get_erase_self, Assoc.get_erase_self]
    rfl
  · rw [Assoc.get_erase_ne hfd, Assoc.get_erase_ne hfd]
    exact h fd'

theorem Isolated.acceptConnection {w : World} (h : Isolated w) {accepted : Option Int}
    (hclosed : ∀ fd, accepted = some fd → Assoc.get fd w.clients = none) :
    Isolated (w.acceptConnection accepted) := by
  refine ⟨h.same.acceptConnection hclosed, ?_, ?_⟩
  · cases accepted with
    | none => exact h.served
    | some fd =>
        intro p hp
        rcases Assoc.mem_put hp with rfl | hp
        · exact served_new
        · exact h.served p hp
  · cases accepted <;> exact h.past

/-- What handling a ready descriptor comes to: nothing happens, bytes come in for
no connection, or the commands that a chunk completes are executed. -/
inductive Handled (w : World) (r : Ready) (w' : World) : Prop where
  | idle (hdata : r.data = none ∨ r.data = some []) (h : w' = w)
  | unknown (chunk : Bytes) (hconn : Assoc.get r.fd w.connections = none)
      (h : w' = { w with
        clients := update r.fd (fun c => { c with received := c.received ++ chunk }) w.clients })
  | served (chunk : Bytes) (conn : Connection) (engine : LSMEngine) (exchanges : List Exchange)
      (hdata : r.data = some chunk) (hne : chunk ≠ [])
      (hconn : Assoc.get r.fd w.connections = some conn)
      (hloop : commandLoop r.envs r.room 0 (Connection.commandLines (conn.buffer ++ chunk))
        w.engine = some (engine, exchanges))
      (h : w' = { w with
        engine := engine
        connections := Assoc.put r.fd
          { conn with buffer := Connection.unfinished (conn.buffer ++ chunk) } w.connections
        clients := update r.fd
          (fun c => ⟨c.received ++ chunk, c.exchanges ++ exchanges⟩) w.clients })

theorem handled {w w' : World} {r : Ready} {alive : Bool}
    (hhandle : w.handleClient r = some (alive, w')) : Handled w r w' := by
  unfold World.handleClient at hhandle
  split at hhandle
  · rename_i hdata
    simp only [Option.some.injEq, Prod.mk.injEq] at hhandle
    exact Handled.idle (Or.inl hdata) hhandle.2.symm
  · rename_i hdata
    simp only [Option.some.injEq, Prod.mk.injEq] at hhandle
    exact Handled.idle (Or.inr hdata) hhandle.2.symm
  · rename_i chunk hne hdata
    cases hconn : Assoc.get r.fd w.connections with
    | none =>
        simp only [hconn, Option.some.injEq, Prod.mk.injEq] at hhandle
        exact Handled.unknown chunk hconn hhandle.2.symm
    | some conn =>
        simp only [hconn, Connection.extractCommands_eq, bind, Option.bind_eq_some_iff, pure,
          Prod.exists, Option.some.injEq, Prod.mk.injEq] at hhandle
        rcases hhandle with ⟨commands, conn', ⟨rfl, rfl⟩, engine, exchanges, hloop, -, rfl⟩
        rw [update_update]
        exact Handled.served chunk conn engine exchanges hdata hne hconn hloop rfl

theorem handleAll_cons {w w' : World} {r : Ready} {ready : List Ready} {toRemove : List Int}
    (h : handleAll w (r :: ready) = some (toRemove, w')) :
    ∃ alive w₁ removed, w.handleClient r = some (alive, w₁) ∧
      handleAll w₁ ready = some (removed, w') := by
  simp only [handleAll, bind, Option.bind_eq_some_iff, Prod.exists, pure, Option.some.injEq,
    Prod.mk.injEq] at h
  rcases h with ⟨alive, w₁, hfirst, removed, w₂, hrest, -, rfl⟩
  exact ⟨alive, w₁, removed, hfirst, hrest⟩

theorem step_round {w w' : World} {accepted : Option Int} {ready : List Ready}
    (h : w.step (.round accepted ready) = some w') :
    ∃ toRemove w₁, handleAll (w.acceptConnection accepted) ready = some (toRemove, w₁) ∧
      w' = toRemove.foldl closeConnection w₁ := by
  simp only [step, bind, Option.bind_eq_some_iff, Prod.exists, pure, Option.some.injEq] at h
  rcases h with ⟨toRemove, w₁, hhandle, rfl⟩
  exact ⟨toRemove, w₁, hhandle, rfl⟩

theorem Isolated.handleClient {w w' : World} (h : Isolated w) {r : Ready} {alive : Bool}
    (hhandle : w.handleClient r = some (alive, w')) : Isolated w' := by
  cases handled hhandle with
  | idle hdata heq =>
      rw [heq]
      exact h
  | unknown chunk hconn heq =>
      rw [heq, h.same.update_unknown hconn]
      exact h
  | served chunk conn engine exchanges hdata hne hconn hloop heq =>
      rw [heq]
      refine ⟨h.same.receive hconn chunk exchanges engine, ?_, h.past⟩
      rw [h.same] at hconn
      rcases Option.map_eq_some_iff.mp hconn with ⟨client, hclient, rfl⟩
      rcases commandLoop_spec hloop with ⟨hlines, haccepted⟩
      intro p hp
      unfold update at hp
      rw [hclient] at hp
      rcases Assoc.mem_put hp with rfl | hp
      · exact (h.served _ (Assoc.mem_of_get hclient)).receive hlines haccepted
      · exact h.served p hp

theorem Isolated.handleAll {w w' : World} (h : Isolated w) {ready : List Ready}
    {toRemove : List Int} (hhandle : handleAll w ready = some (toRemove, w')) : Isolated w' := by
  induction ready generalizing w toRemove with
  | nil =>
      simp only [World.handleAll, Option.some.injEq, Prod.mk.injEq] at hhandle
      rw [← hhandle.2]
      exact h
  | cons r ready ih =>
      rcases handleAll_cons hhandle with ⟨alive, w₁, removed, hfirst, hrest⟩
      exact ih (h.handleClient hfirst) hrest

theorem Isolated.closeConnection {w : World} (h : Isolated w) (fd : Int) :
    Isolated (w.closeConnection fd) := by
  refine ⟨h.same.closeConnection fd, ?_, ?_⟩
  · intro p hp
    exact h.served p (Assoc.mem_of_mem_erase hp)
  · intro p hp
    rcases List.mem_append.mp hp with hp | hp
    · exact h.past p hp
    · rcases Option.map_eq_some_iff.mp (Option.mem_toList.mp hp) with ⟨client, hget, rfl⟩
      exact h.served _ (Assoc.mem_of_get hget)

theorem Isolated.closeAll {w : World} (h : Isolated w) (toRemove : List Int) :
    Isolated (toRemove.foldl World.closeConnection w) := by
  induction toRemove generalizing w with
  | nil => exact h
  | cons fd toRemove ih => exact ih (h.closeConnection fd)

theorem Isolated.step {w w' : World} (h : Isolated w) {ev : ServerEvent}
    (hclosed : AcceptsClosed w ev) (hstep : w.step ev = some w') : Isolated w' := by
  cases ev with
  | round accepted ready =>
      rcases step_round hstep with ⟨toRemove, w₁, hhandle, rfl⟩
      have haccepted : ∀ fd, accepted = some fd → Assoc.get fd w.clients = none := by
        rintro fd rfl
        exact hclosed
      exact ((h.acceptConnection haccepted).handleAll hhandle).closeAll toRemove
  | compact env =>
      cases hstep
      exact ⟨h.same, h.served, h.past⟩
  | restart cacheSize memtableSizeBytes env =>
      cases hstep
      refine ⟨fun _ => rfl, ?_, ?_⟩
      · intro p hp
        cases hp
      · intro p hp
        rcases List.mem_append.mp hp with hp | hp
        · exact h.past p hp
        · exact h.served p hp

/-- In every run, whatever descriptors are used again, the commands executed
for a client are those of its own stream. -/
theorem Isolated.run {w w' : World} (h : Isolated w) {evs : List ServerEvent}
    (hclosed : Machine.Along World.step AcceptsClosed w evs)
    (hrun : Machine.run World.step w evs = some w') : Isolated w' :=
  Machine.run_invariant (fun _ _ _ h hclosed hstep => h.step hclosed hstep) h hclosed hrun

/-- What a descriptor has to say at millisecond 1, to a client that reads everything. -/
def Ready.calm (fd : Int) (data : Option Bytes) : Ready :=
  ⟨fd, data, fun _ => ExecEnv.calm 1, fun _ => 4096⟩

end World

end VaultDB
