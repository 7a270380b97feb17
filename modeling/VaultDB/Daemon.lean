import VaultDB.Serving

/-! # The server process

`VaultDB.Server` follows the event loop while it goes on. Three things put an
end to the process, and with it to the service for all clients: a command that
does not return (`execute` throws and nothing catches it, or its behaviour is
undefined), a `send` to a peer that is gone (it raises `SIGPIPE`, which the
program neither masks nor handles), and a descriptor beyond the sets of
`select`. A `Daemon` is the process with what it has done so far; when it goes
down it stays as it is. Up or down, what went through each descriptor is that
descriptor's part of what was done, and what was done is what the engine
answers, one command after the other (`Kept`).
-/

namespace VaultDB

open Text FileStream

/-- What the process does with its engine: it executes a command for a client,
or compacts in the background. -/
inductive Doing where
  | command (x : Execution)
  | compact (env : Env)

/-- The engine after it; there is none if the response is not what `execute` returns. -/
def LSMEngine.redo (e : LSMEngine) : Doing → Option LSMEngine
  | .command x =>
    match Parser.execute x.command e x.env with
    | .returned response e => if response = x.exchange.response then some e else none
    | _ => none
  | .compact env => some (e.compact env.now env.dev)

theorem LSMEngine.redo_command {e e' : LSMEngine} {line response : Bytes} {env : ExecEnv}
    (hexecute : Parser.execute (Parser.parse line) e env = .returned response e') (fd : Int)
    (accepted : Nat) : e.redo (.command ⟨fd, env, ⟨line, response, accepted⟩⟩) = some e' := by
  unfold LSMEngine.redo Execution.command
  simp only [hexecute, if_true]

/-- The executions among them. -/
def executions (doings : List Doing) : List Execution :=
  doings.filterMap fun
    | .command x => some x
    | .compact _ => none

/-- A descriptor that `select` reports, and which of the responses to its
commands meet a peer that is gone. -/
structure Reception extends Ready where
  sigpipe : Nat → Bool

inductive DaemonEvent where
  | round (accepted : Option Int) (ready : List Reception)
  | compact (env : Env)

/-- The event as the loop sees it that goes on. -/
def DaemonEvent.plain : DaemonEvent → ServerEvent
  | .round accepted ready => .round accepted (ready.map Reception.toReady)
  | .compact env => .compact env

/-- The descriptors that a set of `select` has room for are those below. -/
def FD_SETSIZE : Int := 1024

/-- A descriptor that comes in has room in the sets of `select`. -/
def DaemonEvent.Fits : DaemonEvent → Prop
  | .round accepted _ => ∀ fd ∈ accepted, fd < FD_SETSIZE
  | .compact _ => True

instance : DecidablePred DaemonEvent.Fits
  | .round accepted _ => inferInstanceAs (Decidable (∀ fd ∈ accepted, fd < FD_SETSIZE))
  | .compact _ => isTrue trivial

structure Daemon where
  world : World
  /-- What has been done with the engine. -/
  doings : List Doing
  up : Bool

namespace Daemon

def start (engine : LSMEngine) : Daemon := ⟨World.start engine, [], true⟩

/-- The loop of `handle_client` over the commands of one chunk, from the `i`-th
on: whether the process survives it, the last state of the engine and what was
exchanged. -/
def commandLoop (envs : Nat → ExecEnv) (room : Nat → Nat) (sigpipe : Nat → Bool) :
    Nat → List Bytes → LSMEngine → Bool × LSMEngine × List Exchange
  | _, [], e => (true, e, [])
  | i, line :: lines, e =>
    match Parser.execute (Parser.parse line) e (envs i) with
    | .returned response e =>
      if sigpipe i then (false, e, [⟨line, response, 0⟩])
      else
        let (up, e, later) := commandLoop envs room sigpipe (i + 1) lines e
        (up, e, ⟨line, response, min (room i) response.length⟩ :: later)
    | _ => (false, e, [])

/-- `accept_connection`. From `FD_SETSIZE` on, the `FD_ISSET` of the same turn
and the `FD_SET` of the next one are undefined. -/
def acceptConnection (d : Daemon) (accepted : Option Int) : Daemon :=
  { d with
    world := d.world.acceptConnection accepted
    up := d.up && accepted.all fun fd => fd < FD_SETSIZE }

/-- `handle_client`: whether the client is still there. The chunk is in the
buffer, and its commands are out of it, before the first one is executed. -/
def handleClient (d : Daemon) (r : Reception) : Bool × Daemon :=
  match r.data with
  | none => (false, d)
  | some [] => (false, d)
  | some chunk =>
    let clients :=
      World.update r.fd (fun c => { c with received := c.received ++ chunk }) d.world.clients
    match Assoc.get r.fd d.world.connections with
    | none => (false, { d with world := { d.world with clients := clients } })
    | some conn =>
      match (conn.appendData chunk).extractCommands with
      | none => (false, { d with up := false })
      | some (commands, conn) =>
        let (up, engine, exchanges) :=
          commandLoop r.envs r.room r.sigpipe 0 commands d.world.engine
        (true,
          { world :=
              { d.world with
                engine := engine
                connections := Assoc.put r.fd conn d.world.connections
                clients :=
                  World.update r.fd (fun c => { c with exchanges := c.exchanges ++ exchanges })
                    clients }
            doings := d.doings ++
              (World.chunkExecutions r.fd r.envs 0 exchanges).map Doing.command
            up := up })

/-- The loop over the ready clients, with those to remove. -/
def handleAll : Daemon → List Reception → List Int × Daemon
  | d, [] => ([], d)
  | d, r :: ready =>
    if d.up then
      let (alive, d) := d.handleClient r
      let (toRemove, d) := handleAll d ready
      (if alive then toRemove else r.fd :: toRemove, d)
    else ([], d)

def next (d : Daemon) : DaemonEvent → Daemon
  | .round accepted ready =>
    let (toRemove, d) := handleAll (d.acceptConnection accepted) ready
    if d.up then { d with world := toRemove.foldl World.closeConnection d.world } else d
  | .compact env =>
    { d with
      world := { d.world with engine := d.world.engine.compact env.now env.dev }
      doings := d.doings ++ [.compact env] }

/-- A process that is down stays as it is. -/
def step (d : Daemon) (ev : DaemonEvent) : Option Daemon := some (if d.up then d.next ev else d)

/-- `accept` returns a descriptor that is not open. -/
def AcceptsClosed (d : Daemon) (ev : DaemonEvent) : Prop := World.AcceptsClosed d.world ev.plain

instance (d : Daemon) (ev : DaemonEvent) : Decidable (AcceptsClosed d ev) :=
  inferInstanceAs (Decidable (World.AcceptsClosed d.world ev.plain))

variable {d d' : Daemon} {r : Reception} {accepted : Option Int} {ready : List Reception}
  {ev : DaemonEvent}

/-! ## What a step does -/

section Loop

variable {envs : Nat → ExecEnv} {room : Nat → Nat} {sigpipe : Nat → Bool} {i : Nat}
  {lines : List Bytes} {e e' : LSMEngine} {up : Bool} {exchanges : List Exchange}

/-- One command does not return, or its response meets a peer that is gone, or
the loop goes on behind it. -/
theorem commandLoop_cases {line : Bytes}
    (hloop : commandLoop envs room sigpipe i (line :: lines) e = (up, e', exchanges)) :
    (up = false ∧ e' = e ∧ exchanges = []) ∨
    (∃ response, up = false ∧ sigpipe i = true ∧
      Parser.execute (Parser.parse line) e (envs i) = .returned response e' ∧
      exchanges = [⟨line, response, 0⟩]) ∨
    ∃ response e₁ later, sigpipe i = false ∧
      Parser.execute (Parser.parse line) e (envs i) = .returned response e₁ ∧
      commandLoop envs room sigpipe (i + 1) lines e₁ = (up, e', later) ∧
      exchanges = ⟨line, response, min (room i) response.length⟩ :: later := by
  unfold commandLoop at hloop
  cases hexecute : Parser.execute (Parser.parse line) e (envs i) with
  | thrown =>
      simp only [hexecute] at hloop
      cases hloop
      exact Or.inl ⟨rfl, rfl, rfl⟩
  | undefined =>
      simp only [hexecute] at hloop
      cases hloop
      exact Or.inl ⟨rfl, rfl, rfl⟩
  | returned response e₁ =>
      simp only [hexecute] at hloop
      split_ifs at hloop with hpipe
      · cases hloop
        exact Or.inr (Or.inl ⟨response, rfl, hpipe, rfl, rfl⟩)
      · rcases hrest : commandLoop envs room sigpipe (i + 1) lines e₁ with ⟨up', e₂, later⟩
        simp only [hrest] at hloop
        cases hloop
        exact Or.inr (Or.inr ⟨response, e₁, later, by simpa using hpipe, rfl, hrest, rfl⟩)

/-- What was exchanged is what `execute` returns, also where the loop breaks off. -/
theorem commandLoop_replayed
    (hloop : commandLoop envs room sigpipe i lines e = (up, e', exchanges)) (fd : Int) :
    Machine.run LSMEngine.redo e
      ((World.chunkExecutions fd envs i exchanges).map Doing.command) = some e' := by
  induction lines generalizing i e exchanges with
  | nil =>
      cases hloop
      rfl
  | cons line lines ih =>
      rcases commandLoop_cases hloop with ⟨-, rfl, rfl⟩ | ⟨response, -, -, hexecute, rfl⟩ |
        ⟨response, e₁, later, -, hexecute, hrest, rfl⟩
      · rfl
      · exact Machine.run_cons.mpr ⟨e', LSMEngine.redo_command hexecute fd 0, rfl⟩
      · exact Machine.run_cons.mpr ⟨e₁, LSMEngine.redo_command hexecute fd _, ih hrest⟩

/-- As long as the process is up, the loop is the one that goes on. -/
theorem commandLoop_up (hloop : commandLoop envs room sigpipe i lines e = (true, e', exchanges)) :
    World.commandLoop envs room i lines e = some (e', exchanges) := by
  induction lines generalizing i e exchanges with
  | nil =>
      cases hloop
      rfl
  | cons line lines ih =>
      rcases commandLoop_cases hloop with ⟨hdown, -⟩ | ⟨response, hdown, -⟩ |
        ⟨response, e₁, later, -, hexecute, hrest, rfl⟩
      · cases hdown
      · cases hdown
      · exact World.commandLoop_cons.mpr ⟨response, e₁, later, hexecute, ih hrest, rfl⟩

end Loop

/-- What handling a ready descriptor comes to: nothing happens, bytes come in for
no connection, or the commands that a chunk completes are executed, all of them
or up to the one that ends the process. -/
inductive Received (d : Daemon) (r : Reception) : Bool → Daemon → Prop where
  | idle (hdata : r.data = none ∨ r.data = some []) : Received d r false d
  | unknown (chunk : Bytes) (hdata : r.data = some chunk) (hne : chunk ≠ [])
      (hconn : Assoc.get r.fd d.world.connections = none) :
      Received d r false
        { d with
          world :=
            { d.world with
              clients := World.update r.fd (fun c => { c with received := c.received ++ chunk })
                d.world.clients } }
  | served (chunk : Bytes) (conn : Connection) (up : Bool) (engine : LSMEngine)
      (exchanges : List Exchange) (hdata : r.data = some chunk) (hne : chunk ≠ [])
      (hconn : Assoc.get r.fd d.world.connections = some conn)
      (hloop : commandLoop r.envs r.room r.sigpipe 0
        (Connection.commandLines (conn.buffer ++ chunk)) d.world.engine = (up, engine, exchanges)) :
      Received d r true
        { world :=
            { d.world with
              engine := engine
              connections := Assoc.put r.fd
                { conn with buffer := Connection.unfinished (conn.buffer ++ chunk) }
                d.world.connections
              clients := World.update r.fd
                (fun c => ⟨c.received ++ chunk, c.exchanges ++ exchanges⟩) d.world.clients }
          doings := d.doings ++ (World.chunkExecutions r.fd r.envs 0 exchanges).map Doing.command
          up := up }

theorem received {alive : Bool} (hhandle : d.handleClient r = (alive, d')) :
    Received d r alive d' := by
  unfold handleClient at hhandle
  split at hhandle
  · rename_i hdata
    cases hhandle
    exact Received.idle (Or.inl hdata)
  · rename_i hdata
    cases hhandle
    exact Received.idle (Or.inr hdata)
  · rename_i chunk hne hdata
    cases hconn : Assoc.get r.fd d.world.connections with
    | none =>
        simp only [hconn] at hhandle
        cases hhandle
        exact Received.unknown chunk hdata hne hconn
    | some conn =>
        rcases hloop : commandLoop r.envs r.room r.sigpipe 0
          (Connection.commandLines (conn.buffer ++ chunk)) d.world.engine with
          ⟨up, engine, exchanges⟩
        have hloop' : commandLoop r.envs r.room r.sigpipe 0
          (Connection.commandLines (conn.appendData chunk).buffer) d.world.engine =
          (up, engine, exchanges) := hloop
        simp only [hconn, Connection.extractCommands_eq, World.update_update, hloop'] at hhandle
        cases hhandle
        exact Received.served chunk conn up engine exchanges hdata hne hconn hloop

theorem handleAll_cons (hup : d.up = true) (r : Reception) (ready : List Reception) :
    handleAll d (r :: ready) =
      (if (d.handleClient r).1 then (handleAll (d.handleClient r).2 ready).1
        else r.fd :: (handleAll (d.handleClient r).2 ready).1,
        (handleAll (d.handleClient r).2 ready).2) := by
  rw [handleAll, if_pos hup]

theorem handleAll_down (hup : d.up = false) (ready : List Reception) :
    handleAll d ready = ([], d) := by
  cases ready with
  | nil => rfl
  | cons r ready => rw [handleAll, if_neg (by rw [hup]; decide)]

/-- What every handled client keeps, all of them keep. -/
theorem handleAll_kept {I : Daemon → Prop}
    (hkeep : ∀ d r, I d → d.up = true → I (d.handleClient r).2) (h : I d)
    (ready : List Reception) : I (handleAll d ready).2 := by
  induction ready generalizing d with
  | nil => exact h
  | cons r ready ih =>
      cases hup : d.up with
      | false =>
          rw [handleAll_down hup]
          exact h
      | true =>
          rw [handleAll_cons hup]
          exact ih (hkeep d r h hup)

theorem up_next_round (d : Daemon) (accepted : Option Int) (ready : List Reception) :
    (d.next (.round accepted ready)).up =
      (handleAll (d.acceptConnection accepted) ready).2.up := by
  unfold next
  dsimp only
  split_ifs <;> rfl

/-- A process goes down in a round, and closes no descriptor any more. -/
theorem next_down (hup : d.up = true) (hdown : (d.next ev).up = false) :
    ∃ accepted ready, ev = .round accepted ready ∧
      d.next ev = (handleAll (d.acceptConnection accepted) ready).2 := by
  cases ev with
  | round accepted ready =>
      rw [up_next_round] at hdown
      refine ⟨accepted, ready, rfl, ?_⟩
      unfold next
      dsimp only
      rw [if_neg (by rw [hdown]; decide)]
  | compact env =>
      have hsame : (d.next (.compact env)).up = d.up := rfl
      rw [hsame, hup] at hdown
      cases hdown

/-! ## Up or down -/

theorem executions_append (doings doings' : List Doing) :
    executions (doings ++ doings') = executions doings ++ executions doings' :=
  List.filterMap_append

theorem executions_command (xs : List Execution) : executions (xs.map Doing.command) = xs := by
  unfold executions
  rw [List.filterMap_map]
  exact List.filterMap_some

/-- Behind every open descriptor stands what is unfinished of its own stream;
what was done, done again, gives the same responses and leads to the engine; and
what was exchanged through a descriptor is its part of what was done. -/
structure Kept (engine : LSMEngine) (d : Daemon) : Prop where
  keyed : World.Keyed d.world
  replayed : Machine.run LSMEngine.redo engine d.doings = some d.world.engine
  exchanged : ∀ fd, World.exchangesOf d.world fd = World.partOf fd (executions d.doings)

variable {engine : LSMEngine}

theorem kept_start (engine : LSMEngine) : Kept engine (start engine) :=
  ⟨fun _ => rfl, rfl, fun _ => rfl⟩

theorem Kept.handleClient (h : Kept engine d) (r : Reception) :
    Kept engine (d.handleClient r).2 := by
  rcases hhandle : d.handleClient r with ⟨alive, d'⟩
  cases received hhandle with
  | idle hdata => exact h
  | unknown chunk hdata hne hconn =>
      rw [h.keyed.update_unknown hconn]
      exact h
  | served chunk conn up e exchanges hdata hne hconn hloop =>
      refine ⟨h.keyed.receive hconn chunk exchanges e, ?_, ?_⟩
      · exact Machine.run_append.mpr ⟨_, h.replayed, commandLoop_replayed hloop r.fd⟩
      · -- the exchanges of the chunk are those of this descriptor, and no other's
        intro fd
        have hopen : (Assoc.get r.fd d.world.clients).isSome := by
          rw [h.keyed] at hconn
          obtain ⟨client, hclient, -⟩ := Option.map_eq_some_iff.mp hconn
          rw [hclient]
          rfl
        rw [executions_append, executions_command, World.partOf_append, World.partOf_chunk,
          ← h.exchanged]
        refine World.exchangesOf_update
          (f := fun c => ⟨c.received ++ chunk, c.exchanges ++ exchanges⟩) hopen ?_ ?_ ?_ fd
        · rfl
        · rfl
        · intro c
          rfl

theorem Kept.acceptConnection (h : Kept engine d) {accepted : Option Int}
    (hclosed : ∀ fd, accepted = some fd → Assoc.get fd d.world.clients = none) :
    Kept engine (d.acceptConnection accepted) := by
  refine ⟨h.keyed.acceptConnection hclosed, ?_, ?_⟩
  · show _ = some (d.world.acceptConnection accepted).engine
    rw [World.engine_acceptConnection]
    exact h.replayed
  · intro fd
    exact (World.exchangesOf_accept hclosed fd).trans (h.exchanged fd)

theorem Kept.closeAll (h : Kept engine d) (toRemove : List Int) :
    Kept engine { d with world := toRemove.foldl World.closeConnection d.world } := by
  refine ⟨?_, ?_, ?_⟩
  · have hkeyed := h.keyed
    show World.Keyed (toRemove.foldl World.closeConnection d.world)
    generalize d.world = w at hkeyed
    induction toRemove generalizing w with
    | nil => exact hkeyed
    | cons fd toRemove ih => exact ih _ (hkeyed.closeConnection fd)
  · show _ = some (toRemove.foldl World.closeConnection d.world).engine
    rw [World.engine_closeAll]
    exact h.replayed
  · intro fd
    exact (World.exchangesOf_closeAll toRemove d.world fd).trans (h.exchanged fd)

theorem not_open (hclosed : AcceptsClosed d (.round accepted ready)) :
    ∀ fd, accepted = some fd → Assoc.get fd d.world.clients = none := by
  rintro fd rfl
  exact hclosed

theorem Kept.next (h : Kept engine d) (hclosed : AcceptsClosed d ev) : Kept engine (d.next ev) := by
  cases ev with
  | round accepted ready =>
      have hall : Kept engine (handleAll (d.acceptConnection accepted) ready).2 :=
        handleAll_kept (fun _ r h _ => h.handleClient r) (h.acceptConnection (not_open hclosed))
          ready
      unfold Daemon.next
      dsimp only
      split_ifs
      · exact hall.closeAll _
      · exact hall
  | compact env =>
      refine ⟨h.keyed, Machine.run_concat.mpr ⟨_, h.replayed, rfl⟩, ?_⟩
      intro fd
      show _ = World.partOf fd (executions (d.doings ++ [.compact env]))
      rw [executions_append, World.partOf_append]
      exact (h.exchanged fd).trans (List.append_nil _).symm

theorem Kept.step (h : Kept engine d) (hclosed : AcceptsClosed d ev)
    (hstep : d.step ev = some d') : Kept engine d' := by
  cases hstep
  split_ifs
  · exact h.next hclosed
  · exact h

/-- In every run, also in one that ends the process. -/
theorem kept_run {evs : List DaemonEvent}
    (hclosed : Machine.Along step AcceptsClosed (start engine) evs)
    (hrun : Machine.run step (start engine) evs = some d) : Kept engine d :=
  Machine.run_invariant (fun _ _ _ h hclosed hstep => h.step hclosed hstep) (kept_start engine)
    hclosed hrun

/-! ## Up -/

theorem handleClient_up {alive : Bool} (hhandle : d.handleClient r = (alive, d'))
    (hup : d'.up = true) : d.world.handleClient r.toReady = some (alive, d'.world) := by
  cases received hhandle with
  | idle hdata =>
      unfold World.handleClient
      rcases hdata with hdata | hdata
      · rw [hdata]
      · rw [hdata]
  | unknown chunk hdata hne hconn =>
      unfold World.handleClient
      rw [hdata]
      cases chunk with
      | nil => exact absurd rfl hne
      | cons b chunk => simp only [hconn]
  | served chunk conn up engine exchanges hdata hne hconn hloop =>
      cases hup
      have hloop' := commandLoop_up hloop
      unfold World.handleClient
      rw [hdata]
      cases chunk with
      | nil => exact absurd rfl hne
      | cons b chunk =>
          simp [hconn, Connection.extractCommands_eq, hloop', World.update_update,
            Connection.appendData]

theorem handleAll_up (hup : (handleAll d ready).2.up = true) :
    World.handleAll d.world (ready.map Reception.toReady) =
      some ((handleAll d ready).1, (handleAll d ready).2.world) := by
  induction ready generalizing d with
  | nil => rfl
  | cons r ready ih =>
      cases hfirst : d.up with
      | false =>
          rw [handleAll_down hfirst, hfirst] at hup
          cases hup
      | true =>
          rw [handleAll_cons hfirst] at hup ⊢
          rcases hhandle : d.handleClient r with ⟨alive, d'⟩
          rw [hhandle] at hup
          -- who is up in the end was up all the way
          have hup' : d'.up = true := by
            by_contra hdown
            rw [handleAll_down (by simpa using hdown)] at hup
            exact hdown hup
          simp [World.handleAll, handleClient_up hhandle hup', ih hup]

theorem next_up (hup : (d.next ev).up = true) : d.world.step ev.plain = some (d.next ev).world := by
  cases ev with
  | round accepted ready =>
      have hall := (up_next_round d accepted ready).symm.trans hup
      have hworld := handleAll_up hall
      unfold next
      dsimp only
      rw [if_pos hall]
      have haccepted :
          (d.acceptConnection accepted).world = d.world.acceptConnection accepted := rfl
      rw [haccepted] at hworld
      simp only [DaemonEvent.plain, World.step, hworld]
      rfl
  | compact env => rfl

/-- A process that is up after a step was up before it. -/
theorem step_up (hstep : d.step ev = some d') (hup : d'.up = true) :
    d.up = true ∧ d' = d.next ev ∧ d.world.step ev.plain = some d'.world := by
  cases hstep
  cases hbefore : d.up with
  | false =>
      rw [hbefore] at hup
      simp [hbefore] at hup
  | true =>
      rw [hbefore] at hup
      exact ⟨rfl, rfl, next_up hup⟩

end Daemon

end VaultDB
