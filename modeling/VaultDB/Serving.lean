import VaultDB.Responses
import VaultDB.Service

/-! # Serving

The server refines the service. Whatever clients come and go, however their
bytes arrive and whatever the background thread compacts in between, the
commands of all clients are one history: each is answered as the service
answers it after those in front, and each client is sent its own part of the
history, in order (`server_serves`).
-/

namespace VaultDB

open Text Codec FileStream LSMEngine VaultDB.Parser

/-- A command that was executed: for which descriptor, in which surroundings,
and what was exchanged. -/
structure Execution where
  fd : Int
  env : ExecEnv
  exchange : Exchange

def Execution.command (x : Execution) : Command := parse x.exchange.line

namespace Service

def step (s : Service) (x : Execution) : Option Service := some (s.apply x.command x.env.nowNs)

/-- What was sent is what the service may answer. -/
def Answers (s : Service) (x : Execution) : Prop :=
  s.Replies x.command (x.env.calls 0).now x.exchange.response

end Service

namespace World

/-! ## What is executed -/

/-- The commands of a chunk, from the `i`-th on. -/
def chunkExecutions (fd : Int) (envs : Nat → ExecEnv) : Nat → List Exchange → List Execution
  | _, [] => []
  | i, exchange :: exchanges =>
    ⟨fd, envs i, exchange⟩ :: chunkExecutions fd envs (i + 1) exchanges

/-- The commands executed while a descriptor is handled. -/
def readyExecutions (w : World) (r : Ready) : List Execution :=
  match r.data, Assoc.get r.fd w.connections with
  | some chunk, some conn =>
    if chunk = [] then []
    else
      match commandLoop r.envs r.room 0 (Connection.commandLines (conn.buffer ++ chunk))
        w.engine with
      | some (_, exchanges) => chunkExecutions r.fd r.envs 0 exchanges
      | none => []
  | _, _ => []

/-- What is noted while the ready clients are handled. -/
def traceReady {α : Type} (f : World → Ready → List α) : World → List Ready → List α
  | _, [] => []
  | w, r :: ready =>
    f w r ++
      match w.handleClient r with
      | some (_, w') => traceReady f w' ready
      | none => []

def executionsOf (w : World) : ServerEvent → List Execution
  | .round accepted ready => traceReady readyExecutions (w.acceptConnection accepted) ready
  | _ => []

/-- What an event does to the engine of a server that goes on. -/
def eventsOf (w : World) : ServerEvent → List Event
  | .round accepted ready => traceReady readyEvents (w.acceptConnection accepted) ready
  | .compact env => [⟨.compact, env⟩]
  | .restart _ _ _ => []

/-- The commands of all clients, in the order of execution. -/
def history (w : World) (evs : List ServerEvent) : List Execution :=
  Machine.trace step executionsOf w evs

/-- The steps of the engine. -/
def engineEvents (w : World) (evs : List ServerEvent) : List Event :=
  Machine.trace step eventsOf w evs

/-- The server is not stopped. -/
def GoesOn : ServerEvent → Prop
  | .restart _ _ _ => False
  | _ => True

instance : DecidablePred GoesOn
  | .round _ _ => isTrue trivial
  | .compact _ => isTrue trivial
  | .restart _ _ _ => isFalse id

theorem traceReady_cons {α : Type} {f : World → Ready → List α} {w w' : World} {r : Ready}
    {alive : Bool} (hhandle : w.handleClient r = some (alive, w')) (ready : List Ready) :
    traceReady f w (r :: ready) = f w r ++ traceReady f w' ready := by
  rw [traceReady, hhandle]

/-! ## The engine and the service -/

section Engine

variable {dataDir : Bytes} {cacheSize : Nat} {threshold : UInt64}

/-- The events have taken the engine to `e` and the executions the service to
what it holds, every answer being one of the service. -/
structure Serves (dataDir : Bytes) (cacheSize : Nat) (threshold : UInt64) (evs : List Event)
    (xs : List Execution) (e : LSMEngine) : Prop where
  run : Machine.run LSMEngine.step (LSMEngine.start dataDir cacheSize threshold) evs = some e
  held : ∃ s, Machine.run Service.step Service.empty xs = some s ∧ s.Holds evs
  answered : Machine.Along Service.step Service.Answers Service.empty xs

theorem serves_start :
    Serves dataDir cacheSize threshold [] [] (LSMEngine.start dataDir cacheSize threshold) :=
  ⟨rfl, ⟨Service.empty, rfl, Service.holds_empty⟩, trivial⟩

variable {evs : List Event} {xs : List Execution} {e e' : LSMEngine}

theorem Serves.execute (h : Serves dataDir cacheSize threshold evs xs e) {line response : Bytes}
    {env : ExecEnv}
    (hsteady : Service.Steady dataDir cacheSize threshold (evs ++ events (parse line) env))
    (hplain : Service.PlainSet (parse line))
    (hexecute : execute (parse line) e env = .returned response e') (fd : Int) (accepted : Nat) :
    Serves dataDir cacheSize threshold (evs ++ events (parse line) env)
      (xs ++ [⟨fd, env, ⟨line, response, accepted⟩⟩]) e' := by
  rcases h.held with ⟨s, hs, hholds⟩
  refine ⟨Machine.run_append.mpr ⟨e, h.run, execute_run hexecute⟩,
    ⟨_, Machine.run_concat.mpr ⟨s, hs, rfl⟩, hholds.apply hplain hexecute⟩, ?_⟩
  rw [Machine.along_concat]
  refine ⟨h.answered, ?_⟩
  intro s' s'' hs' _
  rw [hs] at hs'
  cases hs'
  exact hholds.replies hsteady h.run hexecute

theorem Serves.commandLoop (h : Serves dataDir cacheSize threshold evs xs e)
    {envs : Nat → ExecEnv} {room : Nat → Nat} {i : Nat} {lines : List Bytes}
    {exchanges : List Exchange} {fd : Int}
    (hsteady : Service.Steady dataDir cacheSize threshold (evs ++ chunkEvents envs i lines))
    (hplain : ∀ x ∈ chunkExecutions fd envs i exchanges, Service.PlainSet x.command)
    (hloop : World.commandLoop envs room i lines e = some (e', exchanges)) :
    Serves dataDir cacheSize threshold (evs ++ chunkEvents envs i lines)
      (xs ++ chunkExecutions fd envs i exchanges) e' := by
  induction lines generalizing evs xs e i exchanges with
  | nil =>
      cases hloop
      simpa [chunkEvents, chunkExecutions] using h
  | cons line lines ih =>
      rcases commandLoop_cons.mp hloop with ⟨response, e₁, later, hexecute, hlater, rfl⟩
      unfold chunkEvents at hsteady ⊢
      unfold chunkExecutions at hplain ⊢
      rw [← List.append_assoc] at hsteady ⊢
      rw [← List.singleton_append, ← List.append_assoc]
      have hfirst := h.execute (hsteady.isPrefix (List.prefix_append _ _))
        (hplain _ List.mem_cons_self) hexecute fd (min (room i) response.length)
      exact ih hfirst hsteady (fun x hx => hplain x (List.mem_cons_of_mem _ hx)) hlater

theorem Serves.handleClient {w w' : World} (h : Serves dataDir cacheSize threshold evs xs w.engine)
    {r : Ready} {alive : Bool}
    (hsteady : Service.Steady dataDir cacheSize threshold (evs ++ readyEvents w r))
    (hplain : ∀ x ∈ readyExecutions w r, Service.PlainSet x.command)
    (hhandle : w.handleClient r = some (alive, w')) :
    Serves dataDir cacheSize threshold (evs ++ readyEvents w r) (xs ++ readyExecutions w r)
      w'.engine := by
  unfold readyEvents readyExecutions at *
  cases handled hhandle with
  | idle hdata heq =>
      rw [heq]
      rcases hdata with hdata | hdata
      · simpa [hdata] using h
      · cases hconn : Assoc.get r.fd w.connections <;> simpa [hdata, hconn] using h
  | unknown chunk hconn heq =>
      rw [heq]
      cases hdata : r.data <;> simpa [hdata, hconn] using h
  | served chunk conn engine exchanges hdata hne hconn hloop heq =>
      simp only [hdata, hconn, if_neg hne, hloop] at hsteady hplain ⊢
      rw [heq]
      exact h.commandLoop hsteady hplain hloop

theorem Serves.handleAll {w w' : World} (h : Serves dataDir cacheSize threshold evs xs w.engine)
    {ready : List Ready} {toRemove : List Int}
    (hsteady : Service.Steady dataDir cacheSize threshold (evs ++ traceReady readyEvents w ready))
    (hplain : ∀ x ∈ traceReady readyExecutions w ready, Service.PlainSet x.command)
    (hhandle : World.handleAll w ready = some (toRemove, w')) :
    Serves dataDir cacheSize threshold (evs ++ traceReady readyEvents w ready)
      (xs ++ traceReady readyExecutions w ready) w'.engine := by
  induction ready generalizing w evs xs toRemove with
  | nil =>
      cases hhandle
      simpa [traceReady] using h
  | cons r ready ih =>
      rcases handleAll_cons hhandle with ⟨alive, w₁, removed, hfirst, hrest⟩
      rw [traceReady_cons hfirst] at hsteady hplain ⊢
      rw [traceReady_cons hfirst, ← List.append_assoc, ← List.append_assoc]
      rw [← List.append_assoc] at hsteady
      have h₁ := h.handleClient (hsteady.isPrefix (List.prefix_append _ _))
        (fun x hx => hplain x (List.mem_append_left _ hx)) hfirst
      exact ih h₁ hsteady (fun x hx => hplain x (List.mem_append_right _ hx)) hrest

theorem engine_closeAll (toRemove : List Int) (w : World) :
    (toRemove.foldl closeConnection w).engine = w.engine := by
  induction toRemove generalizing w with
  | nil => rfl
  | cons fd toRemove ih => exact ih (w.closeConnection fd)

theorem engine_acceptConnection (w : World) (accepted : Option Int) :
    (w.acceptConnection accepted).engine = w.engine := by
  cases accepted <;> rfl

theorem Serves.step {w w' : World} (h : Serves dataDir cacheSize threshold evs xs w.engine)
    {ev : ServerEvent} (hgoes : GoesOn ev)
    (hsteady : Service.Steady dataDir cacheSize threshold (evs ++ eventsOf w ev))
    (hplain : ∀ x ∈ executionsOf w ev, Service.PlainSet x.command)
    (hstep : w.step ev = some w') :
    Serves dataDir cacheSize threshold (evs ++ eventsOf w ev) (xs ++ executionsOf w ev)
      w'.engine := by
  cases ev with
  | round accepted ready =>
      rcases step_round hstep with ⟨toRemove, w₁, hhandle, rfl⟩
      rw [engine_closeAll]
      rw [← engine_acceptConnection w accepted] at h
      exact h.handleAll hsteady hplain hhandle
  | compact env =>
      cases hstep
      rcases h.held with ⟨s, hs, hholds⟩
      show Serves dataDir cacheSize threshold (evs ++ [⟨.compact, env⟩]) (xs ++ []) _
      rw [List.append_nil]
      exact ⟨Machine.run_concat.mpr ⟨w.engine, h.run, rfl⟩, ⟨s, hs, hholds.background [env]⟩,
        h.answered⟩
  | restart cacheSize threshold env => exact hgoes.elim

theorem serves_run {evs : List ServerEvent} (hgoes : ∀ ev ∈ evs, GoesOn ev)
    (hsteady : Service.Steady dataDir cacheSize threshold
      (engineEvents (World.start (LSMEngine.start dataDir cacheSize threshold)) evs))
    (hplain : ∀ x ∈ history (World.start (LSMEngine.start dataDir cacheSize threshold)) evs,
      Service.PlainSet x.command) {w : World}
    (hrun : Machine.run World.step (World.start (LSMEngine.start dataDir cacheSize threshold))
      evs = some w) :
    Serves dataDir cacheSize threshold
      (engineEvents (World.start (LSMEngine.start dataDir cacheSize threshold)) evs)
      (history (World.start (LSMEngine.start dataDir cacheSize threshold)) evs) w.engine := by
  unfold engineEvents history at *
  induction evs using List.reverseRecOn generalizing w with
  | nil =>
      cases hrun
      exact serves_start
  | append_singleton evs ev ih =>
      rcases Machine.run_concat.mp hrun with ⟨w₁, hrun₁, hstep⟩
      rw [Machine.trace_concat hrun₁ hstep] at hsteady hplain ⊢
      rw [Machine.trace_concat hrun₁ hstep]
      have h₁ := ih (fun ev' hev' => hgoes ev' (List.mem_append_left _ hev'))
        (hsteady.isPrefix (List.prefix_append _ _))
        (fun x hx => hplain x (List.mem_append_left _ hx)) hrun₁
      exact h₁.step (hgoes ev (by simp)) hsteady
        (fun x hx => hplain x (List.mem_append_right _ hx)) hstep

end Engine

/-! ## The clients -/

/-- What was exchanged with the clients that had the descriptor, in order. -/
def exchangesOf (w : World) (fd : Int) : List Exchange :=
  (w.past.filter fun p => p.1 = fd).flatMap (fun p => p.2.exchanges) ++
    ((Assoc.get fd w.clients).map Client.exchanges).getD []

/-- The part of a history that is a descriptor's. -/
def partOf (fd : Int) (xs : List Execution) : List Exchange :=
  (xs.filter fun x => x.fd = fd).map Execution.exchange

@[simp] theorem partOf_nil (fd : Int) : partOf fd [] = [] := rfl

theorem partOf_append (fd : Int) (xs ys : List Execution) :
    partOf fd (xs ++ ys) = partOf fd xs ++ partOf fd ys := by
  unfold partOf
  rw [List.filter_append, List.map_append]

/-- The commands of a chunk are all of one descriptor. -/
theorem partOf_chunk (fd fd' : Int) (envs : Nat → ExecEnv) (i : Nat) (exchanges : List Exchange) :
    partOf fd' (chunkExecutions fd envs i exchanges) = if fd' = fd then exchanges else [] := by
  unfold partOf
  induction exchanges generalizing i with
  | nil => simp [chunkExecutions]
  | cons exchange exchanges ih =>
      unfold chunkExecutions
      by_cases hfd : fd' = fd
      · subst hfd
        rw [if_pos rfl] at ih ⊢
        rw [List.filter_cons_of_pos (by simp), List.map_cons, ih]
      · rw [if_neg hfd] at ih ⊢
        rw [List.filter_cons_of_neg (by simpa using fun heq => hfd heq.symm), ih]

theorem exchangesOf_update {w w' : World} {fd : Int} {f : Client → Client}
    {added : List Exchange} (hopen : (Assoc.get fd w.clients).isSome)
    (hclients : w'.clients = update fd f w.clients) (hpast : w'.past = w.past)
    (hf : ∀ c, (f c).exchanges = c.exchanges ++ added) (fd' : Int) :
    exchangesOf w' fd' = exchangesOf w fd' ++ if fd' = fd then added else [] := by
  rcases Option.isSome_iff_exists.mp hopen with ⟨client, hclient⟩
  unfold exchangesOf
  rw [hpast, hclients, get_update]
  by_cases hfd : fd' = fd
  · subst hfd
    rw [if_pos rfl, if_pos rfl, hclient]
    simp only [Option.map_some, Option.getD_some, hf, List.append_assoc]
  · rw [if_neg hfd, if_neg hfd, List.append_nil]

theorem exchangesOf_accept {w : World} {accepted : Option Int}
    (hclosed : ∀ fd, accepted = some fd → Assoc.get fd w.clients = none) (fd : Int) :
    exchangesOf (w.acceptConnection accepted) fd = exchangesOf w fd := by
  cases accepted with
  | none => rfl
  | some fd' =>
      unfold exchangesOf acceptConnection
      dsimp only
      by_cases hfd : fd = fd'
      · subst hfd
        rw [Assoc.get_put_self, hclosed fd rfl]
        rfl
      · rw [Assoc.get_put_ne hfd]

/-- A client that goes takes its exchanges to the past. -/
theorem exchangesOf_close (w : World) (fd fd' : Int) :
    exchangesOf (w.closeConnection fd) fd' = exchangesOf w fd' := by
  unfold exchangesOf closeConnection
  dsimp only
  rw [List.filter_append, List.flatMap_append, List.append_assoc]
  congr 1
  by_cases hfd : fd' = fd
  · subst hfd
    rw [Assoc.get_erase_self]
    cases Assoc.get fd' w.clients <;> simp
  · rw [Assoc.get_erase_ne hfd]
    have hother : ∀ client : Option Client,
        ((client.map fun client => (fd, client)).toList.filter fun p => p.1 = fd') = [] := by
      intro client
      cases client with
      | none => rfl
      | some client => simpa using fun heq => hfd heq.symm
    rw [hother]
    rfl

theorem exchangesOf_closeAll (toRemove : List Int) (w : World) (fd : Int) :
    exchangesOf (toRemove.foldl closeConnection w) fd = exchangesOf w fd := by
  induction toRemove generalizing w with
  | nil => rfl
  | cons fd' toRemove ih => exact (ih _).trans (exchangesOf_close w fd' fd)

theorem exchangesOf_handle {w w' : World} (h : Isolated w) {r : Ready} {alive : Bool}
    (hhandle : w.handleClient r = some (alive, w')) (fd : Int) :
    exchangesOf w' fd = exchangesOf w fd ++ partOf fd (readyExecutions w r) := by
  unfold readyExecutions
  cases handled hhandle with
  | idle hdata heq =>
      rw [heq]
      rcases hdata with hdata | hdata
      · simp [hdata]
      · cases hconn : Assoc.get r.fd w.connections <;> simp [hdata]
  | unknown chunk hconn heq =>
      have hsame : w' = w := by rw [heq, h.same.update_unknown hconn]
      rw [hsame]
      cases hdata : r.data <;> simp [hconn]
  | served chunk conn engine exchanges hdata hne hconn hloop heq =>
      have hopen : (Assoc.get r.fd w.clients).isSome := by
        rw [h.same] at hconn
        rcases Option.map_eq_some_iff.mp hconn with ⟨client, hclient, -⟩
        rw [hclient]
        rfl
      simp only [hdata, hconn, if_neg hne, hloop, partOf_chunk]
      rw [heq]
      refine exchangesOf_update (f := fun c => ⟨c.received ++ chunk, c.exchanges ++ exchanges⟩)
        hopen ?_ ?_ ?_ fd
      · rfl
      · rfl
      · intro c
        rfl

theorem exchangesOf_handleAll {w w' : World} (h : Isolated w) {ready : List Ready}
    {toRemove : List Int} (hhandle : handleAll w ready = some (toRemove, w')) (fd : Int) :
    exchangesOf w' fd = exchangesOf w fd ++ partOf fd (traceReady readyExecutions w ready) := by
  induction ready generalizing w toRemove with
  | nil =>
      cases hhandle
      simp [traceReady]
  | cons r ready ih =>
      rcases handleAll_cons hhandle with ⟨alive, w₁, removed, hfirst, hrest⟩
      rw [traceReady_cons hfirst, partOf_append, ← List.append_assoc,
        ← exchangesOf_handle h hfirst]
      exact ih (h.handleClient hfirst) hrest

theorem exchangesOf_step {w w' : World} (h : Isolated w) {ev : ServerEvent} (hgoes : GoesOn ev)
    (hclosed : AcceptsClosed w ev) (hstep : w.step ev = some w') (fd : Int) :
    exchangesOf w' fd = exchangesOf w fd ++ partOf fd (executionsOf w ev) := by
  cases ev with
  | round accepted ready =>
      rcases step_round hstep with ⟨toRemove, w₁, hhandle, rfl⟩
      have haccepted : ∀ fd, accepted = some fd → Assoc.get fd w.clients = none := by
        rintro fd rfl
        exact hclosed
      rw [exchangesOf_closeAll, exchangesOf_handleAll (h.acceptConnection haccepted) hhandle,
        exchangesOf_accept haccepted]
      rfl
  | compact env =>
      cases hstep
      exact (List.append_nil _).symm
  | restart cacheSize threshold env => exact hgoes.elim

theorem exchangesOf_run {engine : LSMEngine} {evs : List ServerEvent}
    (hgoes : ∀ ev ∈ evs, GoesOn ev)
    (hclosed : Machine.Along step AcceptsClosed (start engine) evs) {w : World}
    (hrun : Machine.run step (start engine) evs = some w) (fd : Int) :
    exchangesOf w fd = partOf fd (history (start engine) evs) := by
  unfold history
  induction evs using List.reverseRecOn generalizing w with
  | nil =>
      cases hrun
      rfl
  | append_singleton evs ev ih =>
      rcases Machine.run_concat.mp hrun with ⟨w₁, hrun₁, hstep⟩
      rcases Machine.along_concat.mp hclosed with ⟨hclosed₁, hlast⟩
      rw [Machine.trace_concat hrun₁ hstep, partOf_append,
        exchangesOf_step ((isolated_start engine).run hclosed₁ hrun₁) (hgoes ev (by simp))
          (hlast w₁ w hrun₁ hstep) hstep,
        ih (fun ev' hev' => hgoes ev' (List.mem_append_left _ hev')) hclosed₁ hrun₁]

/-- In every run of a server that is not stopped, from an empty directory, on
devices that do not fail, with keys and values that fit their length fields and
a clock that does not go back and names no two files alike: if no value that is
`SET` has the form of a mark, then the commands of all clients are one history,
each answered as the service answers it after those in front; and what is
exchanged with each client is its part of it. -/
theorem server_serves {dataDir : Bytes} {cacheSize : Nat} {threshold : UInt64}
    {evs : List ServerEvent} {w : World} (hgoes : ∀ ev ∈ evs, GoesOn ev)
    (hclosed : Machine.Along step AcceptsClosed
      (start (LSMEngine.start dataDir cacheSize threshold)) evs)
    (hsteady : Service.Steady dataDir cacheSize threshold
      (engineEvents (start (LSMEngine.start dataDir cacheSize threshold)) evs))
    (hplain : ∀ x ∈ history (start (LSMEngine.start dataDir cacheSize threshold)) evs,
      Service.PlainSet x.command)
    (hrun : Machine.run step (start (LSMEngine.start dataDir cacheSize threshold)) evs =
      some w) :
    Machine.Along Service.step Service.Answers Service.empty
        (history (start (LSMEngine.start dataDir cacheSize threshold)) evs) ∧
      ∀ fd, exchangesOf w fd =
        partOf fd (history (start (LSMEngine.start dataDir cacheSize threshold)) evs) :=
  ⟨(serves_run hgoes hsteady hplain hrun).answered, exchangesOf_run hgoes hclosed hrun⟩

/-- One client writes in two chunks, and the other one reads before and after. -/
def interleaved : List ServerEvent :=
  [.round (some 4) [], .round (some 5) [Ready.calm 4 (some (ascii "SET k "))],
    .round none [Ready.calm 5 (some (ascii "GET k\n"))], .compact (Env.calm 1),
    .round none [Ready.calm 4 (some (ascii "v\n")), Ready.calm 5 (some (ascii "GET k\nSTATS\n"))],
    .round none [Ready.calm 5 none]]

theorem server_serves_interleaved :
    ∃ w, Machine.run step (start (LSMEngine.start (ascii "./data") 10 100)) interleaved = some w ∧
      Machine.Along Service.step Service.Answers Service.empty
        (history (start (LSMEngine.start (ascii "./data") 10 100)) interleaved) ∧
      (exchangesOf w 5).map Exchange.response =
        [ascii "NULL\n", ascii "VALUE v\n", ascii "STATS writes=1 reads=2 cache_hits=1 " ++
          ascii "cache_size=1 memtable_bytes=2 memtable_entries=1 sstables=0 " ++
          ascii "cache_hit_rate=50% bloom_saved=0\n"] := by
  have hfacts : (Machine.run step (start (LSMEngine.start (ascii "./data") 10 100))
      interleaved).map (fun w => (exchangesOf w 5).map Exchange.response) =
      some [ascii "NULL\n", ascii "VALUE v\n", ascii "STATS writes=1 reads=2 cache_hits=1 " ++
          ascii "cache_size=1 memtable_bytes=2 memtable_entries=1 sstables=0 " ++
          ascii "cache_hit_rate=50% bloom_saved=0\n"] := by decide +kernel
  rcases Option.map_eq_some_iff.mp hfacts with ⟨w, hrun, hresponses⟩
  have hsteady : Service.Steady (ascii "./data") 10 100
      (engineEvents (start (LSMEngine.start (ascii "./data") 10 100)) interleaved) :=
    ⟨by decide +kernel, by decide +kernel, by decide +kernel, by decide +kernel⟩
  exact ⟨w, hrun, (server_serves (by decide) (by decide +kernel) hsteady (by decide +kernel)
    hrun).1, hresponses⟩

end World

end VaultDB
