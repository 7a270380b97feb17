import VaultDB.Availability

/-! # Isolation of connections

While the process is up, the command lines executed for every client, present or
gone, are those of its own stream; the responses that went through its
descriptor are its part of what the engine answered; and whoever gets the
descriptor next begins with an empty buffer. A process that goes down in the
middle of a chunk leaves lines unexecuted, of one client only. For the lines
this is the whole difference that a fatal request makes
(`connections_isolated_iff`).
-/

namespace VaultDB

open Text FileStream LSMEngine VaultDB.Parser

namespace Daemon

open Intake

/-- The clients that the process has had, present and gone. -/
def allClients (d : Daemon) : List (Int × Client) := d.world.clients ++ d.world.past

/-- Connections are isolated: the lines executed for every client are those of
its own stream, in order, and nothing but this. -/
structure Isolated (engine : LSMEngine) (d : Daemon) : Prop extends Kept engine d where
  served : ∀ p ∈ d.allClients, World.Served p.2

/-- The lines executed for the client are the first ones of its own stream. -/
structure Begun (client : Client) : Prop where
  lines : client.exchanges.map Exchange.line <+: Connection.commandLines client.received
  accepted : ∀ x ∈ client.exchanges, x.accepted ≤ x.response.length

theorem begun_of_served {client : Client} (h : World.Served client) : Begun client :=
  ⟨by rw [h.lines], h.accepted⟩

variable {d d' : Daemon} {r : Reception} {ready : List Reception} {ev : DaemonEvent}
  {engine : LSMEngine}

theorem served_of_isolated (h : World.Isolated d.world) : ∀ p ∈ d.allClients, World.Served p.2 := by
  intro p hp
  rcases List.mem_append.mp hp with hp | hp
  · exact h.served p hp
  · exact h.past p hp

/-! ## Up -/

theorem isolated_step (h : World.Isolated d.world) (hclosed : AcceptsClosed d ev)
    (hstep : d.step ev = some d') (hup : d'.up = true) : World.Isolated d'.world := by
  obtain ⟨-, -, hworld⟩ := step_up hstep hup
  exact h.step hclosed hworld

theorem isolated_run {evs : List DaemonEvent}
    (hclosed : Machine.Along step AcceptsClosed (start engine) evs)
    (hrun : Machine.run step (start engine) evs = some d) (hup : d.up = true) :
    World.Isolated d.world := by
  induction evs using List.reverseRecOn generalizing d with
  | nil =>
      cases hrun
      exact World.isolated_start engine
  | append_singleton evs ev ih =>
      obtain ⟨d₁, hrun₁, hstep⟩ := Machine.run_concat.mp hrun
      obtain ⟨hclosed₁, hlast⟩ := Machine.along_concat.mp hclosed
      obtain ⟨hup₁, -, -⟩ := step_up hstep hup
      exact isolated_step (ih hclosed₁ hrun₁ hup₁) (hlast d₁ d hrun₁ hstep) hstep hup

/-! ## Going down -/

/-- The commands of a chunk are executed in order, up to the end or to the one
that ends the process. -/
theorem commandLoop_lines {envs : Nat → ExecEnv} {room : Nat → Nat} {sigpipe : Nat → Bool}
    {i : Nat} {lines : List Bytes} {e e' : LSMEngine} {up : Bool} {exchanges : List Exchange}
    (hloop : commandLoop envs room sigpipe i lines e = (up, e', exchanges)) :
    exchanges.map Exchange.line <+: lines ∧ ∀ x ∈ exchanges, x.accepted ≤ x.response.length := by
  induction lines generalizing i e exchanges with
  | nil =>
      cases hloop
      simp
  | cons line lines ih =>
      rcases commandLoop_cases hloop with ⟨-, -, rfl⟩ | ⟨response, -, -, -, rfl⟩ |
        ⟨response, e₁, later, -, -, hrest, rfl⟩
      · simp
      · simp
      · obtain ⟨hlines, haccepted⟩ := ih hrest
        refine ⟨List.cons_prefix_cons.mpr ⟨rfl, hlines⟩, ?_⟩
        intro x hx
        rcases List.mem_cons.mp hx with rfl | hx
        · exact Nat.min_le_right _ _
        · exact haccepted x hx

/-- A loop that breaks off, though every response can be sent, leaves a command
without one. -/
theorem commandLoop_cut {envs : Nat → ExecEnv} {room : Nat → Nat} {sigpipe : Nat → Bool} {i : Nat}
    {lines : List Bytes} {e e' : LSMEngine} {exchanges : List Exchange}
    (hsent : ∀ q ∈ chunkRequests envs sigpipe i lines, q.sigpipe = false)
    (hloop : commandLoop envs room sigpipe i lines e = (false, e', exchanges)) :
    exchanges.length < lines.length := by
  induction lines generalizing i e exchanges with
  | nil => cases hloop
  | cons line lines ih =>
      unfold chunkRequests at hsent
      obtain ⟨hfirst, hlater⟩ := List.forall_mem_cons.mp hsent
      rcases commandLoop_cases hloop with ⟨-, -, rfl⟩ | ⟨response, -, hpipe, -, -⟩ |
        ⟨response, e₁, later, -, -, hrest, rfl⟩
      · exact Nat.succ_pos _
      · rw [hpipe] at hfirst
        cases hfirst
      · exact Nat.succ_lt_succ (ih hlater hrest)

/-- The client whose chunk is handled has been served a first part of its
stream, and the others are as they were. -/
theorem handleClient_begun (h : World.Isolated d.world) (r : Reception) :
    ∀ p ∈ (d.handleClient r).2.allClients, Begun p.2 := by
  rcases hhandle : d.handleClient r with ⟨alive, d'⟩
  have hbegun : ∀ p ∈ d.allClients, Begun p.2 := fun p hp =>
    begun_of_served (served_of_isolated h p hp)
  cases received hhandle with
  | idle hdata => exact hbegun
  | unknown chunk hdata hne hconn =>
      rw [h.same.update_unknown hconn]
      exact hbegun
  | served chunk conn up e exchanges hdata hne hconn hloop =>
      rw [h.same] at hconn
      obtain ⟨client, hclient, rfl⟩ := Option.map_eq_some_iff.mp hconn
      obtain ⟨hlines, haccepted⟩ := commandLoop_lines hloop
      have hserved := h.served _ (Assoc.mem_of_get hclient)
      intro p hp
      unfold allClients World.update at hp
      rw [hclient] at hp
      rcases List.mem_append.mp hp with hp | hp
      · rcases Assoc.mem_put hp with rfl | hp
        · -- what is unfinished of its stream stands in front of the chunk
          refine ⟨?_, ?_⟩
          · rw [List.map_append, hserved.lines, Connection.commandLines_append]
            exact (List.prefix_append_right_inj _).mpr hlines
          · intro x hx
            rcases List.mem_append.mp hx with hx | hx
            · exact hserved.accepted x hx
            · exact haccepted x hx
        · exact hbegun p (List.mem_append_left _ hp)
      · exact hbegun p (List.mem_append_right _ hp)

/-- A chunk in which the process goes down, though all responses can be sent,
leaves its client with a line that was not answered. -/
theorem handleClient_cut (h : World.Isolated d.world) (hup : d.up = true)
    (hsent : ∀ q ∈ chunkRequests r.envs r.sigpipe 0 (completed d.world.connections r),
      q.sigpipe = false)
    (hdown : (d.handleClient r).2.up = false) :
    ∃ p ∈ (d.handleClient r).2.allClients, ¬ World.Served p.2 := by
  rcases hhandle : d.handleClient r with ⟨alive, d'⟩
  rw [hhandle] at hdown
  cases received hhandle with
  | idle hdata =>
      rw [hup] at hdown
      cases hdown
  | unknown chunk hdata hne hconn =>
      rw [hup] at hdown
      cases hdown
  | served chunk conn up e exchanges hdata hne hconn hloop =>
      unfold completed at hsent
      simp only [hdata, hconn, if_neg hne] at hsent
      have hbroken : up = false := hdown
      rw [hbroken] at hloop
      rw [h.same] at hconn
      obtain ⟨client, hclient, rfl⟩ := Option.map_eq_some_iff.mp hconn
      have hshort : exchanges.length <
          (Connection.commandLines (Connection.unfinished client.received ++ chunk)).length :=
        commandLoop_cut hsent hloop
      have hserved := h.served _ (Assoc.mem_of_get hclient)
      refine ⟨(r.fd, ⟨client.received ++ chunk, client.exchanges ++ exchanges⟩), ?_, ?_⟩
      · refine List.mem_append_left _ (Assoc.mem_of_get ?_)
        rw [World.get_update, if_pos rfl, hclient]
        rfl
      · intro hwhole
        have hlines := hwhole.lines
        rw [List.map_append, hserved.lines, Connection.commandLines_append] at hlines
        have hsame := congrArg List.length (List.append_cancel_left hlines)
        rw [List.length_map] at hsame
        omega

theorem handleAll_begun (h : World.Isolated d.world) (hup : d.up = true) (ready : List Reception) :
    ∀ p ∈ (handleAll d ready).2.allClients, Begun p.2 := by
  induction ready generalizing d with
  | nil => exact fun p hp => begun_of_served (served_of_isolated h p hp)
  | cons r ready ih =>
      rw [handleAll_cons hup]
      cases hup' : (d.handleClient r).2.up with
      | false =>
          rw [handleAll_down hup']
          exact handleClient_begun h r
      | true => exact ih (h.handleClient (handleClient_up rfl hup')) hup'

theorem handleAll_cut (h : World.Isolated d.world) (hfit : d.world.engine.Fit) (hup : d.up = true)
    (hsent : ∀ q ∈ requestsAll d.world.connections ready, q.sigpipe = false)
    (hdown : (handleAll d ready).2.up = false) :
    ∃ p ∈ (handleAll d ready).2.allClients, ¬ World.Served p.2 := by
  induction ready generalizing d with
  | nil =>
      rw [handleAll, hup] at hdown
      cases hdown
  | cons r ready ih =>
      obtain ⟨-, htaken, hfit'⟩ := handleClient_intake hfit hup r
      unfold requestsAll at hsent
      rw [← htaken] at hsent
      obtain ⟨hfirst, hrest⟩ := List.forall_mem_append.mp hsent
      rw [handleAll_cons hup] at hdown ⊢
      cases hup' : (d.handleClient r).2.up with
      | false =>
          rw [handleAll_down hup']
          exact handleClient_cut h hup hfirst hup'
      | true => exact ih (h.handleClient (handleClient_up rfl hup')) hfit' hup' hrest hdown

theorem next_begun (h : World.Isolated d.world) (hup : d.up = true) (hclosed : AcceptsClosed d ev) :
    ∀ p ∈ (d.next ev).allClients, Begun p.2 := by
  cases hup' : (d.next ev).up with
  | true =>
      intro p hp
      exact begun_of_served (served_of_isolated (h.step hclosed (next_up hup')) p hp)
  | false =>
      obtain ⟨accepted, ready, rfl, hnext⟩ := next_down hup hup'
      have haccepted : World.Isolated (d.acceptConnection accepted).world :=
        h.acceptConnection (not_open hclosed)
      rw [hnext]
      cases hroom : (d.acceptConnection accepted).up with
      | true => exact handleAll_begun haccepted hroom ready
      | false =>
          -- the descriptor that came in has no room, and nobody was handled
          rw [handleAll_down hroom]
          exact fun p hp => begun_of_served (served_of_isolated haccepted p hp)

theorem next_cut (h : World.Isolated d.world) (hfit : d.world.engine.Fit) (hup : d.up = true)
    (hclosed : AcceptsClosed d ev) (hfits : ev.Fits)
    (hsent : ∀ q ∈ requestsOf d.world.connections ev, q.sigpipe = false)
    (hdown : (d.next ev).up = false) : ∃ p ∈ (d.next ev).allClients, ¬ World.Served p.2 := by
  obtain ⟨accepted, ready, rfl, hnext⟩ := next_down hup hdown
  have haccepted : World.Isolated (d.acceptConnection accepted).world :=
    h.acceptConnection (not_open hclosed)
  have hfit' := fit_acceptConnection hfit accepted
  have hroom : (d.acceptConnection accepted).up = true :=
    (acceptConnection_up hup accepted).mpr hfits
  have hsent' : ∀ q ∈ requestsAll (d.acceptConnection accepted).world.connections ready,
      q.sigpipe = false := by
    rw [connections_acceptConnection]
    exact hsent
  rw [hnext] at hdown ⊢
  exact handleAll_cut haccepted hfit' hroom hsent' hdown

theorem begun_run {evs : List DaemonEvent}
    (hclosed : Machine.Along step AcceptsClosed (start engine) evs)
    (hrun : Machine.run step (start engine) evs = some d) : ∀ p ∈ d.allClients, Begun p.2 := by
  induction evs using List.reverseRecOn generalizing d with
  | nil =>
      cases hrun
      intro p hp
      cases hp
  | append_singleton evs ev ih =>
      obtain ⟨d₁, hrun₁, hstep⟩ := Machine.run_concat.mp hrun
      obtain ⟨hclosed₁, hlast⟩ := Machine.along_concat.mp hclosed
      have hev := hlast d₁ d hrun₁ hstep
      cases hup : d₁.up with
      | true =>
          have h₁ := isolated_run hclosed₁ hrun₁ hup
          unfold step at hstep
          rw [if_pos hup] at hstep
          cases hstep
          exact next_begun h₁ hup hev
      | false =>
          have hlater : Machine.run step d₁ [ev] = some d := Machine.run_cons.mpr ⟨d, hstep, rfl⟩
          rw [run_down hup hlater]
          exact ih hclosed₁ hrun₁

/-- A run that ends the process though every response can be sent, and every
descriptor has room, leaves a line unexecuted. -/
theorem cut_run (h : World.Isolated d.world) (hfit : d.world.engine.Fit) (hup : d.up = true)
    {evs : List DaemonEvent} (hclosed : Machine.Along step AcceptsClosed d evs)
    (hfits : ∀ ev ∈ evs, ev.Fits)
    (hsent : ∀ q ∈ requests d.world.connections evs, q.sigpipe = false)
    (hrun : Machine.run step d evs = some d') (hdown : d'.up = false) :
    ∃ p ∈ d'.allClients, ¬ World.Served p.2 := by
  induction evs generalizing d with
  | nil =>
      cases hrun
      rw [hup] at hdown
      cases hdown
  | cons ev evs ih =>
      obtain ⟨d₁, hstep, hrest⟩ := Machine.run_cons.mp hrun
      obtain ⟨hev, hclosed'⟩ := hclosed d₁ hstep
      obtain ⟨hfirst, hlater⟩ := List.forall_mem_append.mp hsent
      obtain ⟨hone, hafter⟩ := next_intake hfit hup ev
      unfold step at hstep
      rw [if_pos hup] at hstep
      cases hstep
      cases hup' : (d.next ev).up with
      | true =>
          -- the connections are those of the intake, so the requests left are the same
          obtain ⟨hconns, hfit'⟩ := hafter hup'
          rw [← hconns] at hlater
          exact ih (h.step hev (next_up hup')) hfit' hup' hclosed'
            (fun ev' hev' => hfits ev' (List.mem_cons_of_mem _ hev')) hlater hrest
      | false =>
          rw [run_down hup' hrest]
          exact next_cut h hfit hup hev (hfits ev List.mem_cons_self) hfirst hup'

/-- In every run of the process, whoever comes and goes and whatever descriptors
are used again: what went through a descriptor is its part of what the engine
answered, and every client has been served a first part of its own stream. If
the cache has room, every descriptor fits the sets of `select`, no request is
fatal and no response meets a peer that is gone, it has been served all of it.
And a fatal request, the others being met, leaves a line unexecuted. -/
theorem connections_isolated_iff {disk : DataDir} {dataDir : Bytes} {cacheSize : Nat}
    {threshold : UInt64} {now : Nat} {dev : Device} {evs : List DaemonEvent}
    (hclosed : Machine.Along step AcceptsClosed
      (start (LSMEngine.new disk dataDir cacheSize threshold now dev)) evs)
    (hrun : Machine.run step (start (LSMEngine.new disk dataDir cacheSize threshold now dev))
      evs = some d) :
    (Kept (LSMEngine.new disk dataDir cacheSize threshold now dev) d ∧
      ∀ p ∈ d.allClients, Begun p.2) ∧
    ((0 < cacheSize ∧ (∀ ev ∈ evs, ev.Fits) ∧ ∀ q ∈ requests [] evs, q.Survived) →
      Isolated (LSMEngine.new disk dataDir cacheSize threshold now dev) d) ∧
    (0 < cacheSize → (∀ ev ∈ evs, ev.Fits) → (∀ q ∈ requests [] evs, q.sigpipe = false) →
      Isolated (LSMEngine.new disk dataDir cacheSize threshold now dev) d →
      ∀ q ∈ requests [] evs, ¬ Fatal q.command q.nowNs) := by
  have hkept := kept_run hclosed hrun
  refine ⟨⟨hkept, begun_run hclosed hrun⟩, ?_, ?_⟩
  · -- such a run is survived, and a process that is up has served everyone
    rintro ⟨hcache, hfits, hsurvived⟩
    have hup := (run_intake (fit_new disk dataDir hcache threshold now dev) rfl hrun).mpr
      ⟨hfits, hsurvived⟩
    exact ⟨hkept, served_of_isolated (isolated_run hclosed hrun hup)⟩
  · intro hcache hfits hsent hisolated
    have hfit := fit_new disk dataDir hcache threshold now dev
    cases hup : d.up with
    | true =>
        intro q hq
        exact (((run_intake hfit rfl hrun).mp hup).2 q hq).1
    | false =>
        obtain ⟨p, hp, hcut⟩ :=
          cut_run (World.isolated_start _) hfit rfl hclosed hfits hsent hrun hup
        exact absurd (hisolated.served p hp) hcut

/-- A client leaves in the middle of a command, and another one gets its descriptor. -/
def reuse : List DaemonEvent :=
  [.round (some 4) [],
    .round none [⟨World.Ready.calm 4 (some (ascii "GET k\nDEL")), fun _ => false⟩],
    .round none [⟨World.Ready.calm 4 none, fun _ => false⟩], .round (some 4) [],
    .round none [⟨World.Ready.calm 4 (some (ascii "PING\n")), fun _ => false⟩]]

theorem connections_isolated_iff_reuse :
    ∃ d, Machine.run step
        (start (LSMEngine.new DataDir.empty (ascii "./data") 10 100 0 Device.sound)) reuse =
        some d ∧
      Isolated (LSMEngine.new DataDir.empty (ascii "./data") 10 100 0 Device.sound) d ∧
      d.world.past = [(4, ⟨ascii "GET k\nDEL", [⟨ascii "GET k", ascii "NULL\n", 5⟩]⟩)] ∧
      d.world.clients = [(4, ⟨ascii "PING\n", [⟨ascii "PING", ascii "PONG\n", 5⟩]⟩)] := by
  have hran : (Machine.run step
      (start (LSMEngine.new DataDir.empty (ascii "./data") 10 100 0 Device.sound)) reuse).map
      (fun d => (d.world.past, d.world.clients)) =
      some ([(4, ⟨ascii "GET k\nDEL", [⟨ascii "GET k", ascii "NULL\n", 5⟩]⟩)],
        [(4, ⟨ascii "PING\n", [⟨ascii "PING", ascii "PONG\n", 5⟩]⟩)]) := by decide +kernel
  obtain ⟨d, hrun, hlists⟩ := Option.map_eq_some_iff.mp hran
  simp only [Prod.mk.injEq] at hlists
  have hisolated := (connections_isolated_iff (by decide +kernel) hrun).2.1
    ⟨by decide, by decide +kernel, by decide +kernel⟩
  exact ⟨d, hrun, hisolated, hlists.1, hlists.2⟩

/-- The second line of the chunk ends the process, and the third one is not executed. -/
theorem cut_short_badSeconds :
    ∃ d, Machine.Along step AcceptsClosed
        (start (LSMEngine.new DataDir.empty [] 1 100 0 Device.sound)) badSeconds ∧
      Machine.run step (start (LSMEngine.new DataDir.empty [] 1 100 0 Device.sound)) badSeconds =
        some d ∧
      d.world.clients =
        [(5, ⟨ascii "PING\nTTL k abc v\nPING\n", [⟨ascii "PING", ascii "PONG\n", 5⟩]⟩)] ∧
      ¬ Isolated (LSMEngine.new DataDir.empty [] 1 100 0 Device.sound) d := by
  have hran : (Machine.run step (start (LSMEngine.new DataDir.empty [] 1 100 0 Device.sound))
      badSeconds).map (fun d => d.world.clients) =
      some [(5, ⟨ascii "PING\nTTL k abc v\nPING\n", [⟨ascii "PING", ascii "PONG\n", 5⟩]⟩)] := by
    decide +kernel
  obtain ⟨d, hrun, hclients⟩ := Option.map_eq_some_iff.mp hran
  refine ⟨d, by decide +kernel, hrun, hclients, ?_⟩
  intro hisolated
  have hmem : ((5 : Int), (⟨ascii "PING\nTTL k abc v\nPING\n",
      [⟨ascii "PING", ascii "PONG\n", 5⟩]⟩ : Client)) ∈ d.allClients := by
    unfold allClients
    rw [hclients]
    exact List.mem_append_left _ List.mem_cons_self
  have hlines := (hisolated.served _ hmem).lines
  revert hlines
  decide +kernel

end Daemon

end VaultDB
