import VaultDB.Daemon

/-! # Turns of the event loop

`Server::start` waits in `select` for what can be read and handles each
descriptor once, with one `recv` of 4095 bytes at most. Here the other side is
added: bytes come in at any time and wait in the socket, and a turn handles
exactly the descriptors that `select` reports, in any order. As long as the
process is up no client starves: what a client has sent is read, and its
commands are executed, within as many turns as it is chunks long, whatever the
other clients send (`no_starvation`).
-/

namespace VaultDB

open Text

/-- The other end of a connection. -/
inductive Peer where
  | connected
  | closed
  | reset
deriving Repr, DecidableEq

/-- The operating system's side of a client's descriptor: what has come in and
was not read. -/
structure Socket where
  pending : Bytes
  peer : Peer
deriving Repr, DecidableEq

namespace Socket

def new : Socket := ⟨[], .connected⟩

/-- `select` reports bytes, the end of the stream and an error. -/
def readable (s : Socket) : Bool := !s.pending.isEmpty || s.peer ≠ .connected

/-- What `recv` into 4095 bytes returns. -/
def recv (s : Socket) : Option Bytes :=
  if s.peer = .reset then none else some (s.pending.take 4095)

/-- And what it leaves. -/
def drain (s : Socket) : Socket := { s with pending := s.pending.drop 4095 }

end Socket

/-- The process and the sockets of the descriptors that are open. -/
structure Net where
  daemon : Daemon
  sockets : List (Int × Socket)

inductive NetEvent where
  | arrive (fd : Int) (bytes : Bytes)
  | leave (fd : Int) (peer : Peer)
  /-- One turn of the loop. The descriptors of the map come in any order. -/
  | turn (accepted : Option Int) (order : List Int) (envs : Int → Nat → ExecEnv)
    (room : Int → Nat → Nat) (sigpipe : Int → Nat → Bool)
  | compact (env : Env)

namespace Net

def start (engine : LSMEngine) : Net := ⟨Daemon.start engine, []⟩

/-- The descriptors that `select` reports. -/
def readable (n : Net) : List Int := (n.sockets.filter fun p => p.2.readable).map Prod.fst

/-- A descriptor of the turn, with what `recv` returns. -/
def ready (n : Net) (envs : Int → Nat → ExecEnv) (room : Int → Nat → Nat) (fd : Int) : Ready :=
  ⟨fd, (Assoc.get fd n.sockets).bind Socket.recv, envs fd, room fd⟩

/-- The socket of a descriptor after a turn. -/
def socketAfter (n : Net) (order : List Int) (fd : Int) : Socket :=
  match Assoc.get fd n.sockets with
  | none => Socket.new
  | some s => if fd ∈ order then s.drain else s

/-- Something happens to one socket. -/
def modify (fd : Int) (f : Socket → Socket) (sockets : List (Int × Socket)) :
    List (Int × Socket) :=
  sockets.map fun p => if p.1 = fd then (p.1, f p.2) else p

def step (n : Net) : NetEvent → Option Net
  | .arrive fd bytes =>
    some { n with
      sockets := modify fd (fun s => { s with pending := s.pending ++ bytes }) n.sockets }
  | .leave fd peer => some { n with sockets := modify fd (fun s => { s with peer }) n.sockets }
  | .turn accepted order envs room sigpipe =>
    if order.Perm n.readable then do
      let daemon ← n.daemon.step
        (.round accepted (order.map fun fd => ⟨n.ready envs room fd, sigpipe fd⟩))
      return ⟨daemon, daemon.world.clients.map fun p => (p.1, n.socketAfter order p.1)⟩
    else none
  | .compact env => do
    let daemon ← n.daemon.step (.compact env)
    return { n with daemon }

/-- `accept` returns a descriptor that is not open. -/
def AcceptsClosed (n : Net) : NetEvent → Prop
  | .turn accepted _ _ _ _ => World.AcceptsClosed n.daemon.world (.round accepted [])
  | _ => True

instance (n : Net) : (ev : NetEvent) → Decidable (AcceptsClosed n ev)
  | .turn accepted _ _ _ _ =>
    inferInstanceAs (Decidable (World.AcceptsClosed n.daemon.world (.round accepted [])))
  | .arrive _ _ => isTrue trivial
  | .leave _ _ => isTrue trivial
  | .compact _ => isTrue trivial

def isTurn : NetEvent → Bool
  | .turn .. => true
  | _ => false

/-- The client at a descriptor goes away. -/
def Leaves (fd : Int) (ev : NetEvent) : Prop := ∃ peer, ev = .leave fd peer

end Net

namespace World

variable {w w' : World} {r : Ready} {alive : Bool} {fd : Int} {client : Client}

/-! ## The clients of one round -/

theorem get_handleClient_ne (hhandle : w.handleClient r = some (alive, w')) (hfd : fd ≠ r.fd) :
    Assoc.get fd w'.clients = Assoc.get fd w.clients := by
  cases handled hhandle with
  | idle hdata heq => rw [heq]
  | unknown chunk hconn heq =>
      rw [heq]
      show Assoc.get fd (update r.fd _ w.clients) = _
      rw [get_update, if_neg hfd]
  | served chunk conn engine exchanges hdata hne hconn hloop heq =>
      rw [heq]
      show Assoc.get fd (update r.fd _ w.clients) = _
      rw [get_update, if_neg hfd]

/-- A client that has sent something is read and stays. -/
theorem handleClient_chunk (h : Isolated w) (hclient : Assoc.get r.fd w.clients = some client)
    {chunk : Bytes} (hdata : r.data = some chunk) (hne : chunk ≠ [])
    (hhandle : w.handleClient r = some (alive, w')) :
    alive = true ∧ ∃ exchanges,
      Assoc.get r.fd w'.clients = some ⟨client.received ++ chunk, exchanges⟩ := by
  have hconn := h.same r.fd
  rw [hclient, Option.map_some] at hconn
  have halive : alive = true := by
    unfold World.handleClient at hhandle
    rw [hdata] at hhandle
    cases chunk with
    | nil => exact absurd rfl hne
    | cons b chunk =>
        simp only [hconn, bind, Option.bind_eq_some_iff, pure, Option.some.injEq, Prod.mk.injEq]
          at hhandle
        obtain ⟨_, _, _, _, rfl, _⟩ := hhandle
        rfl
  refine ⟨halive, ?_⟩
  cases handled hhandle with
  | idle hidle heq =>
      rw [hdata] at hidle
      rcases hidle with hidle | hidle
      · cases hidle
      · exact absurd (Option.some.inj hidle) hne
  | unknown chunk' hnone heq =>
      rw [hconn] at hnone
      cases hnone
  | served chunk' conn engine exchanges hdata' hne' hconn' hloop heq =>
      rw [hdata] at hdata'
      cases hdata'
      rw [heq]
      show ∃ _, Assoc.get r.fd (update r.fd _ w.clients) = _
      rw [get_update, if_pos rfl, hclient]
      exact ⟨_, rfl⟩

/-- The first descriptor is closed in the end if `handle_client` says so. -/
theorem handleAll_removed {ready : List Ready} {toRemove : List Int}
    (h : handleAll w (r :: ready) = some (toRemove, w')) :
    ∃ alive w₁ removed, w.handleClient r = some (alive, w₁) ∧
      handleAll w₁ ready = some (removed, w') ∧
      toRemove = if alive then removed else r.fd :: removed := by
  simp only [handleAll, bind, Option.bind_eq_some_iff, Prod.exists, pure, Option.some.injEq,
    Prod.mk.injEq] at h
  obtain ⟨alive, w₁, hfirst, removed, w₂, hrest, rfl, rfl⟩ := h
  exact ⟨alive, w₁, removed, hfirst, hrest, rfl⟩

/-- Handling others leaves a client alone. -/
theorem get_handleAll_ne {ready : List Ready} {toRemove : List Int}
    (hhandle : handleAll w ready = some (toRemove, w')) (hfd : fd ∉ ready.map Ready.fd) :
    fd ∉ toRemove ∧ Assoc.get fd w'.clients = Assoc.get fd w.clients := by
  induction ready generalizing w toRemove with
  | nil =>
      cases hhandle
      exact ⟨List.not_mem_nil, rfl⟩
  | cons r ready ih =>
      obtain ⟨alive, w₁, removed, hfirst, hrest, rfl⟩ := handleAll_removed hhandle
      rw [List.map_cons, List.mem_cons, not_or] at hfd
      obtain ⟨hkept, hget⟩ := ih hrest hfd.2
      refine ⟨?_, hget.trans (get_handleClient_ne hfirst hfd.1)⟩
      split_ifs
      · exact hkept
      · exact List.not_mem_cons_of_ne_of_not_mem hfd.1 hkept

/-- Each descriptor is handled once, and a client that has sent something stays. -/
theorem get_handleAll {ready : List Ready} {toRemove : List Int} (h : Isolated w)
    (hclient : Assoc.get r.fd w.clients = some client) (hnodup : (ready.map Ready.fd).Nodup)
    (hr : r ∈ ready) {chunk : Bytes} (hdata : r.data = some chunk) (hne : chunk ≠ [])
    (hhandle : handleAll w ready = some (toRemove, w')) :
    r.fd ∉ toRemove ∧ ∃ exchanges,
      Assoc.get r.fd w'.clients = some ⟨client.received ++ chunk, exchanges⟩ := by
  induction ready generalizing w toRemove with
  | nil => cases hr
  | cons first ready ih =>
      obtain ⟨alive, w₁, removed, hfirst, hrest, rfl⟩ := handleAll_removed hhandle
      obtain ⟨hnew, hnodup'⟩ := List.nodup_cons.mp hnodup
      rcases List.mem_cons.mp hr with rfl | hr
      · obtain ⟨rfl, exchanges, hget⟩ := handleClient_chunk h hclient hdata hne hfirst
        obtain ⟨hkept, hsame⟩ := get_handleAll_ne hrest hnew
        exact ⟨hkept, exchanges, hsame.trans hget⟩
      · have hother : r.fd ≠ first.fd := by
          intro heq
          exact hnew (heq ▸ List.mem_map_of_mem hr)
        have hclient₁ := (get_handleClient_ne hfirst hother).trans hclient
        obtain ⟨hkept, hget⟩ := ih (h.handleClient hfirst) hclient₁ hnodup' hr hrest
        refine ⟨?_, hget⟩
        split_ifs
        · exact hkept
        · exact List.not_mem_cons_of_ne_of_not_mem hother hkept

theorem get_closeAll {toRemove : List Int} (hfd : fd ∉ toRemove) :
    Assoc.get fd (toRemove.foldl closeConnection w).clients = Assoc.get fd w.clients := by
  induction toRemove generalizing w with
  | nil => rfl
  | cons gone toRemove ih =>
      rw [List.mem_cons, not_or] at hfd
      rw [List.foldl_cons, ih hfd.2]
      exact Assoc.get_erase_ne hfd.1 w.clients

theorem get_acceptConnection {accepted : Option Int}
    (hclosed : ∀ fd, accepted = some fd → Assoc.get fd w.clients = none)
    (hclient : Assoc.get fd w.clients = some client) :
    Assoc.get fd (w.acceptConnection accepted).clients = some client := by
  cases accepted with
  | none => exact hclient
  | some new =>
      have hne : fd ≠ new := by
        rintro rfl
        rw [hclosed fd rfl] at hclient
        cases hclient
      exact (Assoc.get_put_ne hne _ _).trans hclient

/-! ## Keys -/

theorem nodup_update {f : Client → Client} {clients : List (Int × Client)}
    (h : (clients.map Prod.fst).Nodup) : ((update fd f clients).map Prod.fst).Nodup := by
  unfold update
  cases Assoc.get fd clients with
  | none => exact h
  | some client => exact Assoc.nodup_put h

theorem nodup_handleAll {ready : List Ready} {toRemove : List Int}
    (h : (w.clients.map Prod.fst).Nodup) (hhandle : handleAll w ready = some (toRemove, w')) :
    (w'.clients.map Prod.fst).Nodup := by
  induction ready generalizing w toRemove with
  | nil =>
      cases hhandle
      exact h
  | cons r ready ih =>
      obtain ⟨alive, w₁, removed, hfirst, hrest, -⟩ := handleAll_removed hhandle
      refine ih ?_ hrest
      cases handled hfirst with
      | idle hdata heq =>
          rw [heq]
          exact h
      | unknown chunk hconn heq =>
          rw [heq]
          exact nodup_update h
      | served chunk conn engine exchanges hdata hne hconn hloop heq =>
          rw [heq]
          exact nodup_update h

theorem nodup_round {accepted : Option Int} {ready : List Ready}
    (h : (w.clients.map Prod.fst).Nodup) (hstep : w.step (.round accepted ready) = some w') :
    (w'.clients.map Prod.fst).Nodup := by
  obtain ⟨toRemove, w₁, hhandle, rfl⟩ := step_round hstep
  have haccepted : ((w.acceptConnection accepted).clients.map Prod.fst).Nodup := by
    cases accepted with
    | none => exact h
    | some fd => exact Assoc.nodup_put h
  have hall := nodup_handleAll haccepted hhandle
  clear hstep hhandle
  induction toRemove generalizing w₁ with
  | nil => exact hall
  | cons gone toRemove ih => exact ih (w₁.closeConnection gone) (Assoc.nodup_erase hall)

end World

namespace Net

variable {n n' : Net} {fd : Int} {s : Socket} {client : Client} {ev : NetEvent}

theorem get_modify (fd fd' : Int) (f : Socket → Socket) (sockets : List (Int × Socket)) :
    Assoc.get fd' (modify fd f sockets) =
      if fd' = fd then (Assoc.get fd' sockets).map f else Assoc.get fd' sockets := by
  unfold modify
  induction sockets with
  | nil => simp
  | cons p sockets ih =>
      obtain ⟨fd₁, s₁⟩ := p
      rw [List.map_cons]
      by_cases hkey : fd' = fd₁
      · subst hkey
        by_cases hfd : fd' = fd
        · simp [hfd, Assoc.get_cons_self]
        · simp [hfd, Assoc.get_cons_self]
      · by_cases hfd : fd₁ = fd
        · rw [if_pos hfd, Assoc.get_cons_ne hkey, Assoc.get_cons_ne hkey, ih]
        · rw [if_neg hfd, Assoc.get_cons_ne hkey, Assoc.get_cons_ne hkey, ih]

theorem keys_modify (fd : Int) (f : Socket → Socket) (sockets : List (Int × Socket)) :
    (modify fd f sockets).map Prod.fst = sockets.map Prod.fst := by
  unfold modify
  rw [List.map_map]
  apply List.map_congr_left
  intro p hp
  show (if p.1 = fd then (p.1, f p.2) else p).1 = p.1
  split_ifs <;> rfl

/-- Every open descriptor has one client and one socket. -/
structure Paired (n : Net) : Prop where
  isolated : World.Isolated n.daemon.world
  keys : n.sockets.map Prod.fst = n.daemon.world.clients.map Prod.fst
  nodup : (n.daemon.world.clients.map Prod.fst).Nodup

theorem paired_start (engine : LSMEngine) : Paired (start engine) :=
  ⟨World.isolated_start engine, rfl, List.nodup_nil⟩

section Turn

variable {accepted : Option Int} {order : List Int} {envs : Int → Nat → ExecEnv}
  {room : Int → Nat → Nat} {sigpipe : Int → Nat → Bool}

theorem not_open (hclosed : AcceptsClosed n (.turn accepted order envs room sigpipe)) :
    ∀ fd, accepted = some fd → Assoc.get fd n.daemon.world.clients = none := by
  rintro fd rfl
  exact hclosed

/-- A turn is one of the process. -/
theorem step_turn (hstep : n.step (.turn accepted order envs room sigpipe) = some n') :
    order.Perm n.readable ∧
      n.daemon.step (.round accepted (order.map fun fd => ⟨n.ready envs room fd, sigpipe fd⟩)) =
        some n'.daemon ∧
      n'.sockets = n'.daemon.world.clients.map fun p => (p.1, n.socketAfter order p.1) := by
  simp only [step] at hstep
  split_ifs at hstep with hperm
  simp only [bind, Option.bind_eq_some_iff, pure, Option.some.injEq] at hstep
  obtain ⟨daemon, hround, rfl⟩ := hstep
  exact ⟨hperm, hround, rfl⟩

/-- As long as the process is up, the turn is one of its loop. -/
theorem step_turn_up (hstep : n.step (.turn accepted order envs room sigpipe) = some n')
    (hup : n'.daemon.up = true) :
    n.daemon.world.step (.round accepted (order.map (n.ready envs room))) =
      some n'.daemon.world := by
  obtain ⟨-, hround, -⟩ := step_turn hstep
  obtain ⟨-, -, hworld⟩ := Daemon.step_up hround hup
  simpa [DaemonEvent.plain, Function.comp_def] using hworld

end Turn

theorem step_compact {env : Env} (hstep : n.step (.compact env) = some n') :
    n.daemon.step (.compact env) = some n'.daemon ∧ n'.sockets = n.sockets := by
  simp only [step, bind, Option.bind_eq_some_iff, pure, Option.some.injEq] at hstep
  obtain ⟨daemon, hdaemon, rfl⟩ := hstep
  exact ⟨hdaemon, rfl⟩

theorem step_up (hstep : n.step ev = some n') (hup : n'.daemon.up = true) :
    n.daemon.up = true := by
  cases ev with
  | arrive fd bytes =>
      cases hstep
      exact hup
  | leave fd peer =>
      cases hstep
      exact hup
  | turn accepted order envs room sigpipe => exact (Daemon.step_up (step_turn hstep).2.1 hup).1
  | compact env => exact (Daemon.step_up (step_compact hstep).1 hup).1

theorem Paired.step (h : Paired n) (hclosed : AcceptsClosed n ev) (hstep : n.step ev = some n')
    (hup : n'.daemon.up = true) : Paired n' := by
  cases ev with
  | arrive fd bytes =>
      cases hstep
      have hkeys := keys_modify fd (fun s => { s with pending := s.pending ++ bytes }) n.sockets
      exact ⟨h.isolated, hkeys.trans h.keys, h.nodup⟩
  | leave fd peer =>
      cases hstep
      have hkeys := keys_modify fd (fun s => { s with peer }) n.sockets
      exact ⟨h.isolated, hkeys.trans h.keys, h.nodup⟩
  | turn accepted order envs room sigpipe =>
      obtain ⟨-, -, hsockets⟩ := step_turn hstep
      have hround := step_turn_up hstep hup
      refine ⟨h.isolated.step ?_ hround, ?_, World.nodup_round h.nodup hround⟩
      · cases accepted with
        | none => trivial
        | some fd => exact hclosed
      · rw [hsockets, List.map_map]
        rfl
  | compact env =>
      obtain ⟨hdaemon, hsockets⟩ := step_compact hstep
      obtain ⟨-, hnext, hworld⟩ := Daemon.step_up hdaemon hup
      have hnone : World.AcceptsClosed n.daemon.world (.compact env) := trivial
      refine ⟨h.isolated.step hnone hworld, ?_, ?_⟩
      · rw [hsockets, hnext]
        exact h.keys
      · rw [hnext]
        exact h.nodup

theorem paired_run {engine : LSMEngine} {evs : List NetEvent}
    (hclosed : Machine.Along step AcceptsClosed (start engine) evs)
    (hrun : Machine.run step (start engine) evs = some n) (hup : n.daemon.up = true) :
    Paired n := by
  -- who is up at the end was up after every step
  refine Machine.run_invariant (I := fun n => n.daemon.up = true → Paired n) ?_ ?_ hclosed hrun hup
  · intro n ev n' h hclosed hstep hup
    exact (h (step_up hstep hup)).step hclosed hstep hup
  · intro _
    exact paired_start engine

/-- Up or down, the responses are those of the engine. -/
theorem kept_run {engine : LSMEngine} {evs : List NetEvent}
    (hclosed : Machine.Along step AcceptsClosed (start engine) evs)
    (hrun : Machine.run step (start engine) evs = some n) : Daemon.Kept engine n.daemon := by
  refine Machine.run_invariant (I := fun n => Daemon.Kept engine n.daemon) ?_
    (Daemon.kept_start engine) hclosed hrun
  intro n ev n' h hclosed hstep
  cases ev with
  | arrive fd bytes =>
      cases hstep
      exact h
  | leave fd peer =>
      cases hstep
      exact h
  | turn accepted order envs room sigpipe =>
      refine h.step ?_ (step_turn hstep).2.1
      cases accepted with
      | none => trivial
      | some fd => exact hclosed
  | compact env =>
      have hnone : Daemon.AcceptsClosed n.daemon (.compact env) := trivial
      exact h.step hnone (step_compact hstep).1

/-! ## Progress of one client -/

/-- A client whose connection stands, with what it has sent and the server has
not read. -/
structure Connected (n : Net) (fd : Int) (client : Client) (pending : Bytes) : Prop where
  client : Assoc.get fd n.daemon.world.clients = some client
  socket : Assoc.get fd n.sockets = some ⟨pending, .connected⟩

variable {pending : Bytes}

theorem mem_readable (h : Paired n) (hsocket : Assoc.get fd n.sockets = some s) :
    fd ∈ n.readable ↔ s.readable = true := by
  have hnodup : (n.sockets.map Prod.fst).Nodup := by
    rw [h.keys]
    exact h.nodup
  unfold readable
  rw [List.mem_map]
  constructor
  · rintro ⟨⟨fd', s'⟩, hp, rfl⟩
    obtain ⟨hmem, hreadable⟩ := List.mem_filter.mp hp
    rw [Assoc.get_of_mem hnodup hmem] at hsocket
    rw [← Option.some.inj hsocket]
    exact hreadable
  · intro hreadable
    exact ⟨(fd, s), List.mem_filter.mpr ⟨Assoc.mem_of_get hsocket, hreadable⟩, rfl⟩

theorem get_keyed (g : Int → Socket) (clients : List (Int × Client)) (fd : Int) :
    Assoc.get fd (clients.map fun p => (p.1, g p.1)) =
      (Assoc.get fd clients).map fun _ => g fd := by
  induction clients with
  | nil => rfl
  | cons p clients ih =>
      obtain ⟨fd₁, client⟩ := p
      rw [List.map_cons]
      by_cases hfd : fd = fd₁
      · subst hfd
        rw [Assoc.get_cons_self, Assoc.get_cons_self]
        rfl
      · rw [Assoc.get_cons_ne hfd, Assoc.get_cons_ne hfd, ih]

/-- A turn reads up to 4095 bytes of every client. -/
theorem Connected.turn (h : Connected n fd client pending) (hpaired : Paired n)
    {accepted : Option Int} {order : List Int} {envs : Int → Nat → ExecEnv}
    {room : Int → Nat → Nat} {sigpipe : Int → Nat → Bool}
    (hclosed : AcceptsClosed n (.turn accepted order envs room sigpipe))
    (hstep : n.step (.turn accepted order envs room sigpipe) = some n')
    (hup : n'.daemon.up = true) :
    ∃ exchanges, Connected n' fd ⟨client.received ++ pending.take 4095, exchanges⟩
      (pending.drop 4095) := by
  obtain ⟨hperm, -, hsockets⟩ := step_turn hstep
  obtain ⟨toRemove, w₁, hhandle, hworld⟩ := World.step_round (step_turn_up hstep hup)
  have hfds : (order.map (n.ready envs room)).map Ready.fd = order := by
    rw [List.map_map]
    exact List.map_id order
  have hnodup : order.Nodup := by
    have hkeys : (n.sockets.map Prod.fst).Nodup := by
      rw [hpaired.keys]
      exact hpaired.nodup
    exact hperm.nodup_iff.mpr ((List.filter_sublist.map Prod.fst).nodup hkeys)
  have hclient := World.get_acceptConnection (not_open hclosed) h.client
  have hisolated := hpaired.isolated.acceptConnection (not_open hclosed)
  have hreadable := mem_readable hpaired h.socket
  rw [← hperm.mem_iff] at hreadable
  have hafter : n.socketAfter order fd =
      if fd ∈ order then ⟨pending.drop 4095, .connected⟩ else ⟨pending, .connected⟩ := by
    unfold socketAfter
    rw [h.socket]
    rfl
  have hsocket : Assoc.get fd n'.sockets =
      (Assoc.get fd n'.daemon.world.clients).map fun _ => n.socketAfter order fd := by
    rw [hsockets]
    exact get_keyed (n.socketAfter order) n'.daemon.world.clients fd
  by_cases hpending : pending = []
  · -- `select` does not report the descriptor
    subst hpending
    have hout : fd ∉ order := by
      rw [hreadable]
      decide
    obtain ⟨hkept, hget⟩ := World.get_handleAll_ne hhandle (by rw [hfds]; exact hout)
    have hget' := (World.get_closeAll hkept).trans (hget.trans hclient)
    rw [← hworld] at hget'
    refine ⟨client.exchanges, ?_, ?_⟩
    · rw [List.take_nil, List.append_nil]
      exact hget'
    · rw [hsocket, hget', hafter, if_neg hout]
      rfl
  · have hin : fd ∈ order := by
      rw [hreadable]
      unfold Socket.readable
      simp [hpending]
    have hdata : (n.ready envs room fd).data = some (pending.take 4095) := by
      show (Assoc.get fd n.sockets).bind Socket.recv = _
      rw [h.socket]
      rfl
    have hne : pending.take 4095 ≠ [] := by simp [hpending]
    obtain ⟨hkept, exchanges, hget⟩ := World.get_handleAll (r := n.ready envs room fd) hisolated
      hclient (by rw [hfds]; exact hnodup) (List.mem_map_of_mem hin) hdata hne hhandle
    have hget' : Assoc.get fd (toRemove.foldl World.closeConnection w₁).clients =
        some ⟨client.received ++ pending.take 4095, exchanges⟩ :=
      (World.get_closeAll hkept).trans hget
    rw [← hworld] at hget'
    refine ⟨exchanges, hget', ?_⟩
    rw [hsocket, hget', hafter, if_pos hin]
    rfl

/-- After some turns: of what the client had sent, 4095 bytes a turn or all is
read, and nothing lost. -/
def Progress (n : Net) (fd : Int) (client : Client) (sent : Bytes) (turns : Nat) : Prop :=
  ∃ read exchanges pending, Connected n fd ⟨client.received ++ read, exchanges⟩ pending ∧
    sent <+: read ++ pending ∧ min sent.length (4095 * turns) ≤ read.length

theorem Connected.progress (h : Connected n fd client pending) :
    Progress n fd client pending 0 := by
  refine ⟨[], client.exchanges, pending, ?_, List.prefix_rfl, Nat.min_le_right _ _⟩
  rw [List.append_nil]
  exact h

/-- Only a turn reads, and what comes in stands behind what is there. -/
theorem Progress.step {sent : Bytes} {turns : Nat} (h : Progress n fd client sent turns)
    (hpaired : Paired n) (hclosed : AcceptsClosed n ev) (hstays : ¬ Leaves fd ev)
    (hstep : n.step ev = some n') (hup : n'.daemon.up = true) :
    Progress n' fd client sent (turns + if isTurn ev then 1 else 0) := by
  obtain ⟨read, exchanges, pending, hconnected, hsent, hread⟩ := h
  cases ev with
  | arrive fd' bytes =>
      cases hstep
      have hget := get_modify fd' fd (fun s => { s with pending := s.pending ++ bytes }) n.sockets
      rw [hconnected.socket] at hget
      by_cases hfd : fd = fd'
      · rw [if_pos hfd] at hget
        refine ⟨read, exchanges, pending ++ bytes, ⟨hconnected.client, hget⟩, ?_, hread⟩
        rw [← List.append_assoc]
        exact hsent.trans (List.prefix_append _ _)
      · rw [if_neg hfd] at hget
        exact ⟨read, exchanges, pending, ⟨hconnected.client, hget⟩, hsent, hread⟩
  | leave fd' peer =>
      cases hstep
      have hfd : fd ≠ fd' := by
        rintro rfl
        exact hstays ⟨peer, rfl⟩
      have hget := get_modify fd' fd (fun s => { s with peer }) n.sockets
      rw [if_neg hfd, hconnected.socket] at hget
      exact ⟨read, exchanges, pending, ⟨hconnected.client, hget⟩, hsent, hread⟩
  | turn accepted order envs room sigpipe =>
      obtain ⟨exchanges', hnext⟩ := hconnected.turn hpaired hclosed hstep hup
      refine ⟨read ++ pending.take 4095, exchanges', pending.drop 4095, ?_, ?_, ?_⟩
      · rw [← List.append_assoc]
        exact hnext
      · rw [List.append_assoc, List.take_append_drop]
        exact hsent
      · -- the turn reads 4095 bytes, or all there is
        have hlen := hsent.length_le
        rw [List.length_append] at hlen
        rw [List.length_append, List.length_take]
        simp only [isTurn, if_true]
        omega
  | compact env =>
      obtain ⟨hdaemon, hsockets⟩ := step_compact hstep
      obtain ⟨-, hnext, -⟩ := Daemon.step_up hdaemon hup
      refine ⟨read, exchanges, pending, ⟨?_, ?_⟩, hsent, hread⟩
      · rw [hnext]
        exact hconnected.client
      · rw [hsockets]
        exact hconnected.socket

/-- Run lemma of `Progress.step`. -/
theorem progress_run {evs : List NetEvent} (hpaired : Paired n)
    (hclosed : Machine.Along step AcceptsClosed n evs) (hstays : ∀ ev ∈ evs, ¬ Leaves fd ev)
    (h : Connected n fd client pending) (hrun : Machine.run step n evs = some n')
    (hup : n'.daemon.up = true) :
    Paired n' ∧ Progress n' fd client pending (evs.countP isTurn) := by
  induction evs using List.reverseRecOn generalizing n' with
  | nil =>
      cases hrun
      exact ⟨hpaired, h.progress⟩
  | append_singleton evs ev ih =>
      obtain ⟨n₁, hrun₁, hstep⟩ := Machine.run_concat.mp hrun
      obtain ⟨hclosed₁, hlast⟩ := Machine.along_concat.mp hclosed
      obtain ⟨hpaired₁, hprogress⟩ :=
        ih hclosed₁ (fun ev' hev' => hstays ev' (List.mem_append_left _ hev')) hrun₁
          (step_up hstep hup)
      have haccept := hlast n₁ n' hrun₁ hstep
      have hev := hstays ev (List.mem_append_right _ List.mem_cons_self)
      rw [List.countP_append, List.countP_singleton]
      exact ⟨hpaired₁.step haccept hstep hup,
        hprogress.step hpaired₁ haccept hev hstep hup⟩

theorem run_up {evs : List NetEvent} (hrun : Machine.run step n evs = some n')
    (hup : n'.daemon.up = true) : n.daemon.up = true := by
  induction evs generalizing n with
  | nil =>
      cases hrun
      exact hup
  | cons ev evs ih =>
      obtain ⟨n₁, hstep, hrest⟩ := Machine.run_cons.mp hrun
      exact step_up hstep (ih hrest)

/-- No client starves. In every run after which the process is up, whatever the
others send, whenever they come and go and in whatever order `select` has them
handled: of a client that stays, everything that it has sent is read within one
turn for each 4095 bytes, every command completed in it is executed, and it is
answered as the engine of the run answers. -/
theorem no_starvation {engine : LSMEngine} {before after : List NetEvent}
    (hclosed : Machine.Along step AcceptsClosed (start engine) (before ++ after))
    (hbefore : Machine.run step (start engine) before = some n)
    (hafter : Machine.run step n after = some n') (hup : n'.daemon.up = true)
    (hopen : Assoc.get fd n.sockets = some s) (hpeer : s.peer = .connected)
    (hstays : ∀ ev ∈ after, ¬ Leaves fd ev)
    (hturns : s.pending.length ≤ 4095 * after.countP isTurn) :
    ∃ client client', Assoc.get fd n.daemon.world.clients = some client ∧
      Assoc.get fd n'.daemon.world.clients = some client' ∧
      client.received ++ s.pending <+: client'.received ∧
      Connection.commandLines (client.received ++ s.pending) <+:
        client'.exchanges.map Exchange.line ∧
      Daemon.Kept engine n'.daemon := by
  obtain ⟨hclosed₁, hclosed₂⟩ := Machine.along_append.mp hclosed
  have hpaired := paired_run hclosed₁ hbefore (run_up hafter hup)
  have hclient : (Assoc.get fd n.daemon.world.clients).isSome := by
    rw [Assoc.get_isSome_iff, ← hpaired.keys, ← Assoc.get_isSome_iff, hopen]
    rfl
  obtain ⟨client, hclient⟩ := Option.isSome_iff_exists.mp hclient
  have hconnected : Connected n fd client s.pending := by
    refine ⟨hclient, ?_⟩
    rw [hopen, ← hpeer]
  obtain ⟨hpaired', read, exchanges, pending, hconnected', hsent, hread⟩ :=
    progress_run hpaired (hclosed₂ n hbefore) hstays hconnected hafter hup
  rw [Nat.min_eq_left hturns] at hread
  have hprefix := (List.prefix_append_right_inj client.received).mpr
    (List.prefix_of_prefix_length_le hsent (List.prefix_append _ _) hread)
  have hserved := hpaired'.isolated.served _ (Assoc.mem_of_get hconnected'.client)
  have hkept := kept_run hclosed (Machine.run_append.mpr ⟨n, hbefore, hafter⟩)
  refine ⟨client, _, hclient, hconnected'.client, hprefix, ?_, hkept⟩
  rw [hserved.lines]
  obtain ⟨rest, hrest⟩ := hprefix
  show _ <+: Connection.commandLines (client.received ++ read)
  rw [← hrest, Connection.commandLines_append (client.received ++ s.pending)]
  exact List.prefix_append _ _

/-- Two clients come, and the first one sends two commands. -/
def twoClients : List NetEvent :=
  [.turn (some 4) [] (fun _ _ => ExecEnv.calm 1) (fun _ _ => 4096) (fun _ _ => false),
    .turn (some 5) [] (fun _ _ => ExecEnv.calm 2) (fun _ _ => 4096) (fun _ _ => false),
    .arrive 4 (ascii "PING\nGET k\n")]

/-- The second one sends a command too, and is handled first. -/
def bothRead : List NetEvent :=
  [.arrive 5 (ascii "PING\n"),
    .turn none [5, 4] (fun _ _ => ExecEnv.calm 3) (fun _ _ => 4096) (fun _ _ => false)]

theorem no_starvation_twoClients :
    ∃ n n' client client',
      Machine.run step (start (LSMEngine.start (ascii "./data") 10 100)) twoClients = some n ∧
      Machine.run step n bothRead = some n' ∧
      Assoc.get 4 n.daemon.world.clients = some client ∧
      Assoc.get 4 n'.daemon.world.clients = some client' ∧
      client.received ++ ascii "PING\nGET k\n" <+: client'.received ∧
      Connection.commandLines (client.received ++ ascii "PING\nGET k\n") <+:
        client'.exchanges.map Exchange.line ∧
      Daemon.Kept (LSMEngine.start (ascii "./data") 10 100) n'.daemon := by
  have hran : (Machine.run step (start (LSMEngine.start (ascii "./data") 10 100))
      twoClients).map (fun n => Assoc.get 4 n.sockets) =
      some (some ⟨ascii "PING\nGET k\n", .connected⟩) := by decide +kernel
  have hboth : (Machine.run step (start (LSMEngine.start (ascii "./data") 10 100))
      (twoClients ++ bothRead)).map (fun n => n.daemon.up) = some true := by decide +kernel
  obtain ⟨n, hrun, hopen⟩ := Option.map_eq_some_iff.mp hran
  obtain ⟨n', hrun', hup⟩ := Option.map_eq_some_iff.mp hboth
  have hafter := Machine.run_rest hrun hrun'
  obtain ⟨client, client', hclient, hclient', hread, hlines, hkept⟩ :=
    no_starvation (by decide +kernel) hrun hafter hup hopen rfl
      (by rintro ev hev ⟨peer, rfl⟩; simp [bothRead] at hev) (by decide)
  exact ⟨n, n', client, client', hrun, hafter, hclient, hclient', hread, hlines, hkept⟩

end Net

end VaultDB
