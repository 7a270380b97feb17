import Mathlib.Logic.Function.Basic
import Mathlib.Logic.Relation
import VaultDB.Library.Run

/-! # Operations under one mutex

Any number of threads run operations on a shared state. The code of an
operation takes a mutex first, works on the state in small steps, and gives the
mutex back when it returns; the small steps of a thread may come between any
steps of the others. The rules say that this is no different from the
operations happening one at a time: the state is the one they lead to in the
order in which they held the mutex, each result is the one it has there
(`serial_run`), that order agrees with real time (`timed_run`), and whoever
holds the mutex can always go on until it has given it back
(`Advances.release`).
-/

namespace Lock

variable {τ σ ω κ π ρ ε : Type*}

/-- What operations do while they hold the mutex: where their code begins, with
their arguments and the surroundings they meet, and what a small step does to
the shared state before the code goes on or has its result. -/
structure Code (σ ω κ π ρ : Type*) where
  enter : ω → κ → π
  small : σ → π → Option (σ × (π ⊕ ρ))

/-- An operation in the mutex, and the times of its call and of its entry. -/
structure Call (ω κ : Type*) where
  op : ω
  env : κ
  invoked : Nat
  acquired : Nat

inductive Thread (ω κ π ρ : Type*) where
  | idle
  | waiting (op : ω) (invoked : Nat)
  | inside (call : Call ω κ) (pc : π)
  | leaving (call : Call ω κ) (result : ρ)

/-- An operation that has returned. -/
structure Record (τ ω κ ρ : Type*) extends Call ω κ where
  thread : τ
  result : ρ
  returned : Nat

structure State (τ σ ω κ π ρ : Type*) where
  shared : σ
  owner : Option τ
  threads : τ → Thread ω κ π ρ
  /-- The number of actions so far. -/
  clock : Nat
  /-- The operations that have returned, in the order in which they did. -/
  log : List (Record τ ω κ ρ)

inductive Action (τ ω κ : Type*) where
  | invoke (t : τ) (op : ω)
  | acquire (t : τ) (env : κ)
  | small (t : τ)
  | release (t : τ)

namespace State

def init (shared : σ) : State τ σ ω κ π ρ := ⟨shared, none, fun _ => .idle, 0, []⟩

variable [DecidableEq τ]

/-- One action of a thread, which is somewhere else after it. -/
def goTo (s : State τ σ ω κ π ρ) (t : τ) (thread : Thread ω κ π ρ) : State τ σ ω κ π ρ :=
  { s with
    threads := Function.update s.threads t thread
    clock := s.clock + 1 }

end State

/-! ## One at a time -/

namespace Code

/-- A small step after which the code goes on. -/
def Next (code : Code σ ω κ π ρ) (a b : σ × π) : Prop := code.small a.1 a.2 = some (b.1, .inl b.2)

/-- By small steps of one operation, with nothing between them. -/
abbrev Reaches (code : Code σ ω κ π ρ) : σ × π → σ × π → Prop := Relation.ReflTransGen code.Next

/-- All that is left of an operation, up to its result. -/
def Completes (code : Code σ ω κ π ρ) (a : σ × π) (result : ρ) (shared : σ) : Prop :=
  ∃ b, code.Reaches a b ∧ code.small b.1 b.2 = some (shared, .inr result)

end Code

/-- The operations one after the other, each from its entry to its result. -/
inductive Sequence (code : Code σ ω κ π ρ) (start : σ) : List (Record τ ω κ ρ) → σ → Prop where
  | nil : Sequence code start [] start
  | concat {log : List (Record τ ω κ ρ)} {shared shared' : σ} {r : Record τ ω κ ρ}
      (h : Sequence code start log shared)
      (hr : code.Completes (shared, code.enter r.op r.env) r.result shared') :
      Sequence code start (log ++ [r]) shared'

/-- Neither between `acquire` and `release`. -/
def Thread.Outside : Thread ω κ π ρ → Prop
  | .idle => True
  | .waiting _ _ => True
  | .inside _ _ => False
  | .leaving _ _ => False

/-- The operation of a thread in the mutex began in the state `before`, and has
come to where the thread is with nothing between its steps. -/
def Thread.Midway (code : Code σ ω κ π ρ) (before shared : σ) : Thread ω κ π ρ → Prop
  | .idle => False
  | .waiting _ _ => False
  | .inside call pc => code.Reaches (before, code.enter call.op call.env) (shared, pc)
  | .leaving call result => code.Completes (before, code.enter call.op call.env) result shared

/-- No thread but the owner is in the mutex, and the owner is in the middle of
one operation behind those that have returned. -/
structure Serial (code : Code σ ω κ π ρ) (start : σ) (s : State τ σ ω κ π ρ) : Prop where
  outside : ∀ u, s.owner ≠ some u → (s.threads u).Outside
  free : s.owner = none → Sequence code start s.log s.shared
  held : ∀ u, s.owner = some u → ∃ before, Sequence code start s.log before ∧
    (s.threads u).Midway code before s.shared

variable {code : Code σ ω κ π ρ} {start : σ} {t : τ}

namespace Code

/-- What is left after a small step. -/
theorem completes_of_next {a b : σ × π} (hnext : code.Next a b) {result : ρ} {shared : σ} :
    code.Completes a result shared ↔ code.Completes b result shared := by
  constructor
  · rintro ⟨c, hreaches, hdone⟩
    rcases Relation.ReflTransGen.cases_head hreaches with heq | ⟨b', hnext', hrest⟩
    · -- a step that goes on is not the last one
      rw [← heq, hnext] at hdone
      cases hdone
    · have hb : b' = b := by
        have heq : some (b'.1, Sum.inl b'.2) = some (b.1, (Sum.inl b.2 : π ⊕ ρ)) :=
          hnext'.symm.trans hnext
        simp only [Option.some.injEq, Prod.mk.injEq, Sum.inl.injEq] at heq
        exact Prod.ext heq.1 heq.2
      exact ⟨c, hb ▸ hrest, hdone⟩
  · rintro ⟨c, hreaches, hdone⟩
    exact ⟨c, Relation.ReflTransGen.head hnext hreaches, hdone⟩

/-- The last small step is all that is left. -/
theorem completes_of_done {a : σ × π} {result result' : ρ} {shared shared' : σ}
    (hdone : code.small a.1 a.2 = some (shared, .inr result)) :
    code.Completes a result' shared' ↔ result' = result ∧ shared' = shared := by
  constructor
  · rintro ⟨c, hreaches, hdone'⟩
    rcases Relation.ReflTransGen.cases_head hreaches with heq | ⟨b, hnext, -⟩
    · rw [← heq, hdone] at hdone'
      simp only [Option.some.injEq, Prod.mk.injEq, Sum.inr.injEq] at hdone'
      exact ⟨hdone'.2.symm, hdone'.1.symm⟩
    · have hne := hnext.symm.trans hdone
      cases hne
  · rintro ⟨rfl, rfl⟩
    exact ⟨a, Relation.ReflTransGen.refl, hdone⟩

/-- Nothing completes where a small step is undefined. -/
theorem not_completes_of_none {a : σ × π} (hnone : code.small a.1 a.2 = none) {result : ρ}
    {shared : σ} : ¬ code.Completes a result shared := by
  rintro ⟨c, hreaches, hdone⟩
  rcases Relation.ReflTransGen.cases_head hreaches with heq | ⟨b, hnext, -⟩
  · rw [← heq, hnone] at hdone
    cases hdone
  · have hne := hnone.symm.trans hnext
    cases hne

/-- What every small step keeps holds wherever an operation comes. -/
theorem Reaches.kept {I : σ → π → Prop}
    (hkeep : ∀ a b, code.Next a b → I a.1 a.2 → I b.1 b.2) {a b : σ × π}
    (hreaches : code.Reaches a b) (hI : I a.1 a.2) : I b.1 b.2 := by
  induction hreaches with
  | refl => exact hI
  | tail _ hnext ih => exact hkeep _ _ hnext ih

end Code

theorem serial_init : Serial code start (State.init start : State τ σ ω κ π ρ) :=
  ⟨fun _ _ => trivial, fun _ => Sequence.nil, nofun⟩

/-! ## Operations that end -/

/-- Between operations `J` holds. Within one `I` does, every small step is
defined, and `rank` bounds how many are to come. -/
structure Advances (code : Code σ ω κ π ρ) (J : σ → Prop) (I : σ → π → Prop)
    (rank : σ → π → Nat) : Prop where
  enter : ∀ {shared : σ} (op : ω) (env : κ), J shared → I shared (code.enter op env)
  small : ∀ {shared : σ} {pc : π}, I shared pc →
    (∃ shared' pc', code.small shared pc = some (shared', .inl pc') ∧ I shared' pc' ∧
      rank shared' pc' < rank shared pc) ∨
    ∃ shared' result, code.small shared pc = some (shared', .inr result) ∧ J shared'

variable {J : σ → Prop} {I : σ → π → Prop} {rank : σ → π → Nat}

theorem Advances.reaches (h : Advances code J I rank) {a b : σ × π}
    (hreaches : code.Reaches a b) (hI : I a.1 a.2) : I b.1 b.2 := by
  refine hreaches.kept ?_ hI
  intro a b hnext hI
  rcases h.small hI with ⟨shared', pc', heq, hI', -⟩ | ⟨shared', result, heq, -⟩
  · have hsame := heq.symm.trans hnext
    simp only [Option.some.injEq, Prod.mk.injEq, Sum.inl.injEq] at hsame
    rw [← hsame.1, ← hsame.2]
    exact hI'
  · have hne := heq.symm.trans hnext
    cases hne

theorem Advances.completes (h : Advances code J I rank) {a : σ × π} {result : ρ} {shared : σ}
    (hcompletes : code.Completes a result shared) (hI : I a.1 a.2) : J shared := by
  rcases hcompletes with ⟨b, hreaches, hdone⟩
  rcases h.small (h.reaches hreaches hI) with ⟨shared', pc', heq, -⟩ | ⟨shared', result', heq, hJ⟩
  · have hne := heq.symm.trans hdone
    cases hne
  · have hsame := heq.symm.trans hdone
    simp only [Option.some.injEq, Prod.mk.injEq] at hsame
    rw [← hsame.1]
    exact hJ

theorem Advances.sequence (h : Advances code J I rank) (hstart : J start)
    {log : List (Record τ ω κ ρ)} {shared : σ} (hsequence : Sequence code start log shared) :
    J shared := by
  induction hsequence with
  | nil => exact hstart
  | concat hlog hr ih => exact h.completes hr (h.enter _ _ ih)

/-- What holds where the owner is. -/
theorem Advances.thread (h : Advances code J I rank) (hstart : J start)
    {s : State τ σ ω κ π ρ}
    (hserial : Serial code start s) (howner : s.owner = some t) :
    (∃ call pc, s.threads t = .inside call pc ∧ I s.shared pc) ∨
      ∃ call result, s.threads t = .leaving call result ∧ J s.shared := by
  rcases hserial.held t howner with ⟨before, hsequence, hmidway⟩
  have hbefore := h.sequence hstart hsequence
  cases hthread : s.threads t with
  | idle =>
      rw [hthread] at hmidway
      exact hmidway.elim
  | waiting op invoked =>
      rw [hthread] at hmidway
      exact hmidway.elim
  | inside call pc =>
      rw [hthread] at hmidway
      exact Or.inl ⟨call, pc, rfl, h.reaches hmidway (h.enter _ _ hbefore)⟩
  | leaving call result =>
      rw [hthread] at hmidway
      exact Or.inr ⟨call, result, rfl, h.completes hmidway (h.enter _ _ hbefore)⟩

/-! ## Histories -/

/-- The call was made and let in by actions of the thread, at the times it says. -/
structure Call.Begun (acts : List (Action τ ω κ)) (t : τ) (call : Call ω κ) : Prop where
  invoked : acts[call.invoked]? = some (.invoke t call.op)
  acquired : acts[call.acquired]? = some (.acquire t call.env)
  lt : call.invoked < call.acquired

/-- A call made at `invoked` comes after everything that has returned to the
thread. -/
def InTurn (log : List (Record τ ω κ ρ)) (t : τ) (invoked : Nat) : Prop :=
  ∀ r ∈ log, r.thread = t → r.returned < invoked

/-- Where a thread is, it has got by its actions, and into the mutex after
everything that has returned. -/
def Thread.Timed (acts : List (Action τ ω κ)) (log : List (Record τ ω κ ρ)) (t : τ) :
    Thread ω κ π ρ → Prop
  | .idle => True
  | .waiting op invoked => acts[invoked]? = some (.invoke t op) ∧ InTurn log t invoked
  | .inside call _ =>
    call.Begun acts t ∧ InTurn log t call.invoked ∧ ∀ r ∈ log, r.returned < call.acquired
  | .leaving call _ =>
    call.Begun acts t ∧ InTurn log t call.invoked ∧ ∀ r ∈ log, r.returned < call.acquired

/-- The log has the operations that returned, at the times they did, each let
into the mutex after those before it had returned, and called after those
before it had returned to the same thread. -/
structure Timed (acts : List (Action τ ω κ)) (s : State τ σ ω κ π ρ) : Prop where
  clock : s.clock = acts.length
  threads : ∀ t, (s.threads t).Timed acts s.log t
  begun : ∀ r ∈ s.log, r.toCall.Begun acts r.thread ∧ r.acquired < r.returned
  returned : ∀ r ∈ s.log, acts[r.returned]? = some (.release r.thread)
  order : s.log.Pairwise fun a b => a.returned < b.acquired
  session : s.log.Pairwise fun a b => a.thread = b.thread → a.returned < b.invoked
  all : ∀ i t, acts[i]? = some (.release t) → ∃ r ∈ s.log, r.returned = i ∧ r.thread = t

/-- What was done is still there after one more action. -/
theorem getElem?_concat_of_some {acts : List ε} {act act' : ε} {i : Nat}
    (h : acts[i]? = some act) : (acts ++ [act'])[i]? = some act := by
  rw [List.getElem?_append_left (List.getElem?_eq_some_iff.mp h).1, h]

theorem lt_length_of_some {acts : List ε} {act : ε} {i : Nat} (h : acts[i]? = some act) :
    i < acts.length := (List.getElem?_eq_some_iff.mp h).1

theorem Call.Begun.concat {acts : List (Action τ ω κ)} {call : Call ω κ} (h : call.Begun acts t)
    (act : Action τ ω κ) : call.Begun (acts ++ [act]) t :=
  ⟨getElem?_concat_of_some h.invoked, getElem?_concat_of_some h.acquired, h.lt⟩

theorem Thread.Timed.concat {acts : List (Action τ ω κ)} {log : List (Record τ ω κ ρ)}
    {thread : Thread ω κ π ρ} (h : thread.Timed acts log t) (act : Action τ ω κ) :
    thread.Timed (acts ++ [act]) log t := by
  cases thread with
  | idle => trivial
  | waiting op invoked => exact ⟨getElem?_concat_of_some h.1, h.2⟩
  | inside call pc => exact ⟨h.1.concat act, h.2⟩
  | leaving call result => exact ⟨h.1.concat act, h.2⟩

theorem timed_init : Timed [] (State.init start : State τ σ ω κ π ρ) :=
  ⟨rfl, fun _ => trivial, nofun, nofun, List.Pairwise.nil, List.Pairwise.nil,
    fun _ _ hi => by cases hi⟩

/-- The log is a history of the actions: the calls that returned, each from its
own `invoke` to its own `release`, in an order that agrees with real time. -/
structure Explains (acts : List (Action τ ω κ)) (log : List (Record τ ω κ ρ)) : Prop where
  invoked : ∀ r ∈ log, acts[r.invoked]? = some (.invoke r.thread r.op)
  returned : ∀ i t, acts[i]? = some (.release t) ↔ ∃ r ∈ log, r.returned = i ∧ r.thread = t
  session : log.Pairwise fun a b => a.thread = b.thread → a.returned < b.invoked
  realTime : log.Pairwise fun a b => ¬ b.returned < a.invoked

theorem Timed.explains {acts : List (Action τ ω κ)} {s : State τ σ ω κ π ρ} (h : Timed acts s) :
    Explains acts s.log := by
  refine ⟨fun r hr => (h.begun r hr).1.invoked, ?_, h.session, ?_⟩
  · intro i t
    constructor
    · exact h.all i t
    · rintro ⟨r, hr, rfl, rfl⟩
      exact h.returned r hr
  · -- who was let in later returned later
    refine h.order.imp_of_mem ?_
    intro a b ha hb hlt
    have hbegun := (h.begun b hb).2
    have hcall := (h.begun a ha).1.lt
    have hret := (h.begun a ha).2
    omega

/-! ## Actions -/

variable [DecidableEq τ]

/-- Only `acquire` looks at the mutex. -/
def step (code : Code σ ω κ π ρ) (s : State τ σ ω κ π ρ) :
    Action τ ω κ → Option (State τ σ ω κ π ρ)
  | .invoke t op =>
    match s.threads t with
    | .idle => some (s.goTo t (.waiting op s.clock))
    | _ => none
  | .acquire t env =>
    match s.owner, s.threads t with
    | none, .waiting op invoked =>
      some { s.goTo t (.inside ⟨op, env, invoked, s.clock⟩ (code.enter op env)) with
        owner := some t }
    | _, _ => none
  | .small t =>
    match s.threads t with
    | .inside call pc =>
      match code.small s.shared pc with
      | some (shared, .inl pc) => some { s.goTo t (.inside call pc) with shared := shared }
      | some (shared, .inr result) => some { s.goTo t (.leaving call result) with shared := shared }
      | none => none
    | _ => none
  | .release t =>
    match s.threads t with
    | .leaving call result =>
      some { s.goTo t .idle with
        owner := none
        log := s.log ++ [⟨call, t, result, s.clock⟩] }
    | _ => none

variable {s s' : State τ σ ω κ π ρ}

/-- All that an action can do. -/
inductive StepCase (code : Code σ ω κ π ρ) (s : State τ σ ω κ π ρ) :
    Action τ ω κ → State τ σ ω κ π ρ → Prop where
  | invoke {t : τ} {op : ω} (hidle : s.threads t = .idle) :
      StepCase code s (.invoke t op) (s.goTo t (.waiting op s.clock))
  | acquire {t : τ} {env : κ} {op : ω} {invoked : Nat} (hfree : s.owner = none)
      (hwaiting : s.threads t = .waiting op invoked) :
      StepCase code s (.acquire t env)
        { s.goTo t (.inside ⟨op, env, invoked, s.clock⟩ (code.enter op env)) with owner := some t }
  | more {t : τ} {call : Call ω κ} {pc pc' : π} {shared : σ}
      (hinside : s.threads t = .inside call pc)
      (hsmall : code.small s.shared pc = some (shared, .inl pc')) :
      StepCase code s (.small t) { s.goTo t (.inside call pc') with shared := shared }
  | done {t : τ} {call : Call ω κ} {pc : π} {result : ρ} {shared : σ}
      (hinside : s.threads t = .inside call pc)
      (hsmall : code.small s.shared pc = some (shared, .inr result)) :
      StepCase code s (.small t) { s.goTo t (.leaving call result) with shared := shared }
  | release {t : τ} {call : Call ω κ} {result : ρ} (hleaving : s.threads t = .leaving call result) :
      StepCase code s (.release t)
        { s.goTo t .idle with owner := none, log := s.log ++ [⟨call, t, result, s.clock⟩] }

theorem step_cases {act : Action τ ω κ} (hstep : step code s act = some s') :
    StepCase code s act s' := by
  cases act with
  | invoke t op =>
      simp only [step] at hstep
      split at hstep
      · rename_i hidle
        cases hstep
        exact StepCase.invoke hidle
      · cases hstep
  | acquire t env =>
      simp only [step] at hstep
      split at hstep
      · rename_i hfree hwaiting
        cases hstep
        exact StepCase.acquire hfree hwaiting
      · cases hstep
  | small t =>
      simp only [step] at hstep
      split at hstep
      · rename_i hinside
        split at hstep
        · rename_i hsmall
          cases hstep
          exact StepCase.more hinside hsmall
        · rename_i hsmall
          cases hstep
          exact StepCase.done hinside hsmall
        · cases hstep
      · cases hstep
  | release t =>
      simp only [step] at hstep
      split at hstep
      · rename_i hleaving
        cases hstep
        exact StepCase.release hleaving
      · cases hstep

/-! ## Mutual exclusion -/

/-- A thread that is in the mutex owns it. -/
theorem Serial.owner_eq (h : Serial code start s) (hin : ¬ (s.threads t).Outside) :
    s.owner = some t := by
  by_contra hne
  exact hin (h.outside t hne)

/-- An action of the owner: the others stay where they are. -/
theorem Serial.outside_goTo (h : Serial code start s) (howner : s.owner = some t)
    (thread : Thread ω κ π ρ) {u : τ} (hu : u ≠ t) : ((s.goTo t thread).threads u).Outside := by
  show (Function.update s.threads t thread u).Outside
  rw [Function.update_of_ne hu]
  apply h.outside
  rw [howner]
  exact fun heq => hu (Option.some.inj heq).symm

@[simp] theorem goTo_self (thread : Thread ω κ π ρ) : (s.goTo t thread).threads t = thread :=
  Function.update_self _ _ _

theorem goTo_of_ne {u : τ} (hu : u ≠ t) (thread : Thread ω κ π ρ) :
    (s.goTo t thread).threads u = s.threads u := Function.update_of_ne hu _ _

theorem Serial.step (h : Serial code start s)
    {act : Action τ ω κ} (hstep : step code s act = some s') : Serial code start s' := by
  cases step_cases hstep with
  | invoke hidle =>
      rename_i t op
      refine ⟨?_, h.free, ?_⟩
      · intro u hu
        by_cases hut : u = t
        · rw [hut, goTo_self]
          trivial
        · rw [goTo_of_ne hut]
          exact h.outside u hu
      · intro u hu
        rcases h.held u hu with ⟨before, hsequence, hmidway⟩
        have hut : u ≠ t := by
          rintro rfl
          rw [hidle] at hmidway
          exact hmidway
        rw [goTo_of_ne hut]
        exact ⟨before, hsequence, hmidway⟩
  | acquire hfree hwaiting =>
      rename_i t env op invoked
      refine ⟨?_, nofun, ?_⟩
      · intro u hu
        have hut : u ≠ t := fun heq => hu (congrArg some heq.symm)
        show ((s.goTo t _).threads u).Outside
        rw [goTo_of_ne hut]
        exact h.outside u (hfree ▸ (Option.some_ne_none u).symm)
      · -- nothing of the operation has happened yet
        rintro u ⟨rfl⟩
        refine ⟨s.shared, h.free hfree, ?_⟩
        show ((s.goTo t _).threads t).Midway code s.shared s.shared
        rw [goTo_self]
        exact Relation.ReflTransGen.refl
  | more hinside hsmall =>
      rename_i t call pc pc' shared
      have howner : s.owner = some t := h.owner_eq (by rw [hinside]; exact not_false)
      refine ⟨?_, fun hnone => absurd (howner.symm.trans hnone) (Option.some_ne_none t), ?_⟩
      · intro u hu
        exact h.outside_goTo howner _ fun heq => hu (heq ▸ howner)
      · intro u hu
        have hut : t = u := Option.some.inj (howner.symm.trans hu)
        rcases h.held t howner with ⟨before, hsequence, hmidway⟩
        rw [hinside] at hmidway
        refine ⟨before, hsequence, ?_⟩
        show ((s.goTo t _).threads u).Midway code before shared
        rw [← hut, goTo_self]
        exact Relation.ReflTransGen.tail hmidway hsmall
  | done hinside hsmall =>
      rename_i t call pc result shared
      have howner : s.owner = some t := h.owner_eq (by rw [hinside]; exact not_false)
      refine ⟨?_, fun hnone => absurd (howner.symm.trans hnone) (Option.some_ne_none t), ?_⟩
      · intro u hu
        exact h.outside_goTo howner _ fun heq => hu (heq ▸ howner)
      · intro u hu
        have hut : t = u := Option.some.inj (howner.symm.trans hu)
        rcases h.held t howner with ⟨before, hsequence, hmidway⟩
        rw [hinside] at hmidway
        refine ⟨before, hsequence, ?_⟩
        show ((s.goTo t _).threads u).Midway code before shared
        rw [← hut, goTo_self]
        exact ⟨_, hmidway, hsmall⟩
  | release hleaving =>
      rename_i t call result
      have howner : s.owner = some t := h.owner_eq (by rw [hleaving]; exact not_false)
      refine ⟨?_, ?_, nofun⟩
      · intro u _
        by_cases hut : u = t
        · show ((s.goTo t _).threads u).Outside
          rw [hut, goTo_self]
          trivial
        · exact h.outside_goTo howner _ hut
      · intro _
        rcases h.held t howner with ⟨before, hsequence, hmidway⟩
        rw [hleaving] at hmidway
        exact hsequence.concat hmidway

/-- Run lemma of `Serial.step`. -/
theorem serial_run {acts : List (Action τ ω κ)}
    (hrun : Machine.run (step code) (State.init start) acts = some s) :
    Serial code start s :=
  Machine.run_kept (fun _ _ _ h hstep => Serial.step h hstep) serial_init hrun

/-! ## Real time -/

/-- One more action, which lets nothing return. -/
theorem Timed.concat {acts : List (Action τ ω κ)} (h : Timed acts s) {act : Action τ ω κ}
    (hact : ∀ u, act ≠ .release u) {thread : Thread ω κ π ρ}
    (hthread : thread.Timed (acts ++ [act]) s.log t) {shared : σ} {owner : Option τ} :
    Timed (acts ++ [act]) { s.goTo t thread with shared := shared, owner := owner } := by
  refine ⟨?_, ?_, ?_, ?_, h.order, h.session, ?_⟩
  · show s.clock + 1 = _
    rw [h.clock, List.length_append, List.length_singleton]
  · intro u
    show ((s.goTo t thread).threads u).Timed (acts ++ [act]) s.log u
    by_cases hut : u = t
    · rw [hut, goTo_self]
      exact hthread
    · rw [goTo_of_ne hut]
      exact (h.threads u).concat act
  · intro r hr
    exact ⟨(h.begun r hr).1.concat act, (h.begun r hr).2⟩
  · intro r hr
    exact getElem?_concat_of_some (h.returned r hr)
  · intro i u hi
    by_cases hlt : i < acts.length
    · rw [List.getElem?_append_left hlt] at hi
      exact h.all i u hi
    · -- the last action is not a `release`
      rw [List.getElem?_append_right (Nat.le_of_not_lt hlt)] at hi
      exact absurd (List.mem_singleton.mp (List.mem_of_getElem? hi)).symm (hact u)

/-- The owner's `release` puts its operation behind those that returned before. -/
theorem Timed.release {acts : List (Action τ ω κ)} (h : Timed acts s) {call : Call ω κ}
    {result : ρ} (hleaving : s.threads t = .leaving call result)
    (houtside : ∀ u, u ≠ t → (s.threads u).Outside) :
    Timed (acts ++ [.release t])
      { s.goTo t .idle with owner := none, log := s.log ++ [⟨call, t, result, s.clock⟩] } := by
  have hself := h.threads t
  rw [hleaving] at hself
  rcases hself with ⟨hbegun, hturn, hafter⟩
  have hnow : (acts ++ [.release t])[s.clock]? = some (.release t) := by
    rw [h.clock]
    exact List.getElem?_concat_length
  refine ⟨?_, ?_, ?_, ?_, ?_, ?_, ?_⟩
  · show s.clock + 1 = _
    rw [h.clock, List.length_append, List.length_singleton]
  · intro u
    show ((s.goTo t .idle).threads u).Timed _ _ u
    by_cases hut : u = t
    · rw [hut, goTo_self]
      trivial
    · rw [goTo_of_ne hut]
      -- a thread outside the mutex says nothing of the log
      have hu := (h.threads u).concat (.release t)
      have hout := houtside u hut
      cases hthread : s.threads u with
      | idle => trivial
      | waiting op invoked =>
          rw [hthread] at hu
          refine ⟨hu.1, ?_⟩
          intro r hr hthread'
          rcases List.mem_append.mp hr with hr | hr
          · exact hu.2 r hr hthread'
          · rw [List.mem_singleton.mp hr] at hthread'
            exact absurd hthread'.symm hut
      | inside call pc =>
          rw [hthread] at hout
          exact hout.elim
      | leaving call result =>
          rw [hthread] at hout
          exact hout.elim
  · intro r hr
    rcases List.mem_append.mp hr with hr | hr
    · exact ⟨(h.begun r hr).1.concat _, (h.begun r hr).2⟩
    · rw [List.mem_singleton.mp hr]
      refine ⟨hbegun.concat _, ?_⟩
      show call.acquired < s.clock
      rw [h.clock]
      exact lt_length_of_some hbegun.acquired
  · intro r hr
    rcases List.mem_append.mp hr with hr | hr
    · exact getElem?_concat_of_some (h.returned r hr)
    · rw [List.mem_singleton.mp hr]
      exact hnow
  · refine List.pairwise_append.mpr ⟨h.order, List.pairwise_singleton _ _, ?_⟩
    intro a ha b hb
    rw [List.mem_singleton.mp hb]
    exact hafter a ha
  · refine List.pairwise_append.mpr ⟨h.session, List.pairwise_singleton _ _, ?_⟩
    intro a ha b hb hthread
    rw [List.mem_singleton.mp hb] at hthread ⊢
    exact hturn a ha hthread
  · intro i u hi
    by_cases hlt : i < acts.length
    · rw [List.getElem?_append_left hlt] at hi
      rcases h.all i u hi with ⟨r, hr, hreturned⟩
      exact ⟨r, List.mem_append_left _ hr, hreturned⟩
    · rw [List.getElem?_append_right (Nat.le_of_not_lt hlt)] at hi
      have hlen := lt_length_of_some hi
      rw [List.length_singleton] at hlen
      have hi0 : i - acts.length = 0 := by omega
      rw [hi0] at hi
      cases hi
      refine ⟨⟨call, t, result, s.clock⟩, by simp, ?_, rfl⟩
      show s.clock = i
      rw [h.clock]
      omega

theorem Timed.step {acts : List (Action τ ω κ)} (h : Timed acts s)
    (hserial : Serial code start s) {act : Action τ ω κ} (hstep : step code s act = some s') :
    Timed (acts ++ [act]) s' := by
  have hnow : (acts ++ [act])[s.clock]? = some act := by
    rw [h.clock]
    exact List.getElem?_concat_length
  cases step_cases hstep with
  | invoke hidle =>
      rename_i t op
      have hthread : (Thread.waiting op s.clock : Thread ω κ π ρ).Timed (acts ++ [.invoke t op])
          s.log t := by
        refine ⟨hnow, ?_⟩
        intro r hr _
        rw [h.clock]
        exact lt_length_of_some (h.returned r hr)
      exact h.concat (by intro u heq; cases heq) hthread
  | acquire hfree hwaiting =>
      rename_i t env op invoked
      have hself := h.threads t
      rw [hwaiting] at hself
      have hthread : (Thread.inside ⟨op, env, invoked, s.clock⟩ (code.enter op env) :
          Thread ω κ π ρ).Timed (acts ++ [.acquire t env]) s.log t := by
        refine ⟨⟨getElem?_concat_of_some hself.1, hnow, ?_⟩, hself.2, ?_⟩
        · show invoked < s.clock
          rw [h.clock]
          exact lt_length_of_some hself.1
        · intro r hr
          show r.returned < s.clock
          rw [h.clock]
          exact lt_length_of_some (h.returned r hr)
      exact h.concat (by intro u heq; cases heq) hthread
  | more hinside hsmall =>
      rename_i t call pc pc' shared
      have hself := (h.threads t).concat (.small t)
      rw [hinside] at hself
      have hthread : (Thread.inside call pc' : Thread ω κ π ρ).Timed _ s.log t := hself
      exact h.concat (by intro u heq; cases heq) hthread
  | done hinside hsmall =>
      rename_i t call pc result shared
      have hself := (h.threads t).concat (.small t)
      rw [hinside] at hself
      have hthread : (Thread.leaving call result : Thread ω κ π ρ).Timed _ s.log t := hself
      exact h.concat (by intro u heq; cases heq) hthread
  | release hleaving =>
      have howner := hserial.owner_eq (by rw [hleaving]; exact not_false)
      refine h.release hleaving fun u hu => hserial.outside u ?_
      rw [howner]
      exact fun heq => hu (Option.some.inj heq).symm

/-- Run lemma of `Timed.step`. -/
theorem timed_run {acts : List (Action τ ω κ)}
    (hrun : Machine.run (step code) (State.init start) acts = some s) : Timed acts s := by
  induction acts using List.reverseRecOn generalizing s with
  | nil =>
      cases hrun
      exact timed_init
  | append_singleton acts act ih =>
      rcases Machine.run_concat.mp hrun with ⟨s₁, hrun₁, hstep⟩
      exact (ih hrun₁).step (serial_run hrun₁) hstep

/-! ## Progress -/

/-- Within `rank` and one more small steps of its own, a thread in the mutex
has its result. -/
theorem Advances.finish (h : Advances code J I rank) {call : Call ω κ} {pc : π}
    (hinside : s.threads t = .inside call pc) (hI : I s.shared pc) :
    ∃ n s' result, n ≤ rank s.shared pc + 1 ∧
      Machine.run (step code) s (List.replicate n (.small t)) = some s' ∧
      s'.threads t = .leaving call result ∧ s'.owner = s.owner ∧
      (∀ u, u ≠ t → s'.threads u = s.threads u) ∧ J s'.shared := by
  induction hrank : rank s.shared pc using Nat.strong_induction_on generalizing s pc with
  | _ m ih =>
      rcases h.small hI with ⟨shared, pc', hnext, hI', hlt⟩ | ⟨shared, result, hnext, hJ⟩
      · -- one step, and then as many as the rest takes
        have hstep : step code s (.small t) =
            some { s.goTo t (.inside call pc') with shared := shared } := by
          simp only [step, hinside, hnext]
        rw [hrank] at hlt
        have hinside' : ({ s.goTo t (.inside call pc') with shared := shared } :
            State τ σ ω κ π ρ).threads t = .inside call pc' := goTo_self _
        rcases ih _ hlt hinside' hI' rfl with ⟨n, s', result, hn, hrun, ht, howner, hothers, hJ⟩
        have hle : rank shared pc' < m := hlt
        have hn' : n ≤ rank shared pc' + 1 := hn
        refine ⟨n + 1, s', result, by omega, ?_, ht, howner, ?_, hJ⟩
        · rw [List.replicate_succ]
          exact Machine.run_cons.mpr ⟨_, hstep, hrun⟩
        · intro u hu
          exact (hothers u hu).trans (goTo_of_ne hu _)
      · have hstep : step code s (.small t) =
            some { s.goTo t (.leaving call result) with shared := shared } := by
          simp only [step, hinside, hnext]
        have hrun : Machine.run (step code) s (List.replicate 1 (.small t)) =
            some { s.goTo t (.leaving call result) with shared := shared } :=
          Machine.run_cons.mpr ⟨_, hstep, Machine.run_nil _⟩
        exact ⟨1, _, result, by omega, hrun, goTo_self _, rfl, fun u hu => goTo_of_ne hu _, hJ⟩

/-- The owner of the mutex gives it back by steps of its own. -/
theorem Advances.release (h : Advances code J I rank) (hstart : J start)
    (hserial : Serial code start s) (howner : s.owner = some t) {bound : Nat}
    (hbound : ∀ call pc, s.threads t = .inside call pc → rank s.shared pc ≤ bound) :
    ∃ n s', n ≤ bound + 1 ∧
      Machine.run (step code) s (List.replicate n (.small t) ++ [.release t]) = some s' ∧
      s'.owner = none ∧ (∀ u, u ≠ t → s'.threads u = s.threads u) ∧ J s'.shared := by
  have hleave : ∀ {s' : State τ σ ω κ π ρ} {call : Call ω κ} {result : ρ},
      s'.threads t = .leaving call result → J s'.shared →
      (∀ u, u ≠ t → s'.threads u = s.threads u) →
      ∃ s'', Machine.run (step code) s' [.release t] = some s'' ∧ s''.owner = none ∧
        (∀ u, u ≠ t → s''.threads u = s.threads u) ∧ J s''.shared := by
    intro s' call result hleaving hJ hothers
    refine ⟨{ s'.goTo t .idle with
      owner := none, log := s'.log ++ [⟨call, t, result, s'.clock⟩] }, ?_, rfl, ?_, hJ⟩
    · refine Machine.run_cons.mpr ⟨_, ?_, Machine.run_nil _⟩
      simp only [step, hleaving]
    · intro u hu
      exact (goTo_of_ne hu _).trans (hothers u hu)
  rcases h.thread hstart hserial howner with
    ⟨call, pc, hinside, hI⟩ | ⟨call, result, hleaving, hJ⟩
  · rcases h.finish hinside hI with ⟨n, s', result, hn, hrun, hleaving, -, hothers, hJ⟩
    rcases hleave hleaving hJ hothers with ⟨s'', hrelease, hdone⟩
    have hle := hbound call pc hinside
    exact ⟨n, s'', by omega, Machine.run_append.mpr ⟨s', hrun, hrelease⟩, hdone⟩
  · rcases hleave hleaving hJ fun _ _ => rfl with ⟨s'', hrelease, hdone⟩
    exact ⟨0, s'', Nat.zero_le _, hrelease, hdone⟩

/-- A thread that finds the mutex free has its operation done by steps of its
own. -/
theorem Advances.serve (h : Advances code J I rank) (hfree : s.owner = none) (hJ : J s.shared)
    {op : ω} {invoked : Nat} (hwaiting : s.threads t = .waiting op invoked) (env : κ) {bound : Nat}
    (hbound : rank s.shared (code.enter op env) ≤ bound) :
    ∃ n s' result, n ≤ bound + 1 ∧
      Machine.run (step code) s (.acquire t env :: List.replicate n (.small t)) = some s' ∧
      s'.threads t = .leaving ⟨op, env, invoked, s.clock⟩ result := by
  have hstep : step code s (.acquire t env) =
      some { s.goTo t (.inside ⟨op, env, invoked, s.clock⟩ (code.enter op env)) with
        owner := some t } := by
    simp only [step, hfree, hwaiting]
  have hinside : ({ s.goTo t (.inside ⟨op, env, invoked, s.clock⟩ (code.enter op env)) with
      owner := some t } : State τ σ ω κ π ρ).threads t = .inside _ (code.enter op env) :=
    goTo_self _
  rcases h.finish hinside (h.enter op env hJ) with ⟨n, s', result, hn, hrun, hleaving, -⟩
  have hn' : n ≤ rank s.shared (code.enter op env) + 1 := hn
  exact ⟨n, s', result, by omega, Machine.run_cons.mpr ⟨_, hstep, hrun⟩, hleaving⟩

end Lock
