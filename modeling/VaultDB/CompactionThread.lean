import VaultDB.Backlog
import VaultDB.Linearizability

/-! # The compaction thread

The thread that the constructor starts sleeps for a tenth of a second at a
time, counts what it slept, and calls `compact` when the interval is full; the
destructor takes `running_` back and joins it. It runs beside any number of
threads with requests, all of which meet in the mutex of the engine.

While `running_` is set, the compactions in the history of the engine are the
full intervals, exactly (`compactions_paced`). After it is taken back the
thread comes to its end within nine actions and one compaction, whatever the
others do, and nothing but the mutex ever keeps it waiting (`thread_ends`).
-/

namespace VaultDB

open Text LSMEngine

/-- Where the compaction thread is: at the condition of its loop, before
`sleep_for`, before the count of what it slept, before the second look at
`running_`, before the call of `compact`, in it, or at its end. -/
inductive Place where
  | test
  | sleep
  | count
  | gate
  | call
  | compacting
  | finished
deriving Repr, DecidableEq

/-- The engine with its threads, the compaction thread being `none`. -/
structure Process (τ : Type*) where
  lock : Lock.State (Option τ) LSMEngine Request Env Statement Reply
  running : Bool
  place : Place
  elapsedMs : Int

/-- What happens next: the compaction thread goes on in its loop, a thread goes
on in the engine, or the destructor takes `running_` back. -/
inductive Action (τ : Type*) where
  | loop
  | engine (act : Lock.Action (Option τ) Request Env)
  | stop

/-- `check_interval_ms`. -/
def checkIntervalMs : Int := 100

/-- An `int`. -/
def FitsInt (n : Int) : Prop := -2 ^ 31 ≤ n ∧ n < 2 ^ 31

instance (n : Int) : Decidable (FitsInt n) := inferInstanceAs (Decidable (_ ∧ _))

/-- `target_interval_ms`; `none` where the product overflows. -/
def targetIntervalMs (compactionIntervalSec : Int) : Option Int :=
  if FitsInt (compactionIntervalSec * 1000) then some (compactionIntervalSec * 1000) else none

namespace Process

variable {τ : Type*}

/-- The thread as the constructor starts it. -/
def init (e : LSMEngine) : Process τ := ⟨Lock.State.init e, true, .test, 0⟩

/-- `compact` is private: no other thread calls it, and the compaction thread
calls it in its loop. -/
def permitted : Lock.Action (Option τ) Request Env → Bool
  | .invoke none _ => false
  | .invoke (some _) request => request ≠ .op .compact
  | .acquire _ _ => true
  | .small _ => true
  | .release _ => true

/-- Where the compaction thread is after an action in the engine. -/
def placeAfter (place : Place) : Lock.Action (Option τ) Request Env → Place
  | .release none => .test
  | _ => place

theorem placeAfter_cases (place : Place) (act : Lock.Action (Option τ) Request Env) :
    placeAfter place act = .test ∨ placeAfter place act = place := by
  unfold placeAfter
  split
  · exact Or.inl rfl
  · exact Or.inr rfl

variable [DecidableEq τ]

/-- One statement of the loop. -/
def loop (target : Int) (p : Process τ) : Option (Process τ) :=
  match p.place with
  | .test => some { p with place := if p.running then .sleep else .finished }
  | .sleep => some { p with place := .count }
  | .count =>
    let elapsedMs := p.elapsedMs + checkIntervalMs
    if FitsInt elapsedMs then
      if elapsedMs ≥ target then some { p with elapsedMs := 0, place := .gate }
      else some { p with elapsedMs := elapsedMs, place := .test }
    else none
  | .gate => some { p with place := if p.running then .call else .test }
  | .call =>
    (Lock.step sections p.lock (.invoke none (.op .compact))).map fun lock =>
      { p with lock := lock, place := .compacting }
  | .compacting => none
  | .finished => none

def step (target : Int) (p : Process τ) : Action τ → Option (Process τ)
  | .loop => p.loop target
  | .engine act =>
    if permitted act then
      (Lock.step sections p.lock act).map fun lock =>
        { p with lock := lock, place := placeAfter p.place act }
    else none
  | .stop => some { p with running := false }

/-! ## Steps -/

/-- All that an action can do. -/
inductive StepCase (target : Int) (p : Process τ) : Action τ → Process τ → Prop where
  | goOn (hplace : p.place = .test) (hrunning : p.running = true) :
      StepCase target p .loop { p with place := .sleep }
  | finish (hplace : p.place = .test) (hrunning : p.running = false) :
      StepCase target p .loop { p with place := .finished }
  | wake (hplace : p.place = .sleep) : StepCase target p .loop { p with place := .count }
  | due (hplace : p.place = .count) (hdue : target ≤ p.elapsedMs + checkIntervalMs) :
      StepCase target p .loop { p with elapsedMs := 0, place := .gate }
  | early (hplace : p.place = .count) (hearly : p.elapsedMs + checkIntervalMs < target) :
      StepCase target p .loop { p with elapsedMs := p.elapsedMs + checkIntervalMs, place := .test }
  | pass (hplace : p.place = .gate) (hrunning : p.running = true) :
      StepCase target p .loop { p with place := .call }
  | skip (hplace : p.place = .gate) (hrunning : p.running = false) :
      StepCase target p .loop { p with place := .test }
  | call (hplace : p.place = .call) (hidle : p.lock.threads none = .idle) :
      StepCase target p .loop
        { p with
          lock := p.lock.goTo none (.waiting (.op .compact) p.lock.clock)
          place := .compacting }
  | engine {act : Lock.Action (Option τ) Request Env} {lock} (hpermitted : permitted act = true)
      (hlock : Lock.step sections p.lock act = some lock) :
      StepCase target p (.engine act) { p with lock := lock, place := placeAfter p.place act }
  | stop : StepCase target p .stop { p with running := false }

variable {target : Int} {p p' : Process τ} {act : Action τ} {acts : List (Action τ)}

theorem step_cases (hstep : p.step target act = some p') : StepCase target p act p' := by
  cases act with
  | loop =>
      have hloop : p.loop target = some p' := hstep
      unfold loop at hloop
      cases hplace : p.place with
      | test =>
          rw [hplace] at hloop
          cases hrunning : p.running with
          | true =>
              simp only [hrunning, if_true, Option.some.injEq] at hloop
              rw [← hloop, ← hrunning]
              exact StepCase.goOn hplace hrunning
          | false =>
              simp only [hrunning, Bool.false_eq_true, if_false, Option.some.injEq] at hloop
              rw [← hloop, ← hrunning]
              exact StepCase.finish hplace hrunning
      | sleep =>
          simp only [hplace, Option.some.injEq] at hloop
          rw [← hloop]
          exact StepCase.wake hplace
      | count =>
          simp only [hplace] at hloop
          split_ifs at hloop with hfits hdue
          · rw [← Option.some.inj hloop]
            exact StepCase.due hplace hdue
          · rw [← Option.some.inj hloop]
            exact StepCase.early hplace (Int.lt_of_not_ge hdue)
      | gate =>
          rw [hplace] at hloop
          cases hrunning : p.running with
          | true =>
              simp only [hrunning, if_true, Option.some.injEq] at hloop
              rw [← hloop, ← hrunning]
              exact StepCase.pass hplace hrunning
          | false =>
              simp only [hrunning, Bool.false_eq_true, if_false, Option.some.injEq] at hloop
              rw [← hloop, ← hrunning]
              exact StepCase.skip hplace hrunning
      | call =>
          simp only [hplace, Option.map_eq_some_iff] at hloop
          obtain ⟨lock, hlock, rfl⟩ := hloop
          cases Lock.step_cases hlock with
          | invoke hidle => exact StepCase.call hplace hidle
      | compacting =>
          rw [hplace] at hloop
          cases hloop
      | finished =>
          rw [hplace] at hloop
          cases hloop
  | engine act =>
      simp only [step] at hstep
      split_ifs at hstep with hpermitted
      simp only [Option.map_eq_some_iff] at hstep
      obtain ⟨lock, hlock, rfl⟩ := hstep
      exact StepCase.engine hpermitted hlock
  | stop =>
      cases hstep
      exact StepCase.stop

/-! ## Who is in the engine -/

/-- The statements of `compact` that are left at most; none for other sections. -/
def compactLeft : Statement → Nat
  | .checkTables _ => 5
  | .writeMerged _ _ _ => 4
  | .removeOlder _ _ _ => 3
  | .removeNewer _ _ => 2
  | .replaceTables _ => 1
  | _ => 0

/-- A statement of `compact` is defined, and brings its end closer. -/
theorem run_compact {pc : Statement} (h : 0 < compactLeft pc) (e : LSMEngine) :
    ∃ e' next, pc.run e = some (e', next) ∧
      ∀ pc', next = .inl pc' → 0 < compactLeft pc' ∧ compactLeft pc' < compactLeft pc := by
  cases pc with
  | checkTables env =>
      by_cases hfew : e.sstables.length ≤ 4
      · exact ⟨e, .inr .done, by simp only [Statement.run, if_pos hfew], nofun⟩
      · obtain ⟨older, newer, staying, hsplit⟩ := exists_two_oldest (Nat.lt_of_not_le hfew)
        refine ⟨e, .inl (.writeMerged older newer env), ?_, ?_⟩
        · unfold Statement.run
          simp only [if_neg hfew]
          rw [hsplit]
        · rintro pc' ⟨rfl⟩
          simp only [compactLeft]
          omega
  | writeMerged older newer env =>
      refine ⟨_, _, rfl, ?_⟩
      rintro pc' ⟨rfl⟩
      simp only [compactLeft]
      omega
  | removeOlder older newer merged =>
      refine ⟨_, _, rfl, ?_⟩
      rintro pc' ⟨rfl⟩
      simp only [compactLeft]
      omega
  | removeNewer newer merged =>
      refine ⟨_, _, rfl, ?_⟩
      rintro pc' ⟨rfl⟩
      simp only [compactLeft]
      omega
  | replaceTables merged => exact ⟨_, _, rfl, nofun⟩
  | _ => exact absurd h (Nat.lt_irrefl 0)

/-- A thread in the engine compacts exactly when it is the compaction thread. -/
def Assigned (t : Option τ) : Lock.Thread Request Env Statement Reply → Prop
  | .idle => True
  | .waiting request _ => request = .op .compact ↔ t = none
  | .inside call pc => (call.op = .op .compact ↔ t = none) ∧ (t = none → 0 < compactLeft pc)
  | .leaving call _ => call.op = .op .compact ↔ t = none

/-- Only the compaction thread compacts, and it is in the engine exactly while
its loop is in `compact`. -/
structure Private (p : Process τ) : Prop where
  assigned : ∀ t, Assigned t (p.lock.threads t)
  log : ∀ r ∈ p.lock.log, r.op = .op .compact ↔ r.thread = none
  place : p.place = .compacting ↔ p.lock.threads none ≠ .idle

omit [DecidableEq τ] in
theorem private_init (e : LSMEngine) : (init e : Process τ).Private :=
  ⟨fun _ => trivial, nofun, ⟨nofun, fun h => absurd rfl h⟩⟩

variable {s : Lock.State (Option τ) LSMEngine Request Env Statement Reply}
  {thread : Lock.Thread Request Env Statement Reply}

theorem assigned_goTo (h : ∀ u, Assigned u (s.threads u)) {t : Option τ}
    (ht : Assigned t thread) (u : Option τ) : Assigned u ((s.goTo t thread).threads u) := by
  by_cases hu : u = t
  · rw [hu, Lock.goTo_self]
    exact ht
  · rw [Lock.goTo_of_ne hu]
    exact h u

/-- A thread with requests goes on; the compaction thread is where it was. -/
theorem threads_none_goTo (s : Lock.State (Option τ) LSMEngine Request Env Statement Reply)
    (t : τ) (thread : Lock.Thread Request Env Statement Reply) :
    (s.goTo (some t) thread).threads none = s.threads none :=
  Lock.goTo_of_ne (Option.some_ne_none t).symm thread

/-- A thread goes on within the engine. -/
theorem Private.goTo (h : p.Private) {t : Option τ} {lock} (place : Place)
    (hthreads : lock.threads = (p.lock.goTo t thread).threads) (hlog : lock.log = p.lock.log)
    (hold : p.lock.threads t ≠ .idle) (hnew : thread ≠ .idle) (ht : Assigned t thread)
    (hplace : place = p.place) : ({ p with lock := lock, place := place } : Process τ).Private := by
  subst hplace
  refine ⟨?_, hlog ▸ h.log, ?_⟩
  · intro u
    rw [hthreads]
    exact assigned_goTo h.assigned ht u
  · show p.place = .compacting ↔ lock.threads none ≠ .idle
    rw [h.place, hthreads]
    cases t with
    | none => rw [Lock.goTo_self]; exact iff_of_true hold hnew
    | some t => rw [threads_none_goTo]

theorem Private.engine (h : p.Private) {act : Lock.Action (Option τ) Request Env} {lock}
    (hpermitted : permitted act = true) (hlock : Lock.step sections p.lock act = some lock) :
    ({ p with lock := lock, place := placeAfter p.place act } : Process τ).Private := by
  cases Lock.step_cases hlock with
  | invoke hidle =>
      rename_i t request
      cases t with
      | none => cases hpermitted
      | some t =>
          refine ⟨?_, h.log, ?_⟩
          · refine assigned_goTo h.assigned (iff_of_false ?_ nofun)
            exact of_decide_eq_true hpermitted
          · rw [threads_none_goTo]
            exact h.place
  | acquire hfree hwaiting =>
      rename_i t env request invoked
      have ht := h.assigned t
      rw [hwaiting] at ht
      refine h.goTo _ rfl rfl (by rw [hwaiting]; exact nofun) nofun ⟨ht, ?_⟩ rfl
      -- what it enters is `compact`
      intro hnone
      have hcompact : request = .op .compact := ht.mpr hnone
      rw [hcompact]
      exact Nat.succ_pos 4
  | more hinside hsmall =>
      rename_i t call pc pc' shared
      have ht := h.assigned t
      rw [hinside] at ht
      refine h.goTo _ rfl rfl (by rw [hinside]; exact nofun) nofun ⟨ht.1, ?_⟩ rfl
      intro hnone
      obtain ⟨e', next, hrun, hnext⟩ := run_compact (ht.2 hnone) p.lock.shared
      have hsame : some (shared, Sum.inl pc') = some (e', next) := hsmall.symm.trans hrun
      simp only [Option.some.injEq, Prod.mk.injEq] at hsame
      exact (hnext pc' hsame.2.symm).1
  | done hinside hsmall =>
      rename_i t call pc result shared
      have ht := h.assigned t
      rw [hinside] at ht
      exact h.goTo _ rfl rfl (by rw [hinside]; exact nofun) nofun ht.1 rfl
  | release hleaving =>
      rename_i t call result
      have ht := h.assigned t
      rw [hleaving] at ht
      refine ⟨assigned_goTo h.assigned trivial, ?_, ?_⟩
      · intro r hr
        rcases List.mem_append.mp hr with hr | hr
        · exact h.log r hr
        · rw [List.mem_singleton.mp hr]
          exact ht
      · cases t with
        | none =>
            have hidle : (p.lock.goTo none .idle).threads none = .idle := Lock.goTo_self _
            exact iff_of_false nofun fun hne => hne hidle
        | some t =>
            show p.place = .compacting ↔ (p.lock.goTo (some t) .idle).threads none ≠ .idle
            rw [threads_none_goTo]
            exact h.place

omit [DecidableEq τ] in
/-- The loop goes on outside `compact`. -/
theorem Private.move (h : p.Private) (place : Place) (hold : p.place ≠ .compacting)
    (hnew : place ≠ .compacting) {running : Bool} {elapsedMs : Int} :
    (⟨p.lock, running, place, elapsedMs⟩ : Process τ).Private := by
  refine ⟨h.assigned, h.log, iff_of_false hnew ?_⟩
  rw [← h.place]
  exact hold

theorem Private.step (h : p.Private) (hstep : p.step target act = some p') : p'.Private := by
  cases step_cases hstep with
  | goOn hplace _ => exact h.move .sleep (by rw [hplace]; exact nofun) nofun
  | finish hplace _ => exact h.move .finished (by rw [hplace]; exact nofun) nofun
  | wake hplace => exact h.move .count (by rw [hplace]; exact nofun) nofun
  | due hplace _ => exact h.move .gate (by rw [hplace]; exact nofun) nofun
  | early hplace _ => exact h.move .test (by rw [hplace]; exact nofun) nofun
  | pass hplace _ => exact h.move .call (by rw [hplace]; exact nofun) nofun
  | skip hplace _ => exact h.move .test (by rw [hplace]; exact nofun) nofun
  | call hplace hidle =>
      refine ⟨assigned_goTo h.assigned (iff_of_true rfl rfl), h.log, iff_of_true rfl ?_⟩
      have hwaiting : (p.lock.goTo none (.waiting (.op .compact) p.lock.clock)).threads none =
        .waiting (.op .compact) p.lock.clock := Lock.goTo_self _
      rw [hwaiting]
      exact nofun
  | engine hpermitted hlock => exact h.engine hpermitted hlock
  | stop => exact ⟨h.assigned, h.log, h.place⟩

/-- What the threads do in the engine is a run of the mutex. -/
def lockActions (p : Process τ) : Action τ → List (Lock.Action (Option τ) Request Env)
  | .loop => if p.place = .call then [.invoke none (.op .compact)] else []
  | .engine act => [act]
  | .stop => []

theorem lock_step (hstep : p.step target act = some p') :
    Machine.run (Lock.step sections) p.lock (p.lockActions act) = some p'.lock := by
  have hidle : p.place ≠ .call → p.lockActions .loop = [] := fun hne => if_neg hne
  cases step_cases hstep with
  | goOn hplace _ => rw [hidle (by rw [hplace]; exact nofun)]; rfl
  | finish hplace _ => rw [hidle (by rw [hplace]; exact nofun)]; rfl
  | wake hplace => rw [hidle (by rw [hplace]; exact nofun)]; rfl
  | due hplace _ => rw [hidle (by rw [hplace]; exact nofun)]; rfl
  | early hplace _ => rw [hidle (by rw [hplace]; exact nofun)]; rfl
  | pass hplace _ => rw [hidle (by rw [hplace]; exact nofun)]; rfl
  | skip hplace _ => rw [hidle (by rw [hplace]; exact nofun)]; rfl
  | call hplace hthread =>
      have hcall : p.lockActions .loop = [.invoke none (.op .compact)] := if_pos hplace
      rw [hcall]
      refine Machine.run_cons.mpr ⟨_, ?_, Machine.run_nil _⟩
      simp only [Lock.step, hthread]
  | engine hpermitted hlock => exact Machine.run_cons.mpr ⟨_, hlock, Machine.run_nil _⟩
  | stop => rfl

/-- Run lemma of `lock_step`. -/
theorem lock_run (hrun : Machine.run (step target) p acts = some p') :
    Machine.run (Lock.step sections) p.lock (Machine.trace (step target) lockActions p acts) =
      some p'.lock := by
  induction acts using List.reverseRecOn generalizing p' with
  | nil =>
      cases hrun
      rfl
  | append_singleton acts act ih =>
      obtain ⟨p₁, hrun₁, hstep⟩ := Machine.run_concat.mp hrun
      rw [Machine.trace_concat hrun₁ hstep]
      exact Machine.run_append.mpr ⟨p₁.lock, ih hrun₁, lock_step hstep⟩

/-! ## Intervals -/

/-- How often the thread wakes for one compaction. -/
def period (compactionIntervalSec : Int) : Nat := max 1 (10 * compactionIntervalSec).toNat

/-- The thread wakes up and counts. -/
def wakes (p : Process τ) : Action τ → Nat
  | .loop => if p.place = .count then 1 else 0
  | .engine _ => 0
  | .stop => 0

/-- A compaction that is due and has not returned. -/
def Place.pending : Place → Nat
  | .gate => 1
  | .call => 1
  | .compacting => 1
  | _ => 0

/-- The compactions in the history of the engine. -/
def compactions (p : Process τ) : Nat := (history p.lock.log).countP isCompact

/-- What the thread has counted since the last interval was full, and while it
runs, the full intervals. -/
def Paced (period wakes : Nat) (p : Process τ) : Prop :=
  ∃ m : Nat, m < period ∧ p.elapsedMs = 100 * m ∧
    (p.running = true → wakes = period * (p.compactions + Place.pending p.place) + m)

variable {sec : Int} {w : Nat} {lock : Lock.State (Option τ) LSMEngine Request Env Statement Reply}

/-- A count of what was slept, up to the full interval. -/
theorem elapsed_cases (htarget : targetIntervalMs sec = some target) {m : Nat}
    (hm : m < period sec) :
    FitsInt (100 * m + checkIntervalMs) ∧
      (target ≤ 100 * m + checkIntervalMs ↔ m + 1 = period sec) := by
  unfold targetIntervalMs at htarget
  split_ifs at htarget with hfits
  have heq := Option.some.inj htarget
  unfold FitsInt at *
  unfold checkIntervalMs period at *
  omega

omit [DecidableEq τ] in
/-- The places outside the count keep pace where nothing returns. -/
theorem Paced.move (h : Paced (period sec) w p) (place : Place)
    (hlog : (history lock.log).countP isCompact = p.compactions)
    (hplace : Place.pending place = Place.pending p.place) :
    Paced (period sec) w { p with lock := lock, place := place } := by
  obtain ⟨m, hm, helapsed, hpace⟩ := h
  refine ⟨m, hm, helapsed, ?_⟩
  intro hrunning
  unfold compactions at *
  rw [hpace hrunning, hplace, hlog]

omit [DecidableEq τ] in
theorem countP_history_single (r : Lock.Record (Option τ) Request Env Reply) :
    (history [r]).countP isCompact = if r.op = .op .compact then 1 else 0 := by
  unfold history eventOf isCompact
  cases hop : r.op with
  | op op => simp [hop, List.countP_cons]
  | getStats => simp [hop]

/-- An action in the engine: a compaction that returns is no longer pending. -/
theorem Paced.engine (h : Paced (period sec) w p) (hprivate : p.Private)
    {act : Lock.Action (Option τ) Request Env}
    (hlock : Lock.step sections p.lock act = some lock) :
    Paced (period sec) w { p with lock := lock, place := placeAfter p.place act } := by
  cases Lock.step_cases hlock with
  | invoke hidle => exact h.move p.place rfl rfl
  | acquire hfree hwaiting => exact h.move p.place rfl rfl
  | more hinside hsmall => exact h.move p.place rfl rfl
  | done hinside hsmall => exact h.move p.place rfl rfl
  | release hleaving =>
      rename_i t call result
      have ht := hprivate.assigned t
      rw [hleaving] at ht
      have hlog : (history (p.lock.log ++ [⟨call, t, result, p.lock.clock⟩])).countP isCompact =
          p.compactions + if call.op = .op .compact then 1 else 0 := by
        rw [history_concat, List.countP_append, countP_history_single]
        rfl
      cases t with
      | none =>
          have hplace : p.place = .compacting := by
            rw [hprivate.place, hleaving]
            exact nofun
          obtain ⟨m, hm, helapsed, hpace⟩ := h
          refine ⟨m, hm, helapsed, ?_⟩
          intro hrunning
          rw [hpace hrunning, hplace]
          show _ = period sec * ((history (p.lock.log ++ [_])).countP isCompact + 0) + m
          rw [hlog, if_pos (ht.mpr rfl)]
          rfl
      | some t =>
          refine h.move p.place ?_ rfl
          rw [hlog, if_neg (mt ht.mp nofun), Nat.add_zero]

theorem Paced.step (h : Paced (period sec) w p) (hprivate : p.Private)
    (htarget : targetIntervalMs sec = some target) (hstep : p.step target act = some p') :
    Paced (period sec) (w + p.wakes act) p' := by
  have hidle : p.place ≠ .count → p.wakes .loop = 0 := fun hne => if_neg hne
  cases step_cases hstep with
  | goOn hplace _ =>
      rw [hidle (by rw [hplace]; exact nofun)]
      exact h.move .sleep rfl (by rw [hplace]; rfl)
  | finish hplace _ =>
      rw [hidle (by rw [hplace]; exact nofun)]
      exact h.move .finished rfl (by rw [hplace]; rfl)
  | wake hplace =>
      rw [hidle (by rw [hplace]; exact nofun)]
      exact h.move .count rfl (by rw [hplace]; rfl)
  | due hplace hdue =>
      obtain ⟨m, hm, helapsed, hpace⟩ := h
      rw [helapsed] at hdue
      have hfull := (elapsed_cases htarget hm).2.mp hdue
      have hcount : p.wakes .loop = 1 := if_pos hplace
      refine ⟨0, Nat.lt_of_le_of_lt (Nat.zero_le m) hm, rfl, ?_⟩
      intro hrunning
      rw [hcount, hpace hrunning, hplace]
      show period sec * (p.compactions + 0) + m + 1 = period sec * (p.compactions + 1) + 0
      rw [Nat.mul_add, Nat.mul_add]
      omega
  | early hplace hearly =>
      obtain ⟨m, hm, helapsed, hpace⟩ := h
      rw [helapsed] at hearly
      have hfull := mt (elapsed_cases htarget hm).2.mpr (Int.not_le.mpr hearly)
      have hcount : p.wakes .loop = 1 := if_pos hplace
      refine ⟨m + 1, by omega, ?_, ?_⟩
      · show p.elapsedMs + checkIntervalMs = 100 * ((m + 1 : Nat) : Int)
        rw [helapsed]
        unfold checkIntervalMs
        omega
      · intro hrunning
        rw [hcount, hpace hrunning, hplace]
        rfl
  | pass hplace _ =>
      rw [hidle (by rw [hplace]; exact nofun)]
      exact h.move .call rfl (by rw [hplace]; rfl)
  | skip hplace hrunning =>
      rw [hidle (by rw [hplace]; exact nofun)]
      obtain ⟨m, hm, helapsed, -⟩ := h
      refine ⟨m, hm, helapsed, ?_⟩
      intro hstill
      rw [hrunning] at hstill
      cases hstill
  | call hplace hthread =>
      rw [hidle (by rw [hplace]; exact nofun)]
      exact h.move .compacting rfl (by rw [hplace]; rfl)
  | engine hpermitted hlock => exact h.engine hprivate hlock
  | stop =>
      obtain ⟨m, hm, helapsed, -⟩ := h
      exact ⟨m, hm, helapsed, nofun⟩

theorem private_run {e : LSMEngine} (hrun : Machine.run (step target) (init e) acts = some p) :
    p.Private :=
  Machine.run_kept (fun _ _ _ h hstep => h.step hstep) (private_init e) hrun

/-- Run lemma of `Paced.step`. -/
theorem paced_run {e : LSMEngine} (htarget : targetIntervalMs sec = some target)
    (hrun : Machine.run (step target) (init e) acts = some p) :
    Paced (period sec) (Bucket.flow (step target) wakes (init e) acts) p := by
  induction acts using List.reverseRecOn generalizing p with
  | nil =>
      cases hrun
      refine ⟨0, ?_, rfl, fun _ => rfl⟩
      unfold period
      omega
  | append_singleton acts act ih =>
      obtain ⟨p₁, hrun₁, hstep⟩ := Machine.run_concat.mp hrun
      rw [Bucket.flow_concat hrun₁ hstep]
      exact (ih hrun₁).step (private_run hrun₁) htarget hstep

/-- For every interval that an `int` of milliseconds holds, every number of
threads and every interleaving: while `running_` is set, the compactions in the
history of the engine are the full intervals of what the thread slept, the last
one perhaps still to return. -/
theorem compactions_paced {e : LSMEngine} (htarget : targetIntervalMs sec = some target)
    (hrun : Machine.run (step target) (init e) acts = some p) (hrunning : p.running = true) :
    (history p.lock.log).countP isCompact + Place.pending p.place =
      Bucket.flow (step target) wakes (init e) acts / period sec := by
  obtain ⟨m, hm, -, hpace⟩ := paced_run htarget hrun
  rw [hpace hrunning, Nat.mul_add_div (Nat.zero_lt_of_lt hm), Nat.div_eq_of_lt hm]
  rfl

/-! ## The end -/

/-- The actions that are left to a thread in the engine, its compaction being
all it does there. -/
def stepsLeft : Lock.Thread Request Env Statement Reply → Nat
  | .idle => 0
  | .waiting _ _ => 7
  | .inside _ pc => compactLeft pc + 1
  | .leaving _ _ => 1

/-- The actions that are left to the compaction thread, `running_` being false. -/
def actionsLeft (p : Process τ) : Nat :=
  match p.place with
  | .finished => 0
  | .test => 1
  | .gate => 2
  | .count => 3
  | .sleep => 4
  | .call => 9
  | .compacting => stepsLeft (p.lock.threads none) + 1

/-- An action of the compaction thread. -/
def own : Action τ → Nat
  | .loop => 1
  | .engine (.invoke t _) => if t = none then 1 else 0
  | .engine (.acquire t _) => if t = none then 1 else 0
  | .engine (.small t) => if t = none then 1 else 0
  | .engine (.release t) => if t = none then 1 else 0
  | .stop => 0

/-- The compaction thread calls `compact`. -/
def calls (p : Process τ) : Action τ → Nat
  | .loop => if p.place = .call then 1 else 0
  | .engine _ => 0
  | .stop => 0

/-- The destructor has begun. -/
structure Stopped (p : Process τ) : Prop where
  kept : p.Private
  stopped : p.running = false

theorem Stopped.step (h : p.Stopped) (hstep : p.step target act = some p') : p'.Stopped := by
  refine ⟨h.kept.step hstep, ?_⟩
  have hstopped := h.stopped
  cases step_cases hstep <;> first | exact hstopped | rfl

omit [DecidableEq τ] in
/-- The compaction thread goes on in the engine, with fewer steps to come. -/
theorem actionsLeft_background (h : p.Private) (hinside : p.lock.threads none ≠ .idle)
    (hless : stepsLeft (lock.threads none) < stepsLeft (p.lock.threads none)) :
    1 + ({ p with lock := lock } : Process τ).actionsLeft ≤ p.actionsLeft := by
  have hplace := h.place.mpr hinside
  simp only [actionsLeft, hplace]
  omega

/-- Another thread goes on in the engine. -/
theorem actionsLeft_request {t : τ}
    (hthreads : lock.threads = (p.lock.goTo (some t) thread).threads) :
    0 + ({ p with lock := lock } : Process τ).actionsLeft ≤ p.actionsLeft := by
  have hnone : lock.threads none = p.lock.threads none := by
    rw [hthreads]
    exact threads_none_goTo p.lock t thread
  simp only [actionsLeft, hnone, Nat.zero_add, le_refl]

theorem Private.actionsLeft_engine (h : p.Private) {act : Lock.Action (Option τ) Request Env}
    (hpermitted : permitted act = true) (hlock : Lock.step sections p.lock act = some lock) :
    own (.engine act : Action τ) +
        ({ p with lock := lock, place := placeAfter p.place act } : Process τ).actionsLeft ≤
      p.actionsLeft := by
  cases Lock.step_cases hlock with
  | invoke hidle =>
      rename_i t request
      cases t with
      | none => cases hpermitted
      | some t => exact actionsLeft_request rfl
  | acquire hfree hwaiting =>
      rename_i t env request invoked
      cases t with
      | none =>
          have hcompact : request = .op .compact := by
            have ht := h.assigned none
            rw [hwaiting] at ht
            exact ht.mpr rfl
          refine actionsLeft_background h (by rw [hwaiting]; exact nofun) ?_
          rw [Lock.goTo_self, hwaiting, hcompact]
          exact Nat.lt_succ_self 6
      | some t => exact actionsLeft_request rfl
  | more hinside hsmall =>
      rename_i t call pc pc' shared
      cases t with
      | none =>
          have ht := h.assigned none
          rw [hinside] at ht
          obtain ⟨e', next, hrun, hnext⟩ := run_compact (ht.2 rfl) p.lock.shared
          have hsame : some (shared, Sum.inl pc') = some (e', next) := hsmall.symm.trans hrun
          simp only [Option.some.injEq, Prod.mk.injEq] at hsame
          refine actionsLeft_background h (by rw [hinside]; exact nofun) ?_
          rw [Lock.goTo_self, hinside]
          exact Nat.succ_lt_succ (hnext pc' hsame.2.symm).2
      | some t => exact actionsLeft_request rfl
  | done hinside hsmall =>
      rename_i t call pc result shared
      cases t with
      | none =>
          have ht := h.assigned none
          rw [hinside] at ht
          refine actionsLeft_background h (by rw [hinside]; exact nofun) ?_
          rw [Lock.goTo_self, hinside]
          exact Nat.succ_lt_succ (ht.2 rfl)
      | some t => exact actionsLeft_request rfl
  | release hleaving =>
      rename_i t call result
      cases t with
      | none =>
          have hplace : p.place = .compacting := by
            rw [h.place, hleaving]
            exact nofun
          simp only [actionsLeft, hplace, hleaving, stepsLeft, own, placeAfter, if_true]
          omega
      | some t => exact actionsLeft_request rfl

/-- Every action of the compaction thread brings its end closer, and none of
the others puts it off. -/
theorem Stopped.actionsLeft_step (h : p.Stopped) (hstep : p.step target act = some p') :
    own act + p'.actionsLeft ≤ p.actionsLeft := by
  have hstopped := h.stopped
  cases step_cases hstep with
  | goOn hplace hrunning => rw [hstopped] at hrunning; cases hrunning
  | finish hplace hrunning => simp only [actionsLeft, hplace, own]; omega
  | wake hplace => simp only [actionsLeft, hplace, own]; omega
  | due hplace hdue => simp only [actionsLeft, hplace, own]; omega
  | early hplace hearly => simp only [actionsLeft, hplace, own]; omega
  | pass hplace hrunning => rw [hstopped] at hrunning; cases hrunning
  | skip hplace hrunning => simp only [actionsLeft, hplace, own]; omega
  | call hplace hidle =>
      simp only [actionsLeft, hplace, own, Lock.goTo_self, stepsLeft]
      omega
  | engine hpermitted hlock => exact h.kept.actionsLeft_engine hpermitted hlock
  | stop => exact Nat.le_of_eq (Nat.zero_add _)

/-- `compact` is called at most once more, and only by a thread that was about
to. -/
theorem Stopped.calls_step (h : p.Stopped) (hstep : p.step target act = some p') :
    p.calls act + (if p'.place = .call then 1 else 0) ≤ if p.place = .call then 1 else 0 := by
  have hstopped := h.stopped
  cases step_cases hstep with
  | goOn hplace hrunning => rw [hstopped] at hrunning; cases hrunning
  | finish hplace hrunning => simp [calls, hplace]
  | wake hplace => simp [calls, hplace]
  | due hplace hdue => simp [calls, hplace]
  | early hplace hearly => simp [calls, hplace]
  | pass hplace hrunning => rw [hstopped] at hrunning; cases hrunning
  | skip hplace hrunning => simp [calls, hplace]
  | call hplace hidle => simp [calls, hplace]
  | @engine act lock hpermitted hlock =>
      rcases placeAfter_cases p.place act with heq | heq
      · simp [calls, heq]
      · rw [heq]
        exact Nat.le_of_eq (Nat.zero_add _)
  | stop => exact Nat.le_of_eq (Nat.zero_add _)

omit [DecidableEq τ] in
theorem actionsLeft_le (p : Process τ) : p.actionsLeft ≤ 9 := by
  have hcompact : ∀ pc : Statement, compactLeft pc ≤ 5 := by
    intro pc
    cases pc <;> simp [compactLeft]
  unfold actionsLeft
  cases p.place with
  | compacting =>
      cases p.lock.threads none with
      | inside call pc =>
          have hpc := hcompact pc
          simp only [stepsLeft]
          omega
      | _ => simp [stepsLeft]
  | _ => simp

/-- The compaction thread can go on, unless it is at its end or waits for a
mutex that another thread has. -/
theorem moves {e : LSMEngine} (htarget : targetIntervalMs sec = some target)
    (hrun : Machine.run (step target) (init e) acts = some p) :
    p.place = .finished ∨ (∃ act p', own act = 1 ∧ p.step target act = some p') ∨
      ∃ t, p.lock.owner = some (some t) := by
  have hprivate := private_run hrun
  have hserial := Lock.serial_run (lock_run hrun)
  have hloop : (p.loop target).isSome = true →
      ∃ act p', own act = 1 ∧ p.step target act = some p' := by
    intro hsome
    obtain ⟨p', hp'⟩ := Option.isSome_iff_exists.mp hsome
    exact ⟨.loop, p', rfl, hp'⟩
  have hengine : ∀ act : Lock.Action (Option τ) Request Env, own (.engine act : Action τ) = 1 →
      permitted act = true → (Lock.step sections p.lock act).isSome = true →
      ∃ act p', own act = 1 ∧ p.step target act = some p' := by
    intro act hown hpermitted hsome
    obtain ⟨lock, hlock⟩ := Option.isSome_iff_exists.mp hsome
    refine ⟨.engine act, { p with lock := lock, place := placeAfter p.place act }, hown, ?_⟩
    simp only [step, hpermitted, if_true, hlock, Option.map_some]
  cases hplace : p.place with
  | test => exact Or.inr (Or.inl (hloop (by simp [loop, hplace])))
  | sleep => exact Or.inr (Or.inl (hloop (by simp [loop, hplace])))
  | count =>
      -- the count of an `int` does not overflow
      obtain ⟨m, hm, helapsed, -⟩ := paced_run htarget hrun
      have hfits := (elapsed_cases htarget hm).1
      refine Or.inr (Or.inl (hloop ?_))
      simp only [loop, hplace, helapsed, if_pos hfits]
      split_ifs <;> rfl
  | gate => exact Or.inr (Or.inl (hloop (by simp [loop, hplace])))
  | call =>
      have hidle : p.lock.threads none = .idle := by
        by_contra hne
        rw [hprivate.place.mpr hne] at hplace
        cases hplace
      exact Or.inr (Or.inl (hloop (by simp [loop, hplace, Lock.step, hidle])))
  | compacting =>
      have hassigned := hprivate.assigned none
      cases hthread : p.lock.threads none with
      | idle => exact absurd hthread (hprivate.place.mp hplace)
      | waiting request invoked =>
          cases howner : p.lock.owner with
          | none =>
              refine Or.inr (Or.inl (hengine (.acquire none (Env.calm 0)) rfl rfl ?_))
              simp [Lock.step, howner, hthread]
          | some t =>
              cases t with
              | some t => exact Or.inr (Or.inr ⟨t, rfl⟩)
              | none =>
                  obtain ⟨before, -, hmidway⟩ := hserial.held none howner
                  rw [hthread] at hmidway
                  exact hmidway.elim
      | inside call pc =>
          rw [hthread] at hassigned
          obtain ⟨e', next, hpc, -⟩ := run_compact (hassigned.2 rfl) p.lock.shared
          have hsmall : sections.small p.lock.shared pc = some (e', next) := hpc
          refine Or.inr (Or.inl (hengine (.small none) rfl rfl ?_))
          cases next with
          | inl pc' => simp [Lock.step, hthread, hsmall]
          | inr reply => simp [Lock.step, hthread, hsmall]
      | leaving call result =>
          refine Or.inr (Or.inl (hengine (.release none) rfl rfl ?_))
          simp [Lock.step, hthread]
  | finished => exact Or.inl rfl

/-- In every state of every run the compaction thread is at its end, can go on,
or waits for a mutex that another thread has; and once the destructor has taken
`running_` back, it goes on for nine actions and one call of `compact` at most,
whatever the others do: the `join` comes to its end. -/
theorem thread_ends {e : LSMEngine} (htarget : targetIntervalMs sec = some target)
    (hrun : Machine.run (step target) (init e) acts = some p) :
    (p.place = .finished ∨ (∃ act p', own act = 1 ∧ p.step target act = some p') ∨
      ∃ t, p.lock.owner = some (some t)) ∧
    (p.running = false → ∀ later p', Machine.run (step target) p later = some p' →
      (later.map own).sum ≤ 9 ∧ Bucket.flow (step target) calls p later ≤ 1) := by
  refine ⟨moves htarget hrun, ?_⟩
  intro hstopped later p' hlater
  have hstart : p.Stopped := ⟨private_run hrun, hstopped⟩
  have hkeep : ∀ (p : Process τ) act p', p.Stopped → p.step target act = some p' → p'.Stopped :=
    fun _ _ _ h hstep => h.step hstep
  constructor
  · have hown := Bucket.flow_add_rank_le hkeep
      (fun _ _ _ h hstep => h.actionsLeft_step hstep) hstart hlater
    rw [Bucket.flow_eq_sum hlater] at hown
    have hle := p.actionsLeft_le
    omega
  · have hcalls : Bucket.flow (step target) calls p later +
        (if p'.place = .call then 1 else 0) ≤ if p.place = .call then 1 else 0 :=
      Bucket.flow_add_rank_le hkeep (fun _ _ _ h hstep => h.calls_step hstep) hstart hlater
    split_ifs at hcalls <;> omega

/-- With an interval of no seconds: a compaction is called while a `set` has the
mutex, and then the destructor begins. -/
def shortLife : List (Action Unit) :=
  [.loop, .loop, .loop, .loop, .engine (.invoke (some ()) (.op (.set (ascii "k") (ascii "v")))),
    .loop, .engine (.acquire (some ()) (Env.calm 1)), .stop] ++
  List.replicate 5 (.engine (.small (some ()))) ++
  [.engine (.release (some ())), .engine (.acquire none (Env.calm 2)), .engine (.small none),
    .engine (.release none), .loop]

theorem compactions_paced_shortLife :
    ∃ p, Machine.run (step 0) (init (start [] 1 100)) (shortLife.take 7) = some p ∧
      (history p.lock.log).countP isCompact + Place.pending p.place =
        Bucket.flow (step 0) wakes (init (start [] 1 100)) (shortLife.take 7) / period 0 := by
  have hfacts : (Machine.run (step 0) (init (start [] 1 100)) (shortLife.take 7)).map
      (fun p => p.running) = some true := by decide +kernel
  obtain ⟨p, hrun, hrunning⟩ := Option.map_eq_some_iff.mp hfacts
  have htarget : targetIntervalMs 0 = some 0 := by decide
  exact ⟨p, hrun, compactions_paced htarget hrun hrunning⟩

theorem thread_ends_shortLife :
    ∃ p, Machine.run (step 0) (init (start [] 1 100)) (shortLife.take 8) = some p ∧
      ∃ p', Machine.run (step 0) p (shortLife.drop 8) = some p' ∧
        ((shortLife.drop 8).map own).sum ≤ 9 ∧
        Bucket.flow (step 0) calls p (shortLife.drop 8) ≤ 1 := by
  have hfacts : (Machine.run (step 0) (init (start [] 1 100)) (shortLife.take 8)).map
      (fun p => (p.running, (Machine.run (step 0) p (shortLife.drop 8)).isSome)) =
        some (false, true) := by decide +kernel
  obtain ⟨p, hrun, hfacts'⟩ := Option.map_eq_some_iff.mp hfacts
  simp only [Prod.mk.injEq] at hfacts'
  obtain ⟨p', hlater⟩ := Option.isSome_iff_exists.mp hfacts'.2
  have htarget : targetIntervalMs 0 = some 0 := by decide
  exact ⟨p, hrun, p', hlater, (thread_ends htarget hrun).2 hfacts'.1 _ p' hlater⟩

end Process

end VaultDB
