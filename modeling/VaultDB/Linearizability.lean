import VaultDB.Runs
import VaultDB.Sections

/-! # Threads

Any number of threads call the engine, each step of one possibly between two
steps of another. What they see is a history of single operations, in an order
that agrees with real time: the sequential engine gives the same results in
that order (`serialized`), and so does a plain map, as long as no device fails
and no name is used twice (`linearizable`). No thread is blocked by others that
wait: whoever holds the mutex is out of it after a number of its own steps that
the tables bound (`never_blocked`).
-/

namespace VaultDB

open Text Expiring LSMEngine

variable {τ : Type*} {start e e' : LSMEngine} {log : List (Lock.Record τ Request Env Reply)}

/-! ## Histories -/

/-- What an operation that returned was to the engine. `get_stats` changes
nothing. -/
def eventOf (r : Lock.Record τ Request Env Reply) : Option Event :=
  match r.op with
  | .op op => some ⟨op, r.env⟩
  | .getStats => none

def history (log : List (Lock.Record τ Request Env Reply)) : List Event := log.filterMap eventOf

theorem history_concat (log : List (Lock.Record τ Request Env Reply))
    (r : Lock.Record τ Request Env Reply) : history (log ++ [r]) = history log ++ history [r] :=
  List.filterMap_append

theorem history_take_append (log : List (Lock.Record τ Request Env Reply)) (i : Nat) :
    history (log.take i) ++ history (log.drop i) = history log := by
  unfold history
  rw [← List.filterMap_append, List.take_append_drop]

/-- An operation is a step of the engine. -/
theorem step_of_perform {op : Op} {env : Env} {reply : Reply}
    (h : e.perform (.op op) env = some (reply, e')) : e.step ⟨op, env⟩ = some e' := by
  unfold perform at h
  unfold LSMEngine.step
  cases op with
  | set key value =>
      simp only [Option.map_eq_some_iff, Prod.mk.injEq] at h
      rcases h with ⟨e₁, hset, -, rfl⟩
      exact hset
  | get key =>
      simp only [Option.map_eq_some_iff, Prod.mk.injEq] at h
      rcases h with ⟨read, hget, -, rfl⟩
      exact Option.map_eq_some_iff.mpr ⟨read, hget, rfl⟩
  | del key =>
      simp only [Option.map_eq_some_iff, Prod.mk.injEq] at h
      rcases h with ⟨e₁, hdel, -, rfl⟩
      exact hdel
  | compact =>
      simp only [Option.some.injEq, Prod.mk.injEq] at h
      exact congrArg some h.2

theorem getStats_of_perform {env : Env} {reply : Reply}
    (h : e.perform .getStats env = some (reply, e')) : e' = e := by
  unfold perform at h
  simp only [Option.some.injEq, Prod.mk.injEq] at h
  exact h.2.symm

theorem run_history {r : Lock.Record τ Request Env Reply}
    (h : e.perform r.op r.env = some (r.result, e')) :
    Machine.run LSMEngine.step e (history [r]) = some e' := by
  unfold history
  rw [List.filterMap_cons, List.filterMap_nil]
  unfold eventOf
  cases hop : r.op with
  | getStats =>
      rw [hop] at h
      rw [getStats_of_perform h]
      rfl
  | op op =>
      rw [hop] at h
      exact Machine.run_cons.mpr ⟨e', step_of_perform h, Machine.run_nil _⟩

/-- Sections one after the other are a run of the engine. -/
theorem run_sequence (h : Lock.Sequence sections start log e) :
    Machine.run LSMEngine.step start (history log) = some e := by
  induction h with
  | nil => rfl
  | concat hlog hr ih =>
      rw [history_concat]
      exact Machine.run_append.mpr ⟨_, ih, run_history ((Statement.completes_iff _ _).mp hr)⟩

/-- Each result is the engine's, after the operations in front. -/
theorem result_sequence (h : Lock.Sequence sections start log e) {i : Nat}
    {r : Lock.Record τ Request Env Reply} (hr : log[i]? = some r) :
    ∃ e₁ e₂, Machine.run LSMEngine.step start (history (log.take i)) = some e₁ ∧
      e₁.perform r.op r.env = some (r.result, e₂) := by
  induction h with
  | nil => cases hr
  | concat hlog hlast ih =>
      rename_i log e₁ e₂ last
      by_cases hlt : i < log.length
      · rw [List.getElem?_append_left hlt] at hr
        rw [List.take_append_of_le_length hlt.le]
        exact ih hr
      · -- the last operation
        have hge := Nat.le_of_not_lt hlt
        rw [List.getElem?_append_right hge] at hr
        have hlen := Lock.lt_length_of_some hr
        rw [List.length_singleton] at hlen
        have hi : i = log.length := by omega
        rw [hi, Nat.sub_self] at hr
        cases hr
        rw [hi, List.take_left]
        exact ⟨e₁, e₂, run_sequence hlog, (Statement.completes_iff _ _).mp hlast⟩

variable [DecidableEq τ] {s : Lock.State τ LSMEngine Request Env Statement Reply}
  {acts : List (Lock.Action τ Request Env)}

/-- Whatever the interleaving, the engine under the mutex is the one that the
operations which returned lead to one after the other, the owner of the mutex
being in the middle of one more, and every result is the one that the engine
gives there. -/
theorem serialized
    (hrun : Machine.run (Lock.step sections) (Lock.State.init start) acts = some s) :
    Lock.Explains acts s.log ∧
      ∃ before, Machine.run LSMEngine.step start (history s.log) = some before ∧
        (s.owner = none → s.shared = before) ∧
        (∀ t, s.owner = some t → (s.threads t).Midway sections before s.shared) ∧
        ∀ i r, s.log[i]? = some r → ∃ e₁ e₂,
          Machine.run LSMEngine.step start (history (s.log.take i)) = some e₁ ∧
          e₁.perform r.op r.env = some (r.result, e₂) := by
  have hserial := Lock.serial_run hrun
  refine ⟨(Lock.timed_run hrun).explains, ?_⟩
  cases howner : s.owner with
  | none =>
      have hsequence := hserial.free howner
      exact ⟨s.shared, run_sequence hsequence, fun _ => rfl, nofun,
        fun i r hr => result_sequence hsequence hr⟩
  | some t =>
      rcases hserial.held t howner with ⟨before, hsequence, hmidway⟩
      refine ⟨before, run_sequence hsequence, nofun, ?_, fun i r hr => result_sequence hsequence hr⟩
      intro u hu
      rw [← Option.some.inj hu]
      exact hmidway

/-- Two threads: while one is in a `set`, the other comes with a `get`, and is
let in after it. -/
def twoThreads : List (Lock.Action (Fin 2) Request Env) :=
  [.invoke 0 (.op (.set (ascii "k") (ascii "v"))), .acquire 0 (Env.calm 1), .small 0, .small 0,
    .invoke 1 (.op (.get (ascii "k"))), .small 0, .small 0, .small 0, .release 0,
    .acquire 1 (Env.calm 2), .small 1, .small 1, .small 1, .release 1]

theorem serialized_twoThreads :
    ∃ s, Machine.run (Lock.step sections) (Lock.State.init (LSMEngine.start [] 1 100))
        twoThreads = some s ∧
      Lock.Explains twoThreads s.log ∧
      ∃ before, Machine.run LSMEngine.step (LSMEngine.start [] 1 100) (history s.log) =
          some before ∧
        (s.owner = none → s.shared = before) ∧
        (∀ t, s.owner = some t → (s.threads t).Midway sections before s.shared) ∧
        ∀ i r, s.log[i]? = some r → ∃ e₁ e₂,
          Machine.run LSMEngine.step (LSMEngine.start [] 1 100) (history (s.log.take i)) =
            some e₁ ∧
          e₁.perform r.op r.env = some (r.result, e₂) := by
  have hsome : (Machine.run (Lock.step sections) (Lock.State.init (LSMEngine.start [] 1 100))
      twoThreads).isSome = true := by decide +kernel
  rcases Option.isSome_iff_exists.mp hsome with ⟨s, hrun⟩
  exact ⟨s, hrun, serialized hrun⟩

/-! ## The plain map -/

/-- What a plain map replies to an operation at a time. -/
def PlainMap.reply (P : PlainMap) (op : Op) (now : Nat) : Reply :=
  match op with
  | .get key => .value (visible now (P key))
  | _ => .done

/-- Where an engine answers as a plain map does, so it replies. -/
theorem reply_of_answer {P : PlainMap} {op : Op} {env : Env} {reply : Reply}
    (hanswer : ∀ key, e.answer key env.now = some (visible env.now (P key)))
    (h : e.perform (.op op) env = some (reply, e')) : reply = P.reply op env.now := by
  unfold perform at h
  cases op with
  | set key value =>
      simp only [Option.map_eq_some_iff, Prod.mk.injEq] at h
      rcases h with ⟨e₁, -, hreply, -⟩
      exact hreply.symm
  | get key =>
      simp only [Option.map_eq_some_iff, Prod.mk.injEq] at h
      rcases h with ⟨read, hget, hreply, -⟩
      have hread := hanswer key
      unfold LSMEngine.answer at hread
      rw [hget] at hread
      rw [← hreply]
      exact congrArg Reply.value (Option.some.inj hread)
  | del key =>
      simp only [Option.map_eq_some_iff, Prod.mk.injEq] at h
      rcases h with ⟨e₁, -, hreply, -⟩
      exact hreply.symm
  | compact =>
      simp only [Option.some.injEq, Prod.mk.injEq] at h
      exact h.1.symm

/-- Threads that call an engine just started see a plain map: every operation
that returned has the reply of one, after those in front of it in a history
that agrees with real time. -/
theorem linearizable {dataDir : Bytes} {cacheSize : Nat} {threshold : UInt64}
    (hrun : Machine.run (Lock.step sections)
      (Lock.State.init (LSMEngine.start dataDir cacheSize threshold)) acts = some s)
    (hio : ∀ ev ∈ history s.log, NoIoError ev) (hfits : ∀ ev ∈ history s.log, OpFits ev.op)
    (hclock : (history s.log).Pairwise fun ev ev' => ev.env.now ≤ ev'.env.now)
    (hnames : (Machine.trace LSMEngine.step nameReadings
      (LSMEngine.start dataDir cacheSize threshold) (history s.log)).Nodup) :
    Lock.Explains acts s.log ∧ ∀ i r op, s.log[i]? = some r → r.op = .op op →
      r.result = (PlainMap.after (history (s.log.take i))).reply op r.env.now := by
  rcases serialized hrun with ⟨hexplains, before, -, -, -, hresults⟩
  refine ⟨hexplains, ?_⟩
  intro i r op hr hop
  rcases hresults i r hr with ⟨e₁, e₂, hrun₁, hperform⟩
  rw [hop] at hperform
  apply reply_of_answer _ hperform
  -- the operations in front are orderly, and were early enough
  have hsplit := history_take_append s.log i
  have horderly : Machine.Along LSMEngine.step Orderly
      (LSMEngine.start dataDir cacheSize threshold) (history (s.log.take i)) := by
    rw [← hsplit] at hio hfits hnames
    exact along_orderly (fun ev hev => hio ev (List.mem_append_left _ hev))
      (fun ev hev => hfits ev (List.mem_append_left _ hev))
      (hnames.sublist (Machine.isPrefix_trace _ _ _).sublist)
  have hevent : (⟨op, r.env⟩ : Event) ∈ history (s.log.drop i) := by
    refine List.mem_filterMap.mpr ⟨r, ?_, by unfold eventOf; rw [hop]⟩
    exact List.mem_of_getElem? ((List.getElem?_drop).trans hr : (s.log.drop i)[0]? = some r)
  rw [← hsplit] at hclock
  intro key
  apply answer_run horderly hrun₁
  intro ev hev
  exact (List.pairwise_append.mp hclock).2.2 ev hev _ hevent

theorem linearizable_twoThreads :
    ∃ s, Machine.run (Lock.step sections) (Lock.State.init (LSMEngine.start [] 1 100))
        twoThreads = some s ∧
      Lock.Explains twoThreads s.log ∧ ∀ i r op, s.log[i]? = some r → r.op = .op op →
        r.result = (PlainMap.after (history (s.log.take i))).reply op r.env.now := by
  have hfacts : (Machine.run (Lock.step sections) (Lock.State.init (LSMEngine.start [] 1 100))
      twoThreads).map (fun s => history s.log) =
        some [⟨.set (ascii "k") (ascii "v"), Env.calm 1⟩, ⟨.get (ascii "k"), Env.calm 2⟩] := by
    decide +kernel
  rcases Option.map_eq_some_iff.mp hfacts with ⟨s, hrun, hhistory⟩
  refine ⟨s, hrun, linearizable hrun ?_ ?_ ?_ ?_⟩
  · rw [hhistory]
    decide
  · rw [hhistory]
    decide
  · rw [hhistory]
    decide
  · rw [hhistory]
    decide +kernel

/-! ## Progress -/

theorem workable_start {dataDir : Bytes} {cacheSize : Nat} {threshold : UInt64}
    (hcache : 0 < cacheSize) :
    Statement.Workable (LSMEngine.start dataDir cacheSize threshold) :=
  ⟨LRUCache.linked_new _, hcache⟩

/-- From every state of every run, the owner of the mutex gives it back, and a
thread that finds it free has its reply, after at most two actions and as many
statements as there are tables and ten more, all of its own. -/
theorem never_blocked {dataDir : Bytes} {cacheSize : Nat} {threshold : UInt64}
    (hcache : 0 < cacheSize)
    (hrun : Machine.run (Lock.step sections)
      (Lock.State.init (LSMEngine.start dataDir cacheSize threshold)) acts = some s) (t : τ) :
    (s.owner = some t → ∃ n s', n ≤ s.shared.sstables.length + 10 ∧
      Machine.run (Lock.step sections) s (List.replicate n (.small t) ++ [.release t]) =
        some s' ∧ s'.owner = none) ∧
    (∀ request invoked env, s.owner = none → s.threads t = .waiting request invoked →
      ∃ n s' reply, n ≤ s.shared.sstables.length + 10 ∧
        Machine.run (Lock.step sections) s (.acquire t env :: List.replicate n (.small t)) =
          some s' ∧ s'.threads t = .leaving ⟨request, env, invoked, s.clock⟩ reply) := by
  have hserial := Lock.serial_run hrun
  have hstart : Statement.Workable (LSMEngine.start dataDir cacheSize threshold) :=
    workable_start hcache
  constructor
  · intro howner
    have hbound : ∀ call pc, s.threads t = .inside call pc →
        Statement.left s.shared pc ≤ s.shared.sstables.length + 9 := by
      intro call pc hinside
      rcases Statement.advances.thread hstart hserial howner with
        ⟨call', pc', hinside', hready⟩ | ⟨call', reply, hleaving, -⟩
      · rw [hinside] at hinside'
        cases hinside'
        exact Statement.left_le hready
      · rw [hinside] at hleaving
        cases hleaving
    rcases Statement.advances.release hstart hserial howner hbound with
      ⟨n, s', hn, hrelease, hfree, -⟩
    exact ⟨n, s', hn, hrelease, hfree⟩
  · intro request invoked env hfree hwaiting
    have hworkable := Statement.advances.sequence hstart (hserial.free hfree)
    exact Statement.advances.serve hfree hworkable hwaiting env
      (Statement.left_le (Statement.advances.enter request env hworkable))

/-- Thread 0 is in its `set`, and thread 1 has called. -/
theorem never_blocked_twoThreads :
    ∃ s, Machine.run (Lock.step sections) (Lock.State.init (LSMEngine.start [] 1 100))
        (twoThreads.take 5) = some s ∧ s.owner = some 0 ∧
      ∃ n s', n ≤ s.shared.sstables.length + 10 ∧
        Machine.run (Lock.step sections) s (List.replicate n (.small 0) ++ [.release 0]) =
          some s' ∧ s'.owner = none := by
  have hfacts : (Machine.run (Lock.step sections) (Lock.State.init (LSMEngine.start [] 1 100))
      (twoThreads.take 5)).map (fun s => s.owner) = some (some 0) := by decide +kernel
  rcases Option.map_eq_some_iff.mp hfacts with ⟨s, hrun, howner⟩
  exact ⟨s, hrun, howner, (never_blocked (by decide) hrun 0).1 howner⟩

end VaultDB
