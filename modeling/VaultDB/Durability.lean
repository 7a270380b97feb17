import VaultDB.Kills
import VaultDB.Linearizability

/-! # Durability

The process is killed while threads call the engine. The next start finds the
operations that returned and nothing else, or those and the one that was in the
mutex (`durable`), unless the kill cuts the value of a key that the log does not
hold, in a table file that is being written.
-/

namespace VaultDB

open Text Codec FileStream SSTable Expiring LSMEngine

variable {before e e' : LSMEngine} {request : Request} {env : Env} {pc pc' : Statement}

/-! ## What the next start finds -/

/-- Constructed on the directory later than the events, with room in its cache,
an engine answers every `get` from then on as the plain map does. -/
def RestartsWith (evs : List Event) (dataDir : Bytes) (disk : DataDir) (P : PlainMap) : Prop :=
  ∀ (cacheSize : Nat) (threshold : UInt64) (ms t : Nat) (key : Bytes), 0 < cacheSize →
    (∀ r ∈ evs.flatMap readings, r < ms) → ms ≤ t →
    (LSMEngine.new disk dataDir cacheSize threshold ms Device.sound).answer key t =
      some (visible t (P key))

/-- The map after the operations that returned, with or without the one in the
mutex. -/
def Either (evs pending : List Event) (P : PlainMap) : Prop :=
  P = PlainMap.after evs ∨ P = PlainMap.after (evs ++ pending)

variable {dataDir : Bytes} {cacheSize : Nat} {threshold : UInt64} {evs : List Event} {ev : Event}

/-- At the end of a run whose compactions merge current values the engine
answers, and the directory reads, as the plain map. -/
theorem Regular.midway_of_run (h : Regular dataDir cacheSize threshold evs)
    (hcurrent : Machine.Along LSMEngine.step CompactsCurrent
      (start dataDir cacheSize threshold) evs)
    (hrun : Machine.run LSMEngine.step (start dataDir cacheSize threshold) evs = some e) {t : Nat}
    (hlater : ∀ r ∈ evs.flatMap readings, r < t) :
    Midway dataDir (Machine.trace LSMEngine.step nameReadings (start dataDir cacheSize threshold)
      evs) (PlainMap.after evs) t e :=
  ⟨sound_run h.along hrun, named_run hrun, h.reads hrun hlater,
    (faithful_run_iff h).mpr hcurrent evs List.prefix_rfl e hrun t hlater⟩

theorem Regular.allowed (h : Regular dataDir cacheSize threshold (evs ++ [ev]))
    (hcurrent : Machine.Along LSMEngine.step CompactsCurrent
      (start dataDir cacheSize threshold) (evs ++ [ev]))
    (hrun : Machine.run LSMEngine.step (start dataDir cacheSize threshold) evs = some before)
    {t : Nat} (hlater : ∀ r ∈ (evs ++ [ev]).flatMap readings, r < t) :
    Allowed (Machine.trace LSMEngine.step nameReadings (start dataDir cacheSize threshold) evs) t
      before ev := by
  have hnow := (h.now_lt_iff t).mpr hlater
  refine ⟨h.io ev (by simp), h.fits ev (by simp), ?_, hnow, ?_⟩
  · intro e' hstep
    have hnames := h.names
    rw [Machine.trace_concat hrun hstep] at hnames
    exact hnames
  · intro hop hmany
    have hstep : before.step ev = some (before.compact ev.env.now ev.env.dev) := by
      unfold LSMEngine.step
      rw [hop]
    exact (Machine.along_concat.mp hcurrent).2 before _ hrun hstep hop hmany t hnow

/-- What is left at all later times is what the next start finds. -/
theorem restartsWith_of_left {used : List Nat} {disk : DataDir} {P : PlainMap} {torn : Bool}
    (hused : ∀ ms, (∀ r ∈ evs.flatMap readings, r < ms) → ∀ ms' ∈ used, ms' < ms)
    (hleft : ∀ t, (∀ r ∈ evs.flatMap readings, r < t) → Left dataDir used P t torn disk) :
    RestartsWith evs dataDir disk P := by
  intro cacheSize threshold ms t key hcache hms ht
  have hlater : ∀ r ∈ evs.flatMap readings, r < t := fun r hr => lt_of_lt_of_le (hms r hr) ht
  have hfresh := (hleft t hlater).names.not_mem_of_later (hused ms hms) (Or.inl rfl)
  rw [answer_new (hleft t hlater).loadable hcache hfresh, (hleft t hlater).faithful key]

/-- After a whole run, and nothing more. -/
theorem Regular.restartsWith (h : Regular dataDir cacheSize threshold evs)
    (hcurrent : Machine.Along LSMEngine.step CompactsCurrent
      (start dataDir cacheSize threshold) evs)
    (hrun : Machine.run LSMEngine.step (start dataDir cacheSize threshold) evs = some e) :
    RestartsWith evs dataDir e.disk (PlainMap.after evs) :=
  restartsWith_of_left (fun _ => later_of_names)
    fun _ ht => (h.midway_of_run hcurrent hrun ht).left

/-- In the middle of one more operation. -/
theorem Regular.killed {op : Op} {upTo : Option Nat}
    (h : Regular dataDir cacheSize threshold (evs ++ [⟨op, env⟩]))
    (hcurrent : Machine.Along LSMEngine.step CompactsCurrent
      (start dataDir cacheSize threshold) (evs ++ [⟨op, env⟩]))
    (hrun : Machine.run LSMEngine.step (start dataDir cacheSize threshold) evs = some before)
    (hstage : Stage before (.op op) env e pc) (huncut : Uncut e pc upTo) :
    ∃ P, Either evs [⟨op, env⟩] P ∧
      RestartsWith (evs ++ [⟨op, env⟩]) dataDir (cutAt e pc upTo) P := by
  have hpre := h.isPrefix (List.prefix_append evs [⟨op, env⟩])
  have hcurrent' := (Machine.along_append.mp hcurrent).1
  have hleft : ∀ t, (∀ r ∈ (evs ++ [(⟨op, env⟩ : Event)]).flatMap readings, r < t) →
      Left dataDir (Machine.trace LSMEngine.step nameReadings (start dataDir cacheSize threshold)
          evs ++ nameReadings before ⟨op, env⟩)
        (if recorded pc upTo then (PlainMap.after evs).apply op else PlainMap.after evs) t
        (tears pc upTo) (cutAt e pc upTo) := by
    intro t ht
    exact (hpre.midway_of_run hcurrent' hrun (later_of_concat ht)).killed
      (h.allowed hcurrent hrun ht) hstage huncut
  refine ⟨_, ?_, restartsWith_of_left ?_ hleft⟩
  · unfold Either
    rw [PlainMap.after_concat]
    split_ifs
    · exact Or.inr rfl
    · exact Or.inl rfl
  · -- the names used are those of the run, and the one the operation may make
    intro ms hms ms' hms'
    rcases List.mem_append.mp hms' with hms' | hms'
    · exact later_of_names (later_of_concat hms) ms' hms'
    · unfold nameReadings at hms'
      split_ifs at hms'
      · rw [List.mem_singleton.mp hms']
        exact hms _ (List.mem_flatMap.mpr ⟨⟨op, env⟩, by simp, now_mem_readings _⟩)
      · cases hms'

/-! ## Threads -/

section Threads

variable {τ : Type*} [DecidableEq τ]

/-- The thread that owns the mutex, if any does. -/
def owning (s : Lock.State τ LSMEngine Request Env Statement Reply) :
    Lock.Thread Request Env Statement Reply :=
  match s.owner with
  | some t => s.threads t
  | none => .idle

/-- The operation of a thread in the mutex. -/
def pending : Lock.Thread Request Env Statement Reply → List Event
  | .inside ⟨.op op, env, _, _⟩ _ => [⟨op, env⟩]
  | .leaving ⟨.op op, env, _, _⟩ _ => [⟨op, env⟩]
  | _ => []

/-- What a kill leaves on disk. -/
def killedDisk (e : LSMEngine) (upTo : Option Nat) :
    Lock.Thread Request Env Statement Reply → DataDir
  | .inside _ pc => cutAt e pc upTo
  | _ => e.disk

variable {s : Lock.State τ LSMEngine Request Env Statement Reply}
  {acts : List (Lock.Action τ Request Env)} {call : Lock.Call Request Env}

/-- The reading of statistics is one statement. -/
theorem reaches_readStats
    (h : sections.Reaches (before, sections.enter .getStats env) (e, pc)) :
    e = before ∧ pc = .readStats := by
  rcases Relation.ReflTransGen.cases_head h with heq | ⟨b, hnext, -⟩
  · have hpair := Prod.mk.inj heq
    exact ⟨hpair.1.symm, hpair.2.symm⟩
  · cases hnext

/-- Killed at any point of any run of any threads, between two statements or
within what one of them writes, a regular engine whose compactions merge
current values loses nothing that has returned: the next start answers as the
plain map does after the operations that returned, or after those and the one
in the mutex. Only a kill in the middle of an unlogged value is left out. -/
theorem durable
    (hrun : Machine.run (Lock.step sections)
      (Lock.State.init (LSMEngine.start dataDir cacheSize threshold)) acts = some s)
    (hregular : Regular dataDir cacheSize threshold (history s.log ++ pending (owning s)))
    (hcurrent : Machine.Along LSMEngine.step CompactsCurrent
      (LSMEngine.start dataDir cacheSize threshold) (history s.log ++ pending (owning s)))
    (upTo : Option Nat)
    (huncut : ∀ call pc, owning s = .inside call pc → Uncut s.shared pc upTo) :
    ∃ P, Either (history s.log) (pending (owning s)) P ∧
      RestartsWith (history s.log ++ pending (owning s)) dataDir
        (killedDisk s.shared upTo (owning s)) P := by
  rcases serialized hrun with ⟨-, before, hbefore, hfree, hheld, -⟩
  -- without an operation in the mutex the disk is that of the history
  have hnone : pending (owning s) = [] → killedDisk s.shared upTo (owning s) = before.disk →
      ∃ P, Either (history s.log) (pending (owning s)) P ∧
        RestartsWith (history s.log ++ pending (owning s)) dataDir
          (killedDisk s.shared upTo (owning s)) P := by
    intro hpending hdisk
    rw [hpending, List.append_nil] at hregular hcurrent ⊢
    rw [hdisk]
    exact ⟨_, Or.inl rfl, hregular.restartsWith hcurrent hbefore⟩
  cases howner : s.owner with
  | none =>
      have howning : owning s = .idle := by
        unfold owning
        rw [howner]
      rw [howning] at hnone ⊢
      apply hnone rfl
      exact congrArg LSMEngine.disk (hfree howner)
  | some t =>
      have howning : owning s = s.threads t := by
        unfold owning
        rw [howner]
      have hmidway := hheld t howner
      rw [← howning] at hmidway
      cases hthread : owning s with
      | idle =>
          rw [hthread] at hmidway
          exact hmidway.elim
      | waiting op invoked =>
          rw [hthread] at hmidway
          exact hmidway.elim
      | inside call pc =>
          rw [hthread] at hmidway hregular hcurrent hnone
          rcases call with ⟨request, env, invoked, acquired⟩
          cases request with
          | getStats =>
              rcases reaches_readStats hmidway with ⟨hsame, rfl⟩
              refine hnone rfl ?_
              show cutAt s.shared .readStats upTo = before.disk
              rw [hsame]
              cases upTo <;> rfl
          | op op =>
              exact hregular.killed hcurrent hbefore (stage_reaches hmidway) (huncut _ _ hthread)
      | leaving call result =>
          rw [hthread] at hmidway hregular hcurrent hnone
          rcases call with ⟨request, env, invoked, acquired⟩
          have hperform := (Statement.completes_iff _ _).mp hmidway
          cases request with
          | getStats => exact hnone rfl (congrArg LSMEngine.disk (getStats_of_perform hperform))
          | op op =>
              have hrun' := Machine.run_concat.mpr ⟨before, hbefore, step_of_perform hperform⟩
              exact ⟨_, Or.inr rfl, hregular.restartsWith hcurrent hrun'⟩

/-- Thread 0 of `twoThreads` is killed three bytes into its record. -/
theorem durable_twoThreads :
    ∃ s, Machine.run (Lock.step sections) (Lock.State.init (LSMEngine.start [] 1 100))
        (twoThreads.take 2) = some s ∧
      ∃ P, Either (history s.log) (pending (owning s)) P ∧
        RestartsWith (history s.log ++ pending (owning s)) []
          (killedDisk s.shared (some 3) (owning s)) P := by
  have hfacts : (Machine.run (Lock.step sections) (Lock.State.init (LSMEngine.start [] 1 100))
      (twoThreads.take 2)).map (fun s => (history s.log, pending (owning s),
        match owning s with
        | .inside _ pc => decide (pc = .setLog (ascii "k") (ascii "v") (Env.calm 1))
        | _ => true)) =
      some ([], [⟨.set (ascii "k") (ascii "v"), Env.calm 1⟩], true) := by decide +kernel
  rcases Option.map_eq_some_iff.mp hfacts with ⟨s, hrun, htriple⟩
  rcases Prod.mk.inj htriple with ⟨hhistory, hpair⟩
  rcases Prod.mk.inj hpair with ⟨hpending, hpc⟩
  refine ⟨s, hrun, durable hrun ?_ ?_ (some 3) ?_⟩
  · rw [hhistory, hpending]
    exact ⟨by decide, by decide, by decide, by decide +kernel, by decide +kernel⟩
  · rw [hhistory, hpending]
    refine Machine.along_of_forall (G := fun ev => ev.op ≠ .compact) (by decide) ?_
    intro e ev hne hop
    exact absurd hop hne
  · intro call pc hinside
    rw [hinside] at hpc
    have hset : pc = .setLog (ascii "k") (ascii "v") (Env.calm 1) := of_decide_eq_true hpc
    rw [hset]
    trivial

end Threads

end VaultDB
