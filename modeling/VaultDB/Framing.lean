import VaultDB.Alignment
import VaultDB.Parser

/-! # Responses in one line

A client tells responses apart by their newlines, so each of them must have
one, at its end. Two commands echo what they did not make: `GET` a stored
value, which is in one line as long as the engine is `Aligned`, and an unknown
command its name, a word of the line.

What a command does to the engine is a run of the engine's own steps
(`events`), each of which writes values made of words of the line, or of
numbers (`calm_events`). So a command keeps the engine aligned under the
condition that these steps are `Unharmed` (`execute_aligned`).
-/

namespace VaultDB

open Text Codec FileStream

/-- Exactly one newline, and it is the last byte. -/
def Framed (response : Bytes) : Prop := response.count 10 = 1 ∧ response.getLast? = some 10

instance (response : Bytes) : Decidable (Framed response) := inferInstanceAs (Decidable (_ ∧ _))

theorem framed_iff {response : Bytes} :
    Framed response ↔ ∃ body, OneLine body ∧ response = body ++ [10] := by
  unfold Framed OneLine
  constructor
  · rintro ⟨hcount, hlast⟩
    rcases List.getLast?_eq_some_iff.mp hlast with ⟨body, rfl⟩
    refine ⟨body, ?_, rfl⟩
    rw [List.count_append, List.count_singleton_self] at hcount
    rw [← List.count_eq_zero]
    omega
  · rintro ⟨body, hbody, rfl⟩
    rw [List.count_append, List.count_eq_zero.mpr hbody]
    exact ⟨rfl, List.getLast?_concat⟩

theorem oneLine_append {s t : Bytes} : OneLine (s ++ t) ↔ OneLine s ∧ OneLine t := by
  unfold OneLine
  rw [List.mem_append, not_or]

/-- What stands in front of a framed response is part of its line. -/
theorem Framed.append {s t : Bytes} (hs : OneLine s) (ht : Framed t) : Framed (s ++ t) := by
  rcases framed_iff.mp ht with ⟨body, hbody, rfl⟩
  refine framed_iff.mpr ⟨s ++ body, oneLine_append.mpr ⟨hs, hbody⟩, ?_⟩
  rw [List.append_assoc]

theorem oneLine_decimal (n : Nat) : OneLine (decimal n) := notMem_decimal (by decide)

theorem oneLine_decimalInt (n : Int) : OneLine (decimalInt n) :=
  notMem_decimalInt (by decide) (by decide)

namespace Parser

/-! ## Words -/

theorem oneLine_word {s w : Bytes} (h : w ∈ words s) : OneLine w :=
  fun hmem => not_isSpace_of_mem_words h 10 hmem (by decide)

theorem oneLine_args {line w : Bytes} (h : w ∈ (parse line).args) : OneLine w := by
  unfold parse at h
  cases hwords : words line with
  | nil =>
      rw [hwords] at h
      cases h
  | cons token args =>
      rw [hwords] at h
      apply oneLine_word (s := line)
      rw [hwords]
      exact List.mem_cons_of_mem _ h

theorem oneLine_join {args : List Bytes} (h : ∀ w ∈ args, OneLine w) : OneLine (join args) := by
  have hblank : OneLine (ascii " ") := by decide
  unfold join
  induction args with
  | nil => decide
  | cons word args ih =>
      have hword := h word List.mem_cons_self
      have hargs := ih fun w hw => h w (List.mem_cons_of_mem _ hw)
      cases args with
      | nil =>
          rw [List.intercalate_singleton]
          exact hword
      | cons word' args =>
          rw [List.intercalate_cons_cons]
          exact oneLine_append.mpr ⟨oneLine_append.mpr ⟨hword, hblank⟩, hargs⟩

/-- No letter becomes a newline. -/
theorem toupper_ne {c : UInt8} (h : c ≠ 10) : toupper c ≠ 10 := by
  unfold toupper
  split_ifs with hlower
  · intro heq
    have hnat := congrArg UInt8.toNat heq
    rcases hlower with ⟨hlow, hhigh⟩
    rw [UInt8.le_iff_toNat_le] at hlow hhigh
    rw [UInt8.toNat_sub_of_le _ _ (UInt8.le_iff_toNat_le.mpr (by simp at hlow ⊢; omega))] at hnat
    simp at hlow hhigh hnat
    omega
  · exact h

theorem oneLine_name (line : Bytes) : OneLine (parse line).name := by
  unfold parse
  cases hwords : words line with
  | nil => decide
  | cons token args =>
      have htoken : OneLine token := by
        apply oneLine_word (s := line)
        rw [hwords]
        exact List.mem_cons_self
      intro hmem
      rcases List.mem_map.mp hmem with ⟨c, hc, heq⟩
      refine toupper_ne ?_ heq
      rintro rfl
      exact htoken hc

/-! ## A command as steps of the engine -/

/-- A call of the engine, behind the compactions that take the mutex before it. -/
def callEvents (env : ExecEnv) (i : Nat) (op : Op) : List Event :=
  (env.merges i).map (Event.mk .compact) ++ [⟨op, env.calls i⟩]

def setEvents (args : List Bytes) (env : ExecEnv) : List Event :=
  match args with
  | key :: value :: values => callEvents env 0 (.set key (join (value :: values)))
  | _ => []

def getEvents (args : List Bytes) (env : ExecEnv) : List Event :=
  match args with
  | [] => []
  | key :: _ => callEvents env 0 (.get key)

def delEvents (args : List Bytes) (env : ExecEnv) : List Event :=
  match args with
  | [] => []
  | key :: _ => callEvents env 0 (.del key)

def ttlEvents (args : List Bytes) (env : ExecEnv) : List Event :=
  match args with
  | key :: seconds :: value :: values =>
    match stoi seconds with
    | none => []
    | some n =>
      let expiryMs := (expiryNs env.nowNs n).tdiv (10 ^ 6)
      callEvents env 0 (.set key (expiryValue expiryMs (join (value :: values))))
  | _ => []

/-- The events of the loop of `BENCH` from `i` on. -/
def benchLoopEvents (env : ExecEnv) : Nat → Nat → List Event
  | 0, _ => []
  | left + 1, i =>
    callEvents env i (.set (ascii "bench_key_" ++ decimal i) (ascii "bench_value_" ++ decimal i)) ++
      benchLoopEvents env left (i + 1)

def benchEvents (args : List Bytes) (env : ExecEnv) : List Event :=
  match benchCount args with
  | none => []
  | some n => benchLoopEvents env n.toNat 0

def statsEvents (env : ExecEnv) : List Event := (env.merges 0).map (Event.mk .compact)

/-- What happens to the engine while a command is executed. -/
def events (cmd : Command) (env : ExecEnv) : List Event :=
  if cmd.name = ascii "PING" then []
  else if cmd.name = ascii "SET" then setEvents cmd.args env
  else if cmd.name = ascii "GET" then getEvents cmd.args env
  else if cmd.name = ascii "DEL" then delEvents cmd.args env
  else if cmd.name = ascii "TTL" then ttlEvents cmd.args env
  else if cmd.name = ascii "BENCH" then benchEvents cmd.args env
  else if cmd.name = ascii "STATS" then statsEvents env
  else []

theorem run_background (e : LSMEngine) (merges : List Env) :
    Machine.run LSMEngine.step e (merges.map (Event.mk .compact)) = some (e.background merges) := by
  induction merges generalizing e with
  | nil => rfl
  | cons env merges ih => exact ih (e.compact env.now env.dev)

theorem run_callEvents (e : LSMEngine) (env : ExecEnv) (i : Nat) (op : Op) :
    Machine.run LSMEngine.step e (callEvents env i op) =
      (e.background (env.merges i)).step ⟨op, env.calls i⟩ := by
  cases hstep : (e.background (env.merges i)).step ⟨op, env.calls i⟩ with
  | none =>
      rw [Option.eq_none_iff_forall_ne_some]
      intro e' hrun
      rcases Machine.run_concat.mp hrun with ⟨e₁, hmerges, hcall⟩
      rw [run_background] at hmerges
      cases hmerges
      rw [hstep] at hcall
      cases hcall
  | some e' => exact Machine.run_concat.mpr ⟨_, run_background e _, hstep⟩

theorem run_benchLoopEvents {e e' : LSMEngine} {env : ExecEnv} {left i : Nat}
    (h : benchLoop env left i e = some e') :
    Machine.run LSMEngine.step e (benchLoopEvents env left i) = some e' := by
  induction left generalizing i e with
  | zero => exact h
  | succ left ih =>
      unfold benchLoop at h
      simp only [bind, Option.bind_eq_some_iff] at h
      rcases h with ⟨e₁, hset, hloop⟩
      exact Machine.run_append.mpr ⟨e₁, (run_callEvents e env i _).trans hset, ih hloop⟩

/-- A response that needs the call to come to an end. -/
theorem of_respond {response r : Bytes} {call : Option LSMEngine} {e' : LSMEngine}
    (h : respond response call = .returned r e') : r = response ∧ call = some e' := by
  cases call with
  | none => cases h
  | some e =>
      cases h
      exact ⟨rfl, rfl⟩

/-! ## What each command does and answers -/

section Commands

variable {e e' : LSMEngine} {args : List Bytes} {env : ExecEnv} {r : Bytes}

theorem executeSet_run (h : executeSet args e env = .returned r e') :
    Machine.run LSMEngine.step e (setEvents args env) = some e' ∧ Framed r := by
  unfold executeSet at h
  unfold setEvents
  split at h
  · rcases of_respond h with ⟨rfl, hset⟩
    exact ⟨(run_callEvents e env 0 _).trans hset, by decide⟩
  · cases h
    exact ⟨by simp, by decide⟩

theorem executeDel_run (h : executeDel args e env = .returned r e') :
    Machine.run LSMEngine.step e (delEvents args env) = some e' ∧ Framed r := by
  unfold executeDel at h
  unfold delEvents
  split at h
  · cases h
    exact ⟨by simp, by decide⟩
  · rcases of_respond h with ⟨rfl, hdel⟩
    exact ⟨(run_callEvents e env 0 _).trans hdel, by decide⟩

theorem ttlEvents_of_stoi {key seconds value : Bytes} {values : List Bytes} {n : Int}
    (hstoi : stoi seconds = some n) :
    ttlEvents (key :: seconds :: value :: values) env = callEvents env 0
      (.set key (expiryValue ((expiryNs env.nowNs n).tdiv (10 ^ 6)) (join (value :: values)))) := by
  simp only [ttlEvents, hstoi]

theorem executeTtl_run (h : executeTtl args e env = .returned r e') :
    Machine.run LSMEngine.step e (ttlEvents args env) = some e' ∧ Framed r := by
  unfold executeTtl at h
  split at h
  · rename_i key seconds value values
    cases hstoi : stoi seconds with
    | none =>
        rw [hstoi] at h
        cases h
    | some n =>
        simp only [hstoi] at h
        split_ifs at h
        rcases of_respond h with ⟨rfl, hset⟩
        rw [ttlEvents_of_stoi hstoi]
        exact ⟨(run_callEvents e env 0 _).trans hset, by decide⟩
  · cases h
    exact ⟨by simp [ttlEvents], by decide⟩

theorem executeBench_run (h : executeBench args e env = .returned r e') :
    Machine.run LSMEngine.step e (benchEvents args env) = some e' ∧ Framed r := by
  unfold executeBench at h
  unfold benchEvents
  cases hcount : benchCount args with
  | none =>
      rw [hcount] at h
      cases h
      exact ⟨by simp, by decide⟩
  | some n =>
      simp only [hcount] at h
      rcases of_respond h with ⟨rfl, hloop⟩
      refine ⟨run_benchLoopEvents hloop, Framed.append ?_ (by decide)⟩
      simp only [oneLine_append, oneLine_decimalInt, and_true]
      decide

theorem executeStats_run (h : executeStats e env = .returned r e') :
    Machine.run LSMEngine.step e (statsEvents env) = some e' ∧ Framed r := by
  unfold executeStats at h
  simp only [Outcome.returned.injEq] at h
  rcases h with ⟨rfl, rfl⟩
  refine ⟨run_background e _, Framed.append ?_ (by decide)⟩
  simp only [oneLine_append, oneLine_decimal, oneLine_decimalInt, and_true]
  decide

theorem executeGet_run (h : executeGet args e env = .returned r e') :
    Machine.run LSMEngine.step e (getEvents args env) = some e' := by
  unfold executeGet at h
  unfold getEvents
  split at h
  · cases h
    rfl
  · rename_i key args
    simp only [run_callEvents, LSMEngine.step]
    split at h
    · cases h
    · rename_i value e₁ hget
      rw [hget]
      cases h
      rfl
    · rename_i e₁ hget
      rw [hget]
      cases h
      rfl

/-- A stored value is echoed in one line when there are only such values. -/
theorem executeGet_framed (h : executeGet args e env = .returned r e')
    (hmerged : args ≠ [] → LSMEngine.Aligned (e.background (env.merges 0))) : Framed r := by
  unfold executeGet at h
  split at h
  · cases h
    decide
  · rename_i key args
    have haligned := hmerged (List.cons_ne_nil key args)
    split at h
    · cases h
    · rename_i value e₁ hget
      cases h
      have hvalue := (haligned.get hget).2 value rfl
      exact Framed.append (oneLine_append.mpr ⟨by decide, hvalue⟩) (by decide)
    · cases h
      decide

end Commands

end Parser

/-- No device fails. -/
def Env.Quiet (env : Env) : Prop := env.logRoom = none ∧ env.dev = Device.sound

/-- No device fails in a call, or in a compaction before it. -/
def ExecEnv.Quiet (env : ExecEnv) : Prop :=
  ∀ i, (∀ merge ∈ env.merges i, merge.Quiet) ∧ (env.calls i).Quiet

theorem Env.quiet_calm (ms : Nat) : (Env.calm ms).Quiet := ⟨rfl, rfl⟩

theorem ExecEnv.quiet_calm (ms : Nat) : (ExecEnv.calm ms).Quiet :=
  fun _ => ⟨by simp [calm], Env.quiet_calm ms⟩

namespace Parser

open LSMEngine

/-- No device fails in the events, and no value they write has a newline. -/
def Calm (evs : List Event) : Prop := ∀ ev ∈ evs, NoIoError ev ∧ OneLineOp ev.op

section Calm

variable {args : List Bytes} {env : ExecEnv} (henv : env.Quiet)

theorem calm_nil : Calm [] := by
  intro ev hev
  cases hev

include henv

theorem calm_background (i : Nat) : Calm ((env.merges i).map (Event.mk .compact)) := by
  intro ev hev
  rcases List.mem_map.mp hev with ⟨merge, hmerge, rfl⟩
  exact ⟨(henv i).1 merge hmerge, trivial⟩

theorem calm_callEvents (i : Nat) {op : Op} (hop : OneLineOp op) : Calm (callEvents env i op) := by
  intro ev hev
  rcases List.mem_append.mp hev with hev | hev
  · exact calm_background henv i ev hev
  · rw [List.mem_singleton.mp hev]
    exact ⟨(henv i).2, hop⟩

theorem calm_setEvents (hargs : ∀ w ∈ args, OneLine w) : Calm (setEvents args env) := by
  unfold setEvents
  split
  · rename_i key value values
    have hvalue := oneLine_join fun w hw => hargs w (List.mem_cons_of_mem key hw)
    exact calm_callEvents henv 0 hvalue
  · exact calm_nil

theorem calm_getEvents (args : List Bytes) : Calm (getEvents args env) := by
  unfold getEvents
  split
  · exact calm_nil
  · exact calm_callEvents henv 0 trivial

theorem calm_delEvents (args : List Bytes) : Calm (delEvents args env) := by
  unfold delEvents
  split
  · exact calm_nil
  · exact calm_callEvents henv 0 trivial

/-- The deadline in front of the value is a number. -/
theorem calm_ttlEvents (hargs : ∀ w ∈ args, OneLine w) : Calm (ttlEvents args env) := by
  unfold ttlEvents
  split
  · rename_i key seconds value values
    have hvalue := oneLine_join fun w hw =>
      hargs w (List.mem_cons_of_mem key (List.mem_cons_of_mem seconds hw))
    split
    · exact calm_nil
    · apply calm_callEvents henv 0
      show OneLine (expiryValue _ _)
      unfold expiryValue
      simp only [oneLine_append, oneLine_decimalInt, hvalue, and_true]
      decide
  · exact calm_nil

theorem calm_benchLoopEvents (left i : Nat) : Calm (benchLoopEvents env left i) := by
  induction left generalizing i with
  | zero => exact calm_nil
  | succ left ih =>
      intro ev hev
      rcases List.mem_append.mp hev with hev | hev
      · have hop : OneLineOp (.set (ascii "bench_key_" ++ decimal i)
            (ascii "bench_value_" ++ decimal i)) :=
          oneLine_append.mpr ⟨by decide, oneLine_decimal i⟩
        exact calm_callEvents henv i hop ev hev
      · exact ih (i + 1) ev hev

theorem calm_benchEvents (args : List Bytes) : Calm (benchEvents args env) := by
  unfold benchEvents
  split
  · exact calm_nil
  · exact calm_benchLoopEvents henv _ 0

/-- What the events of a command line write has no newline. -/
theorem calm_events (line : Bytes) : Calm (events (parse line) env) := by
  have hargs : ∀ w ∈ (parse line).args, OneLine w := fun w => oneLine_args
  unfold events
  split_ifs
  · exact calm_nil
  · exact calm_setEvents henv hargs
  · exact calm_getEvents henv _
  · exact calm_delEvents henv _
  · exact calm_ttlEvents henv hargs
  · exact calm_benchEvents henv _
  · exact calm_background henv 0
  · exact calm_nil

end Calm

theorem careful_events (line : Bytes) {e : LSMEngine} {env : ExecEnv} (henv : env.Quiet)
    (hunharmed : Machine.Along LSMEngine.step Unharmed e (events (parse line) env)) :
    Machine.Along LSMEngine.step Careful e (events (parse line) env) := by
  have hcalm : Machine.Along LSMEngine.step (fun _ ev => NoIoError ev ∧ OneLineOp ev.op) e
      (events (parse line) env) :=
    Machine.along_of_forall (calm_events henv line) fun _ _ h => h
  exact (hcalm.and hunharmed).mono fun _ _ h => ⟨h.1.1, h.1.2, h.2⟩

/-- A command line takes an aligned engine to an aligned one, by steps of the
engine, and is answered in one line. -/
theorem execute_aligned {line : Bytes} {e e' : LSMEngine} {env : ExecEnv} {r : Bytes}
    (he : Aligned e) (henv : env.Quiet)
    (hunharmed : Machine.Along LSMEngine.step Unharmed e (events (parse line) env))
    (h : execute (parse line) e env = .returned r e') :
    Machine.run LSMEngine.step e (events (parse line) env) = some e' ∧ Aligned e' ∧ Framed r := by
  have hcareful := careful_events line henv hunharmed
  -- only what `GET` finds depends on the state
  have hspec : Machine.run LSMEngine.step e (events (parse line) env) = some e' ∧ Framed r := by
    unfold execute at h
    unfold events at hcareful ⊢
    split_ifs at h hcareful ⊢ with hping hset hget hdel httl hbench hstats
    · cases h
      exact ⟨rfl, by decide⟩
    · exact executeSet_run h
    · refine ⟨executeGet_run h, executeGet_framed h ?_⟩
      intro hne
      unfold getEvents at hcareful
      split at hcareful
      · rename_i hnil
        exact absurd hnil hne
      · exact he.run (Machine.along_append.mp hcareful).1 (run_background e (env.merges 0))
    · exact executeDel_run h
    · exact executeTtl_run h
    · exact executeBench_run h
    · exact executeStats_run h
    · cases h
      exact ⟨rfl, Framed.append (oneLine_append.mpr ⟨by decide, oneLine_name line⟩) (by decide)⟩
  exact ⟨hspec.1, he.run hcareful hspec.1, hspec.2⟩

end Parser

end VaultDB
