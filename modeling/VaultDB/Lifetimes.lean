import VaultDB.Kills
import VaultDB.Lives

/-! # Lifetimes

Any number of processes on one directory, one after the other. Each of them
ends between two operations or is killed in the middle of one, and the next one
starts on what is left. Over all of them the engine answers as one plain map,
to which every operation that returned belongs, and an interrupted write exactly
when its record was whole (`lives_durable`). Left out are kills that cut the
value of an unlogged key, torn records that the next start does not clear away,
and compactions that merge values no longer current.
-/

namespace VaultDB

open Text Codec FileStream SSTable Expiring LSMEngine

/-! ## Processes and kills -/

/-- An operation; the end of a process between two operations and the start of
the next one; or its end in the middle of an operation, when that many
statements are behind it and `upTo` bytes of what the next one writes have
reached the disk, and the start of the next process. -/
inductive Incident where
  | call (ev : Event)
  | restart (cacheSize : Nat) (threshold : UInt64) (env : Env)
  | killed (ev : Event) (statements : Nat) (upTo : Option Nat) (cacheSize : Nat)
      (threshold : UInt64) (env : Env)
deriving Repr, DecidableEq

/-- Where a section stands when that many statements are behind it. -/
def afterStatements : Nat → LSMEngine → Statement → Option (LSMEngine × Statement)
  | 0, e, pc => some (e, pc)
  | n + 1, e, pc =>
    match pc.run e with
    | some (e', .inl pc') => afterStatements n e' pc'
    | _ => none

namespace LSMEngine

/-- The operation, that many statements after it has entered the mutex. -/
def interrupted (e : LSMEngine) (ev : Event) (statements : Nat) :
    Option (LSMEngine × Statement) :=
  afterStatements statements e (sections.enter (.op ev.op) ev.env)

def incidentStep (e : LSMEngine) : Incident → Option LSMEngine
  | .call ev => e.step ev
  | .restart cacheSize threshold env =>
    some (LSMEngine.new e.disk e.dataDir cacheSize threshold env.now env.dev)
  | .killed ev statements upTo cacheSize threshold env => do
    let (cut, pc) ← e.interrupted ev statements
    return LSMEngine.new (cutAt cut pc upTo) e.dataDir cacheSize threshold env.now env.dev

/-- The operations that an incident adds to what is stored: one that returned,
or one whose record was whole when it was interrupted. -/
def survivors (e : LSMEngine) : Incident → List Op
  | .call ev => [ev.op]
  | .restart _ _ _ => []
  | .killed ev statements upTo _ _ _ =>
    match e.interrupted ev statements with
    | some (_, pc) => if recorded pc upTo then [ev.op] else []
    | none => []

/-- The readings that files are named by. A start may name one. -/
def incidentNames (e : LSMEngine) : Incident → List Nat
  | .call ev => nameReadings e ev
  | .restart _ _ env => [env.now]
  | .killed ev _ _ _ _ env => nameReadings e ev ++ [env.now]

end LSMEngine

/-- The clock readings of an incident, in order. -/
def incidentReadings : Incident → List Nat
  | .call ev => readings ev
  | .restart _ _ env => [env.now]
  | .killed ev _ _ _ _ env => readings ev ++ [env.now]

/-- What the operations leave. -/
def PlainMap.ofOps (ops : List Op) : PlainMap := ops.foldl PlainMap.apply PlainMap.empty

@[simp] theorem PlainMap.ofOps_nil : PlainMap.ofOps [] = PlainMap.empty := rfl

theorem PlainMap.ofOps_append (ops ops' : List Op) :
    PlainMap.ofOps (ops ++ ops') = ops'.foldl PlainMap.apply (PlainMap.ofOps ops) :=
  List.foldl_append

/-! ## Conditions -/

/-- No device fails, lengths fit and caches have room. -/
def Undisturbed : Incident → Prop
  | .call ev => NoIoError ev ∧ OpFits ev.op
  | .restart cacheSize _ env => 0 < cacheSize ∧ env.dev = Device.sound
  | .killed ev _ _ cacheSize _ env =>
    (NoIoError ev ∧ OpFits ev.op) ∧ 0 < cacheSize ∧ env.dev = Device.sound

instance : DecidablePred Undisturbed
  | .call _ => inferInstanceAs (Decidable (_ ∧ _))
  | .restart _ _ _ => inferInstanceAs (Decidable (_ ∧ _))
  | .killed _ _ _ _ _ _ => inferInstanceAs (Decidable (_ ∧ _))

/-- A compaction, interrupted or not, merges current values. -/
def MergesCurrent (e : LSMEngine) : Incident → Prop
  | .call ev => CompactsCurrent e ev
  | .restart _ _ _ => True
  | .killed ev _ _ _ _ _ => CompactsCurrent e ev

/-- The kill cuts no value of an unlogged key, and the next start leaves no torn
record in the log. -/
def Spared (e : LSMEngine) : Incident → Prop
  | .call _ => True
  | .restart _ _ _ => True
  | .killed ev statements upTo cacheSize threshold env =>
    ∀ stop ∈ e.interrupted ev statements, Uncut stop.1 stop.2 upTo ∧
      (tears stop.2 upTo = true → (LSMEngine.new (cutAt stop.1 stop.2 upTo) e.dataDir cacheSize
        threshold env.now env.dev).disk.walLog = [])

instance (e : LSMEngine) : DecidablePred (Spared e)
  | .call _ => isTrue trivial
  | .restart _ _ _ => isTrue trivial
  | .killed _ _ _ _ _ _ => inferInstanceAs (Decidable (∀ _ ∈ _, _))

/-- Nothing is disturbed, and every file and every start has a later reading
than the names before it. -/
structure RegularLives (dataDir : Bytes) (cacheSize : Nat) (threshold : UInt64)
    (evs : List Incident) : Prop where
  undisturbed : ∀ ev ∈ evs, Undisturbed ev
  names : GrowingNames
    (Machine.trace incidentStep incidentNames (start dataDir cacheSize threshold) evs)

/-! ## The next start -/

section Start

variable {dataDir : Bytes} {used : List Nat} {P : PlainMap} {t : Nat} {torn : Bool}
  {disk : DataDir} {cacheSize : Nat} {threshold : UInt64} {now : Nat}

/-- A start loads and replays what is there, or flushes it too. -/
theorem new_cases (disk : DataDir) (dataDir : Bytes) (cacheSize : Nat) (threshold : UInt64)
    (now : Nat) (dev : Device) :
    LSMEngine.new disk dataDir cacheSize threshold now dev =
        replayedEngine disk dataDir cacheSize threshold ∨
      ((replayedEngine disk dataDir cacheSize threshold).memtable.data ≠ [] ∧
        LSMEngine.new disk dataDir cacheSize threshold now dev =
          (replayedEngine disk dataDir cacheSize threshold).flushMemtable now dev) := by
  rcases new_eq_flushIfFull disk dataDir cacheSize threshold now dev with heq | heq
  · exact Or.inl heq
  · rcases flushIfFull_cases (replayedEngine disk dataDir cacheSize threshold) now dev with
      hsame | ⟨-, hne, hflush⟩
    · exact Or.inl (heq.trans hsame)
    · exact Or.inr ⟨hne, heq.trans hflush⟩

/-- What a start leaves on disk is restored as what it found. -/
theorem restored_new (hload : Loadable disk.tables) (hnames : NamedFiles dataDir used disk.tables)
    (hcache : 0 < cacheSize) (hgrow : GrowingNames (used ++ [now])) (key : Bytes) :
    restored (LSMEngine.new disk dataDir cacheSize threshold now Device.sound).disk key =
      restored disk key := by
  have hordered := (@layered_replayedEngine disk hload dataDir cacheSize hcache threshold).ordered
  rcases new_cases disk dataDir cacheSize threshold now Device.sound with heq | ⟨hne, heq⟩
  · rw [heq]
    rfl
  · have hall := all_encodeEntries hordered.fits
    have hsorted : Assoc.Sorted (entryReader.all (encodeEntries
        (replayedEngine disk dataDir cacheSize threshold).memtable.data)) := by
      rw [hall]
      exact hordered.sorted
    have hpath : NamedAt dataDir now (sstablePath dataDir now) := Or.inl rfl
    have hput := restored_put [] hload hgrow hnames hpath hsorted key
    have hmem := get_replayedEngine disk dataDir cacheSize threshold key
    unfold MemTable.get at hmem
    have hempty : logged (WAL.recover []) key = none := rfl
    rw [heq, flushMemtable_eq hordered hne]
    refine hput.trans ?_
    -- the new table holds what the log did
    rw [hall, hempty, Option.none_or, hmem]
    rfl

theorem Left.named_new (h : Left dataDir used P t torn disk) :
    Named dataDir (used ++ [now])
      (LSMEngine.new disk dataDir cacheSize threshold now Device.sound) := by
  have hnamed : Named dataDir used (replayedEngine disk dataDir cacheSize threshold) := by
    refine ⟨rfl, ?_⟩
    intro table htable
    rcases List.mem_map.mp htable with ⟨path, hpath, rfl⟩
    rw [path_new]
    exact h.names path ((h.loadable.mem_tablePaths path).mp hpath)
  rcases new_eq_flushIfFull disk dataDir cacheSize threshold now Device.sound with heq | heq
  · rw [heq]
    refine ⟨hnamed.dir, fun table htable => ?_⟩
    rcases hnamed.named table htable with ⟨ms, hms, hname⟩
    exact ⟨ms, List.mem_append_left _ hms, hname⟩
  · rw [heq]
    exact hnamed.flushIfFull now Device.sound

/-- The log is whole again, as it was left or because it is empty. -/
theorem Left.sound_new (h : Left dataDir used P t torn disk)
    (hlayered : Layered (LSMEngine.new disk dataDir cacheSize threshold now Device.sound))
    (hcleared : torn = true →
      (LSMEngine.new disk dataDir cacheSize threshold now Device.sound).disk.walLog = []) :
    Sound (LSMEngine.new disk dataDir cacheSize threshold now Device.sound) := by
  rcases new_cases disk dataDir cacheSize threshold now Device.sound with heq | ⟨hne, heq⟩
  · rw [heq] at hlayered hcleared ⊢
    refine ⟨hlayered, rfl, ?_, ?_⟩
    · cases torn with
      | false => exact h.whole rfl
      | true =>
          have hempty : disk.walLog = [] := hcleared rfl
          show WAL.encodeAll (WAL.recover disk.walLog) = disk.walLog
          rw [hempty]
          rfl
    · intro key
      exact Or.inl (get_replayedEngine disk dataDir cacheSize threshold key)
  · rw [heq, flushMemtable_files hne] at hlayered ⊢
    exact ⟨hlayered, rfl, rfl, fun key => Or.inl rfl⟩

/-- A process that starts on what is left goes on from there. -/
theorem Left.start (h : Left dataDir used P t torn disk) (hcache : 0 < cacheSize)
    (hgrow : GrowingNames (used ++ [now]))
    (hcleared : torn = true →
      (LSMEngine.new disk dataDir cacheSize threshold now Device.sound).disk.walLog = []) :
    Midway dataDir (used ++ [now]) P t
      (LSMEngine.new disk dataDir cacheSize threshold now Device.sound) := by
  have hfresh := h.names.not_mem_of_later hgrow.lt_last (Or.inl rfl)
  have hlayered : Layered (LSMEngine.new disk dataDir cacheSize threshold now Device.sound) ∧
      ∀ key, (LSMEngine.new disk dataDir cacheSize threshold now Device.sound).lookup key =
        restored disk key := layered_new h.loadable hcache hfresh
  refine ⟨h.sound_new hlayered.1 hcleared, h.named_new, fun key => ?_, fun key => ?_⟩
  · rw [hlayered.2]
    exact h.faithful key
  · rw [restored_new h.loadable h.names hcache hgrow]
    exact h.faithful key

end Start

/-! ## Incidents -/

theorem stage_afterStatements {before e e' : LSMEngine} {request : Request} {env : Env}
    {pc pc' : Statement} {n : Nat} (h : Stage before request env e pc)
    (hat : afterStatements n e pc = some (e', pc')) : Stage before request env e' pc' := by
  induction n generalizing e pc with
  | zero =>
      cases hat
      exact h
  | succ n ih =>
      unfold afterStatements at hat
      split at hat
      · rename_i e₁ pc₁ hrun
        exact ih (h.next hrun) hat
      · cases hat

section Incidents

variable {dataDir : Bytes} {used : List Nat} {P : PlainMap} {t : Nat} {e e' : LSMEngine}
  {inc : Incident}

theorem allowed_of_incident {ev : Event} (hio : NoIoError ev) (hfits : OpFits ev.op)
    (hgrow : GrowingNames (used ++ nameReadings e ev)) (hnow : ev.env.now < t)
    (hcurrent : CompactsCurrent e ev) : Allowed used t e ev :=
  ⟨hio, hfits, fun _ _ => hgrow, hnow, fun hop hmany => hcurrent hop hmany t hnow⟩

/-- One incident, whatever it is. -/
theorem Midway.incident (h : Midway dataDir used P t e) (hundisturbed : Undisturbed inc)
    (hgrow : GrowingNames (used ++ incidentNames e inc))
    (hlater : ∀ r ∈ incidentReadings inc, r < t) (hcurrent : MergesCurrent e inc)
    (hspared : Spared e inc) (hstep : e.incidentStep inc = some e') :
    Midway dataDir (used ++ incidentNames e inc) ((survivors e inc).foldl PlainMap.apply P) t
      e' := by
  cases inc with
  | call ev =>
      have hnow := hlater _ (now_mem_readings ev)
      exact h.step (allowed_of_incident hundisturbed.1 hundisturbed.2 hgrow hnow hcurrent) hstep
  | restart cacheSize threshold env =>
      have heq : LSMEngine.new e.disk e.dataDir cacheSize threshold env.now env.dev = e' :=
        Option.some.inj hstep
      rcases hundisturbed with ⟨hcache, hdev⟩
      rw [h.named.dir, hdev] at heq
      rw [← heq]
      exact h.left.start hcache hgrow nofun
  | killed ev statements upTo cacheSize threshold env =>
      simp only [incidentStep, bind, Option.bind_eq_some_iff, pure, Option.some.injEq,
        Prod.exists] at hstep
      rcases hstep with ⟨cut, pc, hat, heq⟩
      rcases hundisturbed with ⟨⟨hio, hfits⟩, hcache, hdev⟩
      rcases hspared (cut, pc) hat with ⟨huncut, hcleared⟩
      have hnow := hlater _ (List.mem_append_left _ (now_mem_readings ev))
      unfold incidentNames at hgrow ⊢
      rw [← List.append_assoc] at hgrow ⊢
      have hnames : GrowingNames (used ++ nameReadings e ev) :=
        hgrow.sublist (List.sublist_append_left _ _)
      have hstage := stage_afterStatements (stage_enter e (.op ev.op) ev.env) hat
      have hleft := h.killed (allowed_of_incident hio hfits hnames hnow hcurrent) hstage huncut
      have hsurvivors : (survivors e (.killed ev statements upTo cacheSize threshold env)).foldl
          PlainMap.apply P = if recorded pc upTo then P.apply ev.op else P := by
        simp only [survivors, hat]
        split_ifs <;> rfl
      rw [h.named.dir, hdev] at heq hcleared
      rw [hsurvivors, ← heq]
      exact hleft.start hcache hgrow hcleared

end Incidents

/-! ## Runs -/

section Runs

variable {dataDir : Bytes} {cacheSize : Nat} {threshold : UInt64} {evs : List Incident}
  {e : LSMEngine}

theorem RegularLives.isPrefix {pre : List Incident}
    (h : RegularLives dataDir cacheSize threshold evs) (hpre : pre <+: evs) :
    RegularLives dataDir cacheSize threshold pre := by
  rcases hpre with ⟨post, rfl⟩
  exact ⟨fun ev hev => h.undisturbed ev (List.mem_append_left _ hev),
    h.names.sublist (Machine.isPrefix_trace _ pre post).sublist⟩

theorem midway_start (t : Nat) :
    Midway dataDir [] PlainMap.empty t (start dataDir cacheSize threshold) := by
  refine ⟨sound_start, ⟨rfl, ?_⟩, fun key => rfl, fun key => rfl⟩
  intro table htable
  cases htable

/-- Run lemma of `Midway.incident`. -/
theorem midway_lives (h : RegularLives dataDir cacheSize threshold evs)
    (hcurrent : Machine.Along incidentStep MergesCurrent (start dataDir cacheSize threshold) evs)
    (hspared : Machine.Along incidentStep Spared (start dataDir cacheSize threshold) evs)
    (hrun : Machine.run incidentStep (start dataDir cacheSize threshold) evs = some e) {t : Nat}
    (hlater : ∀ r ∈ evs.flatMap incidentReadings, r < t) :
    Midway dataDir
      (Machine.trace incidentStep incidentNames (start dataDir cacheSize threshold) evs)
      (PlainMap.ofOps
        (Machine.trace incidentStep survivors (start dataDir cacheSize threshold) evs)) t e := by
  induction evs using List.reverseRecOn generalizing e with
  | nil =>
      have heq : start dataDir cacheSize threshold = e := Option.some.inj hrun
      rw [← heq]
      exact midway_start t
  | append_singleton evs inc ih =>
      rcases Machine.run_concat.mp hrun with ⟨e₁, hrun₁, hstep⟩
      rcases Machine.along_concat.mp hcurrent with ⟨hcurrent₁, hlastCurrent⟩
      rcases Machine.along_concat.mp hspared with ⟨hspared₁, hlastSpared⟩
      have hnames := h.names
      rw [Machine.trace_concat hrun₁ hstep] at hnames
      rw [Machine.trace_concat hrun₁ hstep, Machine.trace_concat hrun₁ hstep,
        PlainMap.ofOps_append]
      rw [List.flatMap_append] at hlater
      have hbefore := ih (h.isPrefix (List.prefix_append evs [inc])) hcurrent₁ hspared₁ hrun₁
        fun r hr => hlater r (List.mem_append_left _ hr)
      refine hbefore.incident (h.undisturbed inc (by simp)) hnames ?_
        (hlastCurrent e₁ e hrun₁ hstep) (hlastSpared e₁ e hrun₁ hstep) hstep
      intro r hr
      exact hlater r (List.mem_append_right _ (by simpa using hr))

/-- Over any number of processes on one directory, ended between two operations
or killed at any statement of one and after any bytes of what it writes, every
key is answered as one plain map says: that of the operations that returned, and
of those interrupted writes whose record was whole. -/
theorem lives_durable (h : RegularLives dataDir cacheSize threshold evs)
    (hcurrent : Machine.Along incidentStep MergesCurrent (start dataDir cacheSize threshold) evs)
    (hspared : Machine.Along incidentStep Spared (start dataDir cacheSize threshold) evs)
    (hrun : Machine.run incidentStep (start dataDir cacheSize threshold) evs = some e) {t : Nat}
    (hlater : ∀ r ∈ evs.flatMap incidentReadings, r < t) (key : Bytes) :
    e.answer key t = some (visible t (PlainMap.ofOps
      (Machine.trace incidentStep survivors (start dataDir cacheSize threshold) evs) key)) := by
  have hmidway := midway_lives h hcurrent hspared hrun hlater
  rw [hmidway.sound.toLayered.answer, hmidway.reads]

end Runs

/-- The first kill tears a record, which the next start clears away with a
flush; the second one comes just behind the log. -/
def threeLives : List Incident :=
  [.call ⟨.set (ascii "k") (ascii "v"), Env.calm 1⟩,
    .killed ⟨.set (ascii "k") (ascii "w"), Env.calm 2⟩ 0 (some 3) 1 1 (Env.calm 3),
    .killed ⟨.set (ascii "k") (ascii "x"), Env.calm 4⟩ 1 none 1 100 (Env.calm 5)]

theorem lives_durable_threeLives :
    ∃ e, Machine.run incidentStep (start [] 1 100) threeLives = some e ∧
      e.answer (ascii "k") 6 = some (visible 6 (PlainMap.ofOps
        (Machine.trace incidentStep survivors (start [] 1 100) threeLives) (ascii "k"))) ∧
      e.answer (ascii "k") 6 = some (some (ascii "x")) := by
  have hfacts : (Machine.run incidentStep (start [] 1 100) threeLives).map
      (fun e => e.answer (ascii "k") 6) = some (some (some (ascii "x"))) := by decide +kernel
  rcases Option.map_eq_some_iff.mp hfacts with ⟨e, hrun, hanswer⟩
  have hcurrent : Machine.Along incidentStep MergesCurrent (start [] 1 100) threeLives := by
    have hnone : ∀ inc ∈ threeLives, ∀ e, MergesCurrent e inc := by
      intro inc hinc e
      rcases List.mem_cons.mp hinc with rfl | hinc
      · exact nofun
      rcases List.mem_cons.mp hinc with rfl | hinc
      · exact nofun
      rw [List.mem_singleton.mp hinc]
      exact nofun
    exact Machine.along_of_forall hnone fun e inc h => h e
  exact ⟨e, hrun, lives_durable ⟨by decide, by decide +kernel, by decide +kernel⟩ hcurrent
    (by decide +kernel) hrun (by decide) (ascii "k"), hanswer⟩

end VaultDB
