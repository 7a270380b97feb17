import VaultDB.Invariant

/-! # Runs of the engine

The events of a run, the conditions a run may be assumed to meet (no I/O
error, lengths that fit, readings that only grow), and the plain map that the
writes of the run make. Names made of strictly increasing readings are fresh
(`Named.fresh`), and every fresh step keeps the engine sound and its layers
equal to the plain map up to lapsed values (`Sound.step`, `Sound.step_lapsed`).
-/

namespace VaultDB

open Text Codec FileStream SSTable Expiring LSMEngine

/-! ## Conditions on events -/

/-- The clock readings an event may take, in order. -/
def readings (ev : Event) : List Nat :=
  match ev.op with
  | .set _ _ => [ev.env.stamp, ev.env.now]
  | .get _ => [ev.env.now]
  | .del _ => [ev.env.stamp, ev.env.now]
  | .compact => [ev.env.now]

theorem now_mem_readings (ev : Event) : ev.env.now ∈ readings ev := by
  unfold readings
  split <;> simp

/-- Log and table device take everything. -/
def NoIoError (ev : Event) : Prop := ev.env.logRoom = none ∧ ev.env.dev = Device.sound

/-- What is written has a length that four bytes hold. -/
def OpFits : Op → Prop
  | .set key value => Fits key ∧ Fits value
  | .get _ => True
  | .del key => Fits key
  | .compact => True

instance (ev : Event) : Decidable (NoIoError ev) := inferInstanceAs (Decidable (_ ∧ _))

instance : DecidablePred OpFits
  | .set key value => inferInstanceAs (Decidable (Fits key ∧ Fits value))
  | .get _ => inferInstanceAs (Decidable True)
  | .del key => inferInstanceAs (Decidable (Fits key))
  | .compact => inferInstanceAs (Decidable True)

/-- The step writes a table file. -/
def writesTable (e : LSMEngine) : Op → Bool
  | .set key value => (e.memtable.set key value).isFull
  | .get _ => false
  | .del key => (e.memtable.del key).isFull
  | .compact => 4 < e.sstables.length

/-- The path of the table file a step would write. -/
def outputPath (e : LSMEngine) (ev : Event) : Bytes :=
  match ev.op with
  | .compact => compactedPath e.dataDir ev.env.now
  | _ => sstablePath e.dataDir ev.env.now

/-- A step that writes a table file writes it to a path no live table has. -/
def Fresh (e : LSMEngine) (ev : Event) : Prop :=
  writesTable e ev.op = true → outputPath e ev ∉ e.sstables.map SSTable.path

instance (e : LSMEngine) (ev : Event) : Decidable (Fresh e ev) :=
  inferInstanceAs (Decidable (_ → _))

/-- The reading a step names a file by. -/
def nameReadings (e : LSMEngine) (ev : Event) : List Nat :=
  if writesTable e ev.op then [ev.env.now] else []

/-! ## The plain map -/

/-- What every key was last written to hold. -/
abbrev PlainMap := Bytes → Option Bytes

namespace PlainMap

def empty : PlainMap := fun _ => none

def apply (P : PlainMap) : Op → PlainMap
  | .set key value => Function.update P key (some value)
  | .get _ => P
  | .del key => Function.update P key (some TOMBSTONE)
  | .compact => P

/-- The map after the writes among the events. -/
def after (evs : List Event) : PlainMap := evs.foldl (fun P ev => P.apply ev.op) empty

@[simp] theorem after_nil : after [] = empty := rfl

@[simp] theorem after_concat (evs : List Event) (ev : Event) :
    after (evs ++ [ev]) = (after evs).apply ev.op := by
  unfold after
  rw [List.foldl_append]
  rfl

end PlainMap

/-! ## Steps -/

namespace LSMEngine

/-- A read as a step. -/
theorem step_get {e e' : LSMEngine} {ev : Event} {key : Bytes} (hop : ev.op = .get key)
    (hstep : e.step ev = some e') : ∃ r, e.get key ev.env.now = some (r, e') := by
  unfold LSMEngine.step at hstep
  rw [hop] at hstep
  rcases Option.map_eq_some_iff.mp hstep with ⟨⟨r, e''⟩, hget, heq⟩
  have heq' : e'' = e' := heq
  exact ⟨r, by rw [hget, heq']⟩

theorem step_compact {e e' : LSMEngine} {ev : Event} (hop : ev.op = .compact)
    (hstep : e.step ev = some e') : e.compact ev.env.now ev.env.dev = e' := by
  unfold LSMEngine.step at hstep
  rw [hop] at hstep
  exact Option.some.inj hstep

/-- The memtable at the point where an operation may flush it. -/
def memtableAt (e : LSMEngine) : Op → MemTable
  | .set key value => e.memtable.set key value
  | .get _ => e.memtable
  | .del key => e.memtable.del key
  | .compact => e.memtable

/-- What an orderly step of a sound engine does: a write logs a record, changes
the memtable and flushes it if full; a read has the effect of a read; and a
compaction compacts. -/
inductive StepCase (e : LSMEngine) (ev : Event) (e' : LSMEngine) : Prop where
  | write (entry : WALEntry) (value : Bytes) (cache : LRUCache Bytes Bytes)
      (hop : ev.op = .set entry.key value ∨ (ev.op = .del entry.key ∧ value = TOMBSTONE))
      (hentry : WAL.RecordFits entry) (hleaves : Leaves entry value)
      (hwritten : Sound (e.written entry value cache))
      (hsame : SameState ((e.written entry value cache).flushIfFull ev.env.now Device.sound) e')
  | read (key : Bytes) (hop : ev.op = .get key) (hlayered : Layered e')
      (heffect : ReadEffect e e' key ev.env.now)
  | compact (hop : ev.op = .compact) (heq : e' = e.compact ev.env.now Device.sound)

/-- The steps of a write in front of its check for a full memtable. -/
def firstSteps (e : LSMEngine) (ev : Event) : Option LSMEngine :=
  match ev.op with
  | .set key value => e.setSteps key value ev.env
  | .del key => e.delSteps key ev.env
  | _ => none

/-- The record a write logs. -/
def recordOf (ev : Event) : Option WALEntry :=
  match ev.op with
  | .set key value => some ⟨UInt64.ofNat ev.env.stamp, WALOp.SET, key, value⟩
  | .del key => some ⟨UInt64.ofNat ev.env.stamp, WALOp.DELETE, key, []⟩
  | _ => none

/-- The first steps log one record and put the value it stands for in the
memtable. -/
theorem Sound.firstSteps {e e₁ : LSMEngine} (h : Sound e) {ev : Event} (hio : NoIoError ev)
    (hfits : OpFits ev.op) (hsteps : e.firstSteps ev = some e₁) :
    ∃ (entry : WALEntry) (value : Bytes) (cache : LRUCache Bytes Bytes),
      (ev.op = .set entry.key value ∨ (ev.op = .del entry.key ∧ value = TOMBSTONE)) ∧
      recordOf ev = some entry ∧ WAL.RecordFits entry ∧ Leaves entry value ∧
      Sound (e.written entry value cache) ∧ e₁ = e.written entry value cache := by
  rcases ev with ⟨op, env⟩
  have hroom : env.logRoom = none := hio.1
  cases op with
  | set key value =>
      rcases setSteps_eq h hroom hsteps with ⟨cache, hput, heq⟩
      exact ⟨⟨UInt64.ofNat env.stamp, WALOp.SET, key, value⟩, value, cache, Or.inl rfl, rfl,
        hfits, leaves_set _ key value, h.written_set hfits.1 hfits.2 _ hput, heq⟩
  | del key =>
      have hnil : Fits [] := by decide
      rcases delSteps_eq h hroom hsteps with ⟨b, cache, hremove, heq⟩
      exact ⟨⟨UInt64.ofNat env.stamp, WALOp.DELETE, key, []⟩, TOMBSTONE, cache, Or.inr ⟨rfl, rfl⟩,
        rfl, ⟨hfits, hnil⟩, leaves_delete _ key, h.written_delete hfits _ hremove, heq⟩
  | get key => cases hsteps
  | compact => cases hsteps

/-- A write is its first steps and a flush if the memtable is full. -/
theorem firstSteps_of_step {e e' : LSMEngine} {ev : Event} (hstep : e.step ev = some e') :
    (∃ e₁, e.firstSteps ev = some e₁ ∧
      SameState (e₁.flushIfFull ev.env.now ev.env.dev) e') ∨
    (∃ key, ev.op = .get key) ∨ ev.op = .compact := by
  rcases ev with ⟨op, env⟩
  cases op with
  | set key value =>
      rcases set_eq_some hstep with ⟨e₁, hsteps, rfl⟩
      exact Or.inl ⟨e₁, hsteps, rfl, rfl, rfl, rfl, rfl, rfl⟩
  | get key => exact Or.inr (Or.inl ⟨key, rfl⟩)
  | del key =>
      rcases del_eq_some hstep with ⟨e₁, hsteps, rfl⟩
      exact Or.inl ⟨e₁, hsteps, SameState.refl _⟩
  | compact => exact Or.inr (Or.inr rfl)

/-- So is every operation that logs a record. -/
theorem firstSteps_of_record {e e' : LSMEngine} {ev : Event} {record : WALEntry}
    (hrecord : recordOf ev = some record) (hstep : e.step ev = some e') :
    ∃ e₁, e.firstSteps ev = some e₁ ∧
      SameState (e₁.flushIfFull ev.env.now ev.env.dev) e' := by
  unfold recordOf at hrecord
  rcases firstSteps_of_step hstep with hsteps | ⟨key, hop⟩ | hop
  · exact hsteps
  · rw [hop] at hrecord
    cases hrecord
  · rw [hop] at hrecord
    cases hrecord

theorem step_of_firstSteps {e e₁ : LSMEngine} {ev : Event} (hsteps : e.firstSteps ev = some e₁) :
    ∃ e', e.step ev = some e' ∧ SameState (e₁.flushIfFull ev.env.now ev.env.dev) e' := by
  rcases ev with ⟨op, env⟩
  cases op with
  | set key value =>
      have hsteps' : e.setSteps key value env = some e₁ := hsteps
      refine ⟨{ e₁.flushIfFull env.now env.dev with
        writeCount := (e₁.flushIfFull env.now env.dev).writeCount + 1 }, ?_,
        ⟨rfl, rfl, rfl, rfl, rfl, rfl⟩⟩
      show e.set key value env = _
      unfold LSMEngine.set
      rw [hsteps']
      rfl
  | get key => cases hsteps
  | del key =>
      have hsteps' : e.delSteps key env = some e₁ := hsteps
      refine ⟨_, ?_, SameState.refl _⟩
      show e.del key env = _
      unfold LSMEngine.del
      rw [hsteps']
      rfl
  | compact => cases hsteps

theorem Sound.step_cases {e e' : LSMEngine} (h : Sound e) {ev : Event} (hio : NoIoError ev)
    (hfits : OpFits ev.op) (hstep : e.step ev = some e') : StepCase e ev e' := by
  rcases firstSteps_of_step hstep with ⟨e₁, hsteps, hsame⟩ | ⟨key, hop⟩ | hop
  · -- on a sound device the record is logged and the value stands in the memtable
    rcases h.firstSteps hio hfits hsteps with
      ⟨entry, value, cache, hop, -, hentry, hleaves, hwritten, rfl⟩
    rw [hio.2] at hsame
    exact StepCase.write entry value cache hop hentry hleaves hwritten hsame
  · rcases LSMEngine.step_get hop hstep with ⟨r, hget⟩
    rcases h.toLayered.get key ev.env.now with ⟨e'', hget', hlayered, heffect⟩
    rw [hget] at hget'
    simp only [Option.some.injEq, Prod.mk.injEq] at hget'
    rw [← hget'.2] at hlayered heffect
    exact StepCase.read key hop hlayered heffect
  · have heq := step_compact hop hstep
    rw [hio.2] at heq
    exact StepCase.compact hop heq.symm

/-- A compaction writes when there are more than four tables. -/
theorem writesTable_compact {e : LSMEngine} {ev : Event} (hop : ev.op = .compact) :
    writesTable e ev.op = true ↔ 4 < e.sstables.length := by
  rw [hop]
  exact decide_eq_true_iff

/-- A write flushes when what it leaves fills the memtable. -/
theorem writesTable_written {ev : Event} {entry : WALEntry} {value : Bytes}
    (hop : ev.op = .set entry.key value ∨ (ev.op = .del entry.key ∧ value = TOMBSTONE))
    (e : LSMEngine) : writesTable e ev.op = (e.memtable.set entry.key value).isFull := by
  rcases hop with hop | ⟨hop, rfl⟩
  · rw [hop]
    rfl
  · rw [hop]
    rfl

theorem nameReadings_of_writes {e : LSMEngine} {ev : Event} (h : writesTable e ev.op = true) :
    nameReadings e ev = [ev.env.now] := by
  unfold nameReadings
  rw [if_pos h]

/-- The flush that ends a write has the path the step is said to write. -/
theorem fresh_written {e : LSMEngine} {ev : Event} {entry : WALEntry} {value : Bytes}
    (hop : ev.op = .set entry.key value ∨ (ev.op = .del entry.key ∧ value = TOMBSTONE))
    (hfresh : Fresh e ev) :
    (e.memtable.set entry.key value).isFull = true →
      sstablePath e.dataDir ev.env.now ∉ e.sstables.map SSTable.path := by
  unfold Fresh outputPath at hfresh
  rcases hop with hop | ⟨hop, rfl⟩
  · rw [hop] at hfresh
    exact hfresh
  · rw [hop] at hfresh
    exact hfresh

theorem fresh_compact {e : LSMEngine} {ev : Event} (hop : ev.op = .compact)
    (hfresh : Fresh e ev) :
    4 < e.sstables.length →
      compactedPath e.dataDir ev.env.now ∉ e.sstables.map SSTable.path := by
  intro hmany
  have hnot := hfresh ((writesTable_compact hop).mpr hmany)
  unfold outputPath at hnot
  rw [hop] at hnot
  exact hnot

theorem apply_written {ev : Event} {entry : WALEntry} {value : Bytes}
    (hop : ev.op = .set entry.key value ∨ (ev.op = .del entry.key ∧ value = TOMBSTONE))
    (P : PlainMap) : P.apply ev.op = Function.update P entry.key (some value) := by
  rcases hop with hop | ⟨hop, rfl⟩
  · rw [hop]
    rfl
  · rw [hop]
    rfl

theorem Sound.step {e e' : LSMEngine} (h : Sound e) {ev : Event} (hio : NoIoError ev)
    (hfits : OpFits ev.op) (hfresh : Fresh e ev) (hstep : e.step ev = some e') : Sound e' := by
  cases h.step_cases hio hfits hstep with
  | write entry value cache hop hentry hleaves hwritten hsame =>
      exact hsame.sound (h.write hentry hleaves hwritten (fresh_written hop hfresh)).1
  | read key hop hlayered heffect => exact heffect.sound h hlayered
  | compact hop heq =>
      rw [heq]
      exact h.compact (fresh_compact hop hfresh)

/-- A read leaves the layers as they are, or marks an expired value deleted. -/
theorem ReadEffect.lapsed {e e' : LSMEngine} {key : Bytes} {now : Nat}
    (h : ReadEffect e e' key now) {E : Bytes → Prop} (hE : ∀ v, Expired now v → E v)
    {P : PlainMap} (hl : Lapsed marks E P e.lookup) : Lapsed marks E P e'.lookup := by
  rcases h.memtable with hsame | ⟨value, hvalue, hexpired, hmark⟩
  · rw [lookup_congr h.disk hsame h.sstables]
    exact hl
  · -- the mark is put over an expired value, which no mark is
    have hne : value ≠ TOMBSTONE := by
      rintro rfl
      exact not_expired_tombstone now hexpired
    apply hl.lapse hvalue (hE value hexpired) hne
    · unfold lookup
      rw [hmark, MemTable.del, MemTable.get_set_self]
      rfl
    · intro j hj
      unfold lookup
      rw [hmark, MemTable.del, MemTable.get_set_ne hj, h.disk, h.sstables]

theorem lapsed_update {E : Bytes → Prop} {P Q Q' : PlainMap} {key value : Bytes}
    (h : Lapsed marks E P Q) (hQ : ∀ k, Q' k = if k = key then some value else Q k) :
    Lapsed marks E (Function.update P key (some value)) Q' := by
  apply h.update (k := key)
  · rw [hQ, if_pos rfl, Function.update_self]
  · intro j hj
    exact Function.update_of_ne hj _ _
  · intro j hj
    rw [hQ, if_neg hj]

/-- One step against the plain map. Whatever values `E` are allowed to have
lapsed, those expired at the step's reading among them, the layers and the
replayed log go on to hold what the plain map does. -/
theorem Sound.step_lapsed {e e' : LSMEngine} (h : Sound e) {ev : Event} (hio : NoIoError ev)
    (hfits : OpFits ev.op) (hfresh : Fresh e ev) (hstep : e.step ev = some e')
    {E : Bytes → Prop} (hE : ∀ v, Expired ev.env.now v → E v) {P : PlainMap}
    (hl : Lapsed marks E P e.lookup) (hr : Lapsed marks E P e.replayed) :
    Lapsed marks E (P.apply ev.op) e'.lookup ∧ Lapsed marks E (P.apply ev.op) e'.replayed := by
  cases h.step_cases hio hfits hstep with
  | write entry value cache hop hentry hleaves hwritten hsame =>
      rcases h.write hentry hleaves hwritten (fresh_written hop hfresh) with
        ⟨-, hlookup, hreplayed⟩
      rw [apply_written hop, lookup_congr hsame.disk hsame.memtable hsame.sstables,
        replayed_congr hsame.disk hsame.sstables]
      have hl' := lapsed_update hl hlookup
      refine ⟨hl', ?_⟩
      -- after a flush the replayed log follows the layers
      by_cases hfull : (e.memtable.set entry.key value).isFull = true
      · simp only [hfull, if_true] at hreplayed
        rw [funext hreplayed]
        exact hl'
      · simp only [hfull] at hreplayed
        exact lapsed_update hr hreplayed
  | read key hop hlayered heffect =>
      rw [hop]
      refine ⟨heffect.lapsed hE hl, ?_⟩
      rw [heffect.replayed]
      exact hr
  | compact hop heq =>
      rcases h.toLayered.compact (fresh_compact hop hfresh) with ⟨-, hlookup, hreplayed⟩
      rw [hop, heq, funext hlookup, funext hreplayed]
      exact ⟨hl, hr⟩

/-! ## Names -/

/-- Everything a read leaves as it was, whatever the state. -/
structure ReadFrame (e e' : LSMEngine) : Prop where
  dataDir : e'.dataDir = e.dataDir
  disk : e'.disk = e.disk
  wal : e'.wal = e.wal
  sstables : e'.sstables = e.sstables
  capacity : e'.cache.capacity = e.cache.capacity

theorem readFrame_checkTtl {e e' : LSMEngine} {key value : Bytes} {now : Nat}
    {r : Option Bytes} (h : e.checkTtl key value now = some (r, e')) : ReadFrame e e' := by
  unfold checkTtl at h
  cases hparse : parseExpiry value with
  | none =>
      simp only [hparse, Option.some.injEq, Prod.mk.injEq] at h
      rw [← h.2]
      exact ⟨rfl, rfl, rfl, rfl, rfl⟩
  | some p =>
      simp only [hparse] at h
      split_ifs at h
      · -- expired: the cache loses the key, and the memtable gets the mark
        simp only [bind, Option.bind_eq_some_iff, pure, Option.some.injEq, Prod.mk.injEq,
          Prod.exists] at h
        rcases h with ⟨b, cache, hremove, -, rfl⟩
        exact ⟨rfl, rfl, rfl, rfl, LRUCache.capacity_remove hremove⟩
      · simp only [Option.some.injEq, Prod.mk.injEq] at h
        rw [← h.2]
        exact ⟨rfl, rfl, rfl, rfl, rfl⟩

theorem readFrame_serve {e e' : LSMEngine} {key value : Bytes} {now : Nat}
    {r : Option Bytes} (h : e.serve key value now = some (r, e')) : ReadFrame e e' := by
  unfold serve at h
  split_ifs at h
  · simp only [Option.some.injEq, Prod.mk.injEq] at h
    rw [← h.2]
    exact ⟨rfl, rfl, rfl, rfl, rfl⟩
  · simp only [bind, Option.bind_eq_some_iff] at h
    rcases h with ⟨cache, hput, hcheck⟩
    have hframe := readFrame_checkTtl hcheck
    exact ⟨hframe.dataDir, hframe.disk, hframe.wal, hframe.sstables,
      hframe.capacity.trans (LRUCache.capacity_put hput)⟩

/-- Past the cache access only `serve` and `check_ttl` change the engine. -/
theorem readFrame_get {e e' : LSMEngine} {key : Bytes} {now : Nat} {r : Option Bytes}
    (h : e.get key now = some (r, e')) : ReadFrame e e' := by
  cases hcache : e.cache.get key with
  | none =>
      unfold get at h
      simp [hcache] at h
  | some p =>
      rcases p with ⟨cached, cache⟩
      have hcap : cache.capacity = e.cache.capacity := LRUCache.capacity_get hcache
      cases cached with
      | some value =>
          rw [get_of_hit hcache] at h
          split_ifs at h
          · cases h
            exact ⟨rfl, rfl, rfl, rfl, hcap⟩
          · have hframe := readFrame_checkTtl h
            exact ⟨hframe.dataDir, hframe.disk, hframe.wal, hframe.sstables,
              hframe.capacity.trans hcap⟩
      | none =>
          rcases get_of_miss hcache now with ⟨saved, hget⟩
          rw [hget] at h
          cases hslow : e.slowPath key with
          | some value =>
              rw [hslow] at h
              have hframe := readFrame_serve h
              exact ⟨hframe.dataDir, hframe.disk, hframe.wal, hframe.sstables,
                hframe.capacity.trans hcap⟩
          | none =>
              rw [hslow] at h
              cases h
              exact ⟨rfl, rfl, rfl, rfl, hcap⟩

/-- The first steps of `set`, whatever happens to the log. -/
theorem setSteps_some {e e₁ : LSMEngine} {key value : Bytes} {env : Env}
    (h : e.setSteps key value env = some e₁) :
    ∃ cache, e.cache.put key value = some cache ∧
      e₁ = { e with
        disk := ⟨(e.wal.append e.disk.walLog env.logRoom env.stamp WALOp.SET key value).2,
          e.disk.tables⟩
        cache := cache
        memtable := e.memtable.set key value
        wal := (e.wal.append e.disk.walLog env.logRoom env.stamp WALOp.SET key value).1 } := by
  unfold setSteps at h
  simp only [bind, Option.bind_eq_some_iff, pure, Option.some.injEq] at h
  rcases h with ⟨cache, hput, rfl⟩
  exact ⟨cache, hput, rfl⟩

theorem delSteps_some {e e₁ : LSMEngine} {key : Bytes} {env : Env}
    (h : e.delSteps key env = some e₁) :
    ∃ b cache, e.cache.remove key = some (b, cache) ∧
      e₁ = { e with
        disk := ⟨(e.wal.append e.disk.walLog env.logRoom env.stamp WALOp.DELETE key []).2,
          e.disk.tables⟩
        cache := cache
        memtable := e.memtable.del key
        wal := (e.wal.append e.disk.walLog env.logRoom env.stamp WALOp.DELETE key []).1 } := by
  unfold delSteps at h
  simp only [bind, Option.bind_eq_some_iff, pure, Option.some.injEq, Prod.exists] at h
  rcases h with ⟨b, cache, hremove, rfl⟩
  exact ⟨b, cache, hremove, rfl⟩

/-- The entries a step hands to `SSTable::flush`, if it writes a table file. -/
def outputEntries (e : LSMEngine) (op : Op) : List Entry :=
  match op, e.sstables with
  | .compact, older :: newer :: _ =>
    mergeEntries (older.readAll e.disk.tables) (newer.readAll e.disk.tables)
  | _, _ => (memtableAt e op).data

/-- What a step does to the live tables and their files. -/
inductive FileEffect (e : LSMEngine) (ev : Event) (e' : LSMEngine) : Prop where
  | none (hnone : writesTable e ev.op = false) (hsstables : e'.sstables = e.sstables)
      (hfiles : e'.disk.tables = e.disk.tables)
  | flushed (table : SSTable) (hop : ev.op ≠ .compact) (hwrites : writesTable e ev.op = true)
      (hpath : table.path = outputPath e ev) (hsstables : e'.sstables = e.sstables ++ [table])
      (hfiles : e'.disk.tables = putFile ev.env.dev (outputPath e ev)
        (encodeEntries (outputEntries e ev.op)) e.disk.tables)
  | merged (table older newer : SSTable) (staying : List SSTable) (hop : ev.op = .compact)
      (hwrites : writesTable e ev.op = true)
      (hsplit : e.sstables = older :: newer :: staying)
      (hpath : table.path = outputPath e ev) (hsstables : e'.sstables = table :: staying)
      (hfiles : e'.disk.tables = Assoc.erase newer.path (Assoc.erase older.path
        (putFile ev.env.dev (outputPath e ev) (encodeEntries (outputEntries e ev.op))
          e.disk.tables)))

theorem outputEntries_compact {e : LSMEngine} {older newer : SSTable} {staying : List SSTable}
    (hsplit : e.sstables = older :: newer :: staying) :
    outputEntries e .compact =
      mergeEntries (older.readAll e.disk.tables) (newer.readAll e.disk.tables) := by
  unfold outputEntries
  rw [hsplit]

theorem outputEntries_of_ne {e : LSMEngine} {op : Op} (h : op ≠ .compact) :
    outputEntries e op = (memtableAt e op).data := by
  unfold outputEntries
  split
  · exact absurd rfl h
  · rfl

/-- The first steps of a write leave the tables alone, and something in the
memtable. -/
theorem firstSteps_tables {e e₁ : LSMEngine} {ev : Event} (hsteps : e.firstSteps ev = some e₁) :
    ev.op ≠ .compact ∧ e₁.dataDir = e.dataDir ∧ e₁.disk.tables = e.disk.tables ∧
      e₁.sstables = e.sstables ∧ e₁.memtable = memtableAt e ev.op ∧
      e₁.memtable.data ≠ [] := by
  rcases ev with ⟨op, env⟩
  cases op with
  | set key value =>
      rcases setSteps_some hsteps with ⟨cache, -, rfl⟩
      exact ⟨Op.noConfusion, rfl, rfl, rfl, rfl, MemTable.data_set_ne_nil _ _ _⟩
  | del key =>
      rcases delSteps_some hsteps with ⟨b, cache, -, rfl⟩
      exact ⟨Op.noConfusion, rfl, rfl, rfl, rfl, MemTable.data_set_ne_nil _ _ _⟩
  | get key => cases hsteps
  | compact => cases hsteps

/-- A write flushes the memtable that its first steps leave, if it is full. -/
theorem writesTable_of_firstSteps {e e₁ : LSMEngine} {ev : Event}
    (hsteps : e.firstSteps ev = some e₁) :
    writesTable e ev.op = e₁.memtable.isFull ∧
      outputPath e ev = sstablePath e.dataDir ev.env.now := by
  rw [(firstSteps_tables hsteps).2.2.2.2.1]
  rcases ev with ⟨op, env⟩
  cases op with
  | set key value => exact ⟨rfl, rfl⟩
  | del key => exact ⟨rfl, rfl⟩
  | get key => cases hsteps
  | compact => cases hsteps

/-- A write adds the table its flush makes, if it flushes. -/
theorem fileEffect_write {e e₁ e' : LSMEngine} {ev : Event} (hsteps : e.firstSteps ev = some e₁)
    (hsame : SameState (e₁.flushIfFull ev.env.now ev.env.dev) e') : FileEffect e ev e' := by
  rcases firstSteps_tables hsteps with ⟨hop, hdir, htables, hsstables, hmemtable, hne⟩
  rcases writesTable_of_firstSteps hsteps with ⟨hwrites, hout⟩
  have hs := hsame.sstables
  have hf := congrArg DataDir.tables hsame.disk
  unfold flushIfFull at hs hf
  by_cases hfull : e₁.memtable.isFull = true
  · rw [if_pos hfull] at hs hf
    rw [flushMemtable_files hne] at hs hf
    apply FileEffect.flushed (flushedTo ev.env.dev e₁.disk.tables
      (sstablePath e₁.dataDir ev.env.now) e₁.memtable.data) hop (hwrites.trans hfull)
    · rw [path_flushedTo, hout, hdir]
    · rw [hs, hsstables]
    · rw [hf, hout, outputEntries_of_ne hop, ← hmemtable, hdir, htables]
  · rw [if_neg hfull] at hs hf
    apply FileEffect.none
    · rw [hwrites]
      simpa using hfull
    · rw [hs, hsstables]
    · rw [hf, htables]

/-- Every step has one of the three effects, whatever fails in it. -/
theorem fileEffect {e e' : LSMEngine} {ev : Event} (hstep : e.step ev = some e') :
    FileEffect e ev e' := by
  rcases firstSteps_of_step hstep with ⟨e₁, hsteps, hsame⟩ | ⟨key, hop⟩ | hop
  · exact fileEffect_write hsteps hsame
  · rcases LSMEngine.step_get hop hstep with ⟨r, hget⟩
    have hframe := readFrame_get hget
    refine FileEffect.none ?_ hframe.sstables (congrArg DataDir.tables hframe.disk)
    rw [hop]
    rfl
  · rw [← step_compact hop hstep]
    have hout : outputPath e ev = compactedPath e.dataDir ev.env.now := by
      unfold outputPath
      rw [hop]
    by_cases hmany : 4 < e.sstables.length
    · rcases exists_two_oldest hmany with ⟨older, newer, staying, hsplit⟩
      rw [compact_files hmany hsplit]
      apply FileEffect.merged _ older newer staying hop ((writesTable_compact hop).mpr hmany)
        hsplit ((path_flushedTo _ _ _ _).trans hout.symm) rfl
      rw [hop, hout, outputEntries_compact hsplit]
    · rw [compact_of_few hmany]
      refine FileEffect.none ?_ rfl rfl
      rw [Bool.eq_false_iff]
      exact fun hwrites => hmany ((writesTable_compact hop).mp hwrites)

/-- A step adds at most the table it writes. -/
theorem FileEffect.mem_sstables {e e' : LSMEngine} {ev : Event} (h : FileEffect e ev e') :
    ∀ t ∈ e'.sstables,
      t ∈ e.sstables ∨ (writesTable e ev.op = true ∧ t.path = outputPath e ev) := by
  intro t ht
  cases h with
  | none hnone hsstables hfiles =>
      rw [hsstables] at ht
      exact Or.inl ht
  | flushed table hop hwrites hpath hsstables hfiles =>
      rw [hsstables] at ht
      rcases List.mem_append.mp ht with ht | ht
      · exact Or.inl ht
      · rw [List.mem_singleton.mp ht]
        exact Or.inr ⟨hwrites, hpath⟩
  | merged table older newer staying hop hwrites hsplit hpath hsstables hfiles =>
      -- the output stands where the two oldest tables did
      rw [hsstables] at ht
      rcases List.mem_cons.mp ht with rfl | ht
      · exact Or.inr ⟨hwrites, hpath⟩
      · rw [hsplit]
        exact Or.inl (List.mem_cons_of_mem _ (List.mem_cons_of_mem _ ht))

/-- A flush leaves directory and cache alone. -/
theorem flushIfFull_frame (e : LSMEngine) (now : Nat) (dev : Device) :
    (e.flushIfFull now dev).dataDir = e.dataDir ∧ (e.flushIfFull now dev).cache = e.cache := by
  rcases flushIfFull_cases e now dev with heq | ⟨-, hne, heq⟩
  · rw [heq]
    exact ⟨rfl, rfl⟩
  · rw [heq, flushMemtable_files hne]
    exact ⟨rfl, rfl⟩

/-- No step changes the directory or the capacity of the cache. -/
theorem step_frame {e e' : LSMEngine} {ev : Event} (hstep : e.step ev = some e') :
    e'.dataDir = e.dataDir ∧ e'.cache.capacity = e.cache.capacity := by
  rcases ev with ⟨op, env⟩
  cases op with
  | set key value =>
      rcases set_eq_some hstep with ⟨e₁, hsteps, rfl⟩
      rcases setSteps_some hsteps with ⟨cache, hput, rfl⟩
      rcases flushIfFull_frame _ env.now env.dev with ⟨hdir, hcache⟩
      exact ⟨hdir, (congrArg LRUCache.capacity hcache).trans (LRUCache.capacity_put hput)⟩
  | get key =>
      rcases LSMEngine.step_get rfl hstep with ⟨r, hget⟩
      have hframe := readFrame_get hget
      exact ⟨hframe.dataDir, hframe.capacity⟩
  | del key =>
      rcases del_eq_some hstep with ⟨e₁, hsteps, rfl⟩
      rcases delSteps_some hsteps with ⟨b, cache, hremove, rfl⟩
      rcases flushIfFull_frame _ env.now env.dev with ⟨hdir, hcache⟩
      exact ⟨hdir, (congrArg LRUCache.capacity hcache).trans (LRUCache.capacity_remove hremove)⟩
  | compact =>
      have heq : e.compact env.now env.dev = e' := Option.some.inj hstep
      rw [← heq]
      by_cases hmany : 4 < e.sstables.length
      · rcases exists_two_oldest hmany with ⟨older, newer, staying, hsplit⟩
        rw [compact_files hmany hsplit]
        exact ⟨rfl, rfl⟩
      · rw [compact_of_few hmany]
        exact ⟨rfl, rfl⟩

/-- Every live table is named by one of the readings in `used`. -/
structure Named (dataDir : Bytes) (used : List Nat) (e : LSMEngine) : Prop where
  dir : e.dataDir = dataDir
  named : ∀ t ∈ e.sstables, ∃ ms ∈ used, NamedAt dataDir ms t.path

theorem namedAt_outputPath (e : LSMEngine) (ev : Event) :
    NamedAt e.dataDir ev.env.now (outputPath e ev) := by
  unfold outputPath
  split
  · exact Or.inr rfl
  · exact Or.inl rfl

theorem Named.step {dataDir : Bytes} {used : List Nat} {e e' : LSMEngine}
    (h : Named dataDir used e) {ev : Event} (hstep : e.step ev = some e') :
    Named dataDir (used ++ nameReadings e ev) e' := by
  refine ⟨(step_frame hstep).1.trans h.dir, ?_⟩
  intro t ht
  rcases (fileEffect hstep).mem_sstables t ht with ht | ⟨hwrites, hpath⟩
  · rcases h.named t ht with ⟨ms, hms, hname⟩
    exact ⟨ms, List.mem_append_left _ hms, hname⟩
  · refine ⟨ev.env.now, List.mem_append_right _ ?_, ?_⟩
    · unfold nameReadings
      rw [if_pos hwrites]
      exact List.mem_singleton.mpr rfl
    · rw [hpath, ← h.dir]
      exact namedAt_outputPath e ev

/-- A reading not used before makes a fresh name. -/
theorem Named.fresh {dataDir : Bytes} {used : List Nat} {e : LSMEngine}
    (h : Named dataDir used e) {ev : Event}
    (hnew : ∀ ms ∈ nameReadings e ev, ms ∉ used) : Fresh e ev := by
  intro hwrites hmem
  have hnow : ev.env.now ∈ nameReadings e ev := by
    unfold nameReadings
    rw [if_pos hwrites]
    exact List.mem_singleton.mpr rfl
  rcases List.mem_map.mp hmem with ⟨t, ht, hpath⟩
  rcases h.named t ht with ⟨ms, hms, hname⟩
  have hout := namedAt_outputPath e ev
  rw [h.dir, ← hpath] at hout
  have heq := hname.injective hout
  exact hnew ev.env.now hnow (heq ▸ hms)

/-! ## Runs from an empty directory -/

/-- No I/O error, lengths that fit, and a fresh path for a file written. -/
structure Orderly (e : LSMEngine) (ev : Event) : Prop where
  io : NoIoError ev
  fits : OpFits ev.op
  fresh : Fresh e ev

instance (e : LSMEngine) (ev : Event) : Decidable (Orderly e ev) :=
  decidable_of_iff (NoIoError ev ∧ OpFits ev.op ∧ Fresh e ev)
    ⟨fun h => ⟨h.1, h.2.1, h.2.2⟩, fun h => ⟨h.io, h.fits, h.fresh⟩⟩

variable {dataDir : Bytes} {cacheSize : Nat} {threshold : UInt64}

theorem sound_start : Sound (start dataDir cacheSize threshold) := by
  refine ⟨⟨stored_empty, MemTable.ordered_new _, LRUCache.linked_new _, ?_, ?_⟩, rfl, rfl, ?_⟩
  · rintro key value ⟨n, hn, -⟩
    cases hn
  · refine Or.inr ⟨rfl, ?_⟩
    intro key value hvalue
    cases hvalue
  · intro key
    exact Or.inl rfl

theorem lookup_start : (start dataDir cacheSize threshold).lookup = PlainMap.empty := rfl

theorem replayed_start : (start dataDir cacheSize threshold).replayed = PlainMap.empty := rfl

/-- Run lemma of `Sound.step`. -/
theorem Sound.run {e e' : LSMEngine} (h : Sound e) {evs : List Event}
    (halong : Machine.Along LSMEngine.step Orderly e evs)
    (hrun : Machine.run LSMEngine.step e evs = some e') : Sound e' := by
  apply Machine.run_invariant (P := Orderly) _ h halong hrun
  intro s ev s' hs horderly hstep
  exact hs.step horderly.io horderly.fits horderly.fresh hstep

theorem sound_run {evs : List Event} {e : LSMEngine}
    (halong : Machine.Along LSMEngine.step Orderly (start dataDir cacheSize threshold) evs)
    (hrun : Machine.run LSMEngine.step (start dataDir cacheSize threshold) evs = some e) :
    Sound e :=
  sound_start.run halong hrun

/-- Run lemma of `Sound.step_lapsed`. -/
theorem lapsed_run {evs : List Event} {e : LSMEngine}
    (halong : Machine.Along LSMEngine.step Orderly (start dataDir cacheSize threshold) evs)
    (hrun : Machine.run LSMEngine.step (start dataDir cacheSize threshold) evs = some e)
    {E : Bytes → Prop} (hE : ∀ ev ∈ evs, ∀ v, Expired ev.env.now v → E v) :
    Lapsed marks E (PlainMap.after evs) e.lookup ∧
      Lapsed marks E (PlainMap.after evs) e.replayed := by
  induction evs using List.reverseRecOn generalizing e with
  | nil =>
      have heq : start dataDir cacheSize threshold = e := Option.some.inj hrun
      rw [← heq, lookup_start, replayed_start]
      exact ⟨Lapsed.refl _, Lapsed.refl _⟩
  | append_singleton evs ev ih =>
      rcases Machine.run_concat.mp hrun with ⟨e₁, hrun₁, hstep⟩
      rcases Machine.along_concat.mp halong with ⟨halong₁, hlast⟩
      -- what the earlier events let lapse has lapsed for the whole run
      have horderly := hlast e₁ e hrun₁ hstep
      rcases ih halong₁ hrun₁ fun ev' hev' => hE ev' (List.mem_append_left _ hev') with ⟨hl, hr⟩
      rw [PlainMap.after_concat]
      exact (sound_run halong₁ hrun₁).step_lapsed horderly.io horderly.fits horderly.fresh hstep
        (hE ev (by simp)) hl hr

/-- At a reading no earlier than those of the run, an orderly engine answers
as the plain map does. -/
theorem answer_run {evs : List Event} {e : LSMEngine}
    (halong : Machine.Along LSMEngine.step Orderly (start dataDir cacheSize threshold) evs)
    (hrun : Machine.run LSMEngine.step (start dataDir cacheSize threshold) evs = some e)
    {now : Nat} (hnow : ∀ ev ∈ evs, ev.env.now ≤ now) (key : Bytes) :
    e.answer key now = some (visible now (PlainMap.after evs key)) := by
  rw [(sound_run halong hrun).toLayered.answer]
  have hl := (lapsed_run halong hrun (E := Expired now)
    fun ev hev v hv => hv.mono (hnow ev hev)).1
  exact congrArg some (hl.reading_eq (le_refl _) key)

theorem named_run {evs : List Event} {e : LSMEngine}
    (hrun : Machine.run LSMEngine.step (start dataDir cacheSize threshold) evs = some e) :
    Named dataDir
      (Machine.trace LSMEngine.step nameReadings (start dataDir cacheSize threshold) evs) e := by
  induction evs using List.reverseRecOn generalizing e with
  | nil =>
      have heq : start dataDir cacheSize threshold = e := Option.some.inj hrun
      rw [← heq]
      refine ⟨rfl, ?_⟩
      intro t ht
      cases ht
  | append_singleton evs ev ih =>
      rcases Machine.run_concat.mp hrun with ⟨e₁, hrun₁, hstep⟩
      rw [Machine.trace_concat hrun₁ hstep]
      exact (ih hrun₁).step hstep

/-- Readings that name no two files make every step orderly. -/
theorem along_orderly {evs : List Event} (hio : ∀ ev ∈ evs, NoIoError ev)
    (hfits : ∀ ev ∈ evs, OpFits ev.op)
    (hnames : (Machine.trace LSMEngine.step nameReadings (start dataDir cacheSize threshold)
      evs).Nodup) :
    Machine.Along LSMEngine.step Orderly (start dataDir cacheSize threshold) evs := by
  induction evs using List.reverseRecOn with
  | nil => trivial
  | append_singleton evs ev ih =>
      rw [Machine.along_concat]
      refine ⟨?_, ?_⟩
      · apply ih
        · exact fun ev' hev' => hio ev' (List.mem_append_left _ hev')
        · exact fun ev' hev' => hfits ev' (List.mem_append_left _ hev')
        · exact hnames.sublist (Machine.isPrefix_trace _ evs [ev]).sublist
      · -- the reading that names the last file is not among those used before
        intro e e' hrun hstep
        refine ⟨hio ev (by simp), hfits ev (by simp), (named_run hrun).fresh ?_⟩
        rw [Machine.trace_concat hrun hstep, List.nodup_append] at hnames
        intro ms hms hused
        exact hnames.2.2 ms hused ms hms rfl

/-- With room in the cache every operation of a sound engine is defined. -/
theorem Sound.step_isSome {e : LSMEngine} (h : Sound e) (hcap : 0 < e.cache.capacity)
    (ev : Event) : ∃ e', e.step ev = some e' := by
  rcases ev with ⟨op, env⟩
  cases op with
  | set key value =>
      rcases LRUCache.put_isSome h.linked hcap key value with ⟨cache, hput⟩
      unfold LSMEngine.step LSMEngine.set setSteps
      simp [hput]
  | get key =>
      rcases h.toLayered.get key env.now with ⟨e', hget, -, -⟩
      unfold LSMEngine.step
      simp [hget]
  | del key =>
      rcases LRUCache.remove_spec h.linked key with ⟨b, cache, hremove, -⟩
      unfold LSMEngine.step LSMEngine.del delSteps
      simp [hremove]
  | compact => exact ⟨_, rfl⟩

theorem capacity_run {evs : List Event} {e : LSMEngine}
    (hrun : Machine.run LSMEngine.step (start dataDir cacheSize threshold) evs = some e) :
    e.cache.capacity = cacheSize := by
  induction evs using List.reverseRecOn generalizing e with
  | nil =>
      have heq : start dataDir cacheSize threshold = e := Option.some.inj hrun
      rw [← heq]
      rfl
  | append_singleton evs ev ih =>
      rcases Machine.run_concat.mp hrun with ⟨e₁, hrun₁, hstep⟩
      rw [(step_frame hstep).2]
      exact ih hrun₁

/-- With room in the cache every orderly run is defined. -/
theorem run_isSome (hcache : 0 < cacheSize) {evs : List Event}
    (halong : Machine.Along LSMEngine.step Orderly (start dataDir cacheSize threshold) evs) :
    ∃ e, Machine.run LSMEngine.step (start dataDir cacheSize threshold) evs = some e := by
  induction evs using List.reverseRecOn with
  | nil => exact ⟨_, rfl⟩
  | append_singleton evs ev ih =>
      rcases Machine.along_concat.mp halong with ⟨halong₁, -⟩
      rcases ih halong₁ with ⟨e₁, hrun₁⟩
      have hcap : 0 < e₁.cache.capacity := by
        rw [capacity_run hrun₁]
        exact hcache
      rcases (sound_run halong₁ hrun₁).step_isSome hcap ev with ⟨e, hstep⟩
      exact ⟨e, Machine.run_concat.mpr ⟨e₁, hrun₁, hstep⟩⟩

end LSMEngine

end VaultDB
