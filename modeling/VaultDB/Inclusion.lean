import VaultDB.Backlog
import VaultDB.Coherence
import VaultDB.Statistics

/-! # Caches of two sizes

What the engine asks of its cache does not depend on the cache: a `set` puts, a
`del` removes, and a `get` puts what it finds, whether in the cache or below it
(`cacheOps`, `contents_step`). So two engines that go through the same
operations with caches of different sizes do the same to both, and the smaller
cache always holds the front of the larger one. The larger one has at least its
hits, and everything but the cache is the same (`cache_inclusion`).
-/

namespace VaultDB

open Text FileStream

namespace LSMEngine

/-- What a read that finds a value, or none, asks of the cache. -/
def readOps (key : Bytes) (now : Nat) : Option Bytes → List (Recency.Op Bytes Bytes)
  | some value =>
    if value = TOMBSTONE then []
    else .put key value :: if pastDeadline now value then [.remove key] else []
  | none => []

/-- What an operation asks of the cache. -/
def cacheOps (e : LSMEngine) (ev : Event) : List (Recency.Op Bytes Bytes) :=
  match ev.op with
  | .set key value => [.put key value]
  | .get key => readOps key ev.env.now (e.found key)
  | .del key => [.remove key]
  | .compact => []

/-- The operation stores no deletion mark as a value. -/
def StoresValue (ev : Event) : Prop := ∀ key, ev.op ≠ .set key TOMBSTONE

variable {e e' : LSMEngine} {key value : Bytes} {now : Nat} {r : Option Bytes}

/-! ## One operation -/

/-- The cache is in step, within its capacity, and holds no deletion mark. -/
structure Regular (e : LSMEngine) : Prop where
  linked : e.cache.Linked
  pos : 0 < e.cache.capacity
  room : e.cache.size ≤ e.cache.capacity
  value : ∀ key, Assoc.get key e.cache.contents ≠ some TOMBSTONE

/-- An expired value leaves the cache. -/
theorem contents_checkTtl (hlinked : e.cache.Linked)
    (h : e.checkTtl key value now = some (r, e')) :
    e'.cache.contents =
      if pastDeadline now value then Assoc.erase key e.cache.contents else e.cache.contents := by
  unfold checkTtl at h
  unfold pastDeadline
  cases hparse : parseExpiry value with
  | none =>
      simp only [hparse, Option.some.injEq, Prod.mk.injEq] at h
      obtain ⟨-, rfl⟩ := h
      rfl
  | some parsed =>
      obtain ⟨expiryMs, actual⟩ := parsed
      simp only [hparse] at h
      split_ifs at h with hexpired
      · simp only [bind, Option.bind_eq_some_iff, pure, Option.some.injEq, Prod.mk.injEq,
          Prod.exists] at h
        obtain ⟨b, cache, hremove, -, rfl⟩ := h
        rw [if_pos (decide_eq_true hexpired)]
        exact hlinked.contents_remove hremove
      · simp only [Option.some.injEq, Prod.mk.injEq] at h
        obtain ⟨-, rfl⟩ := h
        rw [if_neg (mt of_decide_eq_true hexpired)]

/-- A value that the cache has put in front, and its deadline. -/
theorem contents_read (e₁ : LSMEngine) {c : Nat} {es : List (Bytes × Bytes)}
    (hlinked : e₁.cache.Linked) (hput : e₁.cache.contents = Recency.apply c es (.put key value))
    (hne : value ≠ TOMBSTONE) (h : e₁.checkTtl key value now = some (r, e')) :
    e'.cache.contents = (readOps key now (some value)).foldl (Recency.apply c) es := by
  rw [contents_checkTtl hlinked h, hput]
  simp only [readOps, if_neg hne]
  split_ifs <;> rfl

/-- A value found below the cache. -/
theorem contents_serve (e₁ : LSMEngine) (hlinked : e₁.cache.Linked) (hpos : 0 < e₁.cache.capacity)
    (hroom : e₁.cache.size ≤ e₁.cache.capacity) (h : e₁.serve key value now = some (r, e')) :
    e'.cache.contents =
      (readOps key now (some value)).foldl (Recency.apply e₁.cache.capacity) e₁.cache.contents := by
  unfold serve at h
  by_cases htomb : value = TOMBSTONE
  · rw [if_pos htomb] at h
    cases h
    simp only [readOps, if_pos htomb, List.foldl_nil]
  · rw [if_neg htomb] at h
    simp only [bind, Option.bind_eq_some_iff] at h
    obtain ⟨cache, hput, hcheck⟩ := h
    have hcontents := hlinked.contents_put hpos hroom hput
    exact contents_read { e₁ with cache := cache }
      (LRUCache.put_spec hlinked hput).1 hcontents htomb hcheck

theorem contents_get (h : Regular e) (hget : e.get key now = some (r, e')) :
    e'.cache.contents =
      (readOps key now (e.found key)).foldl (Recency.apply e.cache.capacity)
        e.cache.contents := by
  obtain ⟨cached, cache, hcache, hlinked, hcap, -, -⟩ := LRUCache.get_spec h.linked key
  obtain ⟨hcached, hcontents⟩ := h.linked.contents_get hcache
  have hroom : e.cache.contents.length ≤ e.cache.capacity := by
    rw [LRUCache.length_contents]
    exact h.room
  unfold found
  cases hfound : Assoc.get key e.cache.contents with
  | some value =>
      -- the entry comes to the front, as if it were put there
      rw [hfound] at hcached
      rw [hcached] at hcache
      have hne : value ≠ TOMBSTONE := by
        rintro rfl
        exact h.value key hfound
      rw [get_of_hit hcache, if_neg hne] at hget
      have hlisted : key ∈ Recency.keys e.cache.contents :=
        List.mem_map_of_mem (Assoc.mem_of_get hfound)
      rw [Recency.apply_get_of_some hfound,
        ← Recency.apply_put_of_room (Or.inl hlisted) hroom] at hcontents
      exact contents_read _ hlinked hcontents hne hget
  | none =>
      rw [hfound] at hcached
      rw [hcached] at hcache
      rw [Recency.apply_get_of_none hfound] at hcontents
      obtain ⟨saved, hslow⟩ := get_of_miss hcache now
      rw [hslow] at hget
      rw [Option.none_or]
      cases hvalue : e.slowPath key with
      | some value =>
          rw [hvalue] at hget
          have hserve := contents_serve { e with
            readCount := e.readCount + 1, cache := cache, bloomSaved := saved } hlinked
            (by rw [hcap]; exact h.pos)
            (by rw [hcap, ← LRUCache.length_contents, hcontents]; exact hroom) hget
          rw [hserve, hcontents, hcap]
      | none =>
          rw [hvalue] at hget
          cases hget
          exact hcontents

/-- What an operation asks of the cache is what happens to its contents. -/
theorem contents_step (h : Regular e) {ev : Event} (hstep : e.step ev = some e') :
    e'.cache.contents =
      (e.cacheOps ev).foldl (Recency.apply e.cache.capacity) e.cache.contents := by
  obtain ⟨op, env⟩ := ev
  cases op with
  | set key value =>
      rcases set_eq_some hstep with ⟨e₁, hsteps, rfl⟩
      rcases setSteps_some hsteps with ⟨cache, hput, rfl⟩
      have hcontents := h.linked.contents_put h.pos h.room hput
      exact (congrArg LRUCache.contents (flushIfFull_frame _ env.now env.dev).2).trans hcontents
  | get key =>
      obtain ⟨r, hget⟩ := LSMEngine.step_get rfl hstep
      exact contents_get h hget
  | del key =>
      rcases del_eq_some hstep with ⟨e₁, hsteps, rfl⟩
      rcases delSteps_some hsteps with ⟨b, cache, hremove, rfl⟩
      have hcontents := h.linked.contents_remove hremove
      exact (congrArg LRUCache.contents (flushIfFull_frame _ env.now env.dev).2).trans hcontents
  | compact =>
      rw [← step_compact rfl hstep, cache_compact]
      rfl

/-! ## Two caches -/

/-- The cache holds what these operations leave, which get nothing and put no
deletion mark. -/
structure Stacked (ops : List (Recency.Op Bytes Bytes)) (e : LSMEngine) : Prop where
  contents : e.cache.contents = Recency.after e.cache.capacity ops
  puts : ∀ key, .put key TOMBSTONE ∉ ops
  gets : ∀ key, .get key ∉ ops

variable {ops : List (Recency.Op Bytes Bytes)} {ev : Event} {e₁ e₁' : LSMEngine}

theorem Stacked.regular (h : Stacked ops e) (hlinked : e.cache.Linked)
    (hpos : 0 < e.cache.capacity) : Regular e := by
  have hfaithful := Recency.faithful_after e.cache.capacity ops
  refine ⟨hlinked, hpos, ?_, ?_⟩
  · rw [← LRUCache.length_contents, h.contents]
    exact hfaithful.room
  · intro key hget
    rw [h.contents] at hget
    obtain ⟨i, hput, -⟩ := hfaithful.value _ (Assoc.mem_of_get hget)
    exact h.puts key (List.mem_of_getElem? hput)

theorem notMem_cacheOps (hvalue : StoresValue ev) (key : Bytes) :
    .put key TOMBSTONE ∉ e.cacheOps ev ∧ .get key ∉ e.cacheOps ev := by
  obtain ⟨op, env⟩ := ev
  cases op with
  | set k v =>
      have hne : v ≠ TOMBSTONE := fun heq => hvalue k (by rw [heq])
      simp [cacheOps, Ne.symm hne]
  | get k =>
      unfold cacheOps readOps
      dsimp only
      split
      · split_ifs with htomb hpast
        · simp
        · simp [Ne.symm htomb]
        · simp [Ne.symm htomb]
      · simp
  | del k => simp [cacheOps]
  | compact => simp [cacheOps]

theorem Stacked.step (h : Stacked ops e) (hlinked : e.cache.Linked) (hpos : 0 < e.cache.capacity)
    (hvalue : StoresValue ev) (hstep : e.step ev = some e₁) :
    Stacked (ops ++ e.cacheOps ev) e₁ := by
  have hnew := fun key => notMem_cacheOps (e := e) hvalue key
  refine ⟨?_, ?_, ?_⟩
  · rw [contents_step (h.regular hlinked hpos) hstep, (step_frame hstep).2, h.contents,
      Recency.after_append]
  · intro key hmem
    rcases List.mem_append.mp hmem with hmem | hmem
    · exact h.puts key hmem
    · exact (hnew key).1 hmem
  · intro key hmem
    rcases List.mem_append.mp hmem with hmem | hmem
    · exact h.gets key hmem
    · exact (hnew key).2 hmem

/-- Two engines that differ in the size of the cache, after the same run. -/
structure Nested (ops : List (Recency.Op Bytes Bytes)) (e e' : LSMEngine) : Prop where
  twin : Twin e e'
  sound : Sound e
  sound' : Sound e'
  pos : 0 < e.cache.capacity
  le : e.cache.capacity ≤ e'.cache.capacity
  stacked : Stacked ops e
  stacked' : Stacked ops e'

theorem Nested.isPrefix (h : Nested ops e e') : e.cache.contents <+: e'.cache.contents := by
  rw [h.stacked.contents, h.stacked'.contents]
  exact Recency.isPrefix_after h.le h.stacked.gets

/-- What they ask of their caches is the same. -/
theorem Nested.cacheOps_eq (h : Nested ops e e') (ev : Event) :
    e'.cacheOps ev = e.cacheOps ev := by
  have hfound : ∀ key, e'.found key = e.found key := by
    intro key
    rw [h.sound'.toLayered.found_eq, h.sound.toLayered.found_eq, h.twin.lookup]
  unfold cacheOps
  simp only [hfound]

theorem isHit_get (hlinked : e.cache.Linked) (key : Bytes) (env : Env) :
    e.isHit ⟨.get key, env⟩ = (Assoc.get key e.cache.contents).isSome := by
  obtain ⟨cached, cache, hcache, -⟩ := LRUCache.get_spec hlinked key
  rw [← (hlinked.contents_get hcache).1]
  exact (isSome_cached hcache).symm

/-- A hit in the smaller cache is one in the larger. -/
theorem Nested.isHit (h : Nested ops e e') (hhit : e.isHit ev = true) : e'.isHit ev = true := by
  obtain ⟨op, env⟩ := ev
  cases op with
  | get key =>
      rw [isHit_get h.sound.linked] at hhit
      rw [isHit_get h.sound'.linked]
      obtain ⟨rest, hrest⟩ := h.isPrefix
      rw [← hrest, Assoc.get_append]
      obtain ⟨value, hvalue⟩ := Option.isSome_iff_exists.mp hhit
      rw [hvalue]
      rfl
  | _ => cases hhit

theorem Nested.step (h : Nested ops e e') (horderly : Orderly e ev) (hvalue : StoresValue ev)
    (hstep : e.step ev = some e₁) (hstep' : e'.step ev = some e₁') :
    Nested (ops ++ e.cacheOps ev) e₁ e₁' := by
  have hpos' := Nat.lt_of_lt_of_le h.pos h.le
  have hstacked' := h.stacked'.step h.sound'.linked hpos' hvalue hstep'
  rw [h.cacheOps_eq] at hstacked'
  refine ⟨h.twin.step h.sound.toLayered h.sound'.toLayered hstep hstep',
    h.sound.step horderly.io horderly.fits horderly.fresh hstep,
    h.sound'.step horderly.io horderly.fits (h.twin.fresh horderly.fresh) hstep', ?_, ?_,
    h.stacked.step h.sound.linked h.pos hvalue hstep, hstacked'⟩
  · rw [(step_frame hstep).2]
    exact h.pos
  · rw [(step_frame hstep).2, (step_frame hstep').2]
    exact h.le

end LSMEngine

variable {dataDir : Bytes} {threshold : UInt64} {small large : Nat}

open LSMEngine

/-- Run lemma of `Nested.step`. -/
theorem nested_run (hpos : 0 < small) (hle : small ≤ large) {evs : List Event}
    (halong : Machine.Along LSMEngine.step Orderly (start dataDir small threshold) evs)
    (hvalues : ∀ ev ∈ evs, StoresValue ev) :
    ∃ e e', Machine.run LSMEngine.step (start dataDir small threshold) evs = some e ∧
      Machine.run LSMEngine.step (start dataDir large threshold) evs = some e' ∧
      Nested (Machine.trace LSMEngine.step cacheOps (start dataDir small threshold) evs) e e' ∧
      hitCount (start dataDir small threshold) evs ≤
        hitCount (start dataDir large threshold) evs := by
  unfold hitCount
  induction evs using List.reverseRecOn with
  | nil =>
      have hempty : ∀ c, Stacked [] (start dataDir c threshold) :=
        fun c => ⟨rfl, nofun, nofun⟩
      exact ⟨_, _, rfl, rfl, ⟨⟨rfl, rfl, rfl, rfl, rfl⟩, sound_start, sound_start, hpos, hle,
        hempty small, hempty large⟩, Nat.le_refl 0⟩
  | append_singleton evs ev ih =>
      obtain ⟨halong₁, hlast⟩ := Machine.along_concat.mp halong
      obtain ⟨e, e', hrun, hrun', hnested, hhits⟩ :=
        ih halong₁ fun ev' hev' => hvalues ev' (List.mem_append_left _ hev')
      have hvalue := hvalues ev (List.mem_append_right _ List.mem_cons_self)
      obtain ⟨e₁, hstep⟩ := hnested.sound.step_isSome hnested.pos ev
      obtain ⟨e₁', hstep'⟩ :=
        hnested.sound'.step_isSome (Nat.lt_of_lt_of_le hnested.pos hnested.le) ev
      refine ⟨e₁, e₁', Machine.run_concat.mpr ⟨e, hrun, hstep⟩,
        Machine.run_concat.mpr ⟨e', hrun', hstep'⟩, ?_, ?_⟩
      · rw [Machine.trace_concat hrun hstep]
        exact hnested.step (hlast e e₁ hrun hstep) hvalue hstep hstep'
      · rw [Machine.trace_concat hrun hstep, Machine.trace_concat hrun' hstep', List.length_append,
          List.length_append, length_noteHit, length_noteHit]
        have hhit := @hnested.isHit
        split_ifs <;> grind

/-- Two engines with caches of different sizes, the same operations, no device
that fails, lengths that fit, no name used twice and no deletion mark stored as
a value: both caches hold what the same operations of an LRU list leave, so the
smaller one holds the front of the larger one, and has at most its hits (which
`cache_hits_` counts in 64 bits). Disk, memtable and every answer are the same. -/
theorem cache_inclusion (hpos : 0 < small) (hle : small ≤ large) {evs : List Event}
    (hio : ∀ ev ∈ evs, NoIoError ev) (hfits : ∀ ev ∈ evs, OpFits ev.op)
    (hnames : (Machine.trace LSMEngine.step nameReadings (start dataDir small threshold)
      evs).Nodup) (hvalues : ∀ ev ∈ evs, StoresValue ev) :
    ∃ e e' ops, Machine.run LSMEngine.step (start dataDir small threshold) evs = some e ∧
      Machine.run LSMEngine.step (start dataDir large threshold) evs = some e' ∧
      e.cache.contents = Recency.after small ops ∧ e'.cache.contents = Recency.after large ops ∧
      e.cache.contents <+: e'.cache.contents ∧
      hitCount (start dataDir small threshold) evs ≤
        hitCount (start dataDir large threshold) evs ∧
      e.cacheHits = UInt64.ofNat (hitCount (start dataDir small threshold) evs) ∧
      e'.cacheHits = UInt64.ofNat (hitCount (start dataDir large threshold) evs) ∧
      e'.disk = e.disk ∧ e'.memtable = e.memtable ∧
      ∀ key now, e'.answer key now = e.answer key now := by
  have halong := along_orderly hio hfits hnames
  obtain ⟨e, e', hrun, hrun', hnested, hhits⟩ := nested_run hpos hle halong hvalues
  have hsmall := hnested.stacked.contents
  have hlarge := hnested.stacked'.contents
  rw [capacity_run hrun] at hsmall
  rw [capacity_run hrun'] at hlarge
  refine ⟨e, e', _, hrun, hrun', hsmall, hlarge, hnested.isPrefix, hhits,
    (counts_run hrun).2.2, (counts_run hrun').2.2, hnested.twin.disk, hnested.twin.memtable, ?_⟩
  intro key now
  rw [hnested.sound'.toLayered.answer, hnested.sound.toLayered.answer, hnested.twin.lookup]

/-- Room for one key and for two: the second read hits only in the larger. -/
theorem cache_inclusion_oneTwo :
    ∃ e e' ops, Machine.run LSMEngine.step (start [] 1 100)
        [⟨.set (ascii "a") (ascii "1"), Env.calm 1⟩, ⟨.set (ascii "b") (ascii "2"), Env.calm 2⟩,
          ⟨.get (ascii "a"), Env.calm 3⟩] = some e ∧
      Machine.run LSMEngine.step (start [] 2 100)
        [⟨.set (ascii "a") (ascii "1"), Env.calm 1⟩, ⟨.set (ascii "b") (ascii "2"), Env.calm 2⟩,
          ⟨.get (ascii "a"), Env.calm 3⟩] = some e' ∧
      e.cache.contents = Recency.after 1 ops ∧ e'.cache.contents = Recency.after 2 ops ∧
      e.cache.contents <+: e'.cache.contents ∧ e.cacheHits = 0 ∧ e'.cacheHits = 1 := by
  have hinclusion := @cache_inclusion [] 100 1 2 (by decide) (by decide)
    [⟨.set (ascii "a") (ascii "1"), Env.calm 1⟩, ⟨.set (ascii "b") (ascii "2"), Env.calm 2⟩,
      ⟨.get (ascii "a"), Env.calm 3⟩] (by decide) (by decide) (by decide +kernel) ?_
  · obtain ⟨e, e', ops, hrun, hrun', hsmall, hlarge, hprefix, -, hhits, hhits', -⟩ := hinclusion
    refine ⟨e, e', ops, hrun, hrun', hsmall, hlarge, hprefix, hhits.trans ?_, hhits'.trans ?_⟩
    · decide +kernel
    · decide +kernel
  intro ev hev key hop
  simp only [List.mem_cons, List.not_mem_nil, or_false] at hev
  rcases hev with rfl | rfl | rfl
  · exact absurd (Op.set.inj hop).2 (by decide)
  · exact absurd (Op.set.inj hop).2 (by decide)
  · cases hop

end VaultDB
