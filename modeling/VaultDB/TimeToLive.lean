import VaultDB.Framing
import VaultDB.Grammar
import VaultDB.Lives
import VaultDB.LongValues
import VaultDB.Refinement

/-! # Time to live

`TTL` writes a deadline in front of the value, and a read takes it off or finds
that it has passed. Between the two stand printing and reparsing of the
deadline (`parseExpiry_expiryValue`), truncation to milliseconds on both sides,
and whatever the engine does to the layers without writing the key: none of it
changes what the layers hold for the key but a read that finds the deadline
passed (`Sound.lookup_run`).
-/

namespace VaultDB

open Text Codec FileStream SSTable Expiring LSMEngine

/-! ## What the layers hold for a key -/

namespace LSMEngine

variable {e e' : LSMEngine} {key : Bytes}

/-- A step that does not write the key leaves what the layers hold for it, or
is a read that marks it deleted. -/
theorem Sound.lookup_step (h : Sound e) {ev : Event} (horderly : Orderly e ev)
    (hstep : e.step ev = some e') (hwrites : ¬ writesKey key ev.op) :
    e'.lookup key = e.lookup key ∨ (ev.op = .get key ∧ e'.lookup key = some TOMBSTONE) := by
  cases h.step_cases horderly.io horderly.fits hstep with
  | write entry value cache hop hentry hleaves hwritten hsame =>
      have hne : key ≠ entry.key := by
        rintro rfl
        rcases hop with hop | ⟨hop, -⟩ <;> exact hwrites (by rw [hop]; rfl)
      rcases h.write hentry hleaves hwritten (fresh_written hop horderly.fresh) with
        ⟨-, hlookup, -⟩
      rw [lookup_congr hsame.disk hsame.memtable hsame.sstables, hlookup, if_neg hne]
      exact Or.inl rfl
  | read k hop hlayered heffect =>
      rcases heffect.memtable with hsame | ⟨value, -, -, hmark⟩
      · rw [lookup_congr heffect.disk hsame heffect.sstables]
        exact Or.inl rfl
      · unfold lookup
        rw [hmark, MemTable.del, heffect.disk, heffect.sstables]
        -- the mark stands in the memtable under the key that was read
        by_cases hk : key = k
        · rw [← hk, MemTable.get_set_self]
          exact Or.inr ⟨hk ▸ hop, rfl⟩
        · rw [MemTable.get_set_ne hk]
          exact Or.inl rfl
  | compact hop heq =>
      rcases h.toLayered.compact (fresh_compact hop horderly.fresh) with ⟨-, hlookup, -⟩
      rw [heq, hlookup]
      exact Or.inl rfl

/-- Run lemma of `Sound.lookup_step`. -/
theorem Sound.lookup_run (h : Sound e) {evs : List Event}
    (halong : Machine.Along LSMEngine.step Orderly e evs)
    (hrun : Machine.run LSMEngine.step e evs = some e')
    (hwrites : ∀ ev ∈ evs, ¬ writesKey key ev.op) :
    e'.lookup key = e.lookup key ∨
      ((∃ ev ∈ evs, ev.op = .get key) ∧ e'.lookup key = some TOMBSTONE) := by
  induction evs using List.reverseRecOn generalizing e' with
  | nil =>
      cases hrun
      exact Or.inl rfl
  | append_singleton evs ev ih =>
      rcases Machine.run_concat.mp hrun with ⟨e₁, hrun₁, hstep⟩
      rcases Machine.along_concat.mp halong with ⟨halong₁, hlast⟩
      have hsound := h.run halong₁ hrun₁
      have hlast' := hsound.lookup_step (hlast e₁ e' hrun₁ hstep) hstep (hwrites ev (by simp))
      rcases hlast' with hsame | ⟨hop, hmark⟩
      · rw [hsame]
        rcases ih halong₁ hrun₁ fun ev' hev' => hwrites ev' (List.mem_append_left _ hev') with
          heq | ⟨⟨ev', hev', hop⟩, hmark⟩
        · exact Or.inl heq
        · exact Or.inr ⟨⟨ev', List.mem_append_left _ hev', hop⟩, hmark⟩
      · exact Or.inr ⟨⟨ev, by simp, hop⟩, hmark⟩

/-- A write leaves its value in the layers. -/
theorem Sound.lookup_set (h : Sound e) {value : Bytes} {env : Env}
    (horderly : Orderly e ⟨.set key value, env⟩)
    (hstep : e.step ⟨.set key value, env⟩ = some e') : e'.lookup key = some value := by
  cases h.step_cases horderly.io horderly.fits hstep with
  | write entry value' cache hop hentry hleaves hwritten hsame =>
      rcases h.write hentry hleaves hwritten (fresh_written hop horderly.fresh) with
        ⟨-, hlookup, -⟩
      rcases hop with hop | ⟨hop, -⟩
      · cases hop
        rw [lookup_congr hsame.disk hsame.memtable hsame.sstables, hlookup, if_pos rfl]
      · cases hop
  | read k hop hlayered heffect => cases hop
  | compact hop heq => cases hop

end LSMEngine

namespace Parser

/-! ## Deadlines -/

/-- What `TTL` stores is parsed as the deadline and the value it was given. -/
theorem parseExpiry_expiryValue {expiryMs : Int} (h : FitsInt64 expiryMs) (value : Bytes) :
    parseExpiry (expiryValue expiryMs value) = some (expiryMs, value) := by
  have hcolon : ascii ":" = [58] := by decide
  refine IsExpiry.parseExpiry ⟨decimalInt expiryMs, ?_, intText_decimalInt h⟩
  unfold expiryValue EXPIRY_PREFIX
  rw [hcolon, List.append_assoc, List.append_assoc]
  rfl

theorem visible_expiryValue {expiryMs : Int} (h : FitsInt64 expiryMs) (value : Bytes) (now : Nat) :
    visible now (some (expiryValue expiryMs value)) =
      if (now : Int) < expiryMs then some value else none := by
  have hparse := parseExpiry_expiryValue h value
  have hne : expiryValue expiryMs value ≠ TOMBSTONE := by
    intro heq
    rw [heq, parseExpiry_tombstone] at hparse
    cases hparse
  rw [visible_some hne, hparse]
  dsimp only
  by_cases hlt : (now : Int) < expiryMs
  · rw [if_neg (not_le.mpr hlt), if_pos hlt]
  · rw [if_pos (not_lt.mp hlt), if_neg hlt]

/-- The seconds `std::stoi` can give, added to a reading of the clock. -/
theorem clockFits_expiryNs {nowNs seconds : Int} (hnow : 0 ≤ nowNs ∧ nowNs ≤ 7 * 10 ^ 18)
    (hseconds : -2 ^ 31 ≤ seconds ∧ seconds < 2 ^ 31) :
    ClockFits (seconds * 10 ^ 9) ∧ ClockFits (expiryNs nowNs seconds) := by
  unfold ClockFits expiryNs
  omega

theorem fitsInt64_tdiv {ns : Int} (h : ClockFits ns) : FitsInt64 (ns.tdiv (10 ^ 6)) := by
  have habs : (ns.tdiv (10 ^ 6)).natAbs = ns.natAbs / 10 ^ 6 := Int.natAbs_tdiv ns (10 ^ 6)
  unfold ClockFits at h
  unfold FitsInt64
  omega

theorem stoi_bounds {s : Bytes} {n : Int} (h : stoi s = some n) : -2 ^ 31 ≤ n ∧ n < 2 ^ 31 := by
  have hbounds := (Option.filter_eq_some_iff.mp h).2
  exact of_decide_eq_true hbounds

/-! ## The command -/

theorem events_ttl (args : List Bytes) (env : ExecEnv) :
    events ⟨ascii "TTL", args⟩ env = ttlEvents args env := rfl

theorem execute_ttl (args : List Bytes) (e : LSMEngine) (env : ExecEnv) :
    execute ⟨ascii "TTL", args⟩ e env = executeTtl args e env := rfl

section Command

variable {e₀ e₁ : LSMEngine} {key seconds value : Bytes} {values : List Bytes} {n : Int}
  {env : ExecEnv} (h : Sound e₀) (hstoi : stoi seconds = some n)
  (halong : Machine.Along LSMEngine.step Orderly e₀
    (events ⟨ascii "TTL", key :: seconds :: value :: values⟩ env))
include h hstoi halong

/-- After the command the layers hold the deadline and the value. -/
theorem stored_ttl {r : Bytes}
    (hexecute : execute ⟨ascii "TTL", key :: seconds :: value :: values⟩ e₀ env =
      .returned r e₁) :
    Sound e₁ ∧ e₁.lookup key = some (expiryValue ((expiryNs env.nowNs n).tdiv (10 ^ 6))
      (join (value :: values))) := by
  rw [execute_ttl] at hexecute
  have hrun := (executeTtl_run hexecute).1
  rw [events_ttl] at halong
  rw [ttlEvents_of_stoi hstoi] at halong hrun
  rcases Machine.run_concat.mp hrun with ⟨e', hmerges, hset⟩
  rcases Machine.along_concat.mp halong with ⟨halong', hlast⟩
  have horderly := hlast e' e₁ hmerges hset
  exact ⟨h.run halong hrun, (h.run halong' hmerges).lookup_set horderly hset⟩

/-- With room in the cache the command is answered. -/
theorem answered_ttl (hroom : 0 < e₀.cache.capacity)
    (hfits : ClockFits (expiryNs env.nowNs n)) :
    ∃ e₁, execute ⟨ascii "TTL", key :: seconds :: value :: values⟩ e₀ env =
      .returned (ascii "OK\n") e₁ := by
  rw [events_ttl, ttlEvents_of_stoi hstoi] at halong
  rcases Machine.along_append.mp halong with ⟨halong', -⟩
  have hsound := h.run halong' (run_background e₀ (env.merges 0))
  rw [← cache_background e₀ (env.merges 0)] at hroom
  rcases hsound.step_isSome hroom ⟨.set key (expiryValue
    ((expiryNs env.nowNs n).tdiv (10 ^ 6)) (join (value :: values))), env.calls 0⟩ with
    ⟨e₁, hset⟩
  refine ⟨e₁, ?_⟩
  rw [execute_ttl]
  unfold executeTtl
  simp only [hstoi, if_pos hfits]
  have hset' : (e₀.background (env.merges 0)).set key (expiryValue
      ((expiryNs env.nowNs n).tdiv (10 ^ 6)) (join (value :: values))) (env.calls 0) =
      some e₁ := hset
  rw [hset']
  rfl

end Command

section Reads

variable {e₁ e₂ : LSMEngine} {key w : Bytes} {expiryMs : Int} {mid mid' : List Event}
  (h : Sound e₁) (hint : FitsInt64 expiryMs)
  (hlookup : e₁.lookup key = some (expiryValue expiryMs w))
  (halong : Machine.Along LSMEngine.step Orderly e₁ mid)
  (hrun : Machine.run LSMEngine.step e₁ mid = some e₂)
  (hwrites : ∀ ev ∈ mid, ¬ writesKey key ev.op)
include h hint hlookup halong hrun hwrites

/-- The first read of the key, whatever the engine did in between. -/
theorem answer_first_read (hreads : ∀ ev ∈ mid, ev.op ≠ .get key) (now : Nat) :
    e₂.answer key now = some (if (now : Int) < expiryMs then some w else none) := by
  rcases h.lookup_run halong hrun hwrites with hsame | ⟨⟨ev, hev, hop⟩, -⟩
  · rw [(h.run halong hrun).toLayered.answer, hsame, hlookup, visible_expiryValue hint]
  · exact absurd hop (hreads ev hev)

/-- A read that answers with nothing found a deletion mark, or the value with
its deadline passed. -/
theorem lookup_of_answer_none {now now' : Nat} (hnone : e₂.answer key now = some none)
    (hle : now ≤ now') :
    e₂.lookup key = some TOMBSTONE ∨ visible now' (e₂.lookup key) = none := by
  rcases h.lookup_run halong hrun hwrites with hsame | ⟨-, hmark⟩
  · rw [(h.run halong hrun).toLayered.answer, hsame, hlookup, visible_expiryValue hint] at hnone
    rw [hsame, hlookup, visible_expiryValue hint]
    refine Or.inr (if_neg ?_)
    intro hlt
    rw [if_pos (by omega)] at hnone
    cases hnone
  · exact Or.inl hmark

/-- Nothing that happens after such a read brings the value back. -/
theorem answer_stays_none {now now' : Nat} (hnone : e₂.answer key now = some none)
    (hle : now ≤ now') {e₃ : LSMEngine}
    (halong' : Machine.Along LSMEngine.step Orderly e₂ mid')
    (hrun' : Machine.run LSMEngine.step e₂ mid' = some e₃)
    (hwrites' : ∀ ev ∈ mid', ¬ writesKey key ev.op) : e₃.answer key now' = some none := by
  have hsound := h.run halong hrun
  rw [(hsound.run halong' hrun').toLayered.answer]
  rcases hsound.lookup_run halong' hrun' hwrites' with hsame | ⟨-, hmark⟩
  · rw [hsame]
    rcases lookup_of_answer_none h hint hlookup halong hrun hwrites hnone hle with hmark | hpast
    · rw [hmark, visible_tombstone]
    · rw [hpast]
  · rw [hmark, visible_tombstone]

end Reads

/-- For every orderly history with any number of lives, key, number of seconds
that `std::stoi` accepts, value of one word or more and reading of the clock:
the deadline does not leave the clock's 64 bits; the command is answered if the
cache has room; the first read of the key after it answers with the value while
the deadline is ahead in milliseconds, and with nothing from then on; and after
a read that answered with nothing no later one answers with a value. -/
theorem ttl_round_trip {dataDir : Bytes} {cacheSize : Nat} {threshold : UInt64}
    {pre : List LifeEvent} {e₀ : LSMEngine}
    (hpre : Machine.Along lifeStep OrderlyLife (start dataDir cacheSize threshold) pre)
    (hrun₀ : Machine.run lifeStep (start dataDir cacheSize threshold) pre = some e₀)
    {key seconds value : Bytes} {values : List Bytes} {n : Int} (hstoi : stoi seconds = some n)
    {env : ExecEnv} (hclock : 0 ≤ env.nowNs ∧ env.nowNs ≤ 7 * 10 ^ 18)
    (hcommand : Machine.Along LSMEngine.step Orderly e₀
      (events ⟨ascii "TTL", key :: seconds :: value :: values⟩ env)) :
    ClockFits (n * 10 ^ 9) ∧ ClockFits (expiryNs env.nowNs n) ∧
      (0 < e₀.cache.capacity →
        ∃ e₁, execute ⟨ascii "TTL", key :: seconds :: value :: values⟩ e₀ env =
          .returned (ascii "OK\n") e₁) ∧
      ∀ r e₁, execute ⟨ascii "TTL", key :: seconds :: value :: values⟩ e₀ env = .returned r e₁ →
        ∀ mid e₂, Machine.Along LSMEngine.step Orderly e₁ mid →
          Machine.run LSMEngine.step e₁ mid = some e₂ →
          (∀ ev ∈ mid, ¬ writesKey key ev.op) →
          ((∀ ev ∈ mid, ev.op ≠ .get key) → ∀ t : Nat, env.nowNs ≤ t →
            e₂.answer key (t / 10 ^ 6) =
              some (if ((t / 10 ^ 6 : Nat) : Int) < (expiryNs env.nowNs n).tdiv (10 ^ 6)
                then some (join (value :: values)) else none)) ∧
          ∀ mid₁ env₁ mid₂ e', mid = mid₁ ++ ⟨.get key, env₁⟩ :: mid₂ →
            Machine.run LSMEngine.step e₁ mid₁ = some e' → e'.answer key env₁.now = some none →
            ∀ now, env₁.now ≤ now → e₂.answer key now = some none := by
  have h := sound_lives hpre hrun₀
  rcases clockFits_expiryNs hclock (stoi_bounds hstoi) with ⟨hseconds, hfits⟩
  have hint := fitsInt64_tdiv hfits
  refine ⟨hseconds, hfits, fun hroom => answered_ttl h hstoi hcommand hroom hfits, ?_⟩
  intro r e₁ hexecute mid e₂ halong hrun hwrites
  rcases stored_ttl h hstoi hcommand hexecute with ⟨hsound₁, hlookup₁⟩
  refine ⟨?_, ?_⟩
  · intro hreads t _
    exact answer_first_read hsound₁ hint hlookup₁ halong hrun hwrites hreads (t / 10 ^ 6)
  · rintro mid₁ env₁ mid₂ e' rfl hrun₁ hnone now hle
    rcases Machine.along_append.mp halong with ⟨halong₁, halong₂⟩
    rcases Machine.run_append.mp hrun with ⟨e'', hrun₁', hrun₂⟩
    rw [hrun₁] at hrun₁'
    cases hrun₁'
    have hwrites₁ : ∀ ev ∈ mid₁, ¬ writesKey key ev.op :=
      fun ev hev => hwrites ev (List.mem_append_left _ hev)
    exact answer_stays_none hsound₁ hint hlookup₁ halong₁ hrun₁ hwrites₁ hnone hle
      (halong₂ e' hrun₁) hrun₂ fun ev hev => hwrites ev (List.mem_append_right _ hev)

theorem ttl_round_trip_ahead :
    ∃ e₁, execute (parse (ascii "TTL k 1 v w")) (start [] 1 1) (ExecEnv.calm 1) =
        .returned (ascii "OK\n") e₁ ∧
      e₁.answer (ascii "k") 1000 = some (some (ascii "v w")) := by
  have hparse : parse (ascii "TTL k 1 v w") =
      ⟨ascii "TTL", [ascii "k", ascii "1", ascii "v", ascii "w"]⟩ := by decide
  have hcommand : Machine.Along LSMEngine.step Orderly (start [] 1 1)
      (events ⟨ascii "TTL", [ascii "k", ascii "1", ascii "v", ascii "w"]⟩ (ExecEnv.calm 1)) := by
    decide +kernel
  rcases @ttl_round_trip [] 1 1 [] (start [] 1 1) trivial (Machine.run_nil _) _ _ _ _ 1 (by decide)
    (ExecEnv.calm 1) (by decide) hcommand with ⟨-, -, hanswered, hreads⟩
  rcases hanswered (by decide) with ⟨e₁, hexecute⟩
  rw [hparse]
  refine ⟨e₁, hexecute, ?_⟩
  have hread := (hreads _ e₁ hexecute [] e₁ trivial rfl nofun).1 nofun 1000000000 (by decide)
  refine hread.trans ?_
  decide

/-- A write of another key takes the long value out of a cache with room for one,
and what is left of it is the empty value in the table. -/
theorem dropped_long {e : LSMEngine} {value : Bytes}
    (h : e.layers = ⟨[], [emptyValueFile [107] 1], ⟨1, [⟨0, [107], value⟩], [([107], 0)], 1⟩,
      MemTable.new 1, [emptyValueTable [107] 1]⟩) :
    ∃ e', e.set [106] [118] (Env.calm 2) = some e' ∧
      Fresh e ⟨.set [106] [118], Env.calm 2⟩ ∧
      ∀ now, ∃ e'', e'.get [107] now = some (some [], e'') := by
  have hput : (⟨1, [⟨0, [107], value⟩], [([107], 0)], 1⟩ : LRUCache Bytes Bytes).put [106] [118] =
      some ⟨1, [⟨1, [106], [118]⟩], [([106], 1)], 2⟩ := by
    simp [LRUCache.put, LRUCache.evict, LRUCache.emplaceFront, Assoc.put, Assoc.erase, Assoc.get]
  rcases set_full h hput (by decide) (by decide) 2 with ⟨e', hset, h'⟩
  refine ⟨e', hset, ?_, ?_⟩
  · simp only [layers, Layers.mk.injEq] at h
    rcases h with ⟨hdir, -, -, -, hsstables⟩
    intro _
    show sstablePath e.dataDir 2 ∉ e.sstables.map SSTable.path
    rw [hdir, hsstables]
    decide +kernel
  · intro now
    rcases slowPath_of_layers h' [107] with ⟨saved, hslow⟩
    have hfound : e'.slowPath [107] = some [] := by
      rw [hslow, MemTable.get_clear, Option.none_or]
      exact searchTables_older (by decide +kernel) (by decide +kernel) (by decide +kernel) saved
    have hcache : e'.cache = ⟨1, [⟨1, [106], [118]⟩], [([106], 1)], 2⟩ := congrArg Layers.cache h'
    have hmiss : e'.cache.get [107] = some (none, e'.cache) := by
      rw [hcache]
      decide
    have hroom : e'.cache.put [107] [] = some ⟨1, [⟨2, [107], []⟩], [([107], 2)], 3⟩ := by
      rw [hcache]
      decide
    exact get_of_slowPath hmiss hfound (by decide) (by decide) hroom now

/-- A command whose value has `2 ^ 32` bytes, the deadline included. The value
goes to a table at once. -/
theorem execute_ttl_long {w : Bytes} (hlen : w.length = 2 ^ 32 - 15) :
    ∃ e₁, execute ⟨ascii "TTL", [ascii "k", ascii "1000", w]⟩ (start [] 1 1) (ExecEnv.calm 1) =
        .returned (ascii "OK\n") e₁ ∧
      e₁.layers = ⟨[], [emptyValueFile [107] 1],
        ⟨1, [⟨0, [107], expiryValue 1000001 w⟩], [([107], 0)], 1⟩, MemTable.new 1,
        [emptyValueTable [107] 1]⟩ := by
  have hstored : (expiryValue 1000001 w).length = 2 ^ 32 := by
    have hfront : (ascii "EXPIRY:" ++ decimalInt 1000001 ++ ascii ":").length = 15 := by decide
    unfold expiryValue
    rw [List.length_append, hfront, hlen]
    omega
  rcases set_long (e := start [] 1 1) rfl (put_one [107] _) (by decide) hstored 1 with
    ⟨e₁, hset₁, h₁⟩
  refine ⟨e₁, ?_, h₁⟩
  have hstoi : stoi (ascii "1000") = some 1000 := by decide
  have hdeadline : (expiryNs (ExecEnv.calm 1).nowNs 1000).tdiv (10 ^ 6) = 1000001 := by decide
  rw [execute_ttl]
  unfold executeTtl
  simp only [hstoi, hdeadline]
  rw [if_pos (by decide)]
  show respond _ ((start [] 1 1).set [107] (expiryValue 1000001 (join [w])) (Env.calm 1)) = _
  unfold join
  rw [List.intercalate_singleton, hset₁]
  rfl

/-- Below the cache a value of `2 ^ 32` bytes, the deadline included, is the
empty one. -/
theorem ttl_long_value_lost :
    ¬ ∀ (w : Bytes) (e₁ : LSMEngine), w ≠ [] → (∀ b ∈ w, ¬ isSpace b) →
      execute ⟨ascii "TTL", [ascii "k", ascii "1000", w]⟩ (start [] 1 1) (ExecEnv.calm 1) =
        .returned (ascii "OK\n") e₁ →
      ∀ mid e₂, (∀ ev ∈ mid, NoIoError ev ∧ ¬ writesKey (ascii "k") ev.op ∧
          ev.op ≠ .get (ascii "k")) →
        Machine.Along LSMEngine.step Fresh e₁ mid →
        Machine.run LSMEngine.step e₁ mid = some e₂ →
        e₂.answer (ascii "k") 5 = some (some w) := by
  intro hall
  have hlong : ∃ w : Bytes, w.length = 2 ^ 32 - 15 ∧ ∀ b ∈ w, ¬ isSpace b :=
    ⟨List.replicate (2 ^ 32 - 15) 120, List.length_replicate,
      fun b hb => by rw [List.eq_of_mem_replicate hb]; decide⟩
  rcases hlong with ⟨w, hlen, hspace⟩
  have hne : w ≠ [] := by
    rintro rfl
    cases hlen
  -- the command flushes the value, and the next write drops it from the cache
  rcases execute_ttl_long hlen with ⟨e₁, hexecute, h₁⟩
  rcases dropped_long h₁ with ⟨e₂, hset₂, hfresh, hread⟩
  have hquiet : ∀ ev ∈ [(⟨.set [106] [118], Env.calm 2⟩ : Event)],
      NoIoError ev ∧ ¬ writesKey (ascii "k") ev.op ∧ ev.op ≠ .get (ascii "k") := by
    intro ev hev
    rw [List.mem_singleton.mp hev]
    refine ⟨⟨rfl, rfl⟩, ?_, nofun⟩
    show ¬ [106] = ascii "k"
    decide
  have hanswer := hall w e₁ hne hspace hexecute [⟨.set [106] [118], Env.calm 2⟩] e₂ hquiet
    (fun _ _ => ⟨hfresh, trivial⟩) (Machine.run_cons.mpr ⟨e₂, hset₂, rfl⟩)
  rcases hread 5 with ⟨e₃, hget⟩
  have hempty : e₂.answer (ascii "k") 5 = some (some []) := congrArg (Option.map Prod.fst) hget
  rw [hempty] at hanswer
  exact hne (Option.some.inj (Option.some.inj hanswer)).symm

end Parser

end VaultDB
