import VaultDB.Library.Words
import VaultDB.Parser
import VaultDB.Reads

/-! # Values through the protocol

A value is split where it has blanks and joined by single spaces, so what is
stored is what the words of the text make. It is the text itself for the texts
whose words stand at single spaces, and every other text comes back altered
(`verbatim_iff`).
-/

namespace VaultDB

open Text FileStream LSMEngine

namespace LSMEngine

/-- An engine as some run leaves it, whatever its directory and its devices. -/
def InUse (e : LSMEngine) : Prop :=
  ∃ disk dataDir cacheSize threshold now dev evs,
    Machine.run step (new disk dataDir cacheSize threshold now dev) evs = some e

variable {e e' : LSMEngine} {key value : Bytes}

theorem InUse.holding (h : InUse e) : Holding (fun _ => True) e := by
  rcases h with ⟨disk, dataDir, cacheSize, threshold, now, dev, evs, hrun⟩
  exact holding_run hrun

theorem InUse.set_isSome_iff (h : InUse e) (merges : List Env) (env : Env) :
    (∃ e', (e.background merges).set key value env = some e') ↔ 0 < e.cache.capacity := by
  rw [← cache_background e merges]
  exact (h.holding.background merges).set_isSome_iff

/-- After a write of `value`, in whatever surroundings, the cache has `value`. -/
theorem InUse.cached_set (h : InUse e) (merges : List Env) {env : Env}
    (hset : (e.background merges).set key value env = some e') :
    Assoc.get key e'.cache.contents = some value ∧ Holding (fun _ => True) e' ∧
      0 < e'.cache.capacity := by
  have hroom := (h.set_isSome_iff merges env).mp ⟨e', hset⟩
  have hcache := cache_background e merges
  have hholding := h.holding.background merges
  rcases h with ⟨disk, dataDir, cacheSize, threshold, now, dev, evs, hrun⟩
  have hcalls := calls_run hrun
  rw [← hcache] at hcalls
  rcases hholding.set trivial hset with ⟨hholding', hcap⟩
  refine ⟨?_, hholding', by rw [hcap, hcache]; exact hroom⟩
  rcases set_eq_some hset with ⟨e₁, hsteps, rfl⟩
  rcases setSteps_some hsteps with ⟨cache, hput, rfl⟩
  show Assoc.get key (LSMEngine.flushIfFull _ env.now env.dev).cache.contents = _
  rw [(flushIfFull_frame _ env.now env.dev).2]
  exact get_contents_of_put hcalls hput

/-- A read that finds a value in the cache, in whatever surroundings. -/
theorem get_found (h : Holding (fun _ => True) e) (hroom : 0 < e.cache.capacity)
    (hcached : Assoc.get key e.cache.contents = some value) (merges : List Env) (now : Nat) :
    ∃ e', (e.background merges).get key now = some (visible now (some value), e') := by
  have hholding := h.background merges
  rw [← cache_background e merges] at hroom hcached
  have hfound : (e.background merges).found key = some value := by
    unfold found
    rw [hcached, Option.some_or]
  rcases hholding.get valueClass_true key (fun _ _ => trivial) now with
    ⟨r, e', hget, -⟩ | ⟨-, hnone⟩
  · have hanswer := (get_finds hholding.cache.linked hget).answer
    rw [hfound] at hanswer
    exact ⟨e', hanswer ▸ hget⟩
  · exact absurd (Or.inl hroom) hnone

end LSMEngine

namespace Parser

/-- The texts a line can give for a value, the engine's own marks left out. -/
structure ValueText (w : Bytes) : Prop where
  oneLine : 10 ∉ w ∧ 13 ∉ w
  word : ∃ b ∈ w, ¬ isSpace b
  noTombstone : w ≠ TOMBSTONE
  noExpiry : ¬ EXPIRY_PREFIX <+: w

def setLine (key w : Bytes) : Bytes := ascii "SET " ++ (key ++ (ascii " " ++ w))

def getLine (key : Bytes) : Bytes := ascii "GET " ++ key

/-- `SET key w` is answered with `OK`, and `GET key` with the same text. -/
def Verbatim (e : LSMEngine) (env env' : ExecEnv) (key w : Bytes) : Prop :=
  ∃ e₁ e₂, execute (parse (setLine key w)) e env = .returned (ascii "OK\n") e₁ ∧
    execute (parse (getLine key)) e₁ env' = .returned (ascii "VALUE " ++ w ++ ascii "\n") e₂

/-- The line `SET key w` makes some engine find `value`. -/
def Stores (w value : Bytes) : Prop :=
  ∃ e env key e₁, InUse e ∧ IsWord key ∧
    execute (parse (setLine key w)) e env = .returned (ascii "OK\n") e₁ ∧
    e₁.found key = some value

/-! ## Lines -/

variable {key w : Bytes}

theorem isWord_name {name : Bytes} (h : name = ascii "SET" ∨ name = ascii "GET") :
    IsWord name := by
  rcases h with rfl | rfl
  · exact isWord_of_all (by decide) (by decide)
  · exact isWord_of_all (by decide) (by decide)

theorem ascii_space : ascii " " = [32] := by decide

theorem words_space {word : Bytes} (hword : IsWord word) (s : Bytes) :
    words (word ++ 32 :: s) = word :: words s := by
  have hend : ∀ b, (32 :: s).head? = some b → isSpace b := by
    rintro b ⟨rfl⟩
    decide
  rw [words_cons hword hend, words_blank (by decide)]

theorem parse_setLine (hkey : IsWord key) (w : Bytes) :
    parse (setLine key w) = ⟨ascii "SET", key :: words w⟩ := by
  have hline : setLine key w = ascii "SET" ++ 32 :: (key ++ 32 :: w) := by
    have hspace : ascii "SET " = ascii "SET" ++ [32] := by decide
    unfold setLine
    rw [hspace, ascii_space, List.append_assoc]
    rfl
  unfold parse
  rw [hline, words_space (isWord_name (Or.inl rfl)), words_space hkey]
  rfl

theorem parse_getLine (hkey : IsWord key) : parse (getLine key) = ⟨ascii "GET", [key]⟩ := by
  have hline : getLine key = ascii "GET" ++ 32 :: (key ++ []) := by
    have hspace : ascii "GET " = ascii "GET" ++ [32] := by decide
    unfold getLine
    rw [hspace, List.append_nil, List.append_assoc]
    rfl
  unfold parse
  rw [hline, words_space (isWord_name (Or.inr rfl)), @words_cons key [] hkey (by simp)]
  rfl

/-- What a line `SET key w` makes of `w`. -/
theorem execute_setLine (hkey : IsWord key) (hw : words w ≠ []) (e : LSMEngine) (env : ExecEnv) :
    execute (parse (setLine key w)) e env =
      respond (ascii "OK\n") ((e.background (env.merges 0)).set key
        ([32].intercalate (words w)) (env.calls 0)) := by
  rw [parse_setLine hkey, ← ascii_space]
  cases hwords : words w with
  | nil => exact absurd hwords hw
  | cons value values => rfl

theorem execute_getLine (hkey : IsWord key) (e : LSMEngine) (env : ExecEnv) :
    execute (parse (getLine key)) e env = executeGet [key] e env := by
  rw [parse_getLine hkey]
  rfl

/-- A line that is answered is a call of the engine that comes to an end. -/
theorem set_of_setLine {e e₁ : LSMEngine} (hkey : IsWord key) (hw : words w ≠ []) {env : ExecEnv}
    (hset : execute (parse (setLine key w)) e env = .returned (ascii "OK\n") e₁) :
    (e.background (env.merges 0)).set key ([32].intercalate (words w)) (env.calls 0) =
      some e₁ := by
  rw [execute_setLine hkey hw] at hset
  cases hcall : (e.background (env.merges 0)).set key ([32].intercalate (words w))
      (env.calls 0) with
  | none =>
      rw [hcall] at hset
      cases hset
  | some e' =>
      rw [hcall] at hset
      cases hset
      rfl

/-- A line that is answered has stored what the words of its text make. -/
theorem stored_setLine {e e₁ : LSMEngine} (h : InUse e) (hkey : IsWord key) (hw : words w ≠ [])
    {env : ExecEnv} (hset : execute (parse (setLine key w)) e env = .returned (ascii "OK\n") e₁) :
    Assoc.get key e₁.cache.contents = some ([32].intercalate (words w)) ∧
      Holding (fun _ => True) e₁ ∧ 0 < e₁.cache.capacity :=
  h.cached_set (env.merges 0) (set_of_setLine hkey hw hset)

/-- What comes back is what is visible of what was stored. -/
theorem execute_getLine_stored {e₁ : LSMEngine} (h : Holding (fun _ => True) e₁)
    (hroom : 0 < e₁.cache.capacity) (hkey : IsWord key) {value : Bytes}
    (hcached : Assoc.get key e₁.cache.contents = some value) (env : ExecEnv) :
    ∃ e₂, execute (parse (getLine key)) e₁ env =
      .returned (match visible (env.calls 0).now (some value) with
        | some actual => ascii "VALUE " ++ actual ++ ascii "\n"
        | none => ascii "NULL\n") e₂ := by
  rcases get_found h hroom hcached (env.merges 0) (env.calls 0).now with ⟨e₂, hget⟩
  rw [execute_getLine hkey]
  unfold executeGet
  simp only [hget]
  cases visible (env.calls 0).now (some value) with
  | none => exact ⟨e₂, rfl⟩
  | some actual => exact ⟨e₂, rfl⟩

theorem ValueText.plain (h : ValueText w) : Plain w :=
  ⟨h.noTombstone, parseExpiry_eq_none h.noExpiry⟩

/-- A line that stores another value than its text is not answered with the text. -/
theorem spaced_of_verbatim {e : LSMEngine} (h : InUse e) (hkey : IsWord key) (hw : ValueText w)
    {env env' : ExecEnv} (hverbatim : Verbatim e env env' key w) : Spaced w := by
  rcases hverbatim with ⟨e₁, e₂, hset, hget⟩
  rcases stored_setLine h hkey (words_ne_nil hw.word) hset with ⟨hcached, hholding, hroom⟩
  rcases execute_getLine_stored hholding hroom hkey hcached env' with ⟨e₂', hget'⟩
  rw [hget'] at hget
  have hresponse := (Outcome.returned.inj hget).1
  -- the text that is answered is as long as the one that was stored, or shorter
  have hle := length_intercalate_words_le w
  cases hvisible : visible (env'.calls 0).now (some ([32].intercalate (words w))) with
  | none =>
      rw [hvisible] at hresponse
      rw [List.append_assoc] at hresponse
      exact absurd (congrArg List.head? hresponse).symm
        (head?_append_ne (by decide) (by decide))
  | some actual =>
      rw [hvisible] at hresponse
      have hactual : actual = w := List.append_cancel_left (List.append_cancel_right hresponse)
      rcases visible_cases hvisible with heq | hlt
      · exact (intercalate_words_eq_self_iff hw.word).mp (heq.symm.trans hactual)
      · rw [hactual] at hlt
        omega

theorem verbatim_of_spaced {e : LSMEngine} (h : InUse e) (hroom : 0 < e.cache.capacity)
    (hkey : IsWord key) (hw : ValueText w) (hspaced : Spaced w) (env env' : ExecEnv) :
    Verbatim e env env' key w := by
  have heq := (intercalate_words_eq_self_iff hw.word).mpr hspaced
  rcases (h.set_isSome_iff (env.merges 0) (env.calls 0)).mpr hroom with ⟨e₁, hcall⟩
  have hset : execute (parse (setLine key w)) e env = .returned (ascii "OK\n") e₁ := by
    rw [execute_setLine hkey (words_ne_nil hw.word), heq, hcall]
    rfl
  rcases stored_setLine h hkey (words_ne_nil hw.word) hset with ⟨hcached, hholding, hroom'⟩
  rcases execute_getLine_stored hholding hroom' hkey hcached env' with ⟨e₂, hget⟩
  rw [heq, visible_eq_self_iff.mpr hw.plain] at hget
  exact ⟨e₁, e₂, hset, hget⟩

/-- What a text is stored as does not depend on the engine and the key. -/
theorem stores_iff (hw : ValueText w) {value : Bytes} :
    Stores w value ↔ value = [32].intercalate (words w) := by
  have hne := words_ne_nil hw.word
  constructor
  · rintro ⟨e, env, key, e₁, h, hkey, hset, hfound⟩
    have hcached := (stored_setLine h hkey hne hset).1
    unfold found at hfound
    rw [hcached, Option.some_or] at hfound
    exact (Option.some.inj hfound).symm
  · rintro rfl
    have h : InUse (start [] 1 1) := ⟨DataDir.empty, [], 1, 1, 0, Device.sound, [], rfl⟩
    have hkey : IsWord (ascii "k") := isWord_of_all (by decide) (by decide)
    rcases (h.set_isSome_iff ((ExecEnv.calm 0).merges 0) ((ExecEnv.calm 0).calls 0)).mpr
      (by decide) with ⟨e₁, hcall⟩
    have hset : execute (parse (setLine (ascii "k") w)) (start [] 1 1) (ExecEnv.calm 0) =
        .returned (ascii "OK\n") e₁ := by
      rw [execute_setLine hkey hne, hcall]
      rfl
    refine ⟨start [] 1 1, ExecEnv.calm 0, ascii "k", e₁, h, hkey, hset, ?_⟩
    unfold found
    rw [(stored_setLine h hkey hne hset).1, Option.some_or]

/-- For every engine in use, key and value text, in all surroundings: the text
comes back as it was given exactly when there is room for it in the cache and
its words stand at single spaces. Two different texts are never stored as the
same value exactly when they have not the same words. -/
theorem verbatim_iff {disk : DataDir} {dataDir : Bytes} {cacheSize : Nat}
    {memtableSizeBytes : UInt64} {now : Nat} {dev : Device} {evs : List Event} {e : LSMEngine}
    (hrun : Machine.run LSMEngine.step
      (LSMEngine.new disk dataDir cacheSize memtableSizeBytes now dev) evs = some e)
    (hkey : IsWord key) (hw : ValueText w) (env env' : ExecEnv) :
    (Verbatim e env env' key w ↔ 0 < e.cache.capacity ∧ Spaced w) ∧
      ∀ w', ValueText w' → w ≠ w' →
        ((¬ ∃ value, Stores w value ∧ Stores w' value) ↔ ¬ ∃ ws, Tokens w ws ∧ Tokens w' ws) := by
  have h : InUse e := ⟨disk, dataDir, cacheSize, memtableSizeBytes, now, dev, evs, hrun⟩
  refine ⟨⟨?_, ?_⟩, ?_⟩
  · intro hverbatim
    refine ⟨?_, spaced_of_verbatim h hkey hw hverbatim⟩
    rcases hverbatim with ⟨e₁, e₂, hset, -⟩
    have hcall := set_of_setLine hkey (words_ne_nil hw.word) hset
    exact (h.set_isSome_iff (env.merges 0) (env.calls 0)).mp ⟨e₁, hcall⟩
  · rintro ⟨hroom, hspaced⟩
    exact verbatim_of_spaced h hroom hkey hw hspaced env env'
  · intro w' hw' _
    rw [not_iff_not, ← intercalate_words_inj]
    constructor
    · rintro ⟨value, hstores, hstores'⟩
      rw [← (stores_iff hw).mp hstores, ← (stores_iff hw').mp hstores']
    · intro heq
      exact ⟨_, (stores_iff hw).mpr rfl, (stores_iff hw').mpr heq⟩

theorem verbatim_iff_single_space :
    Verbatim (start (ascii "./data") 10000 4194304) (ExecEnv.calm 1) (ExecEnv.calm 2) (ascii "k")
      (ascii "a b") := by
  have hw : ValueText (ascii "a b") := ⟨by decide, ⟨97, by decide, by decide⟩, by decide, by decide⟩
  have hspaced : Spaced (ascii "a b") := (intercalate_words_eq_self_iff hw.word).mp (by decide)
  have hkey : IsWord (ascii "k") := isWord_of_all (by decide) (by decide)
  exact (verbatim_iff (Machine.run_nil _) hkey hw (ExecEnv.calm 1) (ExecEnv.calm 2)).1.mpr
    ⟨by decide, hspaced⟩

/-- Two spaces come back as one, and the texts with one and with two are stored
as the same value. -/
theorem double_space_lost :
    ValueText (ascii "a  b") ∧ ValueText (ascii "a b") ∧
      ¬ Verbatim (start (ascii "./data") 10000 4194304) (ExecEnv.calm 1) (ExecEnv.calm 2)
        (ascii "k") (ascii "a  b") ∧
      ∃ value, Stores (ascii "a  b") value ∧ Stores (ascii "a b") value := by
  have hdouble : ValueText (ascii "a  b") :=
    ⟨by decide, ⟨97, by decide, by decide⟩, by decide, by decide⟩
  have hsingle : ValueText (ascii "a b") :=
    ⟨by decide, ⟨97, by decide, by decide⟩, by decide, by decide⟩
  refine ⟨hdouble, hsingle, ?_, ?_⟩
  · intro hverbatim
    have h : InUse (start (ascii "./data") 10000 4194304) :=
      ⟨DataDir.empty, _, _, _, 0, Device.sound, [], rfl⟩
    have hkey : IsWord (ascii "k") := isWord_of_all (by decide) (by decide)
    have hspaced := spaced_of_verbatim h hkey hdouble hverbatim
    exact absurd ((intercalate_words_eq_self_iff hdouble.word).mpr hspaced) (by decide)
  · exact ⟨ascii "a b", (stores_iff hdouble).mpr (by decide), (stores_iff hsingle).mpr (by decide)⟩

end Parser

end VaultDB
