import VaultDB.Library.Python
import VaultDB.Parser
import VaultDB.Statistics

/-! # Clients of the statistics

`STATS` answers with one line of figures. Two clients in Python take it apart:
`api/dashboard_api.py`, which serves the figures to the dashboard as JSON, and
`cli/vault_cli.py`, which prints them. Both call `recv` once, so that what they
take apart is any first part of the line.

The dashboard is never told a wrong figure other than the one the line breaks
off in, and the bridge never fails (`stats_served`). The command line client
does not ask whether a part has an equals sign, and fails exactly where the
line breaks off in a name (`stats_raises_iff`).
-/

namespace VaultDB

open Text FileStream Pieces

/-- A figure of `STATS`, and what is printed behind its number. -/
structure Figure where
  name : Bytes
  number : Int
  unit : Bytes
deriving Repr, DecidableEq

def Figure.text (f : Figure) : Bytes := f.name ++ 61 :: (decimalInt f.number ++ f.unit)

/-- The figures in the order of the reply. -/
def figures (stats : LSMEngine.Stats) : List Figure :=
  [⟨ascii "writes", stats.writeCount.toNat, []⟩,
    ⟨ascii "reads", stats.readCount.toNat, []⟩,
    ⟨ascii "cache_hits", stats.cacheHits.toNat, []⟩,
    ⟨ascii "cache_size", stats.cacheSize, []⟩,
    ⟨ascii "memtable_bytes", stats.memtableSizeBytes.toNat, []⟩,
    ⟨ascii "memtable_entries", stats.memtableEntries, []⟩,
    ⟨ascii "sstables", stats.sstableCount, []⟩,
    ⟨ascii "cache_hit_rate", Parser.castInt stats.cacheHitRate, ascii "%"⟩,
    ⟨ascii "bloom_saved", stats.bloomFilterSavedReads.toNat, []⟩]

/-- The line that carries the figures. -/
def statsLine (fs : List Figure) : Bytes :=
  ascii "STATS" ++ (spread 32 (fs.map Figure.text) ++ [10])

/-- `sock.recv(4096).decode().strip()`, given what has arrived at the time.
`none` where that is not ASCII. -/
def receive (arrived : Bytes) : Option Bytes :=
  let data := arrived.take 4096
  if data.all fun b => b < 128 then some (Python.strip data) else none

/-! ## The API bridge -/

namespace Bridge

/-- A value of the JSON object. -/
inductive Entry (φ : Type) where
  | int (n : Int)
  | float (x : φ)
  | text (s : Bytes)

abbrev Dict (φ : Type) := List (Bytes × Entry φ)

/-- How `do_GET` ends: with the object it sends, with 404, or with a
`ValueError`. -/
inductive Reply (φ : Type) where
  | json (code : Nat) (body : Dict φ)
  | notFound
  | raised

variable {φ : Type} (float : Bytes → Option φ)

/-- `d[key] = entry`: a new key comes last. -/
def store (key : Bytes) (entry : Entry φ) : Dict φ → Dict φ
  | [] => [(key, entry)]
  | p :: dict => if p.1 = key then (key, entry) :: dict else p :: store key entry dict

/-- The value of a part as a number if it can be one. -/
def convert (val : Bytes) : Entry φ :=
  let val := val.filter fun b => b ≠ 37
  let number := if 46 ∈ val then (float val).map Entry.float else (Python.int val).map Entry.int
  number.getD (Entry.text val)

/-- One turn of the loop over the parts; `none` where unpacking raises. -/
def readPart (dict : Dict φ) (part : Bytes) : Option (Dict φ) :=
  if 61 ∈ part then
    match part.splitOn 61 with
    | [key, val] => some (store key (convert float val) dict)
    | _ => none
  else some dict

def readStats (response : Bytes) : Option (Dict φ) :=
  let dict := [(ascii "status", Entry.text (ascii "online"))]
  if ascii "STATS" <+: response then
    (Python.split (response.drop 6)).foldlM (readPart float) dict
  else some dict

/-- `send_to_vaultdb`, given what has arrived when it calls `recv`, or the text
of the exception. -/
def sendToVaultdb : Except Bytes Bytes → Option Bytes
  | .ok arrived => receive arrived
  | .error e => some (ascii "ERROR Connection failed: " ++ e)

def doGet (path : Bytes) (arrived : Except Bytes Bytes) : Option (Reply φ) :=
  if path = ascii "/api/stats" then do
    let response ← sendToVaultdb arrived
    if ascii "ERROR" <+: response then
      return .json 503 [(ascii "status", .text (ascii "offline")), (ascii "error", .text response)]
    else
      return match readStats float response with
        | some dict => .json 200 dict
        | none => .raised
  else some .notFound

end Bridge

/-! ## The command line client -/

namespace Cli

def GREEN : Bytes := ascii "\x1b[92m"
def YELLOW : Bytes := ascii "\x1b[93m"
def RED : Bytes := ascii "\x1b[91m"
def CYAN : Bytes := ascii "\x1b[96m"
def BOLD : Bytes := ascii "\x1b[1m"
def DIM : Bytes := ascii "\x1b[2m"
def RESET : Bytes := ascii "\x1b[0m"

/-- A line for a part; `none` where unpacking raises. -/
def printPart (part : Bytes) : Option Bytes :=
  match part.splitOn 61 with
  | [key, value] =>
    some (ascii "  " ++ DIM ++ ascii "│" ++ RESET ++ ascii " " ++
      Python.title (Python.replace 95 32 key) ++ ascii ": " ++ BOLD ++ value ++ RESET)
  | _ => none

/-- `colorize_response`; `none` where it raises `ValueError`. -/
def colorizeResponse (response : Bytes) : Option Bytes :=
  if ascii "OK" <+: response then some (GREEN ++ BOLD ++ ascii "✓ " ++ response ++ RESET)
  else if ascii "VALUE" <+: response then
    some (YELLOW ++ ascii "→ " ++ response.drop 6 ++ RESET)
  else if ascii "NULL" <+: response then some (DIM ++ ascii "(nil)" ++ RESET)
  else if ascii "PONG" <+: response then some (GREEN ++ ascii "🏓 PONG" ++ RESET)
  else if ascii "STATS" <+: response then do
    let lines ← (Python.split (response.drop 6)).mapM printPart
    return [10].intercalate
      ((ascii "\n" ++ CYAN ++ BOLD ++ ascii "📊 Engine Statistics" ++ RESET) :: lines)
  else if ascii "ERROR" <+: response then some (RED ++ ascii "✗ " ++ response ++ RESET)
  else some response

/-- How the calls on the socket end. -/
inductive Received where
  | data (arrived : Bytes)
  | timeout
  | brokenPipe

/-- `send_command`. -/
def sendCommand : Received → Option Bytes
  | .data arrived => receive arrived
  | .timeout => some (ascii "ERROR Timeout waiting for server response")
  | .brokenPipe => some (ascii "ERROR Connection lost to server")

end Cli

/-! ## The line -/

/-- Names of small letters and underscores, and nothing or a percent sign
behind the number. -/
structure Figure.Plain (f : Figure) : Prop where
  name_ne_nil : f.name ≠ []
  name : ∀ b ∈ f.name, Python.islower b = true ∨ b = 95
  unit : f.unit = [] ∨ f.unit = [37]

theorem decimalInt_natCast (n : Nat) : decimalInt n = decimal n := by
  unfold decimalInt
  rw [if_neg (by omega), Int.natAbs_natCast]

/-- What `STATS` answers. -/
theorem execute_stats (e : LSMEngine) (env : ExecEnv) :
    Parser.execute (Parser.parse (ascii "STATS")) e env =
      .returned (statsLine (figures (e.background (env.merges 0)).getStats))
        (e.background (env.merges 0)) := by
  have hparse : Parser.parse (ascii "STATS") = ⟨ascii "STATS", []⟩ := by decide
  have hexec : Parser.execute ⟨ascii "STATS", []⟩ e env = Parser.executeStats e env := rfl
  rw [hparse, hexec]
  unfold Parser.executeStats statsLine figures
  simp only [List.map_cons, List.map_nil, spread_cons, spread_nil, Figure.text,
    decimalInt_natCast, List.append_assoc, List.cons_append, List.append_nil]
  rfl

theorem Figure.plain {name unit : Bytes} {number : Int} (hne : name ≠ [])
    (hname : name.all (fun b => Python.islower b || b = 95) = true)
    (hunit : unit = [] ∨ unit = [37]) : (Figure.mk name number unit).Plain := by
  refine ⟨hne, ?_, hunit⟩
  intro b hb
  simpa using List.all_eq_true.mp hname b hb

theorem figures_plain (stats : LSMEngine.Stats) : ∀ f ∈ figures stats, f.Plain := by
  intro f hf
  simp only [figures, List.mem_cons, List.not_mem_nil, or_false] at hf
  rcases hf with rfl | rfl | rfl | rfl | rfl | rfl | rfl | rfl | rfl <;>
    exact Figure.plain (by decide) (by decide) (by decide)

/-- No name stands twice, and none is that of the state of the server. -/
theorem figures_nodup (stats : LSMEngine.Stats) :
    (ascii "status" :: (figures stats).map Figure.name).Nodup := by
  have hnames : (figures stats).map Figure.name =
      [ascii "writes", ascii "reads", ascii "cache_hits", ascii "cache_size",
        ascii "memtable_bytes", ascii "memtable_entries", ascii "sstables",
        ascii "cache_hit_rate", ascii "bloom_saved"] := rfl
  rw [hnames]
  decide

/-- The bytes of a figure are printed ones, and no blanks. -/
theorem Figure.Plain.mem_text {f : Figure} (h : f.Plain) {b : UInt8} (hb : b ∈ f.text) :
    33 ≤ b.toNat ∧ b.toNat < 128 := by
  have hnumber : ∀ c ∈ decimalInt f.number, 33 ≤ c.toNat ∧ c.toNat < 128 := by
    intro c hc
    by_contra hout
    exact notMem_decimalInt (by rintro rfl; exact hout (by decide)) (by omega) hc
  unfold Figure.text at hb
  simp only [List.mem_append, List.mem_cons] at hb
  rcases hb with hb | rfl | hb | hb
  · rcases h.name b hb with hlower | rfl
    · unfold Python.islower at hlower
      simp only [Bool.and_eq_true, decide_eq_true_iff, UInt8.le_iff_toNat_le] at hlower
      obtain ⟨hle, hge⟩ := hlower
      exact ⟨le_trans (by decide) hle, lt_of_le_of_lt hge (by decide)⟩
    · decide
  · decide
  · exact hnumber b hb
  · rcases h.unit with hunit | hunit
    · rw [hunit] at hb
      cases hb
    · rw [hunit, List.mem_singleton] at hb
      rw [hb]
      decide

theorem Figure.Plain.word {f : Figure} (h : f.Plain) :
    f.text ≠ [] ∧ ∀ b ∈ f.text, Python.isspace b = false := by
  refine ⟨by simp [Figure.text], ?_⟩
  intro b hb
  have hprinted := h.mem_text hb
  rw [← Bool.not_eq_true, Python.isspace_iff]
  omega

theorem Figure.Plain.notMem_name {f : Figure} (h : f.Plain) : (61 : UInt8) ∉ f.name := by
  intro hmem
  rcases h.name 61 hmem with hlower | heq
  · exact absurd hlower (by decide)
  · exact absurd heq (by decide)

theorem Figure.Plain.notMem_value {f : Figure} (h : f.Plain) {b : UInt8} (hb : b = 61 ∨ b = 46) :
    b ∉ decimalInt f.number ++ f.unit := by
  rw [List.mem_append, not_or]
  refine ⟨notMem_decimalInt ?_ ?_, ?_⟩
  · rcases hb with rfl | rfl <;> decide
  · rcases hb with rfl | rfl <;> decide
  · rcases h.unit with hunit | hunit <;> rcases hb with rfl | rfl <;> rw [hunit] <;> decide

/-! ## What arrives of it -/

section Prefix

variable {fs : List Figure} (hfs : ∀ f ∈ fs, f.Plain)
include hfs

theorem plain_words : ∀ w ∈ fs.map Figure.text, w ≠ [] ∧ ∀ b ∈ w, Python.isspace b = false := by
  intro w hw
  rcases List.mem_map.mp hw with ⟨f, hf, rfl⟩
  exact (hfs f hf).word

theorem statsLine_ascii {b : UInt8} (hb : b ∈ statsLine fs) : b < 128 := by
  unfold statsLine spread at hb
  simp only [List.mem_append, List.mem_flatMap, List.mem_map, List.mem_cons, List.not_mem_nil,
    or_false] at hb
  rcases hb with hb | ⟨w, ⟨f, hf, rfl⟩, rfl | hb⟩ | rfl
  · have hword : (ascii "STATS").all (fun b => b < 128) = true := by decide
    exact of_decide_eq_true (List.all_eq_true.mp hword b hb)
  · decide
  · rw [UInt8.lt_iff_toNat_lt]
    exact ((hfs f hf).mem_text hb).2
  · decide

/-- Where the line breaks off: before the figures, behind some of them, or in
the one that follows these. -/
theorem spread_figures_prefix {q : Bytes} (hq : q <+: spread 32 (fs.map Figure.text)) :
    ∃ before after, fs = before ++ after ∧
      (pieces Python.isspace q = before.map Figure.text ∨
        ∃ f later part, after = f :: later ∧ part ≠ [] ∧ part <+: f.text ∧
          q = spread 32 (before.map Figure.text) ++ 32 :: part ∧
          pieces Python.isspace q = before.map Figure.text ++ [part]) := by
  rcases spread_prefix hq with ⟨texts, rest, hsplit, hcut⟩
  rcases List.map_eq_append_iff.mp hsplit with ⟨before, after, rfl, rfl, rfl⟩
  have hwords := plain_words fun f hf => hfs f (List.mem_append_left after hf)
  refine ⟨before, after, rfl, ?_⟩
  rcases hcut with rfl | ⟨w, later, part, hafter, hpart, rfl⟩
  · exact Or.inl (pieces_spread (by decide) hwords)
  · rcases List.map_eq_cons_iff.mp hafter with ⟨f, later, rfl, rfl, rfl⟩
    have hpieces := pieces_spread_append (c := 32) (by decide) hwords part
    by_cases hnil : part = []
    · rw [hnil] at hpieces ⊢
      rw [pieces_nil, List.append_nil] at hpieces
      exact Or.inl hpieces
    · have hf := (hfs f (by simp)).word
      rw [pieces_word hnil fun b hb => hf.2 b (hpart.subset hb)] at hpieces
      exact Or.inr ⟨f, later, part, rfl, hnil, hpart, rfl, hpieces⟩

theorem receive_prefix {arrived : Bytes} (h : arrived <+: statsLine fs) :
    receive arrived = some (Python.strip (arrived.take 4096)) := by
  unfold receive
  dsimp only
  refine if_pos (List.all_eq_true.mpr ?_)
  intro b hb
  exact decide_eq_true (statsLine_ascii hfs (h.subset (List.mem_of_mem_take hb)))

omit hfs in
/-- The line breaks off in its first word, or behind it, or all of it is there. -/
theorem statsLine_prefix {p : Bytes} (hp : p <+: statsLine fs) :
    (p <+: ascii "STATS" ∧ p ≠ ascii "STATS") ∨
      ∃ q blanks, p = ascii "STATS" ++ (q ++ blanks) ∧ q <+: spread 32 (fs.map Figure.text) ∧
        (blanks = [] ∨ blanks = [10] ∧ q = spread 32 (fs.map Figure.text)) := by
  by_cases heq : p = ascii "STATS"
  · exact Or.inr ⟨[], [], by simpa using heq, List.nil_prefix, Or.inl rfl⟩
  rcases prefix_append hp with hshort | ⟨r, rfl, hr⟩
  · exact Or.inl ⟨hshort, heq⟩
  · rcases prefix_append hr with hq | ⟨blanks, rfl, hblanks⟩
    · exact Or.inr ⟨r, [], by rw [List.append_nil], hq, Or.inl rfl⟩
    · refine Or.inr ⟨_, blanks, rfl, List.prefix_refl _, ?_⟩
      rcases List.prefix_cons_iff.mp hblanks with hnil | ⟨t, rfl, ht⟩
      · exact Or.inl hnil
      · rw [List.prefix_nil.mp ht]
        exact Or.inr ⟨rfl, rfl⟩

end Prefix

theorem isspace_lineFeed {blanks : Bytes} (h : blanks = [] ∨ blanks = [10]) :
    ∀ b ∈ blanks, Python.isspace b := by
  intro b hb
  rcases h with rfl | rfl
  · cases hb
  · rw [List.mem_singleton.mp hb]
    rfl

/-- Both clients see the first word again, and the parts behind it. -/
theorem strip_stats {ws : List Bytes} {q blanks : Bytes} (hq : q <+: spread 32 ws)
    (h : blanks = [] ∨ blanks = [10] ∧ q = spread 32 ws) :
    ∃ t, Python.strip (ascii "STATS" ++ (q ++ blanks)) = ascii "STATS" ++ t ∧
      Python.split ((ascii "STATS" ++ t).drop 6) = pieces Python.isspace q := by
  have hblanks := isspace_lineFeed (h.imp_right And.left)
  refine ⟨(q ++ blanks).rdropWhile Python.isspace, ?_, ?_⟩
  · unfold Python.strip
    have hleft : (ascii "STATS" ++ (q ++ blanks)).dropWhile Python.isspace =
        ascii "STATS" ++ (q ++ blanks) := rfl
    rw [hleft, rdropWhile_append (by decide)]
  · have hhead : ∀ b, ((q ++ blanks).rdropWhile Python.isspace).head? = some b →
        Python.isspace b := by
      intro b hb
      obtain ⟨r, hr⟩ := List.rdropWhile_prefix (p := Python.isspace) (q ++ blanks)
      have hfirst : (q ++ blanks).head? = some b := by
        rw [← hr, List.head?_append, hb]
        rfl
      cases q with
      | nil => exact hblanks b (List.mem_of_mem_head? hfirst)
      | cons c q =>
          rw [← Option.some.inj hfirst, spread_head hq]
          decide
    have hdrop : ∀ t, (ascii "STATS" ++ t).drop 6 = t.tail := fun t => by
      cases t <;> rfl
    rw [hdrop]
    unfold Python.split
    rw [pieces_tail hhead, pieces_rdropWhile, pieces_append_separators q hblanks]

/-- Neither client takes the line for another reply. -/
theorem not_prefix_stats {word t : Bytes} (hne : word ≠ []) (h : word.head? ≠ some 83) :
    ¬ word <+: ascii "STATS" ++ t := by
  rintro ⟨r, hr⟩
  have hhead := congrArg List.head? hr
  rw [List.head?_append_of_ne_nil _ hne] at hhead
  exact h hhead

/-- Before the first word is complete, there is no figure and no reply of
another kind. -/
theorem strip_short {p : Bytes} (hp : p <+: ascii "STATS") (hne : p ≠ ascii "STATS") :
    Python.strip p = p ∧ ∀ word ∈ [ascii "OK", ascii "VALUE", ascii "NULL", ascii "PONG",
      ascii "STATS", ascii "ERROR"], ¬ word <+: p := by
  have hall : ∀ p ∈ (ascii "STATS").inits, p ≠ ascii "STATS" → Python.strip p = p ∧
      ∀ word ∈ [ascii "OK", ascii "VALUE", ascii "NULL", ascii "PONG", ascii "STATS",
        ascii "ERROR"], ¬ word <+: p := by
    decide
  exact hall p ((List.mem_inits p _).mpr hp) hne

/-! ## What the dashboard is told -/

namespace Bridge

variable {φ : Type} (float : Bytes → Option φ)

/-- A figure that arrived whole. -/
def whole (f : Figure) : Bytes × Entry φ := (f.name, .int f.number)

/-- The first figures, and perhaps one more that lacks the end of its number. -/
def Shown (fs : List Figure) (shown : Dict φ) : Prop :=
  ∃ before after, fs = before ++ after ∧ (shown = before.map whole ∨
    ∃ f later read, after = f :: later ∧ read <+: decimalInt f.number ++ f.unit ∧
      shown = before.map whole ++ [(f.name, convert float read)])

/-- A key that is new comes last. -/
theorem store_new {key : Bytes} {entry : Entry φ} {dict : Dict φ}
    (h : key ∉ dict.map Prod.fst) : store key entry dict = dict ++ [(key, entry)] := by
  induction dict with
  | nil => rfl
  | cons p dict ih =>
      rw [List.map_cons, List.mem_cons, not_or] at h
      obtain ⟨hne, hrest⟩ := h
      unfold store
      rw [if_neg (Ne.symm hne), ih hrest, List.cons_append]

/-- A number that arrived whole is read as that number, its unit left off. -/
theorem convert_value {f : Figure} (h : f.Plain) :
    convert float (decimalInt f.number ++ f.unit) = .int f.number := by
  have hfilter : (decimalInt f.number ++ f.unit).filter (fun b => b ≠ 37) =
      decimalInt f.number := by
    have hnumber : (decimalInt f.number).filter (fun b => b ≠ 37) = decimalInt f.number := by
      rw [List.filter_eq_self]
      intro b hb
      have hne : b ≠ 37 := by
        rintro rfl
        exact notMem_decimalInt (by decide) (by decide) hb
      simpa using hne
    rw [List.filter_append, hnumber]
    rcases h.unit with hunit | hunit <;> rw [hunit] <;> simp
  have hdot : 46 ∉ decimalInt f.number := by
    have h46 := h.notMem_value (Or.inr rfl)
    rw [List.mem_append, not_or] at h46
    exact h46.1
  unfold convert
  dsimp only
  rw [hfilter, if_neg hdot, Python.int_decimalInt]
  rfl

theorem readPart_assignment {name value : Bytes} (hname : (61 : UInt8) ∉ name)
    (hvalue : (61 : UInt8) ∉ value) (dict : Dict φ) :
    readPart float dict (name ++ 61 :: value) =
      some (store name (convert float value) dict) := by
  unfold readPart
  rw [if_pos (by simp), splitOn_assignment hname hvalue]

/-- The parts of figures that arrived whole. -/
theorem foldlM_readPart {fs : List Figure} (hfs : ∀ f ∈ fs, f.Plain) {dict : Dict φ}
    (hnew : (dict.map Prod.fst ++ fs.map Figure.name).Nodup) :
    (fs.map Figure.text).foldlM (readPart float) dict = some (dict ++ fs.map whole) := by
  induction fs generalizing dict with
  | nil => rw [List.map_nil, List.map_nil, List.append_nil]; rfl
  | cons f fs ih =>
      have hf := hfs f List.mem_cons_self
      have hfresh : f.name ∉ dict.map Prod.fst := by
        intro hmem
        exact (List.nodup_append.mp hnew).2.2 _ hmem _ List.mem_cons_self rfl
      have hstep : readPart float dict f.text = some (dict ++ [whole f]) := by
        unfold Figure.text
        rw [readPart_assignment float hf.notMem_name (hf.notMem_value (Or.inl rfl)),
          convert_value float hf, store_new hfresh]
        rfl
      rw [List.map_cons, List.foldlM_cons, hstep]
      have hrest := @ih (fun g hg => hfs g (List.mem_cons_of_mem f hg)) (dict ++ [whole f])
        (by simpa [whole] using hnew)
      simpa using hrest

/-- What the bridge makes of the parts of a line that breaks off behind `q`. -/
theorem readStats_prefix {fs : List Figure} (hfs : ∀ f ∈ fs, f.Plain)
    (hnames : (ascii "status" :: fs.map Figure.name).Nodup) {q t : Bytes}
    (hq : q <+: spread 32 (fs.map Figure.text))
    (hsplit : Python.split ((ascii "STATS" ++ t).drop 6) = pieces Python.isspace q) :
    ∃ shown, readStats float (ascii "STATS" ++ t) =
        some ((ascii "status", .text (ascii "online")) :: shown) ∧ Shown float fs shown ∧
      (q = spread 32 (fs.map Figure.text) → shown = fs.map whole) := by
  have hread : readStats float (ascii "STATS" ++ t) = (pieces Python.isspace q).foldlM
      (readPart float) [(ascii "status", .text (ascii "online"))] := by
    unfold readStats
    rw [if_pos (List.prefix_append _ t), hsplit]
  have hfirst : ∀ {before after}, fs = before ++ after → (before.map Figure.text).foldlM
      (readPart float) [(ascii "status", .text (ascii "online"))] =
        some ((ascii "status", .text (ascii "online")) :: before.map whole) := by
    rintro before after rfl
    refine foldlM_readPart float (fun f hf => hfs f (List.mem_append_left after hf)) ?_
    rw [List.map_append] at hnames
    exact hnames.sublist (List.Sublist.cons_cons _ (List.sublist_append_left _ _))
  have hshown : ∃ shown, readStats float (ascii "STATS" ++ t) =
      some ((ascii "status", .text (ascii "online")) :: shown) ∧ Shown float fs shown := by
    rcases spread_figures_prefix hfs hq with ⟨before, after, hsplit', hcut⟩
    have hbefore := hfirst hsplit'
    rcases hcut with hpieces | ⟨f, later, part, rfl, hnil, hpart, -, hpieces⟩
    · rw [hread, hpieces, hbefore]
      exact ⟨_, rfl, before, after, hsplit', Or.inl rfl⟩
    · rw [hread, hpieces, List.foldlM_append, hbefore]
      have hf := hfs f (by simp [hsplit'])
      rcases assignment_prefix hpart with hname | ⟨read, rfl, hvalue⟩
      · -- the part has no equals sign and is passed over
        have hnone : (61 : UInt8) ∉ part := fun h61 => hf.notMem_name (hname.subset h61)
        refine ⟨before.map whole, ?_, before, f :: later, hsplit', Or.inl rfl⟩
        simp [readPart, hnone]
      · have h61 : (61 : UInt8) ∉ read :=
          fun h61 => hf.notMem_value (Or.inl rfl) (hvalue.subset h61)
        have hnew : f.name ∉ ((ascii "status", Entry.text (ascii "online")) ::
            before.map (@whole φ)).map Prod.fst := by
          intro hmem
          rw [hsplit', List.map_append, ← List.cons_append] at hnames
          refine (List.nodup_append.mp hnames).2.2 f.name ?_ f.name List.mem_cons_self rfl
          simpa [whole, Function.comp_def] using hmem
        refine ⟨_, ?_, before, f :: later, hsplit', Or.inr ⟨f, later, read, rfl, hvalue, rfl⟩⟩
        simp [readPart_assignment float hf.notMem_name h61, store_new hnew]
  obtain ⟨shown, hstats, hpart⟩ := hshown
  refine ⟨shown, hstats, hpart, ?_⟩
  rintro rfl
  have hall := hfirst (List.append_nil fs).symm
  rw [hread, pieces_spread (by decide) (plain_words hfs), hall] at hstats
  simpa using hstats.symm

/-- Whatever part of the line `recv` returns, the dashboard is told the figures
in it. -/
theorem doGet_prefix {fs : List Figure} (hfs : ∀ f ∈ fs, f.Plain)
    (hnames : (ascii "status" :: fs.map Figure.name).Nodup) {arrived : Bytes}
    (harrived : arrived <+: statsLine fs) :
    ∃ shown, doGet float (ascii "/api/stats") (.ok arrived) =
        some (.json 200 ((ascii "status", .text (ascii "online")) :: shown)) ∧
      Shown float fs shown ∧ (arrived.take 4096 = statsLine fs → shown = fs.map whole) := by
  have hdata : arrived.take 4096 <+: statsLine fs := (List.take_prefix 4096 arrived).trans harrived
  have hget : ∀ {response : Bytes} {shown : Dict φ}, Python.strip (arrived.take 4096) = response →
      ¬ ascii "ERROR" <+: response → readStats float response = some shown →
      doGet float (ascii "/api/stats") (.ok arrived) = some (.json 200 shown) := by
    intro response shown hstrip herror hread
    have hsend : sendToVaultdb (.ok arrived) = some response := by
      rw [← hstrip]
      exact receive_prefix hfs harrived
    simp [doGet, hsend, herror, hread]
  rcases statsLine_prefix hdata with ⟨hshort, hne⟩ | ⟨q, blanks, hp, hq, hblanks⟩
  · obtain ⟨hstrip, hnot⟩ := strip_short hshort hne
    have hread : readStats float (arrived.take 4096) =
        some [(ascii "status", .text (ascii "online"))] := by
      unfold readStats
      rw [if_neg (hnot _ (by simp))]
    refine ⟨[], hget hstrip (hnot _ (by simp)) hread, ⟨[], fs, rfl, Or.inl rfl⟩, ?_⟩
    intro heq
    exact absurd (List.prefix_append (ascii "STATS") _) (heq ▸ hnot (ascii "STATS") (by simp))
  · obtain ⟨t, hstrip, hsplit⟩ := strip_stats hq hblanks
    obtain ⟨shown, hread, hshown, hwhole⟩ := readStats_prefix float hfs hnames hq hsplit
    rw [← hp] at hstrip
    refine ⟨shown, hget hstrip (not_prefix_stats (by decide) (by decide)) hread, hshown, ?_⟩
    intro heq
    refine hwhole ?_
    rcases hblanks with rfl | ⟨-, hall⟩
    · -- nothing is missing but the line feed would be
      rw [heq, List.append_nil] at hp
      have hrest := List.append_cancel_left hp
      rw [← hrest] at hq
      have hle := hq.length_le
      rw [List.length_append] at hle
      exact absurd hle (by simp)
    · exact hall

end Bridge

/-- The statistics of an engine that counted these calls since it was constructed:
the counters have 64 bits, and the hit rate is that of the counters. -/
def countedStats (stats : LSMEngine.Stats) (writes reads hits : Nat) : LSMEngine.Stats :=
  { stats with
    writeCount := UInt64.ofNat writes
    readCount := UInt64.ofNat reads
    cacheHits := UInt64.ofNat hits
    cacheHitRate := LSMEngine.hitRate (UInt64.ofNat hits) (UInt64.ofNat reads) }

theorem getStats_eq_counted {e : LSMEngine} {writes reads hits : Nat}
    (hwrites : e.writeCount = UInt64.ofNat writes) (hreads : e.readCount = UInt64.ofNat reads)
    (hhits : e.cacheHits = UInt64.ofNat hits) :
    e.getStats = countedStats e.getStats writes reads hits := by
  unfold LSMEngine.getStats countedStats
  rw [hwrites, hreads, hhits]

/-- After any run from any data directory `/api/stats` is answered, whatever
part of the line has arrived: with the numbers of writes, of reads and of reads
from the cache in that run, the rate of these, and the sizes of the engine, as
far as they have arrived. Only the last figure can lack the end of its number,
and nothing is missing once the line is there and fits the 4096 bytes. -/
theorem stats_served {φ : Type} (float : Bytes → Option φ) {disk : DataDir} {dataDir : Bytes}
    {cacheSize : Nat} {memtableSizeBytes : UInt64} {now : Nat} {dev : Device} {evs : List Event}
    {e₀ e : LSMEngine} (hnew : LSMEngine.new disk dataDir cacheSize memtableSizeBytes now dev = e₀)
    (hrun : Machine.run LSMEngine.step e₀ evs = some e) (env : ExecEnv) (n : Nat) :
    ∃ line e' shown fs,
      Parser.execute (Parser.parse (ascii "STATS")) e env = .returned line e' ∧
      fs = figures (countedStats e'.getStats (evs.countP fun ev => LSMEngine.isWrite ev.op)
        (evs.countP fun ev => LSMEngine.isRead ev.op) (LSMEngine.hitCount e₀ evs)) ∧
      Bridge.doGet float (ascii "/api/stats") (.ok (line.take n)) =
        some (.json 200 ((ascii "status", .text (ascii "online")) :: shown)) ∧
      Bridge.Shown float fs shown ∧
      (line.length ≤ min n 4096 → shown = fs.map Bridge.whole) := by
  obtain ⟨hwrites₀, hreads₀, hhits₀⟩ := LSMEngine.counted_new disk dataDir cacheSize
    memtableSizeBytes dev hnew
  obtain ⟨hwrites, hreads, hhits⟩ := LSMEngine.counted_run hrun
  obtain ⟨hwrites', hreads', hhits'⟩ := LSMEngine.uncounted_background e (env.merges 0)
  rw [hwrites, hwrites₀, UInt64.zero_add] at hwrites'
  rw [hreads, hreads₀, UInt64.zero_add] at hreads'
  rw [hhits, hhits₀, UInt64.zero_add] at hhits'
  have hexec := execute_stats e env
  rw [getStats_eq_counted hwrites' hreads' hhits'] at hexec
  obtain ⟨shown, hget, hshown, hwhole⟩ := Bridge.doGet_prefix float (figures_plain _)
    (figures_nodup _) (List.take_prefix n _)
  refine ⟨_, _, shown, _, hexec, rfl, hget, hshown, ?_⟩
  intro hle
  refine hwhole ?_
  rw [List.take_take, List.take_of_length_le (by omega)]

theorem stats_served_twoCalls :
    ∃ e line e' shown fs,
      Machine.run LSMEngine.step (LSMEngine.start [] 1 1)
        [⟨.set (ascii "k") (ascii "v"), Env.calm 1⟩, ⟨.get (ascii "k"), Env.calm 2⟩] = some e ∧
      Parser.execute (Parser.parse (ascii "STATS")) e (ExecEnv.calm 3) = .returned line e' ∧
      fs = figures (countedStats e'.getStats 1 1 1) ∧
      Bridge.doGet (fun _ => (none : Option Unit)) (ascii "/api/stats") (.ok (line.take 20)) =
        some (.json 200 ((ascii "status", .text (ascii "online")) :: shown)) ∧
      Bridge.Shown (fun _ => (none : Option Unit)) fs shown := by
  obtain ⟨e, hrun⟩ : ∃ e, Machine.run LSMEngine.step (LSMEngine.start [] 1 1)
      [⟨.set (ascii "k") (ascii "v"), Env.calm 1⟩, ⟨.get (ascii "k"), Env.calm 2⟩] = some e :=
    Option.isSome_iff_exists.mp (by decide +kernel)
  obtain ⟨line, e', shown, fs, hexec, hfs, hget, hshown, -⟩ :=
    stats_served (fun _ => (none : Option Unit)) rfl hrun (ExecEnv.calm 3) 20
  have hhits : LSMEngine.hitCount (LSMEngine.new DataDir.empty [] 1 1 0 Device.sound)
      [⟨.set (ascii "k") (ascii "v"), Env.calm 1⟩, ⟨.get (ascii "k"), Env.calm 2⟩] = 1 := by
    decide +kernel
  rw [hhits] at hfs
  exact ⟨e, line, e', shown, fs, hrun, hexec, hfs, hget, hshown⟩

/-! ## What is printed -/

namespace Cli

/-- The line breaks off in a name. -/
def BreaksInName (fs : List Figure) (p : Bytes) : Prop :=
  ∃ before f after cut, fs = before ++ f :: after ∧ cut ≠ [] ∧ cut <+: f.name ∧
    p = ascii "STATS" ++ (spread 32 (before.map Figure.text) ++ 32 :: cut)

theorem printPart_eq_none {part : Bytes} (h : (61 : UInt8) ∉ part) : printPart part = none := by
  unfold printPart
  rw [List.splitOn_eq_singleton h]

theorem printPart_assignment {name value : Bytes} (hname : (61 : UInt8) ∉ name)
    (hvalue : (61 : UInt8) ∉ value) : ∃ line, printPart (name ++ 61 :: value) = some line := by
  unfold printPart
  rw [splitOn_assignment hname hvalue]
  exact ⟨_, rfl⟩

theorem printPart_text {f : Figure} (h : f.Plain) : printPart f.text ≠ none := by
  obtain ⟨line, hline⟩ := printPart_assignment h.notMem_name (h.notMem_value (Or.inl rfl))
  intro hnone
  exact Option.some_ne_none line (hline.symm.trans hnone)

/-- The loop over the parts raises where it does for one of them. -/
theorem mapM_printPart_eq_none {parts : List Bytes} :
    parts.mapM printPart = none ↔ ∃ part ∈ parts, printPart part = none := by
  induction parts with
  | nil => simp
  | cons part parts ih =>
      rw [List.mapM_cons]
      cases hpart : printPart part with
      | none => simp [hpart]
      | some line =>
          cases hrest : parts.mapM printPart with
          | none =>
              obtain ⟨p, hp, hnone⟩ := ih.mp hrest
              simpa [hpart] using ⟨p, hp, hnone⟩
          | some lines =>
              have hall : ∀ p ∈ parts, printPart p ≠ none := by
                intro p hp hnone
                rw [ih.mpr ⟨p, hp, hnone⟩] at hrest
                cases hrest
              simpa [hpart] using hall

/-- The reply is taken for the figures, and raises where its parts do. -/
theorem colorizeResponse_stats (t : Bytes) :
    colorizeResponse (ascii "STATS" ++ t) = none ↔
      ∃ part ∈ Python.split ((ascii "STATS" ++ t).drop 6), printPart part = none := by
  rw [← mapM_printPart_eq_none]
  unfold colorizeResponse
  rw [if_neg (not_prefix_stats (by decide) (by decide)),
    if_neg (not_prefix_stats (by decide) (by decide)),
    if_neg (not_prefix_stats (by decide) (by decide)),
    if_neg (not_prefix_stats (by decide) (by decide)), if_pos (List.prefix_append _ t)]
  cases (Python.split ((ascii "STATS" ++ t).drop 6)).mapM printPart <;> simp

/-- Of parts that are figures, the last perhaps not whole, one raises exactly
where the line breaks off in a name. -/
theorem exists_printPart_iff {fs : List Figure} (hfs : ∀ f ∈ fs, f.Plain) {q blanks : Bytes}
    (hq : q <+: spread 32 (fs.map Figure.text))
    (hblanks : blanks = [] ∨ blanks = [10] ∧ q = spread 32 (fs.map Figure.text)) :
    (∃ part ∈ pieces Python.isspace q, printPart part = none) ↔
      BreaksInName fs (ascii "STATS" ++ (q ++ blanks)) := by
  have hseps := isspace_lineFeed (hblanks.imp_right And.left)
  constructor
  · rintro ⟨part, hmem, hnone⟩
    have hwhole : ∀ {gs : List Figure}, (∀ g ∈ gs, g.Plain) → part ∉ gs.map Figure.text := by
      intro gs hgs hin
      rcases List.mem_map.mp hin with ⟨g, hg, rfl⟩
      exact printPart_text (hgs g hg) hnone
    rcases spread_figures_prefix hfs hq with ⟨before, after, rfl, hcut⟩
    have hbefore := hwhole fun f hf => hfs f (List.mem_append_left after hf)
    rcases hcut with hpieces | ⟨f, later, last, rfl, hnil, hlast, hq', hpieces⟩
    · rw [hpieces] at hmem
      exact absurd hmem hbefore
    · have heq : part = last := by
        rw [hpieces, List.mem_append, List.mem_singleton] at hmem
        exact hmem.resolve_left hbefore
      subst heq
      have hf := hfs f (by simp)
      rcases assignment_prefix hlast with hname | ⟨read, rfl, hvalue⟩
      · refine ⟨before, f, later, part, rfl, hnil, hname, ?_⟩
        rcases hblanks with rfl | ⟨-, hall⟩
        · rw [hq', List.append_nil]
        · -- a line that is all there has only parts that are figures
          rw [hall, pieces_spread (by decide) (plain_words hfs)] at hmem
          exact absurd hmem (hwhole hfs)
      · have h61 : (61 : UInt8) ∉ read :=
          fun h61 => hf.notMem_value (Or.inl rfl) (hvalue.subset h61)
        obtain ⟨line, hline⟩ := printPart_assignment hf.notMem_name h61
        rw [hline] at hnone
        cases hnone
  · rintro ⟨before, f, after, cut, rfl, hne, hcut, hp⟩
    have hf := hfs f (by simp)
    have hwords := plain_words fun g hg => hfs g (List.mem_append_left (f :: after) hg)
    have hspace : ∀ b ∈ cut, Python.isspace b = false :=
      fun b hb => hf.word.2 b (List.mem_append_left _ (hcut.subset hb))
    have hpieces : pieces Python.isspace q = before.map Figure.text ++ [cut] := by
      rw [← pieces_append_separators q hseps, List.append_cancel_left hp,
        pieces_spread_append (by decide) hwords, pieces_word hne hspace]
    refine ⟨cut, by simp [hpieces], printPart_eq_none ?_⟩
    exact fun h61 => hf.notMem_name (hcut.subset h61)

end Cli

/-- The command line client raises an exception exactly where what has arrived
of the line breaks off in a name. -/
theorem stats_raises_iff (e : LSMEngine) (env : ExecEnv) (n : Nat) :
    ∃ line e' response,
      Parser.execute (Parser.parse (ascii "STATS")) e env = .returned line e' ∧
      Cli.sendCommand (.data (line.take n)) = some response ∧
      (Cli.colorizeResponse response = none ↔
        Cli.BreaksInName (figures e'.getStats) (line.take (min 4096 n))) := by
  have hplain := figures_plain (e.background (env.merges 0)).getStats
  refine ⟨_, _, _, execute_stats e env, receive_prefix hplain (List.take_prefix n _), ?_⟩
  rw [List.take_take]
  rcases statsLine_prefix (List.take_prefix (min 4096 n) _) with
    ⟨hshort, hne⟩ | ⟨q, blanks, hp, hq, hblanks⟩
  · obtain ⟨hstrip, hnot⟩ := strip_short hshort hne
    rw [hstrip]
    constructor
    · intro hnone
      unfold Cli.colorizeResponse at hnone
      simp [hnot] at hnone
    · rintro ⟨before, f, after, cut, -, -, -, hp⟩
      exact absurd (List.prefix_append (ascii "STATS") _) (hp ▸ hnot (ascii "STATS") (by simp))
  · obtain ⟨t, hstrip, hsplit⟩ := strip_stats hq hblanks
    rw [hp, hstrip, Cli.colorizeResponse_stats, hsplit]
    exact Cli.exists_printPart_iff hplain hq hblanks

end VaultDB
