import VaultDB.Runs

/-! # Live tables keep their files

Flushes and compactions name their files by a millisecond clock, open them
with truncation, and remove the inputs of a merge. `Tracked` is the engine with
a history: the entries every live table was flushed with. `Intact` says that no
file was clobbered: paths are distinct and every file still decodes to its
table's entries. A run stays intact exactly when every step that writes a file
writes it to a path no live table has (`always_intact_iff`); two flushes within
one millisecond break it (`flushes_collide`).
-/

namespace VaultDB

open Text Codec FileStream SSTable LSMEngine

/-- An engine and the entries its live tables were flushed with. -/
structure Tracked where
  engine : LSMEngine
  flushed : List (List Entry)

namespace Tracked

/-- The history after a step. -/
def track (e : LSMEngine) (op : Op) (flushed : List (List Entry)) : List (List Entry) :=
  if writesTable e op then
    match op with
    | .compact => outputEntries e op :: flushed.drop 2
    | _ => flushed ++ [outputEntries e op]
  else flushed

def step (s : Tracked) (ev : Event) : Option Tracked :=
  (s.engine.step ev).map fun e => ⟨e, track s.engine ev.op s.flushed⟩

def start (dataDir : Bytes) (cacheSize : Nat) (threshold : UInt64) : Tracked :=
  ⟨LSMEngine.start dataDir cacheSize threshold, []⟩

/-- The file at the table's path exists and decodes to the entries. -/
def FileHolds (files : Files) (table : SSTable) (entries : List Entry) : Prop :=
  (Assoc.get table.path files).isSome ∧ table.readAll files = entries

/-- Distinct paths, and every live table's file as it was flushed. -/
structure Intact (s : Tracked) : Prop where
  paths : (s.engine.sstables.map SSTable.path).Nodup
  files : List.Forall₂ (FileHolds s.engine.disk.tables) s.engine.sstables s.flushed

/-- The step writes no file, or writes entries whose lengths four bytes hold to
a path no live table has. -/
def WritesFresh (s : Tracked) (ev : Event) : Prop :=
  writesTable s.engine ev.op = true →
    outputPath s.engine ev ∉ s.engine.sstables.map SSTable.path ∧
      ∀ entry ∈ outputEntries s.engine ev.op, EntryFits entry

theorem intact_start {dataDir : Bytes} {cacheSize : Nat} {threshold : UInt64} :
    Intact (start dataDir cacheSize threshold) :=
  ⟨List.nodup_nil, List.Forall₂.nil⟩

/-! ## Files kept by a change elsewhere -/

theorem FileHolds.congr {files files' : Files} {table : SSTable} {entries : List Entry}
    (hget : Assoc.get table.path files' = Assoc.get table.path files) :
    FileHolds files' table entries ↔ FileHolds files table entries := by
  unfold FileHolds
  rw [hget, readAll_congr hget]

theorem forall₂_congr {files files' : Files} {sstables : List SSTable}
    {flushed : List (List Entry)}
    (hget : ∀ t ∈ sstables, Assoc.get t.path files' = Assoc.get t.path files) :
    List.Forall₂ (FileHolds files') sstables flushed ↔
      List.Forall₂ (FileHolds files) sstables flushed := by
  induction sstables generalizing flushed with
  | nil => simp
  | cons t ts ih =>
      have ht := hget t List.mem_cons_self
      have hts := fun t' ht' => hget t' (List.mem_cons_of_mem t ht')
      cases flushed with
      | nil => simp
      | cons es flushed => rw [List.forall₂_cons, List.forall₂_cons, FileHolds.congr ht, ih hts]

/-- A file just written decodes to what was written exactly when all of it
fits: what is read always does. -/
theorem fileHolds_put {files files' : Files} {table : SSTable} {entries : List Entry}
    (hget : Assoc.get table.path files' =
      Assoc.get table.path (Assoc.put table.path (encodeEntries entries) files)) :
    FileHolds files' table entries ↔ ∀ entry ∈ entries, EntryFits entry := by
  have hfile : Assoc.get table.path files' = some (encodeEntries entries) := by
    rw [hget, Assoc.get_put_self]
  unfold FileHolds
  rw [readAll_eq hfile, hfile]
  constructor
  · intro h entry hentry
    rw [← h.2] at hentry
    exact fits_of_mem_all hentry
  · intro hfits
    exact ⟨rfl, all_encodeEntries hfits⟩

/-! ## One step -/

theorem intact_flushed {files : Files} {sstables : List SSTable} {flushed : List (List Entry)}
    (hpaths : (sstables.map SSTable.path).Nodup)
    (hfiles : List.Forall₂ (FileHolds files) sstables flushed) (table : SSTable)
    (entries : List Entry) :
    (((sstables ++ [table]).map SSTable.path).Nodup ∧
      List.Forall₂ (FileHolds (Assoc.put table.path (encodeEntries entries) files))
        (sstables ++ [table]) (flushed ++ [entries])) ↔
      table.path ∉ sstables.map SSTable.path ∧ ∀ entry ∈ entries, EntryFits entry := by
  have hnodup : ((sstables ++ [table]).map SSTable.path).Nodup ↔
      table.path ∉ sstables.map SSTable.path := by
    rw [List.map_append, List.map_singleton, List.nodup_append]
    constructor
    · intro h hmem
      exact h.2.2 _ hmem _ (List.mem_singleton.mpr rfl) rfl
    · intro h
      refine ⟨hpaths, List.nodup_singleton _, ?_⟩
      intro p hp q hq heq
      rw [List.mem_singleton.mp hq] at heq
      exact h (heq ▸ hp)
  rw [hnodup]
  refine and_congr_right ?_
  intro hfresh
  have hkeep : ∀ t ∈ sstables, Assoc.get t.path
      (Assoc.put table.path (encodeEntries entries) files) = Assoc.get t.path files := by
    intro t ht
    apply Assoc.get_put_ne
    intro heq
    exact hfresh (heq ▸ List.mem_map_of_mem ht)
  rw [← @fileHolds_put files _ _ _ rfl]
  constructor
  · intro h
    have hlast := List.forall₂_drop_append _ _ _ h
    rw [← hfiles.length_eq, List.drop_left] at hlast
    exact (List.forall₂_cons.mp hlast).1
  · intro h
    apply List.rel_append
    · exact (forall₂_congr hkeep).mpr hfiles
    · exact List.Forall₂.cons h List.Forall₂.nil

theorem intact_merged {files : Files} {older newer : SSTable} {staying : List SSTable}
    {merged eo en : List Entry} {flushed : List (List Entry)}
    (hpaths : ((older :: newer :: staying).map SSTable.path).Nodup)
    (hfiles : List.Forall₂ (FileHolds files) (older :: newer :: staying) (eo :: en :: flushed))
    (table : SSTable) :
    let files' := Assoc.erase newer.path (Assoc.erase older.path
      (Assoc.put table.path (encodeEntries merged) files))
    (((table :: staying).map SSTable.path).Nodup ∧
      List.Forall₂ (FileHolds files') (table :: staying) (merged :: flushed)) ↔
      table.path ∉ (older :: newer :: staying).map SSTable.path ∧
        ∀ entry ∈ merged, EntryFits entry := by
  intro files'
  simp only [List.map_cons, List.nodup_cons, List.mem_cons, not_or] at hpaths ⊢
  rcases hpaths with ⟨⟨-, holder⟩, hnewer, hstaying⟩
  have hrest := (List.forall₂_cons.mp (List.forall₂_cons.mp hfiles).2).2
  have hget : ∀ p, p ≠ older.path → p ≠ newer.path → Assoc.get p files' =
      Assoc.get p (Assoc.put table.path (encodeEntries merged) files) := by
    intro p h₁ h₂
    rw [Assoc.get_erase_ne h₂, Assoc.get_erase_ne h₁]
  constructor
  · intro h
    rcases h with ⟨⟨hstay, -⟩, hheld⟩
    have hhead := (List.forall₂_cons.mp hheld).1
    -- a path equal to an input's has been removed with it
    rcases Option.isSome_iff_exists.mp hhead.1 with ⟨content, hcontent⟩
    rcases Assoc.get_erase_eq_some_iff.mp hcontent with ⟨hpn, hsome⟩
    have hpo := (Assoc.get_erase_eq_some_iff.mp hsome).1
    exact ⟨⟨hpo, hpn, hstay⟩, (fileHolds_put (hget _ hpo hpn)).mp hhead⟩
  · intro h
    rcases h with ⟨⟨hpo, hpn, hstay⟩, hfits⟩
    refine ⟨⟨hstay, hstaying⟩, List.Forall₂.cons ?_ ?_⟩
    · exact (fileHolds_put (hget _ hpo hpn)).mpr hfits
    · refine (forall₂_congr ?_).mpr hrest
      intro t ht
      have hmem := List.mem_map_of_mem (f := SSTable.path) ht
      have h₁ : t.path ≠ older.path := fun heq => holder (heq ▸ hmem)
      have h₂ : t.path ≠ newer.path := fun heq => hnewer (heq ▸ hmem)
      have h₃ : t.path ≠ table.path := fun heq => hstay (heq ▸ hmem)
      rw [hget _ h₁ h₂, Assoc.get_put_ne h₃]

theorem intact_step_iff {s s' : Tracked} {ev : Event} (h : Intact s)
    (hdev : ev.env.dev = Device.sound) (hstep : step s ev = some s') :
    Intact s' ↔ WritesFresh s ev := by
  rcases Option.map_eq_some_iff.mp hstep with ⟨e', he', rfl⟩
  have hpair : ∀ {t : Tracked}, Intact t ↔ (t.engine.sstables.map SSTable.path).Nodup ∧
      List.Forall₂ (FileHolds t.engine.disk.tables) t.engine.sstables t.flushed := by
    intro t
    exact ⟨fun ht => ⟨ht.paths, ht.files⟩, fun ht => ⟨ht.1, ht.2⟩⟩
  rw [hpair]
  unfold WritesFresh track
  cases fileEffect he' with
  | none hnone hsstables hfiles =>
      have hnot : ¬ writesTable s.engine ev.op = true := by
        rw [hnone]
        exact Bool.false_ne_true
      rw [if_neg hnot, hsstables, hfiles]
      exact iff_of_true ⟨h.paths, h.files⟩ fun hwrites => absurd hwrites hnot
  | flushed table hop hwrites hpath hsstables hfiles =>
      have htrack : (match ev.op with
          | .compact => outputEntries s.engine ev.op :: s.flushed.drop 2
          | _ => s.flushed ++ [outputEntries s.engine ev.op]) =
          s.flushed ++ [outputEntries s.engine ev.op] := by
        split
        · exact absurd ‹ev.op = .compact› hop
        · rfl
      rw [if_pos hwrites, htrack, hsstables, hfiles, hdev, putFile_sound, ← hpath]
      exact (intact_flushed h.paths h.files table _).trans
        ⟨fun hfresh _ => hfresh, fun hfresh => hfresh hwrites⟩
  | merged table older newer staying hop hwrites hsplit hpath hsstables hfiles =>
      have hheld := h.files
      have hpaths := h.paths
      rw [hsplit] at hheld hpaths
      -- the history has entries for both inputs
      rcases List.forall₂_cons_left_iff.mp hheld with ⟨eo, fs, -, htail, hfs⟩
      rcases List.forall₂_cons_left_iff.mp htail with ⟨en, flushed, -, -, rfl⟩
      rw [hfs] at hheld
      rw [if_pos hwrites, hsstables, hfiles, hdev, putFile_sound, ← hpath, hsplit]
      simp only [hop, hfs, List.drop_succ_cons, List.drop_zero]
      exact (intact_merged hpaths hheld table).trans
        ⟨fun hfresh _ => hfresh, fun hfresh => hfresh (hop ▸ hwrites)⟩

/-! ## Runs -/

/-- A run keeps every live table's file in every state it reaches exactly when
each step that writes a file writes entries that fit to a path no live table
has. -/
theorem always_intact_iff {dataDir : Bytes} {cacheSize : Nat} {threshold : UInt64}
    {evs : List Event} (hdev : ∀ ev ∈ evs, ev.env.dev = Device.sound) :
    Machine.Always step Intact (start dataDir cacheSize threshold) evs ↔
      Machine.Along step WritesFresh (start dataDir cacheSize threshold) evs := by
  have hexact : ∀ (s : Tracked) (ev : Event) (s' : Tracked), Intact s →
      ev.env.dev = Device.sound → step s ev = some s' → (Intact s' ↔ WritesFresh s ev) := by
    intro s ev s' h hev hstep
    exact intact_step_iff h hev hstep
  exact Machine.always_iff_along hexact hdev intact_start

theorem always_intact_iff_two_flushes :
    Machine.Always step Intact (start [] 1 1)
        [⟨.set (ascii "a") (ascii "x"), Env.calm 1⟩, ⟨.set (ascii "b") (ascii "y"), Env.calm 2⟩] ↔
      Machine.Along step WritesFresh (start [] 1 1)
        [⟨.set (ascii "a") (ascii "x"), Env.calm 1⟩, ⟨.set (ascii "b") (ascii "y"), Env.calm 2⟩] :=
  always_intact_iff (by decide)

/-- Two flushes in one millisecond end in two tables with one path. -/
theorem flushes_collide :
    ¬ ∀ (dataDir : Bytes) (cacheSize : Nat) (threshold : UInt64) (evs : List Event),
      (∀ ev ∈ evs, ev.env.dev = Device.sound) →
      Machine.Always step Intact (start dataDir cacheSize threshold) evs := by
  intro hall
  have halways := hall [] 1 1 [⟨.set (ascii "a") (ascii "x"), Env.calm 1⟩,
    ⟨.set (ascii "b") (ascii "y"), Env.calm 1⟩] (by decide)
  have hend : (Machine.run step (start [] 1 1) [⟨.set (ascii "a") (ascii "x"), Env.calm 1⟩,
      ⟨.set (ascii "b") (ascii "y"), Env.calm 1⟩]).map
        (fun s => decide (s.engine.sstables.map SSTable.path).Nodup) = some false := by
    decide +kernel
  rcases Option.map_eq_some_iff.mp hend with ⟨s, hrun, hdup⟩
  have hintact := Machine.always_iff.mp halways _ (List.prefix_refl _) s hrun
  exact of_decide_eq_false hdup hintact.paths

end Tracked

end VaultDB
