import VaultDB.Runs
import VaultDB.TornTable

/-! # Table files that cannot be written

`flush_memtable` and `compact` hand their entries to `SSTable::flush`, which
does not look at its stream, and then give up their sources: the memtable and
the log, or the two merged tables. They do so whatever reached the disk, so
their data is kept exactly when all of it did (`keeps_data_iff`); a device that
is full loses it (`full_device_loses`).
-/

namespace VaultDB

open Text Codec FileStream SSTable LSMEngine

variable {dataDir : Bytes} {cacheSize : Nat} {threshold : UInt64}

/-- The two operations that write a table file. -/
inductive TableWrite where
  | flush
  | compact
deriving DecidableEq

namespace TableWrite

/-- The operation, on a device that may fail. -/
def run (e : LSMEngine) (now : Nat) (dev : Device) : TableWrite → LSMEngine
  | .flush => e.flushMemtable now dev
  | .compact => e.compact now dev

/-- There is something to write. -/
def due (e : LSMEngine) : TableWrite → Prop
  | .flush => e.memtable.data ≠ []
  | .compact => 4 < e.sstables.length

/-- The path of the output. -/
def path (e : LSMEngine) (now : Nat) : TableWrite → Bytes
  | .flush => sstablePath e.dataDir now
  | .compact => compactedPath e.dataDir now

/-- The entries of the output. -/
def entries (e : LSMEngine) : TableWrite → List Entry
  | .flush => e.memtable.data
  | .compact => outputEntries e .compact

/-- A source is given up: the memtable cleared or the log truncated; a live
table dropped or the file of a merged one removed. -/
def Discards (e e' : LSMEngine) : TableWrite → Prop
  | .flush => e'.memtable.data ≠ e.memtable.data ∨ e'.disk.walLog ≠ e.disk.walLog
  | .compact => ¬ e.sstables.Sublist e'.sstables ∨
      ∃ input ∈ e.sstables.take 2, Assoc.get input.path e'.disk.tables = none

/-- The output file is there with the encoding of all entries. -/
def Complete (e e' : LSMEngine) (now : Nat) (w : TableWrite) : Prop :=
  Assoc.get (w.path e now) e'.disk.tables = some (encodeEntries (w.entries e))

/-- Every key reads as before, now and after a restart. -/
structure ReadsAsBefore (e e' : LSMEngine) (now : Nat) : Prop where
  running : ∀ key t, now ≤ t → e'.answer key t = e.answer key t
  restarted : ∀ (cacheSize : Nat) (threshold : UInt64) (ms t : Nat) (key : Bytes),
    0 < cacheSize → now < ms → ms ≤ t →
    (LSMEngine.new e'.disk e.dataDir cacheSize threshold ms Device.sound).answer key t =
      e.answer key t

/-- Sources are given up for a complete output only; without one every key
reads as before. -/
structure KeepsData (e : LSMEngine) (now : Nat) (dev : Device) (w : TableWrite) : Prop where
  discards : w.Discards e (w.run e now dev) → w.Complete e (w.run e now dev) now
  reads : ¬ w.Complete e (w.run e now dev) now → ReadsAsBefore e (w.run e now dev) now

end TableWrite

/-! ## When all bytes reach the disk -/

/-- The device takes the whole content; or it does not open, and the file is
there already with this content. -/
def TakesAll (dev : Device) (path content : Bytes) (files : Files) : Prop :=
  if dev.opens then ∀ n, dev.room = some n → content.length ≤ n
  else Assoc.get path files = some content

theorem get_putFile_iff (dev : Device) (path content : Bytes) (files : Files) :
    Assoc.get path (putFile dev path content files) = some content ↔
      TakesAll dev path content files := by
  rcases dev with ⟨opens, room⟩
  cases opens with
  | false => exact Iff.rfl
  | true =>
      cases room with
      | none =>
          refine iff_of_true (Assoc.get_put_self _ _ _) ?_
          intro n hn
          cases hn
      | some n =>
          -- the first `n` bytes are all of them when there are no more than `n`
          have hput : putFile ⟨true, some n⟩ path content files =
              Assoc.put path (content.take n) files := putFile_full n path content files
          rw [hput, Assoc.get_put_self, Option.some.injEq, List.take_eq_self_iff]
          constructor
          · intro hle m hm
            rw [← Option.some.inj hm]
            exact hle
          · intro hall
            exact hall n rfl

namespace TableWrite

/-- All bytes of the output reach the disk, and it is not removed as an input
of its own compaction. -/
def Lands (e : LSMEngine) (now : Nat) (dev : Device) (w : TableWrite) : Prop :=
  TakesAll dev (w.path e now) (encodeEntries (w.entries e)) e.disk.tables ∧
    (w = .compact → ∀ input ∈ e.sstables.take 2, input.path ≠ w.path e now)

/-- Both operations give up their sources on every device. -/
theorem discards_run {e : LSMEngine} {w : TableWrite} (hdue : w.due e) (now : Nat)
    (dev : Device) : w.Discards e (w.run e now dev) := by
  cases w with
  | flush =>
      refine Or.inl ?_
      show (e.flushMemtable now dev).memtable.data ≠ e.memtable.data
      rw [flushMemtable_files hdue]
      exact Ne.symm hdue
  | compact =>
      rcases exists_two_oldest hdue with ⟨older, newer, staying, hsplit⟩
      refine Or.inl ?_
      show ¬ e.sstables.Sublist (e.compact now dev).sstables
      rw [compact_files hdue hsplit, hsplit]
      intro hsub
      -- two tables became one
      have hlen := hsub.length_le
      simp only [List.length_cons] at hlen
      omega

theorem complete_run_iff {e : LSMEngine} {w : TableWrite} (hdue : w.due e) (now : Nat)
    (dev : Device) : w.Complete e (w.run e now dev) now ↔ w.Lands e now dev := by
  cases w with
  | flush =>
      unfold Complete Lands
      show Assoc.get (sstablePath e.dataDir now) (e.flushMemtable now dev).disk.tables =
        some (encodeEntries e.memtable.data) ↔ _
      rw [flushMemtable_files hdue, get_putFile_iff]
      exact (and_iff_left fun hcompact => TableWrite.noConfusion hcompact).symm
  | compact =>
      rcases exists_two_oldest hdue with ⟨older, newer, staying, hsplit⟩
      unfold Complete Lands
      show Assoc.get (compactedPath e.dataDir now) (e.compact now dev).disk.tables =
          some (encodeEntries (outputEntries e .compact)) ↔
        TakesAll dev (compactedPath e.dataDir now) (encodeEntries (outputEntries e .compact))
          e.disk.tables ∧ _
      -- the removals of the inputs take an output of the same path with them
      rw [compact_files hdue hsplit, Assoc.get_erase_eq_some_iff, Assoc.get_erase_eq_some_iff,
        ← outputEntries_compact hsplit, get_putFile_iff, hsplit]
      constructor
      · intro hget
        rcases hget with ⟨hnewer, holder, hlands⟩
        refine ⟨hlands, ?_⟩
        intro _ input hinput
        rcases List.mem_cons.mp hinput with rfl | hinput
        · exact holder.symm
        · rw [List.mem_singleton.mp hinput]
          exact hnewer.symm
      · intro hlands
        rcases hlands with ⟨hlands, hinputs⟩
        have holder := hinputs rfl older List.mem_cons_self
        have hnewer := hinputs rfl newer (List.mem_cons_of_mem _ List.mem_cons_self)
        exact ⟨hnewer.symm, holder.symm, hlands⟩

/-- A write that is due keeps its data exactly when all of it lands. -/
theorem keepsData_iff {e : LSMEngine} {w : TableWrite} (hdue : w.due e) (now : Nat)
    (dev : Device) : w.KeepsData e now dev ↔ w.Lands e now dev := by
  rw [← complete_run_iff hdue]
  constructor
  · intro h
    exact h.discards (discards_run hdue now dev)
  · -- with a complete output nothing is asked of the reads
    intro hcomplete
    exact ⟨fun _ => hcomplete, fun hnot => absurd hcomplete hnot⟩

end TableWrite

/-! ## Reachable states -/

/-- The states in which a run, whatever fails in it, comes to write a table:
behind the first steps of a write that fills the memtable, or with more than
four tables. -/
inductive Comes (dataDir : Bytes) (cacheSize : Nat) (threshold : UInt64) :
    TableWrite → LSMEngine → Prop where
  | flush {evs : List Event} {ev : Event} {e e₁ : LSMEngine}
      (hrun : Machine.run LSMEngine.step (start dataDir cacheSize threshold) evs = some e)
      (hsteps : e.firstSteps ev = some e₁) (hfull : e₁.memtable.isFull = true) :
      Comes dataDir cacheSize threshold .flush e₁
  | compact {evs : List Event} {e : LSMEngine}
      (hrun : Machine.run LSMEngine.step (start dataDir cacheSize threshold) evs = some e)
      (hmany : 4 < e.sstables.length) : Comes dataDir cacheSize threshold .compact e

theorem Comes.due {w : TableWrite} {e : LSMEngine} (h : Comes dataDir cacheSize threshold w e) :
    w.due e := by
  cases h with
  | flush hrun hsteps hfull => exact (firstSteps_tables hsteps).2.2.2.2.2
  | compact hrun hmany => exact hmany

/-- Whenever a run comes to write a table, the write keeps its data exactly
when all of it lands on the disk. -/
theorem keeps_data_iff {w : TableWrite} {e : LSMEngine}
    (h : Comes dataDir cacheSize threshold w e) (now : Nat) (dev : Device) :
    w.KeepsData e now dev ↔ w.Lands e now dev :=
  TableWrite.keepsData_iff h.due now dev

theorem keeps_data_iff_first_flush :
    ∃ e, Comes [] 1 1 .flush e ∧
      (TableWrite.flush.KeepsData e 2 (Device.full 9) ↔
        TableWrite.flush.Lands e 2 (Device.full 9)) := by
  have hfull : ((start [] 1 1).firstSteps ⟨.set (ascii "k") (ascii "v"), Env.calm 1⟩).map
      (fun e => e.memtable.isFull) = some true := by decide +kernel
  rcases Option.map_eq_some_iff.mp hfull with ⟨e, hsteps, hisFull⟩
  have hrun : Machine.run LSMEngine.step (start [] 1 1) [] = some (start [] 1 1) := rfl
  have hcomes : Comes [] 1 1 .flush e := Comes.flush hrun hsteps hisFull
  exact ⟨e, hcomes, keeps_data_iff hcomes 2 (Device.full 9)⟩

/-- On a full device the first flush leaves an empty file, an empty memtable
and an empty log. -/
theorem full_device_loses :
    ¬ ∀ (w : TableWrite) (e : LSMEngine) (now : Nat) (dev : Device),
      Comes [] 1 1 w e → w.KeepsData e now dev := by
  intro hall
  have hfacts : ((start [] 1 1).firstSteps ⟨.set (ascii "k") (ascii "v"), Env.calm 1⟩).map
      (fun e => (e.memtable.isFull,
        decide ((e.flushMemtable 2 (Device.full 0)).memtable.data = e.memtable.data),
        decide (Assoc.get (sstablePath e.dataDir 2)
          (e.flushMemtable 2 (Device.full 0)).disk.tables =
            some (encodeEntries e.memtable.data)))) = some (true, false, false) := by decide +kernel
  rcases Option.map_eq_some_iff.mp hfacts with ⟨e, hsteps, htriple⟩
  rcases Prod.mk.inj htriple with ⟨hfull, hpair⟩
  rcases Prod.mk.inj hpair with ⟨hcleared, hmissing⟩
  have hrun : Machine.run LSMEngine.step (start [] 1 1) [] = some (start [] 1 1) := rfl
  have hkeeps := hall .flush e 2 (Device.full 0) (Comes.flush hrun hsteps hfull)
  exact of_decide_eq_false hmissing (hkeeps.discards (Or.inl (of_decide_eq_false hcleared)))

end VaultDB
