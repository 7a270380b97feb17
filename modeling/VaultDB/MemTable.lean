import VaultDB.Library.Assoc
import VaultDB.Library.Codec
import VaultDB.Library.Text

/-! # MemTable

`src/engine/memtable.cpp`: the sorted in-memory write buffer. A deletion is the
value `TOMBSTONE`; the byte count is kept in `size_t` arithmetic.
-/

namespace VaultDB

open Text Codec

/-- A key and its value, as files and the memtable hold them. -/
abbrev Entry := Bytes × Bytes

/-- The value that marks a deleted key. -/
def TOMBSTONE : Bytes := ascii "__VAULTDB_TOMBSTONE__"

theorem fits_tombstone : Fits TOMBSTONE := by decide

/-- Both strings of the entry have lengths that four bytes hold. -/
def EntryFits (entry : Entry) : Prop := Fits entry.1 ∧ Fits entry.2

instance (entry : Entry) : Decidable (EntryFits entry) := inferInstanceAs (Decidable (_ ∧ _))

structure MemTable where
  /-- `data_`, a `std::map`: the entries in key order. -/
  data : List Entry
  maxSizeBytes : UInt64
  currentSizeBytes : UInt64
deriving Repr, DecidableEq

namespace MemTable

def new (maxSizeBytes : UInt64) : MemTable := ⟨[], maxSizeBytes, 0⟩

/-- `size()` of a string, a `size_t`. -/
def size (s : Bytes) : UInt64 := UInt64.ofNat s.length

def set (table : MemTable) (key value : Bytes) : MemTable :=
  let remaining :=
    match Assoc.get key table.data with
    | some old => table.currentSizeBytes - (size key + size old)
    | none => table.currentSizeBytes
  { table with
    data := Assoc.insert key value table.data
    currentSizeBytes := remaining + (size key + size value) }

def get (table : MemTable) (key : Bytes) : Option Bytes := Assoc.get key table.data

def del (table : MemTable) (key : Bytes) : MemTable := table.set key TOMBSTONE

def isFull (table : MemTable) : Bool := table.maxSizeBytes ≤ table.currentSizeBytes

def sizeBytes (table : MemTable) : UInt64 := table.currentSizeBytes

def count (table : MemTable) : Nat := table.data.length

def getSortedEntries (table : MemTable) : List Entry := table.data

def clear (table : MemTable) : MemTable := { table with data := [], currentSizeBytes := 0 }

@[simp] theorem get_new (maxSizeBytes : UInt64) (key : Bytes) :
    (new maxSizeBytes).get key = none := rfl

@[simp] theorem get_set_self (table : MemTable) (key value : Bytes) :
    (table.set key value).get key = some value :=
  Assoc.get_insert_self key value table.data

theorem get_set_ne {key key' : Bytes} (h : key ≠ key') (table : MemTable) (value : Bytes) :
    (table.set key' value).get key = table.get key :=
  Assoc.get_insert_ne h value table.data

@[simp] theorem get_clear (table : MemTable) (key : Bytes) : table.clear.get key = none := rfl

theorem data_set_ne_nil (table : MemTable) (key value : Bytes) :
    (table.set key value).data ≠ [] := by
  intro hnil
  have hself := get_set_self table key value
  unfold get at hself
  rw [hnil] at hself
  cases hself

/-! ## What the buffer holds -/

/-- In key order, with lengths the file formats can write. -/
structure Ordered (table : MemTable) : Prop where
  sorted : Assoc.Sorted table.data
  fits : ∀ entry ∈ table.data, EntryFits entry

theorem ordered_new (maxSizeBytes : UInt64) : (new maxSizeBytes).Ordered :=
  ⟨List.Pairwise.nil, by simp [new]⟩

theorem Ordered.set {table : MemTable} (h : table.Ordered) {key value : Bytes}
    (hkey : Fits key) (hvalue : Fits value) : (table.set key value).Ordered := by
  refine ⟨Assoc.sorted_insert h.sorted, ?_⟩
  intro entry hentry
  rcases Assoc.mem_insert hentry with rfl | hentry
  · exact ⟨hkey, hvalue⟩
  · exact h.fits entry hentry

theorem Ordered.clear {table : MemTable} : table.clear.Ordered :=
  ⟨List.Pairwise.nil, by simp [MemTable.clear]⟩

/-- A key the buffer holds fits the file formats. -/
theorem Ordered.fits_of_get {table : MemTable} (h : table.Ordered) {key value : Bytes}
    (hget : table.get key = some value) : EntryFits (key, value) :=
  h.fits _ (Assoc.mem_of_get hget)

end MemTable

end VaultDB
