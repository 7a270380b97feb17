import Mathlib.Algebra.Order.BigOperators.Group.List
import Mathlib.Algebra.Order.Group.Nat
import Mathlib.Data.List.Induction
import VaultDB.MemTable

/-! # Size accounting of the memtable

`current_size_bytes_` is kept by a subtraction and an addition for each write.
Modulo `2 ^ 64` it is the sum over the entries at every moment (`Counted`), so
it is that sum as long as the sum is below `2 ^ 64`.
-/

namespace VaultDB

open Text

namespace MemTable

def entryBytes (entry : Entry) : Nat := entry.1.length + entry.2.length

/-- The lengths of all keys and values in `data_`. -/
def liveBytes (table : MemTable) : Nat := (table.data.map entryBytes).sum

inductive Call where
  | set (key value : Bytes)
  | del (key : Bytes)
  | clear
deriving Repr, DecidableEq

def perform (table : MemTable) : Call → MemTable
  | .set key value => table.set key value
  | .del key => table.del key
  | .clear => table.clear

def performAll (table : MemTable) (calls : List Call) : MemTable := calls.foldl perform table

theorem performAll_concat (table : MemTable) (calls : List Call) (call : Call) :
    table.performAll (calls ++ [call]) = (table.performAll calls).perform call := by
  unfold performAll
  rw [List.foldl_append]
  rfl

/-- In key order, with a counter that agrees with the entries modulo `2 ^ 64`. -/
structure Counted (table : MemTable) : Prop where
  sorted : Assoc.Sorted table.data
  counter : table.currentSizeBytes = UInt64.ofNat table.liveBytes

theorem counted_new (maxSizeBytes : UInt64) : (new maxSizeBytes).Counted :=
  ⟨List.Pairwise.nil, rfl⟩

theorem Counted.clear {table : MemTable} : table.clear.Counted :=
  ⟨List.Pairwise.nil, rfl⟩

/-- The `size_t` sum of two lengths. -/
theorem size_add_size (key value : Bytes) :
    size key + size value = UInt64.ofNat (entryBytes (key, value)) :=
  (UInt64.ofNat_add _ _).symm

/-- The entry that a write replaces no longer counts. -/
theorem liveBytes_set {table : MemTable} (h : Assoc.Sorted table.data) (key value : Bytes) :
    (table.set key value).liveBytes +
        (table.get key).elim 0 (fun old => entryBytes (key, old)) =
      table.liveBytes + entryBytes (key, value) :=
  Assoc.sum_map_insert entryBytes key value h

/-- What `set` does to the counter. -/
theorem currentSizeBytes_set (table : MemTable) (key value : Bytes) :
    (table.set key value).currentSizeBytes =
      (table.get key).elim table.currentSizeBytes
        (fun old => table.currentSizeBytes - (size key + size old)) + (size key + size value) := by
  unfold MemTable.set MemTable.get
  cases Assoc.get key table.data with
  | none => rfl
  | some old => rfl

theorem Counted.set {table : MemTable} (h : table.Counted) (key value : Bytes) :
    (table.set key value).Counted := by
  refine ⟨Assoc.sorted_insert h.sorted, ?_⟩
  have hlive := liveBytes_set h.sorted key value
  rw [currentSizeBytes_set]
  cases hget : table.get key with
  | none =>
      rw [hget] at hlive
      simp only [Option.elim_none, Nat.add_zero] at hlive
      simp only [Option.elim_none, size_add_size, h.counter, hlive, UInt64.ofNat_add]
  | some old =>
      rw [hget] at hlive
      have hcounter := congrArg UInt64.ofNat hlive
      simp only [Option.elim_some, UInt64.ofNat_add] at hcounter
      simp only [Option.elim_some, size_add_size, h.counter]
      grind

theorem Counted.performAll {table : MemTable} (h : table.Counted) (calls : List Call) :
    (table.performAll calls).Counted := by
  induction calls using List.reverseRecOn with
  | nil => exact h
  | append_singleton calls call ih =>
      rw [performAll_concat]
      cases call with
      | set key value => exact ih.set key value
      | del key => exact ih.set key TOMBSTONE
      | clear => exact Counted.clear

/-- The counter is exact, and no entry is larger than it. -/
theorem Counted.exact {table : MemTable} (h : table.Counted) (hlive : table.liveBytes < 2 ^ 64) :
    table.currentSizeBytes.toNat = table.liveBytes ∧
      ∀ key old, table.get key = some old →
        (size key + size old).toNat = entryBytes (key, old) ∧
          size key + size old ≤ table.currentSizeBytes := by
  have hexact : table.currentSizeBytes.toNat = table.liveBytes := by
    rw [h.counter, UInt64.toNat_ofNat']
    exact Nat.mod_eq_of_lt hlive
  refine ⟨hexact, ?_⟩
  intro key old hget
  have hle : entryBytes (key, old) ≤ table.liveBytes :=
    List.le_sum_of_mem (List.mem_map_of_mem (Assoc.mem_of_get hget))
  have hsize : (size key + size old).toNat = entryBytes (key, old) := by
    rw [size_add_size, UInt64.toNat_ofNat']
    exact Nat.mod_eq_of_lt (hle.trans_lt hlive)
  refine ⟨hsize, ?_⟩
  rw [UInt64.le_iff_toNat_le, hsize, hexact]
  exact hle

/-- For every sequence of calls whose entries never have `2 ^ 64` bytes
together: after every call the counter is the sum of the lengths, and whatever
key is written next, what `set` subtracts for it does not exceed the counter. -/
theorem size_exact (maxSizeBytes : UInt64) (calls : List Call)
    (hlive : ∀ pre, pre <+: calls → ((new maxSizeBytes).performAll pre).liveBytes < 2 ^ 64) :
    ∀ pre, pre <+: calls →
      let table := (new maxSizeBytes).performAll pre
      table.currentSizeBytes.toNat = table.liveBytes ∧
        ∀ key old, table.get key = some old →
          (size key + size old).toNat = entryBytes (key, old) ∧
            size key + size old ≤ table.currentSizeBytes := by
  intro pre hpre
  exact ((counted_new maxSizeBytes).performAll pre).exact (hlive pre hpre)

/-- A longer value, then a shorter one, a tombstone and an empty table. -/
theorem size_exact_overwrites :
    ((new 64).performAll [.set (ascii "k") (ascii "long value"), .set (ascii "k") (ascii "v"),
      .del (ascii "k")]).currentSizeBytes.toNat = 22 := by
  have hlive : ∀ pre ∈ List.inits [Call.set (ascii "k") (ascii "long value"),
      .set (ascii "k") (ascii "v"), .del (ascii "k"), .clear],
      ((new 64).performAll pre).liveBytes < 2 ^ 64 := by decide
  exact (size_exact 64 _ (fun pre hpre => hlive pre ((List.mem_inits _ _).mpr hpre)) _
    ⟨[.clear], rfl⟩).1

end MemTable

end VaultDB
