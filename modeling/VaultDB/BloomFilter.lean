import Mathlib.Data.List.GetD
import Mathlib.Data.List.Induction
import VaultDB.Library.Text

/-! # Bloom filter

`src/engine/bloom_filter.cpp`: a bit array and three hash functions. A key that
was added is never reported absent (`mightContain_of_mem`), which is what lets
a reader skip a table.
-/

namespace VaultDB

open Text

structure BloomFilter where
  bits : List Bool
  numBits : Nat
deriving Repr, DecidableEq

namespace BloomFilter

/-- `BloomFilter(expected_elements, bits_per_element)`. The product is a
`size_t`; both members are initialised from it and then brought to 64 bits. -/
def new (expectedElements : Nat) (bitsPerElement : Nat := 10) : BloomFilter :=
  let product := expectedElements * bitsPerElement % 2 ^ 64
  let filter : BloomFilter := ⟨List.replicate product false, product⟩
  if filter.numBits < 64 then
    ⟨filter.bits ++ List.replicate (64 - filter.bits.length) false, 64⟩
  else filter

/-- `static_cast<uint64_t>(c)` of a signed `char`. -/
def charToU64 (c : UInt8) : UInt64 :=
  if c.toNat < 128 then c.toUInt64 else c.toUInt64 + 0xFFFFFFFFFFFFFF00

/-- FNV-1a from a given offset basis. -/
def fnv1a (basis : UInt64) (key : Bytes) : UInt64 :=
  key.foldl (fun hash c => (hash ^^^ charToU64 c) * 1099511628211) basis

def hash1 (key : Bytes) : UInt64 := fnv1a 14695981039346656037 key

def hash2 (key : Bytes) : UInt64 := fnv1a 6364136223846793005 key

/-- DJB2a. -/
def hash3 (key : Bytes) : UInt64 :=
  key.foldl (fun hash c => ((hash <<< 5) + hash) ^^^ charToU64 c) 5381

/-- `bits_[hash % num_bits_] = true`. -/
def setBit (filter : BloomFilter) (hash : UInt64) : BloomFilter :=
  { filter with bits := filter.bits.set (hash.toNat % filter.numBits) true }

/-- `bits_[hash % num_bits_]`. -/
def getBit (filter : BloomFilter) (hash : UInt64) : Bool :=
  filter.bits.getD (hash.toNat % filter.numBits) false

def add (filter : BloomFilter) (key : Bytes) : BloomFilter :=
  ((filter.setBit (hash1 key)).setBit (hash2 key)).setBit (hash3 key)

def mightContain (filter : BloomFilter) (key : Bytes) : Bool :=
  filter.getBit (hash1 key) && filter.getBit (hash2 key) && filter.getBit (hash3 key)

/-- `std::fill` of the bit array. -/
def clear (filter : BloomFilter) : BloomFilter :=
  { filter with bits := List.replicate filter.bits.length false }

/-- The filter a table builds over its keys, in order. -/
def addAll (filter : BloomFilter) (keys : List Bytes) : BloomFilter := keys.foldl add filter

/-- The size member agrees with the bit array, and no modulus is by zero. -/
structure WellSized (filter : BloomFilter) : Prop where
  size : filter.bits.length = filter.numBits
  large : 64 ≤ filter.numBits

theorem new_wellSized (expectedElements bitsPerElement : Nat) :
    (new expectedElements bitsPerElement).WellSized := by
  unfold new
  by_cases h : expectedElements * bitsPerElement % 2 ^ 64 < 64
  · simp only [h, if_true]
    refine ⟨?_, le_refl _⟩
    simp only [List.length_append, List.length_replicate]
    omega
  · simp only [h, if_false]
    refine ⟨by simp, ?_⟩
    show 64 ≤ expectedElements * bitsPerElement % 2 ^ 64
    omega

theorem WellSized.setBit {filter : BloomFilter} (h : filter.WellSized) (hash : UInt64) :
    (filter.setBit hash).WellSized := by
  refine ⟨?_, h.large⟩
  unfold BloomFilter.setBit
  simp only [List.length_set]
  exact h.size

theorem WellSized.add {filter : BloomFilter} (h : filter.WellSized) (key : Bytes) :
    (filter.add key).WellSized :=
  ((h.setBit _).setBit _).setBit _

/-- The access is inside the array. -/
theorem WellSized.index_lt {filter : BloomFilter} (h : filter.WellSized) (hash : UInt64) :
    hash.toNat % filter.numBits < filter.bits.length := by
  have hlarge := h.large
  rw [h.size]
  exact Nat.mod_lt _ (by omega)

theorem getBit_setBit_self {filter : BloomFilter} (h : filter.WellSized) (hash : UInt64) :
    (filter.setBit hash).getBit hash = true := by
  unfold getBit setBit
  have hlt := h.index_lt hash
  simp [List.getD, hlt]

/-- Setting a bit clears none. -/
theorem getBit_setBit_mono {filter : BloomFilter} {hash : UInt64} (h : filter.getBit hash = true)
    (hash' : UInt64) : (filter.setBit hash').getBit hash = true := by
  unfold getBit setBit at *
  simp only [List.getD, List.getElem?_set] at *
  split_ifs with heq hlt
  · rfl
  · -- the bit read is out of range, so it was not set before either
    rw [← heq, List.getElem?_eq_none (by omega)] at h
    cases h
  · exact h

theorem mightContain_add_self {filter : BloomFilter} (h : filter.WellSized) (key : Bytes) :
    (filter.add key).mightContain key = true := by
  have h₁ := getBit_setBit_self h (hash1 key)
  have h₂ := getBit_setBit_self (h.setBit (hash1 key)) (hash2 key)
  have h₃ := getBit_setBit_self ((h.setBit (hash1 key)).setBit (hash2 key)) (hash3 key)
  unfold mightContain add
  rw [h₃, getBit_setBit_mono h₂, getBit_setBit_mono (getBit_setBit_mono h₁ _)]
  rfl

theorem mightContain_add_mono {filter : BloomFilter} {key : Bytes}
    (h : filter.mightContain key = true) (key' : Bytes) :
    (filter.add key').mightContain key = true := by
  unfold mightContain at *
  simp only [Bool.and_eq_true] at *
  rcases h with ⟨⟨h₁, h₂⟩, h₃⟩
  have hmono : ∀ hash, filter.getBit hash = true → (filter.add key').getBit hash = true :=
    fun hash hbit => getBit_setBit_mono (getBit_setBit_mono (getBit_setBit_mono hbit _) _) _
  exact ⟨⟨hmono _ h₁, hmono _ h₂⟩, hmono _ h₃⟩

theorem mightContain_addAll_mono {filter : BloomFilter} {key : Bytes}
    (h : filter.mightContain key = true) (keys : List Bytes) :
    (filter.addAll keys).mightContain key = true := by
  induction keys generalizing filter with
  | nil => exact h
  | cons key' keys ih => exact ih (mightContain_add_mono h key')

/-- No false negatives. -/
theorem mightContain_of_mem {filter : BloomFilter} (h : filter.WellSized) {keys : List Bytes}
    {key : Bytes} (hmem : key ∈ keys) : (filter.addAll keys).mightContain key = true := by
  induction keys generalizing filter with
  | nil => cases hmem
  | cons key' keys ih =>
      rcases List.mem_cons.mp hmem with rfl | hmem
      · exact mightContain_addAll_mono (mightContain_add_self h key) keys
      · exact ih (h.add key') hmem

/-! ## Any calls in any order -/

inductive Call where
  | add (key : Bytes)
  | clear
deriving Repr, DecidableEq

def perform (filter : BloomFilter) : Call → BloomFilter
  | .add key => filter.add key
  | .clear => filter.clear

def performAll (filter : BloomFilter) (calls : List Call) : BloomFilter :=
  calls.foldl perform filter

/-- The keys added since the last `clear`. -/
def added (calls : List Call) : List Bytes :=
  calls.foldl (fun keys call =>
    match call with
    | .add key => keys ++ [key]
    | .clear => []) []

theorem performAll_concat (filter : BloomFilter) (calls : List Call) (call : Call) :
    filter.performAll (calls ++ [call]) = (filter.performAll calls).perform call := by
  unfold performAll
  rw [List.foldl_append]
  rfl

theorem added_add (calls : List Call) (key : Bytes) :
    added (calls ++ [.add key]) = added calls ++ [key] := by
  unfold added
  rw [List.foldl_append]
  rfl

theorem added_clear (calls : List Call) : added (calls ++ [.clear]) = [] := by
  unfold added
  rw [List.foldl_append]
  rfl

/-- The bits that `add` sets for a key and `might_contain` reads. -/
def positions (filter : BloomFilter) (key : Bytes) : List Nat :=
  [hash1 key, hash2 key, hash3 key].map fun hash => hash.toNat % filter.numBits

theorem mightContain_iff {filter : BloomFilter} {key : Bytes} :
    filter.mightContain key = true ↔
      ∀ i ∈ filter.positions key, filter.bits.getD i false = true := by
  unfold mightContain getBit positions
  simp only [Bool.and_eq_true, List.map_cons, List.map_nil, List.forall_mem_cons]
  constructor
  · rintro ⟨⟨h₁, h₂⟩, h₃⟩
    exact ⟨h₁, h₂, h₃, by simp⟩
  · rintro ⟨h₁, h₂, h₃, -⟩
    exact ⟨⟨h₁, h₂⟩, h₃⟩

theorem getD_setBit {filter : BloomFilter} (h : filter.WellSized) (hash : UInt64) (i : Nat) :
    (filter.setBit hash).bits.getD i false = true ↔
      i = hash.toNat % filter.numBits ∨ filter.bits.getD i false = true := by
  have hlt := h.index_lt hash
  unfold setBit
  simp only [List.getD, List.getElem?_set]
  by_cases hi : hash.toNat % filter.numBits = i
  · subst hi
    simp [hlt]
  · simp [hi, Ne.symm hi]

theorem getD_add {filter : BloomFilter} (h : filter.WellSized) (key : Bytes) (i : Nat) :
    (filter.add key).bits.getD i false = true ↔
      i ∈ filter.positions key ∨ filter.bits.getD i false = true := by
  unfold add positions
  rw [getD_setBit ((h.setBit _).setBit _), getD_setBit (h.setBit _), getD_setBit h]
  simp only [List.map_cons, List.map_nil, List.mem_cons, List.not_mem_nil, or_false]
  show i = _ % filter.numBits ∨ i = _ % filter.numBits ∨ i = _ % filter.numBits ∨ _ ↔ _
  tauto

theorem WellSized.clear {filter : BloomFilter} (h : filter.WellSized) :
    filter.clear.WellSized :=
  ⟨List.length_replicate.trans h.size, h.large⟩

theorem WellSized.performAll {filter : BloomFilter} (h : filter.WellSized) (calls : List Call) :
    (filter.performAll calls).WellSized ∧ (filter.performAll calls).numBits = filter.numBits := by
  induction calls using List.reverseRecOn with
  | nil => exact ⟨h, rfl⟩
  | append_singleton calls call ih =>
      rw [performAll_concat]
      cases call with
      | add key => exact ⟨ih.1.add key, ih.2⟩
      | clear => exact ⟨ih.1.clear, ih.2⟩

/-- Exactly the bits of the keys are set. -/
def Marks (filter : BloomFilter) (keys : List Bytes) : Prop :=
  ∀ i, filter.bits.getD i false = true ↔ ∃ key ∈ keys, i ∈ filter.positions key

/-- No bit is set in an array of zeros. -/
theorem getD_zeros (n i : Nat) : (List.replicate n false).getD i false = false := by
  by_cases h : i < n
  · exact List.getD_replicate false h
  · exact List.getD_eq_default _ _ (by simp only [List.length_replicate]; omega)

theorem bits_new (expectedElements bitsPerElement : Nat) :
    ∃ n, (new expectedElements bitsPerElement).bits = List.replicate n false := by
  unfold new
  by_cases h : expectedElements * bitsPerElement % 2 ^ 64 < 64
  · simp only [h, if_true]
    exact ⟨_, List.replicate_append_replicate⟩
  · simp only [h, if_false]
    exact ⟨_, rfl⟩

theorem marks_new (expectedElements bitsPerElement : Nat) :
    (new expectedElements bitsPerElement).Marks [] := by
  intro i
  rcases bits_new expectedElements bitsPerElement with ⟨n, hbits⟩
  rw [hbits, getD_zeros]
  simp

/-- After any calls the bits of the keys added since the last `clear` are set, and no others. -/
theorem Marks.performAll {filter : BloomFilter} (h : filter.WellSized) (hnil : filter.Marks [])
    (calls : List Call) : (filter.performAll calls).Marks (added calls) := by
  induction calls using List.reverseRecOn with
  | nil => exact hnil
  | append_singleton calls call ih =>
      have hsized := (h.performAll calls).1
      rw [performAll_concat]
      intro i
      cases call with
      | add key =>
          rw [added_add]
          show ((filter.performAll calls).add key).bits.getD i false = true ↔ _
          rw [getD_add hsized, ih i]
          simp only [List.mem_append, List.mem_singleton, or_and_right, exists_or,
            exists_eq_left]
          exact or_comm
      | clear =>
          rw [added_clear]
          show (List.replicate _ false).getD i false = true ↔ _
          rw [getD_zeros]
          simp

/-- Filters of one size that mark the same keys are equal. -/
theorem Marks.eq {filter filter' : BloomFilter} {keys keys' : List Bytes}
    (hsized : filter.WellSized) (hsized' : filter'.WellSized)
    (hsize : filter'.numBits = filter.numBits) (h : filter.Marks keys) (h' : filter'.Marks keys')
    (hkeys : ∀ key, key ∈ keys' ↔ key ∈ keys) : filter' = filter := by
  have hpositions : filter'.positions = filter.positions := by
    unfold positions
    rw [hsize]
  have hbits : filter'.bits = filter.bits := by
    apply List.ext_getElem
    · rw [hsized'.size, hsized.size, hsize]
    · intro i hi hi'
      have hiff := (h' i).trans ((exists_congr fun key => by
        rw [hkeys, hpositions]).trans (h i).symm)
      rw [List.getD_eq_getElem _ _ hi, List.getD_eq_getElem _ _ hi'] at hiff
      exact Bool.eq_iff_iff.mpr hiff
  cases filter
  cases filter'
  cases hsize
  cases hbits
  rfl

/-- For every pair of constructor arguments and all calls: every access is in
the array, no key added since the last `clear` is reported absent, and the
order and the number of the additions do not show in the filter. -/
theorem no_false_negatives (expectedElements bitsPerElement : Nat) (calls : List Call) :
    let filter := (new expectedElements bitsPerElement).performAll calls
    filter.numBits = filter.bits.length ∧ 64 ≤ filter.numBits ∧
      (∀ key, ∀ i ∈ filter.positions key, i < filter.bits.length) ∧
      (∀ key ∈ added calls, filter.mightContain key = true) ∧
      ∀ calls', (∀ key, key ∈ added calls' ↔ key ∈ added calls) →
        (new expectedElements bitsPerElement).performAll calls' = filter := by
  intro filter
  have hnew := new_wellSized expectedElements bitsPerElement
  have hmarks := Marks.performAll hnew (marks_new expectedElements bitsPerElement)
  have hsized : filter.WellSized := (hnew.performAll calls).1
  refine ⟨hsized.size.symm, hsized.large, ?_, ?_, ?_⟩
  · intro key i hi
    rcases List.mem_map.mp hi with ⟨hash, -, rfl⟩
    exact hsized.index_lt hash
  · intro key hkey
    rw [mightContain_iff]
    intro i hi
    exact (hmarks calls i).mpr ⟨key, hkey, hi⟩
  · intro calls' hkeys
    have hsize := (hnew.performAll calls').2.trans (hnew.performAll calls).2.symm
    exact Marks.eq hsized (hnew.performAll calls').1 hsize (hmarks calls) (hmarks calls') hkeys

end BloomFilter

end VaultDB
