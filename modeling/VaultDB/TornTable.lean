import VaultDB.SSTable

/-! # Table files cut short

A crash while a table is written leaves the first bytes of its encoding. The
readers of a table break off at a key that is not there in full, but take a
value that is cut short as it is, with zero bytes for the rest. `torn` is what
they see of the first `n` bytes (`all_take`): some of the entries, the value of
the last one possibly a `cutValue` (`mem_torn_iff`).
-/

namespace VaultDB

open Text Codec FileStream

namespace SSTable

/-- A device that takes `n` bytes leaves the first `n`. -/
theorem putFile_full (n : Nat) (path content : Bytes) (files : Files) :
    putFile (Device.full n) path content files = Assoc.put path (content.take n) files := by
  unfold putFile
  have hcut := (OFStream.write_room [] content n).1
  rw [List.nil_append] at hcut
  rw [← hcut]
  rfl

/-- A value of which `n` bytes reached the disk, as the readers see it. -/
def cutValue (value : Bytes) (n : Nat) : Bytes :=
  value.take n ++ List.replicate (value.length - n) 0

/-- The bytes of an entry in front of its value: two lengths and the key. -/
def headLength (entry : Entry) : Nat := 8 + entry.1.length

/-- What the readers see of the first `n` bytes of a file of these entries. -/
def torn : List Entry → Nat → List Entry
  | [], _ => []
  | entry :: entries, n =>
    if n < headLength entry then []
    else
      (entry.1, cutValue entry.2 (n - headLength entry)) ::
        torn entries (n - (headLength entry + entry.2.length))

theorem cutValue_of_le {value : Bytes} {n : Nat} (h : value.length ≤ n) :
    cutValue value n = value := by
  have hzero : value.length - n = 0 := by omega
  unfold cutValue
  rw [List.take_of_length_le h, hzero, List.replicate_zero, List.append_nil]

theorem encodeEntry_of_fits {entry : Entry} (h : EntryFits entry) :
    encodeEntry entry = leBytes 4 entry.1.length ++
      (entry.1 ++ (leBytes 4 entry.2.length ++ entry.2)) := by
  unfold encodeEntry
  rw [Nat.mod_eq_of_lt h.1, Nat.mod_eq_of_lt h.2, List.take_length, List.take_length]

theorem length_encodeEntry {entry : Entry} (h : EntryFits entry) :
    (encodeEntry entry).length = headLength entry + entry.2.length := by
  rw [encodeEntry_of_fits h]
  unfold headLength
  simp only [List.length_append, length_leBytes]
  omega

theorem encodeEntries_cons (entry : Entry) (entries : List Entry) :
    encodeEntries (entry :: entries) = encodeEntry entry ++ encodeEntries entries :=
  List.flatMap_cons

/-- An entry whose head is cut is not seen. -/
theorem nextEntry_take_none {entry : Entry} (hfits : EntryFits entry) (r : Bytes) {n : Nat}
    (hn : n < headLength entry) : nextEntry ((encodeEntry entry ++ r).take n) = none := by
  cases hnext : nextEntry ((encodeEntry entry ++ r).take n) with
  | none => rfl
  | some p =>
      rcases p with ⟨entry', r'⟩
      rcases nextEntry_eq_some hnext with ⟨keyLen, valLen, b, hb, l₁, l₂, l₃, -, -⟩
      -- the length field read is the one that was written, so the key is as long
      have hall : encodeEntry entry ++ r =
          keyLen ++ (entry'.1 ++ (valLen ++ b)) ++ (encodeEntry entry ++ r).drop n := by
        rw [← hb, List.take_append_drop]
      rw [encodeEntry_of_fits hfits] at hall
      simp only [List.append_assoc] at hall
      have hkeyLen := (List.append_inj hall (by rw [length_leBytes, l₁])).1
      have hlen := congrArg List.length hb
      rw [← hkeyLen, hfits.1.leValue_leBytes] at l₂
      unfold headLength at hn
      simp only [List.length_append, List.length_take] at hlen
      omega

/-- An entry whose head is there is seen with what there is of its value. -/
theorem nextEntry_take_some {entry : Entry} (hfits : EntryFits entry) (r : Bytes) {n : Nat}
    (hn : headLength entry ≤ n) :
    nextEntry ((encodeEntry entry ++ r).take n) =
      some ((entry.1, cutValue entry.2 (n - headLength entry)),
        r.take (n - (headLength entry + entry.2.length))) := by
  have hkeyLen := hfits.1.leValue_leBytes
  have hvalLen := hfits.2.leValue_leBytes
  -- the cut falls behind the head, so it cuts the value and what follows
  have htake : (encodeEntry entry ++ r).take n = leBytes 4 entry.1.length ++
      (entry.1 ++ (leBytes 4 entry.2.length ++ (entry.2 ++ r).take (n - headLength entry))) := by
    have hhead : encodeEntry entry ++ r = (leBytes 4 entry.1.length ++
        (entry.1 ++ leBytes 4 entry.2.length)) ++ (entry.2 ++ r) := by
      rw [encodeEntry_of_fits hfits]
      simp only [List.append_assoc]
    have hlen : (leBytes 4 entry.1.length ++ (entry.1 ++ leBytes 4 entry.2.length)).length =
        headLength entry := by
      unfold headLength
      simp only [List.length_append, length_leBytes]
      omega
    rw [hhead, List.take_append, hlen, List.take_of_length_le (by omega)]
    simp only [List.append_assoc]
  have t₁ := fun rest => takeExact_append (leBytes 4 entry.1.length) rest
  have t₂ := fun rest => takeExact_append entry.1 rest
  have t₃ := fun rest => takeExact_append (leBytes 4 entry.2.length) rest
  simp only [length_leBytes] at t₁ t₃
  rw [htake]
  unfold nextEntry
  simp only [t₁, hkeyLen, t₂, t₃, hvalLen, bind, Option.bind, pure]
  have hvalue : ((entry.2 ++ r).take (n - headLength entry)).take entry.2.length ++
      List.replicate (entry.2.length - ((entry.2 ++ r).take (n - headLength entry)).length) 0 =
      cutValue entry.2 (n - headLength entry) := by
    unfold cutValue
    rw [List.take_take, min_comm, ← List.take_take, List.take_left', List.length_take,
      List.length_append]
    · congr 2
      omega
    · rfl
  have hrest : ((entry.2 ++ r).take (n - headLength entry)).drop entry.2.length =
      r.take (n - (headLength entry + entry.2.length)) := by
    rw [List.drop_take, List.drop_left', Nat.sub_sub]
    rfl
  rw [hvalue, hrest]

/-- What the readers see of a file cut after `n` bytes. -/
theorem all_take {entries : List Entry} (hfits : ∀ entry ∈ entries, EntryFits entry) (n : Nat) :
    entryReader.all ((encodeEntries entries).take n) = torn entries n := by
  induction entries generalizing n with
  | nil =>
      unfold encodeEntries torn
      rw [List.flatMap_nil, List.take_nil]
      exact entryReader.all_of_none entryReader_next_nil
  | cons entry entries ih =>
      have hentry := hfits entry List.mem_cons_self
      rw [encodeEntries_cons]
      unfold torn
      by_cases hn : n < headLength entry
      · rw [if_pos hn]
        exact entryReader.all_of_none (nextEntry_take_none hentry _ hn)
      · -- behind the value of the entry the cut goes on
        rw [if_neg hn]
        have hnext := nextEntry_take_some hentry (encodeEntries entries) (not_lt.mp hn)
        rw [entryReader.all_of_some hnext, ih fun e he => hfits e (List.mem_cons_of_mem _ he)]

/-- Exactly the entries whose head is there in full are seen. -/
theorem mem_torn_iff {entries : List Entry} (hfits : ∀ entry ∈ entries, EntryFits entry)
    {n : Nat} {key value : Bytes} :
    (key, value) ∈ torn entries n ↔
      ∃ pre whole post, entries = pre ++ (key, whole) :: post ∧
        (encodeEntries pre).length + headLength (key, whole) ≤ n ∧
        value = cutValue whole (n - ((encodeEntries pre).length + headLength (key, whole))) := by
  induction entries generalizing n value with
  | nil =>
      unfold torn
      constructor
      · intro h
        cases h
      · rintro ⟨pre, whole, post, h, -, -⟩
        simp at h
  | cons entry entries ih =>
      have hlen := length_encodeEntry (hfits entry List.mem_cons_self)
      have ih' := @ih fun e he => hfits e (List.mem_cons_of_mem _ he)
      unfold torn
      constructor
      · intro h
        split_ifs at h with hn
        · cases h
        · rcases List.mem_cons.mp h with heq | h
          · rcases Prod.mk.inj heq with ⟨rfl, rfl⟩
            refine ⟨[], entry.2, entries, rfl, ?_, ?_⟩
            · simp only [encodeEntries, List.flatMap_nil, List.length_nil, Nat.zero_add]
              exact not_lt.mp hn
            · simp only [encodeEntries, List.flatMap_nil, List.length_nil, Nat.zero_add]
          · rcases ih'.mp h with ⟨pre, whole, post, rfl, hle, rfl⟩
            have hpos : headLength (key, whole) = 8 + key.length := rfl
            refine ⟨entry :: pre, whole, post, rfl, ?_, ?_⟩
            · rw [encodeEntries_cons, List.length_append, hlen]
              omega
            · rw [encodeEntries_cons, List.length_append, hlen]
              congr 1
              omega
      · -- the entry is the first one, or is counted from behind it
        rintro ⟨pre, whole, post, hsplit, hle, rfl⟩
        cases pre with
        | nil =>
            rw [List.nil_append, List.cons.injEq] at hsplit
            rcases hsplit with ⟨rfl, rfl⟩
            simp only [encodeEntries, List.flatMap_nil, List.length_nil, Nat.zero_add] at hle ⊢
            rw [if_neg (not_lt.mpr hle)]
            exact List.mem_cons_self
        | cons first pre =>
            rw [List.cons_append, List.cons.injEq] at hsplit
            rcases hsplit with ⟨rfl, rfl⟩
            rw [encodeEntries_cons, List.length_append, hlen] at hle ⊢
            rw [if_neg (by omega)]
            apply List.mem_cons_of_mem
            rw [ih']
            refine ⟨pre, whole, post, rfl, by omega, ?_⟩
            congr 1
            omega

/-- The keys seen are the first of the keys. -/
theorem keys_torn (entries : List Entry) (n : Nat) :
    (torn entries n).map Prod.fst <+: entries.map Prod.fst := by
  induction entries generalizing n with
  | nil => exact List.prefix_rfl
  | cons entry entries ih =>
      unfold torn
      split_ifs
      · exact List.nil_prefix
      · exact List.cons_prefix_cons.mpr ⟨rfl, ih _⟩

theorem sorted_torn {entries : List Entry} (h : Assoc.Sorted entries) (n : Nat) :
    Assoc.Sorted (torn entries n) := by
  have hkeys : (entries.map Prod.fst).Pairwise (· < ·) := List.pairwise_map.mpr h
  exact List.pairwise_map.mp (hkeys.sublist (keys_torn entries n).sublist)

end SSTable

end VaultDB
