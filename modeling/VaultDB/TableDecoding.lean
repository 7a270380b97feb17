import VaultDB.TornTable

/-! # What a table file decodes to

`get`, `read_all` and `build_sparse_index` parse a table file each with a loop
of its own. On every first part of a file that `flush` can write they agree,
and a whole file gives back the entries and the object that wrote it
(`decoders_agree_iff`), provided the lengths of keys and values fit their four
bytes; and then a lookup through filter, index and scan finds what the list of
entries holds (`get_flushed_iff`).
-/

namespace VaultDB

open Text Codec FileStream

namespace SSTable

/-- A lookup in a table just flushed, through Bloom filter, sparse index and
scan, against the list that was flushed. -/
theorem get_flushed_iff {entries : List Entry} (hsorted : Assoc.Sorted entries)
    (hfits : ∀ entry ∈ entries, EntryFits entry) (table : SSTable) (files : Files) (key : Bytes) :
    (∀ value, (table.flush Device.sound files entries).1.get
        (table.flush Device.sound files entries).2 key = some value ↔ (key, value) ∈ entries) ∧
      ((table.flush Device.sound files entries).1.get
        (table.flush Device.sound files entries).2 key = none ↔
          ∀ value, (key, value) ∉ entries) := by
  have hall := all_encodeEntries hfits
  have hsorted' : Assoc.Sorted (entryReader.all (encodeEntries entries)) := by
    rw [hall]
    exact hsorted
  have hfile := Assoc.get_put_self table.path (encodeEntries entries) files
  have hget := get_describe hfile hsorted' key
  rw [flush_eq table files hfits]
  dsimp only
  rw [hget, hall]
  have hfound : ∀ value, Assoc.get key entries = some value ↔ (key, value) ∈ entries :=
    fun value => ⟨Assoc.mem_of_get, Assoc.get_of_mem hsorted.nodup_keys⟩
  refine ⟨hfound, ?_⟩
  rw [Option.eq_none_iff_forall_not_mem]
  constructor
  · intro hnone value hmem
    exact hnone value ((hfound value).mpr hmem)
  · intro hnone value hget
    exact hnone value ((hfound value).mp hget)

/-- The object that opening the file at the path gives counts the entries that
`read_all` reads, and looks keys up as in their list. -/
structure Agrees (files : Files) (path : Bytes) : Prop where
  count : (new files path).entryCount = ((new files path).readAll files).length
  get : ∀ key, (new files path).get files key = Assoc.get key ((new files path).readAll files)

/-- What is on disk after a flush gives back its entries and its object. -/
structure GivenBack (files : Files) (path : Bytes) (entries : List Entry) : Prop where
  read : ((new files path).flush Device.sound files entries).1.readAll
    ((new files path).flush Device.sound files entries).2 = entries
  object : new ((new files path).flush Device.sound files entries).2 path =
    ((new files path).flush Device.sound files entries).1

theorem agrees_of_sorted {files : Files} {path content : Bytes}
    (hfile : Assoc.get path files = some content)
    (hsorted : Assoc.Sorted (entryReader.all content)) : Agrees files path := by
  have hread : (new files path).readAll files = entryReader.all content := by
    apply readAll_eq
    rw [path_new]
    exact hfile
  refine ⟨?_, ?_⟩
  · rw [hread, new_eq hfile, ← entryReader.map_fst_located content 0, List.length_map]
    rfl
  · intro key
    rw [hread, new_eq hfile]
    exact get_describe hfile hsorted key

/-- The file of a table just flushed, whatever the lengths. -/
theorem file_flush (table : SSTable) (files : Files) (entries : List Entry) :
    Assoc.get (table.flush Device.sound files entries).1.path
      (table.flush Device.sound files entries).2 = some (encodeEntries entries) := by
  rw [flush_files, putFile_sound]
  exact Assoc.get_put_self _ _ _

/-- What is read back always has lengths that four bytes hold. -/
theorem GivenBack.fits {files : Files} {path : Bytes} {entries : List Entry}
    (h : GivenBack files path entries) : ∀ entry ∈ entries, EntryFits entry := by
  intro entry hentry
  have hread := h.read
  rw [readAll_eq (file_flush _ files entries)] at hread
  rw [← hread] at hentry
  exact fits_of_mem_all hentry

/-- The three decoders agree on every first part of the file of a sorted list,
and the whole file gives list and object back, exactly when all keys and values
have lengths that four bytes hold. -/
theorem decoders_agree_iff {entries : List Entry} (hsorted : Assoc.Sorted entries)
    (files : Files) (path : Bytes) :
    ((∀ content, content <+: encodeEntries entries → Agrees (Assoc.put path content files) path) ∧
      GivenBack files path entries) ↔ ∀ entry ∈ entries, EntryFits entry := by
  constructor
  · rintro ⟨-, hback⟩
    exact hback.fits
  · intro hfits
    refine ⟨?_, ?_, ?_⟩
    · intro content hcontent
      rw [List.prefix_iff_eq_take.mp hcontent]
      apply agrees_of_sorted (Assoc.get_put_self _ _ _)
      rw [all_take hfits]
      exact sorted_torn hsorted _
    · rw [readAll_eq (file_flush _ files entries), all_encodeEntries hfits]
    · rw [flush_eq _ files hfits, path_new]
      exact new_eq (Assoc.get_put_self _ _ _)

theorem get_flushed_iff_two :
    ((new [] (ascii "t")).flush Device.sound [] [(ascii "a", []), (ascii "b", ascii "2")]).1.get
      ((new [] (ascii "t")).flush Device.sound [] [(ascii "a", []), (ascii "b", ascii "2")]).2
      (ascii "b") = some (ascii "2") :=
  ((get_flushed_iff (by decide) (by decide) (new [] (ascii "t")) [] (ascii "b")).1 _).mpr
    (by decide)

theorem decoders_agree_iff_two :
    GivenBack [] (ascii "t") [(ascii "a", []), (ascii "b", ascii "2")] :=
  ((decoders_agree_iff (by decide) [] (ascii "t")).mpr (by decide)).2

/-- A value of 2 ^ 32 bytes: its length is written as zero, and so is it read. -/
theorem long_value_not_given_back :
    Assoc.Sorted [(([] : Bytes), List.replicate (2 ^ 32) (0 : UInt8))] ∧
      ¬ GivenBack [] (ascii "t") [([], List.replicate (2 ^ 32) 0)] := by
  refine ⟨List.pairwise_singleton _ _, ?_⟩
  intro hback
  have hfits := (hback.fits _ (List.mem_singleton.mpr rfl)).2
  unfold Fits at hfits
  rw [List.length_replicate] at hfits
  exact lt_irrefl _ hfits

end SSTable

end VaultDB
