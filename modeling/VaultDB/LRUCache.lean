import Mathlib.Data.List.Nodup
import VaultDB.Library.Assoc

/-! # LRU cache

`src/cache/lru_cache.h`: a doubly-linked list of items, most recently used
first, and a hash map from keys to iterators into the list. A list node is
modelled with an address, which is what an iterator holds; using an iterator
whose node is gone, or the back of an empty list, is undefined behaviour and
gives `none`.
-/

namespace VaultDB

/-- A list node at the address `id`. -/
structure Node (K V : Type*) where
  id : Nat
  key : K
  value : V
deriving Repr, DecidableEq

structure LRUCache (K V : Type*) where
  capacity : Nat
  items : List (Node K V)
  /-- `index_`: key to the address of its node. -/
  index : List (K × Nat)
  /-- No live node has this address or a larger one. -/
  nextId : Nat
deriving Repr, DecidableEq

namespace LRUCache

variable {K V : Type*}

def new (capacity : Nat) : LRUCache K V := ⟨capacity, [], [], 0⟩

/-- `*it`. -/
def deref (items : List (Node K V)) (it : Nat) : Option (Node K V) :=
  items.find? fun n => n.id = it

/-- The list without the node at `it`. -/
def unlink (items : List (Node K V)) (it : Nat) : List (Node K V) :=
  items.filter fun n => n.id ≠ it

/-- `items_.splice(items_.begin(), items_, it)`. -/
def spliceFront (items : List (Node K V)) (it : Nat) : Option (List (Node K V)) :=
  (deref items it).map fun n => n :: unlink items it

/-- `it->second = value`. -/
def assign (items : List (Node K V)) (it : Nat) (value : V) : List (Node K V) :=
  items.map fun n => if n.id = it then { n with value := value } else n

section Operations

variable [DecidableEq K]

def get (cache : LRUCache K V) (key : K) : Option (Option V × LRUCache K V) :=
  match Assoc.get key cache.index with
  | none => some (none, cache)
  | some it => do
    let items ← spliceFront cache.items it
    let node ← deref items it
    return (some node.value, { cache with items := items })

/-- The eviction in `put`: the node at the back, and its index entry. -/
def evict (cache : LRUCache K V) : Option (LRUCache K V) :=
  cache.items.getLast?.map fun lru =>
    { cache with index := Assoc.erase lru.key cache.index, items := cache.items.dropLast }

/-- The insertion in `put`: a new node in front. -/
def emplaceFront (cache : LRUCache K V) (key : K) (value : V) : LRUCache K V :=
  { cache with
    items := ⟨cache.nextId, key, value⟩ :: cache.items
    index := Assoc.put key cache.nextId cache.index
    nextId := cache.nextId + 1 }

def put (cache : LRUCache K V) (key : K) (value : V) : Option (LRUCache K V) :=
  match Assoc.get key cache.index with
  | some it => do
    let _ ← deref cache.items it
    let items ← spliceFront (assign cache.items it value) it
    return { cache with items := items }
  | none =>
    if cache.capacity ≤ cache.items.length then
      cache.evict.map fun cache => cache.emplaceFront key value
    else some (cache.emplaceFront key value)

def remove (cache : LRUCache K V) (key : K) : Option (Bool × LRUCache K V) :=
  match Assoc.get key cache.index with
  | none => some (false, cache)
  | some it => do
    let _ ← deref cache.items it
    return (true,
      { cache with items := unlink cache.items it, index := Assoc.erase key cache.index })

end Operations

def clear (cache : LRUCache K V) : LRUCache K V := { cache with items := [], index := [] }

def size (cache : LRUCache K V) : Nat := cache.items.length

section Capacity

variable [DecidableEq K]

theorem capacity_get {cache cache' : LRUCache K V} {key : K} {r : Option V}
    (h : cache.get key = some (r, cache')) : cache'.capacity = cache.capacity := by
  unfold get at h
  split at h
  · simp only [Option.some.injEq, Prod.mk.injEq] at h
    rw [h.2]
  · simp only [bind, Option.bind_eq_some_iff, pure, Option.some.injEq, Prod.mk.injEq] at h
    rcases h with ⟨items, -, node, -, -, rfl⟩
    rfl

theorem capacity_put {cache cache' : LRUCache K V} {key : K} {value : V}
    (h : cache.put key value = some cache') : cache'.capacity = cache.capacity := by
  unfold put at h
  split at h
  · simp only [bind, Option.bind_eq_some_iff, pure, Option.some.injEq] at h
    rcases h with ⟨-, -, items, -, rfl⟩
    rfl
  · split_ifs at h
    · unfold evict at h
      simp only [Option.map_map, Option.map_eq_some_iff, Function.comp] at h
      rcases h with ⟨lru, -, rfl⟩
      rfl
    · cases h
      rfl

theorem capacity_remove {cache cache' : LRUCache K V} {key : K} {b : Bool}
    (h : cache.remove key = some (b, cache')) : cache'.capacity = cache.capacity := by
  unfold remove at h
  split at h
  · simp only [Option.some.injEq, Prod.mk.injEq] at h
    rw [h.2]
  · simp only [bind, Option.bind_eq_some_iff, pure, Option.some.injEq, Prod.mk.injEq] at h
    rcases h with ⟨node, -, -, rfl⟩
    rfl

end Capacity

/-! ## Nodes -/

theorem eq_of_id_eq {items : List (Node K V)} (hids : (items.map Node.id).Nodup)
    {n m : Node K V} (hn : n ∈ items) (hm : m ∈ items) (h : n.id = m.id) : n = m :=
  List.inj_on_of_nodup_map hids hn hm h

theorem deref_of_mem {items : List (Node K V)} (hids : (items.map Node.id).Nodup) {n : Node K V}
    (hn : n ∈ items) : deref items n.id = some n := by
  unfold deref
  cases h : items.find? fun m => m.id = n.id with
  | none =>
      have hnone := List.find?_eq_none.mp h n hn
      simp at hnone
  | some m =>
      have hm := List.mem_of_find?_eq_some h
      have hid := List.find?_some h
      simp only [decide_eq_true_eq] at hid
      rw [eq_of_id_eq hids hm hn hid]

theorem mem_unlink {items : List (Node K V)} {it : Nat} {n : Node K V} :
    n ∈ unlink items it ↔ n ∈ items ∧ n.id ≠ it := by
  unfold unlink
  simp

theorem nodup_unlink {items : List (Node K V)} (hids : (items.map Node.id).Nodup) (it : Nat) :
    ((unlink items it).map Node.id).Nodup :=
  hids.sublist (List.Sublist.map _ List.filter_sublist)

/-- Splicing an existing node to the front keeps the nodes. -/
theorem spliceFront_spec {items : List (Node K V)} (hids : (items.map Node.id).Nodup)
    {n : Node K V} (hn : n ∈ items) :
    ∃ items', spliceFront items n.id = some items' ∧ (∀ m, m ∈ items' ↔ m ∈ items) ∧
      (items'.map Node.id).Nodup := by
  refine ⟨n :: unlink items n.id, ?_, ?_, ?_⟩
  · unfold spliceFront
    rw [deref_of_mem hids hn]
    rfl
  · intro m
    rw [List.mem_cons, mem_unlink]
    constructor
    · rintro (rfl | ⟨hm, -⟩)
      · exact hn
      · exact hm
    · -- the node with this address is the one that is spliced
      intro hm
      by_cases h : m.id = n.id
      · exact Or.inl (eq_of_id_eq hids hm hn h)
      · exact Or.inr ⟨hm, h⟩
  · rw [List.map_cons, List.nodup_cons]
    refine ⟨?_, nodup_unlink hids _⟩
    intro hmem
    rcases List.mem_map.mp hmem with ⟨m, hm, hid⟩
    exact (mem_unlink.mp hm).2 hid

theorem mem_assign {items : List (Node K V)} {it : Nat} {value : V} {m : Node K V} :
    m ∈ assign items it value ↔
      (∃ n ∈ items, n.id = it ∧ m = { n with value := value }) ∨ (m ∈ items ∧ m.id ≠ it) := by
  unfold assign
  rw [List.mem_map]
  constructor
  · rintro ⟨n, hn, rfl⟩
    by_cases hid : n.id = it
    · rw [if_pos hid]
      exact Or.inl ⟨n, hn, hid, rfl⟩
    · rw [if_neg hid]
      exact Or.inr ⟨hn, hid⟩
  · rintro (⟨n, hn, hid, rfl⟩ | ⟨hm, hid⟩)
    · exact ⟨n, hn, if_pos hid⟩
    · exact ⟨m, hm, if_neg hid⟩

theorem map_id_assign (items : List (Node K V)) (it : Nat) (value : V) :
    (assign items it value).map Node.id = items.map Node.id := by
  unfold assign
  rw [List.map_map]
  apply List.map_congr_left
  intro n _
  by_cases h : n.id = it
  · simp [h]
  · simp [h]

/-- `put` on a key that has a node: the node gets the value and goes to the
front, the others stay. -/
theorem spliceFront_assign {items : List (Node K V)} (hids : (items.map Node.id).Nodup)
    {n : Node K V} (hn : n ∈ items) (value : V) :
    ∃ items', spliceFront (assign items n.id value) n.id = some items' ∧
      (items'.map Node.id).Nodup ∧
      ∀ m, m ∈ items' ↔ m = { n with value := value } ∨ (m ∈ items ∧ m.id ≠ n.id) := by
  have hids' : ((assign items n.id value).map Node.id).Nodup := by
    rw [map_id_assign]
    exact hids
  have hn' : ({ n with value := value } : Node K V) ∈ assign items n.id value :=
    mem_assign.mpr (Or.inl ⟨n, hn, rfl, rfl⟩)
  rcases spliceFront_spec hids' hn' with ⟨items', hsplice, hmem, hnodup⟩
  refine ⟨items', hsplice, hnodup, ?_⟩
  intro m
  rw [hmem, mem_assign]
  constructor
  · rintro (⟨n', hn', hid, rfl⟩ | hm)
    · rw [eq_of_id_eq hids hn' hn hid]
      exact Or.inl rfl
    · exact Or.inr hm
  · rintro (rfl | hm)
    · exact Or.inl ⟨n, hn, rfl, rfl⟩
    · exact Or.inr hm

/-! ## What the cache holds -/

/-- The cache holds `value` for `key`. -/
def Holds (cache : LRUCache K V) (key : K) (value : V) : Prop :=
  ∃ n ∈ cache.items, n.key = key ∧ n.value = value

/-- Keys and values, most recently used first. -/
def contents (cache : LRUCache K V) : List (K × V) := cache.items.map fun n => (n.key, n.value)

theorem mem_contents {cache : LRUCache K V} {key : K} {value : V} :
    (key, value) ∈ cache.contents ↔ cache.Holds key value := by
  unfold contents Holds
  simp

theorem keys_contents (cache : LRUCache K V) :
    cache.contents.map Prod.fst = cache.items.map Node.key := by
  unfold contents
  rw [List.map_map]
  rfl

theorem length_contents (cache : LRUCache K V) : cache.contents.length = cache.size :=
  List.length_map _

/-! ## List and index in step -/

variable [DecidableEq K]

/-- The index maps exactly the keys of the live nodes, each to its own node. -/
structure Linked (cache : LRUCache K V) : Prop where
  ids : (cache.items.map Node.id).Nodup
  fresh : ∀ n ∈ cache.items, n.id < cache.nextId
  index_iff : ∀ k it, Assoc.get k cache.index = some it ↔ ∃ n ∈ cache.items, n.id = it ∧ n.key = k

theorem linked_new (capacity : Nat) : (new capacity : LRUCache K V).Linked :=
  ⟨List.nodup_nil, by simp [new], by simp [new]⟩

theorem Linked.index_of_mem {cache : LRUCache K V} (h : cache.Linked) {n : Node K V}
    (hn : n ∈ cache.items) : Assoc.get n.key cache.index = some n.id :=
  (h.index_iff n.key n.id).mpr ⟨n, hn, rfl, rfl⟩

/-- No node has a key that is not in the index. -/
theorem Linked.key_ne {cache : LRUCache K V} (h : cache.Linked) {key : K}
    (hnone : Assoc.get key cache.index = none) {n : Node K V} (hn : n ∈ cache.items) :
    n.key ≠ key := by
  rintro rfl
  rw [h.index_of_mem hn] at hnone
  cases hnone

/-- No two nodes have one key. -/
theorem Linked.eq_of_key_eq {cache : LRUCache K V} (h : cache.Linked) {n m : Node K V}
    (hn : n ∈ cache.items) (hm : m ∈ cache.items) (hkey : n.key = m.key) : n = m := by
  -- the index has one address for the key
  have hn' := h.index_of_mem hn
  rw [hkey, h.index_of_mem hm] at hn'
  exact eq_of_id_eq h.ids hn hm (Option.some.inj hn').symm

/-- Among the nodes, another address is another key. -/
theorem Linked.id_ne_iff {cache : LRUCache K V} (h : cache.Linked) {n m : Node K V}
    (hm : m ∈ cache.items) (hn : n ∈ cache.items) : m.id ≠ n.id ↔ m.key ≠ n.key := by
  rw [not_iff_not]
  constructor
  · intro hid
    rw [eq_of_id_eq h.ids hm hn hid]
  · intro hkey
    exact congrArg Node.id (h.eq_of_key_eq hm hn hkey)

/-- Two values held for one key are the same value. -/
theorem Linked.holds_unique {cache : LRUCache K V} (h : cache.Linked) {k : K} {v w : V}
    (hv : cache.Holds k v) (hw : cache.Holds k w) : v = w := by
  rcases hv with ⟨n, hn, hnk, rfl⟩
  rcases hw with ⟨m, hm, hmk, rfl⟩
  rw [h.eq_of_key_eq hn hm (hnk.trans hmk.symm)]

theorem Linked.nodup_keys {cache : LRUCache K V} (h : cache.Linked) :
    (cache.contents.map Prod.fst).Nodup := by
  rw [keys_contents]
  exact (h.ids.of_map _).map_on fun n hn m hm hkey => h.eq_of_key_eq hn hm hkey

theorem Linked.get_contents {cache : LRUCache K V} (h : cache.Linked) {key : K} {value : V} :
    Assoc.get key cache.contents = some value ↔ cache.Holds key value := by
  rw [← mem_contents]
  exact ⟨Assoc.mem_of_get, Assoc.get_of_mem h.nodup_keys⟩

/-- A cache whose list holds the same nodes, in any order, is as well linked. -/
theorem Linked.of_same_nodes {cache cache' : LRUCache K V} (h : cache.Linked)
    (hmem : ∀ n, n ∈ cache'.items ↔ n ∈ cache.items) (hids : (cache'.items.map Node.id).Nodup)
    (hindex : cache'.index = cache.index) (hnext : cache'.nextId = cache.nextId) :
    cache'.Linked := by
  refine ⟨hids, ?_, ?_⟩
  · intro n hn
    rw [hnext]
    exact h.fresh n ((hmem n).mp hn)
  · intro k it
    rw [hindex, h.index_iff]
    simp only [hmem]

/-- A node leaves the list with its entry of the index. -/
theorem Linked.without {cache : LRUCache K V} (h : cache.Linked) {n : Node K V}
    (hn : n ∈ cache.items) {items : List (Node K V)} (hids : (items.map Node.id).Nodup)
    (hmem : ∀ m, m ∈ items ↔ m ∈ cache.items ∧ m.id ≠ n.id) :
    ({ cache with items := items, index := Assoc.erase n.key cache.index } :
      LRUCache K V).Linked := by
  refine ⟨hids, ?_, ?_⟩
  · intro m hm
    exact h.fresh m ((hmem m).mp hm).1
  · intro k it
    -- the node that goes is the only one with the key
    by_cases hk : k = n.key
    · subst hk
      rw [Assoc.get_erase_self]
      constructor
      · intro hnone
        cases hnone
      · rintro ⟨m, hm, -, hmk⟩
        rcases (hmem m).mp hm with ⟨hm, hid⟩
        exact absurd hmk ((h.id_ne_iff hm hn).mp hid)
    · rw [Assoc.get_erase_ne hk, h.index_iff]
      constructor
      · rintro ⟨m, hm, hid, hmk⟩
        refine ⟨m, (hmem m).mpr ⟨hm, (h.id_ne_iff hm hn).mpr ?_⟩, hid, hmk⟩
        rw [hmk]
        exact hk
      · rintro ⟨m, hm, hid, hmk⟩
        exact ⟨m, ((hmem m).mp hm).1, hid, hmk⟩

/-- A node carries a new value, at the address and under the key it had. -/
theorem Linked.of_assigned {cache : LRUCache K V} (h : cache.Linked) {n : Node K V}
    (hn : n ∈ cache.items) {value : V} {items : List (Node K V)}
    (hids : (items.map Node.id).Nodup)
    (hmem : ∀ m, m ∈ items ↔ m = { n with value := value } ∨ (m ∈ cache.items ∧ m.id ≠ n.id)) :
    ({ cache with items := items } : LRUCache K V).Linked := by
  refine ⟨hids, ?_, ?_⟩
  · intro m hm
    rcases (hmem m).mp hm with rfl | ⟨hm, -⟩
    · exact h.fresh n hn
    · exact h.fresh m hm
  · intro k it
    rw [h.index_iff]
    constructor
    · rintro ⟨m, hm, hid, hk⟩
      by_cases hmn : m.id = n.id
      · have hmn' := eq_of_id_eq h.ids hm hn hmn
        subst hmn'
        exact ⟨{ m with value := value }, (hmem _).mpr (Or.inl rfl), hid, hk⟩
      · exact ⟨m, (hmem m).mpr (Or.inr ⟨hm, hmn⟩), hid, hk⟩
    · rintro ⟨m, hm, hid, hk⟩
      rcases (hmem m).mp hm with rfl | ⟨hm, -⟩
      · exact ⟨n, hn, hid, hk⟩
      · exact ⟨m, hm, hid, hk⟩

/-! ## One lemma for each operation -/

/-- `get` returns what is held and changes the order only. -/
theorem get_spec {cache : LRUCache K V} (h : cache.Linked) (key : K) :
    ∃ r cache', cache.get key = some (r, cache') ∧ cache'.Linked ∧
      cache'.capacity = cache.capacity ∧ (∀ v, r = some v ↔ cache.Holds key v) ∧
      (∀ k v, cache'.Holds k v ↔ cache.Holds k v) := by
  unfold get
  cases hidx : Assoc.get key cache.index with
  | none =>
      refine ⟨none, cache, rfl, h, rfl, ?_, fun _ _ => Iff.rfl⟩
      intro v
      constructor
      · intro hv
        cases hv
      · rintro ⟨n, hn, hk, -⟩
        exact absurd hk (h.key_ne hidx hn)
  | some it =>
      rcases (h.index_iff key it).mp hidx with ⟨n, hn, rfl, hk⟩
      -- the node stands at the same address in front, so the iterator is still good
      rcases spliceFront_spec h.ids hn with ⟨items', hsplice, hmem, hids⟩
      have hderef := deref_of_mem hids ((hmem n).mpr hn)
      refine ⟨some n.value, { cache with items := items' }, ?_, ?_, rfl, ?_, ?_⟩
      · simp [hsplice, hderef]
      · exact h.of_same_nodes hmem hids rfl rfl
      · -- what is found is what is held, since no key is held twice
        intro v
        constructor
        · intro hv
          cases hv
          exact ⟨n, hn, hk, rfl⟩
        · intro hv
          rw [h.holds_unique hv ⟨n, hn, hk, rfl⟩]
      · intro k v
        unfold Holds
        simp only [hmem]

/-- After evicting the back, the other nodes are still linked. -/
theorem evict_linked {cache cache' : LRUCache K V} (h : cache.Linked)
    (hevict : cache.evict = some cache') :
    cache'.Linked ∧ cache'.capacity = cache.capacity ∧ (∀ n ∈ cache'.items, n ∈ cache.items) ∧
      (∀ k, Assoc.get k cache.index = none → Assoc.get k cache'.index = none) := by
  unfold evict at hevict
  rcases Option.map_eq_some_iff.mp hevict with ⟨lru, hlast, rfl⟩
  have hsplit : cache.items.dropLast ++ [lru] = cache.items :=
    List.dropLast_append_getLast? lru (by rw [hlast]; rfl)
  have hlru : lru ∈ cache.items := List.mem_of_getLast? hlast
  have hids := h.ids
  rw [← hsplit, List.map_append, List.nodup_append] at hids
  have hmem : ∀ n, n ∈ cache.items.dropLast ↔ n ∈ cache.items ∧ n.id ≠ lru.id := by
    intro n
    constructor
    · intro hn
      exact ⟨List.dropLast_subset _ hn, hids.2.2 n.id (List.mem_map_of_mem hn) lru.id (by simp)⟩
    · rintro ⟨hn, hid⟩
      rw [← hsplit, List.mem_append] at hn
      rcases hn with hn | hn
      · exact hn
      · rw [List.mem_singleton.mp hn] at hid
        exact absurd rfl hid
  refine ⟨h.without hlru hids.1 hmem, rfl, ?_, ?_⟩
  · intro n hn
    exact List.dropLast_subset _ hn
  · intro k hk
    by_cases hlk : k = lru.key
    · subst hlk
      exact Assoc.get_erase_self _ _
    · exact (Assoc.get_erase_ne hlk _).trans hk

/-- Inserting a key that has no node. -/
theorem emplaceFront_linked {cache : LRUCache K V} (h : cache.Linked) {key : K}
    (hnew : Assoc.get key cache.index = none) (value : V) :
    (cache.emplaceFront key value).Linked := by
  unfold emplaceFront
  have hfresh : ∀ n ∈ cache.items, n.id ≠ cache.nextId := fun n hn => Nat.ne_of_lt (h.fresh n hn)
  refine ⟨?_, ?_, ?_⟩
  · rw [List.map_cons, List.nodup_cons]
    refine ⟨?_, h.ids⟩
    intro hmem
    rcases List.mem_map.mp hmem with ⟨n, hn, hid⟩
    exact hfresh n hn hid
  · intro n hn
    rcases List.mem_cons.mp hn with rfl | hn
    · exact Nat.lt_succ_self _
    · exact Nat.lt_succ_of_lt (h.fresh n hn)
  · intro k it
    simp only [List.mem_cons, exists_eq_or_imp]
    by_cases hk : k = key
    · subst hk
      rw [Assoc.get_put_self]
      constructor
      · intro hit
        cases hit
        exact Or.inl ⟨rfl, rfl⟩
      · rintro (⟨rfl, -⟩ | ⟨n, hn, hid, hkey⟩)
        · rfl
        · exact absurd hkey (h.key_ne hnew hn)
    · rw [Assoc.get_put_ne hk, h.index_iff]
      constructor
      · intro hn
        exact Or.inr hn
      · rintro (⟨-, hkey⟩ | hn)
        · exact absurd hkey.symm hk
        · exact hn

theorem holds_emplaceFront {cache : LRUCache K V} {key k : K} {value v : V}
    (h : (cache.emplaceFront key value).Holds k v) : (k = key ∧ v = value) ∨ cache.Holds k v := by
  rcases h with ⟨m, hm, rfl, rfl⟩
  rcases List.mem_cons.mp hm with rfl | hm
  · exact Or.inl ⟨rfl, rfl⟩
  · exact Or.inr ⟨m, hm, rfl, rfl⟩

/-- `put` holds the new value, and otherwise at most what was held before. -/
theorem put_spec {cache cache' : LRUCache K V} (h : cache.Linked) {key : K} {value : V}
    (hput : cache.put key value = some cache') :
    cache'.Linked ∧ cache'.capacity = cache.capacity ∧
      (∀ k v, cache'.Holds k v → (k = key ∧ v = value) ∨ (k ≠ key ∧ cache.Holds k v)) := by
  unfold put at hput
  cases hidx : Assoc.get key cache.index with
  | some it =>
      rcases (h.index_iff key it).mp hidx with ⟨n, hn, rfl, rfl⟩
      -- the node at the key's address carries the new value, the others are as before
      rcases spliceFront_assign h.ids hn value with ⟨items', hsplice, hids, hnodes⟩
      have hcache : cache' = { cache with items := items' } := by
        simp [hidx, deref_of_mem h.ids hn, hsplice] at hput
        exact hput.symm
      subst hcache
      refine ⟨h.of_assigned hn hids hnodes, rfl, ?_⟩
      rintro k v ⟨m, hm, rfl, rfl⟩
      rcases (hnodes m).mp hm with rfl | ⟨hm, hid⟩
      · exact Or.inl ⟨rfl, rfl⟩
      · exact Or.inr ⟨(h.id_ne_iff hm hn).mp hid, m, hm, rfl, rfl⟩
  | none =>
      have hnokey : ∀ k v, cache.Holds k v → k ≠ key := by
        rintro k v ⟨n, hn, rfl, rfl⟩
        exact h.key_ne hidx hn
      simp only [hidx] at hput
      split_ifs at hput with hfull
      · -- a full cache evicts first, and the evicted key is not the new one
        rcases Option.map_eq_some_iff.mp hput with ⟨cache₁, hevict, rfl⟩
        rcases evict_linked h hevict with ⟨hlinked, hcap, hsub, hidx'⟩
        refine ⟨emplaceFront_linked hlinked (hidx' key hidx) value, hcap, ?_⟩
        intro k v hholds
        rcases holds_emplaceFront hholds with hnew | ⟨m, hm, hk, hv⟩
        · exact Or.inl hnew
        · have hold : cache.Holds k v := ⟨m, hsub m hm, hk, hv⟩
          exact Or.inr ⟨hnokey k v hold, hold⟩
      · cases hput
        refine ⟨emplaceFront_linked h hidx value, rfl, ?_⟩
        intro k v hholds
        rcases holds_emplaceFront hholds with hnew | hold
        · exact Or.inl hnew
        · exact Or.inr ⟨hnokey k v hold, hold⟩

/-- With a positive capacity `put` never takes the back of an empty list. -/
theorem put_isSome {cache : LRUCache K V} (h : cache.Linked) (hcap : 0 < cache.capacity)
    (key : K) (value : V) : ∃ cache', cache.put key value = some cache' := by
  unfold put
  cases hidx : Assoc.get key cache.index with
  | some it =>
      rcases (h.index_iff key it).mp hidx with ⟨n, hn, rfl, -⟩
      rcases spliceFront_assign h.ids hn value with ⟨items', hsplice, -, -⟩
      exact ⟨{ cache with items := items' }, by simp [deref_of_mem h.ids hn, hsplice]⟩
  | none =>
      by_cases hfull : cache.capacity ≤ cache.items.length
      · have hne : cache.items ≠ [] := List.length_pos_iff.mp (by omega)
        rcases List.getLast?_isSome.mpr hne |> Option.isSome_iff_exists.mp with ⟨lru, hlru⟩
        simp [hfull, evict, hlru]
      · simp [hfull]

/-- Without capacity there is nothing to evict. -/
theorem put_eq_none {cache : LRUCache K V} (h : cache.Linked) (hcap : cache.capacity = 0)
    (hitems : cache.items = []) (key : K) (value : V) : cache.put key value = none := by
  have hidx : Assoc.get key cache.index = none := by
    cases hidx : Assoc.get key cache.index with
    | none => rfl
    | some it =>
        rcases (h.index_iff key it).mp hidx with ⟨n, hn, -, -⟩
        rw [hitems] at hn
        cases hn
  unfold put
  simp [hidx, hcap, hitems, evict]

/-- `remove` forgets the key and nothing else. -/
theorem remove_spec {cache : LRUCache K V} (h : cache.Linked) (key : K) :
    ∃ b cache', cache.remove key = some (b, cache') ∧ cache'.Linked ∧
      cache'.capacity = cache.capacity ∧
      (∀ k v, cache'.Holds k v ↔ k ≠ key ∧ cache.Holds k v) := by
  unfold remove
  cases hidx : Assoc.get key cache.index with
  | none =>
      refine ⟨false, cache, rfl, h, rfl, ?_⟩
      intro k v
      constructor
      · rintro ⟨n, hn, rfl, rfl⟩
        exact ⟨h.key_ne hidx hn, n, hn, rfl, rfl⟩
      · exact fun hv => hv.2
  | some it =>
      rcases (h.index_iff key it).mp hidx with ⟨n, hn, rfl, rfl⟩
      have hlinked := h.without hn (nodup_unlink h.ids n.id) fun _ => mem_unlink
      refine ⟨true, _, ?_, hlinked, rfl, ?_⟩
      · simp [deref_of_mem h.ids hn]
      · intro k v
        constructor
        · rintro ⟨m, hm, rfl, rfl⟩
          rcases mem_unlink.mp hm with ⟨hm, hid⟩
          exact ⟨(h.id_ne_iff hm hn).mp hid, m, hm, rfl, rfl⟩
        · rintro ⟨hk, m, hm, rfl, rfl⟩
          exact ⟨m, mem_unlink.mpr ⟨hm, (h.id_ne_iff hm hn).mpr hk⟩, rfl, rfl⟩

/-! ## Caches in use -/

/-- What every cache in use is: linked, empty where it has no room, and holding
values with the property `P` only. -/
structure Keeps (P : V → Prop) (cache : LRUCache K V) : Prop where
  linked : cache.Linked
  values : ∀ k v, cache.Holds k v → P v
  empty : cache.capacity = 0 → cache.items = []

variable {P : V → Prop}

theorem keeps_new (capacity : Nat) : (new capacity : LRUCache K V).Keeps P := by
  refine ⟨linked_new capacity, ?_, fun _ => rfl⟩
  rintro k v ⟨n, hn, -, -⟩
  cases hn

/-- A cache that holds something has room. -/
theorem Keeps.pos_of_holds {cache : LRUCache K V} (h : cache.Keeps P) {key : K} {value : V}
    (hholds : cache.Holds key value) : 0 < cache.capacity := by
  rcases hholds with ⟨n, hn, -, -⟩
  apply Nat.pos_of_ne_zero
  intro hzero
  rw [h.empty hzero] at hn
  cases hn

/-- A linked cache that holds no more than another one and has the same room. -/
theorem Keeps.of_holds {cache cache' : LRUCache K V} (h : cache.Keeps P) (hlinked : cache'.Linked)
    (hcap : cache'.capacity = cache.capacity)
    (hholds : ∀ k v, cache'.Holds k v → cache.Holds k v) : cache'.Keeps P := by
  refine ⟨hlinked, fun k v hv => h.values k v (hholds k v hv), ?_⟩
  intro hzero
  rw [hcap] at hzero
  rw [List.eq_nil_iff_forall_not_mem]
  intro n hn
  rcases hholds n.key n.value ⟨n, hn, rfl, rfl⟩ with ⟨m, hm, -, -⟩
  rw [h.empty hzero] at hm
  cases hm

theorem Keeps.get {cache : LRUCache K V} (h : cache.Keeps P) (key : K) :
    ∃ r cache', cache.get key = some (r, cache') ∧ cache'.Keeps P ∧
      cache'.capacity = cache.capacity ∧ ∀ v, r = some v ↔ cache.Holds key v := by
  rcases get_spec h.linked key with ⟨r, cache', hget, hlinked, hcap, hr, hholds⟩
  exact ⟨r, cache', hget, h.of_holds hlinked hcap fun k v => (hholds k v).mp, hcap, hr⟩

theorem Keeps.remove {cache : LRUCache K V} (h : cache.Keeps P) (key : K) :
    ∃ b cache', cache.remove key = some (b, cache') ∧ cache'.Keeps P ∧
      cache'.capacity = cache.capacity := by
  rcases remove_spec h.linked key with ⟨b, cache', hremove, hlinked, hcap, hholds⟩
  exact ⟨b, cache', hremove, h.of_holds hlinked hcap fun k v hv => ((hholds k v).mp hv).2, hcap⟩

/-- A cache in use takes a value exactly when it has room for one. -/
theorem Keeps.put_isSome_iff {cache : LRUCache K V} (h : cache.Keeps P) (key : K) (value : V) :
    (∃ cache', cache.put key value = some cache') ↔ 0 < cache.capacity := by
  constructor
  · rintro ⟨cache', hput⟩
    by_contra hzero
    have hcap : cache.capacity = 0 := by omega
    rw [put_eq_none h.linked hcap (h.empty hcap)] at hput
    cases hput
  · intro hcap
    exact put_isSome h.linked hcap key value

theorem Keeps.put {cache cache' : LRUCache K V} (h : cache.Keeps P) {key : K} {value : V}
    (hvalue : P value) (hput : cache.put key value = some cache') :
    cache'.Keeps P ∧ cache'.capacity = cache.capacity := by
  rcases put_spec h.linked hput with ⟨hlinked, hcap, hholds⟩
  refine ⟨⟨hlinked, ?_, ?_⟩, hcap⟩
  · intro k v hv
    rcases hholds k v hv with ⟨-, rfl⟩ | ⟨-, hv⟩
    · exact hvalue
    · exact h.values k v hv
  · -- there was room, or nothing could have been put
    intro hzero
    have hpos := (h.put_isSome_iff key value).mp ⟨cache', hput⟩
    omega

end LRUCache

end VaultDB
