import VaultDB.Library.Recency
import VaultDB.Library.Run
import VaultDB.LRUCache

/-! # The cache refines a recency list

`index_` and `items_` are updated separately by each operation. Together they
are a recency list: as long as they are in step, every call is defined and does
to the contents what the policy does to its list (`Linked.step`). What the
policy owes to the history then holds of the cache (`lru_refines_recency`).
-/

namespace VaultDB

namespace LRUCache

variable {K V : Type*}

theorem spliceFront_eq {items : List (Node K V)} (hids : (items.map Node.id).Nodup)
    {n : Node K V} (hn : n ∈ items) : spliceFront items n.id = some (n :: unlink items n.id) := by
  unfold spliceFront
  rw [deref_of_mem hids hn]
  rfl

/-- The node that is assigned to is the one that is unlinked. -/
theorem unlink_assign (items : List (Node K V)) (it : Nat) (value : V) :
    unlink (assign items it value) it = unlink items it := by
  unfold unlink assign
  induction items with
  | nil => rfl
  | cons n items ih =>
      by_cases hid : n.id = it
      · simpa [hid] using ih
      · simpa [hid] using ih

variable [DecidableEq K]

/-- One call, its answer left aside. -/
def step (cache : LRUCache K V) : Recency.Op K V → Option (LRUCache K V)
  | .put key value => cache.put key value
  | .get key => (cache.get key).map Prod.snd
  | .remove key => (cache.remove key).map Prod.snd
  | .clear => some cache.clear

theorem capacity_step {cache cache' : LRUCache K V} {op : Recency.Op K V}
    (h : cache.step op = some cache') : cache'.capacity = cache.capacity := by
  cases op with
  | put key value => exact capacity_put h
  | get key =>
      rcases Option.map_eq_some_iff.mp h with ⟨⟨r, cache₁⟩, hget, rfl⟩
      exact capacity_get hget
  | remove key =>
      rcases Option.map_eq_some_iff.mp h with ⟨⟨b, cache₁⟩, hremove, rfl⟩
      exact capacity_remove hremove
  | clear =>
      cases h
      rfl

/-! ## What each operation does to the contents -/

variable {cache cache' : LRUCache K V} {key : K}

theorem Linked.not_mem_of_index (h : cache.Linked) (hidx : Assoc.get key cache.index = none) :
    key ∉ cache.contents.map Prod.fst := by
  rw [keys_contents]
  intro hmem
  rcases List.mem_map.mp hmem with ⟨n, hn, hkey⟩
  exact h.key_ne hidx hn hkey

theorem Linked.get_contents_of_mem (h : cache.Linked) {n : Node K V} (hn : n ∈ cache.items) :
    Assoc.get n.key cache.contents = some n.value :=
  h.get_contents.mpr ⟨n, hn, rfl, rfl⟩

/-- Without its node a key is out of the contents. -/
theorem Linked.contents_unlink (h : cache.Linked) {n : Node K V} (hn : n ∈ cache.items) :
    ((unlink cache.items n.id).map fun m => (m.key, m.value)) =
      Assoc.erase n.key cache.contents := by
  unfold unlink contents Assoc.erase
  rw [List.filter_map]
  congr 1
  apply List.filter_congr
  intro m hm
  exact decide_eq_decide.mpr (h.id_ne_iff hm hn)

theorem Linked.contents_get (h : cache.Linked) {r : Option V}
    (hget : cache.get key = some (r, cache')) :
    r = Assoc.get key cache.contents ∧
      cache'.contents = Recency.apply cache.capacity cache.contents (.get key) := by
  unfold get at hget
  cases hidx : Assoc.get key cache.index with
  | none =>
      have hnone := Assoc.get_eq_none_iff.mpr (h.not_mem_of_index hidx)
      rw [hidx] at hget
      cases hget
      rw [Recency.apply_get_of_none hnone, hnone]
      exact ⟨rfl, rfl⟩
  | some it =>
      rcases (h.index_iff key it).mp hidx with ⟨n, hn, rfl, rfl⟩
      have hsplice := spliceFront_eq h.ids hn
      have hfront : deref (n :: unlink cache.items n.id) n.id = some n := by
        unfold deref
        simp
      simp only [hidx, hsplice, hfront, bind, Option.bind, pure, Option.some.injEq,
        Prod.mk.injEq] at hget
      rcases hget with ⟨rfl, rfl⟩
      rw [Recency.apply_get_of_some (h.get_contents_of_mem hn), h.get_contents_of_mem hn]
      refine ⟨rfl, ?_⟩
      unfold Assoc.put
      rw [← h.contents_unlink hn]
      rfl

theorem Linked.contents_remove (h : cache.Linked) {b : Bool}
    (hremove : cache.remove key = some (b, cache')) :
    cache'.contents = Assoc.erase key cache.contents := by
  unfold remove at hremove
  cases hidx : Assoc.get key cache.index with
  | none =>
      rw [hidx] at hremove
      cases hremove
      exact (Assoc.erase_eq_self (h.not_mem_of_index hidx)).symm
  | some it =>
      rcases (h.index_iff key it).mp hidx with ⟨n, hn, rfl, rfl⟩
      simp only [hidx, deref_of_mem h.ids hn, bind, Option.bind, pure, Option.some.injEq,
        Prod.mk.injEq] at hremove
      rcases hremove with ⟨-, rfl⟩
      exact h.contents_unlink hn

/-- A key that is there goes to the front with the new value. -/
theorem Linked.contents_put_listed (h : cache.Linked) {n : Node K V} (hn : n ∈ cache.items)
    {value : V} (hput : cache.put n.key value = some cache') :
    cache'.contents = Assoc.put n.key value cache.contents := by
  have hidx := h.index_of_mem hn
  have hids : ((assign cache.items n.id value).map Node.id).Nodup := by
    rw [map_id_assign]
    exact h.ids
  have hn' : ({ n with value := value } : Node K V) ∈ assign cache.items n.id value :=
    mem_assign.mpr (Or.inl ⟨n, hn, rfl, rfl⟩)
  have hsplice := spliceFront_eq hids hn'
  unfold put at hput
  simp only [hidx, deref_of_mem h.ids hn, hsplice, bind, Option.bind, pure,
    Option.some.injEq] at hput
  rw [← hput]
  show (n.key, value) :: (unlink (assign cache.items n.id value) n.id).map _ = _
  rw [unlink_assign, h.contents_unlink hn]
  rfl

/-- A new key goes to the front, and the node at the back goes if there is no room. -/
theorem contents_put_new (hidx : Assoc.get key cache.index = none) {value : V}
    (hput : cache.put key value = some cache') :
    cache'.contents = (key, value) ::
      if cache.capacity ≤ cache.size then cache.contents.dropLast else cache.contents := by
  unfold put at hput
  unfold size
  simp only [hidx] at hput
  split_ifs at hput ⊢ with hfull
  · rcases Option.map_eq_some_iff.mp hput with ⟨cache₁, hevict, rfl⟩
    unfold evict at hevict
    rcases Option.map_eq_some_iff.mp hevict with ⟨lru, -, rfl⟩
    unfold emplaceFront contents
    rw [List.map_cons, List.map_dropLast]
  · cases hput
    rfl

theorem Linked.contents_put (h : cache.Linked) (hpos : 0 < cache.capacity)
    (hroom : cache.size ≤ cache.capacity) {value : V} (hput : cache.put key value = some cache') :
    cache'.contents = Recency.apply cache.capacity cache.contents (.put key value) := by
  rw [← length_contents] at hroom
  cases hidx : Assoc.get key cache.index with
  | some it =>
      rcases (h.index_iff key it).mp hidx with ⟨n, hn, rfl, rfl⟩
      have hlisted : n.key ∈ Recency.keys cache.contents :=
        List.mem_map_of_mem (mem_contents.mpr ⟨n, hn, rfl, rfl⟩)
      rw [Recency.apply_put_of_room (Or.inl hlisted) hroom]
      exact h.contents_put_listed hn hput
  | none =>
      have hnew := h.not_mem_of_index hidx
      rw [contents_put_new hidx hput, ← length_contents]
      split_ifs with hfull
      · rw [Recency.apply_put_of_full hpos hnew (le_antisymm hroom hfull)]
      · rw [Recency.apply_put_of_room (Or.inr (lt_of_not_ge hfull)) hroom, Assoc.put,
          Assoc.erase_eq_self hnew]

theorem Linked.clear : cache.clear.Linked :=
  ⟨List.nodup_nil, nofun, by simp [LRUCache.clear]⟩

/-- Whatever its room, a cache in use stays one. -/
theorem Keeps.step {op : Recency.Op K V} (h : cache.Keeps fun _ => True)
    (hstep : cache.step op = some cache') : cache'.Keeps fun _ => True := by
  cases op with
  | put key value => exact (h.put trivial hstep).1
  | get key =>
      rcases h.get key with ⟨r, cache₁, hget, hkeeps, -⟩
      simp only [LRUCache.step, hget, Option.map_some, Option.some.injEq] at hstep
      exact hstep ▸ hkeeps
  | remove key =>
      rcases h.remove key with ⟨b, cache₁, hremove, hkeeps, -⟩
      simp only [LRUCache.step, hremove, Option.map_some, Option.some.injEq] at hstep
      exact hstep ▸ hkeeps
  | clear =>
      cases hstep
      exact h.of_holds Linked.clear rfl fun k v ⟨n, hn, _⟩ => absurd hn List.not_mem_nil

theorem Keeps.run {ops : List (Recency.Op K V)} (h : cache.Keeps fun _ => True)
    (hrun : Machine.run LRUCache.step cache ops = some cache') : cache'.Keeps fun _ => True :=
  Machine.run_kept (fun _ _ _ hs hstep => hs.step hstep) h hrun

/-- Every call of a cache with room is defined and is the policy's. -/
theorem Linked.step (h : cache.Linked) (hpos : 0 < cache.capacity)
    (hroom : cache.size ≤ cache.capacity) (op : Recency.Op K V) :
    ∃ cache', cache.step op = some cache' ∧ cache'.Linked ∧
      cache'.capacity = cache.capacity ∧
      cache'.contents = Recency.apply cache.capacity cache.contents op := by
  cases op with
  | put key value =>
      rcases put_isSome h hpos key value with ⟨cache', hput⟩
      rcases put_spec h hput with ⟨hlinked, hcap, -⟩
      exact ⟨cache', hput, hlinked, hcap, h.contents_put hpos hroom hput⟩
  | get key =>
      rcases get_spec h key with ⟨r, cache', hget, hlinked, hcap, -⟩
      refine ⟨cache', ?_, hlinked, hcap, (h.contents_get hget).2⟩
      simp only [LRUCache.step, hget, Option.map_some]
  | remove key =>
      rcases remove_spec h key with ⟨b, cache', hremove, hlinked, hcap, -⟩
      refine ⟨cache', ?_, hlinked, hcap, h.contents_remove hremove⟩
      simp only [LRUCache.step, hremove, Option.map_some]
  | clear => exact ⟨cache.clear, rfl, Linked.clear, rfl, rfl⟩

/-- Run lemma of `Linked.step`. -/
theorem run_contents {c : Nat} (hc : 1 ≤ c) (ops : List (Recency.Op K V)) :
    ∃ cache, Machine.run LRUCache.step (new c) ops = some cache ∧ cache.Linked ∧
      cache.capacity = c ∧ cache.contents = Recency.after c ops := by
  induction ops using List.reverseRecOn with
  | nil => exact ⟨new c, rfl, linked_new c, rfl, rfl⟩
  | append_singleton ops op ih =>
      rcases ih with ⟨cache, hrun, hlinked, hcap, hcontents⟩
      have hroom : cache.size ≤ cache.capacity := by
        rw [← length_contents, hcontents, hcap]
        exact (Recency.faithful_after c ops).room
      rcases hlinked.step (by omega) hroom op with ⟨cache', hstep, hlinked', hcap', hcontents'⟩
      refine ⟨cache', Machine.run_concat.mpr ⟨cache, hrun, hstep⟩, hlinked', hcap'.trans hcap, ?_⟩
      rw [hcontents', hcontents, hcap, Recency.after_concat]

/-- For every capacity from one on and every sequence of calls: no call is
undefined; list and index stay in bijection within the capacity; the contents
are the recency list of the calls, in the order of the last put or successful
get; a get returns the value that was put last where the list has the key; and
a key that is neither removed nor cleared leaves as the least recently used
one, for a new key put into a full cache. -/
theorem lru_refines_recency {c : Nat} (hc : 1 ≤ c) (ops : List (Recency.Op K V)) :
    ∃ cache, Machine.run LRUCache.step (new c) ops = some cache ∧
      (cache.Linked ∧ (cache.items.map Node.key).Nodup ∧
        ∀ n ∈ cache.items, (Assoc.get n.key cache.index).bind (deref cache.items) = some n) ∧
      cache.size ≤ c ∧
      cache.contents = Recency.after c ops ∧
      (cache.items.map Node.key).Pairwise (fun a b =>
        ∃ i j, Recency.LastUse c ops a i ∧ Recency.LastUse c ops b j ∧ j < i) ∧
      (∀ key, ∃ cache', cache.get key = some (Assoc.get key (Recency.after c ops), cache')) ∧
      (∀ key value, Assoc.get key (Recency.after c ops) = some value →
        Recency.LastPut ops key value) ∧
      ∀ pre op, pre ++ [op] <+: ops → ∀ key ∈ Recency.keys (Recency.after c pre),
        key ∉ Recency.keys (Recency.after c (pre ++ [op])) →
        op = .remove key ∨ op = .clear ∨
          ∃ k v, op = .put k v ∧ k ∉ Recency.keys (Recency.after c pre) ∧
            (Recency.after c pre).length = c ∧ Recency.LeastRecent c pre key ∧
            Recency.after c (pre ++ [op]) = (k, v) :: (Recency.after c pre).dropLast := by
  rcases run_contents hc ops with ⟨cache, hrun, hlinked, hcap, hcontents⟩
  have hfaithful := Recency.faithful_after c ops
  rw [← hcontents] at hfaithful
  refine ⟨cache, hrun, ⟨hlinked, ?_, ?_⟩, ?_, hcontents, ?_, ?_, ?_, ?_⟩
  · rw [← keys_contents]
    exact hlinked.nodup_keys
  · intro n hn
    rw [hlinked.index_of_mem hn, Option.bind_some]
    exact deref_of_mem hlinked.ids hn
  · rw [← length_contents]
    exact hfaithful.room
  · rw [← keys_contents, List.pairwise_map]
    refine hfaithful.order.imp_of_mem ?_
    intro a b ha hb hlt
    rcases hfaithful.used a ha with ⟨i, hi⟩
    rcases hfaithful.used b hb with ⟨j, hj⟩
    exact ⟨i, j, hi, hj, hlt i j hi hj⟩
  · intro key
    rcases get_spec hlinked key with ⟨r, cache', hget, -⟩
    rw [← hcontents, ← (hlinked.contents_get hget).1]
    exact ⟨cache', hget⟩
  · intro key value hget
    rw [← hcontents] at hget
    exact hfaithful.value _ (Assoc.mem_of_get hget)
  · intro pre op _ key hin hout
    exact Recency.evicted hc hin hout

/-- Three keys put into room for two. -/
theorem lru_refines_recency_two :
    ∃ cache, Machine.run LRUCache.step (new 2)
        [.put 1 10, .put 2 20, .get 1, .put 3 30] = some cache ∧
      cache.contents = [(3, 30), (1, 10)] := by
  rcases lru_refines_recency (c := 2) (by decide)
    ([.put 1 10, .put 2 20, .get 1, .put 3 30] : List (Recency.Op Nat Nat)) with
    ⟨cache, hrun, -, -, hcontents, -⟩
  exact ⟨cache, hrun, hcontents⟩

end LRUCache

end VaultDB
