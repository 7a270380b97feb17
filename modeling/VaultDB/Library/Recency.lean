import Mathlib.Data.List.Induction
import VaultDB.Library.Assoc

/-! # Recency lists

The least-recently-used policy over arbitrary keys and values: a list of pairs,
most recently used first, cut to a capacity. The rules tie the list to the
history that made it. Its order is the order of last use (`Faithful.order`),
its values are the ones put last (`Faithful.value`), and a key that was not
removed leaves it only as the least recently used one, for a new key, when the
list is full (`evicted`).
-/

namespace Recency

variable {K V : Type*}

inductive Op (K V : Type*) where
  | put (key : K) (value : V)
  | get (key : K)
  | remove (key : K)
  | clear
deriving Repr, DecidableEq

def keys (es : List (K × V)) : List K := es.map Prod.fst

/-- A key that goes with the back is the one at the back. -/
theorem back_of_dropLast {es : List (K × V)} {k : K} (hin : k ∈ keys es)
    (hout : k ∉ keys es.dropLast) : ∃ e, es = es.dropLast ++ [e] ∧ e.1 = k := by
  have hne : es ≠ [] := by
    rintro rfl
    cases hin
  have hsplit := (List.dropLast_append_getLast hne).symm
  refine ⟨es.getLast hne, hsplit, ?_⟩
  unfold keys at hin hout
  rw [hsplit, List.map_append, List.mem_append] at hin
  rcases hin with hfront | hback
  · exact absurd hfront hout
  · exact (List.mem_singleton.mp hback).symm

section Policy

variable [DecidableEq K]

/-- One operation of a list with room for `c` keys. -/
def apply (c : Nat) (es : List (K × V)) : Op K V → List (K × V)
  | .put k v => (Assoc.put k v es).take c
  | .get k =>
    match Assoc.get k es with
    | some v => Assoc.put k v es
    | none => es
  | .remove k => Assoc.erase k es
  | .clear => []

theorem apply_put (c : Nat) (es : List (K × V)) (k : K) (v : V) :
    apply c es (.put k v) = (Assoc.put k v es).take c := rfl

/-- A list with room has the key that was put last. -/
theorem get_apply_put {c : Nat} (hc : 0 < c) (es : List (K × V)) (k : K) (v : V) :
    Assoc.get k (apply c es (.put k v)) = some v := by
  rw [apply_put, Assoc.put, ← Nat.succ_pred_eq_of_pos hc, List.take_succ_cons]
  exact Assoc.get_cons_self k v _

theorem apply_get_of_some {es : List (K × V)} {k : K} {v : V} (h : Assoc.get k es = some v)
    (c : Nat) : apply c es (.get k) = Assoc.put k v es := by
  simp only [apply, h]

theorem apply_get_of_none {es : List (K × V)} {k : K} (h : Assoc.get k es = none) (c : Nat) :
    apply c es (.get k : Op K V) = es := by
  simp only [apply, h]

def after (c : Nat) (ops : List (Op K V)) : List (K × V) := ops.foldl (apply c) []

@[simp] theorem after_nil (c : Nat) : after c ([] : List (Op K V)) = [] := rfl

@[simp] theorem after_concat (c : Nat) (ops : List (Op K V)) (op : Op K V) :
    after c (ops ++ [op]) = apply c (after c ops) op := by
  unfold after
  rw [List.foldl_append]
  rfl

end Policy

/-! ## The history of a key -/

/-- The operation puts the key, or gets it where it is listed. -/
def Uses (es : List (K × V)) (k : K) : Op K V → Prop
  | .put k' _ => k' = k
  | .get k' => k' = k ∧ k ∈ keys es
  | .remove _ => False
  | .clear => False

/-- The last operation that put the key has the index `i` and put `v`. -/
def LastPut (ops : List (Op K V)) (k : K) (v : V) : Prop :=
  ∃ i : Nat, ops[i]? = some (Op.put k v) ∧ ∀ (j : Nat) w, i < j → ops[j]? ≠ some (Op.put k w)

/-- The operations of a history that is one longer. -/
theorem getElem?_concat {ops : List (Op K V)} {op op' : Op K V} {i : Nat} :
    (ops ++ [op])[i]? = some op' ↔ ops[i]? = some op' ∨ (i = ops.length ∧ op' = op) := by
  rcases Nat.lt_trichotomy i ops.length with hlt | rfl | hgt
  · rw [List.getElem?_append_left hlt]
    simp [Nat.ne_of_lt hlt]
  · rw [List.getElem?_concat_length]
    simp [eq_comm]
  · rw [List.getElem?_eq_none (by simp; omega), List.getElem?_eq_none (Nat.le_of_lt hgt)]
    simp [Nat.ne_of_gt hgt]

theorem lt_length_of_getElem? {ops : List (Op K V)} {op : Op K V} {i : Nat}
    (h : ops[i]? = some op) : i < ops.length :=
  (List.getElem?_eq_some_iff.mp h).1

theorem lastPut_put (ops : List (Op K V)) (k : K) (v : V) :
    LastPut (ops ++ [Op.put k v]) k v := by
  refine ⟨ops.length, List.getElem?_concat_length, ?_⟩
  intro j w hj hput
  have hlt := lt_length_of_getElem? hput
  rw [List.length_append, List.length_singleton] at hlt
  omega

theorem LastPut.concat {ops : List (Op K V)} {k : K} {v : V} (h : LastPut ops k v) {op : Op K V}
    (hop : ∀ w, op ≠ Op.put k w) : LastPut (ops ++ [op]) k v := by
  rcases h with ⟨i, hi, hlater⟩
  refine ⟨i, getElem?_concat.mpr (Or.inl hi), ?_⟩
  intro j w hj hput
  rcases getElem?_concat.mp hput with hput | ⟨-, hput⟩
  · exact hlater j w hj hput
  · exact hop w hput.symm

variable [DecidableEq K]

/-- The last operation that used the key has the index `i`. -/
def LastUse (c : Nat) (ops : List (Op K V)) (k : K) (i : Nat) : Prop :=
  (∃ op, ops[i]? = some op ∧ Uses (after c (ops.take i)) k op) ∧
    ∀ (j : Nat) op, i < j → ops[j]? = some op → ¬ Uses (after c (ops.take j)) k op

section Use

variable {c : Nat} {ops : List (Op K V)} {op : Op K V} {k : K}

theorem LastUse.lt_length {i : Nat} (h : LastUse c ops k i) : i < ops.length := by
  rcases h.1 with ⟨op, hop, -⟩
  exact lt_length_of_getElem? hop

theorem LastUse.unique {i j : Nat} (h : LastUse c ops k i) (h' : LastUse c ops k j) : i = j := by
  rcases h.1 with ⟨op, hop, huses⟩
  rcases h'.1 with ⟨op', hop', huses'⟩
  rcases Nat.lt_trichotomy i j with hlt | heq | hgt
  · exact absurd huses' (h.2 j op' hlt hop')
  · exact heq
  · exact absurd huses (h'.2 i op hgt hop)

/-- A key is last used by the operation that comes last, if that one uses it. -/
theorem lastUse_of_uses (huses : Uses (after c ops) k op) :
    LastUse c (ops ++ [op]) k ops.length := by
  refine ⟨⟨op, List.getElem?_concat_length, ?_⟩, ?_⟩
  · rw [List.take_left]
    exact huses
  · intro j op' hj hop'
    have hlt := lt_length_of_getElem? hop'
    rw [List.length_append, List.length_singleton] at hlt
    omega

/-- And otherwise by the one it was last used by before. -/
theorem LastUse.concat {i : Nat} (h : LastUse c ops k i) (huses : ¬ Uses (after c ops) k op) :
    LastUse c (ops ++ [op]) k i := by
  have htake : ∀ j, j < ops.length → (ops ++ [op]).take j = ops.take j :=
    fun j hj => List.take_append_of_le_length (Nat.le_of_lt hj)
  rcases h with ⟨⟨op', hop', huse⟩, hlater⟩
  refine ⟨⟨op', getElem?_concat.mpr (Or.inl hop'), ?_⟩, ?_⟩
  · rw [htake i (lt_length_of_getElem? hop')]
    exact huse
  · intro j op'' hj hop''
    rcases getElem?_concat.mp hop'' with hop'' | ⟨rfl, rfl⟩
    · rw [htake j (lt_length_of_getElem? hop'')]
      exact hlater j op'' hj hop''
    · rw [List.take_left]
      exact huses

end Use

/-! ## The list as its history has it -/

/-- What the list says of the history: the keys are in the order of their last
use, the latest first, and the values are the ones put last. -/
structure Faithful (c : Nat) (ops : List (Op K V)) (es : List (K × V)) : Prop where
  room : es.length ≤ c
  nodup : (keys es).Nodup
  value : ∀ e ∈ es, LastPut ops e.1 e.2
  used : ∀ e ∈ es, ∃ i, LastUse c ops e.1 i
  order : es.Pairwise fun a b => ∀ i j, LastUse c ops a.1 i → LastUse c ops b.1 j → j < i

variable {c : Nat} {ops : List (Op K V)} {es : List (K × V)}

theorem Faithful.sublist (h : Faithful c ops es) {es' : List (K × V)} (hsub : es'.Sublist es) :
    Faithful c ops es' :=
  ⟨Nat.le_trans hsub.length_le h.room, h.nodup.sublist (hsub.map _),
    fun e he => h.value e (hsub.subset he), fun e he => h.used e (hsub.subset he),
    h.order.sublist hsub⟩

/-- An operation that uses none of the keys and puts none of them. -/
theorem Faithful.concat (h : Faithful c ops es) {op : Op K V}
    (huses : ∀ e ∈ es, ¬ Uses (after c ops) e.1 op) (hput : ∀ e ∈ es, ∀ w, op ≠ .put e.1 w) :
    Faithful c (ops ++ [op]) es := by
  refine ⟨h.room, h.nodup, ?_, ?_, ?_⟩
  · intro e he
    exact (h.value e he).concat (hput e he)
  · intro e he
    rcases h.used e he with ⟨i, hi⟩
    exact ⟨i, hi.concat (huses e he)⟩
  · refine h.order.imp_of_mem ?_
    intro a b ha hb hlt i j hi hj
    -- the last uses are the ones there were before
    rcases h.used a ha with ⟨i', hi'⟩
    rcases h.used b hb with ⟨j', hj'⟩
    rw [hi.unique (hi'.concat (huses a ha)), hj.unique (hj'.concat (huses b hb))]
    exact hlt i' j' hi' hj'

/-- A key in front that the last operation used, before keys it did not use. -/
theorem Faithful.cons (h : Faithful c ops es) {op : Op K V} {k : K} {v : V}
    (hroom : es.length < c) (hnew : k ∉ keys es) (huses : Uses (after c ops) k op)
    (hvalue : LastPut (ops ++ [op]) k v)
    (hothers : ∀ e ∈ es, ¬ Uses (after c ops) e.1 op) (hput : ∀ e ∈ es, ∀ w, op ≠ .put e.1 w) :
    Faithful c (ops ++ [op]) ((k, v) :: es) := by
  have hrest := h.concat hothers hput
  have hfront := lastUse_of_uses huses
  refine ⟨hroom, List.nodup_cons.mpr ⟨hnew, h.nodup⟩, ?_, ?_, ?_⟩
  · intro e he
    rcases List.mem_cons.mp he with rfl | he
    · exact hvalue
    · exact hrest.value e he
  · intro e he
    rcases List.mem_cons.mp he with rfl | he
    · exact ⟨ops.length, hfront⟩
    · exact hrest.used e he
  · refine List.pairwise_cons.mpr ⟨?_, hrest.order⟩
    intro e he i j hi hj
    rw [hi.unique hfront]
    -- the others were last used by an operation that came earlier
    rcases h.used e he with ⟨j', hj'⟩
    rw [hj.unique (hj'.concat (hothers e he))]
    exact hj'.lt_length

theorem faithful_nil (c : Nat) (ops : List (Op K V)) : Faithful c ops [] :=
  ⟨Nat.zero_le _, List.nodup_nil, nofun, nofun, List.Pairwise.nil⟩

/-- No entry that stays when `k` is taken out has the key `k`. -/
theorem ne_of_mem_erase {k : K} {e : K × V} (he : e ∈ Assoc.erase k es) : e.1 ≠ k :=
  (Assoc.mem_keys_erase.mp (List.mem_map_of_mem he)).2

/-! ## What one operation does to it -/

theorem Faithful.put (h : Faithful c ops (after c ops)) (k : K) (v : V) :
    Faithful c (ops ++ [.put k v]) (apply c (after c ops) (.put k v)) := by
  cases c with
  | zero => exact faithful_nil 0 _
  | succ c =>
      -- the others that stay are cut to the room behind the key
      have hcut := (List.take_sublist c _).trans
        (List.filter_sublist (p := fun e => e.1 ≠ k) (l := after (c + 1) ops))
      have hne : ∀ e ∈ (Assoc.erase k (after (c + 1) ops)).take c, e.1 ≠ k :=
        fun e he => ne_of_mem_erase (List.mem_of_mem_take he)
      refine (h.sublist hcut).cons ?_ ?_ rfl (lastPut_put ops k v) ?_ ?_
      · exact Nat.lt_succ_of_le (List.length_take_le _ _)
      · intro hmem
        rcases List.mem_map.mp hmem with ⟨e, he, heq⟩
        exact hne e he heq
      · intro e he huses
        exact hne e he huses.symm
      · intro e he w hop
        cases hop
        exact hne e he rfl

theorem Faithful.get (h : Faithful c ops (after c ops)) (k : K) :
    Faithful c (ops ++ [.get k]) (apply c (after c ops) (.get k)) := by
  cases hget : Assoc.get k (after c ops) with
  | none =>
      rw [apply_get_of_none hget]
      refine h.concat ?_ fun _ _ _ => nofun
      rintro e he ⟨rfl, hmem⟩
      exact Assoc.get_eq_none_iff.mp hget hmem
  | some v =>
      have hmem := Assoc.mem_of_get hget
      have hlisted : k ∈ keys (after c ops) := List.mem_map_of_mem hmem
      rw [apply_get_of_some hget]
      refine (h.sublist List.filter_sublist).cons ?_ ?_ ⟨rfl, hlisted⟩ ?_ ?_ fun _ _ _ => nofun
      · exact Nat.lt_of_lt_of_le (Assoc.length_erase_lt hlisted) h.room
      · exact fun hin => (Assoc.mem_keys_erase.mp hin).2 rfl
      · exact (h.value _ hmem).concat nofun
      · rintro e he ⟨heq, -⟩
        exact ne_of_mem_erase he heq.symm

/-- What every history leaves is faithful to it. -/
theorem faithful_after (c : Nat) (ops : List (Op K V)) : Faithful c ops (after c ops) := by
  induction ops using List.reverseRecOn with
  | nil => exact faithful_nil c []
  | append_singleton ops op ih =>
      rw [after_concat]
      cases op with
      | put k v => exact ih.put k v
      | get k => exact ih.get k
      | remove k =>
          exact (ih.sublist List.filter_sublist).concat (fun _ _ => not_false) fun _ _ _ => nofun
      | clear => exact faithful_nil c _

/-- The key is listed, and every other one was used after it. -/
def LeastRecent (c : Nat) (ops : List (Op K V)) (k : K) : Prop :=
  ∃ i, LastUse c ops k i ∧
    ∀ k' ∈ keys (after c ops), k' ≠ k → ∃ j, LastUse c ops k' j ∧ i < j

/-- The key at the back is the least recently used one. -/
theorem leastRecent_of_back {e : K × V} {front : List (K × V)}
    (hsplit : after c ops = front ++ [e]) : LeastRecent c ops e.1 := by
  have h := faithful_after c ops
  rw [hsplit] at h
  rcases h.used e (by simp) with ⟨i, hi⟩
  refine ⟨i, hi, ?_⟩
  intro k' hk' hne
  rw [hsplit] at hk'
  rcases List.mem_map.mp hk' with ⟨e', he', rfl⟩
  rcases List.mem_append.mp he' with hfront | hback
  · rcases h.used e' he' with ⟨j, hj⟩
    exact ⟨j, hj, (List.pairwise_append.mp h.order).2.2 e' hfront e (by simp) j i hj hi⟩
  · rw [List.mem_singleton.mp hback] at hne
    exact absurd rfl hne

/-- A new key put into a full list takes the place of the one at the back. -/
theorem apply_put_of_full (hc : 0 < c) {k : K} {v : V} (hnew : k ∉ keys es)
    (hfull : es.length = c) : apply c es (.put k v) = (k, v) :: es.dropLast := by
  rw [apply_put, Assoc.put, Assoc.erase_eq_self hnew, List.dropLast_eq_take, hfull,
    List.take_cons hc]

/-- Any other key put leaves every key listed. -/
theorem apply_put_of_room {k : K} {v : V} (hroom : k ∈ keys es ∨ es.length < c)
    (hle : es.length ≤ c) : apply c es (.put k v) = Assoc.put k v es := by
  rw [apply_put, List.take_of_length_le]
  rw [Assoc.put, List.length_cons]
  rcases hroom with hlisted | hlt
  · have hless := Assoc.length_erase_lt hlisted
    omega
  · have hless : (Assoc.erase k es).length ≤ es.length := List.length_filter_le _ _
    omega

/-- A key leaves the list when it is removed, when the list is cleared, or as
the least recently used one, which alone makes room for a new key. -/
theorem evicted (hc : 0 < c) {op : Op K V} {key : K} (hin : key ∈ keys (after c ops))
    (hout : key ∉ keys (after c (ops ++ [op]))) :
    op = .remove key ∨ op = .clear ∨
      ∃ k v, op = .put k v ∧ k ∉ keys (after c ops) ∧ (after c ops).length = c ∧
        LeastRecent c ops key ∧ after c (ops ++ [op]) = (k, v) :: (after c ops).dropLast := by
  have hle := (faithful_after c ops).room
  rw [after_concat] at hout ⊢
  cases op with
  | put k v =>
      by_cases hroom : k ∈ keys (after c ops) ∨ (after c ops).length < c
      · rw [apply_put_of_room hroom hle] at hout
        exact absurd (Assoc.mem_keys_put.mpr (Or.inr hin)) hout
      · rw [not_or] at hroom
        have hfull : (after c ops).length = c := by omega
        rw [apply_put_of_full hc hroom.1 hfull] at hout ⊢
        refine Or.inr (Or.inr ⟨k, v, rfl, hroom.1, hfull, ?_, rfl⟩)
        rcases back_of_dropLast hin fun hin' => hout (List.mem_cons_of_mem _ hin') with
          ⟨e, hsplit, rfl⟩
        exact leastRecent_of_back hsplit
  | get k =>
      cases hget : Assoc.get k (after c ops) with
      | some v =>
          rw [apply_get_of_some hget] at hout
          exact absurd (Assoc.mem_keys_put.mpr (Or.inr hin)) hout
      | none =>
          rw [apply_get_of_none hget] at hout
          exact absurd hin hout
  | remove k =>
      by_cases hk : key = k
      · rw [hk]
        exact Or.inl rfl
      · exact absurd (Assoc.mem_keys_erase.mpr ⟨hin, hk⟩) hout
  | clear => exact Or.inr (Or.inl rfl)

/-! ## Capacities -/

/-- Puts, removals and clears keep what a list with less room holds in front of
what one with more room holds. -/
theorem isPrefix_apply {c c' : Nat} (hle : c ≤ c') {es es' : List (K × V)} (h : es <+: es')
    {op : Op K V} (hop : ∀ k, op ≠ .get k) : apply c es op <+: apply c' es' op := by
  have herase : ∀ k, Assoc.erase k es <+: Assoc.erase k es' := fun k => h.filter _
  cases op with
  | put k v =>
      have hput : Assoc.put k v es <+: Assoc.put k v es' :=
        List.cons_prefix_cons.mpr ⟨rfl, herase k⟩
      rw [apply_put, apply_put, List.prefix_take_iff]
      exact ⟨(List.take_prefix c _).trans hput, (List.length_take_le c _).trans hle⟩
  | get k => exact absurd rfl (hop k)
  | remove k => exact herase k
  | clear => exact List.prefix_rfl

/-- With more room the list goes on where the one with less is cut. -/
theorem isPrefix_after {c c' : Nat} (hle : c ≤ c') {ops : List (Op K V)}
    (hops : ∀ k, Op.get k ∉ ops) : after c ops <+: after c' ops := by
  induction ops using List.reverseRecOn with
  | nil => exact List.prefix_rfl
  | append_singleton ops op ih =>
      rw [after_concat, after_concat]
      refine isPrefix_apply hle (ih fun k hk => hops k (List.mem_append_left _ hk)) ?_
      rintro k rfl
      exact hops k (List.mem_append_right _ List.mem_cons_self)

theorem after_append (c : Nat) (ops ops' : List (Op K V)) :
    after c (ops ++ ops') = ops'.foldl (apply c) (after c ops) := by
  unfold after
  rw [List.foldl_append]

end Recency
