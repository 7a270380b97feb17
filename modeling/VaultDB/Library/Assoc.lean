import Mathlib.Algebra.GroupWithZero.Nat
import Mathlib.Data.List.Pairwise
import Mathlib.Data.List.Perm.Basic
import Mathlib.Order.Lattice
import Mathlib.Tactic.Common

/-! # Association lists as maps

Two shapes of map over a list of pairs: unordered ones, where a key is put in
front of whatever the list holds (`put`, `erase`), and sorted ones, strictly
increasing by key (`insert`, `Sorted`), which model an ordered map whose
iteration order matters. Both are read by `get`.
-/

namespace Assoc

variable {K V : Type*}

section Get

variable [DecidableEq K]

/-- The first value listed for `k`. -/
def get (k : K) : List (K × V) → Option V
  | [] => none
  | (k', v) :: es => if k = k' then some v else get k es

@[simp] theorem get_nil (k : K) : get k ([] : List (K × V)) = none := rfl

theorem get_cons_self (k : K) (v : V) (es : List (K × V)) : get k ((k, v) :: es) = some v := by
  simp [get]

theorem get_cons_ne {k k' : K} (h : k ≠ k') (v : V) (es : List (K × V)) :
    get k ((k', v) :: es) = get k es := by
  simp [get, h]

theorem get_append (k : K) (es fs : List (K × V)) :
    get k (es ++ fs) = (get k es).or (get k fs) := by
  induction es with
  | nil => simp
  | cons e es ih =>
      by_cases h : k = e.1
      · simp [get, h]
      · simp [get, h, ih]

theorem mem_of_get {k : K} {v : V} {es : List (K × V)} (h : get k es = some v) : (k, v) ∈ es := by
  induction es with
  | nil => cases h
  | cons e es ih =>
      by_cases hk : k = e.1
      · rw [get, if_pos hk] at h
        cases h
        rw [hk]
        exact List.mem_cons_self
      · rw [get, if_neg hk] at h
        exact List.mem_cons_of_mem _ (ih h)

theorem get_eq_none_iff {k : K} {es : List (K × V)} : get k es = none ↔ k ∉ es.map Prod.fst := by
  induction es with
  | nil => simp
  | cons e es ih =>
      by_cases hk : k = e.1
      · simp [get, hk]
      · simp [get, hk, ih]

theorem get_isSome_iff {k : K} {es : List (K × V)} :
    (get k es).isSome = true ↔ k ∈ es.map Prod.fst := by
  cases h : get k es with
  | none => simpa using get_eq_none_iff.mp h
  | some v => simpa using ⟨v, mem_of_get h⟩

/-- A key listed once is read with its value. -/
theorem get_of_mem {k : K} {v : V} {es : List (K × V)} (hnd : (es.map Prod.fst).Nodup)
    (h : (k, v) ∈ es) : get k es = some v := by
  induction es with
  | nil => cases h
  | cons e es ih =>
      rw [List.map_cons, List.nodup_cons] at hnd
      rcases List.mem_cons.mp h with rfl | h
      · exact get_cons_self k v es
      · have hne : k ≠ e.1 := by
          rintro rfl
          exact hnd.1 (List.mem_map.mpr ⟨_, h, rfl⟩)
        rw [get, if_neg hne]
        exact ih hnd.2 h

/-! ## Unordered maps -/

/-- The list without `k`. -/
def erase (k : K) (es : List (K × V)) : List (K × V) := es.filter fun e => e.1 ≠ k

/-- The list with `k` mapped to `v`. -/
def put (k : K) (v : V) (es : List (K × V)) : List (K × V) := (k, v) :: erase k es

@[simp] theorem get_erase_self (k : K) (es : List (K × V)) : get k (erase k es) = none := by
  rw [get_eq_none_iff, erase]
  simp

theorem get_erase_ne {k k' : K} (h : k ≠ k') (es : List (K × V)) :
    get k (erase k' es) = get k es := by
  induction es with
  | nil => rfl
  | cons e es ih =>
      by_cases he : e.1 = k'
      · have hdrop : erase k' (e :: es) = erase k' es := by simp [erase, he]
        rw [hdrop, ih, get, if_neg (he ▸ h)]
      · have hkeep : erase k' (e :: es) = e :: erase k' es := by simp [erase, he]
        rw [hkeep, get, get, ih]

/-- What is there after a removal was there before it, under another key. -/
theorem get_erase_eq_some_iff {k k' : K} {v : V} {es : List (K × V)} :
    get k (erase k' es) = some v ↔ k ≠ k' ∧ get k es = some v := by
  by_cases h : k = k'
  · rw [h, get_erase_self]
    simp
  · rw [get_erase_ne h, and_iff_right h]

@[simp] theorem get_put_self (k : K) (v : V) (es : List (K × V)) : get k (put k v es) = some v :=
  get_cons_self k v _

theorem get_put_ne {k k' : K} (h : k ≠ k') (v : V) (es : List (K × V)) :
    get k (put k' v es) = get k es := by
  rw [put, get_cons_ne h, get_erase_ne h]

theorem mem_of_mem_erase {k : K} {es : List (K × V)} {e : K × V} (h : e ∈ erase k es) : e ∈ es :=
  (List.mem_filter.mp h).1

theorem mem_put {k : K} {v : V} {es : List (K × V)} {e : K × V} (h : e ∈ put k v es) :
    e = (k, v) ∨ e ∈ es := by
  rcases List.mem_cons.mp h with heq | hmem
  · exact Or.inl heq
  · exact Or.inr (mem_of_mem_erase hmem)

/-- Of two values put for one key the last one stays. -/
theorem put_put (k : K) (v w : V) (es : List (K × V)) : put k w (put k v es) = put k w es := by
  unfold put erase
  simp

theorem mem_keys_erase {k k' : K} {es : List (K × V)} :
    k ∈ (erase k' es).map Prod.fst ↔ k ∈ es.map Prod.fst ∧ k ≠ k' := by
  simp only [erase, List.mem_map, List.mem_filter, decide_eq_true_eq]
  constructor
  · rintro ⟨e, ⟨he, hne⟩, rfl⟩
    exact ⟨⟨e, he, rfl⟩, hne⟩
  · rintro ⟨⟨e, he, rfl⟩, hne⟩
    exact ⟨e, ⟨he, hne⟩, rfl⟩

theorem erase_eq_self {k : K} {es : List (K × V)} (h : k ∉ es.map Prod.fst) : erase k es = es := by
  unfold erase
  rw [List.filter_eq_self]
  intro e he
  rw [decide_eq_true_eq]
  rintro rfl
  exact h (List.mem_map_of_mem he)

/-- Taking out a key that is listed makes the list shorter. -/
theorem length_erase_lt {k : K} {es : List (K × V)} (h : k ∈ es.map Prod.fst) :
    (erase k es).length < es.length := by
  rcases List.mem_map.mp h with ⟨e, he, rfl⟩
  exact List.length_filter_lt_length_iff_exists.mpr ⟨e, he, by simp⟩

theorem nodup_erase {k : K} {es : List (K × V)} (h : (es.map Prod.fst).Nodup) :
    ((erase k es).map Prod.fst).Nodup := by
  unfold erase
  exact h.sublist (List.Sublist.map _ List.filter_sublist)

theorem nodup_put {k : K} {v : V} {es : List (K × V)} (h : (es.map Prod.fst).Nodup) :
    ((put k v es).map Prod.fst).Nodup := by
  unfold put
  rw [List.map_cons, List.nodup_cons]
  refine ⟨?_, nodup_erase h⟩
  intro hmem
  exact (mem_keys_erase.mp hmem).2 rfl

theorem mem_keys_put {k k' : K} {v : V} {es : List (K × V)} :
    k ∈ (put k' v es).map Prod.fst ↔ k = k' ∨ k ∈ es.map Prod.fst := by
  unfold put
  rw [List.map_cons, List.mem_cons, mem_keys_erase]
  constructor
  · rintro (h | ⟨h, -⟩)
    · exact Or.inl h
    · exact Or.inr h
  · intro h
    by_cases hk : k = k'
    · exact Or.inl hk
    · exact Or.inr ⟨h.resolve_left hk, hk⟩

end Get

/-! ## Sorted maps -/

section Sorted

variable [LinearOrder K]

/-- `k` mapped to `v`, at its place in the order. -/
def insert (k : K) (v : V) : List (K × V) → List (K × V)
  | [] => [(k, v)]
  | (k', v') :: es =>
    if k < k' then (k, v) :: (k', v') :: es
    else if k' < k then (k', v') :: insert k v es
    else (k, v) :: es

/-- Strictly increasing by key. -/
def Sorted (es : List (K × V)) : Prop := es.Pairwise fun a b => a.1 < b.1

instance (es : List (K × V)) : Decidable (Sorted es) :=
  inferInstanceAs (Decidable (es.Pairwise fun a b => a.1 < b.1))

theorem mem_insert {k : K} {v : V} {es : List (K × V)} {e : K × V} (h : e ∈ insert k v es) :
    e = (k, v) ∨ e ∈ es := by
  induction es with
  | nil => exact Or.inl (List.mem_singleton.mp h)
  | cons e' es ih =>
      rw [insert] at h
      split_ifs at h with h₁ h₂
      · exact List.mem_cons.mp h
      · rcases List.mem_cons.mp h with rfl | h
        · exact Or.inr List.mem_cons_self
        · rcases ih h with h | h
          · exact Or.inl h
          · exact Or.inr (List.mem_cons_of_mem _ h)
      · rcases List.mem_cons.mp h with h | h
        · exact Or.inl h
        · exact Or.inr (List.mem_cons_of_mem _ h)

theorem sorted_insert {k : K} {v : V} {es : List (K × V)} (h : Sorted es) :
    Sorted (insert k v es) := by
  induction es with
  | nil => exact List.pairwise_singleton _ _
  | cons e es ih =>
      rcases List.pairwise_cons.mp h with ⟨hhead, htail⟩
      rw [insert]
      -- the key goes in front of the head, behind it, or in its place
      split_ifs with h₁ h₂
      · refine List.pairwise_cons.mpr ⟨?_, h⟩
        intro e' he'
        rcases List.mem_cons.mp he' with rfl | he'
        · exact h₁
        · exact h₁.trans (hhead e' he')
      · refine List.pairwise_cons.mpr ⟨?_, ih htail⟩
        intro e' he'
        rcases mem_insert he' with rfl | he'
        · exact h₂
        · exact hhead e' he'
      · have he : e.1 = k := le_antisymm (not_lt.mp h₁) (not_lt.mp h₂)
        refine List.pairwise_cons.mpr ⟨?_, htail⟩
        intro e' he'
        exact he ▸ hhead e' he'

theorem Sorted.nodup_keys {es : List (K × V)} (h : Sorted es) : (es.map Prod.fst).Nodup := by
  rw [List.Nodup, List.pairwise_map]
  exact h.imp fun hlt => ne_of_lt hlt

/- The order of the keys and the equality test of `get` may come from different
instances, as they do for byte strings. -/
variable [DecidableEq K]

@[simp] theorem get_insert_self (k : K) (v : V) (es : List (K × V)) :
    get k (insert k v es) = some v := by
  induction es with
  | nil => exact get_cons_self k v []
  | cons e es ih =>
      rw [insert]
      split_ifs with h₁ h₂
      · exact get_cons_self k v _
      · rw [get_cons_ne (ne_of_gt h₂), ih]
      · exact get_cons_self k v _

theorem get_insert_ne {k k' : K} (h : k ≠ k') (v : V) (es : List (K × V)) :
    get k (insert k' v es) = get k es := by
  induction es with
  | nil => exact get_cons_ne h v []
  | cons e es ih =>
      rw [insert]
      split_ifs with h₁ h₂
      · exact get_cons_ne h v _
      · by_cases hk : k = e.1
        · simp [get, hk]
        · simp [get, hk, ih]
      · -- neither key is below the other, so `e` is the entry replaced
        have he : e.1 = k' := le_antisymm (not_lt.mp h₁) (not_lt.mp h₂)
        rw [get_cons_ne h, get, if_neg (he ▸ h)]

/-- In a sorted list a key below the first one is not listed. -/
theorem Sorted.get_of_lt_head {k : K} {e : K × V} {es : List (K × V)} (h : Sorted (e :: es))
    (hk : k < e.1) : get k (e :: es) = none := by
  rw [get_eq_none_iff]
  intro hmem
  rw [List.map_cons, List.mem_cons] at hmem
  rcases hmem with rfl | hmem
  · exact lt_irrefl _ hk
  · -- the later keys are above the first
    rcases List.mem_map.mp hmem with ⟨e', he', rfl⟩
    exact lt_asymm hk ((List.pairwise_cons.mp h).1 e' he')

/-- A sum over the entries, after an insertion: what was listed for the key no longer counts. -/
theorem sum_map_insert (f : K × V → Nat) (k : K) (v : V) {es : List (K × V)} (h : Sorted es) :
    ((insert k v es).map f).sum + (get k es).elim 0 (fun old => f (k, old)) =
      (es.map f).sum + f (k, v) := by
  induction es with
  | nil => simp [insert]
  | cons e es ih =>
      rcases e with ⟨k', old⟩
      rw [insert]
      split_ifs with h₁ h₂
      · rw [h.get_of_lt_head h₁]
        simp only [List.map_cons, List.sum_cons, Option.elim_none]
        omega
      · have ih' := ih (List.pairwise_cons.mp h).2
        rw [get_cons_ne (ne_of_gt h₂)]
        simp only [List.map_cons, List.sum_cons]
        omega
      · -- the head is the entry replaced
        have hk : k' = k := le_antisymm (not_lt.mp h₁) (not_lt.mp h₂)
        subst hk
        rw [get_cons_self]
        simp only [List.map_cons, List.sum_cons, Option.elim_some]
        omega

/-- Reading may start at any entry whose key is not above the one looked for. -/
theorem Sorted.get_of_split {k : K} {pre post : List (K × V)} {e : K × V}
    (h : Sorted (pre ++ e :: post)) (hk : e.1 ≤ k) :
    get k (pre ++ e :: post) = get k (e :: post) := by
  have hpre : get k pre = none := by
    rw [get_eq_none_iff]
    intro hmem
    rcases List.mem_map.mp hmem with ⟨e', he', rfl⟩
    -- entries before `e` have keys below its key
    have hlt := (List.pairwise_append.mp h).2.2 e' he' e List.mem_cons_self
    exact absurd hk (not_le.mpr hlt)
  rw [get_append, hpre, Option.none_or]

end Sorted

end Assoc
