import Mathlib.Order.Lattice
import Mathlib.Tactic.Common

/-! # Stacked maps with deletion marks and expiring values

The mathematics of a layered store, over arbitrary keys and values.

* `Layers.newest` reads a stack of partial maps, given oldest first, by the
  newest layer that defines the key.
* `Expiring.reading` is what a reader sees of a stored value at a time: nothing
  for a deletion mark, the payload of an expiring value until its deadline.
* `Expiring.Lapsed` relates a store to one in which some expired values have
  been replaced by deletion marks. Once their deadline has passed, no reader
  can tell the two apart (`Lapsed.reading_eq`).
-/

namespace Layers

variable {K V : Type*}

/-- The value of the newest layer that defines the key; the newest layer is
the last one. -/
def newest : List (K → Option V) → K → Option V
  | [], _ => none
  | l :: ls, k => (newest ls k).or (l k)

@[simp] theorem newest_nil (k : K) : newest ([] : List (K → Option V)) k = none := rfl

theorem newest_cons (l : K → Option V) (ls : List (K → Option V)) (k : K) :
    newest (l :: ls) k = (newest ls k).or (l k) := rfl

theorem newest_append (ls ms : List (K → Option V)) (k : K) :
    newest (ls ++ ms) k = (newest ms k).or (newest ls k) := by
  induction ls with
  | nil => simp
  | cons l ls ih => rw [List.cons_append, newest_cons, newest_cons, ih, Option.or_assoc]

/-- Pushing a layer on top. -/
theorem newest_concat (ls : List (K → Option V)) (l : K → Option V) (k : K) :
    newest (ls ++ [l]) k = (l k).or (newest ls k) := by
  rw [newest_append, newest_cons, newest_nil, Option.none_or]

/-- A value read was put there by one of the layers. -/
theorem exists_of_newest {ls : List (K → Option V)} {k : K} {v : V} (h : newest ls k = some v) :
    ∃ l ∈ ls, l k = some v := by
  induction ls with
  | nil => cases h
  | cons l ls ih =>
      rw [newest_cons, Option.or_eq_some_iff] at h
      rcases h with h | ⟨-, h⟩
      · rcases ih h with ⟨m, hm, hv⟩
        exact ⟨m, List.mem_cons_of_mem _ hm, hv⟩
      · exact ⟨l, List.mem_cons_self, h⟩

/-- Layers that do not define the key may be left out. -/
theorem newest_filter {ι : Type*} (f : ι → K → Option V) (p : ι → Bool) {is : List ι} {k : K}
    (h : ∀ i ∈ is, p i = false → f i k = none) :
    newest ((is.filter p).map f) k = newest (is.map f) k := by
  induction is with
  | nil => rfl
  | cons i is ih =>
      have ih' := ih fun j hj => h j (List.mem_cons_of_mem _ hj)
      cases hp : p i with
      | true => simp [hp, newest_cons, ih']
      | false =>
          have hi := h i List.mem_cons_self hp
          simp [hp, newest_cons, ih', hi]

end Layers

namespace Expiring

/-- The two in-band markings of a value: one value stands for a deletion, and
some values carry a deadline and a payload. -/
structure Marks (V T : Type*) where
  tomb : V
  decode : V → Option (T × V)

variable {K V T : Type*} (M : Marks V T)

/-- The value carries a deadline at all. -/
def HasDeadline (v : V) : Prop := ∃ t w, M.decode v = some (t, w)

/-! ## Lapsed entries -/

/-- `Q` stores what `P` does, except that some values in `E` have been
replaced by deletion marks. -/
def Lapsed (E : V → Prop) (P Q : K → Option V) : Prop :=
  ∀ k, Q k = P k ∨ (Q k = some M.tomb ∧ ∃ v, P k = some v ∧ E v)

variable {M} {E E' : V → Prop} {P Q : K → Option V}

theorem Lapsed.refl (P : K → Option V) : Lapsed M E P P := fun _ => Or.inl rfl

theorem Lapsed.mono (himp : ∀ v, E v → E' v) (h : Lapsed M E P Q) : Lapsed M E' P Q := by
  intro k
  rcases h k with hk | ⟨hk, v, hv, hE⟩
  · exact Or.inl hk
  · exact Or.inr ⟨hk, v, hv, himp v hE⟩

/-- A value outside `E` is stored unchanged. -/
theorem Lapsed.eq_of_not (h : Lapsed M E P Q) {k : K} {v : V} (hv : P k = some v) (hE : ¬ E v) :
    Q k = some v := by
  rcases h k with hk | ⟨-, w, hw, hEw⟩
  · rw [hk, hv]
  · rw [hv] at hw
    cases hw
    exact absurd hEw hE

/-- Writing the same value to one key of both stores. -/
theorem Lapsed.update [DecidableEq K] {P' Q' : K → Option V} {k : K} (h : Lapsed M E P Q)
    (hk : Q' k = P' k) (hP : ∀ j, j ≠ k → P' j = P j) (hQ : ∀ j, j ≠ k → Q' j = Q j) :
    Lapsed M E P' Q' := by
  intro j
  by_cases hj : j = k
  · subst hj
    exact Or.inl hk
  · rw [hP j hj, hQ j hj]
    exact h j

/-- A deletion mark put over a value in `E`. -/
theorem Lapsed.lapse [DecidableEq K] {Q' : K → Option V} {k : K} {v : V} (h : Lapsed M E P Q)
    (hQk : Q k = some v) (hE : E v) (hv : v ≠ M.tomb) (hk : Q' k = some M.tomb)
    (hQ : ∀ j, j ≠ k → Q' j = Q j) : Lapsed M E P Q' := by
  intro j
  by_cases hj : j = k
  · subst hj
    -- the value was not the mark, so `P` held it too
    rcases h j with hP | ⟨hP, -⟩
    · exact Or.inr ⟨hk, v, by rw [← hP, hQk], hE⟩
    · rw [hQk] at hP
      cases hP
      exact absurd rfl hv
  · rw [hQ j hj]
    exact h j

/-! ## Deadlines and time -/

variable [LinearOrder T] (M)

/-- The value carries a deadline that has passed. -/
def ExpiredAt (now : T) (v : V) : Prop := ∃ t w, M.decode v = some (t, w) ∧ t ≤ now

variable {M}

theorem ExpiredAt.mono {now now' : T} {v : V} (h : ExpiredAt M now v)
    (hle : now ≤ now') : ExpiredAt M now' v := by
  rcases h with ⟨t, w, hd, ht⟩
  exact ⟨t, w, hd, ht.trans hle⟩

theorem ExpiredAt.hasDeadline {now : T} {v : V} (h : ExpiredAt M now v) : HasDeadline M v := by
  rcases h with ⟨t, w, hd, -⟩
  exact ⟨t, w, hd⟩

variable [DecidableEq V] (M)

/-- What a reader sees at `now` of what is stored. -/
def reading (now : T) : Option V → Option V
  | none => none
  | some v =>
    if v = M.tomb then none
    else
      match M.decode v with
      | none => some v
      | some (t, w) => if t ≤ now then none else some w

theorem reading_some (now : T) (v : V) :
    reading M now (some v) =
      if v = M.tomb then none
      else
        match M.decode v with
        | none => some v
        | some (t, w) => if t ≤ now then none else some w := rfl

@[simp] theorem reading_none (now : T) : reading M now none = none := rfl

@[simp] theorem reading_tomb (now : T) : reading M now (some M.tomb) = none := by
  simp [reading]

variable {M}

theorem reading_of_expired {now : T} {v : V} (h : ExpiredAt M now v) :
    reading M now (some v) = none := by
  rcases h with ⟨t, w, hd, ht⟩
  simp [reading, hd, ht]

/-- Nobody reading after the deadlines can tell the two stores apart. -/
theorem Lapsed.reading_eq {now now' : T} (h : Lapsed M (ExpiredAt M now) P Q) (hle : now ≤ now')
    (k : K) : reading M now' (Q k) = reading M now' (P k) := by
  rcases h k with hk | ⟨hk, v, hv, hE⟩
  · rw [hk]
  · rw [hk, hv, reading_tomb, reading_of_expired (hE.mono hle)]

end Expiring
