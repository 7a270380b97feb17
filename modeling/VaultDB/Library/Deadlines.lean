import Mathlib.Logic.Function.Basic
import VaultDB.Library.Layers

/-! # Maps whose values may have deadlines

A key holds a value, which is read until its deadline if it has one, or
nothing. `ofRaw` is the map that a store of raw values stands for when deletion
marks and deadlines are encoded in the values: reading the one is reading the
other (`read_ofRaw`), and a write of a raw value is a write of what it decodes
to (`ofRaw_update`).
-/

namespace Deadlines

variable {K V T : Type*}

structure Held (V T : Type*) where
  value : V
  deadline : Option T
deriving Repr, DecidableEq

/-- What the keys hold. -/
abbrev Store (K V T : Type*) := K → Option (Held V T)

section Read

variable [LinearOrder T]

/-- From its deadline on a value is no longer read. -/
def Held.read (h : Held V T) (now : T) : Option V :=
  match h.deadline with
  | none => some h.value
  | some t => if t ≤ now then none else some h.value

def read (s : Store K V T) (now : T) (k : K) : Option V := (s k).bind fun h => h.read now

end Read

variable [DecidableEq V] (M : Expiring.Marks V T)

/-- What a raw value stands for. -/
def decode (v : V) : Option (Held V T) :=
  if v = M.tomb then none
  else
    match M.decode v with
    | none => some ⟨v, none⟩
    | some (t, w) => some ⟨w, some t⟩

def ofRaw (P : K → Option V) : Store K V T := fun k => (P k).bind (decode M)

@[simp] theorem decode_tomb : decode M M.tomb = none := if_pos rfl

variable {M}

theorem decode_plain {v : V} (hne : v ≠ M.tomb) (hnone : M.decode v = none) :
    decode M v = some ⟨v, none⟩ := by
  unfold decode
  rw [if_neg hne, hnone]

theorem decode_until {v w : V} {t : T} (hne : v ≠ M.tomb) (hsome : M.decode v = some (t, w)) :
    decode M v = some ⟨w, some t⟩ := by
  unfold decode
  rw [if_neg hne, hsome]

theorem ofRaw_update [DecidableEq K] (P : K → Option V) (k : K) (v : V) :
    ofRaw M (Function.update P k (some v)) = Function.update (ofRaw M P) k (decode M v) := by
  funext j
  unfold ofRaw
  by_cases hj : j = k
  · subst hj
    rw [Function.update_self, Function.update_self]
    rfl
  · rw [Function.update_of_ne hj, Function.update_of_ne hj]

theorem read_ofRaw [LinearOrder T] (P : K → Option V) (now : T) (k : K) :
    read (ofRaw M P) now k = Expiring.reading M now (P k) := by
  unfold read ofRaw
  cases hP : P k with
  | none => rfl
  | some v =>
      rw [Option.bind_some, Expiring.reading_some]
      unfold decode
      split_ifs with htomb
      · rfl
      · cases hdecode : M.decode v with
        | none => rfl
        | some p => rfl

end Deadlines
