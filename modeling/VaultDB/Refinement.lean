import VaultDB.Runs

/-! # The engine refines a plain map

What a client reads is what is visible of the last write to the key. With a
clock that does not run backwards this is exact at every moment
(`get_returns_visible`); with any clock it is still exact for values that
carry no mark (`answer_after_set_iff`).
-/

namespace VaultDB

open Text Codec FileStream SSTable Expiring LSMEngine

variable {dataDir : Bytes} {cacheSize : Nat} {threshold : UInt64}

/-- Every `get` of a run returns what is visible of the last write to its key. -/
theorem get_returns_visible (hcache : 0 < cacheSize) {evs : List Event}
    (hio : ∀ ev ∈ evs, NoIoError ev) (hfits : ∀ ev ∈ evs, OpFits ev.op)
    (hclock : (evs.flatMap readings).Pairwise (· ≤ ·))
    (hnames : (Machine.trace LSMEngine.step nameReadings (start dataDir cacheSize threshold)
      evs).Pairwise (· < ·)) :
    (∃ e, Machine.run LSMEngine.step (start dataDir cacheSize threshold) evs = some e) ∧
      ∀ pre key env post, evs = pre ++ ⟨.get key, env⟩ :: post →
        ∃ e, Machine.run LSMEngine.step (start dataDir cacheSize threshold) pre = some e ∧
          e.answer key env.now = some (visible env.now (PlainMap.after pre key)) := by
  have halong := along_orderly hio hfits (hnames.imp fun hlt => ne_of_lt hlt)
  refine ⟨run_isSome hcache halong, ?_⟩
  rintro pre key env post rfl
  have hpre := (Machine.along_append.mp halong).1
  rcases run_isSome hcache hpre with ⟨e, hrun⟩
  refine ⟨e, hrun, answer_run hpre hrun ?_ key⟩
  intro ev hev
  -- the readings of `pre` come before the one of this `get`
  rw [List.flatMap_append, List.pairwise_append] at hclock
  apply hclock.2.2
  · refine List.mem_flatMap.mpr ⟨ev, hev, ?_⟩
    rcases ev with ⟨op, env'⟩
    cases op <;> simp [readings]
  · simp [readings]

/-- A key with a deadline is flushed at 1 and read at 3, before the deadline. -/
theorem get_returns_visible_flushed :
    ∃ e, Machine.run LSMEngine.step (start [] 1 1)
        [⟨.set (ascii "k") (ascii "EXPIRY:5:w"), Env.calm 1⟩] = some e ∧
      e.answer (ascii "k") 3 = some (some (ascii "w")) := by
  have h := (@get_returns_visible [] 1 1 (by decide)
    [⟨.set (ascii "k") (ascii "EXPIRY:5:w"), Env.calm 1⟩, ⟨.get (ascii "k"), Env.calm 3⟩]
    (by decide) (by decide) (by decide) (by decide +kernel)).2
    [⟨.set (ascii "k") (ascii "EXPIRY:5:w"), Env.calm 1⟩] (ascii "k") (Env.calm 3) [] rfl
  rcases h with ⟨e, hrun, hanswer⟩
  refine ⟨e, hrun, hanswer.trans ?_⟩
  decide +kernel

/-! ## Values as clients store them -/

/-- The operation writes the key. -/
def writesKey (key : Bytes) : Op → Prop
  | .set k _ => k = key
  | .get _ => False
  | .del k => k = key
  | .compact => False

theorem PlainMap.apply_of_not_writes {key : Bytes} {op : Op} (h : ¬ writesKey key op)
    (P : PlainMap) : P.apply op key = P key := by
  cases op with
  | set k v => exact Function.update_of_ne (fun heq => h heq.symm) _ _
  | get k => rfl
  | del k => exact Function.update_of_ne (fun heq => h heq.symm) _ _
  | compact => rfl

/-- Events that do not write the key leave what it was last written to hold. -/
theorem PlainMap.after_append_of_not_writes {key : Bytes} (evs : List Event) {evs' : List Event}
    (h : ∀ ev ∈ evs', ¬ writesKey key ev.op) :
    PlainMap.after (evs ++ evs') key = PlainMap.after evs key := by
  induction evs' using List.reverseRecOn with
  | nil => rw [List.append_nil]
  | append_singleton evs' ev ih =>
      rw [← List.append_assoc, PlainMap.after_concat,
        PlainMap.apply_of_not_writes (h ev (by simp))]
      exact ih fun ev' hev' => h ev' (List.mem_append_left _ hev')

/-- Whatever the clock does, a stored value is read back exactly when it is
plain: neither the deletion mark nor of the expiry form. -/
theorem answer_after_set_iff {pre mid : List Event} {key value : Bytes} {env : Env} {e : LSMEngine}
    (halong : Machine.Along LSMEngine.step Orderly (start dataDir cacheSize threshold)
      (pre ++ ⟨.set key value, env⟩ :: mid))
    (hrun : Machine.run LSMEngine.step (start dataDir cacheSize threshold)
      (pre ++ ⟨.set key value, env⟩ :: mid) = some e)
    (hmid : ∀ ev ∈ mid, ¬ writesKey key ev.op) (now : Nat) :
    e.answer key now = some (some value) ↔ Plain value := by
  have hl := (lapsed_run halong hrun (E := HasDeadline marks)
    fun ev _ v hv => Expiring.ExpiredAt.hasDeadline hv).1
  have hlast : PlainMap.after (pre ++ ⟨.set key value, env⟩ :: mid) key = some value := by
    have hsplit : pre ++ (⟨.set key value, env⟩ : Event) :: mid =
        (pre ++ [⟨.set key value, env⟩]) ++ mid := by simp
    rw [hsplit, PlainMap.after_append_of_not_writes _ hmid, PlainMap.after_concat]
    exact Function.update_self _ _ _
  rw [(sound_run halong hrun).toLayered.answer]
  constructor
  · intro hanswer
    have hvisible := Option.some.inj hanswer
    rcases hl key with hkept | ⟨hmarked, -⟩
    · rw [hkept, hlast] at hvisible
      exact visible_eq_self_iff.mp hvisible
    · have hmarked' : e.lookup key = some TOMBSTONE := hmarked
      rw [hmarked', visible_tombstone] at hvisible
      cases hvisible
  · intro hplain
    -- a plain value has no deadline, so no read may have marked it deleted
    have hnever : ¬ HasDeadline marks value := by
      rintro ⟨t, w, hdecode⟩
      have hnone : marks.decode value = none := hplain.2
      rw [hnone] at hdecode
      cases hdecode
    rw [hl.eq_of_not hlast hnever]
    exact congrArg some (visible_eq_self_iff.mpr hplain)

/-- The deletion mark is lost when a client stores it. -/
theorem tombstone_not_read_back :
    ¬ ∀ (pre mid : List Event) (key value : Bytes) (env : Env) (e : LSMEngine),
      Machine.Along LSMEngine.step Orderly (start [] 1 1) (pre ++ ⟨.set key value, env⟩ :: mid) →
      Machine.run LSMEngine.step (start [] 1 1) (pre ++ ⟨.set key value, env⟩ :: mid) = some e →
      (∀ ev ∈ mid, ¬ writesKey key ev.op) →
      ∀ now, e.answer key now = some (some value) := by
  intro hall
  have halong := @along_orderly [] 1 1 ([] ++ [⟨.set (ascii "k") TOMBSTONE, Env.calm 1⟩])
    (by decide) (by decide) (by decide +kernel)
  rcases run_isSome (by decide) halong with ⟨e, hrun⟩
  have hback := hall [] [] _ _ _ e halong hrun (by simp) 2
  have hlost : (Machine.run LSMEngine.step (start [] 1 1)
      [⟨.set (ascii "k") TOMBSTONE, Env.calm 1⟩]).bind (fun e => e.answer (ascii "k") 2) =
      some none := by decide +kernel
  rw [List.nil_append] at hrun
  rw [hrun, Option.bind_some, hback] at hlost
  cases hlost

end VaultDB
