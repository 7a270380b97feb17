import Mathlib.Data.List.Infix
import Mathlib.Tactic.Common

/-! # Runs of a machine whose steps may be undefined

A machine is a step function `σ → ε → Option σ` over events `ε`; `none` marks
a step with no defined outcome, and a run stops there. The rules below turn
facts about one step into facts about every state a run reaches.
-/

namespace Machine

variable {σ ε : Type*}

/-- The state after the events `evs`, when every step on the way is defined. -/
def run (step : σ → ε → Option σ) : σ → List ε → Option σ
  | s, [] => some s
  | s, ev :: evs => (step s ev).bind fun s' => run step s' evs

/-- Every step the run takes meets `P` in the state it starts from. -/
def Along (step : σ → ε → Option σ) (P : σ → ε → Prop) : σ → List ε → Prop
  | _, [] => True
  | s, ev :: evs => ∀ s', step s ev = some s' → P s ev ∧ Along step P s' evs

/-- Every step the run comes to meets `P`, whether it is defined or not. -/
def Guarded (step : σ → ε → Option σ) (P : σ → ε → Prop) : σ → List ε → Prop
  | _, [] => True
  | s, ev :: evs => P s ev ∧ ∀ s', step s ev = some s' → Guarded step P s' evs

/-- Every state the run reaches, the first one included, satisfies `Q`. -/
def Always (step : σ → ε → Option σ) (Q : σ → Prop) : σ → List ε → Prop
  | s, [] => Q s
  | s, ev :: evs => Q s ∧ ∀ s', step s ev = some s' → Always step Q s' evs

/-- What `f` notes of every step the run takes, in order. -/
def trace {α : Type*} (step : σ → ε → Option σ) (f : σ → ε → List α) : σ → List ε → List α
  | _, [] => []
  | s, ev :: evs =>
    match step s ev with
    | none => []
    | some s' => f s ev ++ trace step f s' evs

variable {step : σ → ε → Option σ} {P : σ → ε → Prop} {Q : σ → Prop}

/-- A condition that can be decided at each step can be decided along a run. -/
instance decidableAlong [∀ s ev, Decidable (P s ev)] (s : σ) (evs : List ε) :
    Decidable (Along step P s evs) :=
  match evs with
  | [] => isTrue trivial
  | ev :: evs =>
    match h : step s ev with
    | none => isTrue fun s' hs' => by rw [h] at hs'; cases hs'
    | some s' =>
      have := decidableAlong s' evs
      decidable_of_iff (P s ev ∧ Along step P s' evs) ⟨fun hP s'' hs'' => by
        rw [h] at hs''
        rw [← Option.some.inj hs'']
        exact hP, fun hP => hP s' h⟩

@[simp] theorem run_nil (s : σ) : run step s [] = some s := rfl

theorem run_cons {s s'' : σ} {ev : ε} {evs : List ε} :
    run step s (ev :: evs) = some s'' ↔
      ∃ s', step s ev = some s' ∧ run step s' evs = some s'' := by
  simp [run, Option.bind_eq_some_iff]

theorem run_append {s s'' : σ} {evs evs' : List ε} :
    run step s (evs ++ evs') = some s'' ↔
      ∃ s', run step s evs = some s' ∧ run step s' evs' = some s'' := by
  induction evs generalizing s with
  | nil => simp
  | cons ev evs ih =>
      simp only [List.cons_append, run_cons, ih]
      constructor
      · rintro ⟨s₁, h₁, s₂, h₂, h₃⟩
        exact ⟨s₂, ⟨s₁, h₁, h₂⟩, h₃⟩
      · rintro ⟨s₂, ⟨s₁, h₁, h₂⟩, h₃⟩
        exact ⟨s₁, h₁, s₂, h₂, h₃⟩

/-- What is left of a run behind its first part. -/
theorem run_rest {s s' s'' : σ} {evs evs' : List ε} (hfirst : run step s evs = some s')
    (hrun : run step s (evs ++ evs') = some s'') : run step s' evs' = some s'' := by
  rcases run_append.mp hrun with ⟨s₁, hfirst', hrest⟩
  rw [hfirst] at hfirst'
  rw [Option.some.inj hfirst']
  exact hrest

/-- The last step of a run. -/
theorem run_concat {s s'' : σ} {evs : List ε} {ev : ε} :
    run step s (evs ++ [ev]) = some s'' ↔
      ∃ s', run step s evs = some s' ∧ step s' ev = some s'' := by
  rw [run_append]
  simp [run_cons]

/-- The notes of a run with one more step. -/
theorem trace_concat {α : Type*} {f : σ → ε → List α} {s s' s'' : σ} {evs : List ε} {ev : ε}
    (hrun : run step s evs = some s') (hstep : step s' ev = some s'') :
    trace step f s (evs ++ [ev]) = trace step f s evs ++ f s' ev := by
  induction evs generalizing s with
  | nil =>
      have heq : s = s' := Option.some.inj hrun
      subst heq
      simp [trace, hstep]
  | cons ev' evs ih =>
      rcases run_cons.mp hrun with ⟨s₁, h₁, h₂⟩
      simp [trace, h₁, ih h₂]

/-- A longer run begins with the notes of the shorter one. -/
theorem isPrefix_trace {α : Type*} {f : σ → ε → List α} (s : σ) (evs evs' : List ε) :
    trace step f s evs <+: trace step f s (evs ++ evs') := by
  induction evs generalizing s with
  | nil => exact List.nil_prefix
  | cons ev evs ih =>
      rw [List.cons_append]
      unfold trace
      cases hstep : step s ev with
      | none => exact List.nil_prefix
      | some s' => exact (List.prefix_append_right_inj _).mpr (ih s')

/-- Every note of a run was taken at one of its events. -/
theorem mem_trace {α : Type*} {f : σ → ε → List α} {s : σ} {evs : List ε} {a : α}
    (h : a ∈ trace step f s evs) : ∃ s', ∃ ev ∈ evs, a ∈ f s' ev := by
  induction evs generalizing s with
  | nil => cases h
  | cons ev evs ih =>
      unfold trace at h
      cases hstep : step s ev with
      | none =>
          rw [hstep] at h
          cases h
      | some s' =>
          rw [hstep] at h
          rcases List.mem_append.mp h with hnow | hlater
          · exact ⟨s, ev, List.mem_cons_self, hnow⟩
          · rcases ih hlater with ⟨s'', ev', hev', ha⟩
            exact ⟨s'', ev', List.mem_cons_of_mem _ hev', ha⟩

/-! ## Conditions along a run -/

theorem along_append {s : σ} {evs evs' : List ε} :
    Along step P s (evs ++ evs') ↔
      Along step P s evs ∧ ∀ s', run step s evs = some s' → Along step P s' evs' := by
  induction evs generalizing s with
  | nil => simp [Along]
  | cons ev evs ih =>
      simp only [List.cons_append, Along, ih, run_cons]
      constructor
      · intro h
        exact ⟨fun s' hs' => ⟨(h s' hs').1, (h s' hs').2.1⟩,
          fun s'' ⟨s', hs', hrun⟩ => (h s' hs').2.2 s'' hrun⟩
      · rintro ⟨h₁, h₂⟩ s' hs'
        exact ⟨(h₁ s' hs').1, (h₁ s' hs').2, fun s'' hrun => h₂ s'' ⟨s', hs', hrun⟩⟩

theorem along_concat {s : σ} {evs : List ε} {ev : ε} :
    Along step P s (evs ++ [ev]) ↔
      Along step P s evs ∧
        ∀ s' s'', run step s evs = some s' → step s' ev = some s'' → P s' ev := by
  rw [along_append]
  refine and_congr_right fun _ => forall_congr' fun s' => ?_
  constructor
  · intro h s'' hrun hstep
    exact (h hrun s'' hstep).1
  · intro h hrun s'' hstep
    exact ⟨h s'' hrun hstep, trivial⟩

theorem Along.mono {P' : σ → ε → Prop} (himp : ∀ s ev, P s ev → P' s ev) {s : σ}
    {evs : List ε} (h : Along step P s evs) : Along step P' s evs := by
  induction evs generalizing s with
  | nil => trivial
  | cons ev evs ih =>
      intro s' hs'
      exact ⟨himp s ev (h s' hs').1, ih (h s' hs').2⟩

theorem Along.and {P' : σ → ε → Prop} {s : σ} {evs : List ε} (h : Along step P s evs)
    (h' : Along step P' s evs) : Along step (fun s ev => P s ev ∧ P' s ev) s evs := by
  induction evs generalizing s with
  | nil => trivial
  | cons ev evs ih =>
      intro s' hs'
      exact ⟨⟨(h s' hs').1, (h' s' hs').1⟩, ih (h s' hs').2 (h' s' hs').2⟩

/-- What holds of every event in every state holds along every run. -/
theorem along_of_forall {G : ε → Prop} {s : σ} {evs : List ε} (hG : ∀ ev ∈ evs, G ev)
    (himp : ∀ s ev, G ev → P s ev) : Along step P s evs := by
  induction evs generalizing s with
  | nil => trivial
  | cons ev evs ih =>
      intro s' _
      exact ⟨himp s ev (hG ev List.mem_cons_self),
        ih fun ev' hev' => hG ev' (List.mem_cons_of_mem ev hev')⟩

/-- A property that holds at the start and is kept by every step that meets
`P` holds at the end of every run all of whose steps meet `P`. -/
theorem run_invariant {I : σ → Prop}
    (hstep : ∀ s ev s', I s → P s ev → step s ev = some s' → I s')
    {s s' : σ} {evs : List ε} (hs : I s) (halong : Along step P s evs)
    (hrun : run step s evs = some s') : I s' := by
  induction evs generalizing s with
  | nil =>
      cases hrun
      exact hs
  | cons ev evs ih =>
      obtain ⟨s₁, h₁, h₂⟩ := run_cons.mp hrun
      obtain ⟨hP, hrest⟩ := halong s₁ h₁
      exact ih (hstep s ev s₁ hs hP h₁) hrest h₂

/-- A property that every step keeps holds at the end of every run. -/
theorem run_kept {I : σ → Prop} (hkeep : ∀ s ev s', I s → step s ev = some s' → I s')
    {s s' : σ} {evs : List ε} (hs : I s) (hrun : run step s evs = some s') : I s' := by
  have halong : Along step (fun _ _ => True) s evs :=
    along_of_forall (G := fun _ => True) (fun _ _ => trivial) fun _ _ _ => trivial
  exact run_invariant (fun s ev s' hs _ hstep => hkeep s ev s' hs hstep) hs halong hrun

theorem guarded_of_forall {s : σ} {evs : List ε} (h : ∀ s ev, P s ev) : Guarded step P s evs := by
  induction evs generalizing s with
  | nil => trivial
  | cons ev evs ih => exact ⟨h s ev, fun s' _ => ih⟩

/-- Where the steps from a state in `I` are defined exactly when they meet `P`,
a run comes to its end exactly when every step it comes to meets `P`. -/
theorem run_isSome_iff_guarded {I : σ → Prop}
    (hkeep : ∀ s ev s', I s → step s ev = some s' → I s')
    (hexact : ∀ s ev, I s → ((∃ s', step s ev = some s') ↔ P s ev)) {s : σ} {evs : List ε}
    (hs : I s) : (∃ s', run step s evs = some s') ↔ Guarded step P s evs := by
  induction evs generalizing s with
  | nil => exact ⟨fun _ => trivial, fun _ => ⟨s, rfl⟩⟩
  | cons ev evs ih =>
      unfold Guarded
      rw [← hexact s ev hs]
      constructor
      · rintro ⟨s'', hrun⟩
        rcases run_cons.mp hrun with ⟨s₁, h₁, h₂⟩
        refine ⟨⟨s₁, h₁⟩, ?_⟩
        intro s' hs'
        rw [h₁] at hs'
        cases hs'
        exact (ih (hkeep s ev s₁ hs h₁)).mp ⟨s'', h₂⟩
      · rintro ⟨⟨s₁, h₁⟩, hrest⟩
        rcases (ih (hkeep s ev s₁ hs h₁)).mpr (hrest s₁ h₁) with ⟨s'', h₂⟩
        exact ⟨s'', run_cons.mpr ⟨s₁, h₁, h₂⟩⟩

/-- `Always` speaks of exactly the states at the end of some first part of the
run. -/
theorem always_iff {s : σ} {evs : List ε} :
    Always step Q s evs ↔ ∀ pre, pre <+: evs → ∀ s', run step s pre = some s' → Q s' := by
  induction evs generalizing s with
  | nil =>
      simp only [Always, List.prefix_nil]
      constructor
      · rintro h pre rfl s' hs'
        cases hs'
        exact h
      · intro h
        exact h [] rfl s rfl
  | cons ev evs ih =>
      simp only [Always, ih]
      constructor
      · -- a first part is empty or begins with `ev`
        rintro ⟨h₀, h⟩ pre hpre s'' hrun
        rcases List.prefix_cons_iff.mp hpre with rfl | ⟨pre', rfl, hpre'⟩
        · cases hrun
          exact h₀
        · obtain ⟨s', hs', hrun'⟩ := run_cons.mp hrun
          exact h s' hs' pre' hpre' s'' hrun'
      · intro h
        refine ⟨h [] List.nil_prefix s rfl, fun s' hs' pre hpre s'' hrun => ?_⟩
        exact h (ev :: pre) (List.cons_prefix_cons.mpr ⟨rfl, hpre⟩) s''
          (run_cons.mpr ⟨s', hs', hrun⟩)

/-- The exact condition rule, for properties of a state and of the events that
led to it: where one more event keeps the property exactly when its step meets
`P`, all first parts of a run have it exactly when all steps meet `P`. -/
theorem forall_isPrefix_iff_along {R : List ε → σ → Prop} {s : σ} {evs : List ε}
    (hnil : R [] s)
    (hexact : ∀ pre ev s₁ s₂, pre ++ [ev] <+: evs → run step s pre = some s₁ →
      step s₁ ev = some s₂ → R pre s₁ → (R (pre ++ [ev]) s₂ ↔ P s₁ ev)) :
    (∀ pre, pre <+: evs → ∀ s', run step s pre = some s' → R pre s') ↔
      Along step P s evs := by
  induction evs using List.reverseRecOn with
  | nil =>
      constructor
      · intro _
        trivial
      · intro _ pre hpre s' hrun
        rw [List.prefix_nil.mp hpre] at hrun ⊢
        rw [← Option.some.inj hrun]
        exact hnil
  | append_singleton evs ev ih =>
      -- the last event is split off, so that `R` is known before it
      have ih' := ih fun pre ev' s₁ s₂ hpre =>
        hexact pre ev' s₁ s₂ (hpre.trans (List.prefix_append _ _))
      rw [along_concat, ← ih']
      constructor
      · intro h
        have hshort : ∀ pre, pre <+: evs → ∀ s', run step s pre = some s' → R pre s' :=
          fun pre hpre => h pre (hpre.trans (List.prefix_append _ _))
        refine ⟨hshort, ?_⟩
        intro s₁ s₂ hrun hstep
        have hlong := h _ List.prefix_rfl s₂ (run_concat.mpr ⟨s₁, hrun, hstep⟩)
        exact (hexact evs ev s₁ s₂ List.prefix_rfl hrun hstep
          (hshort evs List.prefix_rfl s₁ hrun)).mp hlong
      · -- a first part is the whole run, or a first part of the run without the last event
        rintro ⟨hshort, hlast⟩ pre hpre s' hrun
        rcases List.prefix_concat_iff.mp hpre with rfl | hpre
        · rcases run_concat.mp hrun with ⟨s₁, hrun₁, hstep⟩
          exact (hexact evs ev s₁ s' List.prefix_rfl hrun₁ hstep
            (hshort evs List.prefix_rfl s₁ hrun₁)).mpr (hlast s₁ s' hrun₁ hstep)
        · exact hshort pre hpre s' hrun

/-- The rule for properties of a state: where one step from a state in `Q` ends
in `Q` exactly when it meets `P`, a run stays in `Q` exactly when all its steps
meet `P`. The events may be restricted to those in `G`. -/
theorem always_iff_along {G : ε → Prop}
    (hexact : ∀ s ev s', Q s → G ev → step s ev = some s' → (Q s' ↔ P s ev))
    {s : σ} {evs : List ε} (hG : ∀ ev ∈ evs, G ev) (hQ : Q s) :
    Always step Q s evs ↔ Along step P s evs := by
  rw [always_iff]
  apply forall_isPrefix_iff_along (R := fun _ => Q) hQ
  intro pre ev s₁ s₂ hpre _ hstep hQ₁
  have hev : ev ∈ evs := hpre.subset (List.mem_append_right pre List.mem_cons_self)
  exact hexact s₁ ev s₂ hQ₁ (hG ev hev) hstep

/-- The same under an invariant that every step keeps. -/
theorem always_iff_along_of_invariant {I : σ → Prop}
    (hkeep : ∀ s ev s', I s → step s ev = some s' → I s')
    (hexact : ∀ s ev s', I s → Q s → step s ev = some s' → (Q s' ↔ P s ev))
    {s : σ} {evs : List ε} (hI : I s) (hQ : Q s) :
    Always step Q s evs ↔ Along step P s evs := by
  rw [always_iff]
  apply forall_isPrefix_iff_along (R := fun _ => Q) hQ
  intro pre ev s₁ s₂ _ hrun hstep hQ₁
  exact hexact s₁ ev s₂ (run_kept hkeep hI hrun) hQ₁ hstep

end Machine
