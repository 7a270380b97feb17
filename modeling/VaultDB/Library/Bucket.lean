import Mathlib.Algebra.BigOperators.Group.List.Basic
import Mathlib.Algebra.GroupWithZero.Nat
import Mathlib.Data.List.Induction
import VaultDB.Library.Run

/-! # Leaky buckets

A run pours in at some events and drains at others. The gauge of a run holds
what has come in and not been drained; it never runs below zero. It is what
came in during some last stretch of the run less what that stretch could drain,
and no stretch has more (`gauge_le_iff`). A level that pours and drains move no
worse than the gauge, but that no drain needs to bring below `floor`, is never
above the gauge by more than it was at the start (`level_le_gauge`).
-/

namespace Bucket

variable {σ ε : Type*}

/-- The total of an amount over the steps a run takes. -/
def flow (step : σ → ε → Option σ) (amount : σ → ε → Nat) (s : σ) (evs : List ε) : Nat :=
  (Machine.trace step (fun s ev => [amount s ev]) s evs).sum

/-- What is left of the gauge after the steps a run takes. -/
def gauge (step : σ → ε → Option σ) (inflow outflow : σ → ε → Nat) : Nat → σ → List ε → Nat
  | m, _, [] => m
  | m, s, ev :: evs =>
    match step s ev with
    | none => m
    | some s' => gauge step inflow outflow (m + inflow s ev - outflow s ev) s' evs

variable {step : σ → ε → Option σ} {inflow outflow amount : σ → ε → Nat} {s s' s'' : σ}
  {evs : List ε} {ev : ε}

@[simp] theorem flow_nil : flow step amount s [] = 0 := rfl

theorem flow_concat (hrun : Machine.run step s evs = some s') (hstep : step s' ev = some s'') :
    flow step amount s (evs ++ [ev]) = flow step amount s evs + amount s' ev := by
  unfold flow
  rw [Machine.trace_concat hrun hstep, List.sum_append, List.sum_singleton]

/-- What every event has of its own, whatever the state. -/
theorem flow_eq_sum {weight : ε → Nat} (hrun : Machine.run step s evs = some s') :
    flow step (fun _ ev => weight ev) s evs = (evs.map weight).sum := by
  induction evs using List.reverseRecOn generalizing s' with
  | nil => rfl
  | append_singleton evs ev ih =>
      obtain ⟨s₁, hrun₁, hstep⟩ := Machine.run_concat.mp hrun
      rw [flow_concat hrun₁ hstep, ih hrun₁, List.map_append, List.sum_append, List.map_singleton,
        List.sum_singleton]

theorem gauge_concat {m : Nat} (hrun : Machine.run step s evs = some s')
    (hstep : step s' ev = some s'') :
    gauge step inflow outflow m s (evs ++ [ev]) =
      gauge step inflow outflow m s evs + inflow s' ev - outflow s' ev := by
  induction evs generalizing m s with
  | nil =>
      have heq : s = s' := Option.some.inj hrun
      subst heq
      simp [gauge, hstep]
  | cons ev' evs ih =>
      obtain ⟨s₁, h₁, h₂⟩ := Machine.run_cons.mp hrun
      simp [gauge, h₁, ih h₂]

/-- A rank that pays for the amount of every step pays for the whole run. -/
theorem flow_add_rank_le {I : σ → Prop} {rank : σ → Nat}
    (hkeep : ∀ s ev s', I s → step s ev = some s' → I s')
    (hrank : ∀ s ev s', I s → step s ev = some s' → amount s ev + rank s' ≤ rank s)
    (hs : I s) (hrun : Machine.run step s evs = some s') :
    flow step amount s evs + rank s' ≤ rank s := by
  induction evs using List.reverseRecOn generalizing s' with
  | nil =>
      cases hrun
      rw [flow_nil, Nat.zero_add]
  | append_singleton evs ev ih =>
      obtain ⟨s₁, hrun₁, hstep⟩ := Machine.run_concat.mp hrun
      have hbefore := ih hrun₁
      have hlast := hrank s₁ ev s' (Machine.run_kept hkeep hs hrun₁) hstep
      rw [flow_concat hrun₁ hstep]
      omega

/-! ## Stretches of a run -/

/-- No last stretch of the run brings in more than it drains and the gauge
holds. -/
theorem flow_le_gauge (inflow outflow : σ → ε → Nat) {post : List ε} (hpost : post <:+ evs)
    (hrun : Machine.run step s evs = some s') :
    ∃ pre s₁, evs = pre ++ post ∧ Machine.run step s pre = some s₁ ∧
      flow step inflow s₁ post ≤ gauge step inflow outflow 0 s evs + flow step outflow s₁ post := by
  induction evs using List.reverseRecOn generalizing post s' with
  | nil =>
      have hnil := List.suffix_nil.mp hpost
      subst hnil
      exact ⟨[], s, rfl, rfl, Nat.zero_le _⟩
  | append_singleton evs ev ih =>
      obtain ⟨s₂, hrun₂, hstep⟩ := Machine.run_concat.mp hrun
      rcases List.suffix_concat_iff.mp hpost with rfl | ⟨post', rfl, hpost'⟩
      · exact ⟨evs ++ [ev], s', (List.append_nil _).symm, hrun, Nat.zero_le _⟩
      · obtain ⟨pre, s₁, hsplit, hpre, hle⟩ := ih hpost' hrun₂
        have hrun' := Machine.run_rest hpre (hsplit ▸ hrun₂)
        refine ⟨pre, s₁, by rw [hsplit, List.append_assoc], hpre, ?_⟩
        rw [flow_concat hrun' hstep, flow_concat hrun' hstep, gauge_concat hrun₂ hstep]
        omega

/-- Some last stretch of the run brings in what it drains and the gauge holds:
the one that began when the gauge was empty for the last time. -/
theorem exists_stretch (inflow outflow : σ → ε → Nat) (hrun : Machine.run step s evs = some s') :
    ∃ pre post s₁, evs = pre ++ post ∧ Machine.run step s pre = some s₁ ∧
      gauge step inflow outflow 0 s evs + flow step outflow s₁ post ≤
        flow step inflow s₁ post := by
  induction evs using List.reverseRecOn generalizing s' with
  | nil => exact ⟨[], [], s, rfl, rfl, le_refl _⟩
  | append_singleton evs ev ih =>
      obtain ⟨s₂, hrun₂, hstep⟩ := Machine.run_concat.mp hrun
      by_cases hempty : gauge step inflow outflow 0 s (evs ++ [ev]) = 0
      · exact ⟨evs ++ [ev], [], s', (List.append_nil _).symm, hrun, by rw [hempty]; exact le_refl _⟩
      · obtain ⟨pre, post, s₁, hsplit, hpre, hle⟩ := ih hrun₂
        have hrun' := Machine.run_rest hpre (hsplit ▸ hrun₂)
        refine ⟨pre, post ++ [ev], s₁, by rw [hsplit, List.append_assoc], hpre, ?_⟩
        rw [gauge_concat hrun₂ hstep] at hempty ⊢
        rw [flow_concat hrun' hstep, flow_concat hrun' hstep]
        omega

/-- The gauge holds at most `burst` exactly when no last stretch of the run
brings in more than `burst` above what it drains. -/
theorem gauge_le_iff {burst : Nat} (hrun : Machine.run step s evs = some s') :
    gauge step inflow outflow 0 s evs ≤ burst ↔
      ∀ pre post s₁, pre ++ post = evs → Machine.run step s pre = some s₁ →
        flow step inflow s₁ post ≤ flow step outflow s₁ post + burst := by
  constructor
  · intro hle pre post s₁ hsplit hpre
    obtain ⟨pre', s₁', hsplit', hpre', hflow⟩ :=
      flow_le_gauge inflow outflow ⟨pre, hsplit⟩ hrun
    have hsame : pre' = pre := List.append_cancel_right (hsplit'.symm.trans hsplit.symm)
    rw [hsame, hpre] at hpre'
    rw [Option.some.inj hpre']
    omega
  · intro h
    obtain ⟨pre, post, s₁, hsplit, hpre, hle⟩ :=
      exists_stretch inflow outflow hrun
    have hstretch := h pre post s₁ hsplit.symm hpre
    omega

/-! ## Levels -/

/-- A level moved by pours and drains, which may stop draining at `floor`. -/
theorem level_le_gauge {I : σ → Prop} {level : σ → Nat} {floor : Nat}
    (hkeep : ∀ s ev s', I s → step s ev = some s' → I s')
    (hlevel : ∀ s ev s', I s → step s ev = some s' →
      level s' ≤ max floor (level s + inflow s ev - outflow s ev))
    (hs : I s) (hrun : Machine.run step s evs = some s') :
    level s' ≤ max (level s) floor + gauge step inflow outflow 0 s evs := by
  induction evs using List.reverseRecOn generalizing s' with
  | nil =>
      cases hrun
      exact (le_max_left _ _).trans (Nat.le_add_right _ _)
  | append_singleton evs ev ih =>
      obtain ⟨s₁, hrun₁, hstep⟩ := Machine.run_concat.mp hrun
      have hbefore := ih hrun₁
      have hlast := hlevel s₁ ev s' (Machine.run_kept hkeep hs hrun₁) hstep
      rw [gauge_concat hrun₁ hstep]
      omega

end Bucket
