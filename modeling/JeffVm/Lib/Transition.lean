import Mathlib.Logic.Relation

/-!
# Labelled transition systems

Runs of a partial step function under a list of labels, with the invariant rules: what a step
preserves, a run preserves, also when the step needs a condition that the run meets.
-/

set_option autoImplicit false

namespace JeffVm

universe u v

variable {σ : Type u} {ι : Type v}

/-- The state after the labels of a run, when every step is possible. -/
def runSteps (step : σ → ι → Option σ) : σ → List ι → Option σ
  | s, [] => some s
  | s, l :: ls =>
    match step s l with
    | none => none
    | some s' => runSteps step s' ls

/-- A run whose steps all meet `C`. -/
inductive RunsIn (step : σ → ι → Option σ) (C : σ → ι → Prop) : σ → σ → Prop where
  | refl (s : σ) : RunsIn step C s s
  | tail {s s' s'' : σ} {l : ι} : RunsIn step C s s' → C s' l → step s' l = some s'' →
      RunsIn step C s s''

theorem runSteps_append (step : σ → ι → Option σ) (s : σ) (ls ls' : List ι) :
    runSteps step s (ls ++ ls') =
      (runSteps step s ls).bind fun s' => runSteps step s' ls' := by
  induction ls generalizing s with
  | nil => rfl
  | cons l ls ih =>
    rw [List.cons_append, runSteps, runSteps]
    cases step s l with
    | none => rfl
    | some s' => exact ih s'

namespace RunsIn

variable {step : σ → ι → Option σ} {C : σ → ι → Prop} {P : σ → Prop}

/-- The invariant rule. -/
theorem invariant (hstep : ∀ s l s', P s → C s l → step s l = some s' → P s') {s s' : σ}
    (h : RunsIn step C s s') (hs : P s) : P s' := by
  induction h with
  | refl => exact hs
  | tail _ hC hl ih => exact hstep _ _ _ ih hC hl

theorem trans {s s' s'' : σ} (h : RunsIn step C s s') (h' : RunsIn step C s' s'') :
    RunsIn step C s s'' := by
  induction h' with
  | refl => exact h
  | tail _ hC hl ih => exact .tail ih hC hl

theorem mono {D : σ → ι → Prop} (hCD : ∀ s l, C s l → D s l) {s s' : σ}
    (h : RunsIn step C s s') : RunsIn step D s s' := by
  induction h with
  | refl => exact .refl _
  | tail _ hC hl ih => exact .tail ih (hCD _ _ hC) hl

theorem single {s s' : σ} {l : ι} (hC : C s l) (h : step s l = some s') : RunsIn step C s s' :=
  .tail (.refl s) hC h

end RunsIn

/-- Any run. -/
def Runs (step : σ → ι → Option σ) : σ → σ → Prop := RunsIn step (fun _ _ => True)

/-- The run of labels that meet the condition in any state. -/
theorem runsIn_of_runSteps {step : σ → ι → Option σ} {C : σ → ι → Prop} {s s' : σ} {ls : List ι}
    (h : runSteps step s ls = some s') (hC : ∀ l ∈ ls, ∀ s, C s l) : RunsIn step C s s' := by
  induction ls generalizing s with
  | nil =>
    rw [runSteps] at h
    cases h
    exact .refl _
  | cons l ls ih =>
    rw [runSteps] at h
    cases hl : step s l with
    | none => simp [hl] at h
    | some s₁ =>
      rw [hl] at h
      have hrest := ih h fun l' hmem => hC l' (List.mem_cons_of_mem l hmem)
      exact (RunsIn.single (hC l List.mem_cons_self s) hl).trans hrest

theorem runs_of_runSteps {step : σ → ι → Option σ} {s s' : σ} {ls : List ι}
    (h : runSteps step s ls = some s') : Runs step s s' :=
  runsIn_of_runSteps h fun _ _ _ => trivial

/-- A step that is taken only where the condition holds. -/
def guarded (step : σ → ι → Option σ) (C : σ → ι → Prop) [∀ s l, Decidable (C s l)] (s : σ)
    (l : ι) : Option σ := if C s l then step s l else none

theorem runsIn_of_guarded {step : σ → ι → Option σ} {C : σ → ι → Prop}
    [∀ s l, Decidable (C s l)] {s s' : σ} {ls : List ι}
    (h : runSteps (guarded step C) s ls = some s') : RunsIn step C s s' := by
  induction ls generalizing s with
  | nil =>
    rw [runSteps] at h
    cases h
    exact .refl _
  | cons l ls ih =>
    rw [runSteps, guarded] at h
    by_cases hC : C s l
    · rw [if_pos hC] at h
      cases hl : step s l with
      | none => simp [hl] at h
      | some s₁ =>
        rw [hl] at h
        exact (RunsIn.single hC hl).trans (ih h)
    · simp [hC] at h

/-- Each step of a run that is possible meets the condition. -/
def Along (step : σ → ι → Option σ) (C : σ → ι → Prop) : σ → List ι → Prop
  | _, [] => True
  | s, l :: ls => ∀ s', step s l = some s' → C s l ∧ Along step C s' ls

theorem along_of_forall {step : σ → ι → Option σ} {C : σ → ι → Prop} (hC : ∀ s l, C s l) (s : σ)
    (ls : List ι) : Along step C s ls := by
  induction ls generalizing s with
  | nil => trivial
  | cons l ls ih => exact fun s' _ => ⟨hC s l, ih s'⟩

/-- The states of a run have a property exactly when its steps meet the condition that each step
needs to keep it. -/
theorem along_iff {step : σ → ι → Option σ} {I P : σ → Prop} {E C : σ → ι → Prop}
    (hstep : ∀ s l s', I s → P s → E s l → step s l = some s' → I s' ∧ (P s' ↔ C s l)) {s : σ}
    {ls : List ι} (hI : I s) (hP : P s) (hE : Along step E s ls) :
    (∀ n s', runSteps step s (ls.take n) = some s' → P s') ↔ Along step C s ls := by
  induction ls generalizing s with
  | nil =>
    constructor
    · intro _
      trivial
    · intro _ n s' hrun
      rw [List.take_nil, runSteps] at hrun
      cases hrun
      exact hP
  | cons l ls ih =>
    constructor
    · intro hall s₁ hl
      obtain ⟨hEl, hEls⟩ := hE s₁ hl
      obtain ⟨hI₁, hiff⟩ := hstep s l s₁ hI hP hEl hl
      have hP₁ : P s₁ := hall 1 s₁ (by simp [runSteps, hl])
      refine ⟨hiff.mp hP₁, (ih hI₁ hP₁ hEls).mp ?_⟩
      intro n s' hrun
      apply hall (n + 1) s'
      rw [List.take_succ_cons, runSteps, hl]
      exact hrun
    · intro hC n s' hrun
      cases n with
      | zero =>
        rw [List.take_zero, runSteps] at hrun
        cases hrun
        exact hP
      | succ n =>
        rw [List.take_succ_cons, runSteps] at hrun
        cases hl : step s l with
        | none => simp [hl] at hrun
        | some s₁ =>
          rw [hl] at hrun
          obtain ⟨hEl, hEls⟩ := hE s₁ hl
          obtain ⟨hCl, hCls⟩ := hC s₁ hl
          obtain ⟨hI₁, hiff⟩ := hstep s l s₁ hI hP hEl hl
          exact (ih hI₁ (hiff.mpr hCl) hEls).mpr hCls n s' hrun

end JeffVm
