import Mathlib.Data.List.Basic

/-!
# Runs with a trace

Systems whose steps may emit an event. What holds of every run from a state, with the trace
that it has emitted, is what holds now and of every run after one step.
-/

set_option autoImplicit false

universe u v

namespace JeffVm

variable {σ : Type u} {ε : Type v}

/-- A run and the events of its steps in order. -/
inductive Traced (Step : σ → Option ε → σ → Prop) : σ → List ε → σ → Prop where
  | refl (s : σ) : Traced Step s [] s
  | head {s s' s'' : σ} {e : Option ε} {tr : List ε} : Step s e s' → Traced Step s' tr s'' →
      Traced Step s (e.toList ++ tr) s''

/-- The property holds of every run from `s`. -/
def Always (Step : σ → Option ε → σ → Prop) (P : List ε → σ → Prop) (s : σ) : Prop :=
  ∀ tr s', Traced Step s tr s' → P tr s'

namespace Always

variable {Step : σ → Option ε → σ → Prop} {P Q : List ε → σ → Prop} {s s' : σ} {e : Option ε}

theorem now (h : Always Step P s) : P [] s := h [] s (.refl s)

theorem after (h : Always Step P s) (hstep : Step s e s') :
    Always Step (fun tr => P (e.toList ++ tr)) s' :=
  fun _ s'' hrun => h _ s'' (.head hstep hrun)

theorem intro (hnow : P [] s)
    (hafter : ∀ e s', Step s e s' → Always Step (fun tr => P (e.toList ++ tr)) s') :
    Always Step P s := by
  intro tr s'' hrun
  cases hrun with
  | refl => exact hnow
  | head hstep hrest => exact hafter _ _ hstep _ _ hrest

theorem mono (hPQ : ∀ tr s', P tr s' → Q tr s') (h : Always Step P s) : Always Step Q s :=
  fun tr s' hrun => hPQ tr s' (h tr s' hrun)

theorem congr (hPQ : ∀ tr s', P tr s' ↔ Q tr s') : Always Step P s ↔ Always Step Q s :=
  ⟨mono fun tr s' => (hPQ tr s').mp, mono fun tr s' => (hPQ tr s').mpr⟩

/-- Where there is one step to take, the runs are the empty one and those that take it. -/
theorem unique (h : ∀ e' s'', Step s e' s'' ↔ e' = e ∧ s'' = s') :
    Always Step P s ↔ P [] s ∧ Always Step (fun tr => P (e.toList ++ tr)) s' := by
  constructor
  · intro hall
    exact ⟨hall.now, hall.after ((h e s').mpr ⟨rfl, rfl⟩)⟩
  · rintro ⟨hnow, hafter⟩
    apply intro hnow
    intro e' s'' hstep
    obtain ⟨rfl, rfl⟩ := (h e' s'').mp hstep
    exact hafter

end Always

end JeffVm
