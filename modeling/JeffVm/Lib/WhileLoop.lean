import Mathlib.Logic.Relation

/-!
# While loops

A loop over a state, whose body may fail. A run of it is bounded in its rounds, the states at the
heads of the rounds are visited, and a measure that the body decreases bounds the rounds.
-/

set_option autoImplicit false

universe u

namespace JeffVm

/-- `while (cond s) s = body s`. -/
structure WhileLoop (σ : Type u) where
  cond : σ → Bool
  body : σ → Option σ

namespace WhileLoop

variable {σ : Type u}

/-- At most `fuel` rounds; `none` when the body fails or there are more. -/
def run (L : WhileLoop σ) : Nat → σ → Option σ
  | 0, s => if L.cond s then none else some s
  | fuel + 1, s =>
    if L.cond s then
      match L.body s with
      | none => none
      | some s' => run L fuel s'
    else some s

def Round (L : WhileLoop σ) (s s' : σ) : Prop := L.cond s = true ∧ L.body s = some s'

/-- The head of a round, or the end. -/
def Visits (L : WhileLoop σ) : σ → σ → Prop := Relation.ReflTransGen L.Round

variable {L : WhileLoop σ} {s s' : σ} {fuel : Nat}

@[simp] theorem run_of_false (h : L.cond s = false) : L.run fuel s = some s := by
  cases fuel with
  | zero => simp [run, h]
  | succ fuel => simp [run, h]

theorem run_succ (h : L.Round s s') : L.run (fuel + 1) s = L.run fuel s' := by
  rw [run, if_pos h.1, h.2]

/-- What the rounds preserve holds wherever the loop comes. -/
theorem visits_invariant {Inv : σ → Prop} (hround : ∀ s s', Inv s → L.Round s s' → Inv s')
    (hs : Inv s) (hvisits : L.Visits s s') : Inv s' := by
  induction hvisits with
  | refl => exact hs
  | tail _ h ih => exact hround _ _ ih h

/-- A loop whose body succeeds, keeps the invariant and decreases the measure comes to its end
within as many rounds as the measure allows. -/
theorem run_total {Inv : σ → Prop} (measure : σ → Nat)
    (hround : ∀ s, Inv s → L.cond s = true →
      ∃ s', L.body s = some s' ∧ Inv s' ∧ measure s' < measure s)
    (hs : Inv s) (hfuel : measure s ≤ fuel) :
    ∃ s', L.run fuel s = some s' ∧ Inv s' ∧ L.cond s' = false := by
  induction fuel generalizing s with
  | zero =>
    cases hcond : L.cond s with
    | false => exact ⟨s, run_of_false hcond, hs, hcond⟩
    | true =>
      obtain ⟨s', -, -, hlt⟩ := hround s hs hcond
      omega
  | succ fuel ih =>
    cases hcond : L.cond s with
    | false => exact ⟨s, run_of_false hcond, hs, hcond⟩
    | true =>
      obtain ⟨s', hbody, hs', hlt⟩ := hround s hs hcond
      rw [run_succ ⟨hcond, hbody⟩]
      apply ih hs'
      omega

/-- A loop that keeps its condition has no end. -/
theorem run_eq_none {Inv : σ → Prop} (hcond : ∀ s, Inv s → L.cond s = true)
    (hround : ∀ s s', Inv s → L.Round s s' → Inv s') (hs : Inv s) : L.run fuel s = none := by
  induction fuel generalizing s with
  | zero => rw [run, if_pos (hcond s hs)]
  | succ fuel ih =>
    rw [run, if_pos (hcond s hs)]
    cases hbody : L.body s with
    | none => rfl
    | some s' => exact ih (hround s s' hs ⟨hcond s hs, hbody⟩)

end WhileLoop

end JeffVm
