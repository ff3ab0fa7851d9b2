import JeffVm.Lib.Transition
import Mathlib.Algebra.BigOperators.Group.List.Basic
import Mathlib.Algebra.Order.BigOperators.Group.List
import Mathlib.Algebra.Order.Ring.Int
import Mathlib.Data.Int.Cast.Lemmas
import Mathlib.Tactic.Linarith

/-!
# Threads that share a state

Threads with a local state each and one shared state. In a step one thread acts on its own state
and on the shared one. What the action leaves balanced between the two stays balanced between
the shared state and the sum over all threads.
-/

set_option autoImplicit false

universe u v w

namespace JeffVm

structure Crew (σ : Type u) (τ : Type v) where
  shared : σ
  threads : List τ

namespace Crew

variable {σ : Type u} {τ : Type v} {ι : Type w}

/-- Thread `l.1` takes action `l.2`. -/
def step (act : ι → σ → τ → Option (σ × τ)) (c : Crew σ τ) (l : Nat × ι) : Option (Crew σ τ) :=
  match c.threads[l.1]? with
  | none => none
  | some s => (act l.2 c.shared s).map fun r => ⟨r.1, c.threads.set l.1 r.2⟩

/-- The sum over the threads. -/
def tally (f : τ → Int) (c : Crew σ τ) : Int := (c.threads.map f).sum

/-- The shared part and the sum over the threads. -/
def balance (F : σ → Int) (f : τ → Int) (c : Crew σ τ) : Int := F c.shared + c.tally f

variable {act : ι → σ → τ → Option (σ × τ)} {c c' : Crew σ τ} {l : Nat × ι}

theorem step_some (h : c.step act l = some c') :
    ∃ s s', c.threads[l.1]? = some s ∧ act l.2 c.shared s = some (c'.shared, s') ∧
      c'.threads = c.threads.set l.1 s' := by
  unfold step at h
  cases hs : c.threads[l.1]? with
  | none => simp [hs] at h
  | some s =>
    rw [hs] at h
    obtain ⟨⟨sh, s'⟩, hact, heq⟩ := Option.map_eq_some_iff.mp h
    subst heq
    exact ⟨s, s', rfl, hact, rfl⟩

theorem step_none (h : c.step act l = none) {s : τ} (hs : c.threads[l.1]? = some s) :
    act l.2 c.shared s = none := by
  unfold step at h
  rw [hs] at h
  exact Option.map_eq_none_iff.mp h

theorem sum_set (f : τ → Int) {ts : List τ} {i : Nat} {s : τ} (h : ts[i]? = some s) (s' : τ) :
    ((ts.set i s').map f).sum = (ts.map f).sum + f s' - f s := by
  induction ts generalizing i with
  | nil => cases h
  | cons t ts ih =>
    cases i with
    | zero =>
      cases h
      rw [List.set_cons_zero, List.map_cons, List.map_cons, List.sum_cons, List.sum_cons]
      omega
    | succ i =>
      have hrest := ih h
      rw [List.set_cons_succ, List.map_cons, List.map_cons, List.sum_cons, List.sum_cons, hrest]
      omega

/-- A step changes a balance by what the action changes. -/
theorem balance_step (h : c.step act l = some c') : ∃ s s', c.threads[l.1]? = some s ∧
    act l.2 c.shared s = some (c'.shared, s') ∧ ∀ (F : σ → Int) (f : τ → Int),
      c'.balance F f - c.balance F f = (F c'.shared + f s') - (F c.shared + f s) := by
  obtain ⟨s, s', hs, hact, hset⟩ := step_some h
  refine ⟨s, s', hs, hact, ?_⟩
  intro F f
  unfold balance tally
  rw [hset, sum_set f hs s']
  omega

/-- What every action keeps balanced, a run keeps balanced. -/
theorem balance_run {F : σ → Int} {f : τ → Int} {C : Crew σ τ → Nat × ι → Prop}
    (hact : ∀ a sh s sh' s', act a sh s = some (sh', s') → F sh' + f s' = F sh + f s)
    (hrun : RunsIn (step act) C c c') : c'.balance F f = c.balance F f := by
  induction hrun with
  | refl => rfl
  | tail _ _ hstep ih =>
    obtain ⟨s, s', -, hs, hbalance⟩ := balance_step hstep
    have heq := hbalance F f
    have hkeep := hact _ _ _ _ _ hs
    omega

theorem shared_run {P : σ → Prop} {C : Crew σ τ → Nat × ι → Prop}
    (hact : ∀ a sh s sh' s', act a sh s = some (sh', s') → P sh → P sh')
    (hrun : RunsIn (step act) C c c') (hP : P c.shared) : P c'.shared := by
  induction hrun with
  | refl => exact hP
  | tail _ _ hstep ih =>
    obtain ⟨s, s', -, hs, -⟩ := step_some hstep
    exact hact _ _ _ _ _ hs ih

theorem tally_countP (p : τ → Bool) (c : Crew σ τ) :
    c.tally (fun s => if p s then 1 else 0) = c.threads.countP p := by
  unfold tally
  induction c.threads with
  | nil => rfl
  | cons t ts ih =>
    rw [List.map_cons, List.sum_cons, ih, List.countP_cons]
    split
    · omega
    · omega

theorem tally_nonneg {f : τ → Int} (hf : ∀ s, 0 ≤ f s) (c : Crew σ τ) : 0 ≤ c.tally f := by
  apply List.sum_nonneg
  intro n hn
  obtain ⟨s, -, rfl⟩ := List.mem_map.mp hn
  exact hf s

theorem le_tally {f : τ → Int} (hf : ∀ s, 0 ≤ f s) {c : Crew σ τ} {s : τ} (h : s ∈ c.threads) :
    f s ≤ c.tally f := by
  apply List.single_le_sum
  · intro n hn
    obtain ⟨s', -, rfl⟩ := List.mem_map.mp hn
    exact hf s'
  · exact List.mem_map_of_mem h

/-- A run whose steps all lower a balance that is never negative is no longer than it. -/
theorem length_le_balance {F : σ → Int} {f : τ → Int} {Inv : Crew σ τ → Prop}
    {ls : List (Nat × ι)} (hF : ∀ sh, 0 ≤ F sh) (hf : ∀ s, 0 ≤ f s)
    (hstep : ∀ l ∈ ls, ∀ c c', Inv c → c.step act l = some c' →
      Inv c' ∧ c'.balance F f < c.balance F f)
    (hInv : Inv c) (hrun : runSteps (step act) c ls = some c') :
    (ls.length : Int) ≤ c.balance F f := by
  induction ls generalizing c with
  | nil =>
    have hshared := hF c.shared
    have htally := tally_nonneg hf c
    simp only [List.length_nil, balance]
    omega
  | cons l ls ih =>
    rw [runSteps] at hrun
    cases hl : c.step act l with
    | none => simp [hl] at hrun
    | some c₁ =>
      rw [hl] at hrun
      obtain ⟨hInv₁, hlt⟩ := hstep l List.mem_cons_self c c₁ hInv hl
      have hrest := ih (fun l' hl' => hstep l' (List.mem_cons_of_mem l hl')) hInv₁ hrun
      rw [List.length_cons]
      omega

end Crew

end JeffVm
