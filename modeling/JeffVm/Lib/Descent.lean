import Mathlib.Logic.Relation
import JeffVm.Lib.Backtracking

/-!
# The calls of a recursive descent

Which parts of an expression a parse runs, and on which queues. When the rules are grounded a
call that comes back to its rule has a shorter queue.
-/

set_option autoImplicit false

universe u v w x

namespace Backtracking

variable {κ : Type u} {ρ : Type v} {τ : Type w} {α : Type x} [DecidableEq κ]

/-- With some fuel the expression returns the result `m` and leaves the queue `q'`. -/
def Matches (g : Rules κ ρ τ) (b : Builder ρ τ α) (e : Exp κ ρ) (q : List τ) (m : Option α)
    (q' : List τ) : Prop :=
  ∃ n, parse g b n e q = some (m, q')

/-- Running an expression on a queue runs another one on a queue. What the first part of an
`and2` has matched before the second one runs is of the kind `P`. -/
inductive Calls (g : Rules κ ρ τ) (b : Builder ρ τ α) (P : α → Prop) :
    Exp κ ρ × List τ → Exp κ ρ × List τ → Prop where
  | body (r : ρ) (q : List τ) : Calls g b P (.rule r, q) (g.body r, q)
  | or2First (e1 e2 : Exp κ ρ) (q : List τ) : Calls g b P (.or2 e1 e2, q) (e1, q)
  | or2Second (e1 e2 : Exp κ ρ) (q q' : List τ) :
    Matches g b e1 q none q' → Calls g b P (.or2 e1 e2, q) (e2, q')
  | and2First (e1 e2 : Exp κ ρ) (q : List τ) : Calls g b P (.and2 e1 e2, q) (e1, q)
  | and2Second (e1 e2 : Exp κ ρ) (q q' : List τ) (a : α) :
    Matches g b e1 q (some a) q' → P a → Calls g b P (.and2 e1 e2, q) (e2, q')
  | opt (e : Exp κ ρ) (q : List τ) : Calls g b P (.opt e, q) (e, q)

/-- The results that nothing was read for, and how the builder keeps them apart. -/
structure Blanks (b : Builder ρ τ α) (blank : α → Bool) : Prop where
  token : ∀ t, blank (b.token t) = false
  name : ∀ r a, blank (b.name r a) = blank a
  merge : ∀ a c q, ∃ m, b.merge a (some c) q = (some m, q) ∧ blank m = (blank a && blank c)

variable {g : Rules κ ρ τ} {b : Builder ρ τ α} {P : α → Prop} {optional : ρ → Bool}
variable {size : α → Nat}
variable (hg : g.Grounded optional) (hb : Measured b size)

include hg hb in
theorem Blanks.of_not_nullable {blank : α → Bool} (hblank : Blanks b blank) {n : Nat} :
    ∀ {e : Exp κ ρ} {q q' : List τ} {a : α}, e.nullable optional = false →
      parse g b n e q = some (some a, q') → blank a = false := by
  induction n with
  | zero => intro e q q' a _ h; cases h
  | succ n ih =>
    intro e q q' a hnull h
    cases e with
    | type k =>
      obtain ⟨hm, -⟩ | ⟨t, -, -, hm⟩ := type_cases h
      · cases hm
      · cases hm
        exact hblank.token t
    | rule r =>
      obtain ⟨m', h', hm⟩ := rule_cases h
      have hbody : (g.body r).nullable optional = false := by
        by_contra hne
        rw [Bool.not_eq_false] at hne
        rw [Exp.nullable, hg.nullable r hne] at hnull
        cases hnull
      cases m' with
      | none => cases hm
      | some a' =>
        cases hm
        rw [hblank.name]
        exact ih hbody h'
    | or2 e1 e2 =>
      simp only [Exp.nullable, Bool.or_eq_false_iff] at hnull
      obtain ⟨a', h1, hm⟩ | ⟨q1, -, h2⟩ := or2_cases h
      · cases hm
        exact ih hnull.1 h1
      · exact ih hnull.2 h2
    | and2 e1 e2 =>
      simp only [Exp.nullable, Bool.and_eq_false_iff] at hnull
      obtain ⟨-, hm⟩ | ⟨a', q1, m2, q2, h1, h2, hm⟩ := and2_cases h
      · cases hm
      · cases m2 with
        | none =>
          obtain ⟨q3, h3, -⟩ := hb.rollback a' q2
          rw [h3] at hm
          cases hm
        | some c =>
          obtain ⟨m, h3, hand⟩ := hblank.merge a' c q2
          rw [h3] at hm
          cases hm
          rw [hand, Bool.and_eq_false_iff]
          exact hnull.imp (fun hn => ih hn h1) fun hn => ih hn h2
    | opt e => cases hnull
    | epsilon => cases hnull

include hb in
theorem Calls.length_le {s s' : Exp κ ρ × List τ} (h : Calls g b P s s') :
    s'.2.length ≤ s.2.length := by
  cases h with
  | body r q => exact Nat.le_refl _
  | or2First e1 e2 q => exact Nat.le_refl _
  | or2Second e1 e2 q q' h1 =>
    obtain ⟨n, h1⟩ := h1
    exact hb.length_le h1
  | and2First e1 e2 q => exact Nat.le_refl _
  | and2Second e1 e2 q q' a h1 hP =>
    obtain ⟨n, h1⟩ := h1
    exact hb.length_le h1
  | opt e q => exact Nat.le_refl _

include hg hb in
/-- A call has a shorter queue or ends its descent in fewer steps. -/
theorem Calls.shorter_or_grounded {s s' : Exp κ ρ × List τ} (h : Calls g b P s s') {n : Nat}
    (hn : s.1.grounded g.body optional (n + 1) = true) :
    s'.2.length < s.2.length ∨ s'.1.grounded g.body optional n = true := by
  cases h with
  | body r q => exact .inr hn
  | or2First e1 e2 q =>
    simp only [Exp.grounded, Bool.and_eq_true] at hn
    exact .inr hn.1
  | or2Second e1 e2 q q' h1 =>
    simp only [Exp.grounded, Bool.and_eq_true] at hn
    exact .inr hn.2
  | and2First e1 e2 q =>
    simp only [Exp.grounded, Bool.and_eq_true] at hn
    exact .inr hn.1
  | and2Second e1 e2 q q' a h1 hP =>
    simp only [Exp.grounded, Bool.and_eq_true, Bool.or_eq_true, Bool.not_eq_true'] at hn
    obtain ⟨m, h1⟩ := h1
    exact hn.2.imp (fun hnull => length_lt_of_not_nullable hg hb hnull h1) id
  | opt e q => exact .inr hn

include hb in
theorem calls_length_le {s s' : Exp κ ρ × List τ} (h : Relation.ReflTransGen (Calls g b P) s s') :
    s'.2.length ≤ s.2.length := by
  induction h with
  | refl => exact Nat.le_refl _
  | tail _ h ih => exact Nat.le_trans (h.length_le hb) ih

include hg hb in
/-- The same along a chain of calls. -/
theorem calls_shorter_or_grounded {s s' : Exp κ ρ × List τ}
    (h : Relation.TransGen (Calls g b P) s s') {n : Nat}
    (hn : s.1.grounded g.body optional (n + 1) = true) :
    s'.2.length < s.2.length ∨ s'.1.grounded g.body optional n = true := by
  induction h with
  | single h => exact h.shorter_or_grounded hg hb hn
  | tail hpre h ih =>
    have hle := calls_length_le hb hpre.to_reflTransGen
    cases ih with
    | inl hlt => exact .inl (Nat.lt_of_le_of_lt (h.length_le hb) hlt)
    | inr hgr =>
      cases h.shorter_or_grounded hg hb (grounded_succ hgr) with
      | inl hlt => exact .inl (Nat.lt_of_lt_of_le hlt hle)
      | inr hgr' => exact .inr hgr'

include hg hb in
/-- An expression that a run of it runs again has a shorter queue the second time: the least
number of steps in which its descent ends would be less than itself. -/
theorem recall_shorter {e : Exp κ ρ} {q q' : List τ}
    (h : Relation.TransGen (Calls g b P) (e, q) (e, q')) : q'.length < q.length := by
  have hleast : ∀ n, e.grounded g.body optional n = true → q'.length < q.length := by
    intro n
    induction n with
    | zero => intro hn; cases hn
    | succ n ih =>
      intro hn
      cases calls_shorter_or_grounded hg hb h hn with
      | inl hlt => exact hlt
      | inr hn' => exact ih hn'
  obtain ⟨n, hn⟩ := hg.exp e
  exact hleast n hn

include hg hb in
theorem Calls.grounded_of_blank {blank : α → Bool} (hblank : Blanks b blank)
    {s s' : Exp κ ρ × List τ} (h : Calls g b (fun a => blank a = true) s s') {n : Nat}
    (hn : s.1.grounded g.body optional (n + 1) = true) :
    s'.1.grounded g.body optional n = true := by
  cases h with
  | body r q => exact hn
  | or2First e1 e2 q =>
    simp only [Exp.grounded, Bool.and_eq_true] at hn
    exact hn.1
  | or2Second e1 e2 q q' h1 =>
    simp only [Exp.grounded, Bool.and_eq_true] at hn
    exact hn.2
  | and2First e1 e2 q =>
    simp only [Exp.grounded, Bool.and_eq_true] at hn
    exact hn.1
  | and2Second e1 e2 q q' a h1 hP =>
    simp only [Exp.grounded, Bool.and_eq_true, Bool.or_eq_true, Bool.not_eq_true'] at hn
    cases hn.2 with
    | inl hnull =>
      obtain ⟨m, h1⟩ := h1
      rw [hblank.of_not_nullable hg hb hnull h1] at hP
      cases hP
    | inr h2 => exact h2
  | opt e q => exact hn

include hg hb in
/-- No expression is run again before something is matched. -/
theorem not_recall_blank {blank : α → Bool} (hblank : Blanks b blank) {e : Exp κ ρ}
    {q q' : List τ} :
    ¬ Relation.TransGen (Calls g b fun a => blank a = true) (e, q) (e, q') := by
  intro h
  have hfewer : ∀ {s : Exp κ ρ × List τ} {n : Nat},
      Relation.TransGen (Calls g b fun a => blank a = true) (e, q) s →
        e.grounded g.body optional (n + 1) = true → s.1.grounded g.body optional n = true := by
    intro s n hs hn
    induction hs with
    | single h => exact h.grounded_of_blank hg hb hblank hn
    | tail _ h ih => exact h.grounded_of_blank hg hb hblank (grounded_succ ih)
  have hleast : ∀ n, e.grounded g.body optional n = true → False := by
    intro n
    induction n with
    | zero => intro hn; cases hn
    | succ n ih => intro hn; exact ih (hfewer h hn)
  obtain ⟨n, hn⟩ := hg.exp e
  exact hleast n hn

include hg hb in
theorem acc_of_grounded {k : Nat}
    (hshort : ∀ s : Exp κ ρ × List τ, s.2.length < k →
      Acc (fun s' s : Exp κ ρ × List τ => Calls g b P s s') s) {n : Nat} :
    ∀ {s : Exp κ ρ × List τ}, s.1.grounded g.body optional n = true → s.2.length ≤ k →
      Acc (fun s' s : Exp κ ρ × List τ => Calls g b P s s') s := by
  induction n with
  | zero => intro s hn; cases hn
  | succ n ih =>
    intro s hn hs
    refine ⟨s, fun s' h => ?_⟩
    have hle := h.length_le hb
    cases h.shorter_or_grounded hg hb hn with
    | inl hlt => exact hshort s' (Nat.lt_of_lt_of_le hlt hs)
    | inr hgr => exact ih hgr (Nat.le_trans hle hs)

include hg hb in
/-- No chain of calls goes on for ever. -/
theorem calls_wellFounded : WellFounded fun s' s : Exp κ ρ × List τ => Calls g b P s s' := by
  refine ⟨fun s => ?_⟩
  induction hk : s.2.length using Nat.strongRecOn generalizing s with
  | _ k ih =>
    obtain ⟨n, hn⟩ := hg.exp s.1
    exact acc_of_grounded hg hb (fun s hlt => ih _ hlt s rfl) hn (Nat.le_of_eq hk)

end Backtracking
