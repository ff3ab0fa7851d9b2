import JeffVm.Lib.Descent
import JeffVm.Parser

/-!
# The parser terminates
-/

set_option autoImplicit false

namespace JeffVm

open Backtracking

theorem matchMerge_isEpsilon (parent child : SyntaxTree) (q : List Token) :
    ∃ t, matchMerge parent (some child) q = (some t, q) ∧
      t.isEpsilon = (parent.isEpsilon && child.isEpsilon) := by
  obtain ⟨h, hchild⟩ | ⟨h, hchild, hparent⟩ | ⟨h, ⟨hparent, -⟩, -⟩ :=
    matchMerge_cases parent child q
  · refine ⟨parent, h, ?_⟩
    cases hchild with
    | inl hchild => rw [hchild, Bool.and_true]
    | inr hchild => rw [hchild.2, Bool.false_and]
  · refine ⟨child, h, ?_⟩
    rw [hchild, Bool.and_false]
  · refine ⟨_, h, ?_⟩
    rw [hparent, Bool.false_and]
    rfl

theorem syntaxBuilder_blanks : Blanks syntaxBuilder SyntaxTree.isEpsilon where
  token _ := rfl
  name p t := by cases t <;> rfl
  merge := matchMerge_isEpsilon

/-- Running the rule `p` on the queue `q` runs an expression on a queue, after matching trees of
the kind `P`. -/
def Rule.Runs (P : SyntaxTree → Prop) (p : Rule) (q : List Token) :
    Exp TokenType Rule × List Token → Prop :=
  Relation.TransGen (Calls parserRules syntaxBuilder P) (.rule p, q)

/-- Every rule returns on every queue, and no chain of calls from it goes on for ever. Where it
runs itself again the queue has become shorter, and more than epsilon has been matched. -/
theorem parser_terminates (p : Rule) (q : List Token) :
    (∃ m rest, p.Parses q m rest) ∧
      (∀ chain : Nat → Exp TokenType Rule × List Token, chain 0 = (.rule p, q) →
        ∃ i, ¬ Calls parserRules syntaxBuilder (fun _ => True) (chain i) (chain (i + 1))) ∧
      (∀ q', p.Runs (fun _ => True) q (.rule p, q') → q'.length < q.length) ∧
      ∀ q', ¬ p.Runs (fun t => t.isEpsilon = true) q (.rule p, q') := by
  refine ⟨parses_total p q, ?_, ?_, ?_⟩
  · intro chain _
    by_contra hforever
    simp only [not_exists, not_not] at hforever
    have hwf := calls_wellFounded (P := fun _ => True) parserRules_grounded syntaxBuilder_measured
    obtain ⟨s, ⟨i, hi⟩, hmin⟩ := hwf.has_min (Set.range chain) ⟨chain 0, 0, rfl⟩
    subst hi
    exact hmin (chain (i + 1)) ⟨i + 1, rfl⟩ (hforever i)
  · intro q' h
    exact recall_shorter parserRules_grounded syntaxBuilder_measured h
  · intro q' h
    exact not_recall_blank parserRules_grounded syntaxBuilder_measured syntaxBuilder_blanks h

end JeffVm
