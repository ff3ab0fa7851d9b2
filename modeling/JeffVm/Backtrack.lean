import JeffVm.Parser

/-!
# What a failed rule leaves in the queue

A merge drops newlines, so a tree that is rolled back may give back less than was read for it.
A failed rule leaves the queue as it was exactly when no part that it read and gave up had a
newline to lose.
-/

set_option autoImplicit false

namespace JeffVm

open Backtracking

/-- The leaves of a tree for the segment `u`. -/
def restored (u : List Token) : List Token :=
  if significant u = [] then u.take 1 else significant u

/-- No newline, or nothing but a newline. -/
def Restorable (u : List Token) : Prop :=
  (∀ token ∈ u, token.type ≠ .ENDLINE) ∨ u.length = 1

/-- On the queue `q` the first part of a sequence within `p` reads the segment `u`, and the second
part fails, when all that fails is put back. -/
def Rule.Abandons (p : Rule) (q u : List Token) : Prop :=
  ∃ n, u ∈ abandoned parserRules n (.rule p) q

/-! ## Segments -/

theorem significant_sublist (u : List Token) : (significant u).Sublist u :=
  List.filter_sublist

theorem restored_sublist (u : List Token) : (restored u).Sublist u := by
  unfold restored
  split
  · exact List.take_sublist 1 u
  · exact significant_sublist u

theorem significant_eq_self_iff (u : List Token) :
    significant u = u ↔ ∀ token ∈ u, token.type ≠ .ENDLINE := by
  simp [significant, List.filter_eq_self]

theorem restored_eq_self_iff (u : List Token) : restored u = u ↔ Restorable u := by
  unfold restored Restorable
  rw [← significant_eq_self_iff]
  cases u with
  | nil => simp [significant]
  | cons token u =>
    split
    · rename_i hsig
      rw [hsig]
      constructor
      · intro h
        have hu : u = [] := by simpa using h.symm
        exact .inr (by simp [hu])
      · rintro (h | h)
        · cases h
        · have hu : u = [] := List.eq_nil_of_length_eq_zero (by simpa using h)
          simp [hu]
    · rename_i hsig
      constructor
      · exact .inl
      · rintro (h | h)
        · exact h
        · have hu : u = [] := List.eq_nil_of_length_eq_zero (by simpa using h)
          subst hu
          by_cases ht : token.type = .ENDLINE
          · exact absurd (by simp [significant, ht]) hsig
          · simp [significant, ht]

/-! ## Trees and segments -/

/-- The tree `t` is what the rules build from the segment `u`. -/
def SyntaxTree.Builds : SyntaxTree → List Token → Prop
  | epsilon _, u => u = []
  | leaf token _, u =>
    (token.type = .ENDLINE ∧ significant u = [] ∧ u.head? = some token) ∨
      (token.type ≠ .ENDLINE ∧ significant u = [token])
  | node first second _, u => significant u ≠ [] ∧ first.leaves ++ second.leaves = significant u

namespace SyntaxTree.Builds

theorem leaves {t : SyntaxTree} {u : List Token} (h : t.Builds u) : t.leaves = restored u := by
  unfold restored
  cases t with
  | epsilon expression =>
    cases h
    rfl
  | leaf token expression =>
    obtain ⟨-, hsig, hhead⟩ | ⟨-, hsig⟩ := h
    · rw [if_pos hsig]
      cases u with
      | nil => cases hhead
      | cons token' u =>
        cases hhead
        rfl
    · simp [hsig, SyntaxTree.leaves]
  | node first second expression =>
    obtain ⟨hne, hsig⟩ := h
    rw [if_neg hne]
    exact hsig

theorem significant_of_newline {t : SyntaxTree} {u : List Token} (h : t.Builds u)
    (ht : t.isNewline = true) : significant u = [] := by
  cases t with
  | epsilon expression => cases ht
  | leaf token expression =>
    simp only [SyntaxTree.isNewline, decide_eq_true_eq] at ht
    obtain ⟨-, hsig, -⟩ | ⟨hne, -⟩ := h
    · exact hsig
    · exact absurd ht hne
  | node first second expression => cases ht

theorem significant_of_other {t : SyntaxTree} {u : List Token} (h : t.Builds u)
    (hepsilon : t.isEpsilon = false) (hnewline : t.isNewline = false) :
    significant u ≠ [] ∧ t.leaves = significant u := by
  cases t with
  | epsilon expression => cases hepsilon
  | leaf token expression =>
    simp only [SyntaxTree.isNewline, decide_eq_false_iff_not] at hnewline
    obtain ⟨heq, -⟩ | ⟨-, hsig⟩ := h
    · exact absurd heq hnewline
    · exact ⟨by simp [hsig], hsig.symm⟩
  | node first second expression => exact h

/-- Newlines after what a tree is built from, when there was something to build it from. -/
theorem append_newlines {t : SyntaxTree} {u v : List Token} (h : t.Builds u)
    (ht : t.isEpsilon = false) (hv : significant v = []) : t.Builds (u ++ v) := by
  cases t with
  | epsilon expression => cases ht
  | leaf token expression =>
    obtain ⟨hnewline, hsig, hhead⟩ | ⟨hne, hsig⟩ := h
    · refine .inl ⟨hnewline, by simp [hsig, hv], ?_⟩
      rw [List.head?_append, hhead]
      rfl
    · exact .inr ⟨hne, by simp [hsig, hv]⟩
  | node first second expression =>
    obtain ⟨hne, hsig⟩ := h
    exact ⟨by simp [hne], by simp [hsig, hv]⟩

/-- Newlines before it. -/
theorem newlines_append {t : SyntaxTree} {u v : List Token} (h : t.Builds v)
    (hepsilon : t.isEpsilon = false) (hnewline : t.isNewline = false) (hu : significant u = []) :
    t.Builds (u ++ v) := by
  cases t with
  | epsilon expression => cases hepsilon
  | leaf token expression =>
    simp only [SyntaxTree.isNewline, decide_eq_false_iff_not] at hnewline
    obtain ⟨heq, -⟩ | ⟨hne, hsig⟩ := h
    · exact absurd heq hnewline
    · exact .inr ⟨hne, by simp [hsig, hu]⟩
  | node first second expression =>
    obtain ⟨hne, hsig⟩ := h
    exact ⟨by simp [hne], by simp [hsig, hu]⟩

theorem setExpression {t : SyntaxTree} {u : List Token} (p : Rule) (h : t.Builds u) :
    (t.setExpression p).Builds u := by
  cases t <;> exact h

theorem eq_nil {t : SyntaxTree} {u : List Token} (h : t.Builds u) (ht : t.isEpsilon = true) :
    u = [] := by
  cases t with
  | epsilon expression => exact h
  | leaf token expression => cases ht
  | node first second expression => cases ht

theorem merge {parent child m : SyntaxTree} {u v q q' : List Token} (hu : parent.Builds u)
    (hv : child.Builds v) (h : matchMerge parent (some child) q = (some m, q')) :
    m.Builds (u ++ v) := by
  obtain ⟨heq, hchild⟩ | ⟨heq, hchild, hparent⟩ | ⟨heq, hparent, hchild⟩ :=
    matchMerge_cases parent child q
  · rw [heq] at h
    cases h
    obtain hchild | ⟨hchild, hparent⟩ := hchild
    · rw [hv.eq_nil hchild, List.append_nil]
      exact hu
    · exact hu.append_newlines hparent (hv.significant_of_newline hchild)
  · rw [heq] at h
    cases h
    obtain hparent | ⟨hparent, hnewline⟩ := hparent
    · rw [hu.eq_nil hparent]
      exact hv
    · exact hv.newlines_append hchild hnewline (hu.significant_of_newline hparent)
  · rw [heq] at h
    cases h
    obtain ⟨hne, hu⟩ := hu.significant_of_other hparent.1 hparent.2
    obtain ⟨-, hv⟩ := hv.significant_of_other hchild.1 hchild.2
    exact ⟨by simp [hne], by simp [hu, hv]⟩

end SyntaxTree.Builds

theorem syntaxBuilder_restores : Restores syntaxBuilder SyntaxTree.Builds restored where
  token token := by
    by_cases h : token.type = .ENDLINE
    · exact .inl ⟨h, by simp [significant, h], rfl⟩
    · exact .inr ⟨h, by simp [significant, h]⟩
  epsilon := rfl
  name p t u h := h.setExpression p
  merge parent child m u v q q' hu hv h := hu.merge hv h
  rollback parent u q h := by
    simp only [syntaxBuilder, matchMerge, matchRollback_eq, h.leaves]
  sublist := restored_sublist

/-! ## Failed rules -/

/-- A rule that fails leaves the queue as it was exactly when no segment that it read and gave up
has a newline next to other tokens. -/
theorem failed_rule_restores_iff (p : Rule) (q rest : List Token) (h : p.Parses q none rest) :
    rest = q ↔ ∀ u, p.Abandons q u → Restorable u := by
  obtain ⟨n, h⟩ := h
  have hsize : ∀ (t : SyntaxTree) u, t.Builds u → t.leaves.length ≤ u.length := by
    intro t u hbuild
    rw [hbuild.leaves]
    exact (restored_sublist u).length_le
  have hiff : ∀ n', n ≤ n' →
      (rest = q ↔ ∀ u ∈ abandoned parserRules n' (.rule p) q, restored u = u) :=
    fun n' hn => failed_iff syntaxBuilder_restores syntaxBuilder_measured hsize (parse_mono hn h)
  constructor
  · rintro heq u ⟨n', hu⟩
    have hall := (hiff (max n n') (Nat.le_max_left ..)).mp heq
    exact (restored_eq_self_iff u).mp (hall u (abandoned_mono (Nat.le_max_right ..) hu))
  · intro hall
    refine (hiff n (Nat.le_refl n)).mpr fun u hu => ?_
    exact (restored_eq_self_iff u).mpr (hall u ⟨n, hu⟩)

def lparen : Token := ⟨.LPAREN, 1, 0, "("⟩
def newline : Token := ⟨.ENDLINE, 1, 1, "\n"⟩
def wordX : Token := ⟨.WORD, 2, 0, "x"⟩
def rparen : Token := ⟨.RPAREN, 2, 1, ")"⟩

theorem failed_rule_restores_word :
    [lparen, wordX, rparen] = [lparen, wordX, rparen] ↔
      ∀ u, Rule.anonFunctionDefinition.Abandons [lparen, wordX, rparen] u → Restorable u :=
  failed_rule_restores_iff .anonFunctionDefinition [lparen, wordX, rparen] [lparen, wordX, rparen]
    ⟨40, by decide⟩

/-- A parenthesis and a newline, tried as the arguments of a function without a name. -/
theorem failed_rule_drops_newline :
    ¬ ∀ (p : Rule) (q rest : List Token), p.Parses q none rest → rest = q := by
  intro h
  have hparse : Rule.anonFunctionDefinition.Parses [lparen, newline, wordX, rparen] none
      [lparen, wordX, rparen] := ⟨40, by decide⟩
  have heq := h _ _ _ hparse
  exact absurd heq (by decide)

end JeffVm
