import JeffVm.Backtrack
import JeffVm.Lib.Derivation

/-!
# What the parser accepts

The rules read as a grammar derive what the parser accepts, up to newlines that failed attempts have
lost, and the syntax tree is the tree of the derivation. The brackets of whatever the grammar derives
match.
-/

set_option autoImplicit false

namespace JeffVm

open Backtracking

theorem significant_restored (u : List Token) : significant (restored u) = significant u := by
  unfold restored
  split
  · rename_i hnone
    have hfew : (significant (u.take 1)).Sublist (significant u) :=
      (List.take_sublist 1 u).filter _
    rw [hnone] at hfew ⊢
    exact List.sublist_nil.mp hfew
  · exact List.filter_eq_self.mpr fun token h => (List.mem_filter.mp h).2

/-- The queue may have lost newlines. -/
def LosesNewlines (q q' : List Token) : Prop := q'.Sublist q ∧ significant q' = significant q

theorem losses_newlines : Losses restored LosesNewlines where
  refl q := ⟨List.Sublist.refl q, rfl⟩
  trans h h' := ⟨h'.1.trans h.1, h'.2.trans h.2⟩
  behind u q q' h := by
    refine ⟨h.1.append_left u, ?_⟩
    rw [significant_append, significant_append, h.2]
  rollback u q := by
    refine ⟨(restored_sublist u).append_right q, ?_⟩
    rw [significant_append, significant_append, significant_restored]

theorem matchMerge_some (parent child : SyntaxTree) (m : Option SyntaxTree) (q q' : List Token)
    (h : matchMerge parent (some child) q = (m, q')) : q' = q ∧ m.isSome = true := by
  obtain ⟨t, ht, -⟩ := significant_merge parent child q
  rw [ht] at h
  cases h
  exact ⟨rfl, rfl⟩

/-- The grammar derives what a rule accepts, with the tree that the rule gives; the queue has lost
newlines at most. -/
theorem accepted_derived (p : Rule) (q rest : List Token) (t : SyntaxTree)
    (h : p.Parses q (some t) rest) : ∃ u, Derives parserRules syntaxBuilder (.rule p) u t ∧
      (u ++ rest).Sublist q ∧ significant (u ++ rest) = significant q :=
  Matches.sound syntaxBuilder_restores matchMerge_some losses_newlines h

def parenthesised : SyntaxTree :=
  .node (.leaf lparen none) (.node (.leaf wordX (some .identifier)) (.leaf rparen none) none)
    (some .primaryExpressionNoConstants)

/-- The newline is lost when the parentheses have been tried as arguments of a function. -/
theorem parses_parenthesised : Rule.primaryExpressionNoConstants.Parses
    [lparen, newline, wordX, rparen] (some parenthesised) [] :=
  ⟨120, by decide +kernel⟩

theorem accepted_derived_parenthesised : ∃ u, Derives parserRules syntaxBuilder
    (.rule .primaryExpressionNoConstants) u parenthesised ∧
      u.Sublist [lparen, newline, wordX, rparen] := by
  obtain ⟨u, hu, hlost, -⟩ := accepted_derived _ _ _ _ parses_parenthesised
  rw [List.append_nil] at hlost
  exact ⟨u, hu, hlost⟩

/-! ## Brackets -/

inductive BracketPair where
  | parentheses | squares | braces
  deriving DecidableEq, Repr

def TokenType.bracket : TokenType → Bracket BracketPair
  | .LPAREN => .opens .parentheses
  | .RPAREN => .closes .parentheses
  | .LBRAC => .opens .squares
  | .RBRAC => .closes .squares
  | .LBRCE => .opens .braces
  | .RBRCE => .closes .braces
  | _ => .neither

/-- The brackets that are open behind the tokens. -/
def bracketsBehind (tokens : List Token) (stack : List BracketPair) : Option (List BracketPair) :=
  openBrackets TokenType.bracket Token.type tokens stack

/-- Every rule closes the brackets that it opens. -/
theorem body_effect (p : Rule) : p.body.effect TokenType.bracket = some ([], []) := by
  cases p <;> rfl

theorem bracketsBehind_significant (tokens : List Token) (stack : List BracketPair) :
    bracketsBehind (significant tokens) stack = bracketsBehind tokens stack := by
  induction tokens generalizing stack with
  | nil => rfl
  | cons token tokens ih =>
    by_cases hline : token.type = .ENDLINE
    · have hskip : significant (token :: tokens) = significant tokens := by
        simp [significant, hline]
      have hneither : bracketsBehind (token :: tokens) stack = bracketsBehind tokens stack := by
        simp only [bracketsBehind, openBrackets, hline, TokenType.bracket]
      rw [hskip, hneither, ih]
    · have hkeep : significant (token :: tokens) = token :: significant tokens := by
        simp [significant, hline]
      rw [hkeep]
      simp only [bracketsBehind] at ih
      simp only [bracketsBehind, openBrackets, ih]

theorem bracketsBehind_append (u v : List Token) (stack : List BracketPair) :
    bracketsBehind (u ++ v) stack = (bracketsBehind u stack).bind (bracketsBehind v) :=
  openBrackets_append Token.type u v stack

theorem derived_brackets {p : Rule} {u : List Token} {t : SyntaxTree}
    (h : Derives parserRules syntaxBuilder (.rule p) u t) (stack : List BracketPair) :
    bracketsBehind u stack = some stack :=
  h.closesOpens body_effect rfl stack

/-- The brackets in the tree that a rule gives match, and the tokens that the rule leaves in the
queue see the same open brackets as if nothing had been read. -/
theorem accepted_brackets_match (p : Rule) (q rest : List Token) (t : SyntaxTree)
    (h : p.Parses q (some t) rest) (stack : List BracketPair) :
    bracketsBehind t.leaves stack = some stack ∧
      bracketsBehind q stack = bracketsBehind rest stack := by
  have hsound : Sound parserRules syntaxBuilder LosesNewlines (.rule p) q (some t) rest :=
    Matches.sound syntaxBuilder_restores matchMerge_some losses_newlines h
  obtain ⟨u, hu, -, hsig⟩ := hsound
  have hmatch := derived_brackets hu stack
  constructor
  · have hleaves := (hu.builds syntaxBuilder_restores).leaves
    rw [hleaves, ← bracketsBehind_significant, significant_restored, bracketsBehind_significant]
    exact hmatch
  · rw [← bracketsBehind_significant q, ← hsig, bracketsBehind_significant, bracketsBehind_append,
      hmatch, Option.bind_some]

theorem accepted_brackets_match_parenthesised :
    bracketsBehind [lparen, newline, wordX, rparen] [.braces] = some [.braces] :=
  (accepted_brackets_match _ _ _ _ parses_parenthesised [.braces]).2

end JeffVm
