import JeffVm.Lib.Matching
import JeffVm.Populate

/-!
# Chains of operators

The grammar reads a chain of operators from the right, and the populator puts its operands in a
list. A tree belongs to the chain it stands in when the rule of the chain has named it.
-/

set_option autoImplicit false

namespace JeffVm

open Backtracking

/-! ## Blank trees and names -/

namespace SyntaxTree

/-- A merge drops such a tree. -/
def Blank (t : SyntaxTree) : Prop := t.isEpsilon = true ∨ t.isNewline = true

theorem expression_setExpression (name : Rule) (t : SyntaxTree) :
    (t.setExpression name).expression = t.expression.or (some name) := by
  cases t <;> rfl

theorem setExpression_of_named {name : Rule} {t : SyntaxTree} (h : t.expression.isSome = true) :
    t.setExpression name = t := by
  obtain ⟨r, hr⟩ := Option.isSome_iff_exists.mp h
  cases t with
  | epsilon expression =>
    cases hr
    rfl
  | leaf token expression =>
    cases hr
    rfl
  | node first second expression =>
    cases hr
    rfl

theorem blank_setExpression {name : Rule} {t : SyntaxTree} (h : (t.setExpression name).Blank) :
    t.Blank := by
  cases t <;> exact h

end SyntaxTree

theorem blank_of_merge {parent child m : SyntaxTree} {q q' : List Token}
    (h : matchMerge parent (some child) q = (some m, q')) (hm : m.Blank) :
    parent.Blank ∧ child.Blank := by
  obtain ⟨heq, hchild⟩ | ⟨heq, -, hparent⟩ | ⟨heq, -⟩ := matchMerge_cases parent child q
  · rw [heq] at h
    cases h
    exact ⟨hm, hchild.imp id And.left⟩
  · rw [heq] at h
    cases h
    exact ⟨hparent.imp id And.left, hm⟩
  · rw [heq] at h
    cases h
    rcases hm with hm | hm
    · cases hm
    · cases hm

/-- A merge names nothing; a tree with a name is the one that was merged with a blank tree. -/
theorem named_of_merge {name : Rule} {parent child m : SyntaxTree} {q q' : List Token}
    (h : matchMerge parent (some child) q = (some m, q')) (hm : m.expression = some name) :
    (parent.expression = some name ∧ child.Blank) ∨
      (parent.Blank ∧ child.expression = some name) := by
  obtain ⟨heq, hchild⟩ | ⟨heq, -, hparent⟩ | ⟨heq, -⟩ := matchMerge_cases parent child q
  · rw [heq] at h
    cases h
    exact .inl ⟨hm, hchild.imp id And.left⟩
  · rw [heq] at h
    cases h
    exact .inr ⟨hparent.imp id And.left, hm⟩
  · rw [heq] at h
    cases h
    cases hm

theorem merge_of_solid {parent child : SyntaxTree} (q : List Token) (hparent : ¬ parent.Blank)
    (hchild : ¬ child.Blank) : matchMerge parent (some child) q = (some (.node parent child none), q) := by
  obtain ⟨-, hblank⟩ | ⟨-, -, hblank⟩ | ⟨heq, -⟩ := matchMerge_cases parent child q
  · exact absurd (hblank.imp id And.left) hchild
  · exact absurd (hblank.imp id And.left) hparent
  · exact heq

theorem merge_epsilon (parent : SyntaxTree) (expression : Option Rule) (q : List Token) :
    matchMerge parent (some (.epsilon expression)) q = (some parent, q) := rfl

theorem syntaxBuilder_dropsBlanks : DropsBlanks parserRules syntaxBuilder (fun k => k = .ENDLINE)
    SyntaxTree.Blank fun r t => t.expression = some r where
  token t h := by
    rcases h with h | h
    · cases h
    · exact h
  name r a h := SyntaxTree.blank_setExpression h
  merge a c q m q' h hm := blank_of_merge h hm
  rollback a q m q' h := by cases h
  token_named r t h := by cases h
  epsilon_named r h := by cases h
  name_named r r' a h := by
    rw [syntaxBuilder, SyntaxTree.expression_setExpression] at h
    cases ha : a.expression with
    | none =>
      rw [ha] at h
      exact .inl (Option.some.inj h).symm
    | some name =>
      rw [ha] at h
      exact .inr h
  merge_named r a c q m q' h hm := named_of_merge h hm

theorem parses_of_body {p : Rule} {q rest : List Token} {m : Option SyntaxTree}
    (h : Matches parserRules syntaxBuilder p.body q m rest) :
    p.Parses q (m.map (SyntaxTree.setExpression p)) rest :=
  Matches.rule (g := parserRules) (r := p) h

/-- A token that may have a newline behind it. -/
theorem typeLn_plain {q : List Token} (token : Token) (h : ∀ next ∈ q.head?, next.type ≠ .ENDLINE) :
    Matches parserRules syntaxBuilder (typeLn token.type) (token :: q) (some (.leaf token none)) q :=
  .and2 (.type rfl) (matches_opt.mpr (.inr ⟨.type_fail h, rfl⟩)) rfl

/-- A rule that never matches blank tokens only. -/
def Rule.isSolid (p : Rule) : Bool :=
  !(Exp.rule p).blank (fun k => decide (k = TokenType.ENDLINE)) Rule.body 120

theorem Rule.Parses.solid {p : Rule} {q rest : List Token} {t : SyntaxTree}
    (h : p.Parses q (some t) rest) (hp : p.isSolid = true) : ¬ t.Blank := by
  intro hblank
  have hmay := syntaxBuilder_dropsBlanks.blank h hblank 120
  rw [Rule.isSolid, Bool.not_eq_true'] at hp
  exact absurd hmay (by simpa [parserRules] using hp)

theorem Rule.Parses.isSome_expression {p : Rule} {q rest : List Token} {t : SyntaxTree}
    (h : p.Parses q (some t) rest) : t.expression.isSome = true := by
  obtain ⟨m, -, hm⟩ := matches_rule.mp h
  obtain ⟨t', -, rfl⟩ := Option.map_eq_some_iff.mp hm.symm
  rw [syntaxBuilder, SyntaxTree.expression_setExpression]
  cases t'.expression <;> rfl

/-! ## Levels -/

/-- The levels of binary operators, the tightest first. -/
inductive BinaryLevel where
  | binaryAnd | binaryXor | binaryOr | multiplicative | additive | relational | equality | and | or
  deriving DecidableEq, Repr

namespace BinaryLevel

/-- The rule of the level. -/
def expr : BinaryLevel → Rule
  | binaryAnd => .binaryAndExpression
  | binaryXor => .binaryXorExpression
  | binaryOr => .binaryOrExpression
  | multiplicative => .multiplicativeExpression
  | additive => .additiveExpression
  | relational => .relationalExpression
  | equality => .equalityExpression
  | and => .andExpression
  | or => .orExpression

/-- The rule for an operator and what follows it. -/
def expr1 : BinaryLevel → Rule
  | binaryAnd => .binaryAndExpression1
  | binaryXor => .binaryXorExpression1
  | binaryOr => .binaryOrExpression1
  | multiplicative => .multiplicativeExpression1
  | additive => .additiveExpression1
  | relational => .relationalExpression1
  | equality => .equalityExpression1
  | and => .andExpression1
  | or => .orExpression1

/-- The next tighter level. -/
def operand : BinaryLevel → Rule
  | binaryAnd => .unaryExpression
  | binaryXor => .binaryAndExpression
  | binaryOr => .binaryXorExpression
  | multiplicative => .binaryOrExpression
  | additive => .multiplicativeExpression
  | relational => .inExpression
  | equality => .relationalExpression
  | and => .equalityExpression
  | or => .andExpression

/-- The operators of the level with their types. -/
def operators : BinaryLevel → List (TokenType × BiType)
  | binaryAnd => [(.AMPER, .binAnd)]
  | binaryXor => [(.CARET, .binXor)]
  | binaryOr => [(.PIPE, .binOr)]
  | multiplicative => [(.STAR, .mult), (.FSLASH, .div), (.PERCENT, .mod)]
  | additive => [(.PLUS, .add), (.MINUS, .sub)]
  | relational => [(.LTHAN, .lt), (.GTHAN, .gt), (.LTHANEQ, .lte), (.GTHANEQ, .gte)]
  | equality => [(.EQUIV, .eq), (.NEQUIV, .neq)]
  | and => [(.AND_T, .and)]
  | or => [(.OR_T, .or)]

def build : BinaryLevel → ExpressionTree → List BiSuffix → ExpressionTree
  | binaryAnd => .biExpression .binaryAnd
  | binaryXor => .biExpression .binaryXor
  | binaryOr => .biExpression .binaryOr
  | multiplicative => .biExpression .multiplicative
  | additive => .biExpression .additive
  | relational => .biExpression .relational
  | equality => .biExpression .equality
  | and => .andExpression
  | or => .orExpression

/-- An alternative of `expr1`. -/
def alternative (level : BinaryLevel) (operator : TokenType × BiType) : Exp TokenType Rule :=
  .and [.type operator.1, .rule level.expr]

theorem body_expr (level : BinaryLevel) :
    level.expr.body = .and [.rule level.operand, .rule level.expr1] := by
  cases level <;> rfl

theorem body_expr1 (level : BinaryLevel) :
    level.expr1.body = .or (level.operators.map level.alternative ++ [.epsilon]) := by
  cases level <;> rfl

theorem solid_expr (level : BinaryLevel) : level.expr.isSolid = true := by
  cases level <;> decide

theorem solid_operand (level : BinaryLevel) : level.operand.isSolid = true := by
  cases level <;> decide

/-- The rule of a level does not name what a tighter one matches. -/
theorem operand_named (level : BinaryLevel) : (Exp.rule level.operand).named
    (fun k => decide (k = TokenType.ENDLINE)) Rule.body (fun r => r = level.expr) 120 = false := by
  cases level <;> decide

end BinaryLevel

/-! ## What the grammar builds -/

/-- The tree of a chain with the first operand `t`. -/
def chainTree (level : BinaryLevel) (t : SyntaxTree) : List (Token × SyntaxTree) → SyntaxTree
  | [] => t
  | (op, t') :: rest =>
    .node t (.node (.leaf op none) (chainTree level t' rest) (some level.expr1)) (some level.expr)

/-- The tokens of a chain with the first operand `o`. -/
def chainTokens (o : List Token) : List (Token × List Token) → List Token
  | [] => o
  | (op, o') :: rest => o ++ op :: chainTokens o' rest

/-- Each operand is read by the next tighter level up to the operator behind it, and no operator
of the level, with an operand, stands behind the last one. -/
inductive ReadsOperands (level : BinaryLevel) (after : List Token) : List Token →
    List (Token × List Token) → SyntaxTree → List (Token × SyntaxTree) → Prop
  | last {o : List Token} {t : SyntaxTree}
      (hread : level.operand.Parses (o ++ after) (some t) after)
      (hend : level.expr1.Parses after (some (.epsilon (some level.expr1))) after) :
      ReadsOperands level after o [] t []
  | next {o o' : List Token} {op : Token} {rest : List (Token × List Token)} {t t' : SyntaxTree}
      {trees : List (Token × SyntaxTree)}
      (hread : level.operand.Parses (o ++ op :: (chainTokens o' rest ++ after)) (some t)
        (op :: (chainTokens o' rest ++ after)))
      (hop : op.type ∈ level.operators.map Prod.fst)
      (hrest : ReadsOperands level after o' rest t' trees) :
      ReadsOperands level after o ((op, o') :: rest) t ((op, t') :: trees)

section

variable {level : BinaryLevel} {after q rest : List Token} {op : Token} {t t' : SyntaxTree}

theorem exp_or_cons {κ ρ : Type} (e : Exp κ ρ) {es : List (Exp κ ρ)} (h : es ≠ []) :
    Exp.or (e :: es) = .or2 e (Exp.or es) := by
  cases es with
  | nil => exact absurd rfl h
  | cons e' es => rfl

theorem not_blank_leaf (h : op.type ≠ .ENDLINE) : ¬ (SyntaxTree.leaf op none).Blank := by
  rintro (hblank | hblank)
  · cases hblank
  · exact h (of_decide_eq_true hblank)

theorem not_blank_node {name : Option Rule} : ¬ (SyntaxTree.node t t' name).Blank := by
  rintro (hblank | hblank)
  · cases hblank
  · cases hblank

/-- Alternatives for other operators are passed over. -/
theorem matches_alternatives {operators : List (TokenType × BiType)}
    (hop : op.type ∈ operators.map Prod.fst) (hline : op.type ≠ .ENDLINE)
    (h : level.expr.Parses q (some t) rest) (ht : ¬ t.Blank) :
    Matches parserRules syntaxBuilder (.or (operators.map level.alternative ++ [.epsilon]))
      (op :: q) (some (.node (.leaf op none) t none)) rest := by
  induction operators with
  | nil => cases hop
  | cons operator operators ih =>
    rw [List.map_cons, List.cons_append, exp_or_cons _ (by simp)]
    by_cases heq : op.type = operator.1
    · apply Matches.or2_left
      exact .and2 (.type heq) h (merge_of_solid rest (not_blank_leaf hline) ht)
    · apply @Matches.or2_right _ _ _ _ _ _ _ _ _ (op :: q) (op :: q)
      · refine .and2_fail (.type_fail ?_)
        intro t ht
        cases ht
        exact heq
      · rw [List.map_cons, List.mem_cons] at hop
        exact ih (hop.resolve_left heq)

theorem operator_ne_endline (hop : op.type ∈ level.operators.map Prod.fst) :
    op.type ≠ .ENDLINE := by
  intro heq
  rw [heq] at hop
  cases level
  all_goals simp [BinaryLevel.operators] at hop

/-- An operator and the chain behind it. -/
theorem parses_expr1 (hop : op.type ∈ level.operators.map Prod.fst)
    (h : level.expr.Parses q (some t) rest) :
    level.expr1.Parses (op :: q) (some (.node (.leaf op none) t (some level.expr1))) rest := by
  have hbody := matches_alternatives hop (operator_ne_endline hop) h
    (h.solid level.solid_expr)
  rw [← BinaryLevel.body_expr1] at hbody
  exact parses_of_body hbody

/-- An operand, and what `expr1` makes of the rest. -/
theorem parses_expr {m : SyntaxTree} {q1 : List Token}
    (h : level.operand.Parses q (some t) q1) (h1 : level.expr1.Parses q1 (some t') rest)
    (hm : matchMerge t (some t') rest = (some m, rest)) :
    level.expr.Parses q (some (m.setExpression level.expr)) rest := by
  have hbody : Matches parserRules syntaxBuilder level.expr.body q (some m) rest := by
    rw [BinaryLevel.body_expr]
    exact .and2 h h1 hm
  exact parses_of_body hbody

/-- The chain is read from the right. -/
theorem parses_chain {o : List Token} {chain : List (Token × List Token)}
    {trees : List (Token × SyntaxTree)} (h : ReadsOperands level after o chain t trees) :
    level.expr.Parses (chainTokens o chain ++ after) (some (chainTree level t trees)) after := by
  induction h with
  | last hread hend =>
    have hexpr := parses_expr hread hend (merge_epsilon _ _ _)
    rw [SyntaxTree.setExpression_of_named hread.isSome_expression] at hexpr
    exact hexpr
  | next hread hop hrest ih =>
    have hexpr := parses_expr hread (parses_expr1 hop ih)
      (merge_of_solid after (hread.solid level.solid_operand) not_blank_node)
    rw [chainTokens, List.append_assoc, List.cons_append]
    exact hexpr

/-! ## What the populator makes of it -/

theorem operand_expression_ne (h : level.operand.Parses q (some t) rest) :
    t.expression ≠ some level.expr := by
  intro hname
  have hmay := syntaxBuilder_dropsBlanks.named h hname (p := fun r => r = level.expr) (by simp) 120
  exact absurd hmay (by rw [show parserRules.body = Rule.body from rfl, level.operand_named]; simp)

theorem relationalTypeForToken_of_mem {type : BiType} (h : (op.type, type) ∈ level.operators) :
    relationalTypeForToken op = some type := by
  have hall : ∀ operator ∈ level.operators,
      relationalTypeForToken ⟨operator.1, 0, 0, ""⟩ = some operator.2 := by
    cases level <;> decide
  exact hall _ h

end

/-- The populated operands and operators of a chain. -/
inductive Populates (level : BinaryLevel) (pop : SyntaxTree → Option ExpressionTree) :
    List (Token × SyntaxTree) → List BiSuffix → Prop
  | nil : Populates level pop [] []
  | cons {op : Token} {type : BiType} {t : SyntaxTree} {exp : ExpressionTree}
      {trees : List (Token × SyntaxTree)} {suffixes : List BiSuffix}
      (htype : (op.type, type) ∈ level.operators) (hexp : pop t = some exp)
      (hrest : Populates level pop trees suffixes) :
      Populates level pop ((op, t) :: trees) (⟨op, type, exp⟩ :: suffixes)

section

variable {level : BinaryLevel} {pop : SyntaxTree → Option ExpressionTree}

/-- One suffix for each operand: the next one is taken from the chain only if the rule of the
chain has named it. -/
theorem biSuffixes_chain {op : Token} {t : SyntaxTree} {trees : List (Token × SyntaxTree)}
    {suffixes : List BiSuffix} (h : Populates level pop ((op, t) :: trees) suffixes)
    (hnamed : ∀ operand ∈ (op, t) :: trees, operand.2.expression ≠ some level.expr)
    (hleaf : ∀ operand ∈ (op, t) :: trees, ¬ operand.2.Blank) :
    biSuffixes pop (some level.expr) level.expr1
      (.node (.leaf op none) (chainTree level t trees) (some level.expr1)) = some suffixes := by
  induction trees generalizing op t suffixes with
  | nil =>
    cases h with
    | cons htype hexp hrest =>
      cases hrest
      have hname := hnamed (op, t) List.mem_cons_self
      have hblank := hleaf (op, t) List.mem_cons_self
      have hop := relationalTypeForToken_of_mem htype
      cases t with
      | epsilon expression => exact absurd (.inl rfl) hblank
      | leaf token name =>
        have hne : name ≠ some level.expr := hname
        simp [chainTree, biSuffixes, hne, hop, hexp]
      | node first second name =>
        have hne : name ≠ some level.expr := hname
        simp [chainTree, biSuffixes, hne, hop, hexp]
  | cons operand trees ih =>
    obtain ⟨op', t'⟩ := operand
    cases h with
    | cons htype hexp hrest =>
      have hop := relationalTypeForToken_of_mem htype
      have hsuffixes := ih hrest (fun operand h => hnamed operand (List.mem_cons_of_mem _ h))
        fun operand h => hleaf operand (List.mem_cons_of_mem _ h)
      rw [chainTree, biSuffixes, if_pos rfl, hop, hexp]
      simp [hsuffixes]

/-- The populator of the level puts the operands in a list. -/
theorem populate_chain {op : Token} {t t' : SyntaxTree} {trees : List (Token × SyntaxTree)}
    {exp : ExpressionTree} {suffixes : List BiSuffix} (n : Nat)
    (hexp : populateExpression n t = some exp)
    (h : Populates level (populateExpression n) ((op, t') :: trees) suffixes)
    (hnamed : ∀ operand ∈ (op, t') :: trees, operand.2.expression ≠ some level.expr)
    (hleaf : ∀ operand ∈ (op, t') :: trees, ¬ operand.2.Blank) :
    populateExpression (n + 1) (chainTree level t ((op, t') :: trees)) =
      some (level.build exp suffixes) := by
  have hsuffixes := biSuffixes_chain h hnamed hleaf
  have hpopulate : biExpressionPopulate (populateExpression n) level.expr1 level.build
      (chainTree level t ((op, t') :: trees)) = some (level.build exp suffixes) := by
    rw [chainTree, biExpressionPopulate, hexp]
    simp [hsuffixes]
  rw [← hpopulate]
  cases level <;> rfl

end

section

variable {level : BinaryLevel} {after o : List Token} {chain : List (Token × List Token)}
variable {t : SyntaxTree} {trees : List (Token × SyntaxTree)}

theorem ReadsOperands.first (h : ReadsOperands level after o chain t trees) :
    ∃ q rest, level.operand.Parses q (some t) rest := by
  cases h with
  | last hread hend => exact ⟨_, _, hread⟩
  | next hread hop hrest => exact ⟨_, _, hread⟩

theorem ReadsOperands.rest (h : ReadsOperands level after o chain t trees) :
    ∀ operand ∈ trees, ∃ q rest, level.operand.Parses q (some operand.2) rest := by
  induction h with
  | last hread hend =>
    intro operand hmem
    cases hmem
  | next hread hop hrest ih =>
    intro operand hmem
    rcases List.mem_cons.mp hmem with rfl | hmem
    · exact hrest.first
    · exact ih operand hmem

theorem ReadsOperands.tokens (h : ReadsOperands level after o chain t trees) :
    trees.map Prod.fst = chain.map Prod.fst := by
  induction h with
  | last hread hend => rfl
  | next hread hop hrest ih => rw [List.map_cons, List.map_cons, ih]

theorem Populates.tokens {pop : SyntaxTree → Option ExpressionTree} {suffixes : List BiSuffix}
    (h : Populates level pop trees suffixes) :
    suffixes.map BiSuffix.token = trees.map Prod.fst := by
  induction h with
  | nil => rfl
  | cons htype hexp hrest ih => rw [List.map_cons, List.map_cons, ih]

end

/-- A chain is populated to its first operand and, in the order of the source, one suffix for each
operator: its token, its type and its operand. -/
theorem chain_keeps_order (level : BinaryLevel) (after o : List Token)
    (chain : List (Token × List Token)) (t : SyntaxTree) (trees : List (Token × SyntaxTree))
    (exp : ExpressionTree) (suffixes : List BiSuffix) (n : Nat) (hne : chain ≠ [])
    (hread : ReadsOperands level after o chain t trees)
    (hexp : populateExpression n t = some exp)
    (hsuffixes : Populates level (populateExpression n) trees suffixes) :
    ∃ tree, level.expr.Parses (chainTokens o chain ++ after) (some tree) after ∧
      populateExpression (n + 1) tree = some (level.build exp suffixes) ∧
      suffixes.map BiSuffix.token = chain.map Prod.fst := by
  refine ⟨chainTree level t trees, parses_chain hread, ?_,
    hsuffixes.tokens.trans hread.tokens⟩
  cases trees with
  | nil => exact absurd (List.map_eq_nil_iff.mp hread.tokens.symm) hne
  | cons operand trees =>
    obtain ⟨op, t'⟩ := operand
    apply populate_chain n hexp hsuffixes
    · intro operand hmem
      obtain ⟨q, rest, hoperand⟩ := hread.rest operand hmem
      exact operand_expression_ne hoperand
    · intro operand hmem
      obtain ⟨q, rest, hoperand⟩ := hread.rest operand hmem
      exact hoperand.solid level.solid_operand

def sumTokens : List Token :=
  [⟨.LPAREN, 1, 0, "("⟩, ⟨.WORD, 1, 1, "a"⟩, ⟨.PLUS, 1, 2, "+"⟩, ⟨.WORD, 1, 3, "b"⟩,
    ⟨.RPAREN, 1, 4, ")"⟩]

/-- The tree of `(a + b)`. -/
def sumTree : SyntaxTree :=
  .node (.leaf ⟨.LPAREN, 1, 0, "("⟩ none)
    (.node (chainTree .additive (.leaf ⟨.WORD, 1, 1, "a"⟩ (some .identifier))
        [(⟨.PLUS, 1, 2, "+"⟩, .leaf ⟨.WORD, 1, 3, "b"⟩ (some .identifier))])
      (.leaf ⟨.RPAREN, 1, 4, ")"⟩ none) none)
    (some .primaryExpressionNoConstants)

def wordA : Token := ⟨.WORD, 1, 3, "a"⟩
def plusToken : Token := ⟨.PLUS, 1, 5, "+"⟩
def wordC : Token := ⟨.WORD, 1, 6, "c"⟩

theorem readsOperands_sum : ReadsOperands .additive [] sumTokens [(plusToken, [wordC])] sumTree
    [(plusToken, .leaf wordC (some .identifier))] := by
  refine .next ⟨100, by decide +kernel⟩ (by decide) (.last ⟨40, by decide +kernel⟩ ⟨10, ?_⟩)
  decide +kernel

/-- The sum in parentheses is one operand of the sum around it. -/
theorem chain_keeps_order_sum : ∃ tree, Rule.additiveExpression.Parses
    (sumTokens ++ [plusToken, wordC]) (some tree) [] ∧
      populateExpression 4 tree = some (.biExpression .additive
        (.primaryExpressionNoConstants (.biExpression .additive (.identifier ⟨.WORD, 1, 1, "a"⟩)
          [⟨⟨.PLUS, 1, 2, "+"⟩, .add, .identifier ⟨.WORD, 1, 3, "b"⟩⟩]))
        [⟨plusToken, .add, .identifier wordC⟩]) := by
  obtain ⟨tree, hparse, hpopulate, -⟩ := chain_keeps_order .additive [] sumTokens
    [(plusToken, [wordC])] sumTree [(plusToken, .leaf wordC (some .identifier))] _ _ 3 (by simp)
    readsOperands_sum rfl (.cons (show (plusToken.type, BiType.add) ∈ BinaryLevel.additive.operators by
      simp [BinaryLevel.operators, plusToken]) rfl .nil)
  exact ⟨tree, hparse, hpopulate⟩

def paramX : Token := ⟨.WORD, 1, 0, "x"⟩
def arrow : Token := ⟨.RARROW, 1, 1, "->"⟩

/-- The tree of `x -> body`. -/
def lambdaTree (body : SyntaxTree) : SyntaxTree :=
  .node (.leaf paramX (some .identifier))
    (.node (.leaf arrow none) body (some .anonFunctionLambdaRhs)) (some .anonFunctionDefinition)

theorem populate_lambda_ne (n : Nat) (body : SyntaxTree) (level : BiLevel)
    (e : ExpressionTree) (suffixes : List BiSuffix) :
    populateExpression n (lambdaTree body) ≠ some (.biExpression level e suffixes) := by
  intro h
  cases n with
  | zero => cases h
  | succ n =>
    have hanon : (populateAnonFunction (populateExpression n) (lambdaTree body)).map
        ExpressionTree.anonFunctionDefinition = some (.biExpression level e suffixes) := h
    obtain ⟨func, -, hfunc⟩ := Option.map_eq_some_iff.mp hanon
    cases hfunc

/-- The body of a function without parentheses goes on behind the operator: `x -> a + b` is not
the sum of `x -> a` and `b`. -/
theorem not_chain_keeps_order : ¬ ∀ (level : BinaryLevel) (o o' : List Token) (op : Token)
    (type : BiType) (t t' : SyntaxTree) (exp exp' : ExpressionTree) (n : Nat),
    (op.type, type) ∈ level.operators → level.operand.Parses o (some t) [] →
      level.operand.Parses o' (some t') [] → populateExpression n t = some exp →
        populateExpression n t' = some exp' →
          ∃ tree, level.expr.Parses (o ++ op :: o') (some tree) [] ∧
            ∃ n, populateExpression n tree = some (level.build exp [⟨op, type, exp'⟩]) := by
  intro h
  have hlambda : Rule.multiplicativeExpression.Parses [paramX, arrow, wordA]
      (some (lambdaTree (.leaf wordA (some .identifier)))) [] := ⟨90, by decide +kernel⟩
  have hoperand : Rule.multiplicativeExpression.Parses [wordC]
      (some (.leaf wordC (some .identifier))) [] := ⟨40, by decide +kernel⟩
  obtain ⟨tree, hparse, n, hpopulate⟩ := h .additive [paramX, arrow, wordA] [wordC] plusToken .add
    _ _ _ _ 3 (by simp [BinaryLevel.operators, plusToken]) hlambda hoperand rfl rfl
  have hwhole : Rule.additiveExpression.Parses [paramX, arrow, wordA, plusToken, wordC]
      (some (lambdaTree (chainTree .additive (.leaf wordA (some .identifier))
        [(plusToken, .leaf wordC (some .identifier))]))) [] := ⟨90, by decide +kernel⟩
  obtain ⟨htree, -⟩ := parses_unique hparse hwhole
  cases htree
  exact populate_lambda_ne n _ _ _ _ hpopulate

end JeffVm
