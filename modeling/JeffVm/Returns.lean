import JeffVm.Chains
import JeffVm.Produce

/-!
# What a statement returns

`jump_statement` first takes a parenthesised tuple behind `return`, and an expression only where
there is none. The populator leaves parentheses out that are no part of the expression.
-/

set_option autoImplicit false

namespace JeffVm

open Backtracking

/-! ## Trees that begin with a parenthesis -/

def blankKind (k : TokenType) : Bool := k = .ENDLINE

/-- The two rules for an expression in parentheses. -/
def Rule.isPrimary (r : Rule) : Bool := r = .primaryExpression || r = .primaryExpressionNoConstants

namespace SyntaxTree

/-- A tree that no rule has named yet, with a parenthesis in front. -/
def OpensUnnamed (t : SyntaxTree) : Prop :=
  ∃ first second, t = node first second none ∧ first.isToken .LPAREN = true

/-- A tree with a parenthesis in front that is not a primary expression. -/
def OpensOther (t : SyntaxTree) : Prop :=
  ∃ first second r, t = node first second (some r) ∧ first.isToken .LPAREN = true ∧
    r.isPrimary = false

end SyntaxTree

/-- Whether an expression may give a single token of type `k`. -/
def mayLeaf (k : TokenType) : Nat → Exp TokenType Rule → Bool
  | 0, _ => true
  | _ + 1, .type k' => k' = k
  | n + 1, .rule r => mayLeaf k n r.body
  | n + 1, .or2 e1 e2 => mayLeaf k n e1 || mayLeaf k n e2
  | n + 1, .and2 e1 e2 =>
    (mayLeaf k n e1 && e2.blank blankKind Rule.body n) ||
      (e1.blank blankKind Rule.body n && mayLeaf k n e2)
  | n + 1, .opt e => mayLeaf k n e
  | _ + 1, .epsilon => false

/-- Whether an expression may give a tree with a parenthesis in front and without a name. -/
def mayOpenUnnamed : Nat → Exp TokenType Rule → Bool
  | 0, _ => true
  | _ + 1, .type _ => false
  | _ + 1, .rule _ => false
  | n + 1, .or2 e1 e2 => mayOpenUnnamed n e1 || mayOpenUnnamed n e2
  | n + 1, .and2 e1 e2 =>
    mayLeaf .LPAREN n e1 || (mayOpenUnnamed n e1 && e2.blank blankKind Rule.body n) ||
      (e1.blank blankKind Rule.body n && mayOpenUnnamed n e2)
  | n + 1, .opt e => mayOpenUnnamed n e
  | _ + 1, .epsilon => false

/-- Whether an expression may give a tree with a parenthesis in front that another rule than those
of primary expressions has named. -/
def mayOpenOther : Nat → Exp TokenType Rule → Bool
  | 0, _ => true
  | _ + 1, .type _ => false
  | n + 1, .rule r => mayOpenOther n r.body || (!r.isPrimary && mayOpenUnnamed n r.body)
  | n + 1, .or2 e1 e2 => mayOpenOther n e1 || mayOpenOther n e2
  | n + 1, .and2 e1 e2 =>
    (mayOpenOther n e1 && e2.blank blankKind Rule.body n) ||
      (e1.blank blankKind Rule.body n && mayOpenOther n e2)
  | n + 1, .opt e => mayOpenOther n e
  | _ + 1, .epsilon => false

/-- What the tree `t` tells about the expression `e` that gave it. -/
structure Opening (e : Exp TokenType Rule) (t : SyntaxTree) (n : Nat) : Prop where
  blank : t.Blank → e.blank blankKind Rule.body n = true
  leaf : t.isToken .LPAREN = true → mayLeaf .LPAREN n e = true
  unnamed : t.OpensUnnamed → mayOpenUnnamed n e = true
  other : t.OpensOther → mayOpenOther n e = true

theorem Opening.zero (e : Exp TokenType Rule) (t : SyntaxTree) : Opening e t 0 where
  blank _ := rfl
  leaf _ := rfl
  unnamed _ := rfl
  other _ := rfl

theorem SyntaxTree.not_opens_leaf {token : Token} {name : Option Rule} :
    ¬ (leaf token name).OpensUnnamed ∧ ¬ (leaf token name).OpensOther := by
  constructor
  · rintro ⟨first, second, h, -⟩
    cases h
  · rintro ⟨first, second, r, h, -⟩
    cases h

theorem SyntaxTree.not_opens_epsilon {name : Option Rule} :
    ¬ (epsilon name).OpensUnnamed ∧ ¬ (epsilon name).OpensOther := by
  constructor
  · rintro ⟨first, second, h, -⟩
    cases h
  · rintro ⟨first, second, r, h, -⟩
    cases h

theorem Opening.epsilon (e : Exp TokenType Rule) (n : Nat)
    (h : e.blank blankKind Rule.body n = true) : Opening e (.epsilon none) n where
  blank _ := h
  leaf ht := by cases ht
  unnamed ht := absurd ht SyntaxTree.not_opens_epsilon.1
  other ht := absurd ht SyntaxTree.not_opens_epsilon.2

/-- A rule names a tree that has no name. -/
theorem Opening.rule (r : Rule) (t : SyntaxTree) (n : Nat) (h : Opening r.body t n) :
    Opening (.rule r) (t.setExpression r) (n + 1) where
  blank ht := h.blank (SyntaxTree.blank_setExpression ht)
  leaf ht := by
    apply h.leaf
    cases t <;> exact ht
  unnamed := by
    rintro ⟨first, second, heq, -⟩
    have hname := SyntaxTree.expression_setExpression r t
    rw [heq] at hname
    cases hexp : t.expression with
    | none =>
      rw [hexp] at hname
      cases hname
    | some name =>
      rw [hexp] at hname
      cases hname
  other := by
    rintro ⟨first, second, r', heq, hfirst, hr'⟩
    rw [mayOpenOther, Bool.or_eq_true, Bool.and_eq_true, Bool.not_eq_true']
    cases t with
    | epsilon name => cases heq
    | leaf token name => cases heq
    | node first' second' name =>
      cases name with
      | none =>
        cases heq
        exact .inr ⟨hr', h.unnamed ⟨first, second, rfl, hfirst⟩⟩
      | some name =>
        cases heq
        exact .inl (h.other ⟨first, second, r', rfl, hfirst, hr'⟩)

theorem Opening.merge {e1 e2 : Exp TokenType Rule} {a c m : SyntaxTree} {q q' : List Token}
    {n : Nat} (h1 : Opening e1 a n) (h2 : Opening e2 c n)
    (hm : matchMerge a (some c) q = (some m, q')) : Opening (.and2 e1 e2) m (n + 1) := by
  obtain ⟨heq, hc⟩ | ⟨heq, -, ha⟩ | ⟨heq, ha, hc⟩ := matchMerge_cases a c q
  · rw [heq] at hm
    cases hm
    have hblank := h2.blank (hc.imp id And.left)
    exact {
      blank := fun ht => by rw [Exp.blank, h1.blank ht, hblank]; rfl
      leaf := fun ht => by simp [mayLeaf, h1.leaf ht, hblank]
      unnamed := fun ht => by simp [mayOpenUnnamed, h1.unnamed ht, hblank]
      other := fun ht => by simp [mayOpenOther, h1.other ht, hblank] }
  · rw [heq] at hm
    cases hm
    have hblank := h1.blank (ha.imp id And.left)
    exact {
      blank := fun ht => by rw [Exp.blank, h2.blank ht, hblank]; rfl
      leaf := fun ht => by simp [mayLeaf, h2.leaf ht, hblank]
      unnamed := fun ht => by simp [mayOpenUnnamed, h2.unnamed ht, hblank]
      other := fun ht => by simp [mayOpenOther, h2.other ht, hblank] }
  · rw [heq] at hm
    cases hm
    exact {
      blank := fun ht => absurd ht not_blank_node
      leaf := fun ht => by cases ht
      unnamed := by
        rintro ⟨first, second, heq, hfirst⟩
        cases heq
        simp [mayOpenUnnamed, h1.leaf hfirst]
      other := by
        rintro ⟨first, second, r, heq, -⟩
        cases heq }

theorem opening_results :
    Results parserRules syntaxBuilder fun e t => ∀ n, Opening e t n where
  token t n := by
    cases n with
    | zero => exact .zero _ _
    | succ n =>
      exact {
        blank := fun ht => by
          rcases ht with ht | ht
          · cases ht
          · exact ht
        leaf := id
        unnamed := fun ht => absurd ht SyntaxTree.not_opens_leaf.1
        other := fun ht => absurd ht SyntaxTree.not_opens_leaf.2 }
  epsilon n := .epsilon _ n (by cases n <;> rfl)
  rule r t h n := by
    cases n with
    | zero => exact .zero _ _
    | succ n => exact .rule r t n (h n)
  left e1 e2 t h n := by
    cases n with
    | zero => exact .zero _ _
    | succ n =>
      exact {
        blank := fun ht => by rw [Exp.blank, (h n).blank ht]; rfl
        leaf := fun ht => by rw [mayLeaf, (h n).leaf ht]; rfl
        unnamed := fun ht => by rw [mayOpenUnnamed, (h n).unnamed ht]; rfl
        other := fun ht => by rw [mayOpenOther, (h n).other ht]; rfl }
  right e1 e2 t h n := by
    cases n with
    | zero => exact .zero _ _
    | succ n =>
      exact {
        blank := fun ht => by rw [Exp.blank, (h n).blank ht, Bool.or_true]
        leaf := fun ht => by rw [mayLeaf, (h n).leaf ht, Bool.or_true]
        unnamed := fun ht => by rw [mayOpenUnnamed, (h n).unnamed ht, Bool.or_true]
        other := fun ht => by rw [mayOpenOther, (h n).other ht, Bool.or_true] }
  opt e t h n := by
    cases n with
    | zero => exact .zero _ _
    | succ n => exact ⟨fun _ => rfl, (h n).leaf, (h n).unnamed, (h n).other⟩
  missing e n := .epsilon _ n (by cases n <;> rfl)
  merge e1 e2 a c q m q' h1 h2 hm n := by
    cases n with
    | zero => exact .zero _ _
    | succ n => exact .merge (h1 n) (h2 n) hm
  rollback a q m q' h := by cases h

/-- Of the trees for an expression, only primary expressions have a parenthesis in front. -/
theorem tuple_not_opensOther {q rest : List Token} {t : SyntaxTree}
    (h : Rule.tupleExpression.Parses q (some t) rest) : ¬ t.OpensOther := by
  intro ht
  have hmay := (opening_results.of_matches h 120).other ht
  exact absurd hmay (by decide)

/-! ## The value of an expression -/

/-- The populated tree has the instructions of `code`. -/
def Compiles (t : SyntaxTree) (code : Producer) : Prop :=
  ∃ n x, populateExpression n t = some x ∧ produceInstructions x = code

/-- The populated statement `s` returns what `code` evaluates. -/
def ReturnsCode (ret : Token) (s : SyntaxTree) (code : Producer) : Prop :=
  ∃ n x, populateExpression n s = some (.jumpStatement ret (some x)) ∧
    produceInstructions x = code

section

variable {ret : Token} {q rest : List Token} {t inner : SyntaxTree} {code : Producer} {n : Nat}

/-- The tree of `return` with `t` behind it. -/
def returnTree (ret : Token) (t : SyntaxTree) : SyntaxTree :=
  .node (.leaf ret none) t (some .jumpStatement)

theorem populate_returnTree (hret : ret.type = .RETURN) :
    populateExpression (n + 1) (returnTree ret t) =
      (returnedTree t).bind fun inner =>
        (populateExpression n inner).map fun exp => .jumpStatement ret (some exp) := by
  have hpopulate : populateExpression (n + 1) (returnTree ret t) =
      populateJumpStatement (populateExpression n) (returnTree ret t) := rfl
  rw [hpopulate, returnTree, populateJumpStatement, if_pos hret]
  rfl

theorem returnsCode_returnTree (hret : ret.type = .RETURN) (h : returnedTree t = some inner) :
    ReturnsCode ret (returnTree ret t) code ↔ Compiles inner code := by
  constructor
  · rintro ⟨n, x, hpop, hcode⟩
    cases n with
    | zero => cases hpop
    | succ n =>
      rw [populate_returnTree hret, h, Option.bind_some, Option.map_eq_some_iff] at hpop
      obtain ⟨y, hy, heq⟩ := hpop
      cases heq
      exact ⟨n, x, hy, hcode⟩
  · rintro ⟨n, x, hpop, hcode⟩
    refine ⟨n + 1, x, ?_, hcode⟩
    rw [populate_returnTree hret, h, Option.bind_some, hpop]
    rfl

theorem not_returnsCode (hret : ret.type = .RETURN) (h : returnedTree t = none) :
    ¬ ReturnsCode ret (returnTree ret t) code := by
  rintro ⟨n, x, hpop, -⟩
  cases n with
  | zero => cases hpop
  | succ n =>
    rw [populate_returnTree hret, h] at hpop
    cases hpop

/-- A lone `return` has no value. -/
theorem not_returnsCode_leaf (hret : ret.type = .RETURN) :
    ¬ ReturnsCode ret (.leaf ret (some .jumpStatement)) code := by
  rintro ⟨n, x, hpop, -⟩
  cases n with
  | zero => cases hpop
  | succ n =>
    have hpopulate : populateExpression (n + 1) (.leaf ret (some .jumpStatement)) =
        populateJumpStatement (populateExpression n) (.leaf ret (some .jumpStatement)) := rfl
    rw [hpopulate, populateJumpStatement, if_pos hret] at hpop
    cases hpop

/-- Parentheses around an expression do not change its code. -/
theorem compiles_primary {first second : SyntaxTree} {name : Option Rule}
    (hfirst : first.isToken .LPAREN = true) :
    Compiles (.node first (.node inner second name) (some .primaryExpressionNoConstants)) code ↔
      Compiles inner code := by
  have hstep : ∀ n, populateExpression (n + 1)
      (.node first (.node inner second name) (some .primaryExpressionNoConstants)) =
        (populateExpression n inner).map .primaryExpressionNoConstants := by
    intro n
    have hpopulate : populateExpression (n + 1)
        (.node first (.node inner second name) (some .primaryExpressionNoConstants)) =
          (populateParenthesised (populateExpression n)
            (.node first (.node inner second name) (some .primaryExpressionNoConstants))).map
              .primaryExpressionNoConstants := rfl
    rw [hpopulate, populateParenthesised, if_pos hfirst]
  constructor
  · rintro ⟨n, x, hpop, rfl⟩
    cases n with
    | zero => cases hpop
    | succ n =>
      rw [hstep, Option.map_eq_some_iff] at hpop
      obtain ⟨y, hy, rfl⟩ := hpop
      exact ⟨n, y, hy, by rw [produceInstructions]⟩
  · rintro ⟨n, x, hpop, rfl⟩
    refine ⟨n + 1, .primaryExpressionNoConstants x, ?_, by rw [produceInstructions]⟩
    rw [hstep, hpop]
    rfl

theorem not_compiles_primary {first second : SyntaxTree}
    (h : ∀ inner closer name, second ≠ .node inner closer name) :
    ¬ Compiles (.node first second (some .primaryExpressionNoConstants)) code := by
  rintro ⟨n, x, hpop, -⟩
  cases second with
  | node inner closer name => exact h inner closer name rfl
  | epsilon name => cases n <;> cases hpop
  | leaf token name => cases n <;> cases hpop

theorem returnsCode_primary {first second : SyntaxTree} (hret : ret.type = .RETURN)
    (hfirst : first.isToken .LPAREN = true) :
    ReturnsCode ret (returnTree ret (.node first second (some .primaryExpressionNoConstants))) code ↔
      Compiles (.node first second (some .primaryExpressionNoConstants)) code := by
  by_cases hsecond : ∃ inner closer name, second = .node inner closer name
  · obtain ⟨inner, closer, name, rfl⟩ := hsecond
    have hreturned : returnedTree
        (.node first (.node inner closer name) (some .primaryExpressionNoConstants)) = some inner := by
      simp [returnedTree, hfirst]
    rw [returnsCode_returnTree hret hreturned, compiles_primary hfirst]
  · have hnode : ∀ inner closer name, second ≠ .node inner closer name :=
      fun inner closer name heq => hsecond ⟨inner, closer, name, heq⟩
    have hreturned : returnedTree (.node first second (some .primaryExpressionNoConstants)) = none := by
      cases second with
      | node inner closer name => exact absurd rfl (hnode inner closer name)
      | epsilon name => simp [returnedTree, hfirst]
      | leaf token name => simp [returnedTree, hfirst]
    exact iff_of_false (not_returnsCode hret hreturned) (not_compiles_primary hnode)

/-- The populator returns the value of an expression that stands behind `return`. -/
theorem returnsCode_tuple (hret : ret.type = .RETURN)
    (h : Rule.tupleExpression.Parses q (some t) rest) :
    ReturnsCode ret (returnTree ret t) code ↔ Compiles t code := by
  cases t with
  | epsilon name => exact returnsCode_returnTree hret rfl
  | leaf token name => exact returnsCode_returnTree hret rfl
  | node first second name =>
    by_cases hfirst : first.isToken .LPAREN = true
    · obtain ⟨r, hname⟩ := Option.isSome_iff_exists.mp h.isSome_expression
      obtain rfl : name = some r := hname
      have hprimary : r.isPrimary = true := by
        cases hr : r.isPrimary with
        | true => rfl
        | false => exact absurd ⟨first, second, r, rfl, hfirst, hr⟩ (tuple_not_opensOther h)
      rw [Rule.isPrimary, Bool.or_eq_true, decide_eq_true_eq, decide_eq_true_eq] at hprimary
      rcases hprimary with rfl | rfl
      · apply returnsCode_returnTree hret
        simp [returnedTree]
      · exact returnsCode_primary hret hfirst
    · apply returnsCode_returnTree hret
      simp [returnedTree, hfirst]

end

/-! ## The alternatives -/

/-- The tree of `inner` in parentheses. -/
def parenthesisedTree (lp rp : Token) (inner : SyntaxTree) (name : Option Rule) : SyntaxTree :=
  .node (.leaf lp none) (.node inner (.leaf rp none) none) name

/-- The tuple in parentheses of the first alternative. -/
def parens : Exp TokenType Rule := .and [typeLn .LPAREN, .rule .tupleExpression, typeLn .RPAREN]

section

variable {ret : Token} {q q1 q2 : List Token} {t m inner : SyntaxTree}

theorem not_blank_return (hret : ret.type = .RETURN) : ¬ (SyntaxTree.leaf ret none).Blank :=
  not_blank_leaf (by simp [hret])

theorem parses_return {e2 : Exp TokenType Rule} (hret : ret.type = .RETURN)
    (h : Matches parserRules syntaxBuilder e2 q (some t) q1) (ht : ¬ t.Blank) :
    Matches parserRules syntaxBuilder (.and2 (.type .RETURN) e2) (ret :: q)
      (some (.node (.leaf ret none) t none)) q1 :=
  .and2 (.type hret) h (merge_of_solid q1 (not_blank_return hret) ht)

/-- The parenthesised tuple comes first. -/
theorem jump_of_parens (hret : ret.type = .RETURN)
    (h : Matches parserRules syntaxBuilder parens q (some m) q1) (hm : ¬ m.Blank) :
    Rule.jumpStatement.Parses (ret :: q) (some (returnTree ret m)) q1 := by
  have hbody : Matches parserRules syntaxBuilder Rule.jumpStatement.body (ret :: q)
      (some (.node (.leaf ret none) m none)) q1 := (parses_return hret h hm).or2_left
  exact parses_of_body hbody

/-- The expression is read from the queue that the first alternative leaves. -/
theorem jump_of_tuple (hret : ret.type = .RETURN)
    (hparens : Matches parserRules syntaxBuilder parens q none q1)
    (h : Rule.tupleExpression.Parses q1 (some t) q2) :
    Rule.jumpStatement.Parses (ret :: q) (some (returnTree ret t)) q2 := by
  have hfail : Matches parserRules syntaxBuilder (.and2 (.type .RETURN) parens) (ret :: q) none
      (ret :: q1) := .and2 (.type hret) hparens rfl
  have hbody : Matches parserRules syntaxBuilder Rule.jumpStatement.body (ret :: q)
      (some (.node (.leaf ret none) t none)) q2 :=
    .or2_right hfail (parses_return hret h (h.solid (by decide))).or2_left
  exact parses_of_body hbody

/-- Neither alternative with an expression is there. -/
theorem jump_of_none (hret : ret.type = .RETURN)
    (hparens : Matches parserRules syntaxBuilder parens q none q1)
    (h : Rule.tupleExpression.Parses q1 none q2) :
    Rule.jumpStatement.Parses (ret :: q) (some (.leaf ret (some .jumpStatement))) q2 := by
  have hfail : Matches parserRules syntaxBuilder (.and2 (.type .RETURN) parens) (ret :: q) none
      (ret :: q1) := .and2 (.type hret) hparens rfl
  have hfail' : Matches parserRules syntaxBuilder
      (.and2 (.type .RETURN) (.rule .tupleExpression)) (ret :: q1) none (ret :: q2) :=
    .and2 (.type hret) h rfl
  have hbody : Matches parserRules syntaxBuilder Rule.jumpStatement.body (ret :: q)
      (some (.leaf ret none)) q2 := .or2_right hfail (.or2_right hfail' (.type hret))
  exact parses_of_body hbody

theorem solid_parens (h : Matches parserRules syntaxBuilder parens q (some m) q1) : ¬ m.Blank := by
  intro hblank
  exact absurd (syntaxBuilder_dropsBlanks.blank h hblank 120) (by decide)

theorem merge_blank {parent child : SyntaxTree} (hparent : ¬ parent.Blank) (hchild : child.Blank) :
    matchMerge parent (some child) q = (some parent, q) := by
  obtain ⟨heq, -⟩ | ⟨-, -, hblank⟩ | ⟨-, -, hsolid⟩ := matchMerge_cases parent child q
  · exact heq
  · exact absurd (hblank.imp id And.left) hparent
  · rcases hchild with hchild | hchild
    · rw [hchild] at hsolid
      cases hsolid.1
    · rw [hchild] at hsolid
      cases hsolid.2

theorem typeLn_leaf {k : TokenType} (hk : k ≠ .ENDLINE)
    (h : Matches parserRules syntaxBuilder (typeLn k) q (some m) q1) :
    ∃ token, token.type = k ∧ m = .leaf token none := by
  obtain ⟨-, hm⟩ | ⟨a, r, m2, r2, ha, hline, hmerge⟩ := matches_and2.mp h
  · cases hm
  · obtain ⟨token, -, htoken, rfl⟩ := matches_type.mp ha
    refine ⟨token, htoken, ?_⟩
    have hblank : ∃ b : SyntaxTree, m2 = some b ∧ b.Blank := by
      obtain ⟨b, hb, rfl⟩ | ⟨-, rfl⟩ := matches_opt.mp hline
      · obtain ⟨line, -, hnewline, rfl⟩ := matches_type.mp hb
        exact ⟨_, rfl, .inr (decide_eq_true hnewline)⟩
      · exact ⟨_, rfl, .inl rfl⟩
    obtain ⟨b, rfl, hb⟩ := hblank
    have hsolid : ¬ (SyntaxTree.leaf token none).Blank := by
      apply not_blank_leaf
      intro hline
      exact hk (htoken.symm.trans hline)
    have hleaf := (merge_blank hsolid hb).symm.trans hmerge
    cases hleaf
    rfl

/-- The tree of a tuple in parentheses. -/
theorem parens_shape (h : Matches parserRules syntaxBuilder parens q (some m) q1) :
    ∃ lp rp inner, lp.type = .LPAREN ∧ m = parenthesisedTree lp rp inner none := by
  obtain ⟨-, hm⟩ | ⟨first, r1, m2, r2, hfirst, hsecond, hmerge⟩ := matches_and2.mp h
  · cases hm
  obtain ⟨lp, hlp, rfl⟩ := typeLn_leaf (by decide) hfirst
  have hleaf : ¬ (SyntaxTree.leaf lp none).Blank := not_blank_leaf (by simp [hlp])
  obtain ⟨-, rfl⟩ | ⟨inner, r3, m3, r4, hinner, hclose, hmerge'⟩ := matches_and2.mp hsecond
  · cases hmerge
  cases m3 with
  | none =>
    obtain ⟨rfl, -⟩ := Prod.mk.inj hmerge'
    cases hmerge
  | some close =>
    obtain ⟨rp, hrp, rfl⟩ := typeLn_leaf (by decide) hclose
    have hright : ¬ (SyntaxTree.leaf rp none).Blank := not_blank_leaf (by simp [hrp])
    have hsolid : ¬ inner.Blank := Rule.Parses.solid hinner (by decide)
    obtain ⟨rfl, rfl⟩ := Prod.mk.inj ((merge_of_solid r4 hsolid hright).symm.trans hmerge')
    have hnode := (merge_of_solid r4 hleaf not_blank_node).symm.trans hmerge
    cases hnode
    exact ⟨lp, rp, inner, hlp, rfl⟩

theorem parens_total (q : List Token) : ∃ m rest, Matches parserRules syntaxBuilder parens q m rest := by
  obtain ⟨n, ⟨m, rest⟩, h⟩ := parse_returns parserRules_grounded syntaxBuilder_measured parens q
  exact ⟨m, rest, n, h⟩

theorem returnedTree_parens {lp rp : Token} (hlp : lp.type = .LPAREN) :
    returnedTree (parenthesisedTree lp rp inner none) = some inner := by
  simp [parenthesisedTree, returnedTree, SyntaxTree.isToken, hlp]

/-- Without a parenthesis in front, there is no parenthesised tuple. -/
theorem parens_reject (h : ∀ token ∈ q.head?, token.type ≠ .LPAREN) :
    Matches parserRules syntaxBuilder parens q none q :=
  .and2_fail (.and2_fail (.type_fail h))

/-! ## No arguments -/

/-- Queues that begin with `()`, with or without a newline between. -/
inductive OpensEmpty : List Token → List Token → Prop
  | same {lp rp : Token} {q : List Token} (hlp : lp.type = .LPAREN) (hrp : rp.type = .RPAREN) :
      OpensEmpty (lp :: rp :: q) (lp :: rp :: q)
  | newline {lp line rp : Token} {q : List Token} (hlp : lp.type = .LPAREN)
      (hline : line.type = .ENDLINE) (hrp : rp.type = .RPAREN) :
      OpensEmpty (lp :: line :: rp :: q) (lp :: rp :: q)

theorem typeLn_line (token : Token) {line : Token} (hline : line.type = .ENDLINE) :
    Matches parserRules syntaxBuilder (typeLn token.type) (token :: line :: q)
      (some (.leaf token none)) q := by
  refine .and2 (.type rfl) (matches_opt.mpr (.inl ⟨_, .type hline, rfl⟩)) ?_
  simp [syntaxBuilder, matchMerge, SyntaxTree.isEpsilon, SyntaxTree.isNewline, hline]

/-- A rule for what is between parentheses gives the newline up. -/
theorem OpensEmpty.fail {e2 e3 : Exp TokenType Rule} (h : OpensEmpty q q1)
    (he2 : e2.accepts Rule.body .RPAREN 120 = false) :
    Matches parserRules syntaxBuilder (.and [typeLn .LPAREN, e2, e3]) q none q1 := by
  cases h with
  | @same lp rp q hlp hrp =>
    have hopen := typeLn_plain lp (q := rp :: q) (by simp [hrp])
    rw [hlp] at hopen
    exact .and2 hopen (.and2_fail (.reject 120 (by rw [← hrp] at he2; exact he2))) rfl
  | @newline lp line rp q hlp hline hrp =>
    have hopen := typeLn_line lp (q := rp :: q) hline
    rw [hlp] at hopen
    exact .and2 hopen (.and2_fail (.reject 120 (by rw [← hrp] at he2; exact he2))) rfl

/-- An expression that begins with `()` is read the same without the newline, which the rule for
a list of variables has given up before any other one is tried. -/
theorem OpensEmpty.tuple (h : OpensEmpty q q1) :
    RunsAlike parserRules syntaxBuilder (.rule .tupleExpression) q q1 := by
  have h1 : OpensEmpty q1 q1 := by
    cases h with
    | same hlp hrp => exact .same hlp hrp
    | newline hlp hline hrp => exact .same hlp hrp
  have htuple : RunsAlike parserRules syntaxBuilder Rule.assignmentTuple.body q q1 :=
    .of_fail (h.fail (by decide)) (h1.fail (by decide))
  have hlhs : RunsAlike parserRules syntaxBuilder (.rule .assignmentLhs) q q1 :=
    .rule (.or2 _ (.rule htuple))
  have hexpression : RunsAlike parserRules syntaxBuilder (.rule .assignmentExpression) q q1 :=
    .rule (.or2 _ (.and2 _ hlhs))
  exact RunsAlike.rule (g := parserRules) (r := .tupleExpression) (.and2 _ hexpression)

end

/-! ## Which expressions are returned -/

/-- `jump_statement` reads all of `e`, no token of `rest` but newlines, and is populated to the
value of `t`. -/
def ReturnsValue (ret : Token) (e rest : List Token) (t : SyntaxTree) : Prop :=
  ∃ s rest' code, Rule.jumpStatement.Parses (ret :: (e ++ rest)) (some s) rest' ∧
    significant rest' = significant rest ∧ Compiles t code ∧ ReturnsCode ret s code

/-- Two trees with the same code. -/
def SameCode (t' t : SyntaxTree) : Prop := ∃ code, Compiles t' code ∧ Compiles t code

/-- `tuple_expression` leaves `rest` of the queue `q` and reads the expression `t` in front. -/
def ReadsBefore (q rest : List Token) (t : SyntaxTree) : Prop :=
  ∃ t' rest', Rule.tupleExpression.Parses q (some t') rest' ∧
    significant rest' = significant rest ∧ SameCode t' t

/-- The expression is as a whole one tuple in parentheses, or a tuple in parentheses fails in front
of it and the queue that this leaves reads as the expression does. -/
inductive Returnable (e rest : List Token) (t : SyntaxTree) : Prop
  | parenthesised {lp rp : Token} {inner : SyntaxTree} {rest' : List Token}
      (hparens : Matches parserRules syntaxBuilder parens (e ++ rest)
        (some (parenthesisedTree lp rp inner none)) rest')
      (hrest : significant rest' = significant rest) (hcode : SameCode inner t)
  | other {q : List Token} (hparens : Matches parserRules syntaxBuilder parens (e ++ rest) none q)
      (hread : ReadsBefore q rest t)

/-- A tuple in parentheses in front of the expression leaves some of it. -/
def SplitsOff (e rest : List Token) : Prop :=
  ∃ m rest', Matches parserRules syntaxBuilder parens (e ++ rest) (some m) rest' ∧
    significant rest' ≠ significant rest

/-- The queue does not begin with a parenthesis, or it begins with `()`. -/
def OpensNoTuple (q : List Token) : Prop :=
  (∀ token ∈ q.head?, token.type ≠ .LPAREN) ∨ ∃ q1, OpensEmpty q q1

section

variable {ret : Token} {e rest q q1 rest' : List Token} {t m inner : SyntaxTree}

/-- The first alternative matches: the value is that of its tuple. -/
theorem returnsValue_of_parens {lp rp : Token} (hret : ret.type = .RETURN)
    (h : Matches parserRules syntaxBuilder parens (e ++ rest)
      (some (parenthesisedTree lp rp inner none)) rest') (hlp : lp.type = .LPAREN) :
    ReturnsValue ret e rest t ↔ significant rest' = significant rest ∧ SameCode inner t := by
  have hjump := jump_of_parens hret h (solid_parens h)
  constructor
  · rintro ⟨s, r, code, hparse, hrest, hcode, hreturns⟩
    obtain ⟨heq, rfl⟩ := parses_unique hparse hjump
    cases heq
    exact ⟨hrest, code, (returnsCode_returnTree hret (returnedTree_parens hlp)).mp hreturns, hcode⟩
  · rintro ⟨hrest, code, hinner, hcode⟩
    exact ⟨_, rest', code, hjump, hrest, hcode,
      (returnsCode_returnTree hret (returnedTree_parens hlp)).mpr hinner⟩

/-- The first alternative fails: the value is that of the expression in the queue it leaves. -/
theorem returnsValue_of_other (hret : ret.type = .RETURN)
    (h : Matches parserRules syntaxBuilder parens (e ++ rest) none q) :
    ReturnsValue ret e rest t ↔ ReadsBefore q rest t := by
  constructor
  · rintro ⟨s, r, code, hparse, hrest, hcode, hreturns⟩
    obtain ⟨m, r', htuple⟩ := parses_total .tupleExpression q
    cases m with
    | none =>
      obtain ⟨heq, -⟩ := parses_unique hparse (jump_of_none hret h htuple)
      cases heq
      exact absurd hreturns (not_returnsCode_leaf hret)
    | some t' =>
      obtain ⟨heq, rfl⟩ := parses_unique hparse (jump_of_tuple hret h htuple)
      cases heq
      exact ⟨t', r, htuple, hrest, code, (returnsCode_tuple hret htuple).mp hreturns, hcode⟩
  · rintro ⟨t', r, htuple, hrest, code, hcode', hcode⟩
    exact ⟨_, r, code, jump_of_tuple hret h htuple, hrest, hcode,
      (returnsCode_tuple hret htuple).mpr hcode'⟩

theorem returnsValue_iff (hret : ret.type = .RETURN) :
    ReturnsValue ret e rest t ↔ Returnable e rest t := by
  obtain ⟨m, q, h⟩ := parens_total (e ++ rest)
  cases m with
  | none =>
    rw [returnsValue_of_other hret h]
    constructor
    · exact .other h
    · rintro (⟨hparens, -, -⟩ | ⟨hparens, hread⟩)
      · cases (h.unique hparens).1
      · obtain ⟨-, rfl⟩ := h.unique hparens
        exact hread
  | some m =>
    obtain ⟨lp, rp, inner, hlp, rfl⟩ := parens_shape h
    rw [returnsValue_of_parens hret h hlp]
    constructor
    · rintro ⟨hrest, hcode⟩
      exact .parenthesised h hrest hcode
    · rintro (⟨hparens, hrest, hcode⟩ | ⟨hparens, -⟩)
      · obtain ⟨heq, rfl⟩ := h.unique hparens
        cases heq
        exact ⟨hrest, hcode⟩
      · cases (h.unique hparens).1

/-- A queue that does not begin with a tuple in parentheses fails in the first alternative, and
the second one reads it as it is. -/
theorem OpensNoTuple.fails (h : OpensNoTuple q) :
    ∃ q1, Matches parserRules syntaxBuilder parens q none q1 ∧
      RunsAlike parserRules syntaxBuilder (.rule .tupleExpression) q q1 := by
  rcases h with h | ⟨q1, h⟩
  · exact ⟨q, parens_reject h, fun m q' hm => hm⟩
  · exact ⟨q1, h.fail (by decide), h.tuple⟩

theorem returnable_of_opensNoTuple (h : OpensNoTuple (e ++ rest)) :
    Returnable e rest t ↔ ReadsBefore (e ++ rest) rest t := by
  obtain ⟨q, hparens, halike⟩ := h.fails
  have hsame : ReadsBefore q rest t ↔ ReadsBefore (e ++ rest) rest t := by
    constructor
    · rintro ⟨t', rest', hread, hbehind⟩
      obtain ⟨m, r, hread'⟩ := parses_total .tupleExpression (e ++ rest)
      obtain ⟨rfl, rfl⟩ := parses_unique hread (halike m r hread')
      exact ⟨t', rest', hread', hbehind⟩
    · rintro ⟨t', rest', hread, hbehind⟩
      exact ⟨t', rest', halike _ _ hread, hbehind⟩
  constructor
  · rintro (⟨hparens', -, -⟩ | ⟨hparens', hread⟩)
    · cases (hparens.unique hparens').1
    · obtain ⟨-, rfl⟩ := hparens.unique hparens'
      exact hsame.mp hread
  · intro hread
    exact .other hparens (hsame.mpr hread)

theorem not_returnable_of_splitsOff (h : SplitsOff e rest) : ¬ Returnable e rest t := by
  obtain ⟨m, rest', hparens, hbehind⟩ := h
  rintro (⟨hparens', hrest, -⟩ | ⟨hparens', -⟩)
  · obtain ⟨-, rfl⟩ := hparens.unique hparens'
    exact hbehind hrest
  · cases (hparens.unique hparens').1

end

def returnToken : Token := ⟨.RETURN, 1, 0, "return"⟩
def openA : List Token := [⟨.LPAREN, 1, 1, "("⟩, ⟨.WORD, 1, 2, "a"⟩, ⟨.RPAREN, 1, 3, ")"⟩]
def lineEnd : Token := ⟨.ENDLINE, 1, 4, "\n"⟩

/-- The tree of `(a)`. -/
def openTree (name : Option Rule) : SyntaxTree :=
  parenthesisedTree ⟨.LPAREN, 1, 1, "("⟩ ⟨.RPAREN, 1, 3, ")"⟩
    (.leaf ⟨.WORD, 1, 2, "a"⟩ (some .identifier)) name

/-- `() -> c` with two newlines between the parentheses. -/
def lambdaC : List Token :=
  [⟨.LPAREN, 1, 1, "("⟩, lineEnd, lineEnd, ⟨.RPAREN, 3, 0, ")"⟩, ⟨.RARROW, 3, 2, "->"⟩, wordC]

def lambdaCTree : SyntaxTree :=
  .node (.node (.leaf ⟨.LPAREN, 1, 1, "("⟩ none) (.leaf ⟨.RPAREN, 3, 0, ")"⟩ none)
      (some .functionArgumentsNoArgs))
    (.node (.leaf ⟨.RARROW, 3, 2, "->"⟩ none) (.leaf wordC (some .identifier))
      (some .anonFunctionLambdaRhs)) (some .anonFunctionDefinition)

/-- The field of the next line. -/
def lineC : List Token := [lineEnd, ⟨.PERIOD, 2, 0, "."⟩, wordC, lineEnd]

end JeffVm
