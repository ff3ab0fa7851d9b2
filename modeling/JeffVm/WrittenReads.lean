import JeffVm.Written

/-!
# Reading what is written

In front of anything that does not go on with an expression, the parser reads its tokens and no
others, and the populator makes the expression of the tree.
-/

set_option autoImplicit false

namespace JeffVm

open Backtracking

/-! ## What is read -/

/-- The rule reads the tokens in front of anything that does not go on with them, as a tree of which
the populator makes the expression. -/
structure ReadsAs (r : Rule) (u : List Token) (e : ExpressionTree) (t : SyntaxTree) : Prop where
  parses : ∀ after, EndsAt r after → r.Parses (u ++ after) (some t) after
  leaves : t.leaves = u
  populates : ∃ n, ∀ k, n ≤ k → populateExpression k t = some e
  opens : Opens u

/-- The populator of a tree calls itself for the trees inside. -/
theorem populates_within {e : ExpressionTree} {t : SyntaxTree} {n : Nat}
    (h : ∀ k, n ≤ k → populateExpression (k + 1) t = some e) :
    ∃ n, ∀ k, n ≤ k → populateExpression k t = some e := by
  refine ⟨n + 1, fun k hk => ?_⟩
  obtain ⟨k, rfl⟩ := Nat.exists_eq_add_one.mpr (Nat.lt_of_lt_of_le (Nat.succ_pos n) hk)
  exact h k (Nat.le_of_succ_le_succ hk)

theorem parses_named {p : Rule} {q rest : List Token} {t : SyntaxTree}
    (h : Matches parserRules syntaxBuilder p.body q (some t) rest)
    (hname : t.expression.isSome = true) : p.Parses q (some t) rest := by
  have hbody := parses_of_body h
  rw [Option.map_some, SyntaxTree.setExpression_of_named hname] at hbody
  exact hbody

section Reading

variable {r : Rule} {u v after : List Token} {e c : ExpressionTree} {t s : SyntaxTree}
  {token op lparen rparen : Token}

theorem ReadsAs.alone (h : ReadsAs r u e t) : r.Parses (u ++ []) (some t) [] := h.parses [] (.nil r)

theorem ReadsAs.named (h : ReadsAs r u e t) : t.expression.isSome = true :=
  h.alone.isSome_expression

theorem ReadsAs.solid (h : ReadsAs r u e t) (hr : r.isSolid = true) : ¬ t.Blank := h.alone.solid hr

/-- What is at the start of written tokens, and so no newline. -/
theorem ReadsAs.not_line (h : ReadsAs r u e t) (q : List Token) :
    ∀ next ∈ (u ++ q).head?, next.type ≠ .ENDLINE := by
  obtain ⟨token, rest, rfl, hfirst⟩ := h.opens.first
  intro next hmem
  cases hmem
  rcases hfirst with h | h | h
  · rw [h]
    decide
  · rw [h]
    decide
  · intro heq
    rw [heq] at h
    exact absurd h (by decide)

/-! ### Postfix expressions -/

theorem postfix_of_primary
    (h : Rule.primaryExpressionNoConstants.Parses (u ++ after) (some t) after)
    (hends : EndsAt .postfixExpression after) :
    Rule.postfixExpression.Parses (u ++ after) (some t) after :=
  parses_named (.or2_left (merge_absent h (postfixExpression1_end hends))) h.isSome_expression

theorem reads_word (h : token.type = .WORD) :
    ReadsAs .postfixExpression [token] (.identifier token) (.leaf token (some .identifier)) where
  parses after hends := by
    have hprimary : Rule.primaryExpressionNoConstants.Parses (token :: after)
        (some (.leaf token (some .identifier))) after :=
      parses_named (.or2_right (anonFunction_name h (hends.ne (by decide)))
        (.or2_left (parses_identifier h))) rfl
    exact @postfix_of_primary [token] after _ hprimary hends
  leaves := rfl
  populates := populates_within (n := 0) fun k _ => rfl
  opens := .name h (by simp)

theorem reads_string (h : token.type = .STR) :
    ReadsAs .postfixExpression [token] (.stringLiteral token) (.leaf token (some .stringLiteral)) where
  parses after hends := by
    have hkinds : token.type ∈ [TokenType.STR] := h ▸ List.mem_singleton_self _
    have hliteral : Rule.stringLiteral.Parses (token :: after)
        (some (.leaf token (some .stringLiteral))) after :=
      parses_of_body (p := .stringLiteral) (.type h)
    have hprimary : Rule.primaryExpressionNoConstants.Parses (token :: after)
        (some (.leaf token (some .stringLiteral))) after :=
      parses_named (.or2_right (rejects [.STR] (by decide) hkinds)
        (.or2_right (rejects [.STR] (by decide) hkinds) (.or2_left hliteral))) rfl
    exact @postfix_of_primary [token] after _ hprimary hends
  leaves := rfl
  populates := populates_within (n := 0) fun k _ => rfl
  opens := .other (by rw [h]; decide)

theorem reads_constant (h : token.type = .INTEGER ∨ token.type = .FLOATING)
    (hvalue : (tokenToPrimitive token).isSome = true) :
    ReadsAs .postfixExpression [token] (.constant token) (.leaf token (some .constant)) where
  parses after hends := by
    have hkinds : token.type ∈ [TokenType.INTEGER, .FLOATING] := by
      rcases h with h | h
      · rw [h]
        decide
      · rw [h]
        decide
    have hconstant : Rule.constant.Parses (token :: after) (some (.leaf token (some .constant)))
        after := by
      have hbody : Matches parserRules syntaxBuilder Rule.constant.body (token :: after)
          (some (.leaf token none)) after := by
        rcases h with h | h
        · exact .or2_left (.type h)
        · refine .or2_right (.type_fail ?_) (.type h)
          intro next hnext
          cases hnext
          rw [show parserRules.kind token = token.type from rfl, h]
          decide
      exact parses_of_body hbody
    have hprimary : Rule.primaryExpression.Parses (token :: after)
        (some (.leaf token (some .constant))) after :=
      parses_named (.or2_right (rejects [.INTEGER, .FLOATING] (by decide) hkinds)
        (.or2_right (rejects [.INTEGER, .FLOATING] (by decide) hkinds)
          (.or2_right (rejects [.INTEGER, .FLOATING] (by decide) hkinds) (.or2_left hconstant)))) rfl
    exact parses_named (p := .postfixExpression)
      (.or2_right (rejects [.INTEGER, .FLOATING] (by decide) hkinds) hprimary) rfl
  leaves := rfl
  populates := by
    apply populates_within (n := 0)
    intro k _
    obtain ⟨value, hvalue⟩ := Option.isSome_iff_exists.mp hvalue
    have hconstant : populateConstant (.leaf token (some .constant)) = some (.constant token) := by
      rw [populateConstant, hvalue]
      rfl
    exact hconstant
  opens := by
    apply Opens.other
    rcases h with h | h
    · rw [h]
      decide
    · rw [h]
      decide

/-- The attempt to read an assignment puts everything back. -/
theorem ReadsAs.assignment (h : ReadsAs .conditionalExpression u e t)
    (hends : EndsAt .conditionalExpression after)
    (hequals : ∀ token ∈ after.head?, token.type ≠ .EQUALS) :
    Rule.assignmentExpression.Parses (u ++ after) (some t) after := by
  have hfail : Matches parserRules syntaxBuilder (.and2 (.rule .assignmentLhs)
      (.and2 (typeLn .EQUALS) (.rule .conditionalExpression))) (u ++ after) none (u ++ after) := by
    cases h.opens with
    | @name token rest hword hnext =>
      have hbehind : ∀ next ∈ (rest ++ after).head?, 0 < next.type.rank ∧ next.type ≠ .EQUALS := by
        intro next hmem
        cases rest with
        | nil => exact ⟨Nat.lt_of_le_of_lt (Nat.zero_le _) (hends.head next hmem), hequals next hmem⟩
        | cons first rest =>
          cases hmem
          have hop := hnext next rfl
          exact ⟨by omega, operator_ne hop (.inr (by decide))⟩
      exact back (lhs_name hword fun next hmem => (hbehind next hmem).1)
        (.and2_fail (typeLn_fail fun next hmem => (hbehind next hmem).2))
    | lparen hl hlhs => exact .and2_fail (hlhs after)
    | other hother => exact .and2_fail (rejects otherStarts (by decide) hother)
  exact parses_named (.or2_right hfail (h.parses after hends)) h.named

theorem ReadsAs.tuple (h : ReadsAs .conditionalExpression u e t)
    (hends : EndsAt .conditionalExpression after)
    (hequals : ∀ token ∈ after.head?, token.type ≠ .EQUALS)
    (hcomma : ∀ token ∈ after.head?, token.type ≠ .COMMA) :
    Rule.tupleExpression.Parses (u ++ after) (some t) after := by
  have hend : Rule.tupleExpression1.Parses after (some (.epsilon (some .tupleExpression1))) after :=
    parses_of_body (p := .tupleExpression1) (m := some (.epsilon none))
      (.or2_right (.and2_fail (typeLn_fail hcomma)) .epsilon)
  exact parses_named (merge_absent (h.assignment hends hequals) hend) h.named

def parenthesesTree (lparen rparen : Token) (t : SyntaxTree) : SyntaxTree :=
  .node (.leaf lparen none) (.node t (.leaf rparen none) none) (some .primaryExpressionNoConstants)

theorem reads_parentheses (hl : lparen.type = .LPAREN) (hr : rparen.type = .RPAREN)
    (h : ReadsAs .conditionalExpression u e t) (hname : ∀ token, u = [token] → token.type ≠ .WORD) :
    ReadsAs .postfixExpression (lparen :: (u ++ [rparen])) (.primaryExpressionNoConstants e)
      (parenthesesTree lparen rparen t) where
  parses after hends := by
    have hkinds : lparen.type ∈ [TokenType.LPAREN] := hl ▸ List.mem_singleton_self _
    have hbehind : EndsAt .conditionalExpression (rparen :: after) :=
      .cons (by rw [hr]; decide) (by rw [hr]; decide) after
    have htuple : Rule.tupleExpression.Parses (u ++ rparen :: after) (some t) (rparen :: after) := by
      apply h.tuple hbehind
      · intro next hmem
        cases hmem
        rw [hr]
        decide
      · intro next hmem
        cases hmem
        rw [hr]
        decide
    have hclose : Matches parserRules syntaxBuilder (.and2 (.rule .tupleExpression) (.type .RPAREN))
        (u ++ rparen :: after) (some (.node t (.leaf rparen none) none)) after :=
      .and2 htuple (.type hr) (merge_of_solid after (h.solid (by decide))
        (not_blank_leaf (by rw [hr]; decide)))
    have hwhole : Matches parserRules syntaxBuilder
        (.and [.type .LPAREN, .rule .tupleExpression, .type .RPAREN]) (lparen :: (u ++ rparen :: after))
        (some (.node (.leaf lparen none) (.node t (.leaf rparen none) none) none)) after :=
      .and2 (.type hl) hclose (merge_of_solid after (not_blank_leaf (by rw [hl]; decide))
        not_blank_node)
    have hprimary : Rule.primaryExpressionNoConstants.Parses (lparen :: (u ++ rparen :: after))
        (some (parenthesesTree lparen rparen t)) after :=
      parses_of_body (p := .primaryExpressionNoConstants)
        (.or2_right (anonFunction_parentheses hl h.opens hname (rparen :: after))
          (.or2_right (rejects [.LPAREN] (by decide) hkinds)
            (.or2_right (rejects [.LPAREN] (by decide) hkinds)
              (.or2_right (rejects [.LPAREN] (by decide) hkinds)
                (.or2_right (rejects [.LPAREN] (by decide) hkinds) hwhole)))))
    have hassoc : lparen :: (u ++ [rparen]) ++ after = lparen :: (u ++ rparen :: after) := by
      simp
    rw [← hassoc] at hprimary
    exact postfix_of_primary hprimary hends
  leaves := by
    have hleaves := h.leaves
    simp [parenthesesTree, SyntaxTree.leaves, hleaves]
  populates := by
    obtain ⟨n, hn⟩ := h.populates
    apply populates_within (n := n)
    intro k hk
    have hinner := hn k hk
    have hparentheses : populatePrimaryExpressionNoConstants (populateExpression k)
        (parenthesesTree lparen rparen t) = some (.primaryExpressionNoConstants e) := by
      simp [populatePrimaryExpressionNoConstants, populateParenthesised, parenthesesTree,
        SyntaxTree.isToken, hl, hinner]
    exact hparentheses
  opens := by
    apply Opens.lparen hl
    intro q
    have hfail := lhs_parentheses hl h.opens hname ([rparen] ++ q)
    rw [← List.append_assoc] at hfail
    exact hfail

/-! ### Prefix operators -/

def unaryKinds : List TokenType := [.TILDE, .EXCLAIM, .MINUS, .CONST_T, .AWAIT]

theorem unaryTokenToType_kind {type : UnaryType} (h : unaryTokenToType op = some type) :
    op.type ∈ unaryKinds := by
  unfold unaryTokenToType at h
  unfold unaryKinds
  split at h
  · simp [*]
  · simp [*]
  · simp [*]
  · simp [*]
  · simp [*]
  · cases h

theorem reads_unary {type : UnaryType} (hop : unaryTokenToType op = some type)
    (hconst : op.type ≠ .CONST_T) (h : ReadsAs .unaryExpression u e t) :
    ReadsAs .unaryExpression (op :: u) (.unaryExpression op type e)
      (.node (.leaf op none) t (some .unaryExpression)) where
  parses after hends := by
    have hkind := unaryTokenToType_kind hop
    have hline : op.type ≠ .ENDLINE := by
      intro heq
      rw [heq] at hkind
      exact absurd hkind (by decide)
    exact parses_of_body (p := .unaryExpression)
      (matches_prefixed hkind hline (h.parses after hends) (h.solid (by decide)))
  leaves := by
    have hleaves := h.leaves
    simp [SyntaxTree.leaves, hleaves]
  populates := by
    obtain ⟨n, hn⟩ := h.populates
    apply populates_within (n := n)
    intro k hk
    have hoperand := hn k hk
    have hunary : populateUnaryExpression (populateExpression k)
        (.node (.leaf op none) t (some .unaryExpression)) = some (.unaryExpression op type e) := by
      simp [populateUnaryExpression, hop, hoperand]
    exact hunary
  opens := by
    apply Opens.other
    have hall : ∀ k ∈ unaryKinds, k ≠ .CONST_T → k ∈ otherStarts := by decide
    exact hall _ (unaryTokenToType_kind hop) hconst

/-- A postfix expression has no prefix operator. -/
theorem reads_postfix (h : ReadsAs .postfixExpression u e t) : ReadsAs .unaryExpression u e t where
  parses after hends := by
    have hpostfix := h.parses after (hends.tighter (by decide))
    have hrange : Rule.rangeExpression.Parses (u ++ after) (some t) after :=
      parses_named (merge_absent hpostfix (opt_fails (.and2_fail (.type_fail (hends.ne (by decide))))))
        h.named
    have hfirst : ∀ token ∈ (u ++ after).head?, token.type ∉ unaryKinds := by
      intro token hmem hkind
      obtain ⟨first, rest, rfl, -⟩ := h.opens.first
      cases hmem
      have hreject : Rule.postfixExpression.Parses (token :: (rest ++ after)) none
          (token :: (rest ++ after)) := rejects unaryKinds (by decide) hkind
      cases (parses_unique hpostfix hreject).1
    exact parses_named (p := .unaryExpression) (matches_unprefixed hfirst hrange) h.named
  leaves := h.leaves
  populates := h.populates
  opens := h.opens

end Reading

/-! ### Chains -/

theorem mem_operators {level : BinaryLevel} {x : ChainOperand}
    (h : (x.op.type, x.type) ∈ level.operators) : x.op.type ∈ level.operators.map Prod.fst :=
  List.mem_map.mpr ⟨_, h, rfl⟩

theorem expr1_ends {level : BinaryLevel} {after : List Token} (h : EndsAt level.expr after) :
    level.expr1.Parses after (some (.epsilon (some level.expr1))) after := by
  apply parses_expr1_end
  intro token hmem hop
  have hlt := h.head token hmem
  rw [rank_operator hop] at hlt
  omega

theorem leaves_chainTree {level : BinaryLevel} {t : SyntaxTree} {op : Token} {t' : SyntaxTree}
    {trees : List (Token × SyntaxTree)} : (chainTree level t ((op, t') :: trees)).leaves =
      t.leaves ++ op :: (chainTree level t' trees).leaves := by
  simp [chainTree, SyntaxTree.leaves]

/-- The trees of the operands, from the first one on. -/
theorem reads_operands {level : BinaryLevel} {rest : List ChainOperand} {u : List Token}
    {e : ExpressionTree} {t : SyntaxTree} (h : ReadsAs level.operand u e t)
    (hops : ∀ x ∈ rest, (x.op.type, x.type) ∈ level.operators)
    (hrest : ∀ x ∈ rest, ∃ t, ReadsAs level.operand x.tokens x.exp t) :
    ∃ trees, (∀ after, EndsAt level.expr after →
        ReadsOperands level after u (rest.map ChainOperand.pair) t trees) ∧
      (chainTree level t trees).leaves = chainTokens u (rest.map ChainOperand.pair) ∧
      ∃ n, ∀ k, n ≤ k →
        Populates level (populateExpression k) trees (rest.map ChainOperand.suffix) := by
  induction rest generalizing u e t with
  | nil =>
    refine ⟨[], ?_, h.leaves, 0, fun k _ => .nil⟩
    intro after hends
    exact .last (h.parses after (hends.tighter (Nat.le_of_lt (rank_operand level)))) (expr1_ends hends)
  | cons x rest ih =>
    obtain ⟨t', ht'⟩ := hrest x List.mem_cons_self
    have hop := hops x List.mem_cons_self
    obtain ⟨trees, hreads, hleaves, n, hpopulates⟩ := ih ht'
      (fun y hy => hops y (List.mem_cons_of_mem _ hy))
      (fun y hy => hrest y (List.mem_cons_of_mem _ hy))
    obtain ⟨n', hexp⟩ := ht'.populates
    refine ⟨(x.op, t') :: trees, ?_, ?_, max n n', ?_⟩
    · intro after hends
      have hrank := rank_operator (mem_operators hop)
      have hoperand : EndsAt level.operand
          (x.op :: (chainTokens x.tokens (rest.map ChainOperand.pair) ++ after)) := by
        apply EndsAt.cons
        · rw [hrank]
          exact rank_operand level
        · exact operator_ne_endline (mem_operators hop)
      exact .next (h.parses _ hoperand) (mem_operators hop) (hreads after hends)
    · rw [leaves_chainTree, h.leaves, hleaves]
      rfl
    · intro k hk
      exact .cons hop (hexp k (by omega)) (hpopulates k (by omega))

theorem reads_chain {level : BinaryLevel} {rest : List ChainOperand} {u : List Token}
    {e : ExpressionTree} {t : SyntaxTree} (hne : rest ≠ []) (h : ReadsAs level.operand u e t)
    (hops : ∀ x ∈ rest, (x.op.type, x.type) ∈ level.operators)
    (hrest : ∀ x ∈ rest, ∃ t, ReadsAs level.operand x.tokens x.exp t) :
    ∃ t, ReadsAs level.expr (chainTokens u (rest.map ChainOperand.pair))
      (level.build e (rest.map ChainOperand.suffix)) t := by
  obtain ⟨trees, hreads, hleaves, n, hpopulates⟩ := reads_operands h hops hrest
  refine ⟨chainTree level t trees, ?_, hleaves, ?_, ?_⟩
  · intro after hends
    exact parses_chain (hreads after hends)
  · obtain ⟨n', hexp⟩ := h.populates
    apply populates_within (n := max n n')
    intro k hk
    have hsuffixes := hpopulates k (by omega)
    have halone := hreads [] (.nil level.expr)
    cases trees with
    | nil =>
      have htokens := halone.tokens
      exact absurd (List.map_eq_nil_iff.mp (List.map_eq_nil_iff.mp htokens.symm)) hne
    | cons operand trees =>
      obtain ⟨op, t'⟩ := operand
      apply populate_chain k (hexp k (by omega)) hsuffixes
      · intro operand hmem
        obtain ⟨q, rest, hoperand⟩ := halone.rest operand hmem
        exact operand_expression_ne hoperand
      · intro operand hmem
        obtain ⟨q, rest, hoperand⟩ := halone.rest operand hmem
        exact hoperand.solid level.solid_operand
  · cases rest with
    | nil => exact absurd rfl hne
    | cons x rest =>
      have hrank := rank_operator (mem_operators (hops x List.mem_cons_self))
      have hbounds : 1 < level.expr.rank ∧ level.expr.rank ≤ 12 := by
        cases level
        all_goals decide
      apply h.opens.append
      · omega
      · omega

section Levels

variable {u v after : List Token} {e c type : ExpressionTree} {t s : SyntaxTree} {op : Token}

/-- One operand is no chain. -/
theorem reads_operand {level : BinaryLevel} (h : ReadsAs level.operand u e t) :
    ReadsAs level.expr u e t where
  parses after hends := by
    have hlast : ReadsOperands level after u [] t [] :=
      .last (h.parses after (hends.tighter (Nat.le_of_lt (rank_operand level)))) (expr1_ends hends)
    exact parses_chain hlast
  leaves := h.leaves
  populates := h.populates
  opens := h.opens

theorem inExpression1_end (hends : EndsAt .inExpression after) :
    Rule.inExpression1.Parses after (some (.epsilon (some .inExpression1))) after :=
  parses_of_body (p := .inExpression1) (m := some (.epsilon none))
    (.or2_right (.and2_fail (.or2_right (.type_fail (hends.ne (by decide)))
      (.type_fail (hends.ne (by decide))))) .epsilon)

theorem reads_element (h : ReadsAs .additiveExpression u e t) : ReadsAs .inExpression u e t where
  parses after hends :=
    parses_named (merge_absent (h.parses after (hends.tighter (by decide)))
      (inExpression1_end hends)) h.named
  leaves := h.leaves
  populates := h.populates
  opens := h.opens

def inTree (t : SyntaxTree) (op : Token) (s : SyntaxTree) : SyntaxTree :=
  .node t (.node (.leaf op none) s (some .inExpression1)) (some .inExpression)

theorem reads_isIn (hop : op.type = .IN ∨ op.type = .NOTIN) (h : ReadsAs .additiveExpression u e t)
    (hc : ReadsAs .additiveExpression v c s) :
    ReadsAs .inExpression (u ++ op :: v) (.inExpression op (op.type = .NOTIN) e c) (inTree t op s) where
  parses after hends := by
    have hline : op.type ≠ .ENDLINE := by
      rcases hop with hop | hop
      · rw [hop]
        decide
      · rw [hop]
        decide
    have hrank : op.type.rank = 7 := by
      rcases hop with hop | hop
      · rw [hop]
        rfl
      · rw [hop]
        rfl
    have hfirst : Rule.additiveExpression.Parses (u ++ op :: (v ++ after)) (some t)
        (op :: (v ++ after)) := by
      apply h.parses
      apply EndsAt.cons _ hline
      rw [hrank]
      decide
    have hoperator : Matches parserRules syntaxBuilder (.or [.type .IN, .type .NOTIN])
        (op :: (v ++ after)) (some (.leaf op none)) (v ++ after) := by
      rcases hop with hop | hop
      · exact .or2_left (.type hop)
      · refine .or2_right (.type_fail ?_) (.type hop)
        intro next hnext
        cases hnext
        rw [show parserRules.kind op = op.type from rfl, hop]
        decide
    have hcollection : Matches parserRules syntaxBuilder
        (.and2 (.rule .additiveExpression) (.rule .inExpression1)) (v ++ after) (some s) after :=
      merge_absent (hc.parses after (hends.tighter (by decide))) (inExpression1_end hends)
    have hbehind : Rule.inExpression1.Parses (op :: (v ++ after))
        (some (.node (.leaf op none) s (some .inExpression1))) after :=
      parses_of_body (p := .inExpression1) (.or2_left (.and2 hoperator hcollection
        (merge_of_solid after (not_blank_leaf hline) (hc.solid (by decide)))))
    rw [List.append_assoc, List.cons_append]
    exact parses_of_body (p := .inExpression) (.and2 hfirst hbehind
      (merge_of_solid after (h.solid (by decide)) not_blank_node))
  leaves := by
    have hleaves := h.leaves
    have hleaves' := hc.leaves
    simp [inTree, SyntaxTree.leaves, hleaves, hleaves']
  populates := by
    obtain ⟨n, hn⟩ := h.populates
    obtain ⟨n', hn'⟩ := hc.populates
    apply populates_within (n := max n n')
    intro k hk
    have hfirst := hn k (by omega)
    have hsecond := hn' k (by omega)
    have hin : populateInExpression (populateExpression k) (inTree t op s) =
        some (.inExpression op (op.type = .NOTIN) e c) := by
      simp [populateInExpression, inTree, hfirst, hsecond]
    exact hin
  opens := by
    rcases hop with hop | hop
    · exact h.opens.append (by rw [hop]; decide) (by rw [hop]; decide) v
    · exact h.opens.append (by rw [hop]; decide) (by rw [hop]; decide) v

/-- The first alternative reads the operand too, and puts it back. -/
theorem reads_untyped (h : ReadsAs .orExpression u e t) : ReadsAs .isExpression u e t where
  parses after hends := by
    have hor := h.parses after (hends.tighter (by decide))
    have htype : Matches parserRules syntaxBuilder (.and2 (typeLn .IS_T) (.rule .orExpression)) after
        none after := .and2_fail (typeLn_fail (hends.ne (by decide)))
    have hback : Matches parserRules syntaxBuilder (.and2 (.rule .orExpression)
        (.and2 (typeLn .IS_T) (.rule .orExpression))) (u ++ after) none (u ++ after) := by
      have hfail := back hor htype
      rw [h.leaves] at hfail
      exact hfail
    exact parses_named (.or2_right hback hor) h.named
  leaves := h.leaves
  populates := h.populates
  opens := h.opens

def isTree (t : SyntaxTree) (op : Token) (s : SyntaxTree) : SyntaxTree :=
  .node t (.node (.leaf op none) s none) (some .isExpression)

theorem reads_isType (hop : op.type = .IS_T) (h : ReadsAs .orExpression u e t)
    (htype : ReadsAs .orExpression v type s) :
    ReadsAs .isExpression (u ++ op :: v) (.isExpression op e type) (isTree t op s) where
  parses after hends := by
    have hline : op.type ≠ .ENDLINE := by
      rw [hop]
      decide
    have hfirst : Rule.orExpression.Parses (u ++ op :: (v ++ after)) (some t) (op :: (v ++ after)) := by
      apply h.parses
      apply EndsAt.cons _ hline
      rw [hop]
      decide
    have hsecond := htype.parses after (hends.tighter (by decide))
    have hbehind : Matches parserRules syntaxBuilder (.and2 (typeLn .IS_T) (.rule .orExpression))
        (op :: (v ++ after)) (some (.node (.leaf op none) s none)) after :=
      .and2 (typeLn_reads hop (htype.not_line after)) hsecond
        (merge_of_solid after (not_blank_leaf hline) (htype.solid (by decide)))
    rw [List.append_assoc, List.cons_append]
    exact parses_of_body (p := .isExpression) (.or2_left (.and2 hfirst hbehind
      (merge_of_solid after (h.solid (by decide)) not_blank_node)))
  leaves := by
    have hleaves := h.leaves
    have hleaves' := htype.leaves
    simp [isTree, SyntaxTree.leaves, hleaves, hleaves']
  populates := by
    obtain ⟨n, hn⟩ := h.populates
    obtain ⟨n', hn'⟩ := htype.populates
    apply populates_within (n := max n n')
    intro k hk
    have hfirst := hn k (by omega)
    have hsecond := hn' k (by omega)
    have his : populateIsExpression (populateExpression k) (isTree t op s) =
        some (.isExpression op e type) := by
      simp [populateIsExpression, isTree, hfirst, hsecond]
    exact his
  opens := h.opens.append (by rw [hop]; decide) (by rw [hop]; decide) v

theorem reads_condition (h : ReadsAs .isExpression u e t) : ReadsAs .conditionalExpression u e t where
  parses after hends := by
    have his := h.parses after (hends.tighter (by decide))
    have hif : ∀ body : Exp TokenType Rule, Matches parserRules syntaxBuilder
        (.and2 (typeLn .IF_T) body) (u ++ after) none (u ++ after) := by
      intro body
      apply Matches.and2_fail
      apply typeLn_fail
      intro next hmem
      obtain ⟨token, rest, rfl, hfirst⟩ := h.opens.first
      cases hmem
      rcases hfirst with h | h | h
      · rw [h]
        decide
      · rw [h]
        decide
      · intro heq
        rw [heq] at h
        exact absurd h (by decide)
    exact parses_named (p := .conditionalExpression)
      (.or2_right (hif _) (.or2_right (hif _) his)) h.named
  leaves := h.leaves
  populates := h.populates
  opens := h.opens

end Levels

/-- Induction on how the tokens are written. -/
theorem Written.reads {r : Rule} {u : List Token} {e : ExpressionTree} (h : Written r u e) :
    ∃ t, ReadsAs r u e t := by
  induction h with
  | word h => exact ⟨_, reads_word h⟩
  | string h => exact ⟨_, reads_string h⟩
  | constant h hvalue => exact ⟨_, reads_constant h hvalue⟩
  | parentheses hl hr h hname ih =>
    obtain ⟨t, ht⟩ := ih
    exact ⟨_, reads_parentheses hl hr ht hname⟩
  | unprefixed h ih =>
    obtain ⟨t, ht⟩ := ih
    exact ⟨t, reads_postfix ht⟩
  | unary hop hconst h ih =>
    obtain ⟨t, ht⟩ := ih
    exact ⟨_, reads_unary hop hconst ht⟩
  | operand level h ih =>
    obtain ⟨t, ht⟩ := ih
    exact ⟨t, reads_operand ht⟩
  | chain level hne h hops hrest ih ihrest =>
    obtain ⟨t, ht⟩ := ih
    exact reads_chain hne ht hops ihrest
  | element h ih =>
    obtain ⟨t, ht⟩ := ih
    exact ⟨t, reads_element ht⟩
  | isIn hop h hc ih ihc =>
    obtain ⟨t, ht⟩ := ih
    obtain ⟨s, hs⟩ := ihc
    exact ⟨_, reads_isIn hop ht hs⟩
  | untyped h ih =>
    obtain ⟨t, ht⟩ := ih
    exact ⟨t, reads_untyped ht⟩
  | isType hop h htype ih ihtype =>
    obtain ⟨t, ht⟩ := ih
    obtain ⟨s, hs⟩ := ihtype
    exact ⟨_, reads_isType hop ht hs⟩
  | condition h ih =>
    obtain ⟨t, ht⟩ := ih
    exact ⟨t, reads_condition ht⟩

section Product

def nameA : Token := ⟨.WORD, 1, 1, "a"⟩
def nameB : Token := ⟨.WORD, 1, 5, "b"⟩
def integerTwo : Token := ⟨.INTEGER, 1, 10, "2"⟩

/-- `+ b` -/
def plusB : ChainOperand := ⟨⟨.PLUS, 1, 3, "+"⟩, .add, [nameB], .identifier nameB⟩

/-- `* 2` -/
def timesTwo : ChainOperand := ⟨⟨.STAR, 1, 8, "*"⟩, .mult, [integerTwo], .constant integerTwo⟩

/-- `(a + b) * 2` -/
def productTokens : List Token :=
  lparen :: ([nameA, plusB.op, nameB] ++ [rparen]) ++ [timesTwo.op, integerTwo]

def productTree : ExpressionTree :=
  .biExpression .multiplicative (.primaryExpressionNoConstants
    (.biExpression .additive (.identifier nameA) [plusB.suffix])) [timesTwo.suffix]

theorem written_sum : Written .additiveExpression [nameA, plusB.op, nameB]
    (.biExpression .additive (.identifier nameA) [plusB.suffix]) := by
  have hfirst : Written .multiplicativeExpression [nameA] (.identifier nameA) :=
    .operand .multiplicative (Written.unprefixed (.word rfl)).factor
  have hsecond : Written .multiplicativeExpression [nameB] (.identifier nameB) :=
    .operand .multiplicative (Written.unprefixed (.word rfl)).factor
  apply Written.chain .additive (List.cons_ne_nil plusB []) hfirst
  · decide
  · intro x hx
    cases List.mem_singleton.mp hx
    exact hsecond

theorem written_product : Written .conditionalExpression productTokens productTree := by
  have hparentheses : Written .postfixExpression (lparen :: ([nameA, plusB.op, nameB] ++ [rparen]))
      (.primaryExpressionNoConstants (.biExpression .additive (.identifier nameA) [plusB.suffix])) := by
    apply Written.parentheses rfl rfl written_sum.sum
    intro token h
    cases h
  have hproduct : Written .multiplicativeExpression productTokens productTree := by
    apply Written.chain .multiplicative (List.cons_ne_nil timesTwo []) (Written.unprefixed hparentheses).factor
    · decide
    · intro x hx
      cases List.mem_singleton.mp hx
      exact (Written.unprefixed (.constant (.inl rfl) rfl)).factor
  exact (Written.operand .additive hproduct).sum

end Product

theorem ends_newline : EndsAt .conditionalExpression [newline] where
  head token h := by
    cases h
    decide
  line token next rest h := by cases h

/-- What is written is read: the rule takes exactly these tokens, in front of anything that does not
go on with them, and the populator gets the tree back. -/
theorem written_expression_reads {r : Rule} {u after : List Token} {e : ExpressionTree}
    (h : Written r u e) (hends : EndsAt r after) :
    ∃ t, r.Parses (u ++ after) (some t) after ∧ t.leaves = u ∧
      ∃ n, ∀ k, n ≤ k → populateExpression k t = some e := by
  obtain ⟨t, ht⟩ := h.reads
  exact ⟨t, ht.parses after hends, ht.leaves, ht.populates⟩

theorem written_expression_reads_product :
    ∃ t, Rule.conditionalExpression.Parses (productTokens ++ [newline]) (some t) [newline] ∧
      t.leaves = productTokens ∧ ∃ n, ∀ k, n ≤ k → populateExpression k t = some productTree :=
  written_expression_reads written_product ends_newline

end JeffVm
