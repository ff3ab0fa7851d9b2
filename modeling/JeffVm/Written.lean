import JeffVm.Accepted
import JeffVm.Chains

/-!
# Written expressions

Which tokens stand for an expression tree: names, constants and strings, prefix operators, the chains
of all levels, and parentheses around anything but a name alone, which in front of a brace the parser
takes for the arguments of a function.
-/

set_option autoImplicit false

namespace JeffVm

open Backtracking

/-! ## Levels -/

/-- How loosely the rule binds. -/
def Rule.rank : Rule → Nat
  | .postfixExpression => 0
  | .unaryExpression => 1
  | .binaryAndExpression => 2
  | .binaryXorExpression => 3
  | .binaryOrExpression => 4
  | .multiplicativeExpression => 5
  | .additiveExpression => 6
  | .inExpression => 7
  | .relationalExpression => 8
  | .equalityExpression => 9
  | .andExpression => 10
  | .orExpression => 11
  | .isExpression => 12
  | _ => 13

/-- The rank of the rules that go on with such a token behind what they have read. -/
def TokenType.rank : TokenType → Nat
  | .LPAREN | .LBRAC | .PERIOD | .RARROW => 0
  | .COLON => 1
  | .AMPER => 2
  | .CARET => 3
  | .PIPE => 4
  | .STAR | .FSLASH | .PERCENT => 5
  | .PLUS | .MINUS => 6
  | .IN | .NOTIN => 7
  | .LTHAN | .GTHAN | .LTHANEQ | .GTHANEQ => 8
  | .EQUIV | .NEQUIV => 9
  | .AND_T => 10
  | .OR_T => 11
  | .IS_T => 12
  | _ => 20

/-- The rule does not go on with the tokens behind it. A name may stand behind a newline and a
period. -/
structure EndsAt (r : Rule) (after : List Token) : Prop where
  head : ∀ token ∈ after.head?, r.rank < token.type.rank
  line : ∀ token next rest, after = token :: next :: rest → token.type = .ENDLINE →
    next.type ≠ .PERIOD

/-- An operator with the operand behind it. -/
structure ChainOperand where
  op : Token
  type : BiType
  tokens : List Token
  exp : ExpressionTree

def ChainOperand.pair (x : ChainOperand) : Token × List Token := (x.op, x.tokens)

def ChainOperand.suffix (x : ChainOperand) : BiSuffix := ⟨x.op, x.type, x.exp⟩

/-- The tokens stand for the tree, at the level of the rule. -/
inductive Written : Rule → List Token → ExpressionTree → Prop
  | word {token : Token} (h : token.type = .WORD) :
    Written .postfixExpression [token] (.identifier token)
  | string {token : Token} (h : token.type = .STR) :
    Written .postfixExpression [token] (.stringLiteral token)
  | constant {token : Token} (h : token.type = .INTEGER ∨ token.type = .FLOATING)
      (hvalue : (tokenToPrimitive token).isSome = true) :
    Written .postfixExpression [token] (.constant token)
  | parentheses {lparen rparen : Token} {u : List Token} {e : ExpressionTree}
      (hl : lparen.type = .LPAREN) (hr : rparen.type = .RPAREN)
      (h : Written .conditionalExpression u e) (hname : ∀ token, u = [token] → token.type ≠ .WORD) :
    Written .postfixExpression (lparen :: (u ++ [rparen])) (.primaryExpressionNoConstants e)
  | unprefixed {u : List Token} {e : ExpressionTree} (h : Written .postfixExpression u e) :
    Written .unaryExpression u e
  | unary {op : Token} {type : UnaryType} {u : List Token} {e : ExpressionTree}
      (hop : unaryTokenToType op = some type) (hconst : op.type ≠ .CONST_T)
      (h : Written .unaryExpression u e) :
    Written .unaryExpression (op :: u) (.unaryExpression op type e)
  | operand (level : BinaryLevel) {u : List Token} {e : ExpressionTree}
      (h : Written level.operand u e) : Written level.expr u e
  | chain (level : BinaryLevel) {u : List Token} {e : ExpressionTree} {rest : List ChainOperand}
      (hne : rest ≠ []) (h : Written level.operand u e)
      (hops : ∀ x ∈ rest, (x.op.type, x.type) ∈ level.operators)
      (hrest : ∀ x ∈ rest, Written level.operand x.tokens x.exp) :
    Written level.expr (chainTokens u (rest.map ChainOperand.pair))
      (level.build e (rest.map ChainOperand.suffix))
  | element {u : List Token} {e : ExpressionTree} (h : Written .additiveExpression u e) :
    Written .inExpression u e
  | isIn {op : Token} {u v : List Token} {e c : ExpressionTree}
      (hop : op.type = .IN ∨ op.type = .NOTIN) (h : Written .additiveExpression u e)
      (hc : Written .additiveExpression v c) :
    Written .inExpression (u ++ op :: v) (.inExpression op (op.type = .NOTIN) e c)
  | untyped {u : List Token} {e : ExpressionTree} (h : Written .orExpression u e) :
    Written .isExpression u e
  | isType {op : Token} {u v : List Token} {e type : ExpressionTree} (hop : op.type = .IS_T)
      (h : Written .orExpression u e) (htype : Written .orExpression v type) :
    Written .isExpression (u ++ op :: v) (.isExpression op e type)
  | condition {u : List Token} {e : ExpressionTree} (h : Written .isExpression u e) :
    Written .conditionalExpression u e

theorem Written.factor {u : List Token} {e : ExpressionTree} (h : Written .unaryExpression u e) :
    Written .binaryOrExpression u e :=
  .operand .binaryOr (.operand .binaryXor (.operand .binaryAnd h))

theorem Written.sum {u : List Token} {e : ExpressionTree} (h : Written .additiveExpression u e) :
    Written .conditionalExpression u e :=
  .condition (.untyped (.operand .or (.operand .and (.operand .equality (.operand .relational
    (.element h))))))

namespace EndsAt

variable {r r' : Rule} {after : List Token}

theorem nil (r : Rule) : EndsAt r [] := ⟨by simp, by simp⟩

theorem tighter (h : EndsAt r after) (hle : r'.rank ≤ r.rank) : EndsAt r' after :=
  ⟨fun token ht => Nat.lt_of_le_of_lt hle (h.head token ht), h.line⟩

theorem cons {token : Token} (h : r.rank < token.type.rank) (hline : token.type ≠ .ENDLINE)
    (rest : List Token) : EndsAt r (token :: rest) := by
  constructor
  · intro t ht
    cases ht
    exact h
  · intro t next rest' heq ht
    cases heq
    exact absurd ht hline

/-- No token of the kind stands there. -/
theorem ne (h : EndsAt r after) {kind : TokenType} (hk : kind.rank ≤ r.rank) :
    ∀ token ∈ after.head?, token.type ≠ kind := by
  intro token ht heq
  have hlt := h.head token ht
  rw [heq] at hlt
  omega

end EndsAt

/-! ## Parts of the rules -/

section Parts

variable {e : Exp TokenType Rule} {q q' after : List Token} {m : Option SyntaxTree} {t t' : SyntaxTree}
  {token op : Token} {kind : TokenType}

theorem typeLn_fail (h : ∀ token ∈ q.head?, token.type ≠ kind) :
    Matches parserRules syntaxBuilder (typeLn kind) q none q :=
  .and2_fail (.type_fail h)

theorem typeLn_reads (h : token.type = kind) (hline : ∀ next ∈ q.head?, next.type ≠ .ENDLINE) :
    Matches parserRules syntaxBuilder (typeLn kind) (token :: q) (some (.leaf token none)) q := by
  subst h
  exact typeLn_plain token hline

/-- Where the second part fails the tokens of the first part are put back. -/
theorem back {e1 e2 : Exp TokenType Rule} (h1 : Matches parserRules syntaxBuilder e1 q (some t) q')
    (h2 : Matches parserRules syntaxBuilder e2 q' none q') :
    Matches parserRules syntaxBuilder (.and2 e1 e2) q none (t.leaves ++ q') :=
  .and2 h1 h2 (by rw [← matchRollback_eq]; rfl)

/-- An optional part that is not there. -/
theorem merge_absent {e1 e2 : Exp TokenType Rule} {r : Option Rule}
    (h1 : Matches parserRules syntaxBuilder e1 q (some t) q')
    (h2 : Matches parserRules syntaxBuilder e2 q' (some (.epsilon r)) after) :
    Matches parserRules syntaxBuilder (.and2 e1 e2) q (some t) after :=
  .and2 h1 h2 (merge_epsilon t r after)

theorem opt_fails (h : Matches parserRules syntaxBuilder e q none q) :
    Matches parserRules syntaxBuilder (.opt e) q (some (.epsilon none)) q :=
  matches_opt.mpr (.inr ⟨h, rfl⟩)

theorem rejects (kinds : List TokenType) (hkinds : ∀ k ∈ kinds, e.accepts Rule.body k 120 = false)
    (h : token.type ∈ kinds) :
    Matches parserRules syntaxBuilder e (token :: q) none (token :: q) :=
  Matches.reject 120 (hkinds token.type h)

/-- A prefix operator. -/
theorem matches_prefixed {kinds : List TokenType} {last : Exp TokenType Rule} {rest : List Token}
    (hop : op.type ∈ kinds) (hline : op.type ≠ .ENDLINE)
    (h : Matches parserRules syntaxBuilder e q (some t) rest) (ht : ¬ t.Blank) :
    Matches parserRules syntaxBuilder (.or (kinds.map (fun k => .and [.type k, e]) ++ [last]))
      (op :: q) (some (.node (.leaf op none) t none)) rest := by
  induction kinds with
  | nil => cases hop
  | cons k kinds ih =>
    rw [List.map_cons, List.cons_append, exp_or_cons _ (by simp)]
    by_cases heq : op.type = k
    · apply Matches.or2_left
      exact .and2 (.type heq) h (merge_of_solid rest (not_blank_leaf hline) ht)
    · apply @Matches.or2_right _ _ _ _ _ _ _ _ _ (op :: q) (op :: q)
      · refine .and2_fail (.type_fail ?_)
        intro t ht
        cases ht
        exact heq
      · exact ih ((List.mem_cons.mp hop).resolve_left heq)

theorem matches_unprefixed {kinds : List TokenType} {last : Exp TokenType Rule}
    (h : ∀ token ∈ q.head?, token.type ∉ kinds)
    (hlast : Matches parserRules syntaxBuilder last q m q') :
    Matches parserRules syntaxBuilder (.or (kinds.map (fun k => .and [.type k, e]) ++ [last])) q m
      q' := by
  induction kinds with
  | nil => exact hlast
  | cons k kinds ih =>
    rw [List.map_cons, List.cons_append, exp_or_cons _ (by simp)]
    apply @Matches.or2_right _ _ _ _ _ _ _ _ _ q q
    · refine .and2_fail (.type_fail ?_)
      intro t ht heq
      exact h t ht (heq ▸ List.mem_cons_self)
    · exact ih fun t ht hmem => h t ht (List.mem_cons_of_mem _ hmem)

/-- No operator of the level. -/
theorem parses_expr1_end {level : BinaryLevel}
    (h : ∀ token ∈ after.head?, token.type ∉ level.operators.map Prod.fst) :
    level.expr1.Parses after (some (.epsilon (some level.expr1))) after := by
  have hbody : Matches parserRules syntaxBuilder level.expr1.body after (some (.epsilon none))
      after := by
    rw [BinaryLevel.body_expr1]
    have hmap : level.operators.map level.alternative = (level.operators.map Prod.fst).map
        fun k => Exp.and [.type k, .rule level.expr] := by
      rw [List.map_map]
      rfl
    rw [hmap]
    exact matches_unprefixed h .epsilon
  exact parses_of_body hbody

theorem rank_operator {level : BinaryLevel} (h : kind ∈ level.operators.map Prod.fst) :
    kind.rank = level.expr.rank := by
  have hall : ∀ k ∈ level.operators.map Prod.fst, k.rank = level.expr.rank := by
    cases level <;> decide
  exact hall kind h

theorem rank_operand (level : BinaryLevel) : level.operand.rank < level.expr.rank := by
  cases level <;> decide

end Parts

/-! ## How written tokens begin -/

/-- The tokens of prefix operators and of constants. -/
def otherStarts : List TokenType :=
  [.STR, .INTEGER, .FLOATING, .TILDE, .EXCLAIM, .MINUS, .AWAIT]

/-- Behind a name at the start there is an operator, and parentheses at the start are not what a
value can be assigned to. -/
inductive Opens : List Token → Prop
  | name {token : Token} {rest : List Token} (h : token.type = .WORD)
      (hnext : ∀ next ∈ rest.head?, 1 < next.type.rank ∧ next.type.rank ≤ 12) :
    Opens (token :: rest)
  | lparen {token : Token} {rest : List Token} (h : token.type = .LPAREN)
      (hlhs : ∀ q, Rule.assignmentLhs.Parses (token :: (rest ++ q)) none (token :: (rest ++ q))) :
    Opens (token :: rest)
  | other {token : Token} {rest : List Token} (h : token.type ∈ otherStarts) : Opens (token :: rest)

theorem Opens.append {u : List Token} (h : Opens u) {op : Token} (hlow : 1 < op.type.rank)
    (hhigh : op.type.rank ≤ 12) (v : List Token) : Opens (u ++ op :: v) := by
  cases h with
  | @name token rest h hnext =>
    apply Opens.name h
    intro next hmem
    cases rest with
    | nil =>
      cases hmem
      exact ⟨hlow, hhigh⟩
    | cons first rest => exact hnext next hmem
  | @lparen token rest h hlhs =>
    apply Opens.lparen h
    intro q
    have hassoc : rest ++ op :: v ++ q = rest ++ (op :: v ++ q) := List.append_assoc ..
    have hfail := hlhs (op :: v ++ q)
    rw [← hassoc] at hfail
    exact hfail
  | other h => exact .other h

/-- The first token of written tokens. -/
theorem Opens.first {u : List Token} (h : Opens u) : ∃ token rest, u = token :: rest ∧
    (token.type = .WORD ∨ token.type = .LPAREN ∨ token.type ∈ otherStarts) := by
  cases h with
  | name h hnext => exact ⟨_, _, rfl, .inl h⟩
  | lparen h hlhs => exact ⟨_, _, rfl, .inr (.inl h)⟩
  | other h => exact ⟨_, _, rfl, .inr (.inr h)⟩

section Starts

variable {q after inner : List Token} {token lparen rparen : Token}

theorem parses_identifier (h : token.type = .WORD) :
    Rule.identifier.Parses (token :: q) (some (.leaf token (some .identifier))) q :=
  parses_of_body (p := .identifier) (.or2_left (.type h))

theorem rejects_head {e : Exp TokenType Rule} {P : TokenType → Prop}
    (hall : ∀ k, P k → e.accepts Rule.body k 120 = false) (hend : P .ENDLINE)
    (h : ∀ token ∈ q.head?, P token.type) : Matches parserRules syntaxBuilder e q none q := by
  cases q with
  | nil => exact Matches.reject_nil 120 (hall .ENDLINE hend)
  | cons token q => exact Matches.reject 120 (hall token.type (h token rfl))

/-- Where no suffix follows a name there is nothing to extend it. -/
theorem fieldExpression1_end (h : ∀ token ∈ q.head?, 0 < token.type.rank) :
    Rule.fieldExpression1.Parses q (some (.epsilon (some .fieldExpression1))) q := by
  have hindex : Matches parserRules syntaxBuilder (.rule .arrayIndexAssignment) q none q := by
    apply rejects_head (P := fun k => 0 < k.rank) _ (by decide) h
    intro k hk
    cases k
    all_goals first | rfl | cases hk
  have hcall : Matches parserRules syntaxBuilder (.rule .functionCallArgs) q none q := by
    apply rejects_head (P := fun k => 0 < k.rank) _ (by decide) h
    intro k hk
    cases k
    all_goals first | rfl | cases hk
  have hnext : Matches parserRules syntaxBuilder (.rule .fieldNext) q none q := by
    apply rejects_head (P := fun k => 0 < k.rank) _ (by decide) h
    intro k hk
    cases k
    all_goals first | rfl | cases hk
  have hextension : Rule.fieldExtension.Parses q (some (.epsilon (some .fieldExtension))) q :=
    parses_of_body (p := .fieldExtension) (m := some (.epsilon none))
      (.or2_right hindex (.or2_right hcall .epsilon))
  exact parses_of_body (p := .fieldExpression1) (m := some (.epsilon none))
    (.or2_right (back hextension hnext) (.or2_right hnext .epsilon))

/-- A name alone can be assigned to. -/
theorem lhs_name (h : token.type = .WORD) (hnext : ∀ next ∈ q.head?, 0 < next.type.rank) :
    Rule.assignmentLhs.Parses (token :: q) (some (.leaf token (some .identifier))) q := by
  have hkinds : token.type ∈ [TokenType.WORD] := h ▸ List.mem_singleton_self _
  have hfield : Rule.fieldExpression.Parses (token :: q) (some (.leaf token (some .identifier))) q :=
    parses_of_body (p := .fieldExpression)
      (merge_absent (parses_identifier h) (fieldExpression1_end hnext))
  have hsingle : Rule.assignmentLhsSingle.Parses (token :: q)
      (some (.leaf token (some .identifier))) q :=
    parses_of_body (p := .assignmentLhsSingle)
      (.or2_right (rejects [.WORD] (by decide) hkinds) hfield)
  exact parses_of_body (p := .assignmentLhs) (.or2_right (rejects [.WORD] (by decide) hkinds)
    (.or2_right (rejects [.WORD] (by decide) hkinds) hsingle))

/-- A list in parentheses that breaks off behind a name. -/
theorem list1_end {r : Rule} {e : Exp TokenType Rule}
    (hbody : r.body = .or [.and [.and [typeLn .COMMA, e], .rule r], .epsilon])
    (h : ∀ token ∈ q.head?, token.type ≠ .COMMA) :
    r.Parses q (some (.epsilon (some r))) q := by
  have hmatch : Matches parserRules syntaxBuilder r.body q (some (.epsilon none)) q := by
    rw [hbody]
    exact .or2_right (.and2_fail (.and2_fail (typeLn_fail h))) .epsilon
  exact parses_of_body (m := some (.epsilon none)) hmatch

theorem operator_ne {kind kind' : TokenType} (h : 1 < kind.rank ∧ kind.rank ≤ 12)
    (hk : kind'.rank ≤ 1 ∨ 12 < kind'.rank) : kind ≠ kind' := by
  intro heq
  subst heq
  omega

/-- Parentheses around anything but a name are not what a value can be assigned to. -/
theorem lhs_parentheses (hl : lparen.type = .LPAREN) (hopens : Opens inner)
    (hname : ∀ token, inner = [token] → token.type ≠ .WORD) (q : List Token) :
    Rule.assignmentLhs.Parses (lparen :: (inner ++ q)) none (lparen :: (inner ++ q)) := by
  have hkinds : lparen.type ∈ [TokenType.LPAREN] := hl ▸ List.mem_singleton_self _
  have hinside : Matches parserRules syntaxBuilder
      (.and2 (.rule .assignmentTupleList) (typeLn .RPAREN)) (inner ++ q) none (inner ++ q) := by
    cases hopens with
    | @name token rest h hnext =>
      cases rest with
      | nil => exact absurd h (hname token rfl)
      | cons next rest =>
        have hop := hnext next rfl
        have hlhs := @lhs_name (next :: (rest ++ q)) token h fun t ht => by
          cases ht
          omega
        have hlist : Rule.assignmentTupleList.Parses (token :: next :: (rest ++ q))
            (some (.leaf token (some .identifier))) (next :: (rest ++ q)) := by
          refine parses_of_body (p := .assignmentTupleList)
            (m := some (.leaf token (some .identifier))) (merge_absent hlhs (list1_end rfl ?_))
          intro t ht
          cases ht
          exact operator_ne hop (.inr (by decide))
        refine back hlist (typeLn_fail ?_)
        intro t ht
        cases ht
        exact operator_ne hop (.inr (by decide))
    | @lparen token rest h hlhs =>
      have hlist : Rule.assignmentTupleList.Parses (token :: rest ++ q) none (token :: rest ++ q) :=
        parses_of_body (p := .assignmentTupleList) (.and2_fail (hlhs q))
      exact .and2_fail hlist
    | other h => exact .and2_fail (rejects otherStarts (by decide) h)
  have hline : ∀ next ∈ (inner ++ q).head?, next.type ≠ .ENDLINE := by
    obtain ⟨token, rest, rfl, hfirst⟩ := hopens.first
    intro next hmem
    cases hmem
    rcases hfirst with h | h | h
    · rw [h]
      decide
    · rw [h]
      decide
    · intro heq
      rw [heq] at h
      exact absurd h (by decide)
  have htuple : Rule.assignmentTuple.Parses (lparen :: (inner ++ q)) none (lparen :: (inner ++ q)) :=
    parses_of_body (p := .assignmentTuple) (back (typeLn_reads hl hline) hinside)
  exact parses_of_body (p := .assignmentLhs) (.or2_right htuple
    (.or2_right (rejects [.LPAREN] (by decide) hkinds) (rejects [.LPAREN] (by decide) hkinds)))

/-- Nor are they the arguments of a function. -/
theorem arguments_parentheses (hl : lparen.type = .LPAREN) (hopens : Opens inner)
    (hname : ∀ token, inner = [token] → token.type ≠ .WORD) (q : List Token) :
    Rule.functionArguments.Parses (lparen :: (inner ++ q)) none (lparen :: (inner ++ q)) := by
  have hinside : Matches parserRules syntaxBuilder
      (.and2 (.rule .functionArgumentList) (typeLn .RPAREN)) (inner ++ q) none (inner ++ q) := by
    cases hopens with
    | @name token rest h hnext =>
      cases rest with
      | nil => exact absurd h (hname token rfl)
      | cons next rest =>
        have hop := hnext next rfl
        have hne : ∀ kind : TokenType, 12 < kind.rank →
            ∀ t ∈ (next :: (rest ++ q)).head?, t.type ≠ kind := by
          intro kind hkind t ht
          cases ht
          exact operator_ne hop (.inr hkind)
        have hidentifier := @parses_identifier (next :: (rest ++ q)) token h
        have hkinds : token.type ∈ [TokenType.WORD] := h ▸ List.mem_singleton_self _
        have hdefault : Rule.functionArgDefaultValue.Parses (next :: (rest ++ q)) none
            (next :: (rest ++ q)) :=
          parses_of_body (p := .functionArgDefaultValue)
            (.and2_fail (typeLn_fail (hne .EQUALS (by decide))))
        have hwith : Rule.functionArgEltWithDefault.Parses (token :: next :: (rest ++ q)) none
            (token :: next :: (rest ++ q)) :=
          parses_of_body (p := .functionArgEltWithDefault) (back hidentifier hdefault)
        have helt : Rule.functionArgElt.Parses (token :: next :: (rest ++ q))
            (some (.leaf token (some .identifier))) (next :: (rest ++ q)) :=
          parses_of_body (p := .functionArgElt) (.or2_right hwith hidentifier)
        have hargument : Rule.functionArgument.Parses (token :: next :: (rest ++ q))
            (some (.leaf token (some .identifier))) (next :: (rest ++ q)) :=
          parses_of_body (p := .functionArgument)
            (.or2_right (rejects [.WORD] (by decide) hkinds) helt)
        have hlist : Rule.functionArgumentList.Parses (token :: next :: (rest ++ q))
            (some (.leaf token (some .identifier))) (next :: (rest ++ q)) :=
          parses_of_body (p := .functionArgumentList)
            (merge_absent hargument (list1_end rfl (hne .COMMA (by decide))))
        exact back hlist (typeLn_fail (hne .RPAREN (by decide)))
    | @lparen token rest h hlhs =>
      exact .and2_fail (rejects [.LPAREN] (by decide) (h ▸ List.mem_singleton_self _))
    | other h => exact .and2_fail (rejects otherStarts (by decide) h)
  obtain ⟨token, rest, rfl, hfirst⟩ := hopens.first
  have hhead : token.type ≠ .ENDLINE ∧ token.type ≠ .RPAREN := by
    rcases hfirst with h | h | h
    · rw [h]
      decide
    · rw [h]
      decide
    · constructor
      all_goals
        intro heq
        rw [heq] at h
        exact absurd h (by decide)
  have hlparen : Matches parserRules syntaxBuilder (typeLn .LPAREN) (lparen :: (token :: rest ++ q))
      (some (.leaf lparen none)) (token :: rest ++ q) := by
    apply typeLn_reads hl
    intro next hmem
    cases hmem
    exact hhead.1
  have hpresent : Rule.functionArgumentsPresent.Parses (lparen :: (token :: rest ++ q)) none
      (lparen :: (token :: rest ++ q)) :=
    parses_of_body (p := .functionArgumentsPresent) (back hlparen hinside)
  have hnone : Rule.functionArgumentsNoArgs.Parses (lparen :: (token :: rest ++ q)) none
      (lparen :: (token :: rest ++ q)) := by
    refine parses_of_body (p := .functionArgumentsNoArgs) (m := none)
      (back hlparen (typeLn_fail ?_))
    intro next hmem
    cases hmem
    exact hhead.2
  exact parses_of_body (p := .functionArguments) (.or2_right hpresent hnone)

/-- They are no function without a name. -/
theorem anonFunction_parentheses (hl : lparen.type = .LPAREN) (hopens : Opens inner)
    (hname : ∀ token, inner = [token] → token.type ≠ .WORD) (q : List Token) :
    Rule.anonFunctionDefinition.Parses (lparen :: (inner ++ q)) none (lparen :: (inner ++ q)) := by
  have hplain : Rule.anonSignatureNoQualifier.Parses (lparen :: (inner ++ q)) none
      (lparen :: (inner ++ q)) :=
    parses_of_body (p := .anonSignatureNoQualifier) (arguments_parentheses hl hopens hname q)
  have hqualified : Rule.anonSignatureWithQualifier.Parses (lparen :: (inner ++ q)) none
      (lparen :: (inner ++ q)) :=
    parses_of_body (p := .anonSignatureWithQualifier) (.and2_fail hplain)
  have hsignature : Rule.anonSignature.Parses (lparen :: (inner ++ q)) none (lparen :: (inner ++ q)) :=
    parses_of_body (p := .anonSignature) (.or2_right hqualified hplain)
  have hlhs : Rule.anonFunctionLambdaLhs.Parses (lparen :: (inner ++ q)) none
      (lparen :: (inner ++ q)) :=
    parses_of_body (p := .anonFunctionLambdaLhs) (.or2_right hsignature
      (rejects [.LPAREN] (by decide) (hl ▸ List.mem_singleton_self _)))
  exact parses_of_body (p := .anonFunctionDefinition)
    (.or2_right (.and2_fail hlhs) (.and2_fail hsignature))

/-- Nor is a name that no arrow follows. -/
theorem anonFunction_name (h : token.type = .WORD)
    (hnext : ∀ next ∈ q.head?, next.type ≠ .RARROW) :
    Rule.anonFunctionDefinition.Parses (token :: q) none (token :: q) := by
  have hkinds : token.type ∈ [TokenType.WORD] := h ▸ List.mem_singleton_self _
  have hlhs : Rule.anonFunctionLambdaLhs.Parses (token :: q)
      (some (.leaf token (some .identifier))) q :=
    parses_of_body (p := .anonFunctionLambdaLhs)
      (.or2_right (rejects [.WORD] (by decide) hkinds) (parses_identifier h))
  have hrhs : Rule.anonFunctionLambdaRhs.Parses q none q :=
    parses_of_body (p := .anonFunctionLambdaRhs) (.and2_fail (typeLn_fail hnext))
  exact parses_of_body (p := .anonFunctionDefinition) (.or2_right (back hlhs hrhs)
    (.and2_fail (rejects [.WORD] (by decide) hkinds)))

/-- Nothing is applied to what stands in front of such tokens. -/
theorem postfixExpression1_end (h : EndsAt .postfixExpression after) :
    Rule.postfixExpression1.Parses after (some (.epsilon (some .postfixExpression1))) after := by
  have hne : ∀ kind : TokenType, kind.rank = 0 → ∀ token ∈ after.head?, token.type ≠ kind :=
    fun kind hkind => h.ne (Nat.le_of_eq hkind)
  have hperiod : Matches parserRules syntaxBuilder (.and2 (.opt (.type .ENDLINE)) (.and2
      (.type .PERIOD) (.and2 (.or [.rule .identifier, .rule .newExpression])
        (.rule .postfixExpression1)))) after none after := by
    cases after with
    | nil => exact back (opt_fails (.type_fail (by simp))) (.and2_fail (.type_fail (by simp)))
    | cons token rest =>
      by_cases hline : token.type = .ENDLINE
      · have hread : Matches parserRules syntaxBuilder (.opt (.type .ENDLINE)) (token :: rest)
            (some (.leaf token none)) rest := matches_opt.mpr (.inl ⟨_, .type hline, rfl⟩)
        refine back hread (.and2_fail (.type_fail ?_))
        intro next hnext
        cases rest with
        | nil => cases hnext
        | cons next' rest =>
          cases hnext
          exact h.line token next rest rfl hline
      · refine back (opt_fails (.type_fail ?_)) (.and2_fail (.type_fail (hne .PERIOD rfl)))
        intro t ht
        cases ht
        exact hline
  exact parses_of_body (p := .postfixExpression1) (m := some (.epsilon none))
    (.or2_right (.and2_fail (.type_fail (hne .LBRAC rfl)))
      (.or2_right (.and2_fail (typeLn_fail (hne .LPAREN rfl)))
        (.or2_right (.and2_fail (typeLn_fail (hne .LPAREN rfl))) (.or2_right hperiod .epsilon))))

end Starts

end JeffVm
