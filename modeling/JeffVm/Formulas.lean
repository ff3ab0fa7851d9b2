import JeffVm.Compiled
import JeffVm.TapeTextLexing
import JeffVm.WrittenReads

/-!
# Formulas

Integer formulas, written with parentheses only around operands that do not bind tightly enough.
The lexer, the parser, the populator, the producers and the machine together compute the integer
that the formula stands for, where no part of it leaves the range of `int32_t`.
-/

set_option autoImplicit false

namespace JeffVm

inductive FormulaOp where
  | add | sub | mult
  deriving DecidableEq, Repr

namespace FormulaOp

def level : FormulaOp → BinaryLevel
  | add | sub => .additive
  | mult => .multiplicative

def type : FormulaOp → BiType
  | add => .add
  | sub => .sub
  | mult => .mult

def kind : FormulaOp → TokenKind
  | add => (.PLUS, "+")
  | sub => (.MINUS, "-")
  | mult => (.STAR, "*")

def apply : FormulaOp → Int → Int → Int
  | add, a, b => a + b
  | sub, a, b => a - b
  | mult, a, b => a * b

end FormulaOp

inductive Formula where
  | number (n : Nat)
  | name (id : String)
  | negate (f : Formula)
  | binary (op : FormulaOp) (f g : Formula)
  deriving DecidableEq, Repr

namespace Formula

/-- The integer that the formula stands for. -/
def value (names : String → Int) : Formula → Int
  | number n => n
  | name id => names id
  | negate f => -f.value names
  | binary op f g => op.apply (f.value names) (g.value names)

/-- No part of the formula leaves the range of `int32_t`, where an operation is undefined. -/
def InRange (names : String → Int) : Formula → Prop
  | number n => n < 2 ^ 31
  | name id => -2 ^ 31 ≤ names id ∧ names id < 2 ^ 31
  | negate f => f.InRange names ∧ -f.value names < 2 ^ 31
  | binary op f g => f.InRange names ∧ g.InRange names ∧
    -2 ^ 31 ≤ op.apply (f.value names) (g.value names) ∧
      op.apply (f.value names) (g.value names) < 2 ^ 31

/-- The rule of the outermost operator. -/
def rule : Formula → Rule
  | number _ | name _ => .postfixExpression
  | negate _ => .unaryExpression
  | binary op _ _ => op.level.expr

/-- In parentheses where the operand does not bind tightly enough. -/
def enclose (rule operand : Rule) (kinds : List TokenKind) : List TokenKind :=
  if rule.rank ≤ operand.rank then kinds else (.LPAREN, "(") :: (kinds ++ [(.RPAREN, ")")])

/-- How the formula is written. -/
def kinds : Formula → List TokenKind
  | number n => [(.INTEGER, toString n)]
  | name id => [(.WORD, id)]
  | negate f => (.MINUS, "-") :: enclose f.rule .unaryExpression f.kinds
  | binary op f g =>
    enclose f.rule op.level.operand f.kinds ++ op.kind :: enclose g.rule op.level.operand g.kinds

/-- The lexer reads each name as a name. -/
def Readable : Formula → Prop
  | number _ => True
  | name id => isName id = true ∧ wordType id.toList = .WORD
  | negate f => f.Readable
  | binary _ f g => f.Readable ∧ g.Readable

/-- Each name has its integer in the context, and is none of the three keywords. -/
def Bound (cs : Contexts) (c : ContextId) (s : Store) (names : String → Int) : Formula → Prop
  | number _ => True
  | name id => (id ≠ trueKeyword ∧ id ≠ falseKeyword ∧ id ≠ nilKeyword) ∧
    contextLookup s cs c id = (some (.int (names id)), s)
  | negate f => f.Bound cs c s names
  | binary _ f g => f.Bound cs c s names ∧ g.Bound cs c s names

end Formula

/-! ## What a tree stands for -/

/-- The producer does not fail. -/
def Producer.Succeeds (p : Producer) : Prop := ∀ tape, ∃ n tape', p tape = some (n, tape')

theorem Producer.Succeeds.add {p q : Producer} (hp : p.Succeeds) (hq : q.Succeeds) :
    (p + q).Succeeds := by
  intro tape
  obtain ⟨n, tape₁, h₁⟩ := hp tape
  obtain ⟨m, tape₂, h₂⟩ := hq tape₁
  refine ⟨n + m, tape₂, ?_⟩
  have hsum : (p + q) tape = Producer.withCount p (fun _ => q) tape := rfl
  rw [hsum, Producer.withCount, h₁]
  simp only [h₂]

theorem Producer.succeeds_ins (f : Tape → Tape) : Producer.Succeeds fun tape => some (1, f tape) :=
  fun tape => ⟨1, f tape, rfl⟩

/-- The tree of the formula: it has the value of the formula, and there is code for it. -/
structure Formula.Stands (f : Formula) (e : ExpressionTree) : Prop where
  evaluates : ∀ (cs : Contexts) (c : ContextId) (s : Store) (names : String → Int),
    f.InRange names → f.Bound cs c s names → evaluate cs c e s = some (.int (f.value names), s)
  succeeds : (produceInstructions e).Succeeds
  tidy : (lower e).tidy = true
  -- A negated constant is a case of its own in the producer.
  constant : ∀ token, e = .constant token → ∃ n, tokenToPrimitive token = some (.int n)

/-- The value of a formula that is in range is an `int32_t`. -/
theorem Formula.value_range {f : Formula} {names : String → Int} (h : f.InRange names) :
    -2 ^ 31 ≤ f.value names ∧ f.value names < 2 ^ 31 := by
  induction f with
  | number n =>
    have hlt : n < 2 ^ 31 := h
    rw [value]
    omega
  | name id => exact h
  | negate f ih =>
    obtain ⟨hrange, hhigh⟩ := h
    have hvalue := ih hrange
    rw [value]
    omega
  | binary op f g => exact h.2.2

theorem Formula.wrap32_negate {f : Formula} {names : String → Int} (h : f.InRange names)
    (hhigh : -f.value names < 2 ^ 31) : wrap32 (-f.value names) = -f.value names := by
  have hvalue := Formula.value_range h
  exact wrap32_of_range (by omega) hhigh

namespace Formula.Stands

open Producer

variable {f g : Formula} {e e' : ExpressionTree} {token : Token}

theorem number {n : Nat} (h : token.kind = (.INTEGER, toString n)) :
    (Formula.number n).Stands (.constant token) := by
  have htype : token.type = .INTEGER := congrArg Prod.fst h
  have htext : token.text = toString n := congrArg Prod.snd h
  have hvalue : tokenToPrimitive token = some (.int (wrap32 (strtoll (toString n)))) := by
    rw [tokenToPrimitive, htype, htext]
  constructor
  · intro cs c s names hrange _
    have hlt : n < 2 ^ 31 := hrange
    have hint : wrap32 (strtoll (toString n)) = n := by
      rw [strtoll_toString (by omega)]
      exact wrap32_of_range (by omega) (by omega)
    have harg : Tape.argOfToken token = .val (.int n) := by
      rw [Tape.argOfToken, hvalue, hint]
    rw [evaluate, harg]
    rfl
  · exact succeeds_ins _
  · rfl
  · intro t ht
    cases ht
    exact ⟨_, hvalue⟩

theorem name {id : String} (h : token.kind = (.WORD, id)) :
    (Formula.name id).Stands (.identifier token) := by
  have htype : token.type = .WORD := congrArg Prod.fst h
  have htext : token.text = id := congrArg Prod.snd h
  constructor
  · rintro cs c s names - ⟨⟨htrue, hfalse, hnil⟩, hlookup⟩
    have harg : Tape.argOfToken token = .id id := by
      rw [Tape.argOfToken, tokenToPrimitive, htype]
      simp [htext]
    rw [evaluate, htext, if_neg htrue, if_neg (not_or.mpr ⟨hfalse, hnil⟩), harg, operandValue,
      hlookup]
    rfl
  · rw [produceInstructions, produceIdentifier]
    split
    · exact succeeds_ins _
    · split
      · exact succeeds_ins _
      · exact succeeds_ins _
  · rw [lower, lowerIdentifier]
    split
    · rfl
    · split
      · rfl
      · rfl
  · intro t ht
    cases ht

theorem parentheses (h : f.Stands e) : f.Stands (.primaryExpressionNoConstants e) where
  evaluates cs c s names hrange hbound := by
    rw [evaluate]
    exact h.evaluates cs c s names hrange hbound
  succeeds := by
    rw [produceInstructions]
    exact h.succeeds
  tidy := by
    rw [lower]
    exact h.tidy
  constant t ht := by cases ht

/-- A negated constant is one instruction. -/
theorem negateConstant {t : Token} (h : f.Stands (.constant t)) :
    (Formula.negate f).Stands (.unaryExpression token .negate (.constant t)) := by
  obtain ⟨n, hn⟩ := h.constant t rfl
  constructor
  · rintro cs c s names ⟨hrange, hhigh⟩ hbound
    have hvalue := h.evaluates cs c s names hrange hbound
    rw [evaluate, Tape.argOfToken, hn] at hvalue
    have hint : n = f.value names := by
      simpa [operandValue, Entity.int] using hvalue
    have hwrap : wrap32 (-f.value names) = -f.value names := wrap32_negate hrange hhigh
    rw [evaluate, hn, hint, Formula.value]
    simp only [hwrap]
  · intro tape
    refine ⟨1, tape.add ⟨.RES, .val (.int (wrap32 (-n)))⟩ ⟨t.line, t.col⟩, ?_⟩
    rw [produceInstructions, insNeg, Tape.insNeg, hn]
    rfl
  · rw [lower, lowerNeg, hn]
    rfl
  · intro t ht
    cases ht

/-- Anything else is multiplied by `-1`. -/
theorem negateOther (h : f.Stands e) (hne : ∀ t, e = .constant t → False) :
    (Formula.negate f).Stands (.unaryExpression token .negate e) := by
  constructor
  · rintro cs c s names ⟨hrange, hhigh⟩ hbound
    have hmult : binaryValue .MULT (.int (f.value names)) (.int (-1)) =
        some (.int (-f.value names)) := by
      have hproduct : binaryValue .MULT (.int (f.value names)) (.int (-1)) =
          some (.int (wrap32 (f.value names * -1))) := rfl
      rw [hproduct, Int.mul_neg_one, wrap32_negate hrange hhigh]
    rw [evaluate, h.evaluates cs c s names hrange hbound, Option.bind_some]
    · simp only [hmult]
      rfl
    · exact hne
  · rw [produceInstructions]
    · exact h.succeeds.add (((succeeds_ins _).add (succeeds_ins _)).add (succeeds_ins _))
    · exact fun t _ => hne t
  · rw [lower]
    · rw [Code.tidy_append, h.tidy]
      rfl
    · exact fun t _ => hne t
  · intro t ht
    cases ht

theorem negate (h : f.Stands e) : (Formula.negate f).Stands (.unaryExpression token .negate e) := by
  by_cases hconstant : ∃ t, e = .constant t
  · obtain ⟨t, rfl⟩ := hconstant
    exact h.negateConstant
  · exact h.negateOther fun t ht => hconstant ⟨t, ht⟩

theorem binary (op : FormulaOp) (h : f.Stands e) (h' : g.Stands e') :
    (Formula.binary op f g).Stands (op.level.build e [⟨token, op.type, e'⟩]) := by
  obtain ⟨level, hbuild⟩ : ∃ level, op.level.build e [⟨token, op.type, e'⟩] =
      .biExpression level e [⟨token, op.type, e'⟩] := by
    cases op
    all_goals exact ⟨_, rfl⟩
  obtain ⟨ins, hins, hresult⟩ : ∃ ins, biToIns op.type = some ins ∧ ∀ a b : Int,
      binaryValue ins (.int a) (.int b) = some (.int (wrap32 (op.apply a b))) := by
    cases op with
    | add => exact ⟨.ADD, rfl, fun a b => rfl⟩
    | sub => exact ⟨.SUB, rfl, fun a b => rfl⟩
    | mult => exact ⟨.MULT, rfl, fun a b => rfl⟩
  rw [hbuild]
  constructor
  · rintro cs c s names ⟨hrange, hrange', hlow, hhigh⟩ ⟨hbound, hbound'⟩
    have hrest : evaluateOperators cs c [⟨token, op.type, e'⟩] (.int (f.value names)) s =
        some (.int (op.apply (f.value names) (g.value names)), s) := by
      simp only [evaluateOperators, hins, h'.evaluates cs c s names hrange' hbound', Option.bind_some,
        hresult, wrap32_of_range hlow hhigh]
    rw [evaluate, h.evaluates cs c s names hrange hbound, Option.bind_some]
    exact hrest
  · rw [produceInstructions]
    apply h.succeeds.add
    rw [produceBiSuffixes, hins]
    exact ((((succeeds_ins _).add h'.succeeds).add (succeeds_ins _)).add (succeeds_ins _)).add
      fun tape => ⟨0, tape, rfl⟩
  · rw [lower, Code.tidy_append, h.tidy, lowerBiSuffixes, hins]
    simp only [Code.tidy_append, h'.tidy]
    rfl
  · intro t ht
    cases ht

end Formula.Stands

/-! ## How formulas are read -/

/-- The rules of formulas, the rules of their operands, and the rule around all. -/
def Formula.rules : List Rule :=
  [.postfixExpression, .unaryExpression, .multiplicativeExpression, .additiveExpression]

def Formula.outerRules : List Rule :=
  [.unaryExpression, .binaryOrExpression, .multiplicativeExpression, .conditionalExpression]

theorem Formula.rule_mem (f : Formula) : f.rule ∈ Formula.rules := by
  cases f with
  | number n => simp [rule, rules]
  | name id => simp [rule, rules]
  | negate f => simp [rule, rules]
  | binary op f g =>
    cases op
    all_goals simp [rule, rules, FormulaOp.level, BinaryLevel.expr]

section Loosening

variable {r r' : Rule} {u : List Token} {e : ExpressionTree}

/-- What binds more tightly is written the same for a looser rule. -/
theorem Written.loosen (h : Written r u e) (hr : r ∈ Formula.rules) (hr' : r' ∈ Formula.outerRules)
    (hle : r.rank ≤ r'.rank) : Written r' u e := by
  have hunary : ∀ {r'}, r' ∈ Formula.outerRules → Written .unaryExpression u e →
      Written r' u e := by
    intro r' hr' h
    simp only [Formula.outerRules, List.mem_cons, List.not_mem_nil, or_false] at hr'
    rcases hr' with rfl | rfl | rfl | rfl
    · exact h
    · exact h.factor
    · exact .operand .multiplicative h.factor
    · exact (Written.operand .additive (.operand .multiplicative h.factor)).sum
  simp only [Formula.rules, List.mem_cons, List.not_mem_nil, or_false] at hr
  rcases hr with rfl | rfl | rfl | rfl
  · exact hunary hr' (.unprefixed h)
  · exact hunary hr' h
  · simp only [Formula.outerRules, List.mem_cons, List.not_mem_nil, or_false] at hr'
    rcases hr' with rfl | rfl | rfl | rfl
    · exact absurd hle (by decide)
    · exact absurd hle (by decide)
    · exact h
    · exact (Written.operand .additive h).sum
  · simp only [Formula.outerRules, List.mem_cons, List.not_mem_nil, or_false] at hr'
    rcases hr' with rfl | rfl | rfl | rfl
    · exact absurd hle (by decide)
    · exact absurd hle (by decide)
    · exact absurd hle (by decide)
    · exact h.sum

end Loosening

namespace Formula

theorem enclose_ne_nil {rule operand : Rule} {kinds : List TokenKind} (h : kinds ≠ []) :
    enclose rule operand kinds ≠ [] := by
  unfold enclose
  split
  · exact h
  · exact List.cons_ne_nil _ _

theorem kinds_ne_nil (f : Formula) : f.kinds ≠ [] := by
  cases f with
  | number n => exact List.cons_ne_nil _ _
  | name id => exact List.cons_ne_nil _ _
  | negate f => exact List.cons_ne_nil _ _
  | binary op f g =>
    rw [kinds]
    simp

/-- Only a name is written as a name. -/
theorem rule_of_name {f : Formula} {id : String} (h : f.kinds = [(.WORD, id)]) :
    f.rule = .postfixExpression := by
  cases f with
  | number n => rfl
  | name id => rfl
  | negate f => cases h
  | binary op f g =>
    obtain ⟨first, rest, hfirst⟩ := List.exists_cons_of_ne_nil
      (@enclose_ne_nil f.rule op.level.operand _ f.kinds_ne_nil)
    rw [kinds, hfirst] at h
    simp at h

/-- The rule around all binds the most loosely. -/
theorem written_whole {f : Formula} {u : List Token} {e : ExpressionTree} (h : Written f.rule u e) :
    Written .conditionalExpression u e := by
  have hrules : ∀ r ∈ rules, r.rank ≤ Rule.conditionalExpression.rank := by decide
  exact h.loosen f.rule_mem (by decide) (hrules f.rule f.rule_mem)

/-- The tokens of an operand. -/
theorem written_enclosed {f : Formula} {r : Rule} {u : List Token} (hr : r ∈ outerRules)
    (hf : ∀ u : List Token, u.map Token.kind = f.kinds → ∃ e, Written f.rule u e ∧ f.Stands e)
    (hu : u.map Token.kind = enclose f.rule r f.kinds) : ∃ e, Written r u e ∧ f.Stands e := by
  unfold enclose at hu
  split at hu
  · next hle =>
    obtain ⟨e, hwritten, hstands⟩ := hf u hu
    exact ⟨e, hwritten.loosen f.rule_mem hr hle, hstands⟩
  · next hloose =>
    obtain ⟨lparen, rest, rfl, hlparen, hrest⟩ := List.map_eq_cons_iff.mp hu
    obtain ⟨v, close, rfl, hv, hclose⟩ := List.map_eq_append_iff.mp hrest
    obtain ⟨rparen, behind, rfl, hrparen, hbehind⟩ := List.map_eq_cons_iff.mp hclose
    cases List.map_eq_nil_iff.mp hbehind
    obtain ⟨e, hwritten, hstands⟩ := hf v hv
    have hl : lparen.type = .LPAREN := congrArg Prod.fst hlparen
    have hr' : rparen.type = .RPAREN := congrArg Prod.fst hrparen
    have hparentheses : Written .postfixExpression (lparen :: (v ++ [rparen]))
        (.primaryExpressionNoConstants e) := by
      apply Written.parentheses hl hr' (written_whole hwritten)
      rintro token rfl hword
      have hname : f.kinds = [(.WORD, token.text)] := by
        rw [← hv, ← hword]
        rfl
      rw [rule_of_name hname] at hloose
      exact hloose (Nat.zero_le _)
    exact ⟨_, hparentheses.loosen (by decide) hr (Nat.zero_le _), hstands.parentheses⟩

/-- Tokens that look like the formula stand for a tree of it. -/
theorem written (f : Formula) (u : List Token) (hu : u.map Token.kind = f.kinds) :
    ∃ e, Written f.rule u e ∧ f.Stands e := by
  induction f generalizing u with
  | number n =>
    obtain ⟨token, rest, rfl, htoken, hrest⟩ := List.map_eq_cons_iff.mp hu
    cases List.map_eq_nil_iff.mp hrest
    have hstands := Stands.number htoken
    obtain ⟨value, hvalue⟩ := hstands.constant token rfl
    have htype : token.type = .INTEGER := congrArg Prod.fst htoken
    exact ⟨_, .constant (.inl htype) (by rw [hvalue]; rfl), hstands⟩
  | name id =>
    obtain ⟨token, rest, rfl, htoken, hrest⟩ := List.map_eq_cons_iff.mp hu
    cases List.map_eq_nil_iff.mp hrest
    exact ⟨_, .word (congrArg Prod.fst htoken), Stands.name htoken⟩
  | negate f ih =>
    obtain ⟨op, rest, rfl, hop, hrest⟩ := List.map_eq_cons_iff.mp hu
    obtain ⟨e, hwritten, hstands⟩ := written_enclosed (by decide) ih hrest
    have htype : op.type = .MINUS := congrArg Prod.fst hop
    have hunary : unaryTokenToType op = some .negate := by
      rw [unaryTokenToType, htype]
    have hconst : op.type ≠ .CONST_T := by
      rw [htype]
      decide
    exact ⟨_, .unary hunary hconst hwritten, hstands.negate⟩
  | binary op f g ihf ihg =>
    have houter : op.level.operand ∈ outerRules := by
      cases op
      all_goals decide
    obtain ⟨first, rest, rfl, hfirst, hrest⟩ := List.map_eq_append_iff.mp hu
    obtain ⟨token, second, rfl, htoken, hsecond⟩ := List.map_eq_cons_iff.mp hrest
    obtain ⟨e, hwritten, hstands⟩ := written_enclosed houter ihf hfirst
    obtain ⟨e', hwritten', hstands'⟩ := written_enclosed houter ihg hsecond
    have htype : (token.type, op.type) ∈ op.level.operators := by
      rw [show token.type = op.kind.1 from congrArg Prod.fst htoken]
      cases op
      all_goals decide
    have hchain : Written op.level.expr (chainTokens first [(token, second)])
        (op.level.build e [⟨token, op.type, e'⟩]) := by
      apply Written.chain op.level (List.cons_ne_nil ⟨token, op.type, second, e'⟩ []) hwritten
      · intro x hx
        cases List.mem_singleton.mp hx
        exact htype
      · intro x hx
        cases List.mem_singleton.mp hx
        exact hwritten'
    exact ⟨_, hchain, hstands.binary op hstands'⟩

end Formula

/-! ## How formulas run -/

/-- From the tokens of a formula to its value. -/
theorem Formula.runs {f : Formula} {u : List Token} (hwritten : u.map Token.kind = f.kinds)
    (tape : Tape) : ∃ tree e n tape',
      (∀ after, EndsAt .conditionalExpression after →
        Rule.conditionalExpression.Parses (u ++ after) (some tree) after) ∧
      (∃ k, ∀ k', k ≤ k' → populateExpression k' tree = some e) ∧
      produceInstructions e tape = some (n, tape') ∧
      ∀ (env : Env) (t c : Nat) (m : Memory) (stack : List Entity) (w : World)
        (names : String → Int), f.InRange names → f.Bound m.contexts c m.store names →
        tape'.ins <+: (m.scene stack).tape c → w.At t c tape.ins.length (m.scene stack) →
        ∃ w', Reaches env w w' t c ∧ w'.At t c tape'.ins.length
          ⟨m.store, m.contexts, .int (f.value names), stack⟩ := by
  obtain ⟨e, hexpression, hstands⟩ := f.written u hwritten
  obtain ⟨tree, htree⟩ := (Formula.written_whole hexpression).reads
  obtain ⟨n, tape', hproduce⟩ := hstands.succeeds tape
  refine ⟨tree, e, n, tape', htree.parses, htree.populates, hproduce, ?_⟩
  intro env t c m stack w names hrange hbound hlies hat
  have hgenerates := generates_instructions e
  have hplaced : (Fragment.code (lower e)).Placed ((m.scene stack).tape c) noTargets
      tape.ins.length tape'.ins.length :=
    ⟨hgenerates.placed hproduce hlies, hstands.tidy, hgenerates.length hproduce⟩
  have hnobody : Program.HostedBy (Routines.lower fun _ => none) m.store :=
    fun func body h => by cases h
  have hvalue := hstands.evaluates m.contexts c m.store names hrange hbound
  have heval := evaluate_gets env (fun _ => none) m.contexts c e hvalue m.value
  exact (heval.lowers.value stack).sound ⟨hnobody, hat, hplaced⟩

/-! ## The text of formulas -/

def operatorKinds : List TokenKind :=
  [(.LPAREN, "("), (.RPAREN, ")"), (.PLUS, "+"), (.MINUS, "-"), (.STAR, "*"), (.EQUALS, "=")]

/-- A word that the lexer gives this type. -/
inductive Lexeme : TokenKind → Prop
  | name {id : String} (hname : isName id = true) (hword : wordType id.toList = .WORD) :
    Lexeme (.WORD, id)
  | number (n : Nat) : Lexeme (.INTEGER, toString n)
  | operator {kind : TokenKind} (h : kind ∈ operatorKinds) : Lexeme kind

/-- What stands behind the word is not read with it. -/
def Parted (kind : TokenKind) (rest : List Char) : Prop :=
  match kind.1 with
  | .WORD | .INTEGER => EndsWord rest
  | _ => isComplex (kind.2.toList ++ rest) = false

/-- The words, with blanks where they have to be, and the end of the line. -/
inductive Spaced : List TokenKind → List Char → Prop
  | nil {blanks : List Char} (hblanks : ∀ d ∈ blanks, isWhitespace d = true) :
    Spaced [] (blanks ++ ['\n'])
  | cons {kind : TokenKind} {kinds : List TokenKind} {blanks rest : List Char}
      (hblanks : ∀ d ∈ blanks, isWhitespace d = true) (hparted : Parted kind rest)
      (h : Spaced kinds rest) : Spaced (kind :: kinds) (blanks ++ (kind.2.toList ++ rest))

section Text

variable {escape : Bool} {blanks rest text : List Char} {kind : TokenKind} {kinds : List TokenKind}

theorem Lexes.operator {c : Char} (hblanks : ∀ d ∈ blanks, isWhitespace d = true)
    (hspecial : isSpecialChar c = true) (hc : c ≠ codeCommentCh ∧ c ≠ '\'' ∧ c ≠ '\x00')
    (hparted : isComplex (c :: rest) = false) (h : Lexes escape rest kinds) :
    Lexes escape (blanks ++ c :: rest) ((resolveType [c], String.ofList [c]) :: kinds) := by
  obtain ⟨hcomment, hquote, hnul⟩ := hc
  have hmunch : Munches c [] rest := .single (by rw [hspecial]; rfl) hparted
  have hword := Lexes.word hblanks hmunch hcomment hquote h
  rw [wordText_eq (by simpa using Ne.symm hnul)] at hword
  exact hword

theorem Lexeme.lexes (hkind : Lexeme kind) (hblanks : ∀ d ∈ blanks, isWhitespace d = true)
    (hparted : Parted kind rest) (h : Lexes escape rest kinds) :
    Lexes escape (blanks ++ (kind.2.toList ++ rest)) (kind :: kinds) := by
  cases hkind with
  | name hname hword =>
    have hlexes := Lexes.name hblanks hname hparted h
    rw [nameKind, hword] at hlexes
    exact hlexes
  | number n =>
    obtain ⟨c, digits, hchars, hdigits⟩ := natDigits n
    have hlexes := Lexes.digits hblanks hdigits hparted h
    rw [← hchars, String.ofList_toList] at hlexes
    rw [hchars]
    exact hlexes
  | operator hmem =>
    simp only [operatorKinds, List.mem_cons, List.not_mem_nil, or_false] at hmem
    rcases hmem with rfl | rfl | rfl | rfl | rfl | rfl
    all_goals exact Lexes.operator hblanks rfl (by decide) hparted h

/-- The words of a line in order. -/
theorem Spaced.lexes (h : Spaced kinds text) (hkinds : ∀ kind ∈ kinds, Lexeme kind) :
    Lexes escape text kinds := by
  induction h with
  | nil hblanks => exact Lexes.newline hblanks
  | cons hblanks hparted h ih =>
    have hrest := ih fun kind hmem => hkinds kind (List.mem_cons_of_mem _ hmem)
    exact (hkinds _ List.mem_cons_self).lexes hblanks hparted hrest

theorem Lexeme.type_ne (h : Lexeme kind) : kind.1 ≠ .ENDLINE ∧ kind.1 ≠ .BSLASH := by
  cases h with
  | name hname hword =>
    constructor
    all_goals
      intro h
      cases h
  | number n =>
    constructor
    all_goals
      intro h
      cases h
  | operator hmem =>
    have hall : ∀ kind ∈ operatorKinds, kind.1 ≠ .ENDLINE ∧ kind.1 ≠ .BSLASH := by decide
    exact hall kind hmem

end Text

namespace Formula

theorem lexeme_enclosed {rule operand : Rule} {kinds : List TokenKind}
    (h : ∀ kind ∈ kinds, Lexeme kind) : ∀ kind ∈ enclose rule operand kinds, Lexeme kind := by
  unfold enclose
  split
  · exact h
  · intro kind hmem
    rcases List.mem_cons.mp hmem with rfl | hmem
    · exact .operator (by decide)
    · rcases List.mem_append.mp hmem with hmem | hmem
      · exact h kind hmem
      · cases List.mem_singleton.mp hmem
        exact .operator (by decide)

theorem lexeme_kinds {f : Formula} (h : f.Readable) : ∀ kind ∈ f.kinds, Lexeme kind := by
  induction f with
  | number n =>
    intro kind hmem
    cases List.mem_singleton.mp hmem
    exact .number n
  | name id =>
    intro kind hmem
    cases List.mem_singleton.mp hmem
    exact .name h.1 h.2
  | negate f ih =>
    intro kind hmem
    rcases List.mem_cons.mp hmem with rfl | hmem
    · exact .operator (by decide)
    · exact lexeme_enclosed (ih h) kind hmem
  | binary op f g ihf ihg =>
    intro kind hmem
    rcases List.mem_append.mp hmem with hmem | hmem
    · exact lexeme_enclosed (ihf h.1) kind hmem
    · rcases List.mem_cons.mp hmem with rfl | hmem
      · cases op
        all_goals exact .operator (by decide)
      · exact lexeme_enclosed (ihg h.2) kind hmem

end Formula

/-- A newline ends an expression, unless the next line begins with a period. -/
theorem ends_line {endline : Token} {after : List Token} (hline : endline.type = .ENDLINE)
    (hafter : ∀ next ∈ after.head?, next.type ≠ .PERIOD) :
    EndsAt .conditionalExpression (endline :: after) where
  head token h := by
    cases h
    rw [hline]
    decide
  line token next rest h _ := by
    cases h
    exact hafter next rfl

/-- From the text of a line to an integer: `lex_line` queues the tokens of the formula, the parser
reads them up to the newline, the populator and the producers make code of the tree, and wherever
this code lies the machine computes the integer that the formula stands for, if no part of it leaves
the range of `int32_t`. -/
theorem formula_line_runs {f : Formula} {dequeue : List Token → List Token} {lexer : Lexer}
    {li : LineInfo} {fi : List LineInfo} (hreadable : f.Readable) (hfi : lexer.fi = li :: fi)
    (hline : Spaced f.kinds li.lineText) (tape : Tape) :
    ∃ u endline tree e n tape',
      (Lexer.lexLine dequeue lexer).ending = .done true ∧
      (Lexer.lexLine dequeue lexer).lexer =
        ({ lexer with fi := fi } : Lexer).enqueueAll (u ++ [endline]) ∧
      (∀ after : List Token, (∀ next ∈ after.head?, next.type ≠ .PERIOD) →
        Rule.conditionalExpression.Parses (u ++ endline :: after) (some tree) (endline :: after)) ∧
      (∃ k, ∀ k', k ≤ k' → populateExpression k' tree = some e) ∧
      produceInstructions e tape = some (n, tape') ∧
      ∀ (env : Env) (t c : Nat) (m : Memory) (stack : List Entity) (w : World)
        (names : String → Int), f.InRange names → f.Bound m.contexts c m.store names →
        tape'.ins <+: (m.scene stack).tape c → w.At t c tape.ins.length (m.scene stack) →
        ∃ w', Reaches env w w' t c ∧ w'.At t c tape'.ins.length
          ⟨m.store, m.contexts, .int (f.value names), stack⟩ := by
  have hlexemes := Formula.lexeme_kinds hreadable
  obtain ⟨last, hlast⟩ : ∃ last, f.kinds.getLast? = some last :=
    ⟨_, List.getLast?_eq_some_getLast f.kinds_ne_nil⟩
  obtain ⟨toks, htoks, hending, hlexer⟩ := @Lexer.lexLine_lexes dequeue lexer li fi f.kinds hfi
    (hline.lexes hlexemes) last hlast (hlexemes last (List.mem_of_getLast? hlast)).type_ne.2
    fun kind hmem => (hlexemes kind hmem).type_ne.1
  obtain ⟨u, ends, rfl, hu, hends⟩ := List.map_eq_append_iff.mp htoks
  obtain ⟨endline, behind, rfl, hendline, hbehind⟩ := List.map_eq_cons_iff.mp hends
  cases List.map_eq_nil_iff.mp hbehind
  obtain ⟨tree, e, n, tape', hparses, hpopulates, hproduce, hruns⟩ := f.runs hu tape
  have htype : endline.type = .ENDLINE := congrArg Prod.fst hendline
  refine ⟨u, endline, tree, e, n, tape', hending, hlexer, ?_, hpopulates, hproduce, hruns⟩
  intro after hafter
  exact hparses (endline :: after) (ends_line htype hafter)

/-- A task at the start of the code of the tape, with two values on its stack. -/
def formulaWorld (tape : Tape) : World :=
  codeWorld tape.ins (fun _ => ⟨.Object, .empty, .none⟩) .none [.int 5, .int 6]

def formulaMemory (tape : Tape) : Memory :=
  ⟨(formulaWorld tape).store, (formulaWorld tape).contexts.view, .none⟩

theorem formulaWorld_at (tape : Tape) :
    (formulaWorld tape).At 0 0 0 ((formulaMemory tape).scene [.int 5, .int 6]) := by
  refine ⟨rfl, ⟨rfl, rfl, Nat.zero_lt_one, Nat.zero_lt_one⟩, rfl, rfl, rfl, rfl, rfl, ?_, ?_⟩
  · intro id hid
    cases hid
  · intro id hid
    cases hid

/-- `2 + 3` -/
def sumFormula : Formula := .binary .add (.number 2) (.number 3)

/-- `-4` -/
def minusFour : Formula := .negate (.number 4)

/-- `(2 + 3) * -4` -/
def productFormula : Formula := .binary .mult sumFormula minusFour

def productLine : LineInfo where
  lineText := ['(', '2', ' ', '+', ' ', '3', ')', ' ', '*', ' ', '-', '4', '\n']
  lineNum := 1
  terminated := by decide
  oneLine := by decide

theorem endsWord_char {c : Char} {rest : List Char}
    (h : isAlphanumeric c = false ∧ (isNumber c || c == 'f') = false) : EndsWord (c :: rest) := by
  intro d hd
  cases hd
  exact h

theorem productLine_spaced : Spaced productFormula.kinds productLine.lineText := by
  have hempty : ∀ d ∈ ([] : List Char), isWhitespace d = true := List.forall_mem_nil _
  have hblank : ∀ d ∈ [' '], isWhitespace d = true := List.forall_mem_singleton.mpr rfl
  refine @Spaced.cons (.LPAREN, "(") _ [] _ hempty rfl ?_
  refine @Spaced.cons (.INTEGER, "2") _ [] _ hempty (endsWord_char (by decide)) ?_
  refine @Spaced.cons (.PLUS, "+") _ [' '] _ hblank rfl ?_
  refine @Spaced.cons (.INTEGER, "3") _ [' '] _ hblank (endsWord_char (by decide)) ?_
  refine @Spaced.cons (.RPAREN, ")") _ [] _ hempty rfl ?_
  refine @Spaced.cons (.STAR, "*") _ [' '] _ hblank rfl ?_
  refine @Spaced.cons (.MINUS, "-") _ [' '] _ hblank rfl ?_
  refine @Spaced.cons (.INTEGER, "4") _ [] _ hempty (endsWord_char (by decide)) ?_
  exact @Spaced.nil [] hempty

theorem productFormula_inRange : productFormula.InRange fun _ => 0 := by
  simp [productFormula, sumFormula, minusFour, Formula.InRange, Formula.value, FormulaOp.apply]

theorem formula_line_runs_product : ∃ u endline tree e n tape',
    (Lexer.lexLine id ⟨[productLine], false, [], []⟩).lexer.q = u ++ [endline] ∧
      Rule.conditionalExpression.Parses (u ++ [endline]) (some tree) [endline] ∧
      (∃ k, ∀ k', k ≤ k' → populateExpression k' tree = some e) ∧
      produceInstructions e Tape.create = some (n, tape') ∧
      ∃ w, Reaches noNatives (formulaWorld tape') w 0 0 ∧ w.At 0 0 tape'.ins.length
        ⟨(formulaMemory tape').store, (formulaMemory tape').contexts, .int (-20),
          [.int 5, .int 6]⟩ := by
  obtain ⟨u, endline, tree, e, n, tape', -, hlexer, hparses, hpopulates, hproduce, hruns⟩ :=
    @formula_line_runs productFormula id ⟨[productLine], false, [], []⟩ productLine []
      ⟨⟨trivial, trivial⟩, trivial⟩ rfl productLine_spaced Tape.create
  refine ⟨u, endline, tree, e, n, tape', congrArg Lexer.q hlexer, hparses [] (by simp), hpopulates,
    hproduce, ?_⟩
  exact hruns noNatives 0 0 (formulaMemory tape') [.int 5, .int 6] (formulaWorld tape') (fun _ => 0)
    productFormula_inRange
    ⟨⟨trivial, trivial⟩, trivial⟩ (List.prefix_refl _) (formulaWorld_at tape')

end JeffVm
