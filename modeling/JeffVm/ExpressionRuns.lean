import JeffVm.Compiled

/-!
# Expressions that calculate

The code of an expression of operators, `and` and `or`, conditionals, tuples and arrays either
leaves the value of the expression or comes to an operator that has no value of its operands.
-/

set_option autoImplicit false

namespace JeffVm

/-! ## Operators without a value -/

/-- The code in context `c` comes to an operator that has no value of its two operands. -/
inductive Stumbles (env : Env) (program : Program) (c : ContextId) : Fragment → Scene → Prop where
  | operator {op : Op} {type : BiType} {first second : Entity} {stack : List Entity} {s : Scene} :
    biToIns type = some op → s.stack = second :: first :: stack →
    binaryValue op first second = none → Stumbles env program c (.code (opCode op)) s
  | seqFirst {a b : Code} {s : Scene} :
    Stumbles env program c (.code a) s → Stumbles env program c (.code (.seq a b)) s
  | seqSecond {a b : Code} {s s₁ : Scene} :
    Exec env program c (.code a) s .normal s₁ → Stumbles env program c (.code b) s₁ →
    Stumbles env program c (.code (.seq a b)) s
  | skipInto {test : Test} {body : Code} {s : Scene} :
    test.jumps s.resval = false → Stumbles env program c (.code body) s →
    Stumbles env program c (.code (.skip test body)) s
  | ifThen {branches : Branches} {s : Scene} :
    Stumbles env program c (.cases branches none) s →
    Stumbles env program c (.code (.ifThen branches)) s
  | ifElse {branches : Branches} {otherwise : Code} {s : Scene} :
    Stumbles env program c (.cases branches (some otherwise)) s →
    Stumbles env program c (.code (.ifElse branches otherwise)) s
  | lastCondition {condition body : Code} {otherwise : Option Code} {s : Scene} :
    Stumbles env program c (.code condition) s →
    Stumbles env program c (.cases (.last condition body) otherwise) s
  | lastThen {condition body : Code} {otherwise : Option Code} {s s₁ : Scene} :
    Exec env program c (.code condition) s .normal s₁ → s₁.resval.isNone = false →
    Stumbles env program c (.code body) s₁ →
    Stumbles env program c (.cases (.last condition body) otherwise) s
  | lastElse {condition body otherwise : Code} {s s₁ : Scene} :
    Exec env program c (.code condition) s .normal s₁ → s₁.resval.isNone = true →
    Stumbles env program c (.code otherwise) s₁ →
    Stumbles env program c (.cases (.last condition body) (some otherwise)) s
  | moreCondition {condition body : Code} {rest : Branches} {otherwise : Option Code} {s : Scene} :
    Stumbles env program c (.code condition) s →
    Stumbles env program c (.cases (.more condition body rest) otherwise) s
  | moreThen {condition body : Code} {rest : Branches} {otherwise : Option Code} {s s₁ : Scene} :
    Exec env program c (.code condition) s .normal s₁ → s₁.resval.isNone = false →
    Stumbles env program c (.code body) s₁ →
    Stumbles env program c (.cases (.more condition body rest) otherwise) s
  | moreRest {condition body : Code} {rest : Branches} {otherwise : Option Code} {s s₁ : Scene} :
    Exec env program c (.code condition) s .normal s₁ → s₁.resval.isNone = true →
    Stumbles env program c (.cases rest otherwise) s₁ →
    Stumbles env program c (.cases (.more condition body rest) otherwise) s

/-- From the world the task gets between `start` and `stop` to an operator without a value. -/
def StopsAtOperator (env : Env) (w : World) (t c : Nat) (start stop : Nat) : Prop :=
  ∃ w' pos s op type first second stack, Reaches env w w' t c ∧ start ≤ pos ∧ pos < stop ∧
    w'.At t c pos s ∧ (s.tape c)[pos]? = some ⟨op, .noArg⟩ ∧ biToIns type = some op ∧
    s.stack = second :: first :: stack ∧ binaryValue op first second = none

section

variable {env : Env} {program : Program} {w w₁ : World} {t c : Nat} {targets targets' : Targets}
  {start stop start' stop' pos pos' : Nat} {s s₁ : Scene} {fragment fragment' : Fragment}
  {a b condition body : Code} {branches rest : Branches} {otherwise : Option Code}

theorem StopsAtOperator.after (h : StopsAtOperator env w₁ t c start' stop')
    (hreaches : Reaches env w w₁ t c) (hstart : start ≤ start') (hstop : stop' ≤ stop) :
    StopsAtOperator env w t c start stop := by
  obtain ⟨w', pos, s, op, type, first, second, stack, hreaches', hle, hlt, hat, hrest⟩ := h
  exact ⟨w', pos, s, op, type, first, second, stack, hreaches.trans hreaches', by omega, by omega,
    hat, hrest⟩

/-- Wherever the fragment stands, the machine gets to an operator in it that has no value. -/
def StumblesIn (env : Env) (program : Program) (c : Nat) (fragment : Fragment) (s : Scene) :
    Prop :=
  ∀ {w : World} {t : Nat} {targets : Targets} {start stop : Nat},
    Begins program w t c targets start stop fragment s → StopsAtOperator env w t c start stop

/-- A part of the code that the machine gets to. -/
theorem StumblesIn.later (h : StumblesIn env program c fragment' s₁)
    (hbegins : Begins program w t c targets start stop fragment s)
    (hreaches : Reaches env w w₁ t c) (hat : w₁.At t c start' s₁)
    (hplaced : fragment'.Placed (s.tape c) targets' start' stop') (hstart : start ≤ start')
    (hstop : stop' ≤ stop) : StopsAtOperator env w t c start stop :=
  (h (hbegins.next hreaches hat hplaced)).after hreaches hstart hstop

/-- A part of the code at its start. -/
theorem StumblesIn.first (h : StumblesIn env program c fragment' s)
    (hbegins : Begins program w t c targets start stop fragment s)
    (hplaced : fragment'.Placed (s.tape c) targets' start stop') (hstop : stop' ≤ stop) :
    StopsAtOperator env w t c start stop :=
  h.later hbegins (.refl env w t c) hbegins.at_ hplaced (Nat.le_refl start) hstop

theorem Fragment.Placed.le {tape : List Instruction}
    (h : (Fragment.code a).Placed tape targets start stop) : start ≤ stop := by
  obtain ⟨-, -, rfl⟩ := h
  exact Nat.le_add_right _ _

theorem StumblesIn.operator {op : Op} {type : BiType} {first second : Entity}
    {stack : List Entity} (htype : biToIns type = some op)
    (hstack : s.stack = second :: first :: stack) (hvalue : binaryValue op first second = none) :
    StumblesIn env program c (.code (opCode op)) s := by
  intro w t targets start stop h
  obtain ⟨hins, rfl⟩ := Begins.plain h
  exact ⟨w, start, s, op, type, first, second, stack, .refl env w t c, Nat.le_refl start,
    Nat.lt_succ_self start, h.at_, hins, htype, hstack, hvalue⟩

theorem StumblesIn.seqFirst (ha : StumblesIn env program c (.code a) s) :
    StumblesIn env program c (.code (.seq a b)) s := by
  intro w t targets start stop h
  obtain ⟨hfirst, hsecond⟩ := h.seq
  exact ha.first h hfirst hsecond.le

theorem StumblesIn.seqSecond (ha : RunsAs env program c (.code a) s .normal s₁)
    (hb : StumblesIn env program c (.code b) s₁) :
    StumblesIn env program c (.code (.seq a b)) s := by
  intro w t targets start stop h
  obtain ⟨hfirst, hsecond⟩ := h.seq
  obtain ⟨w₁, hreaches, hat⟩ := ha (h.part hfirst)
  exact hb.later h hreaches hat hsecond hfirst.le (Nat.le_refl stop)

theorem StumblesIn.skipInto {test : Test} (hjumps : test.jumps s.resval = false)
    (hbody : StumblesIn env program c (.code body) s) :
    StumblesIn env program c (.code (.skip test body)) s := by
  intro w t targets start stop h
  obtain ⟨⟨w₁, hreaches, hat⟩, hplaced⟩ := h.skip env
  rw [hjumps] at hat
  exact hbody.later h hreaches hat hplaced (Nat.le_succ start) (Nat.le_refl stop)

/-- The body of the branch that is taken. -/
theorem StumblesIn.taken {test : Test}
    (hbranch : BranchPlaced (s.tape c) targets start stop pos condition body test pos')
    (h : Begins program w t c targets start stop fragment s)
    (hcondition : RunsAs env program c (.code condition) s .normal s₁)
    (hbody : StumblesIn env program c (.code body) s₁)
    (htaken : pos = if test.jumps s₁.resval then pos' else start + condition.size + 1) :
    StopsAtOperator env w t c start stop := by
  obtain ⟨w₁, hreaches, hat⟩ := hbranch.passed h hcondition
  rw [← htaken] at hat
  exact hbody.later h hreaches hat hbranch.bodyPlaced hbranch.inside.1 hbranch.inside.2.1

theorem StumblesIn.lastCondition (h : StumblesIn env program c (.code condition) s) :
    StumblesIn env program c (.cases (.last condition body) otherwise) s := by
  intro w t targets start stop hbegins
  obtain ⟨pos', hbranch, -⟩ := hbegins.last
  exact h.first hbegins hbranch.conditionPlaced hbranch.inside.2.2

theorem StumblesIn.lastThen (hcondition : RunsAs env program c (.code condition) s .normal s₁)
    (hsome : s₁.resval.isNone = false) (hbody : StumblesIn env program c (.code body) s₁) :
    StumblesIn env program c (.cases (.last condition body) otherwise) s := by
  intro w t targets start stop h
  obtain ⟨pos', hbranch, -⟩ := h.last
  refine StumblesIn.taken hbranch h hcondition hbody ?_
  rw [Test.jumps, hsome]
  rfl

theorem StumblesIn.lastElse (hcondition : RunsAs env program c (.code condition) s .normal s₁)
    (hnone : s₁.resval.isNone = true) (helse : StumblesIn env program c (.code a) s₁) :
    StumblesIn env program c (.cases (.last condition body) (some a)) s := by
  intro w t targets start stop h
  obtain ⟨pos', hbranch, hplaced⟩ := h.last
  obtain ⟨w₁, hreaches, hat⟩ := hbranch.passed h hcondition
  rw [Test.jumps, hnone] at hat
  exact helse.later h hreaches hat hplaced hbranch.ahead (Nat.le_refl stop)

theorem StumblesIn.moreCondition (h : StumblesIn env program c (.code condition) s) :
    StumblesIn env program c (.cases (.more condition body rest) otherwise) s := by
  intro w t targets start stop hbegins
  obtain ⟨pos', hbranch, -⟩ := hbegins.more
  exact h.first hbegins hbranch.conditionPlaced hbranch.inside.2.2

theorem StumblesIn.moreThen (hcondition : RunsAs env program c (.code condition) s .normal s₁)
    (hsome : s₁.resval.isNone = false) (hbody : StumblesIn env program c (.code body) s₁) :
    StumblesIn env program c (.cases (.more condition body rest) otherwise) s := by
  intro w t targets start stop h
  obtain ⟨pos', hbranch, -⟩ := h.more
  refine StumblesIn.taken hbranch h hcondition hbody ?_
  rw [Test.jumps, hsome]
  rfl

theorem StumblesIn.moreRest (hcondition : RunsAs env program c (.code condition) s .normal s₁)
    (hnone : s₁.resval.isNone = true)
    (hrest : StumblesIn env program c (.cases rest otherwise) s₁) :
    StumblesIn env program c (.cases (.more condition body rest) otherwise) s := by
  intro w t targets start stop h
  obtain ⟨pos', hbranch, hplaced⟩ := h.more
  obtain ⟨w₁, hreaches, hat⟩ := hbranch.passed h hcondition
  have hfalls : Test.jumps .IF s₁.resval = false := by
    rw [Test.jumps, hnone]
    rfl
  have hstart : start ≤ start + condition.size + 1 := by omega
  rw [hfalls] at hat
  exact hrest.later h hreaches hat hplaced hstart (Nat.le_refl stop)

end

/-- Code that comes to an operator without a value does so on the machine. -/
theorem Stumbles.sound {env : Env} {program : Program} {c : ContextId} {fragment : Fragment}
    {s : Scene} (h : Stumbles env program c fragment s) : StumblesIn env program c fragment s := by
  induction h with
  | operator htype hstack hvalue => exact StumblesIn.operator htype hstack hvalue
  | seqFirst _ ih => exact StumblesIn.seqFirst ih
  | seqSecond ha _ ih => exact StumblesIn.seqSecond ha.sound ih
  | skipInto hjumps _ ih => exact StumblesIn.skipInto hjumps ih
  | ifThen _ ih =>
    intro w t targets start stop hbegins
    exact ih (hbegins.part hbegins.ifThen)
  | ifElse _ ih =>
    intro w t targets start stop hbegins
    exact ih (hbegins.part hbegins.ifElse)
  | lastCondition _ ih => exact StumblesIn.lastCondition ih
  | lastThen hcondition hsome _ ih => exact StumblesIn.lastThen hcondition.sound hsome ih
  | lastElse hcondition hnone _ ih => exact StumblesIn.lastElse hcondition.sound hnone ih
  | moreCondition _ ih => exact StumblesIn.moreCondition ih
  | moreThen hcondition hsome _ ih => exact StumblesIn.moreThen hcondition.sound hsome ih
  | moreRest hcondition hnone _ ih => exact StumblesIn.moreRest hcondition.sound hnone ih

/-! ## Which expressions calculate -/

mutual

/-- Names, constants, parentheses, `~`, chains of operators, `and` and `or`, conditionals, tuples
and arrays. -/
def calculates : ExpressionTree → Bool
  | .identifier _ => true
  | .constant _ => true
  | .tupleExpression _ list => allCalculate list
  | .arrayDeclaration _ exp =>
    match exp with
    | none => true
    | some exp => calculates exp
  | .primaryExpression exp => calculates exp
  | .primaryExpressionNoConstants exp => calculates exp
  | .unaryExpression _ type exp =>
    match type with
    | .not => calculates exp
    | _ => false
  | .biExpression _ exp suffixes => calculates exp && operatorsCalculate suffixes
  | .andExpression exp suffixes => calculates exp && suffixesCalculate suffixes
  | .orExpression exp suffixes => calculates exp && suffixesCalculate suffixes
  | .conditionalExpression ifElse => ifElseCalculates ifElse
  | _ => false

def allCalculate : List ExpressionTree → Bool
  | [] => true
  | elt :: rest => calculates elt && allCalculate rest

def operatorsCalculate : List BiSuffix → Bool
  | [] => true
  | ⟨_, type, exp⟩ :: rest => (biToIns type).isSome && calculates exp && operatorsCalculate rest

def suffixesCalculate : List BiSuffix → Bool
  | [] => true
  | ⟨_, _, exp⟩ :: rest => calculates exp && suffixesCalculate rest

def conditionalCalculates : Conditional → Bool
  | ⟨_, condition, body⟩ => calculates condition && calculates body

def conditionalsCalculate : List Conditional → Bool
  | [] => true
  | cond :: rest => conditionalCalculates cond && conditionalsCalculate rest

def ifElseCalculates : IfElse → Bool
  | ⟨first, rest, none⟩ => conditionalCalculates first && conditionalsCalculate rest
  | ⟨first, rest, some e⟩ =>
    conditionalCalculates first && conditionalsCalculate rest && calculates e

end

mutual

theorem callsNothing_of_calculates : ∀ e : ExpressionTree, calculates e = true →
    callsNothing e = true
  | .identifier _, _ => rfl
  | .constant _, _ => rfl
  | .tupleExpression _ list, h => callNothing_of_calculate list h
  | .arrayDeclaration _ none, _ => rfl
  | .arrayDeclaration _ (some exp), h => callsNothing_of_calculates exp h
  | .primaryExpression exp, h => callsNothing_of_calculates exp h
  | .primaryExpressionNoConstants exp, h => callsNothing_of_calculates exp h
  | .unaryExpression _ .not exp, h => callsNothing_of_calculates exp h
  | .biExpression _ exp suffixes, h => by
    rw [calculates, Bool.and_eq_true] at h
    rw [callsNothing, callsNothing_of_calculates exp h.1,
      suffixesCallNothing_of_operators suffixes h.2]
    rfl
  | .andExpression exp suffixes, h => by
    rw [calculates, Bool.and_eq_true] at h
    rw [callsNothing, callsNothing_of_calculates exp h.1,
      suffixesCallNothing_of_calculate suffixes h.2]
    rfl
  | .orExpression exp suffixes, h => by
    rw [calculates, Bool.and_eq_true] at h
    rw [callsNothing, callsNothing_of_calculates exp h.1,
      suffixesCallNothing_of_calculate suffixes h.2]
    rfl
  | .conditionalExpression ifElse, h => ifElseCallsNothing_of_calculates ifElse h
  | .unaryExpression _ .unknown _, h => by cases h
  | .unaryExpression _ .notc _, h => by cases h
  | .unaryExpression _ .negate _, h => by cases h
  | .unaryExpression _ .const _, h => by cases h
  | .unaryExpression _ .await _, h => by cases h
  | .stringLiteral _, h => by cases h
  | .mapDeclaration _ _, h => by cases h
  | .postfixExpression _ _, h => by cases h
  | .rangeExpression _ _ _ _, h => by cases h
  | .inExpression _ _ _ _, h => by cases h
  | .isExpression _ _ _, h => by cases h
  | .anonFunctionDefinition _, h => by cases h
  | .assignmentExpression _ _ _, h => by cases h
  | .foreachStatement _ _ _ _ _, h => by cases h
  | .forStatement _ _ _ _ _, h => by cases h
  | .whileStatement _ _ _, h => by cases h
  | .compoundStatement _, h => by cases h
  | .tryStatement _ _ _ _ _, h => by cases h
  | .raiseStatement _ _, h => by cases h
  | .selectionStatement _, h => by cases h
  | .jumpStatement _ _, h => by cases h
  | .breakStatement _ _, h => by cases h
  | .exitStatement _, h => by cases h

theorem callNothing_of_calculate : ∀ list : List ExpressionTree, allCalculate list = true →
    callNothing list = true
  | [], _ => rfl
  | elt :: rest, h => by
    rw [allCalculate, Bool.and_eq_true] at h
    rw [callNothing, callsNothing_of_calculates elt h.1, callNothing_of_calculate rest h.2]
    rfl

theorem suffixesCallNothing_of_operators : ∀ suffixes : List BiSuffix,
    operatorsCalculate suffixes = true → suffixesCallNothing suffixes = true
  | [], _ => rfl
  | ⟨_, type, exp⟩ :: rest, h => by
    rw [operatorsCalculate, Bool.and_eq_true, Bool.and_eq_true] at h
    rw [suffixesCallNothing, callsNothing_of_calculates exp h.1.2,
      suffixesCallNothing_of_operators rest h.2]
    rfl

theorem suffixesCallNothing_of_calculate : ∀ suffixes : List BiSuffix,
    suffixesCalculate suffixes = true → suffixesCallNothing suffixes = true
  | [], _ => rfl
  | ⟨_, type, exp⟩ :: rest, h => by
    rw [suffixesCalculate, Bool.and_eq_true] at h
    rw [suffixesCallNothing, callsNothing_of_calculates exp h.1,
      suffixesCallNothing_of_calculate rest h.2]
    rfl

theorem conditionalCallsNothing_of_calculates : ∀ cond : Conditional,
    conditionalCalculates cond = true → conditionalCallsNothing cond = true
  | ⟨_, condition, body⟩, h => by
    rw [conditionalCalculates, Bool.and_eq_true] at h
    rw [conditionalCallsNothing, callsNothing_of_calculates condition h.1,
      callsNothing_of_calculates body h.2]
    rfl

theorem conditionalsCallNothing_of_calculate : ∀ conds : List Conditional,
    conditionalsCalculate conds = true → conditionalsCallNothing conds = true
  | [], _ => rfl
  | cond :: rest, h => by
    rw [conditionalsCalculate, Bool.and_eq_true] at h
    rw [conditionalsCallNothing, conditionalCallsNothing_of_calculates cond h.1,
      conditionalsCallNothing_of_calculate rest h.2]
    rfl

theorem ifElseCallsNothing_of_calculates : ∀ ifElse : IfElse, ifElseCalculates ifElse = true →
    ifElseCallsNothing ifElse = true
  | ⟨first, rest, none⟩, h => by
    rw [ifElseCalculates, Bool.and_eq_true] at h
    rw [ifElseCallsNothing, conditionalCallsNothing_of_calculates first h.1,
      conditionalsCallNothing_of_calculate rest h.2]
    rfl
  | ⟨first, rest, some e⟩, h => by
    rw [ifElseCalculates, Bool.and_eq_true, Bool.and_eq_true] at h
    rw [ifElseCallsNothing, conditionalCallsNothing_of_calculates first h.1.1,
      conditionalsCallNothing_of_calculate rest h.1.2, callsNothing_of_calculates e h.2]
    rfl

end

/-! ## Where an expression has no value -/

/-- The code of the phrase comes to an operator without a value, whatever the value before was. -/
def NoValue (env : Env) (routines : Routines) (cs : Contexts) (c : ContextId) (phrase : Phrase)
    (s : Store) : Prop :=
  ∀ value stack, Stumbles env routines.lower c phrase.lower ((Memory.mk s cs value).scene stack)

/-- Where a condition does not hold and there is no value after it, the branches after it come to
an operator without a value. -/
def NoOtherwise (env : Env) (routines : Routines) (cs : Contexts) (c : ContextId)
    (rest : List Conditional) (elseExp : Option ExpressionTree)
    (otherwise : Entity → Store → Option (Entity × Store)) : Prop :=
  ∀ (cond : Conditional) (m : Memory) (condition : Entity) (s : Store) (stack : List Entity),
    Exec env routines.lower c (.code (lower cond.condition)) (m.scene stack) .normal
      ((Memory.mk s cs condition).scene stack) → condition.isNone = true →
    otherwise condition s = none →
      Stumbles env routines.lower c (Phrase.branches cond rest elseExp).lower (m.scene stack)

section Parts

variable {env : Env} {routines : Routines} {cs : Contexts} {c : ContextId} {s : Store}
  {e : ExpressionTree} {value : Entity} {r : Entity × Store}

theorem exec_of_evaluate (env : Env) (routines : Routines) (h : evaluate cs c e s = some r)
    (value : Entity) (stack : List Entity) : Exec env routines.lower c (.code (lower e))
      ((Memory.mk s cs value).scene stack) .normal ((Memory.mk r.2 cs r.1).scene stack) :=
  (evaluate_gets env routines cs c e h value).lowers.value stack

theorem operandValue_ne_none (cs : Contexts) (c : ContextId) (s : Store) (token : Token) :
    operandValue cs c s (Tape.argOfToken token) ≠ none := by
  intro h
  unfold Tape.argOfToken at h
  cases hprimitive : tokenToPrimitive token with
  | some p =>
    rw [hprimitive] at h
    cases h
  | none =>
    rw [hprimitive] at h
    dsimp only at h
    split at h <;> cases h

theorem NoValue.arraySingle {token : Token} {exp : ExpressionTree}
    (hexp : ∀ tupleToken list, exp ≠ .tupleExpression tupleToken list)
    (hvalue : ∀ {s}, evaluate cs c exp s = none → NoValue env routines cs c (.tree exp) s)
    (h : evaluate cs c (.arrayDeclaration token (some exp)) s = none) :
    NoValue env routines cs c (.tree (.arrayDeclaration token (some exp))) s := by
  intro value stack
  rw [evaluate_arraySingle hexp] at h
  rw [Phrase.lower, lower_arraySingle hexp]
  exact .seqFirst (.seqFirst (hvalue (Option.map_eq_none_iff.mp h) value stack))

theorem NoValue.ifElse {ifElse : IfElse}
    (h : NoValue env routines cs c (.branches ifElse.first ifElse.rest ifElse.elseExp) s) :
    NoValue env routines cs c (.tree (.conditionalExpression ifElse)) s := by
  obtain ⟨first, rest, elseExp⟩ := ifElse
  intro value stack
  have hbranches := h value stack
  cases elseExp with
  | none => exact .ifThen hbranches
  | some e => exact .ifElse hbranches

theorem NoOtherwise.noElse :
    NoOtherwise env routines cs c [] none (fun condition s => some (condition, s)) := by
  intro cond m condition s stack hcondition hnone h
  cases h

theorem NoOtherwise.withElse
    (he : ∀ {s}, evaluate cs c e s = none → NoValue env routines cs c (.tree e) s) :
    NoOtherwise env routines cs c [] (some e) (fun _ s => evaluate cs c e s) := by
  rintro ⟨ifToken, exp, body⟩ m condition s stack hcondition hnone h
  exact .lastElse hcondition hnone (he h condition stack)

theorem NoOtherwise.cons {next : Conditional} {rest : List Conditional}
    {elseExp : Option ExpressionTree} {after otherwise : Entity → Store → Option (Entity × Store)}
    (hnext : ∀ {s}, evaluateConditional cs c next s after = none →
      NoValue env routines cs c (.branches next rest elseExp) s)
    (hotherwise : ∀ condition s, otherwise condition s = evaluateConditional cs c next s after) :
    NoOtherwise env routines cs c (next :: rest) elseExp otherwise := by
  rintro ⟨ifToken, exp, body⟩ m condition s stack hcondition hnone h
  rw [hotherwise] at h
  exact .moreRest hcondition hnone (hnext h condition stack)

end Parts

mutual

/-- Code whose expression the interpreter has no value for comes to an operator without one. -/
theorem evaluate_none (env : Env) (routines : Routines) (cs : Contexts) (c : ContextId) :
    ∀ e : ExpressionTree, calculates e = true → ∀ {s : Store}, evaluate cs c e s = none →
      NoValue env routines cs c (.tree e) s
  | .identifier id, _, s, h => by
    rw [evaluate] at h
    split at h
    · cases h
    · split at h
      · cases h
      · exact absurd h (operandValue_ne_none cs c s id)
  | .constant token, _, s, h => absurd h (operandValue_ne_none cs c s token)
  | .tupleExpression _ list, hcalculates, _, h => by
    intro value stack
    have helements := evaluateElements_none env routines cs c list hcalculates
      (Option.map_eq_none_iff.mp h)
    exact .seqFirst (helements value stack)
  | .arrayDeclaration _ none, _, _, h => by cases h
  | .arrayDeclaration _ (some exp), hcalculates, s, h => by
    have hexp : ∀ {s}, evaluate cs c exp s = none → NoValue env routines cs c (.tree exp) s :=
      evaluate_none env routines cs c exp hcalculates
    cases exp with
    | tupleExpression tupleToken list =>
      intro value stack
      have helements := evaluateElements_none env routines cs c list hcalculates
        (Option.map_eq_none_iff.mp h)
      exact .seqFirst (helements value stack)
    | _ => exact NoValue.arraySingle (fun _ _ heq => by cases heq) hexp h
  | .primaryExpression exp, hcalculates, _, h =>
    evaluate_none env routines cs c exp hcalculates h
  | .primaryExpressionNoConstants exp, hcalculates, _, h =>
    evaluate_none env routines cs c exp hcalculates h
  | .unaryExpression _ .not exp, hcalculates, _, h => by
    intro value stack
    have hexp := evaluate_none env routines cs c exp hcalculates (Option.map_eq_none_iff.mp h)
    exact .seqFirst (hexp value stack)
  | .biExpression _ exp suffixes, hcalculates, s, h => by
    rw [calculates, Bool.and_eq_true] at hcalculates
    intro value stack
    cases hfirst : evaluate cs c exp s with
    | none => exact .seqFirst (evaluate_none env routines cs c exp hcalculates.1 hfirst value stack)
    | some first =>
      rw [evaluate, hfirst] at h
      exact .seqSecond (exec_of_evaluate env routines hfirst value stack)
        (evaluateOperators_none env routines cs c suffixes hcalculates.2 h stack)
  | .andExpression exp suffixes, hcalculates, s, h => by
    rw [calculates, Bool.and_eq_true] at hcalculates
    intro value stack
    cases hfirst : evaluate cs c exp s with
    | none => exact .seqFirst (evaluate_none env routines cs c exp hcalculates.1 hfirst value stack)
    | some first =>
      rw [evaluate, hfirst] at h
      exact .seqSecond (exec_of_evaluate env routines hfirst value stack)
        (evaluateChain_none env routines cs c .IFN suffixes hcalculates.2 h stack)
  | .orExpression exp suffixes, hcalculates, s, h => by
    rw [calculates, Bool.and_eq_true] at hcalculates
    intro value stack
    cases hfirst : evaluate cs c exp s with
    | none => exact .seqFirst (evaluate_none env routines cs c exp hcalculates.1 hfirst value stack)
    | some first =>
      rw [evaluate, hfirst] at h
      exact .seqSecond (exec_of_evaluate env routines hfirst value stack)
        (evaluateChain_none env routines cs c .IF suffixes hcalculates.2 h stack)
  | .conditionalExpression ifElse, hcalculates, _, h =>
    NoValue.ifElse (evaluateIfElse_none env routines cs c ifElse hcalculates h)
  | .unaryExpression _ .unknown _, hcalculates, _, _ => by cases hcalculates
  | .unaryExpression _ .notc _, hcalculates, _, _ => by cases hcalculates
  | .unaryExpression _ .negate _, hcalculates, _, _ => by cases hcalculates
  | .unaryExpression _ .const _, hcalculates, _, _ => by cases hcalculates
  | .unaryExpression _ .await _, hcalculates, _, _ => by cases hcalculates
  | .stringLiteral _, hcalculates, _, _ => by cases hcalculates
  | .mapDeclaration _ _, hcalculates, _, _ => by cases hcalculates
  | .postfixExpression _ _, hcalculates, _, _ => by cases hcalculates
  | .rangeExpression _ _ _ _, hcalculates, _, _ => by cases hcalculates
  | .inExpression _ _ _ _, hcalculates, _, _ => by cases hcalculates
  | .isExpression _ _ _, hcalculates, _, _ => by cases hcalculates
  | .anonFunctionDefinition _, hcalculates, _, _ => by cases hcalculates
  | .assignmentExpression _ _ _, hcalculates, _, _ => by cases hcalculates
  | .foreachStatement _ _ _ _ _, hcalculates, _, _ => by cases hcalculates
  | .forStatement _ _ _ _ _, hcalculates, _, _ => by cases hcalculates
  | .whileStatement _ _ _, hcalculates, _, _ => by cases hcalculates
  | .compoundStatement _, hcalculates, _, _ => by cases hcalculates
  | .tryStatement _ _ _ _ _, hcalculates, _, _ => by cases hcalculates
  | .raiseStatement _ _, hcalculates, _, _ => by cases hcalculates
  | .selectionStatement _, hcalculates, _, _ => by cases hcalculates
  | .jumpStatement _ _, hcalculates, _, _ => by cases hcalculates
  | .breakStatement _ _, hcalculates, _, _ => by cases hcalculates
  | .exitStatement _, hcalculates, _, _ => by cases hcalculates

theorem evaluateElements_none (env : Env) (routines : Routines) (cs : Contexts) (c : ContextId) :
    ∀ list : List ExpressionTree, allCalculate list = true → ∀ {s : Store},
      evaluateElements cs c list s = none → ∀ value stack,
        Stumbles env routines.lower c (.code (lowerTuple list))
          ((Memory.mk s cs value).scene stack)
  | [], _, _, h => by cases h
  | elt :: rest, hcalculates, s, h => by
    rw [allCalculate, Bool.and_eq_true] at hcalculates
    intro value stack
    cases hrest : evaluateElements cs c rest s with
    | none =>
      have hstumbles := evaluateElements_none env routines cs c rest hcalculates.2 hrest value stack
      exact .seqFirst (.seqFirst hstumbles)
    | some result =>
      obtain ⟨values, s₁⟩ := result
      rw [evaluateElements, hrest] at h
      obtain ⟨value', heval, -⟩ := evaluateElements_gets env routines cs c rest hrest value
      have helt := evaluate_none env routines cs c elt hcalculates.1 (Option.map_eq_none_iff.mp h)
      exact .seqFirst (.seqSecond (heval.lowers.normal stack) (helt value' (values ++ stack)))

theorem evaluateOperators_none (env : Env) (routines : Routines) (cs : Contexts) (c : ContextId) :
    ∀ suffixes : List BiSuffix, operatorsCalculate suffixes = true → ∀ {value : Entity} {s : Store},
      evaluateOperators cs c suffixes value s = none → ∀ stack,
        Stumbles env routines.lower c (.code (lowerBiSuffixes suffixes))
          ((Memory.mk s cs value).scene stack)
  | [], _, _, _, h => by cases h
  | ⟨token, type, exp⟩ :: rest, hcalculates, value, s, h => by
    rw [operatorsCalculate, Bool.and_eq_true, Bool.and_eq_true] at hcalculates
    obtain ⟨⟨hop, hexp⟩, hrest⟩ := hcalculates
    obtain ⟨op, htype⟩ := Option.isSome_iff_exists.mp hop
    intro stack
    rw [lowerBiSuffixes_cons htype]
    rw [evaluateOperators, htype] at h
    cases hsecond : evaluate cs c exp s with
    | none =>
      have hstumbles := evaluate_none env routines cs c exp hexp hsecond value (value :: stack)
      exact .seqFirst (.seqFirst (.seqFirst (.seqSecond .push hstumbles)))
    | some second =>
      have hexec := exec_of_evaluate env routines hsecond value (value :: stack)
      have hoperands := (Exec.push.append hexec).append .push
      simp only [hsecond, Option.bind_some] at h
      cases hresult : binaryValue op value second.1 with
      | none => exact .seqFirst (.seqSecond hoperands (.operator htype rfl hresult))
      | some result =>
        rw [hresult, Option.bind_some] at h
        have hoperator : Exec env routines.lower c (.code (opCode op))
            ((Memory.mk second.2 cs second.1).scene (second.1 :: value :: stack)) .normal
            ((Memory.mk second.2 cs result).scene stack) := .plain (does_binary htype hresult)
        exact .seqSecond (hoperands.append hoperator)
          (evaluateOperators_none env routines cs c rest hrest h stack)

theorem evaluateChain_none (env : Env) (routines : Routines) (cs : Contexts) (c : ContextId)
    (test : Test) : ∀ suffixes : List BiSuffix, suffixesCalculate suffixes = true →
      ∀ {value : Entity} {s : Store}, evaluateChain cs c test suffixes value s = none → ∀ stack,
        Stumbles env routines.lower c (.code (Code.chain test (lowerSuffixes suffixes)))
          ((Memory.mk s cs value).scene stack)
  | [], _, _, _, h => by cases h
  | ⟨token, type, exp⟩ :: rest, hcalculates, value, s, h => by
    rw [suffixesCalculate, Bool.and_eq_true] at hcalculates
    intro stack
    rw [evaluateChain] at h
    split at h
    · cases h
    · next hjumps =>
      have hinto := Bool.eq_false_iff.mpr hjumps
      cases hsecond : evaluate cs c exp s with
      | none =>
        have hstumbles :=
          evaluate_none env routines cs c exp hcalculates.1 hsecond value stack
        exact .skipInto hinto (.seqFirst hstumbles)
      | some second =>
        rw [hsecond] at h
        exact .skipInto hinto (.seqSecond (exec_of_evaluate env routines hsecond value stack)
          (evaluateChain_none env routines cs c test rest hcalculates.2 h stack))

theorem evaluateIfElse_none (env : Env) (routines : Routines) (cs : Contexts) (c : ContextId) :
    ∀ ifElse : IfElse, ifElseCalculates ifElse = true → ∀ {s : Store},
      evaluateIfElse cs c ifElse s = none →
        NoValue env routines cs c (.branches ifElse.first ifElse.rest ifElse.elseExp) s
  | ⟨first, rest, none⟩, hcalculates, s, h => by
    rw [ifElseCalculates, Bool.and_eq_true] at hcalculates
    exact evaluateConditional_none env routines cs c first hcalculates.1
      (evaluateConditionals_none env routines cs c rest hcalculates.2 none .noElse) h
  | ⟨first, rest, some e⟩, hcalculates, s, h => by
    rw [ifElseCalculates, Bool.and_eq_true, Bool.and_eq_true] at hcalculates
    exact evaluateConditional_none env routines cs c first hcalculates.1.1
      (evaluateConditionals_none env routines cs c rest hcalculates.1.2 (some e)
        (.withElse (evaluate_none env routines cs c e hcalculates.2))) h

theorem evaluateConditional_none (env : Env) (routines : Routines) (cs : Contexts)
    (c : ContextId) : ∀ cond : Conditional, conditionalCalculates cond = true →
      ∀ {rest : List Conditional} {elseExp : Option ExpressionTree}
        {otherwise : Entity → Store → Option (Entity × Store)} {s : Store},
      NoOtherwise env routines cs c rest elseExp otherwise →
      evaluateConditional cs c cond s otherwise = none →
        NoValue env routines cs c (.branches cond rest elseExp) s
  | ⟨ifToken, condition, body⟩, hcalculates, rest, elseExp, otherwise, s, hotherwise, h => by
    rw [conditionalCalculates, Bool.and_eq_true] at hcalculates
    intro value stack
    cases hcondition : evaluate cs c condition s with
    | none =>
      have hstumbles :=
        evaluate_none env routines cs c condition hcalculates.1 hcondition value stack
      cases rest with
      | nil => exact .lastCondition hstumbles
      | cons next rest => exact .moreCondition hstumbles
    | some result =>
      have hexec := exec_of_evaluate env routines hcondition value stack
      rw [evaluateConditional, hcondition] at h
      simp only [Option.bind_some] at h
      split at h
      · next hnone =>
        exact hotherwise ⟨ifToken, condition, body⟩ _ result.1 result.2 stack hexec hnone h
      · next hsome =>
        have hstumbles :=
          evaluate_none env routines cs c body hcalculates.2 h result.1 stack
        cases rest with
        | nil => exact .lastThen hexec (Bool.eq_false_iff.mpr hsome) hstumbles
        | cons next rest => exact .moreThen hexec (Bool.eq_false_iff.mpr hsome) hstumbles

theorem evaluateConditionals_none (env : Env) (routines : Routines) (cs : Contexts)
    (c : ContextId) : ∀ rest : List Conditional, conditionalsCalculate rest = true →
      ∀ (elseExp : Option ExpressionTree) {otherwise : Entity → Store → Option (Entity × Store)},
      NoOtherwise env routines cs c [] elseExp otherwise →
        NoOtherwise env routines cs c rest elseExp
          (fun condition s => evaluateConditionals cs c rest condition s otherwise)
  | [], _, _, _, helse => helse
  | next :: rest, hcalculates, elseExp, otherwise, helse => by
    rw [conditionalsCalculate, Bool.and_eq_true] at hcalculates
    have hrest := evaluateConditionals_none env routines cs c rest hcalculates.2 elseExp helse
    exact .cons (evaluateConditional_none env routines cs c next hcalculates.1 hrest)
      fun _ _ => rfl

end

/-! ## What an expression leaves alone -/

/-- The objects of the first store have the members they had, and maybe more, and the same
contents. -/
structure Store.KeepsVariables (s s' : Store) : Prop where
  next : s.nextObject ≤ s'.nextObject
  members : ∀ o : Nat, o < s.nextObject → ∀ key e, s.get o key = some e → s'.get o key = some e
  contents : ∀ o : Nat, o < s.nextObject → s'.internal o = s.internal o

namespace Store.KeepsVariables

variable {s s' s'' : Store}

theorem refl (s : Store) : s.KeepsVariables s :=
  ⟨Nat.le_refl _, fun _ _ _ _ h => h, fun _ _ => rfl⟩

theorem trans (h : s.KeepsVariables s') (h' : s'.KeepsVariables s'') : s.KeepsVariables s'' where
  next := Nat.le_trans h.next h'.next
  members := by
    intro o ho key e hget
    exact h'.members o (Nat.lt_of_lt_of_le ho h.next) key e (h.members o ho key e hget)
  contents := by
    intro o ho
    rw [h'.contents o (Nat.lt_of_lt_of_le ho h.next), h.contents o ho]

/-- A member that was not there. -/
theorem setMember (h : s.KeepsVariables s') {o : ObjectId} {key : String}
    (habsent : s.get o key = none) (e : Entity) : s.KeepsVariables (s'.setMember o key e) where
  next := h.next
  members := by
    intro o' ho' key' e' hget
    by_cases hkey : key' = key
    · subst hkey
      have hne : o' ≠ o := by
        rintro rfl
        rw [habsent] at hget
        cases hget
      rw [get_setMember, if_neg hne]
      exact h.members o' ho' key' e' hget
    · rw [get_setMember_other s' o o' e hkey]
      exact h.members o' ho' key' e' hget
  contents := by
    intro o' ho'
    rw [Store.internal_setMember]
    exact h.contents o' ho'

/-- The contents of a new object. -/
theorem setInternal (h : s.KeepsVariables s') {o : Nat} (ho : s.nextObject ≤ o)
    (internal : Internal) : s.KeepsVariables (s'.setInternal o internal) := by
  have hobjects : ∀ o' : Nat, o' < s.nextObject →
      (s'.setInternal o internal).objects o' = s'.objects o' :=
    fun o' ho' => Store.modify_objects_ne s' _ (Nat.ne_of_lt (Nat.lt_of_lt_of_le ho' ho))
  refine ⟨h.next, ?_, ?_⟩
  · intro o' ho' key e hget
    rw [Store.get, hobjects o' ho']
    exact h.members o' ho' key e hget
  · intro o' ho'
    rw [Store.internal, hobjects o' ho']
    exact h.contents o' ho'

theorem heapNew (s : Store) (cls : ClassId) : s.KeepsVariables (s.heapNew cls).2 := by
  have hobjects : ∀ o : Nat, o < s.nextObject → (s.heapNew cls).2.objects o = s.objects o :=
    fun o ho => Function.update_of_ne (Nat.ne_of_lt ho) _ _
  refine ⟨Nat.le_succ _, ?_, ?_⟩
  · intro o ho key e hget
    rw [Store.get, hobjects o ho]
    exact hget
  · intro o ho
    rw [Store.internal, hobjects o ho]
    rfl

theorem heapNewWith (s : Store) (cls : ClassId) (internal : Internal) :
    s.KeepsVariables (s.heapNewWith cls internal).2 :=
  (heapNew s cls).setInternal (Nat.le_refl _) internal

theorem arrayNew (s : Store) (values : List Entity) : s.KeepsVariables (s.arrayNew values).2 := by
  have hadd : ∀ s', s.KeepsVariables s' → s.KeepsVariables
      (values.foldl (fun s' e => s'.arrayAdd s.nextObject e) s') := by
    induction values with
    | nil => exact fun _ h => h
    | cons e rest ih =>
      intro s' h
      exact ih (s'.arrayAdd s.nextObject e) (h.setInternal (Nat.le_refl _) _)
  exact hadd _ (heapNew s .Array)

theorem contextLookup (s : Store) (cs : Contexts) (c : ContextId) (id : String) :
    s.KeepsVariables (JeffVm.contextLookup s cs c id).2 := by
  have hwrap : ∀ f obj, s.KeepsVariables (s.wrapFunctionInRef f obj c).2 :=
    fun f obj => heapNewWith s _ _
  unfold JeffVm.contextLookup
  dsimp only
  split
  · exact refl s
  · split
    · exact refl s
    · split
      · exact refl s
      · split
        · split
          · exact hwrap _ _
          · exact refl s
        · next hself =>
          split
          · exact (hwrap _ _).setMember hself _
          · split
            · exact refl s
            · next hmodule =>
              split
              · split
                · exact hwrap _ _
                · exact (refl s).setMember hmodule _
              · split
                · exact refl s
                · next hbuiltin =>
                  split
                  · exact (refl s).setMember hbuiltin _
                  · exact refl s

theorem operandValue {s : Store} {cs : Contexts} {c : ContextId} {arg : Arg} {r : Entity × Store}
    (h : JeffVm.operandValue cs c s arg = some r) : s.KeepsVariables r.2 := by
  cases arg with
  | noArg => cases h
  | id id =>
    cases h
    exact contextLookup s cs c id
  | val val =>
    cases h
    exact refl s
  | str str =>
    cases h
    exact heapNewWith s _ _

end Store.KeepsVariables

/-- What is left to compute keeps the variables. -/
def KeepsAfter (otherwise : Entity → Store → Option (Entity × Store)) : Prop :=
  ∀ condition s r, otherwise condition s = some r → s.KeepsVariables r.2

mutual

theorem evaluate_keeps (cs : Contexts) (c : ContextId) : ∀ (e : ExpressionTree) {s : Store}
    {r : Entity × Store}, evaluate cs c e s = some r → s.KeepsVariables r.2
  | .identifier id, s, r, h => by
    rw [evaluate] at h
    split at h
    · cases h
      exact .refl s
    · split at h
      · cases h
        exact .refl s
      · exact .operandValue h
  | .constant token, _, _, h => .operandValue h
  | .stringLiteral token, _, _, h => .operandValue h
  | .tupleExpression _ list, s, r, h => by
    obtain ⟨⟨values, s'⟩, helements, rfl⟩ := Option.map_eq_some_iff.mp h
    exact (evaluateElements_keeps cs c list helements).trans (.heapNewWith s' _ _)
  | .arrayDeclaration _ none, s, r, h => by
    cases h
    exact .arrayNew s []
  | .arrayDeclaration token (some exp), s, r, h => by
    have hexp : ∀ {s r}, evaluate cs c exp s = some r → s.KeepsVariables r.2 :=
      evaluate_keeps cs c exp
    have hsingle : (∀ tupleToken list, exp ≠ .tupleExpression tupleToken list) →
        s.KeepsVariables r.2 := by
      intro hne
      rw [evaluate_arraySingle hne] at h
      obtain ⟨⟨element, s'⟩, helement, rfl⟩ := Option.map_eq_some_iff.mp h
      exact (hexp helement).trans (.arrayNew s' [element])
    cases exp with
    | tupleExpression tupleToken list =>
      obtain ⟨⟨values, s'⟩, helements, rfl⟩ := Option.map_eq_some_iff.mp h
      exact (evaluateElements_keeps cs c list helements).trans (.arrayNew s' values)
    | _ => exact hsingle fun _ _ heq => by cases heq
  | .primaryExpression exp, _, _, h => evaluate_keeps cs c exp h
  | .primaryExpressionNoConstants exp, _, _, h => evaluate_keeps cs c exp h
  | .unaryExpression token type exp, s, r, h => by
    have hexp : ∀ {s r}, evaluate cs c exp s = some r → s.KeepsVariables r.2 :=
      evaluate_keeps cs c exp
    have hnegate : (∀ constantToken, exp ≠ .constant constantToken) → type = .negate →
        s.KeepsVariables r.2 := by
      rintro hne rfl
      rw [evaluate_negate hne] at h
      obtain ⟨⟨operand, s'⟩, hoperand, h⟩ := Option.bind_eq_some_iff.mp h
      obtain ⟨result, -, rfl⟩ := Option.map_eq_some_iff.mp h
      have hkept := hexp hoperand
      exact hkept
    cases type with
    | not =>
      obtain ⟨⟨operand, s'⟩, hoperand, rfl⟩ := Option.map_eq_some_iff.mp h
      have hkept := hexp hoperand
      exact hkept
    | negate =>
      cases exp with
      | constant constantToken =>
        rw [evaluate] at h
        split at h
        · cases h
          exact .refl s
        · cases h
      | _ => exact hnegate (fun _ heq => by cases heq) rfl
    | _ => cases h
  | .biExpression _ exp suffixes, s, r, h => by
    obtain ⟨⟨first, s'⟩, hfirst, hrest⟩ := Option.bind_eq_some_iff.mp h
    exact (evaluate_keeps cs c exp hfirst).trans (evaluateOperators_keeps cs c suffixes hrest)
  | .andExpression exp suffixes, s, r, h => by
    obtain ⟨⟨first, s'⟩, hfirst, hrest⟩ := Option.bind_eq_some_iff.mp h
    exact (evaluate_keeps cs c exp hfirst).trans (evaluateChain_keeps cs c .IFN suffixes hrest)
  | .orExpression exp suffixes, s, r, h => by
    obtain ⟨⟨first, s'⟩, hfirst, hrest⟩ := Option.bind_eq_some_iff.mp h
    exact (evaluate_keeps cs c exp hfirst).trans (evaluateChain_keeps cs c .IF suffixes hrest)
  | .conditionalExpression ifElse, _, _, h => evaluateIfElse_keeps cs c ifElse h
  | .mapDeclaration _ _, _, _, h => by cases h
  | .postfixExpression _ _, _, _, h => by cases h
  | .rangeExpression _ _ _ _, _, _, h => by cases h
  | .inExpression _ _ _ _, _, _, h => by cases h
  | .isExpression _ _ _, _, _, h => by cases h
  | .anonFunctionDefinition _, _, _, h => by cases h
  | .assignmentExpression _ _ _, _, _, h => by cases h
  | .foreachStatement _ _ _ _ _, _, _, h => by cases h
  | .forStatement _ _ _ _ _, _, _, h => by cases h
  | .whileStatement _ _ _, _, _, h => by cases h
  | .compoundStatement _, _, _, h => by cases h
  | .tryStatement _ _ _ _ _, _, _, h => by cases h
  | .raiseStatement _ _, _, _, h => by cases h
  | .selectionStatement _, _, _, h => by cases h
  | .jumpStatement _ _, _, _, h => by cases h
  | .breakStatement _ _, _, _, h => by cases h
  | .exitStatement _, _, _, h => by cases h

theorem evaluateElements_keeps (cs : Contexts) (c : ContextId) :
    ∀ (list : List ExpressionTree) {s s' : Store} {values : List Entity},
      evaluateElements cs c list s = some (values, s') → s.KeepsVariables s'
  | [], s, s', values, h => by
    cases h
    exact .refl s
  | elt :: rest, s, s', values, h => by
    obtain ⟨⟨restValues, s₁⟩, hrest, helt⟩ := Option.bind_eq_some_iff.mp h
    obtain ⟨⟨eltValue, s₂⟩, helt, heq⟩ := Option.map_eq_some_iff.mp helt
    cases heq
    exact (evaluateElements_keeps cs c rest hrest).trans (evaluate_keeps cs c elt helt)

theorem evaluateOperators_keeps (cs : Contexts) (c : ContextId) :
    ∀ (suffixes : List BiSuffix) {value : Entity} {s : Store} {r : Entity × Store},
      evaluateOperators cs c suffixes value s = some r → s.KeepsVariables r.2
  | [], value, s, r, h => by
    cases h
    exact .refl s
  | ⟨_, type, exp⟩ :: rest, value, s, r, h => by
    rw [evaluateOperators] at h
    split at h
    · cases h
    · obtain ⟨⟨second, s'⟩, hsecond, h⟩ := Option.bind_eq_some_iff.mp h
      obtain ⟨result, -, hrest⟩ := Option.bind_eq_some_iff.mp h
      exact (evaluate_keeps cs c exp hsecond).trans (evaluateOperators_keeps cs c rest hrest)

theorem evaluateChain_keeps (cs : Contexts) (c : ContextId) (test : Test) :
    ∀ (suffixes : List BiSuffix) {value : Entity} {s : Store} {r : Entity × Store},
      evaluateChain cs c test suffixes value s = some r → s.KeepsVariables r.2
  | [], value, s, r, h => by
    cases h
    exact .refl s
  | ⟨_, _, exp⟩ :: rest, value, s, r, h => by
    rw [evaluateChain] at h
    split at h
    · cases h
      exact .refl s
    · obtain ⟨⟨second, s'⟩, hsecond, hrest⟩ := Option.bind_eq_some_iff.mp h
      exact (evaluate_keeps cs c exp hsecond).trans (evaluateChain_keeps cs c test rest hrest)

theorem evaluateIfElse_keeps (cs : Contexts) (c : ContextId) : ∀ (ifElse : IfElse) {s : Store}
    {r : Entity × Store}, evaluateIfElse cs c ifElse s = some r → s.KeepsVariables r.2
  | ⟨first, rest, none⟩, _, _, h => by
    refine evaluateConditional_keeps cs c first (evaluateConditionals_keeps cs c rest ?_) h
    intro condition s r h
    cases h
    exact .refl s
  | ⟨first, rest, some e⟩, _, _, h =>
    evaluateConditional_keeps cs c first
      (evaluateConditionals_keeps cs c rest fun _ _ _ h => evaluate_keeps cs c e h) h

theorem evaluateConditional_keeps (cs : Contexts) (c : ContextId) :
    ∀ (cond : Conditional) {s : Store} {r : Entity × Store}
      {otherwise : Entity → Store → Option (Entity × Store)}, KeepsAfter otherwise →
      evaluateConditional cs c cond s otherwise = some r → s.KeepsVariables r.2
  | ⟨_, condition, body⟩, s, r, otherwise, hotherwise, h => by
    obtain ⟨⟨result, s₁⟩, hcondition, h⟩ := Option.bind_eq_some_iff.mp h
    refine (evaluate_keeps cs c condition hcondition).trans ?_
    simp only at h
    split at h
    · exact hotherwise result s₁ r h
    · exact evaluate_keeps cs c body h

theorem evaluateConditionals_keeps (cs : Contexts) (c : ContextId) :
    ∀ (rest : List Conditional) {otherwise : Entity → Store → Option (Entity × Store)},
      KeepsAfter otherwise →
        KeepsAfter fun condition s => evaluateConditionals cs c rest condition s otherwise
  | [], _, hotherwise => hotherwise
  | next :: rest, _, hotherwise => fun _ _ _ h =>
    evaluateConditional_keeps cs c next (evaluateConditionals_keeps cs c rest hotherwise) h

end

/-! ## Expressions that calculate -/

/-- The operator at which the task stands gives a value: it raises no error, C does not leave it
undefined, and no method takes its place. -/
structure World.Calculates (env : Env) (w : World) (t c : Nat) (op : Op) : Prop where
  next : ∃ f, execute env w t c ⟨op, .noArg⟩ = some (.next f)
  own : op = .EQ ∨ op = .NEQ → ∀ o second stack, (w.frame t).stack = second :: .obj o :: stack →
    w.store.classGetFunction (w.store.cls o) (equalityKey op) = none

section Operators

variable {env : Env} {w : World} {t c : Nat} {op : Op} {first second : Entity}
  {stack : List Entity} {f f' : Frame}

theorem executePrimitive_next (hstack : f.stack = second :: first :: stack)
    (h : executePrimitive w t c op .noArg f = some (.next f')) :
    ∃ p q, first = .prim p ∧ second = .prim q ∧ primitiveResult op p q ≠ none := by
  cases second with
  | none => simp [executePrimitive, Frame.pop, hstack, raiseError] at h
  | obj o => simp [executePrimitive, Frame.pop, hstack, raiseError] at h
  | prim q =>
    cases first with
    | none => simp [executePrimitive, Frame.pop, hstack, raiseError] at h
    | obj o => simp [executePrimitive, Frame.pop, hstack, raiseError] at h
    | prim p =>
      refine ⟨p, q, rfl, rfl, ?_⟩
      intro hresult
      simp [executePrimitive, Frame.pop, hstack, hresult] at h

theorem equalityOfPrimitives_next (h : equalityOfPrimitives w t op first second f = .next f') :
    ∃ p q, first = .prim p ∧ second = .prim q := by
  cases second with
  | none => simp [equalityOfPrimitives, raiseError] at h
  | obj o => simp [equalityOfPrimitives, raiseError] at h
  | prim q =>
    cases first with
    | none => simp [equalityOfPrimitives, raiseError] at h
    | obj o => simp [equalityOfPrimitives, raiseError] at h
    | prim p => exact ⟨p, q, rfl, rfl⟩

/-- Without a method, an equality with a value is one of primitives. -/
theorem World.Calculates.primitives (h : w.Calculates env t c op) (hop : op = .EQ ∨ op = .NEQ)
    (hstack : (w.frame t).stack = second :: first :: stack) :
    ∃ p q, first = .prim p ∧ second = .prim q := by
  obtain ⟨f, hnext⟩ := h.next
  have hexec : execute env w t c ⟨op, .noArg⟩ =
      some (equalityOfPrimitives w t op first second { w.frame t with stack := stack }) := by
    have hown := h.own hop
    cases first with
    | none => rcases hop with rfl | rfl <;> simp only [execute, executeEQ, hstack]
    | prim p => rcases hop with rfl | rfl <;> simp only [execute, executeEQ, hstack]
    | obj o =>
      have hnone : (w.frame t).store.classGetFunction ((w.frame t).store.cls o)
          (equalityKey op) = none := hown o second stack hstack
      rcases hop with rfl | rfl <;> simp only [execute, executeEQ, hstack, hnone]
  rw [hexec, Option.some.injEq] at hnext
  exact equalityOfPrimitives_next hnext

/-- An operator that gives a value has it from its operands. -/
theorem World.Calculates.value {type : BiType} (h : w.Calculates env t c op)
    (htype : biToIns type = some op) (hstack : (w.frame t).stack = second :: first :: stack) :
    binaryValue op first second ≠ none := by
  obtain ⟨f, hnext⟩ := h.next
  have hprimitive : executePrimitive w t c op .noArg (w.frame t) = some (.next f) →
      ∃ p q, first = .prim p ∧ second = .prim q ∧ primitiveResult op p q ≠ none :=
    executePrimitive_next hstack
  cases type with
  | unknown => cases htype
  | eq =>
    cases htype
    obtain ⟨p, q, rfl, rfl⟩ := h.primitives (.inl rfl) hstack
    exact fun h => by cases h
  | neq =>
    cases htype
    obtain ⟨p, q, rfl, rfl⟩ := h.primitives (.inr rfl) hstack
    exact fun h => by cases h
  | binOr =>
    cases htype
    cases first with
    | none => exact fun h => by cases h
    | obj o => exact fun h => by cases h
    | prim r =>
      have hexec : execute env w t c ⟨.BOR, .noArg⟩ =
          executePrimitive w t c .BOR .noArg (w.frame t) := by
        simp only [execute, executeBOR, hstack]
      rw [hexec] at hnext
      obtain ⟨p, q, heq, rfl, hresult⟩ := hprimitive hnext
      cases heq
      exact hresult
  | _ =>
    cases htype
    obtain ⟨p, q, rfl, rfl, hresult⟩ := hprimitive hnext
    exact hresult

end Operators

/-! ## Finite runs -/

/-- `p` holds in all worlds that a process without background calls gets to, and all its runs end
after less than `n` steps. -/
def World.holdsFor (env : Env) (p : World → Bool) : Nat → World → Bool
  | 0, _ => false
  | n + 1, w =>
    let after (ev : Event) : Bool :=
      match processStep env w ev with
      | none => true
      | some w' => World.holdsFor env p n w'
    p w && w.background.isEmpty && after .execute && w.queued.all fun t => after (.start t)

theorem World.holdsFor_reached {env : Env} {p : World → Bool} {n : Nat}
    {C : World → Event → Prop} {w w' : World} (h : w.holdsFor env p n = true)
    (hrun : RunsIn (processStep env) C w w') : p w' = true := by
  have hall : ∃ n, w'.holdsFor env p n = true := by
    refine RunsIn.invariant (P := fun w => ∃ n, w.holdsFor env p n = true) ?_ hrun ⟨n, h⟩
    rintro w₁ ev w₂ ⟨n, hholds⟩ - hstep
    cases n with
    | zero => cases hholds
    | succ n =>
      simp only [World.holdsFor, Bool.and_eq_true] at hholds
      obtain ⟨⟨⟨-, hbackground⟩, hexecute⟩, hstart⟩ := hholds
      cases ev with
      | execute =>
        rw [hstep] at hexecute
        exact ⟨n, hexecute⟩
      | start id =>
        by_cases hmem : id ∈ w₁.queued
        · have hnext := List.all_eq_true.mp hstart id hmem
          rw [hstep] at hnext
          exact ⟨n, hnext⟩
        · rw [processStep, if_neg fun h => hmem h.2] at hstep
          cases hstep
      | finish args =>
        rw [processStep, List.isEmpty_iff.mp hbackground, if_neg List.not_mem_nil] at hstep
        cases hstep
  obtain ⟨n, hholds⟩ := hall
  cases n with
  | zero => cases hholds
  | succ n =>
    simp only [World.holdsFor, Bool.and_eq_true] at hholds
    exact hholds.1.1.1

/-- The instruction of task 0 gives a value, and it is no operator on an object. -/
def World.calculatesHere (w : World) : Bool :=
  match w.contextIns 0 with
  | some ⟨op, .noArg⟩ =>
    (match execute noNatives w 0 0 ⟨op, .noArg⟩ with
      | some (.next _) => true
      | _ => false) &&
    match (w.frame 0).stack with
    | _ :: .obj _ :: _ => false
    | _ => true
  | _ => true

theorem World.Calculates.of_here {w : World} {op : Op} (hins : w.contextIns 0 = some ⟨op, .noArg⟩)
    (h : w.calculatesHere = true) : w.Calculates noNatives 0 0 op := by
  unfold World.calculatesHere at h
  simp only [hins, Bool.and_eq_true] at h
  obtain ⟨hexec, hstack⟩ := h
  refine ⟨?_, ?_⟩
  · split at hexec
    · next f heq => exact ⟨f, heq⟩
    · cases hexec
  · intro hop o second stack heq
    rw [heq] at hstack
    cases hstack

/-- The variables `x` and `y`, and an object with a counter whose class has a method `==`. -/
def variableObjects (x y : Entity) (o : ObjectId) : Object :=
  if o = 0 then ⟨.Object, (KeyedList.empty.insert ("x", x)).insert ("y", y), .none⟩
  else if o = 1 then ⟨.user 0, KeyedList.empty.insert ("count", .int 0), .none⟩
  else ⟨.Object, .empty, .none⟩

/-- `method ==(other) count = 1` -/
def countingEquiv : FunctionDef :=
  ⟨.word "method" 1, none, .EQUIV, false,
    some ⟨.word "(" 1, ⟨false, false, .word "other" 1, none⟩, []⟩,
    .assignmentExpression (.word "=" 1) (.var false (.word "count" 1))
      (.constant ⟨.INTEGER, 1, 0, "1"⟩)⟩

/-- Module 0 holds the code of the expression and module 1 that of the method. -/
def namedWorld (e : ExpressionTree) (x y : Entity) : World :=
  let w := treeWorld e
  { w with store :=
      { w.store with
        objects := variableObjects x y
        classes := fun cls => ⟨"C", [],
          if cls = .user 0 then KeyedList.empty.insert ("__eq__", 0) else .empty, 0⟩
        functions := fun _ => ⟨"__eq__", 1, false, false, false, false, 0, 0⟩
        modules := fun m => ⟨"m", if m = 0 then (lower e).code
          else (lowerFunction countingEquiv).code, .empty, .empty, 0, true⟩ } }

def namedMemory (e : ExpressionTree) (x y : Entity) : Memory :=
  ⟨(namedWorld e x y).store, (namedWorld e x y).contexts.view, .none⟩

theorem namedWorld_at (e : ExpressionTree) (x y : Entity) : (namedWorld e x y).At 0 0 0
    ((namedMemory e x y).scene [.int 5, .int 6]) := by
  refine ⟨rfl, ⟨rfl, rfl, Nat.zero_lt_one, Nat.zero_lt_one⟩, rfl, rfl, rfl, rfl, rfl, ?_, ?_⟩
  · intro id hid
    cases hid
  · intro id hid
    cases hid

/-- `[2 * x + 1 if x < 5 else 0, x == y and ~x]` -/
def calculation : ExpressionTree :=
  let x : ExpressionTree := .identifier (.word "x" 1)
  let y : ExpressionTree := .identifier (.word "y" 1)
  let number (digit : String) : ExpressionTree := .constant ⟨.INTEGER, 1, 0, digit⟩
  .arrayDeclaration (.word "[" 1) (some (.tupleExpression (.word "," 1)
    [.conditionalExpression ⟨⟨.word "if" 1,
        .biExpression .relational x [⟨.word "<" 1, .lt, number "5"⟩],
        .biExpression .additive
          (.biExpression .multiplicative (number "2") [⟨.word "*" 1, .mult, x⟩])
          [⟨.word "+" 1, .add, number "1"⟩]⟩, [], some (number "0")⟩,
      .andExpression (.biExpression .equality x [⟨.word "==" 1, .eq, y⟩])
        [⟨.word "and" 1, .and, .unaryExpression (.word "~" 1) .not x⟩]]))

/-! ## A method in the place of an operator -/

/-- `x == y` -/
def comparison : ExpressionTree :=
  .biExpression .equality (.identifier (.word "x" 1))
    [⟨.word "==" 1, .eq, .identifier (.word "y" 1)⟩]

/-- The instruction of task 0 raises nothing, and the method has counted before the end. -/
def World.countsHere (w : World) : Bool :=
  (match w.contextIns 0 with
    | some ins =>
      match execute noNatives w 0 0 ins with
      | some (.raise _ _) => false
      | _ => true
    | none => true) &&
  decide (w.running = some (0, 0) → (w.contexts.context 0).ins = 5 →
    w.store.get 1 "count" = some (.int 1))

end JeffVm
