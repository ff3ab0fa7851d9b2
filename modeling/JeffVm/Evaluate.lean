import JeffVm.Lowered

/-!
# The value of an expression

An interpreter for the expressions that call no function: constants, variables, strings, tuples,
arrays, operators on primitives, `and` and `or`, and conditionals. It follows the tree and threads
the heap, and what it computes is what the expression does.
-/

set_option autoImplicit false

namespace JeffVm

/-! ## Operations -/

/-- The value of a name or a constant. -/
def operandValue (cs : Contexts) (c : ContextId) (s : Store) : Arg → Option (Entity × Store)
  | .id id => some ((contextLookup s cs c id).1.getD .none, (contextLookup s cs c id).2)
  | .val val => some (.prim val, s)
  | .str str =>
    let (o, s) := s.stringNew (str.toList.drop 1).dropLast
    some (.obj o, s)
  | .noArg => none

/-- The operators on primitives, where `|` takes the first operand that is not `None`. -/
def binaryValue (op : Op) (first second : Entity) : Option Entity :=
  match op, first, second with
  | .BOR, .none, e => some e
  | .BOR, .obj o, _ => some (.obj o)
  | .EQ, .prim p, .prim q => some (equalityResult .EQ p q)
  | .NEQ, .prim p, .prim q => some (equalityResult .NEQ p q)
  | op, .prim p, .prim q => primitiveResult op p q
  | _, _, _ => none

def Store.tupleNew (s : Store) (values : List Entity) : Entity × Store :=
  let (o, s) := s.heapNewWith .Tuple (.tuple values)
  (.obj o, s)

def Store.arrayNew (s : Store) (values : List Entity) : Entity × Store :=
  let (o, s) := s.heapNew .Array
  (.obj o, values.foldl (fun s e => s.arrayAdd o e) s)

/-! ## The interpreter -/

mutual

/-- The value of the expression in context `c`, and the heap after it. -/
def evaluate (cs : Contexts) (c : ContextId) : ExpressionTree → Store → Option (Entity × Store)
  | .identifier id, s =>
    if id.text = trueKeyword then some (.int 1, s)
    else if id.text = falseKeyword ∨ id.text = nilKeyword then some (.none, s)
    else operandValue cs c s (Tape.argOfToken id)
  | .constant token, s => operandValue cs c s (Tape.argOfToken token)
  | .stringLiteral token, s => operandValue cs c s (Tape.argOfToken token)
  | .tupleExpression _ list, s =>
    (evaluateElements cs c list s).map fun (values, s) => s.tupleNew values
  | .arrayDeclaration _ exp, s =>
    match exp with
    | none => some (s.arrayNew [])
    | some (.tupleExpression _ list) =>
      (evaluateElements cs c list s).map fun (values, s) => s.arrayNew values
    | some exp => (evaluate cs c exp s).map fun (value, s) => s.arrayNew [value]
  | .primaryExpression exp, s => evaluate cs c exp s
  | .primaryExpressionNoConstants exp, s => evaluate cs c exp s
  | .unaryExpression _ .not exp, s =>
    (evaluate cs c exp s).map fun (value, s) => (if value.isNone then .int 1 else .none, s)
  | .unaryExpression _ .negate exp, s =>
    match exp with
    | .constant constantToken =>
      match tokenToPrimitive constantToken with
      | some (.int n) => some (.int (wrap32 (-n)), s)
      | _ => none
    | exp =>
      (evaluate cs c exp s).bind fun (value, s) =>
        (binaryValue .MULT value (.int (-1))).map fun result => (result, s)
  | .biExpression _ exp suffixes, s =>
    (evaluate cs c exp s).bind fun (value, s) => evaluateOperators cs c suffixes value s
  | .andExpression exp suffixes, s =>
    (evaluate cs c exp s).bind fun (value, s) => evaluateChain cs c .IFN suffixes value s
  | .orExpression exp suffixes, s =>
    (evaluate cs c exp s).bind fun (value, s) => evaluateChain cs c .IF suffixes value s
  | .conditionalExpression ifElse, s => evaluateIfElse cs c ifElse s
  | _, _ => none

/-- The values of the elements; the last one is evaluated first. -/
def evaluateElements (cs : Contexts) (c : ContextId) :
    List ExpressionTree → Store → Option (List Entity × Store)
  | [], s => some ([], s)
  | elt :: rest, s =>
    (evaluateElements cs c rest s).bind fun (values, s) =>
      (evaluate cs c elt s).map fun (value, s) => (value :: values, s)

/-- A chain of operators of one level, from the left. -/
def evaluateOperators (cs : Contexts) (c : ContextId) :
    List BiSuffix → Entity → Store → Option (Entity × Store)
  | [], value, s => some (value, s)
  | ⟨_, type, exp⟩ :: rest, value, s =>
    match biToIns type with
    | none => none
    | some op =>
      (evaluate cs c exp s).bind fun (second, s) =>
        (binaryValue op value second).bind fun result => evaluateOperators cs c rest result s

/-- The rest of a chain of `and` or `or`, which ends with the value that decides it. -/
def evaluateChain (cs : Contexts) (c : ContextId) (test : Test) :
    List BiSuffix → Entity → Store → Option (Entity × Store)
  | [], value, s => some (value, s)
  | ⟨_, _, exp⟩ :: rest, value, s =>
    if test.jumps value then some (value, s)
    else (evaluate cs c exp s).bind fun (value, s) => evaluateChain cs c test rest value s

/-- The value of the first branch whose condition holds. -/
def evaluateIfElse (cs : Contexts) (c : ContextId) : IfElse → Store → Option (Entity × Store)
  | ⟨first, rest, elseExp⟩, s =>
    evaluateConditional cs c first s fun condition s =>
      evaluateConditionals cs c rest condition s fun condition s =>
        match elseExp with
        | none => some (condition, s)
        | some e => evaluate cs c e s

def evaluateConditional (cs : Contexts) (c : ContextId) :
    Conditional → Store → (Entity → Store → Option (Entity × Store)) → Option (Entity × Store)
  | ⟨_, condition, body⟩, s, otherwise =>
    (evaluate cs c condition s).bind fun (value, s) =>
      if value.isNone then otherwise value s else evaluate cs c body s

def evaluateConditionals (cs : Contexts) (c : ContextId) :
    List Conditional → Entity → Store → (Entity → Store → Option (Entity × Store)) →
      Option (Entity × Store)
  | [], condition, s, otherwise => otherwise condition s
  | cond :: rest, _, s, otherwise =>
    evaluateConditional cs c cond s fun condition s =>
      evaluateConditionals cs c rest condition s otherwise

end

/-! ## The operations on the machine -/

section Operations

variable {env : Env} {routines : Routines} {c : ContextId} {m : Memory} {s s' : Store}
  {cs : Contexts} {value result : Entity} {values stack : List Entity}

theorem popN_append (s : Store) (value : Entity) (values stack : List Entity) :
    (⟨s, value, values ++ stack⟩ : Frame).popN values.length =
      some (values, ⟨s, value, stack⟩) := by
  induction values with
  | nil => rfl
  | cons e rest ih =>
    rw [List.length_cons, List.cons_append, Frame.popN]
    simp only [Frame.pop, ih]

theorem does_operand {arg : Arg} (h : operandValue cs c s arg = some (result, s')) :
    ((Memory.mk s cs value).scene stack).Does env c ⟨.RES, arg⟩ (.next ⟨s', result, stack⟩) := by
  cases arg with
  | noArg => cases h
  | id id =>
    cases h
    apply Scene.does_next (contextLookup_sameProgram s cs id)
    intro w t hscene
    simp only [execute, executeRES, World.frame_of_scene hscene, Frame.lookupOrNone, Frame.lookup,
      World.contextLookup_of_scene hscene]
    rfl
  | val val =>
    cases h
    apply Scene.does_next (.refl s)
    intro w t hscene
    simp only [execute, executeRES, World.frame_of_scene hscene]
    rfl
  | str str =>
    cases h
    apply Scene.does_next ⟨fun _ => rfl, rfl⟩
    intro w t hscene
    simp only [execute, executeRES, World.frame_of_scene hscene]
    rfl

theorem does_tuple : ((Memory.mk s cs value).scene (values ++ stack)).Does env c
    ⟨.TUPL, .val (.int values.length)⟩
      (.next ⟨(s.tupleNew values).2, (s.tupleNew values).1, stack⟩) := by
  apply Scene.does_next ⟨fun _ => rfl, rfl⟩
  intro w t hscene
  have hpop := popN_append (s.heapNew .Tuple).2 value values stack
  simp only [execute, executeTUPL, World.frame_of_scene hscene, Int.toNat_natCast, Memory.scene,
    Scene.frame, hpop]
  rfl

theorem Store.sameProgram_arrayAdd (o : ObjectId) (values : List Entity) (s : Store) :
    s.SameProgram (values.foldl (fun s e => s.arrayAdd o e) s) := by
  induction values generalizing s with
  | nil => exact .refl s
  | cons e rest ih =>
    have hfirst : s.SameProgram (s.arrayAdd o e) := ⟨fun _ => rfl, rfl⟩
    exact hfirst.trans (ih (s.arrayAdd o e))

theorem Store.sameProgram_arrayNew (s : Store) (values : List Entity) :
    s.SameProgram (s.arrayNew values).2 :=
  (s.sameProgram_heapNew .Array).trans (Store.sameProgram_arrayAdd _ values _)

theorem does_array : ((Memory.mk s cs value).scene (values ++ stack)).Does env c
    ⟨.ANEW, .val (.int values.length)⟩
      (.next ⟨(s.arrayNew values).2, (s.arrayNew values).1, stack⟩) := by
  apply Scene.does_next (s.sameProgram_arrayNew values)
  intro w t hscene
  have hpop := popN_append (s.heapNew .Array).2 value values stack
  simp only [execute, executeANEW, World.frame_of_scene hscene, Int.toNat_natCast, Memory.scene,
    Scene.frame, hpop]
  rfl

theorem does_arrayEmpty : ((Memory.mk s cs value).scene stack).Does env c ⟨.ANEW, .noArg⟩
    (.next ⟨(s.arrayNew []).2, (s.arrayNew []).1, stack⟩) := by
  apply Scene.does_next (s.sameProgram_heapNew .Array)
  intro w t hscene
  simp only [execute, executeANEW, World.frame_of_scene hscene]
  rfl

theorem does_not : ((Memory.mk s cs value).scene stack).Does env c ⟨.NOT, .noArg⟩
    (.next ⟨s, if value.isNone then .int 1 else .none, stack⟩) := by
  apply Scene.does_next (.refl s)
  intro w t hscene
  simp only [execute, executeNOT, World.frame_of_scene hscene]
  rfl

/-- The operators that take only primitives. -/
theorem executePrimitive_eq {op : Op} {p q : Primitive} (w : World) (t : TaskId)
    (h : primitiveResult op p q = some result) :
    executePrimitive w t c op .noArg ⟨s, value, .prim q :: .prim p :: stack⟩ =
      some (.next ⟨s, result, stack⟩) := by
  simp only [executePrimitive, Frame.pop, h]
  rfl

theorem execute_binary {op : Op} {type : BiType} {first second : Entity}
    (htype : biToIns type = some op) (h : binaryValue op first second = some result) (w : World)
    (t : TaskId) (hframe : w.frame t = ⟨s, value, second :: first :: stack⟩) :
    execute env w t c ⟨op, .noArg⟩ = some (.next ⟨s, result, stack⟩) := by
  cases first with
  | none =>
    cases op <;> cases h
    simp only [execute, executeBOR, hframe]
  | obj o =>
    cases op <;> cases h
    simp only [execute, executeBOR, hframe]
  | prim p =>
    cases second with
    | none => cases op <;> cases h
    | obj o => cases op <;> cases h
    | prim q =>
      have hprimitive : primitiveResult op p q = some result →
          executePrimitive w t c op .noArg (w.frame t) = some (.next ⟨s, result, stack⟩) := by
        rw [hframe]
        exact executePrimitive_eq w t
      cases type with
      | unknown => cases htype
      | eq =>
        cases htype
        cases h
        simp only [execute, executeEQ, hframe, equalityOfPrimitives]
        rfl
      | neq =>
        cases htype
        cases h
        simp only [execute, executeEQ, hframe, equalityOfPrimitives]
        rfl
      | binOr =>
        cases htype
        rw [← hprimitive h]
        simp only [execute, executeBOR, hframe]
      | _ =>
        cases htype
        exact hprimitive h

theorem does_binary {op : Op} {type : BiType} {first second : Entity}
    (htype : biToIns type = some op) (h : binaryValue op first second = some result) :
    ((Memory.mk s cs value).scene (second :: first :: stack)).Does env c ⟨op, .noArg⟩
      (.next ⟨s, result, stack⟩) := by
  apply Scene.does_next (.refl s)
  intro w t hscene
  exact execute_binary htype h w t (World.frame_of_scene hscene)

end Operations

/-! ## The interpreter and the semantics -/

/-- A phrase gets to the value and the heap, whatever the value before was. -/
def Gets (env : Env) (routines : Routines) (cs : Contexts) (c : ContextId) (phrase : Phrase)
    (s : Store) (r : Entity × Store) : Prop :=
  ∀ value, Eval env routines c phrase ⟨s, cs, value⟩ .normal ⟨r.2, cs, r.1⟩

section Sound

variable {env : Env} {routines : Routines} {c : ContextId} {cs : Contexts} {s s' : Store}
  {value result : Entity} {values : List Entity} {r : Entity × Store}

theorem gets_operand {arg : Arg} (h : operandValue cs c s arg = some r) :
    Gets env routines cs c (.operate ⟨.RES, arg⟩ []) s r :=
  fun _ => .operate (fun _ => does_operand h) rfl

theorem eval_tuple : Eval env routines c (.operate ⟨.TUPL, .val (.int values.length)⟩ values)
    ⟨s, cs, value⟩ .normal ⟨(s.tupleNew values).2, cs, (s.tupleNew values).1⟩ :=
  .operate (fun _ => does_tuple) rfl

theorem eval_array : Eval env routines c (.operate ⟨.ANEW, .val (.int values.length)⟩ values)
    ⟨s, cs, value⟩ .normal ⟨(s.arrayNew values).2, cs, (s.arrayNew values).1⟩ :=
  .operate (fun _ => does_array) rfl

theorem eval_binary {op : Op} {type : BiType} {first second : Entity}
    (htype : biToIns type = some op) (h : binaryValue op first second = some result) :
    Eval env routines c (.operate ⟨op, .noArg⟩ [second, first]) ⟨s, cs, value⟩ .normal
      ⟨s, cs, result⟩ :=
  .operate (fun _ => does_binary htype h) rfl

theorem eval_ifElse {ifElse : IfElse} {m m' : Memory} {signal : Signal}
    (h : Eval env routines c (.branches ifElse.first ifElse.rest ifElse.elseExp) m signal m') :
    Eval env routines c (.tree (.conditionalExpression ifElse)) m signal m' := by
  obtain ⟨first, rest, elseExp⟩ := ifElse
  exact .conditional h

theorem evaluate_arraySingle {token : Token} {exp : ExpressionTree}
    (hexp : ∀ tupleToken list, exp ≠ .tupleExpression tupleToken list) :
    evaluate cs c (.arrayDeclaration token (some exp)) s =
      (evaluate cs c exp s).map fun (value, s) => s.arrayNew [value] := by
  cases exp with
  | tupleExpression tupleToken list => exact absurd rfl (hexp tupleToken list)
  | _ => rfl

theorem Gets.arraySingle {token : Token} {exp : ExpressionTree}
    (hexp : ∀ tupleToken list, exp ≠ .tupleExpression tupleToken list)
    (hvalue : ∀ {s r}, evaluate cs c exp s = some r → Gets env routines cs c (.tree exp) s r)
    (h : evaluate cs c (.arrayDeclaration token (some exp)) s = some r) :
    Gets env routines cs c (.tree (.arrayDeclaration token (some exp))) s r := by
  intro value
  rw [evaluate_arraySingle hexp] at h
  obtain ⟨⟨element, s'⟩, heval, rfl⟩ := Option.map_eq_some_iff.mp h
  have hlength : ([element].length : Int) = 1 := rfl
  have harray : Eval env routines c (.operate ⟨.ANEW, .val (.int [element].length)⟩ [element])
      ⟨s', cs, element⟩ .normal ⟨(s'.arrayNew [element]).2, cs, (s'.arrayNew [element]).1⟩ :=
    eval_array
  rw [hlength] at harray
  exact .arraySingle hexp (hvalue heval value) harray

theorem Gets.not {token : Token} {exp : ExpressionTree}
    (hvalue : ∀ {s r}, evaluate cs c exp s = some r → Gets env routines cs c (.tree exp) s r)
    (h : evaluate cs c (.unaryExpression token .not exp) s = some r) :
    Gets env routines cs c (.tree (.unaryExpression token .not exp)) s r := by
  intro value
  obtain ⟨⟨operand, s'⟩, heval, rfl⟩ := Option.map_eq_some_iff.mp h
  exact .unary rfl (hvalue heval value) (.operate (fun _ => does_not) rfl)

theorem evaluate_negate {token : Token} {exp : ExpressionTree}
    (hexp : ∀ constantToken, exp ≠ .constant constantToken) :
    evaluate cs c (.unaryExpression token .negate exp) s =
      (evaluate cs c exp s).bind fun (value, s) =>
        (binaryValue .MULT value (.int (-1))).map fun result => (result, s) := by
  cases exp with
  | constant constantToken => exact absurd rfl (hexp constantToken)
  | _ => rfl

theorem Gets.negate {token : Token} {exp : ExpressionTree}
    (hexp : ∀ constantToken, exp ≠ .constant constantToken)
    (hvalue : ∀ {s r}, evaluate cs c exp s = some r → Gets env routines cs c (.tree exp) s r)
    (h : evaluate cs c (.unaryExpression token .negate exp) s = some r) :
    Gets env routines cs c (.tree (.unaryExpression token .negate exp)) s r := by
  intro value
  rw [evaluate_negate hexp] at h
  obtain ⟨⟨operand, s'⟩, heval, h⟩ := Option.bind_eq_some_iff.mp h
  obtain ⟨result, hresult, rfl⟩ := Option.map_eq_some_iff.mp h
  have htype : biToIns .mult = some .MULT := rfl
  exact .negate hexp (hvalue heval value) (eval_binary htype hresult)

theorem Gets.negConstant {token constantToken : Token}
    (h : evaluate cs c (.unaryExpression token .negate (.constant constantToken)) s = some r) :
    Gets env routines cs c (.tree (.unaryExpression token .negate (.constant constantToken))) s
      r := by
  intro value
  rw [evaluate] at h
  split at h
  · next n hn =>
    cases h
    exact .negConstant hn
  · cases h

/-- A conditional takes its body, or its condition does not hold and the value goes on. -/
def Decides (env : Env) (routines : Routines) (cs : Contexts) (c : ContextId) (cond : Conditional)
    (s : Store) (otherwise : Entity → Store → Option (Entity × Store)) (r : Entity × Store) :
    Prop :=
  ∀ value, ∃ condition s₁,
    Eval env routines c (.tree cond.condition) ⟨s, cs, value⟩ .normal ⟨s₁, cs, condition⟩ ∧
      ((condition.isNone = true ∧ otherwise condition s₁ = some r) ∨
        (condition.isNone = false ∧
          Eval env routines c (.tree cond.body) ⟨s₁, cs, condition⟩ .normal ⟨r.2, cs, r.1⟩))

/-- What is left to compute when a condition does not hold is what the branches after it do. -/
def Otherwise (env : Env) (routines : Routines) (cs : Contexts) (c : ContextId)
    (rest : List Conditional) (elseExp : Option ExpressionTree)
    (otherwise : Entity → Store → Option (Entity × Store)) (r : Entity × Store) : Prop :=
  ∀ (cond : Conditional) (m : Memory) (condition : Entity) (s : Store),
    Eval env routines c (.tree cond.condition) m .normal ⟨s, cs, condition⟩ →
      condition.isNone = true → otherwise condition s = some r →
        Eval env routines c (.branches cond rest elseExp) m .normal ⟨r.2, cs, r.1⟩

theorem Decides.branches {cond : Conditional} {rest : List Conditional}
    {elseExp : Option ExpressionTree} {otherwise : Entity → Store → Option (Entity × Store)}
    (h : Decides env routines cs c cond s otherwise r)
    (hrest : Otherwise env routines cs c rest elseExp otherwise r) :
    Gets env routines cs c (.branches cond rest elseExp) s r := by
  intro value
  obtain ⟨condition, s₁, hcondition, hnone | hbody⟩ := h value
  · exact hrest cond _ condition s₁ hcondition hnone.1 hnone.2
  · obtain ⟨ifToken, exp, body⟩ := cond
    exact .taken hcondition hbody.1 hbody.2

theorem Otherwise.noElse :
    Otherwise env routines cs c [] none (fun condition s => some (condition, s)) r := by
  rintro ⟨ifToken, exp, body⟩ m condition s hcondition hnone h
  cases h
  exact .noBranch hcondition hnone

theorem Otherwise.withElse {e : ExpressionTree}
    (he : ∀ {s r}, evaluate cs c e s = some r → Gets env routines cs c (.tree e) s r) :
    Otherwise env routines cs c [] (some e) (fun _ s => evaluate cs c e s) r := by
  rintro ⟨ifToken, exp, body⟩ m condition s hcondition hnone h
  exact .otherwise hcondition hnone (he h condition)

theorem Otherwise.cons {next : Conditional} {rest : List Conditional}
    {elseExp : Option ExpressionTree}
    {after otherwise : Entity → Store → Option (Entity × Store)}
    (hnext : ∀ {s}, evaluateConditional cs c next s after = some r →
      Decides env routines cs c next s after r)
    (hrest : Otherwise env routines cs c rest elseExp after r)
    (hotherwise : ∀ condition s, otherwise condition s = evaluateConditional cs c next s after) :
    Otherwise env routines cs c (next :: rest) elseExp otherwise r := by
  rintro ⟨ifToken, exp, body⟩ m condition s hcondition hnone h
  rw [hotherwise] at h
  exact .passed hcondition hnone ((hnext h).branches hrest condition)

end Sound

mutual

/-- What the interpreter computes is what the expression does. -/
theorem evaluate_gets (env : Env) (routines : Routines) (cs : Contexts) (c : ContextId) :
    ∀ (e : ExpressionTree) {s : Store} {r : Entity × Store}, evaluate cs c e s = some r →
      Gets env routines cs c (.tree e) s r
  | .identifier id, s, r, h => by
    intro value
    rw [evaluate] at h
    split at h
    · next htrue =>
      cases h
      exact .one htrue
    · next htrue =>
      split at h
      · next hnothing =>
        cases h
        exact .nothing htrue hnothing
      · next hnothing => exact .identifier htrue hnothing (gets_operand h value)
  | .constant token, _, _, h => fun value => .constant (gets_operand h value)
  | .stringLiteral token, _, _, h => fun value => .stringLiteral (gets_operand h value)
  | .tupleExpression token list, s, r, h => by
    intro value
    obtain ⟨⟨values, s'⟩, helements, rfl⟩ := Option.map_eq_some_iff.mp h
    obtain ⟨value', heval, hlength⟩ := evaluateElements_gets env routines cs c list helements value
    apply Eval.tuple heval
    rw [← hlength]
    exact eval_tuple
  | .arrayDeclaration token none, s, r, h => by
    intro value
    cases h
    exact .arrayEmpty (.operate (fun _ => does_arrayEmpty) rfl)
  | .arrayDeclaration token (some exp), s, r, h => by
    have hexp : ∀ {s r}, evaluate cs c exp s = some r → Gets env routines cs c (.tree exp) s r :=
      evaluate_gets env routines cs c exp
    cases exp with
    | tupleExpression tupleToken list =>
      intro value
      obtain ⟨⟨values, s'⟩, helements, rfl⟩ := Option.map_eq_some_iff.mp h
      obtain ⟨value', heval, hlength⟩ :=
        evaluateElements_gets env routines cs c list helements value
      apply Eval.arrayTuple heval
      rw [← hlength]
      exact eval_array
    | _ => exact Gets.arraySingle (fun _ _ heq => by cases heq) hexp h
  | .primaryExpression exp, _, _, h => fun value =>
    .primary (evaluate_gets env routines cs c exp h value)
  | .primaryExpressionNoConstants exp, _, _, h => fun value =>
    .primaryNoConstants (evaluate_gets env routines cs c exp h value)
  | .unaryExpression token type exp, s, r, h => by
    have hexp : ∀ {s r}, evaluate cs c exp s = some r → Gets env routines cs c (.tree exp) s r :=
      evaluate_gets env routines cs c exp
    cases type with
    | not => exact Gets.not hexp h
    | negate =>
      cases exp with
      | constant constantToken => exact Gets.negConstant h
      | _ => exact Gets.negate (fun _ heq => by cases heq) hexp h
    | _ => cases h
  | .biExpression level exp suffixes, s, r, h => by
    intro value
    obtain ⟨⟨first, s'⟩, hfirst, hrest⟩ := Option.bind_eq_some_iff.mp h
    exact .bi (evaluate_gets env routines cs c exp hfirst value)
      (evaluateOperators_gets env routines cs c suffixes hrest)
  | .andExpression exp suffixes, s, r, h => by
    intro value
    obtain ⟨⟨first, s'⟩, hfirst, hrest⟩ := Option.bind_eq_some_iff.mp h
    exact .and (evaluate_gets env routines cs c exp hfirst value)
      (evaluateChain_gets env routines cs c .IFN suffixes hrest)
  | .orExpression exp suffixes, s, r, h => by
    intro value
    obtain ⟨⟨first, s'⟩, hfirst, hrest⟩ := Option.bind_eq_some_iff.mp h
    exact .or (evaluate_gets env routines cs c exp hfirst value)
      (evaluateChain_gets env routines cs c .IF suffixes hrest)
  | .conditionalExpression ifElse, _, _, h => fun value =>
    eval_ifElse (evaluateIfElse_gets env routines cs c ifElse h value)
  | .mapDeclaration _ _, _, _, h => by cases h
  | .postfixExpression _ _, _, _, h => by cases h
  | .rangeExpression _ _ _ _, _, _, h => by cases h
  | .inExpression _ _ _ _, _, _, h => by cases h
  | .isExpression _ _ _, _, _, h => by cases h
  | .anonFunctionDefinition _, _, _, h => by cases h
  | .assignmentExpression _ _ _, _, _, h => by cases h
  | .foreachStatement _ _ _ _ _, _, _, h => by cases h
  | .forStatement _ _ _ _ _, _, _, h => by cases h
  | .whileStatement _ _ _, _, _, h => by cases h
  | .compoundStatement _, _, _, h => by cases h
  | .tryStatement _ _ _ _ _, _, _, h => by cases h
  | .raiseStatement _ _, _, _, h => by cases h
  | .selectionStatement _, _, _, h => by cases h
  | .jumpStatement _ _, _, _, h => by cases h
  | .breakStatement _ _, _, _, h => by cases h
  | .exitStatement _, _, _, h => by cases h

theorem evaluateElements_gets (env : Env) (routines : Routines) (cs : Contexts) (c : ContextId) :
    ∀ (list : List ExpressionTree) {s s' : Store} {values : List Entity},
      evaluateElements cs c list s = some (values, s') → ∀ value, ∃ value',
        Eval env routines c (.elements list values) ⟨s, cs, value⟩ .normal ⟨s', cs, value'⟩ ∧
          values.length = list.length
  | [], s, s', values, h => by
    intro value
    cases h
    exact ⟨value, .elementsNil, rfl⟩
  | elt :: rest, s, s', values, h => by
    intro value
    obtain ⟨⟨restValues, s₁⟩, hrest, helt⟩ := Option.bind_eq_some_iff.mp h
    obtain ⟨⟨eltValue, s₂⟩, helt, heq⟩ := Option.map_eq_some_iff.mp helt
    cases heq
    obtain ⟨value', heval, hlength⟩ := evaluateElements_gets env routines cs c rest hrest value
    exact ⟨eltValue, .elementsCons heval (evaluate_gets env routines cs c elt helt value'),
      congrArg (· + 1) hlength⟩

theorem evaluateOperators_gets (env : Env) (routines : Routines) (cs : Contexts) (c : ContextId) :
    ∀ (suffixes : List BiSuffix) {value : Entity} {s : Store} {r : Entity × Store},
      evaluateOperators cs c suffixes value s = some r →
        Eval env routines c (.operators suffixes) ⟨s, cs, value⟩ .normal ⟨r.2, cs, r.1⟩
  | [], value, s, r, h => by
    cases h
    exact .operatorsNil
  | ⟨token, type, exp⟩ :: rest, value, s, r, h => by
    rw [evaluateOperators] at h
    split at h
    · cases h
    · next op htype =>
      obtain ⟨⟨second, s'⟩, hsecond, h⟩ := Option.bind_eq_some_iff.mp h
      obtain ⟨result, hresult, hrest⟩ := Option.bind_eq_some_iff.mp h
      exact .operatorsCons htype (evaluate_gets env routines cs c exp hsecond value)
        (eval_binary htype hresult) (evaluateOperators_gets env routines cs c rest hrest)

theorem evaluateChain_gets (env : Env) (routines : Routines) (cs : Contexts) (c : ContextId)
    (test : Test) : ∀ (suffixes : List BiSuffix) {value : Entity} {s : Store} {r : Entity × Store},
      evaluateChain cs c test suffixes value s = some r →
        Eval env routines c (.chain test suffixes) ⟨s, cs, value⟩ .normal ⟨r.2, cs, r.1⟩
  | [], value, s, r, h => by
    cases h
    exact .chainNil
  | ⟨token, type, exp⟩ :: rest, value, s, r, h => by
    rw [evaluateChain] at h
    split at h
    · next hjumps =>
      cases h
      exact .chainStop hjumps
    · next hjumps =>
      obtain ⟨⟨second, s'⟩, hsecond, hrest⟩ := Option.bind_eq_some_iff.mp h
      exact .chainCons (Bool.eq_false_iff.mpr hjumps)
        (evaluate_gets env routines cs c exp hsecond value)
        (evaluateChain_gets env routines cs c test rest hrest)

theorem evaluateIfElse_gets (env : Env) (routines : Routines) (cs : Contexts) (c : ContextId) :
    ∀ (ifElse : IfElse) {s : Store} {r : Entity × Store}, evaluateIfElse cs c ifElse s = some r →
      Gets env routines cs c (.branches ifElse.first ifElse.rest ifElse.elseExp) s r
  | ⟨first, rest, none⟩, _, r, h =>
    (evaluateConditional_decides env routines cs c first h).branches
      (evaluateConditionals_follows env routines cs c rest none r .noElse)
  | ⟨first, rest, some e⟩, _, r, h =>
    (evaluateConditional_decides env routines cs c first h).branches
      (evaluateConditionals_follows env routines cs c rest (some e) r
        (.withElse (evaluate_gets env routines cs c e)))

theorem evaluateConditional_decides (env : Env) (routines : Routines) (cs : Contexts)
    (c : ContextId) : ∀ (cond : Conditional) {s : Store} {r : Entity × Store}
      {otherwise : Entity → Store → Option (Entity × Store)},
      evaluateConditional cs c cond s otherwise = some r →
        Decides env routines cs c cond s otherwise r
  | ⟨ifToken, condition, body⟩, s, r, otherwise, h => by
    intro value
    obtain ⟨⟨result, s₁⟩, hcondition, h⟩ := Option.bind_eq_some_iff.mp h
    refine ⟨result, s₁, evaluate_gets env routines cs c condition hcondition value, ?_⟩
    simp only at h
    split at h
    · next hnone => exact .inl ⟨hnone, h⟩
    · next hsome =>
      exact .inr ⟨Bool.eq_false_iff.mpr hsome, evaluate_gets env routines cs c body h result⟩

theorem evaluateConditionals_follows (env : Env) (routines : Routines) (cs : Contexts)
    (c : ContextId) : ∀ (rest : List Conditional) (elseExp : Option ExpressionTree)
      (r : Entity × Store) {otherwise : Entity → Store → Option (Entity × Store)},
      Otherwise env routines cs c [] elseExp otherwise r →
        Otherwise env routines cs c rest elseExp
          (fun condition s => evaluateConditionals cs c rest condition s otherwise) r
  | [], _, _, _, helse => helse
  | next :: rest, elseExp, r, _, helse =>
    .cons (evaluateConditional_decides env routines cs c next)
      (evaluateConditionals_follows env routines cs c rest elseExp r helse) fun _ _ => rfl

end

end JeffVm
