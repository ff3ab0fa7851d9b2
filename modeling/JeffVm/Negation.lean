import JeffVm.Assembly
import JeffVm.SimpleMath

/-!
# Negated constants

A negated constant is compiled to one instruction, and so is a signed number of an assembly line.
Any other operand of a unary minus is evaluated and multiplied by minus one.
-/

set_option autoImplicit false

namespace JeffVm

def Primitive.negation : Primitive → Primitive
  | .char val => .char (wrap8 (-val))
  | .int val => .int (wrap32 (-val))
  | .float val => .float (-Float.ofBits val).toBits

/-- A unary minus on any expression. -/
def produceNegate (token : Token) (exp : ExpressionTree) : Producer :=
  produceInstructions exp + produceUnary token .negate

/-- The producer appends `code`, which leaves `p` in the result value and nothing else. -/
def Evaluates (env : Env) (t : TaskId) (c : ContextId) (w : World) (producer : Producer)
    (p : Primitive) : Prop :=
  ∀ tape, ∃ n tape' code, producer tape = some (n, tape') ∧ tape'.ins = tape.ins ++ code ∧
    executeEach env t c w code = some (.next ((w.frame t).withResval (.prim p)))

/-- The code of a negated constant and the general code leave the same primitive. -/
def NegatesAlike (env : Env) (t : TaskId) (c : ContextId) (w : World) (token const : Token) :
    Prop :=
  ∃ p, Evaluates env t c w (produceInstructions (.unaryExpression token .negate (.constant const)))
      p ∧ Evaluates env t c w (produceNegate token (.constant const)) p

/-- A line with a sign before the number `const` is read as the operation on its negation. -/
def ReadsNegation (tape : Tape) (first minus const : Token) (op : Op) (rest : List Token) : Prop :=
  ∃ p, tokenToPrimitive const = some p ∧ tapeReadIns tape (first :: minus :: const :: rest) =
    some (tape.add ⟨op, .val p.negation⟩ ⟨const.line, const.col⟩, rest)

section

variable {const : Token}

theorem insNeg_integer (h : const.type = .INTEGER) (tape : Tape) (op : Op) :
    tape.insNeg op const = some (tape.add
      ⟨op, .val (Primitive.negation (.int (wrap32 (strtoll const.text))))⟩
        ⟨const.line, const.col⟩) := by
  simp only [Tape.insNeg, tokenToPrimitive, h, Primitive.negation]

/-- The assertion of `pint` fails. -/
theorem insNeg_floating (h : const.type = .FLOATING) (tape : Tape) (op : Op) :
    tape.insNeg op const = none := by
  simp only [Tape.insNeg, tokenToPrimitive, h]

end

/-! ## Compiled code -/

section

variable (env : Env) (t : TaskId) (c : ContextId) (w : World) (token : Token) {const : Token}

theorem evaluates_integer (h : const.type = .INTEGER) :
    Evaluates env t c w (produceInstructions (.unaryExpression token .negate (.constant const)))
      (Primitive.negation (.int (wrap32 (strtoll const.text)))) := by
  intro tape
  refine ⟨1, tape.add ⟨.RES, .val (Primitive.negation (.int (wrap32 (strtoll const.text))))⟩
    ⟨const.line, const.col⟩, [⟨.RES, .val (Primitive.negation (.int (wrap32 (strtoll const.text))))⟩],
    ?_, ?_, ?_⟩
  · simp only [produceInstructions, Producer.insNeg, insNeg_integer h]
    rfl
  · rfl
  · rw [executeEach_single]
    rfl

/-- The general code leaves the product with minus one. -/
theorem executeEach_negate (n : Int) :
    executeEach env t c w [⟨.RES, .val (.int n)⟩, ⟨.PUSH, .noArg⟩, ⟨.PUSH, .val (.int (-1))⟩,
      ⟨.MULT, .noArg⟩] = some (.next ((w.frame t).withResval (.prim (.int (wrap32 (-n)))))) := by
  have hres : execute env w t c ⟨.RES, .val (.int n)⟩ =
      some (.next ((w.frame t).withResval (.prim (.int n)))) := rfl
  have hmul : primitiveResult .MULT (.int n) (.int (-1)) = some (.prim (.int (wrap32 (-n)))) := by
    rw [← mul_neg_one n]
    rfl
  rw [executeEach_next env t c w _ hres, executeEach_push, executeEach_push, executeEach_single,
    execute_mathOp rfl (by simp)]
  have hframe : ((w.setFrame t ((w.frame t).withResval (.prim (.int n)))).incIns c).frame t =
      (w.frame t).withResval (.prim (.int n)) := frame_step t c w _
  have hpush := @frame_afterPush _ _ c .noArg _ _ (congrArg (Frame.operand · _ c .noArg) hframe)
  have hpush' := @frame_afterPush _ _ c (.val (.int (-1))) _ _
    (congrArg (Frame.operand · _ c (.val (.int (-1)))) hpush)
  rw [hpush']
  simp only [executePrimitive, Frame.pop, Frame.push, Frame.withResval, hmul, Option.map_some]

theorem evaluates_produceNegate {n : Int} (h : tokenToPrimitive const = some (.int n)) :
    Evaluates env t c w (produceNegate token (.constant const)) (.int (wrap32 (-n))) := by
  intro tape
  have harg : Tape.argOfToken const = .val (.int n) := by
    rw [Tape.argOfToken, h]
  refine ⟨4, (((tape.insToken .RES const).insNoArg .PUSH token).insInt .PUSH (-1) token).insNoArg
    .MULT token, [⟨.RES, .val (.int n)⟩, ⟨.PUSH, .noArg⟩, ⟨.PUSH, .val (.int (-1))⟩,
    ⟨.MULT, .noArg⟩], ?_, ?_, ?_⟩
  · simp only [produceNegate, produceInstructions]
    rfl
  · simp [Tape.insToken, Tape.insNoArg, Tape.insInt, harg]
  · exact executeEach_negate env t c w n

end

section

variable {env : Env} {t : TaskId} {c : ContextId} {w : World} {token const : Token}

theorem negatesAlike_iff (hnum : const.type = .INTEGER ∨ const.type = .FLOATING) :
    NegatesAlike env t c w token const ↔ const.type = .INTEGER := by
  constructor
  · rintro ⟨p, hfast, -⟩
    obtain hint | hfloat := hnum
    · exact hint
    · obtain ⟨n, tape', code, hproduce, -, -⟩ := hfast Tape.create
      simp only [produceInstructions, Producer.insNeg, insNeg_floating hfloat] at hproduce
      cases hproduce
  · intro hint
    refine ⟨_, evaluates_integer env t c w token hint, ?_⟩
    apply evaluates_produceNegate
    simp only [tokenToPrimitive, hint]

end

/-! ## Assembly lines -/

section

variable {tape : Tape} {first minus const : Token} {op : Op} {rest : List Token}

theorem tapeReadIns_negative (hfirst : NamesOp first op) (hminus : minus.type = .MINUS) :
    tapeReadIns tape (first :: minus :: const :: rest) =
      (tape.insNeg op const).map fun tape => (tape, rest) := by
  rw [tapeReadIns_op hfirst, readOp, if_neg (by simp [hminus]), if_pos hminus]

theorem readsNegation_iff (hfirst : NamesOp first op) (hminus : minus.type = .MINUS)
    (hnum : const.type = .INTEGER ∨ const.type = .FLOATING) :
    ReadsNegation tape first minus const op rest ↔ const.type = .INTEGER := by
  unfold ReadsNegation
  rw [tapeReadIns_negative hfirst hminus]
  constructor
  · rintro ⟨p, -, hread⟩
    obtain hint | hfloat := hnum
    · exact hint
    · rw [insNeg_floating hfloat] at hread
      cases hread
  · intro hint
    refine ⟨.int (wrap32 (strtoll const.text)), ?_, ?_⟩
    · simp only [tokenToPrimitive, hint]
    · rw [insNeg_integer hint]
      rfl

end

/-- The constant path and the assembly reader negate the integers, and fail on every other
number. -/
theorem negation_agrees_iff (env : Env) (t : TaskId) (c : ContextId) (w : World) (tape : Tape)
    (token first minus const : Token) (op : Op) (rest : List Token)
    (hnum : const.type = .INTEGER ∨ const.type = .FLOATING) (hfirst : NamesOp first op)
    (hminus : minus.type = .MINUS) :
    (NegatesAlike env t c w token const ↔ const.type = .INTEGER) ∧
      (ReadsNegation tape first minus const op rest ↔ const.type = .INTEGER) :=
  ⟨negatesAlike_iff hnum, readsNegation_iff hfirst hminus hnum⟩

theorem negation_agrees_seven :
    NegatesAlike noNatives 0 0 oneVariable ⟨.MINUS, 1, 8, "-"⟩ ⟨.INTEGER, 1, 9, "7"⟩ ∧
      ReadsNegation Tape.create ⟨.WORD, 1, 3, "push"⟩ ⟨.MINUS, 1, 8, "-"⟩ ⟨.INTEGER, 1, 9, "7"⟩
        .PUSH [] := by
  have h := negation_agrees_iff noNatives 0 0 oneVariable Tape.create ⟨.MINUS, 1, 8, "-"⟩
    ⟨.WORD, 1, 3, "push"⟩ ⟨.MINUS, 1, 8, "-"⟩ ⟨.INTEGER, 1, 9, "7"⟩ .PUSH [] (.inl rfl)
    ⟨rfl, by simp, by simp⟩ rfl
  exact ⟨h.1.mpr rfl, h.2.mpr rfl⟩

/-- `-1.5` neither compiles nor is read back. -/
theorem not_negation_agrees : ¬ ∀ (env : Env) (t : TaskId) (c : ContextId) (w : World)
    (tape : Tape) (token first minus const : Token) (op : Op) (rest : List Token),
    const.type = .INTEGER ∨ const.type = .FLOATING → NamesOp first op → minus.type = .MINUS →
      NegatesAlike env t c w token const ∧ ReadsNegation tape first minus const op rest := by
  intro h
  obtain ⟨-, hreads⟩ := h noNatives 0 0 oneVariable Tape.create ⟨.MINUS, 1, 1, "-"⟩
    ⟨.WORD, 1, 3, "push"⟩ ⟨.MINUS, 1, 8, "-"⟩ ⟨.FLOATING, 1, 9, "1.5"⟩ .PUSH [] (.inr rfl)
    ⟨rfl, by simp, by simp⟩ rfl
  have hint := (readsNegation_iff ⟨rfl, by simp, by simp⟩ rfl (.inr rfl)).mp hreads
  cases hint

end JeffVm
