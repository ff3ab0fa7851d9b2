import JeffVm.SimpleMath
import JeffVm.Unwind
import Mathlib.Data.Int.ModEq

/-!
# Arithmetic instructions

What the instructions of `PRIMITIVE_OP` on numbers do with operands of every kind. Each either puts
a result in `resval` or raises an error, unless it reaches an operation that C leaves undefined or
one of the places where the VM gives up.
-/

set_option autoImplicit false

namespace JeffVm

namespace Op

def isArithmetic : Op → Bool
  | .ADD | .SUB | .MULT | .DIV | .MOD | .BAND | .BXOR | .BOR => true
  | _ => false

/-- The operators of `MATH_OP_INT`. -/
def isIntOnly : Op → Bool
  | .MOD | .BAND | .BXOR | .BOR => true
  | _ => false

def divides : Op → Bool
  | .DIV | .MOD => true
  | _ => false

/-- The operators whose exact result may not fit in an `int32_t`. -/
def overflows : Op → Bool
  | .ADD | .SUB | .MULT => true
  | _ => false

end Op

def Primitive.isZero : Primitive → Bool
  | .float d => Float.ofBits d == 0
  | p => p.intOf == 0

namespace Entity

def isPrimitive : Entity → Bool
  | .prim _ => true
  | _ => false

def isFloat : Entity → Bool
  | .prim p => p.isFloat
  | _ => false

def isZero : Entity → Bool
  | .prim p => p.isZero
  | _ => false

/-- The value of an INT or a CHAR. -/
def integer? : Entity → Option Int
  | .prim (.int i) => some i
  | .prim (.char c) => some c
  | _ => Option.none

end Entity

/-- The operands of an instruction in each of its forms; the right one is `none` when it is an
identifier without a value. -/
inductive Operands (w : World) (t : TaskId) (c : ContextId) : Arg → Entity → Option Entity → Prop
  | onStack {first second : Entity} {rest : List Entity} :
      (w.frame t).stack = second :: first :: rest → Operands w t c .noArg first (some second)
  | identifier (id : String) :
      Operands w t c (.id id) (w.frame t).resval ((w.frame t).lookup w.contexts c id).1
  | immediate (val : Primitive) : Operands w t c (.val val) (w.frame t).resval (some (.prim val))

/-- The exact result on two integers. Division truncates toward zero; the bit operations are those
on 32 bits. -/
def exactResult (op : Op) (x y : Int) : Int :=
  match op with
  | .ADD => x + y
  | .SUB => x - y
  | .MULT => x * y
  | .DIV => x.tdiv y
  | .MOD => x.tmod y
  | .BAND => (BitVec.ofInt 32 x &&& BitVec.ofInt 32 y).toInt
  | .BXOR => (BitVec.ofInt 32 x ^^^ BitVec.ofInt 32 y).toInt
  | .BOR => (BitVec.ofInt 32 x ||| BitVec.ofInt 32 y).toInt
  | _ => 0

/-- C leaves the division of two ints undefined. -/
def UndefinedDivision (op : Op) (x y : Int) : Prop :=
  op.divides = true ∧ (y = 0 ∨ x = -2 ^ 31 ∧ y = -1)

/-- C leaves the operation on two ints undefined. -/
def UndefinedInC (op : Op) (x y : Int) : Prop :=
  UndefinedDivision op x y ∨
    op.overflows = true ∧ ¬ (-2 ^ 31 ≤ exactResult op x y ∧ exactResult op x y < 2 ^ 31)

/-- The instruction raises an error, which a handler of its context catches. -/
def Raises (env : Env) (w : World) (t : TaskId) (c : ContextId) (ins : Instruction) : Prop :=
  ∃ f err, execute env w t c ins = some (.raise f err) ∧
    (0 ≤ (w.contexts.context c).catchIns →
      ∃ w', (w.raised t c f err).fetch t c = some (true, w') ∧
        (w'.contexts.context c).ins = (w.contexts.context c).catchIns)

/-- Operands on which an error is due. -/
def MustRaise (op : Op) (first : Entity) (second : Option Entity) : Prop :=
  second = none ∨ (op.divides = true ∧ ∃ e ∈ second, e.isZero = true) ∨
    op.isIntOnly = true ∧ (first.isFloat = true ∨ ∃ e ∈ second, e.isFloat = true)

/-- A result or an error that can be caught, on the operands `first` and `second`. -/
structure NeverCrashes (env : Env) (w : World) (t : TaskId) (c : ContextId) (ins : Instruction)
    (first : Entity) (second : Option Entity) : Prop where
  ends : (∃ f, execute env w t c ins = some (.next f)) ∨ Raises env w t c ins
  raises : MustRaise ins.op first second → Raises env w t c ins
  computes : ∀ x y, first.integer? = some x → second.bind Entity.integer? = some y →
    (ins.op.divides = true → y ≠ 0) → ∃ f n, execute env w t c ins = some (.next f) ∧
      f.resval = .int n ∧ (-2 ^ 31 ≤ n ∧ n < 2 ^ 31) ∧
        Int.ModEq (2 ^ 32) n (exactResult ins.op x y)
  defined : ∀ x y, first.integer? = some x → second.bind Entity.integer? = some y →
    ¬ UndefinedInC ins.op x y

/-- The operands on which the instruction does its work. -/
structure Harmless (op : Op) (first : Entity) (second : Option Entity) : Prop where
  bound : second = none → first.isPrimitive = false ∧ op ≠ .BOR
  divisor : op.divides = true → first.isPrimitive = true → ∀ e ∈ second, e.isZero = false
  noFloat : op.isIntOnly = true → first.isFloat = true →
    ∀ e ∈ second, e.isPrimitive = false
  noFloatRight : op.isIntOnly = true → (first.isPrimitive = true ∨ op = .BOR) →
    ∀ e ∈ second, e.isFloat = false
  defined : ∀ x y, first.integer? = some x → second.bind Entity.integer? = some y →
    ¬ UndefinedInC op x y

/-! ## Results -/

section

variable {op : Op} {p q : Primitive} {x y n : Int}

theorem wrap32_range (n : Int) : -2 ^ 31 ≤ wrap32 n ∧ wrap32 n < 2 ^ 31 := by
  have hlow := Int.le_bmod (x := n) (m := 2 ^ 32) (by decide)
  have hhigh := Int.bmod_lt (x := n) (m := 2 ^ 32) (by decide)
  unfold wrap32
  omega

theorem wrap32_modEq (n : Int) : Int.ModEq (2 ^ 32) (wrap32 n) n :=
  Int.bmod_emod

theorem bits_modEq (b : BitVec 32) : Int.ModEq (2 ^ 32) b.toNat b.toInt := by
  rw [BitVec.toInt_eq_toNat_bmod]
  exact Int.bmod_emod.symm

theorem isArithmetic_cases (h : op.isArithmetic = true) : op = .ADD ∨ op = .SUB ∨ op = .MULT ∨
    op = .DIV ∨ op = .MOD ∨ op = .BAND ∨ op = .BXOR ∨ op = .BOR := by
  revert h
  cases op <;> decide

/-- The branches for two integers, whatever the one for a FLOAT gives. -/
theorem branches_integers {iop : Int → Int → Option Int} (other : Option Primitive)
    (hx : (Entity.prim p).integer? = some x) (hy : (Entity.prim q).integer? = some y)
    (h : iop x y = some n) :
    (if p.isFloat || q.isFloat then other
      else if p.isInt || q.isInt then (iop p.intOf q.intOf).map fun n => .int (wrap32 n)
      else (iop p.charOf q.charOf).map fun n => .int (wrap32 n)) = some (.int (wrap32 n)) := by
  rw [← Option.map_some (f := fun n => Primitive.int (wrap32 n)), ← h]
  cases p with
  | float d => cases hx
  | char a =>
    cases hx
    cases q with
    | float d => cases hy
    | _ =>
      cases hy
      rfl
  | int a =>
    cases hx
    cases q with
    | float d => cases hy
    | _ =>
      cases hy
      rfl

theorem mathOp_integers {fop : Float → Float → Float} {iop : Int → Int → Option Int}
    (hx : (Entity.prim p).integer? = some x) (hy : (Entity.prim q).integer? = some y)
    (h : iop x y = some n) : Primitive.mathOp fop iop p q = some (.int (wrap32 n)) :=
  branches_integers _ hx hy h

theorem mathOpInt_integers {iop : Int → Int → Option Int}
    (hx : (Entity.prim p).integer? = some x) (hy : (Entity.prim q).integer? = some y)
    (h : iop x y = some n) : Primitive.mathOpInt iop p q = some (.int (wrap32 n)) :=
  branches_integers _ hx hy h

/-- What the operation on two ints gives is stored in an INT. -/
theorem primitiveResult_of_integers {iop : Int → Int → Option Int}
    (hop : (∃ fop, primitiveOp op = Primitive.mathOp fop iop) ∨
      primitiveOp op = Primitive.mathOpInt iop)
    (hbool : op.isBool = false) (hx : (Entity.prim p).integer? = some x)
    (hy : (Entity.prim q).integer? = some y) (h : iop x y = some n) :
    primitiveResult op p q = some (.int (wrap32 n)) := by
  have hresult : primitiveOp op p q = some (.int (wrap32 n)) := by
    rcases hop with ⟨fop, hop⟩ | hop
    · rw [hop, mathOp_integers hx hy h]
    · rw [hop, mathOpInt_integers hx hy h]
  rw [primitiveResult, hresult, Option.map_some, hbool]
  rfl

/-- On two integers: the exact result modulo `2 ^ 32`, where the division is defined. -/
theorem primitiveResult_integers (hop : op.isArithmetic = true)
    (hx : (Entity.prim p).integer? = some x) (hy : (Entity.prim q).integer? = some y)
    (hdefined : ¬ UndefinedDivision op x y) :
    ∃ n, primitiveResult op p q = some (.int (wrap32 n)) ∧
      Int.ModEq (2 ^ 32) n (exactResult op x y) := by
  rcases isArithmetic_cases hop with rfl | rfl | rfl | rfl | rfl | rfl | rfl | rfl
  · exact ⟨x + y, primitiveResult_of_integers (.inl ⟨_, rfl⟩) rfl hx hy (by rfl), rfl⟩
  · exact ⟨x - y, primitiveResult_of_integers (.inl ⟨_, rfl⟩) rfl hx hy (by rfl), rfl⟩
  · exact ⟨x * y, primitiveResult_of_integers (.inl ⟨_, rfl⟩) rfl hx hy (by rfl), rfl⟩
  · have hdiv : Primitive.divInt x y = some (x.tdiv y) := if_neg fun h => hdefined ⟨rfl, h⟩
    exact ⟨x.tdiv y, primitiveResult_of_integers (.inl ⟨_, rfl⟩) rfl hx hy hdiv, rfl⟩
  · have hmod : Primitive.modInt x y = some (x.tmod y) := if_neg fun h => hdefined ⟨rfl, h⟩
    exact ⟨x.tmod y, primitiveResult_of_integers (.inr rfl) rfl hx hy hmod, rfl⟩
  · exact ⟨_, primitiveResult_of_integers (.inr rfl) rfl hx hy rfl,
      bits_modEq (BitVec.ofInt 32 x &&& BitVec.ofInt 32 y)⟩
  · exact ⟨_, primitiveResult_of_integers (.inr rfl) rfl hx hy rfl,
      bits_modEq (BitVec.ofInt 32 x ^^^ BitVec.ofInt 32 y)⟩
  · exact ⟨_, primitiveResult_of_integers (.inr rfl) rfl hx hy rfl,
      bits_modEq (BitVec.ofInt 32 x ||| BitVec.ofInt 32 y)⟩

/-- On a FLOAT: a result, unless the operator takes no FLOAT. -/
theorem primitiveResult_float (hop : op.isArithmetic = true)
    (hfloat : (p.isFloat || q.isFloat) = true) :
    (primitiveResult op p q).isSome = !op.isIntOnly := by
  unfold primitiveResult primitiveOp
  rcases isArithmetic_cases hop with rfl | rfl | rfl | rfl | rfl | rfl | rfl | rfl
  all_goals
    simp only [Primitive.mathOp, Primitive.mathOpInt, hfloat, if_true]
    rfl

theorem integer_of_not_float (h : p.isFloat = false) :
    ∃ x, (Entity.prim p).integer? = some x := by
  cases p with
  | float d => cases h
  | char a => exact ⟨a, rfl⟩
  | int a => exact ⟨a, rfl⟩

end

/-! ## Executions -/

section

variable {env : Env} {w : World} {t : TaskId} {c : ContextId} {op : Op} {arg : Arg}
  {first : Entity} {second : Option Entity} {p q : Primitive}

theorem raises_of_raise {ins : Instruction} {f : Frame} {err : ObjectId}
    (h : execute env w t c ins = some (.raise f err)) : Raises env w t c ins := by
  refine ⟨f, err, h, fun hcatch => ⟨(w.raised t c f err).resumeAt c, ?_, ?_⟩⟩
  · have hself := raised_context_self w t c f err
    have herror : ((w.raised t c f err).contexts.context c).error.isSome = true := by rw [hself]; rfl
    rw [World.fetch, if_pos herror]
    exact World.attempCatchError_here (by rw [hself]; exact hcatch)
  · simp [World.resumeAt, World.modifyContext, raised_context_self]

theorem executePrimitive_primitives (op : Op) (h : Operands w t c arg (.prim p) (some (.prim q))) :
    ∃ f, executePrimitive w t c op arg (w.frame t) =
      (primitiveResult op p q).map fun e => .next (Frame.withResval f e) := by
  generalize hfirst : Entity.prim p = first at h
  generalize hsecond : some (Entity.prim q) = second at h
  cases h with
  | @onStack first second rest hstack =>
    cases hsecond
    cases hfirst
    refine ⟨{ w.frame t with stack := rest }, ?_⟩
    simp only [executePrimitive, Frame.pop, hstack]
  | identifier id =>
    refine ⟨((w.frame t).lookup w.contexts c id).2, ?_⟩
    simp only [executePrimitive]
    rw [← hfirst]
    generalize (w.frame t).lookup w.contexts c id = found at hsecond
    obtain ⟨second, f⟩ := found
    cases hsecond
    rfl
  | immediate val =>
    cases hsecond
    refine ⟨w.frame t, ?_⟩
    simp only [executePrimitive]
    rw [← hfirst]

theorem executePrimitive_unbound (h : Operands w t c arg (.prim p) none) :
    executePrimitive w t c op arg (w.frame t) = none := by
  generalize hfirst : Entity.prim p = first at h
  generalize hsecond : (none : Option Entity) = second at h
  cases h with
  | onStack => cases hsecond
  | immediate => cases hsecond
  | identifier id =>
    simp only [executePrimitive]
    rw [← hfirst]
    generalize (w.frame t).lookup w.contexts c id = found at hsecond
    obtain ⟨second, f⟩ := found
    cases hsecond
    rfl

/-- An operand that is no primitive is refused. -/
theorem executePrimitive_refuses (op : Op) (h : Operands w t c arg first second)
    (hne : first.isPrimitive = false ∨ ∃ e ∈ second, e.isPrimitive = false) :
    ∃ f err, executePrimitive w t c op arg (w.frame t) = some (.raise f err) := by
  cases h with
  | @onStack first second rest hstack =>
    simp only [executePrimitive, Frame.pop, hstack]
    cases second with
    | none => exact ⟨_, _, rfl⟩
    | obj o => exact ⟨_, _, rfl⟩
    | prim q =>
      cases first with
      | none => exact ⟨_, _, rfl⟩
      | obj o => exact ⟨_, _, rfl⟩
      | prim p => simp [Entity.isPrimitive] at hne
  | identifier id =>
    simp only [executePrimitive]
    cases hresval : (w.frame t).resval with
    | none => exact ⟨_, _, rfl⟩
    | obj o => exact ⟨_, _, rfl⟩
    | prim p =>
      rw [hresval] at hne
      generalize (w.frame t).lookup w.contexts c id = found at hne
      obtain ⟨second, f⟩ := found
      rcases hne with hne | ⟨e, he, hne⟩
      · cases hne
      · cases he
        cases e with
        | none => exact ⟨_, _, rfl⟩
        | obj o => exact ⟨_, _, rfl⟩
        | prim q => cases hne
  | immediate val =>
    simp only [executePrimitive]
    cases hresval : (w.frame t).resval with
    | none => exact ⟨_, _, rfl⟩
    | obj o => exact ⟨_, _, rfl⟩
    | prim p => simp [hresval, Entity.isPrimitive] at hne

theorem executeBOR_primitive (h : Operands w t c arg first second)
    (hfirst : first.isPrimitive = true) :
    executeBOR w t c arg (w.frame t) = executePrimitive w t c .BOR arg (w.frame t) := by
  cases h with
  | @onStack first second rest hstack =>
    simp only [executeBOR, hstack]
    cases first with
    | prim p => rfl
    | _ => cases hfirst
  | identifier id =>
    simp only [executeBOR]
    cases hresval : (w.frame t).resval with
    | prim p => rfl
    | _ =>
      rw [hresval] at hfirst
      cases hfirst
  | immediate val =>
    simp only [executeBOR]
    cases hresval : (w.frame t).resval with
    | prim p => rfl
    | _ =>
      rw [hresval] at hfirst
      cases hfirst

/-- `_execute_BOR_with_obj` takes any right operand when the left one is no primitive. -/
theorem executeBOR_other (h : Operands w t c arg first second)
    (hfirst : first.isPrimitive = false) :
    ∃ f, executeBOR w t c arg (w.frame t) = some (.next f) := by
  cases h with
  | @onStack first second rest hstack =>
    simp only [executeBOR, hstack]
    cases first with
    | prim p => cases hfirst
    | _ => exact ⟨_, rfl⟩
  | identifier id =>
    simp only [executeBOR]
    cases hresval : (w.frame t).resval with
    | prim p =>
      rw [hresval] at hfirst
      cases hfirst
    | _ => exact ⟨_, rfl⟩
  | immediate val =>
    simp only [executeBOR]
    cases hresval : (w.frame t).resval with
    | prim p =>
      rw [hresval] at hfirst
      cases hfirst
    | _ => exact ⟨_, rfl⟩

theorem execute_arithmetic (env : Env) (hop : op.isArithmetic = true) (h : Operands w t c arg first second)
    (hne : op ≠ .BOR ∨ first.isPrimitive = true) :
    execute env w t c ⟨op, arg⟩ = executePrimitive w t c op arg (w.frame t) := by
  rcases isArithmetic_cases hop with rfl | rfl | rfl | rfl | rfl | rfl | rfl | rfl
  all_goals first | rfl | skip
  rcases hne with hne | hfirst
  · exact absurd rfl hne
  · exact executeBOR_primitive h hfirst

theorem not_raises_of_next {ins : Instruction} {f : Frame}
    (h : execute env w t c ins = some (.next f)) : ¬ Raises env w t c ins := by
  rintro ⟨f', err, hraise, -⟩
  rw [h] at hraise
  cases hraise

theorem not_raises_primitives (hop : op.isArithmetic = true)
    (h : Operands w t c arg (.prim p) (some (.prim q))) : ¬ Raises env w t c ⟨op, arg⟩ := by
  rintro ⟨f', err, hraise, -⟩
  obtain ⟨f, hexecute⟩ := executePrimitive_primitives op h
  rw [execute_arithmetic env hop h (.inr rfl), hexecute] at hraise
  cases hresult : primitiveResult op p q with
  | none =>
    rw [hresult] at hraise
    cases hraise
  | some e =>
    rw [hresult] at hraise
    cases hraise

theorem raises_refused (hop : op.isArithmetic = true) (h : Operands w t c arg first second)
    (hne : op ≠ .BOR ∨ first.isPrimitive = true)
    (hrefused : first.isPrimitive = false ∨ ∃ e ∈ second, e.isPrimitive = false) :
    Raises env w t c ⟨op, arg⟩ := by
  obtain ⟨f, err, hraise⟩ := executePrimitive_refuses op h hrefused
  exact raises_of_raise ((execute_arithmetic env hop h hne).trans hraise)

theorem Entity.exists_of_isPrimitive {e : Entity} (h : e.isPrimitive = true) : ∃ p, e = .prim p := by
  cases e with
  | prim p => exact ⟨p, rfl⟩
  | _ => cases h

theorem Entity.isPrimitive_of_isZero {e : Entity} (h : e.isZero = true) : e.isPrimitive = true := by
  cases e with
  | prim p => rfl
  | _ => cases h

theorem Entity.isPrimitive_of_isFloat {e : Entity} (h : e.isFloat = true) :
    e.isPrimitive = true := by
  cases e with
  | prim p => rfl
  | _ => cases h

theorem Entity.isPrimitive_of_integer {e : Entity} {x : Int} (h : e.integer? = some x) :
    e.isPrimitive = true := by
  cases e with
  | prim p => rfl
  | _ => cases h

theorem Entity.isFloat_of_integer {e : Entity} {x : Int} (h : e.integer? = some x) :
    e.isFloat = false := by
  cases e with
  | prim p =>
    cases p with
    | float d => cases h
    | _ => rfl
  | _ => rfl

/-- Operands on which the instruction never crashes are harmless. -/
theorem harmless_of_neverCrashes (hop : op.isArithmetic = true)
    (h : Operands w t c arg first second)
    (hnever : NeverCrashes env w t c ⟨op, arg⟩ first second) : Harmless op first second := by
  have hprims : ∀ e ∈ second, first.isPrimitive = true → e.isPrimitive = true →
      ¬ MustRaise op first second := by
    intro e he hfirst hsecond hmust
    obtain ⟨p, rfl⟩ := Entity.exists_of_isPrimitive hfirst
    obtain ⟨q, rfl⟩ := Entity.exists_of_isPrimitive hsecond
    cases he
    exact not_raises_primitives hop h (hnever.raises hmust)
  have hcoalesces : first.isPrimitive = false → op = .BOR → ¬ MustRaise op first second := by
    rintro hfirst rfl hmust
    obtain ⟨f, hnext⟩ := executeBOR_other h hfirst
    have hexecute : execute env w t c ⟨.BOR, arg⟩ = some (.next f) := hnext
    exact not_raises_of_next hexecute (hnever.raises hmust)
  refine ⟨?_, ?_, ?_, ?_, hnever.defined⟩
  · rintro rfl
    cases hfirst : first.isPrimitive with
    | false => exact ⟨rfl, fun hbor => hcoalesces hfirst hbor (.inl rfl)⟩
    | true =>
      obtain ⟨p, rfl⟩ := Entity.exists_of_isPrimitive hfirst
      have hnone : execute env w t c ⟨op, arg⟩ = none :=
        (execute_arithmetic env hop h (.inr hfirst)).trans (executePrimitive_unbound h)
      rcases hnever.ends with ⟨f, hnext⟩ | ⟨f, err, hraise, -⟩
      · rw [hnone] at hnext
        cases hnext
      · rw [hnone] at hraise
        cases hraise
  · intro hdivides hfirst e he
    by_contra hzero
    rw [Bool.not_eq_false] at hzero
    exact hprims e he hfirst (Entity.isPrimitive_of_isZero hzero) (.inr (.inl ⟨hdivides, e, he, hzero⟩))
  · intro hint hfloat e he
    by_contra hsecond
    rw [Bool.not_eq_false] at hsecond
    exact hprims e he (Entity.isPrimitive_of_isFloat hfloat) hsecond (.inr (.inr ⟨hint, .inl hfloat⟩))
  · intro hint hcase e he
    by_contra hfloat
    rw [Bool.not_eq_false] at hfloat
    have hmust : MustRaise op first second := .inr (.inr ⟨hint, .inr ⟨e, he, hfloat⟩⟩)
    cases hfirst : first.isPrimitive with
    | true => exact hprims e he hfirst (Entity.isPrimitive_of_isFloat hfloat) hmust
    | false =>
      rcases hcase with hprim | hbor
      · rw [hfirst] at hprim
        cases hprim
      · exact hcoalesces hfirst hbor hmust

/-- An error on operands that are not two integers. -/
theorem neverCrashes_of_raises {ins : Instruction} (hraises : Raises env w t c ins)
    (hother : ∀ x y, first.integer? = some x → second.bind Entity.integer? ≠ some y) :
    NeverCrashes env w t c ins first second :=
  ⟨.inr hraises, fun _ => hraises, fun x y hx hy => absurd hy (hother x y hx),
    fun x y hx hy => absurd hy (hother x y hx)⟩

/-- A result on operands that are not two integers. -/
theorem neverCrashes_of_next {ins : Instruction} {f : Frame}
    (hnext : execute env w t c ins = some (.next f)) (hmust : ¬ MustRaise ins.op first second)
    (hother : ∀ x y, first.integer? = some x → second.bind Entity.integer? ≠ some y) :
    NeverCrashes env w t c ins first second :=
  ⟨.inl ⟨f, hnext⟩, fun h => absurd h hmust, fun x y hx hy => absurd hy (hother x y hx),
    fun x y hx hy => absurd hy (hother x y hx)⟩

theorem Harmless.not_mustRaise (h : Harmless op first second)
    (hbound : second ≠ none) (hfirst : first.isPrimitive = true ∨ op = .BOR)
    (hsecond : first.isPrimitive = true → ∀ e ∈ second, e.isPrimitive = true) :
    ¬ MustRaise op first second := by
  rintro (hnone | ⟨hdivides, e, he, hzero⟩ | ⟨hint, hfloat | ⟨e, he, hfloat⟩⟩)
  · exact hbound hnone
  · rcases hfirst with hfirst | rfl
    · rw [h.divisor hdivides hfirst e he] at hzero
      cases hzero
    · cases hdivides
  · obtain ⟨e, he⟩ := Option.ne_none_iff_exists'.mp hbound
    have hprim := hsecond (Entity.isPrimitive_of_isFloat hfloat) e he
    rw [h.noFloat hint hfloat e he] at hprim
    cases hprim
  · rw [h.noFloatRight hint hfirst e he] at hfloat
    cases hfloat

/-- Two numbers that are harmless give a result. -/
theorem neverCrashes_primitives (hop : op.isArithmetic = true)
    (h : Operands w t c arg (.prim p) (some (.prim q)))
    (hharmless : Harmless op (.prim p) (some (.prim q))) :
    NeverCrashes env w t c ⟨op, arg⟩ (.prim p) (some (.prim q)) := by
  have hmust : ¬ MustRaise op (.prim p) (some (.prim q)) := by
    refine hharmless.not_mustRaise (Option.some_ne_none _) (.inl rfl) fun _ e he => ?_
    cases he
    rfl
  obtain ⟨f, hexecute⟩ := executePrimitive_primitives op h
  rw [← execute_arithmetic env hop h (.inr rfl)] at hexecute
  cases hfloat : p.isFloat || q.isFloat with
  | true =>
    -- A FLOAT is no operand of an operator that takes none.
    have hint : op.isIntOnly = false := by
      by_contra hint
      rw [Bool.not_eq_false] at hint
      rcases Bool.or_eq_true_iff.mp hfloat with hp | hq
      · exact hmust (.inr (.inr ⟨hint, .inl hp⟩))
      · exact hmust (.inr (.inr ⟨hint, .inr ⟨_, rfl, hq⟩⟩))
    have hsome := primitiveResult_float hop hfloat
    rw [hint, Bool.not_false, Option.isSome_iff_exists] at hsome
    obtain ⟨e, hresult⟩ := hsome
    rw [hresult, Option.map_some] at hexecute
    refine neverCrashes_of_next hexecute hmust fun x y hx hy => ?_
    have hp : p.isFloat = false := Entity.isFloat_of_integer hx
    have hq : q.isFloat = false := Entity.isFloat_of_integer (e := .prim q) hy
    rw [hp, hq] at hfloat
    cases hfloat
  | false =>
    obtain ⟨hp, hq⟩ := Bool.or_eq_false_iff.mp hfloat
    obtain ⟨x, hx⟩ := integer_of_not_float hp
    obtain ⟨y, hy⟩ := integer_of_not_float hq
    have hdivision : ¬ UndefinedDivision op x y := fun hundefined =>
      hharmless.defined x y hx hy (.inl hundefined)
    obtain ⟨n, hresult, hexact⟩ := primitiveResult_integers hop hx hy hdivision
    rw [hresult, Option.map_some] at hexecute
    refine ⟨.inl ⟨_, hexecute⟩, fun h => absurd h hmust, fun x' y' hx' hy' _ => ?_,
      hharmless.defined⟩
    obtain rfl : x = x' := Option.some.inj (hx.symm.trans hx')
    obtain rfl : y = y' := Option.some.inj (hy.symm.trans hy')
    exact ⟨_, wrap32 n, hexecute, rfl, wrap32_range n, (wrap32_modEq n).trans hexact⟩

theorem neverCrashes_of_harmless (hop : op.isArithmetic = true)
    (h : Operands w t c arg first second) (hharmless : Harmless op first second) :
    NeverCrashes env w t c ⟨op, arg⟩ first second := by
  cases hfirst : first.isPrimitive with
  | true =>
    obtain ⟨p, rfl⟩ := Entity.exists_of_isPrimitive hfirst
    cases second with
    | none => exact absurd (hharmless.bound rfl).1 (by rw [hfirst]; exact Bool.true_eq_false.mp)
    | some e =>
      cases hsecond : e.isPrimitive with
      | true =>
        obtain ⟨q, rfl⟩ := Entity.exists_of_isPrimitive hsecond
        exact neverCrashes_primitives hop h hharmless
      | false =>
        refine neverCrashes_of_raises (raises_refused hop h (.inr hfirst) (.inr ⟨e, rfl, hsecond⟩))
          fun x y _ hy => ?_
        have hprim : e.isPrimitive = true := Entity.isPrimitive_of_integer hy
        rw [hsecond] at hprim
        cases hprim
  | false =>
    have hother : ∀ x y, first.integer? = some x → second.bind Entity.integer? ≠ some y := by
      intro x y hx _
      rw [Entity.isPrimitive_of_integer hx] at hfirst
      cases hfirst
    by_cases hbor : op = .BOR
    · subst hbor
      obtain ⟨f, hnext⟩ := executeBOR_other h hfirst
      have hexecute : execute env w t c ⟨.BOR, arg⟩ = some (.next f) := hnext
      refine neverCrashes_of_next hexecute (hharmless.not_mustRaise ?_ (.inr rfl) ?_) hother
      · exact fun hnone => (hharmless.bound hnone).2 rfl
      · intro hprim
        rw [hfirst] at hprim
        cases hprim
    · exact neverCrashes_of_raises (raises_refused hop h (.inl hbor) (.inl hfirst)) hother

/-- The instructions of arithmetic, in each form and on all operands, do what they should on
exactly the harmless ones. -/
theorem neverCrashes_iff_harmless (env : Env) (hop : op.isArithmetic = true)
    (h : Operands w t c arg first second) :
    NeverCrashes env w t c ⟨op, arg⟩ first second ↔ Harmless op first second :=
  ⟨harmless_of_neverCrashes hop h, neverCrashes_of_harmless hop h⟩

end

/-- A task with two integers on its stack. -/
def twoIntegers (first second : Int) : World :=
  codeWorld [] (fun _ => ⟨.Object, .empty, .none⟩) .none [.int second, .int first]

theorem neverCrashes_div : NeverCrashes noNatives (twoIntegers 7 2) 0 0 ⟨.DIV, .noArg⟩ (.int 7)
    (some (.int 2)) := by
  have hstack : ((twoIntegers 7 2).frame 0).stack = .int 2 :: .int 7 :: [] := rfl
  refine (neverCrashes_iff_harmless noNatives rfl (.onStack hstack)).mpr ⟨nofun, ?_, ?_, ?_, ?_⟩
  · rintro - - e ⟨⟩
    rfl
  · rintro ⟨⟩
  · rintro ⟨⟩
  · rintro x y ⟨⟩ ⟨⟩ (⟨-, hzero | ⟨hmin, -⟩⟩ | ⟨⟨⟩, -⟩)
    · cases hzero
    · cases hmin

/-- `1 / 0` is neither a result nor an error. -/
theorem not_neverCrashes : ¬ ∀ (env : Env) (w : World) (t : TaskId) (c : ContextId) (op : Op)
    (arg : Arg) (first : Entity) (second : Option Entity), op.isArithmetic = true →
      Operands w t c arg first second → NeverCrashes env w t c ⟨op, arg⟩ first second := by
  intro hall
  have hstack : ((twoIntegers 1 0).frame 0).stack = .int 0 :: .int 1 :: [] := rfl
  have hnever := hall noNatives (twoIntegers 1 0) 0 0 .DIV .noArg _ _ rfl (.onStack hstack)
  have hnone : execute noNatives (twoIntegers 1 0) 0 0 ⟨.DIV, .noArg⟩ = none := rfl
  rcases hnever.ends with ⟨f, hnext⟩ | ⟨f, err, hraise, -⟩
  · rw [hnone] at hnext
    cases hnext
  · rw [hnone] at hraise
    cases hraise

end JeffVm
