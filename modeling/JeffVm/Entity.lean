import JeffVm.Instruction

/-!
# Entities

The values of the VM, and the arithmetic of primitives. `none` is a call of `ERROR`, a failed
`ASSERT` or a division that C leaves undefined. A sum, difference or product outside of `int32_t`,
which C leaves undefined too, wraps around.
-/

set_option autoImplicit false

namespace JeffVm

abbrev ObjectId := Nat
abbrev ContextId := Nat
abbrev TaskId := Nat
abbrev FunctionId := Nat
abbrev ModuleId := Nat

inductive Entity where
  | none
  | prim (pri : Primitive)
  | obj (obj : ObjectId)
  deriving DecidableEq, Repr

def Entity.int (i : Int) : Entity := .prim (.int i)

def Entity.isNone : Entity → Bool
  | .none => true
  | _ => false

namespace Primitive

def isFloat : Primitive → Bool
  | float _ => true
  | _ => false

def isInt : Primitive → Bool
  | int _ => true
  | _ => false

def floatOf : Primitive → Float
  | char c => Float.ofInt c
  | int i => Float.ofInt i
  | float d => Float.ofBits d

def intOf : Primitive → Int
  | char c => c
  | int i => i
  | float d => (Float.ofBits d).toInt32.toInt

def charOf : Primitive → Int
  | char c => c
  | int i => wrap8 i
  | float d => wrap8 (Float.ofBits d).toInt32.toInt

def equals (p1 p2 : Primitive) : Bool :=
  if p1.isFloat || p2.isFloat then p1.floatOf == p2.floatOf
  else if p1.isInt || p2.isInt then p1.intOf == p2.intOf
  else p1.charOf == p2.charOf

/-- `MATH_OP`; an operation of the integers may be undefined. -/
def mathOp (fop : Float → Float → Float) (iop : Int → Int → Option Int) (p1 p2 : Primitive) :
    Option Primitive :=
  if p1.isFloat || p2.isFloat then some (.float (fop p1.floatOf p2.floatOf).toBits)
  else if p1.isInt || p2.isInt then (iop p1.intOf p2.intOf).map (fun n => .int (wrap32 n))
  else (iop p1.charOf p2.charOf).map (fun n => .int (wrap32 n))

/-- `MATH_OP_INT` -/
def mathOpInt (iop : Int → Int → Option Int) (p1 p2 : Primitive) : Option Primitive :=
  if p1.isFloat || p2.isFloat then none
  else if p1.isInt || p2.isInt then (iop p1.intOf p2.intOf).map (fun n => .int (wrap32 n))
  else (iop p1.charOf p2.charOf).map (fun n => .int (wrap32 n))

def ofBool (b : Bool) : Int := if b then 1 else 0

/-- `MATH_OP` on a comparison. -/
def compareOp (fop : Float → Float → Bool) (iop : Int → Int → Bool) : Primitive → Primitive →
    Option Primitive :=
  mathOp (fun x y => if fop x y then 1 else 0) (fun x y => some (ofBool (iop x y)))

def divInt (x y : Int) : Option Int :=
  if y = 0 ∨ x = -2 ^ 31 ∧ y = -1 then none else some (x.tdiv y)

def modInt (x y : Int) : Option Int :=
  if y = 0 ∨ x = -2 ^ 31 ∧ y = -1 then none else some (x.tmod y)

/-- A bit operation on the two's complement representations. -/
def bitOp (f : Nat → Nat → Nat) (x y : Int) : Option Int :=
  some (f (x % 2 ^ 32).toNat (y % 2 ^ 32).toNat)

end Primitive

open Primitive

/-- The arithmetic of the `PRIMITIVE_OP` and `PRIMITIVE_BOOL_OP` instructions. -/
def primitiveOp : Op → Primitive → Primitive → Option Primitive
  | .ADD => mathOp (· + ·) (fun x y => some (x + y))
  | .SUB => mathOp (· - ·) (fun x y => some (x - y))
  | .MULT => mathOp (· * ·) (fun x y => some (x * y))
  | .DIV => mathOp (· / ·) divInt
  | .LT => compareOp (· < ·) (· < ·)
  | .GT => compareOp (· > ·) (· > ·)
  | .LTE => compareOp (· ≤ ·) (· ≤ ·)
  | .GTE => compareOp (· ≥ ·) (· ≥ ·)
  | .MOD => mathOpInt modInt
  | .AND => mathOpInt (fun x y => some (ofBool (x != 0 && y != 0)))
  | .OR => mathOpInt (fun x y => some (ofBool (x != 0 || y != 0)))
  | .BAND => mathOpInt (bitOp (· &&& ·))
  | .BXOR => mathOpInt (bitOp (· ^^^ ·))
  | .BOR => mathOpInt (bitOp (· ||| ·))
  | _ => fun _ _ => none

/-- The instructions of `PRIMITIVE_BOOL_OP`, whose zero is `None`. -/
def Op.isBool : Op → Bool
  | .LT | .GT | .LTE | .GTE => true
  | _ => false

def primitiveResult (op : Op) (p1 p2 : Primitive) : Option Entity :=
  (primitiveOp op p1 p2).map fun result =>
    if op.isBool && result.intOf == 0 then .none else .prim result

/-- The value of `EQ` or `NEQ` on primitives. -/
def equalityResult (op : Op) (p1 p2 : Primitive) : Entity :=
  if (p1.equals p2 && op == .EQ) || (!p1.equals p2 && op == .NEQ) then .int 1 else .none

end JeffVm
