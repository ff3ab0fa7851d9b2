import JeffVm.Op
import Mathlib.Algebra.Order.Ring.Int
import Mathlib.Algebra.Order.BigOperators.Group.List
import Mathlib.Algebra.BigOperators.Ring.List
import Mathlib.Data.Finset.Card
import Mathlib.Data.List.AList
import Mathlib.Tactic.Linarith

/-!
# Tokens, primitives and instructions

Integers are unbounded and wrapped where the C code stores a result; a double is its bit
pattern, so that equality of primitives is decidable.
-/

set_option autoImplicit false

namespace JeffVm

/-- The value an `int32_t` holds after `n` is stored in it. -/
def wrap32 (n : Int) : Int := n.bmod (2 ^ 32)

theorem wrap32_of_range {n : Int} (hlow : -2 ^ 31 ≤ n) (hhigh : n < 2 ^ 31) : wrap32 n = n := by
  unfold wrap32
  rw [Int.bmod_def]
  omega

/-- The value an `int8_t` holds after `n` is stored in it. -/
def wrap8 (n : Int) : Int := n.bmod (2 ^ 8)

inductive Primitive where
  | char (charVal : Int)
  | int (intVal : Int)
  | float (floatBits : UInt64)
  deriving DecidableEq, Repr

inductive TokenType where
  | WORD | INTEGER | FLOATING | STR
  | LPAREN | RPAREN | LBRCE | RBRCE | LBRAC | RBRAC
  | PLUS | MINUS | STAR | FSLASH | BSLASH | PERCENT
  | AMPER | PIPE | CARET | TILDE | EXCLAIM | QUESTION | AT | POUND
  | LTHAN | GTHAN | EQUALS | ENDLINE | SEMICOLON | COMMA | COLON | PERIOD
  | LARROW | RARROW | INCREMENT | DECREMENT | LTHANEQ | GTHANEQ | EQUIV | NEQUIV
  | IF_T | THEN | ELSE | DEF | NEW | FIELD | METHOD | CLASS | WHILE | FOR
  | BREAK | CONTINUE | RETURN | AS | IS_T | TRY | CATCH | RAISE | IMPORT | MODULE_T
  | EXIT_T | IN | NOTIN | CONST_T | AND_T | OR_T | ASYNC | AWAIT
  deriving DecidableEq, Repr

structure Token where
  type : TokenType
  line : Int
  col : Int
  text : String
  deriving DecidableEq, Repr

/-- A word at the start of a line. -/
def Token.word (text : String) (line : Int) : Token := ⟨.WORD, line, 0, text⟩

/-- The number spelled by the leading digits, most significant first. -/
def digitsValue (cs : List Char) : Nat :=
  (cs.takeWhile Char.isDigit).foldl (fun n c => 10 * n + (c.toNat - '0'.toNat)) 0

/-- `strtoll` on an unsigned spelling, with its saturation. -/
def strtoll (text : String) : Int := min (digitsValue text.toList) (2 ^ 63 - 1)

/-- `strtod` on the spellings the lexer produces: digits with at most one period. -/
def strtod (text : String) : UInt64 :=
  let whole := text.toList.takeWhile Char.isDigit
  let fraction := ((text.toList.drop whole.length).drop 1).takeWhile Char.isDigit
  (Float.ofScientific (digitsValue (whole ++ fraction)) true fraction.length).toBits

/-- `none` is the call of `ERROR` on a token that is not a number. -/
def tokenToPrimitive (tok : Token) : Option Primitive :=
  match tok.type with
  | .INTEGER => some (.int (wrap32 (strtoll tok.text)))
  | .FLOATING => some (.float (strtod tok.text))
  | _ => none

/-- The operand of an instruction; the constructor is its `InstructionType`. -/
inductive Arg where
  | noArg
  | id (id : String)
  | str (str : String)
  | val (val : Primitive)
  deriving DecidableEq, Repr

structure Instruction where
  op : Op
  arg : Arg
  deriving DecidableEq, Repr

namespace Instruction

/-- The string an instruction refers to, when its operand is an identifier or a string. -/
def text (ins : Instruction) : Option String :=
  match ins.arg with
  | .id s => some s
  | .str s => some s
  | _ => none

/-- Jump distance of a `JMP` with an integer operand. -/
def jmpOffset (ins : Instruction) : Option Int :=
  match ins with
  | ⟨.JMP, .val (.int n)⟩ => some n
  | _ => none

end Instruction

end JeffVm
