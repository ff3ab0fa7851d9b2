/-!
# Operation codes

The `Op` enumeration and its table of mnemonics, in the order of the C enumeration, so that
the position of a constructor is its numeric code.
-/

set_option autoImplicit false

namespace JeffVm

inductive Op where
  | NOP | EXIT | RES | TGET | TLEN | SET | LET | PUSH | PEEK | PSRS | NOT | NOTC
  | GT | LT | EQ | NEQ | GTE | LTE | AND | OR | XOR | BAND | BOR | BXOR
  | IF | IFN | JMP | NBLK | BBLK | RET | ADD | SUB | MULT | DIV | MOD
  | INC | DEC | FINC | FDEC | SINC | CALL | CLLN | TUPL | TGTE | TLTE | TEQ
  | DUP | GOTO | PRNT | LMDL | GET | GTSH | RNIL | PNIL | FLD | FLDC | IS | ADR
  | RAIS | CTCH | ANEW | AIDX | ASET | CNST | SETC | LETC | SGET | WAIT
  deriving DecidableEq, Repr

namespace Op

def all : List Op :=
  [NOP, EXIT, RES, TGET, TLEN, SET, LET, PUSH, PEEK, PSRS, NOT, NOTC,
    GT, LT, EQ, NEQ, GTE, LTE, AND, OR, XOR, BAND, BOR, BXOR,
    IF, IFN, JMP, NBLK, BBLK, RET, ADD, SUB, MULT, DIV, MOD,
    INC, DEC, FINC, FDEC, SINC, CALL, CLLN, TUPL, TGTE, TLTE, TEQ,
    DUP, GOTO, PRNT, LMDL, GET, GTSH, RNIL, PNIL, FLD, FLDC, IS, ADR,
    RAIS, CTCH, ANEW, AIDX, ASET, CNST, SETC, LETC, SGET, WAIT]

def opStrs : List String :=
  ["nop", "exit", "res", "tget", "tlen", "set", "let", "push", "peek",
    "psrs", "not", "notc", "gt", "lt", "eq", "neq", "gte", "lte",
    "and", "or", "xor", "band", "bor", "bxor", "if", "ifn", "jmp",
    "nblk", "bblk", "ret", "add", "sub", "mult", "div", "mod", "inc",
    "dec", "finc", "fdec", "sinc", "call", "clln", "tupl", "tgte", "tlte",
    "teq", "dup", "goto", "prnt", "lmdl", "get", "gtsh", "rnil", "pnil",
    "fld", "fldc", "is", "adr", "rais", "ctch", "anew", "aidx", "aset",
    "cnst", "setc", "letc", "sget", "wait"]

def code (op : Op) : Nat := op.ctorIdx

def ofCode (n : Nat) : Option Op := all[n]?

theorem ofCode_code (op : Op) : ofCode op.code = some op := by
  cases op <;> rfl

theorem code_lt (op : Op) : op.code < 256 := by
  cases op <;> decide

def opToStr (op : Op) : String := opStrs.getD op.code ""

/-- `none` is a name outside the table, where the C loop reads past its end. -/
def strToOp (opStr : String) : Option Op := (opStrs.idxOf? opStr).bind ofCode

theorem strToOp_opToStr (op : Op) : strToOp op.opToStr = some op := by
  cases op <;> rfl

end Op

end JeffVm
