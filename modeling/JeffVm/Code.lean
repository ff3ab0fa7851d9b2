import JeffVm.Produce

/-!
# Structured code

The control skeleton of the generated code: straight-line instructions, and one constructor
for each jump layout of the producers. `emit` lays it out with relative jumps. Each emitted
instruction remembers whether it is a `break` or `continue` of the loop around the code.
-/

set_option autoImplicit false

namespace JeffVm

/-- A conditional jump. -/
inductive Test where
  | IF | IFN
  deriving DecidableEq, Repr

def Test.op : Test → Op
  | .IF => .IF
  | .IFN => .IFN

mutual

inductive Code where
  | nil
  | plain (ins : Instruction)
  | brk (type : BreakType)
  | seq (a b : Code)
  | skip (test : Test) (body : Code)
  | choice (test : Test) (a b : Code)
  | ifThen (branches : Branches)
  | ifElse (branches : Branches) (otherwise : Code)
  | func (body : Code)
  | tryCatch (body assign handler : Code)
  | whileLoop (condition body : Code)
  | forLoop (init condition inc body : Code)
  | foreachLoop (iterable lhs body : Code)

inductive Branches where
  | last (condition body : Code)
  | more (condition body : Code) (rest : Branches)

end

/-- An emitted instruction, and the kind of break it is when the loop that will patch it is
not part of the code. -/
structure Item where
  ins : Instruction
  own : Option BreakType
  deriving DecidableEq

namespace Item

def plain (ins : Instruction) : Item := ⟨ins, none⟩

def jump (op : Op) (n : Int) : Item := plain ⟨op, .val (.int n)⟩

def op (op : Op) : Item := plain ⟨op, .noArg⟩

def named (op : Op) (id : String) : Item := plain ⟨op, .id id⟩

/-- What is left of an item outside the loop statement around it. -/
def settle (item : Item) : Item := plain item.ins

def settleAll (items : List Item) : List Item := items.map settle

@[simp] theorem length_settleAll (items : List Item) :
    (settleAll items).length = items.length := by
  simp [settleAll]

@[simp] theorem settle_ins (item : Item) : item.settle.ins = item.ins := rfl
@[simp] theorem settle_own (item : Item) : item.settle.own = none := rfl
@[simp] theorem plain_ins (ins : Instruction) : (plain ins).ins = ins := rfl
@[simp] theorem plain_own (ins : Instruction) : (plain ins).own = none := rfl

end Item

def patchItem (brk cont : Nat → Int) (i : Nat) (item : Item) : Item :=
  { item with ins := patchIns brk cont i item.ins }

def patchItems (brk cont : Nat → Int) (items : List Item) : List Item :=
  items.mapIdx (patchItem brk cont)

@[simp] theorem length_patchItems (brk cont : Nat → Int) (items : List Item) :
    (patchItems brk cont items).length = items.length := by
  simp [patchItems]

namespace Code

instance : Append Code := ⟨seq⟩

mutual

def emit : Code → List Item
  | nil => []
  | plain ins => [.plain ins]
  | brk type => [⟨⟨.JMP, .val (.int (breakOperand type))⟩, some type⟩]
  | seq a b => emit a ++ emit b
  | skip test body => .jump test.op (emit body).length :: emit body
  | choice test a b =>
    .jump test.op ((emit a).length + 1) :: emit a ++ .jump .JMP (emit b).length :: emit b
  | ifThen branches => emitBranches branches 0 0 false
  | ifElse branches otherwise =>
    emitBranches branches 0 (emit otherwise).length true ++ emit otherwise
  | func body => .jump .JMP (emit body).length :: emit body
  | tryCatch body assign handler =>
    [.op .NBLK, .jump .CTCH ((emit body).length + 1)] ++ emit body ++
      [.jump .JMP ((emit assign).length + (emit handler).length)] ++ emit assign ++
      emit handler ++ [.op .RNIL, .named .SET "$try_goto", .op .BBLK]
  | whileLoop condition body =>
    let c := emit condition
    let b := emit body
    Item.settleAll ([.op .NBLK] ++ c ++ [.jump .IFN (b.length + 1)] ++
      patchItems (fun i => b.length - i) (fun i => -(i + 1)) b ++
      [.jump .JMP (-(1 + c.length + b.length + 1)), .op .BBLK])
  | forLoop init condition inc body =>
    let c := emit condition
    let b := emit body
    let n := emit inc
    Item.settleAll ([.op .NBLK] ++ emit init ++ c ++ [.jump .IFN (b.length + n.length + 1)] ++
      patchItems (fun i => b.length + n.length - i) (fun i => b.length - i - 1) (b ++ n) ++
      [.jump .JMP (-(b.length + c.length + n.length + 1 + 1)), .op .BBLK])
  | foreachLoop iterable lhs body =>
    let r := [Item.op .DUP, .named .CALL nextFnName] ++ emit lhs ++ emit body
    Item.settleAll ([.op .NBLK] ++ emit iterable ++ [.op .PUSH, .named .CALL iterFnName, .op .PUSH] ++
      [.op .DUP, .named .CALL hasNextFnName, .jump .IFN (r.length + 1)] ++
      patchItems (fun i => r.length - i) (fun i => r.length - i - 1) r ++
      [.jump .JMP (-(3 + r.length + 1)), .op .RES, .op .BBLK])

/-- Branches whose bodies are followed by `tail` instructions up to the end of all bodies and
by `after` up to the end of the statement; `jumps` says whether the last one ends in a jump. -/
def emitBranches : Branches → Nat → Nat → Bool → List Item
  | .last condition body, tail, after, jumps =>
    emit condition ++ .jump .IFN ((emit body).length + jumps.toNat + tail) :: emit body ++
      if jumps then [.jump .JMP after] else []
  | .more condition body rest, tail, after, jumps =>
    let inner := emitBranches rest ((emit body).length + jumps.toNat + tail)
      ((emit body).length + jumps.toNat + after) true
    emit condition ++ .jump .IF inner.length :: inner ++ emit body ++
      if jumps then [.jump .JMP after] else []

end

def code (c : Code) : List Instruction := c.emit.map Item.ins

def size (c : Code) : Nat := c.emit.length

@[simp] theorem length_code (c : Code) : c.code.length = c.size := by
  simp [code, size]

@[simp] theorem emit_append (a b : Code) : (a ++ b).emit = a.emit ++ b.emit := by
  simp only [HAppend.hAppend, Append.append]
  rw [emit]
  rfl

@[simp] theorem code_append (a b : Code) : (a ++ b).code = a.code ++ b.code := by
  simp [code]

@[simp] theorem size_append (a b : Code) : (a ++ b).size = a.size + b.size := by
  simp [size]

/-- The code of an `and` or `or` chain after its first operand. -/
def chain (test : Test) : List Code → Code
  | [] => nil
  | c :: cs => skip test (c ++ chain test cs)

def branches (first : Code × Code) : List (Code × Code) → Branches
  | [] => .last first.1 first.2
  | second :: rest => .more first.1 first.2 (branches second rest)

end Code

def opCode (op : Op) : Code := .plain ⟨op, .noArg⟩
def intCode (op : Op) (n : Int) : Code := .plain ⟨op, .val (.int n)⟩
def idCode (op : Op) (id : String) : Code := .plain ⟨op, .id id⟩
def tokenCode (op : Op) (token : Token) : Code := .plain ⟨op, Tape.argOfToken token⟩

def lowerIdentifier (id : Token) : Code :=
  if id.text = trueKeyword then intCode .RES 1
  else if id.text = falseKeyword ∨ id.text = nilKeyword then opCode .RNIL
  else tokenCode .RES id

def lowerArgument (arg : Argument) : Code :=
  if arg.isField then
    opCode .PUSH ++ idCode .RES selfName ++ tokenCode (if arg.isConst then .FLDC else .FLD) arg.argName
  else tokenCode (if arg.isConst then .LETC else .LET) arg.argName

def lowerUnary : UnaryType → Code
  | .not => opCode .NOT
  | .notc => opCode .NOTC
  | .negate => opCode .PUSH ++ intCode .PUSH (-1) ++ opCode .MULT
  | .await => opCode .WAIT
  | .const => .nil
  | .unknown => .nil

/-- A negated constant; tokens that are not integers have no code. -/
def lowerNeg (token : Token) : Code :=
  match tokenToPrimitive token with
  | some (.int n) => intCode .RES (wrap32 (-n))
  | _ => .nil

mutual

def lower : ExpressionTree → Code
  | .identifier id => lowerIdentifier id
  | .constant token => tokenCode .RES token
  | .stringLiteral token => tokenCode .RES token
  | .tupleExpression _ list => lowerTuple list ++ intCode .TUPL list.length
  | .arrayDeclaration _ exp =>
    match exp with
    | none => opCode .ANEW
    | some (.tupleExpression _ list) => lowerTuple list ++ intCode .ANEW list.length
    | some exp => lower exp ++ opCode .PUSH ++ intCode .ANEW 1
  | .mapDeclaration _ entries =>
    idCode .PUSH "struct" ++ idCode .CLLN "Map" ++
      match entries with
      | [] => .nil
      | entry :: rest => opCode .PUSH ++ (lowerEntry entry ++ lowerEntries rest) ++ opCode .RES
  | .primaryExpression exp => lower exp
  | .primaryExpressionNoConstants exp => lower exp
  | .postfixExpression base suffixes => lower base ++ lowerPostfixes suffixes
  | .rangeExpression _ start inc stop =>
    idCode .PUSH "range" ++
      (match inc with
        | none => .nil
        | some inc => lower inc ++ opCode .PUSH) ++
      lower stop ++ opCode .PUSH ++ lower start ++ opCode .PUSH ++
      intCode .TUPL (if inc.isSome then 3 else 2) ++ opCode .CALL
  | .unaryExpression _ type exp =>
    match type, exp with
    | .negate, .constant constantToken => lowerNeg constantToken
    | type, exp => lower exp ++ lowerUnary type
  | .biExpression _ exp suffixes => lower exp ++ lowerBiSuffixes suffixes
  | .andExpression exp suffixes => lower exp ++ Code.chain .IFN (lowerSuffixes suffixes)
  | .orExpression exp suffixes => lower exp ++ Code.chain .IF (lowerSuffixes suffixes)
  | .inExpression _ isNot element collection =>
    lower collection ++ opCode .PUSH ++ lower element ++ idCode .CALL inFnName ++
      if isNot then opCode .NOT else .nil
  | .isExpression _ exp type =>
    lower exp ++ opCode .PUSH ++ lower type ++ opCode .PUSH ++ opCode .IS
  | .conditionalExpression ifElse => lowerIfElse ifElse
  | .anonFunctionDefinition func => lowerAnonFunction func
  | .assignmentExpression _ assignment rhs => lower rhs ++ lowerAssignment assignment
  | .foreachStatement _ _ assignmentLhs iterable body =>
    .foreachLoop (lower iterable) (lowerAssignment assignmentLhs) (lower body)
  | .forStatement _ init condition inc body =>
    .forLoop (lower init) (lower condition) (lower inc) (lower body)
  | .whileStatement _ condition body => .whileLoop (lower condition) (lower body)
  | .compoundStatement expressions => lowerStatements expressions
  | .tryStatement _ _ tryBody errorAssignmentLhs catchBody =>
    .tryCatch (lower tryBody) (lowerAssignment errorAssignmentLhs) (lower catchBody)
  | .raiseStatement _ exp => lower exp ++ opCode .RAIS
  | .selectionStatement ifElse => lowerIfElse ifElse
  | .jumpStatement _ exp =>
    (match exp with
      | none => .nil
      | some exp => lower exp) ++ opCode .RET
  | .breakStatement _ type => .brk type
  | .exitStatement _ => opCode .EXIT

def lowerTuple : List ExpressionTree → Code
  | [] => .nil
  | elt :: rest => lowerTuple rest ++ lower elt ++ opCode .PUSH

def lowerStatements : List ExpressionTree → Code
  | [] => .nil
  | tree :: rest => lower tree ++ lowerStatements rest

def lowerEntry : MapDecEntry → Code
  | ⟨_, lhs, rhs⟩ =>
    opCode .DUP ++ lower rhs ++ opCode .PUSH ++ lower lhs ++ opCode .PUSH ++ intCode .TUPL 2 ++
      idCode .CALL arraylikeSetKey

def lowerEntries : List MapDecEntry → Code
  | [] => .nil
  | entry :: rest => lowerEntry entry ++ lowerEntries rest

def lowerCallArgs : Option ExpressionTree → (Op → Code) → Code
  | none, call => call .CLLN
  | some exp, call => lower exp ++ call .CALL

def lowerPostfixes : List Postfix → Code
  | [] => .nil
  | .fncall _ exp :: rest => opCode .PUSH ++ lowerCallArgs exp opCode ++ lowerPostfixes rest
  | .arrayIndex _ exp :: rest => opCode .PUSH ++ lower exp ++ opCode .AIDX ++ lowerPostfixes rest
  | .field _ id :: suffixes =>
    match suffixes with
    | .fncall _ exp :: rest =>
      opCode .PUSH ++ lowerCallArgs exp (fun op => tokenCode op id) ++ lowerPostfixes rest
    | suffixes => tokenCode .GET id ++ lowerPostfixes suffixes
  | .increment _ :: rest => lowerPostfixes rest
  | .decrement _ :: rest => lowerPostfixes rest
  | .none _ :: _ => .nil

def lowerBiSuffixes : List BiSuffix → Code
  | [] => .nil
  | ⟨_, type, exp⟩ :: rest =>
    match biToIns type with
    | none => .nil
    | some op => opCode .PUSH ++ lower exp ++ opCode .PUSH ++ opCode op ++ lowerBiSuffixes rest

def lowerSuffixes : List BiSuffix → List Code
  | [] => []
  | ⟨_, _, exp⟩ :: rest => lower exp :: lowerSuffixes rest

def lowerConditional : Conditional → Code × Code
  | ⟨_, condition, body⟩ => (lower condition, lower body)

def lowerConditionals : List Conditional → List (Code × Code)
  | [] => []
  | cond :: rest => lowerConditional cond :: lowerConditionals rest

def lowerIfElse : IfElse → Code
  | ⟨first, rest, none⟩ => .ifThen (Code.branches (lowerConditional first) (lowerConditionals rest))
  | ⟨first, rest, some e⟩ =>
    .ifElse (Code.branches (lowerConditional first) (lowerConditionals rest)) (lower e)

def lowerTupleArgument (i : Nat) (isLast : Bool) : Argument → Code
  | ⟨isConst, isField, argName, some value⟩ =>
    opCode .PEEK ++ intCode .TGTE (i + 1) ++
      .choice .IFN (opCode (if isLast then .RES else .PEEK) ++ intCode .TGET i) (lower value) ++
      lowerArgument ⟨isConst, isField, argName, some value⟩
  | ⟨isConst, isField, argName, none⟩ =>
    opCode (if isLast then .RES else .PEEK) ++ intCode .TGET i ++
      lowerArgument ⟨isConst, isField, argName, none⟩

def lowerAllArguments : Nat → List Argument → Code
  | _, [] => .nil
  | i, arg :: rest => lowerTupleArgument i rest.isEmpty arg ++ lowerAllArguments (i + 1) rest

def lowerDefault : Argument → Code
  | ⟨isConst, isField, argName, some value⟩ =>
    lower value ++ lowerArgument ⟨isConst, isField, argName, some value⟩
  | ⟨isConst, isField, argName, none⟩ =>
    opCode .RNIL ++ lowerArgument ⟨isConst, isField, argName, none⟩

def lowerDefaults : List Argument → Code
  | [] => .nil
  | arg :: rest => lowerDefault arg ++ lowerDefaults rest

def lowerOnlyArgument : Argument → Code
  | ⟨isConst, isField, argName, some value⟩ =>
    opCode .PUSH ++ intCode .TGTE 1 ++
      .choice .IF (lower value) (opCode .RES) ++ intCode .TGET 0 ++
      lowerArgument ⟨isConst, isField, argName, some value⟩
  | ⟨isConst, isField, argName, none⟩ => lowerArgument ⟨isConst, isField, argName, none⟩

def lowerArguments : Arguments → Code
  | ⟨_, first, []⟩ => lowerOnlyArgument first
  | ⟨_, first, rest⟩ =>
    opCode .PUSH ++ opCode .TLEN ++ opCode .PUSH ++ intCode .PUSH (-1) ++ opCode .EQ ++
      .choice .IFN (opCode .RES ++ lowerArgument first ++ lowerDefaults rest)
        (lowerTupleArgument 0 rest.isEmpty first ++ lowerAllArguments 1 rest)

def lowerAnonFunction : FunctionDef → Code
  | ⟨defToken, _, _, _, some args, body⟩ =>
    .func (lowerArguments args ++ lower body ++ opCode .RET) ++
      idCode .RES (Tape.anonFnForToken defToken)
  | ⟨defToken, _, _, _, none, body⟩ =>
    .func (lower body ++ opCode .RET) ++ idCode .RES (Tape.anonFnForToken defToken)

def lowerAssignment : Assignment → Code
  | .var isConst var => tokenCode (if isConst then .SETC else .SET) var
  | .complex prefixExp suffixes => opCode .PUSH ++ lower prefixExp ++ lowerSetSuffixes suffixes
  | .multi _ subargs => opCode .PUSH ++ lowerSubargs subargs.length 0 subargs

def lowerSetSuffixes : List Postfix → Code
  | [] => .nil
  | .fncall _ exp :: rest => opCode .PUSH ++ lowerCallArgs exp opCode ++ lowerSetSuffixes rest
  | .arrayIndex _ exp :: rest =>
    opCode .PUSH ++ lower exp ++
      if rest.isEmpty then opCode .ASET else opCode .AIDX ++ lowerSetSuffixes rest
  | .field _ id :: suffixes =>
    match suffixes with
    | [] => tokenCode .FLD id
    | .fncall _ exp :: next :: rest =>
      opCode .PUSH ++ lowerCallArgs exp (fun op => tokenCode op id) ++
        lowerSetSuffixes (next :: rest)
    | suffixes => tokenCode .GET id ++ lowerSetSuffixes suffixes
  | .increment _ :: rest => lowerSetSuffixes rest
  | .decrement _ :: rest => lowerSetSuffixes rest
  | .none _ :: _ => .nil

def lowerSubargs (len : Nat) : Nat → List Assignment → Code
  | _, [] => .nil
  | i, assign :: rest =>
    opCode (if i < len - i then .PEEK else .RES) ++ opCode .PUSH ++ intCode .RES i ++
      opCode .AIDX ++ lowerAssignment assign ++ lowerSubargs len (i + 1) rest

end

end JeffVm
