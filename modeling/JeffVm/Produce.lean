import JeffVm.ExpressionTree
import JeffVm.Tape

/-!
# Producers

The code generators of all statements and expressions. A producer appends to a tape and
returns the number of instructions it counted; sums are evaluated from left to right, as
the C code relies on. `none` is a call of `ERROR` or a failed assertion.
-/

set_option autoImplicit false

namespace JeffVm

abbrev Producer := Tape → Option (Int × Tape)

namespace Producer

def skip : Producer := fun tape => some (0, tape)

def fail : Producer := fun _ => none

instance : Zero Producer := ⟨skip⟩

/-- Run `p`, and then the producer that depends on its count. -/
def withCount (p : Producer) (k : Int → Producer) : Producer := fun tape =>
  match p tape with
  | none => none
  | some (n, tape) =>
    match k n tape with
    | none => none
    | some (m, tape) => some (n + m, tape)

instance : Add Producer := ⟨fun p q => withCount p (fun _ => q)⟩

/-- Run `p` on a tape of its own. -/
def onTape (p : Producer) (tmp : Tape) (k : Int → Tape → Producer) : Producer := fun tape =>
  match p tmp with
  | none => none
  | some (n, tmp) => k n tmp tape

def onNewTape (p : Producer) (k : Int → Tape → Producer) : Producer := onTape p Tape.create k

def given {α : Type} (o : Option α) (k : α → Producer) : Producer :=
  match o with
  | none => fail
  | some a => k a

def insNoArg (op : Op) (token : Token) : Producer := fun tape => some (1, tape.insNoArg op token)

def insInt (op : Op) (val : Int) (token : Token) : Producer :=
  fun tape => some (1, tape.insInt op val token)

def insText (op : Op) (text : String) (token : Token) : Producer :=
  fun tape => some (1, tape.insText op text token)

def insToken (op : Op) (token : Token) : Producer :=
  fun tape => some (1, tape.insToken op token)

def insNeg (op : Op) (token : Token) : Producer :=
  fun tape => (tape.insNeg op token).map (fun tape => (1, tape))

def insAnon (op : Op) (token : Token) : Producer := fun tape => some (1, tape.insAnon op token)

def label (name : String) (isAsync : Bool) : Producer :=
  fun tape => (tape.startFunc name isAsync).map (fun tape => (0, tape))

/-- Append a finished tape that counts as `n` instructions. -/
def append (n : Int) (tail : Tape) : Producer := fun tape => some (n, tape.append tail)

end Producer

open Producer

def intMax : Int := 2 ^ 31 - 1

def iterFnName : String := "iter"
def nextFnName : String := "next"
def hasNextFnName : String := "has_next"
def inFnName : String := "__in__"
def arraylikeSetKey : String := "__set__"
def arraylikeIndexKey : String := "__index__"
def eqFnName : String := "__eq__"
def neqFnName : String := "__neq__"
def constructorKey : String := "new"
def selfName : String := "self"
def trueKeyword : String := "True"
def falseKeyword : String := "False"
def nilKeyword : String := "None"

/-- The operand of the jump that stands for a `break` or `continue` until a loop patches it. -/
def breakOperand : BreakType → Int
  | .break => 0
  | .continue => intMax

/-- The patch loop of the three loop producers at position `i` of the repeated part. -/
def patchIns (brk cont : Nat → Int) (i : Nat) (ins : Instruction) : Instruction :=
  match ins.jmpOffset with
  | none => ins
  | some n =>
    if n = 0 then ⟨.JMP, .val (.int (brk i))⟩
    else if n = intMax then ⟨.JMP, .val (.int (cont i))⟩
    else ins

def Tape.patch (brk cont : Nat → Int) (tape : Tape) : Tape :=
  { tape with ins := tape.ins.mapIdx (patchIns brk cont) }

def Tape.patchWhile (tmp : Tape) (linesForBody : Int) : Tape :=
  tmp.patch (fun i => linesForBody - i) (fun i => -(i + 1))

def Tape.patchFor (tmp : Tape) (bodyIns incIns : Int) : Tape :=
  tmp.patch (fun i => bodyIns + incIns - i) (fun i => bodyIns - i - 1)

def Tape.patchForeach (tmp : Tape) (bodyIns : Int) : Tape :=
  tmp.patch (fun i => bodyIns - i) (fun i => bodyIns - i - 1)

/-- The writing loop of `and` and `or` chains; `suffixIns` counts the tapes still to write. -/
def produceChain (op : Op) : List (Token × Tape) → Int → Producer
  | [], _ => 0
  | (token, suffix) :: rest, suffixIns =>
    insInt op (suffixIns + rest.length) token + append suffix.size suffix +
      produceChain op rest (suffixIns - suffix.size)

/-- The tapes of one `if` branch. -/
structure Branch where
  token : Token
  condition : Tape
  body : Tape

/-- All conditions forward. -/
def writeConditions (numBodyIns numConds : Int) (hasElse : Bool) :
    List Branch → Int → Int → Tape → Tape
  | [], _, _, tape => tape
  | b :: rest, numCondIns, numBodyJump, tape =>
    let numCondIns := numCondIns - b.condition.size
    let numBodyJump := numBodyJump - b.body.size
    let tape := tape.append b.condition
    let tape :=
      match rest with
      | [] => tape.insInt .IFN (numBodyIns + numConds + if hasElse then 0 else -1) b.token
      | _ :: _ => tape.insInt .IF (numCondIns + numBodyJump + 2 * rest.length) b.token
    writeConditions numBodyIns numConds hasElse rest numCondIns numBodyJump tape

/-- All bodies backward; the list is reversed. -/
def writeBodies (numElseIns : Int) (hasElse : Bool) : List Branch → Int → Tape → Tape
  | [], _, tape => tape
  | b :: rest, numBodyIns, tape =>
    let numBodyIns := numBodyIns - b.body.size
    let tape := tape.append b.body
    let tape :=
      if 0 < rest.length ∨ hasElse then
        tape.insInt .JMP (numElseIns + numBodyIns + rest.length) b.token
      else tape
    writeBodies numElseIns hasElse rest numBodyIns tape

/-- The second half of `produce_if_else`, after the tapes of all parts are produced. -/
def produceBranches (branches : List Branch) (numCondIns numBodyIns : Int)
    (elseBody : Option (Int × Tape)) : Producer := fun tape =>
  let numElseIns : Int := match elseBody with
    | some (n, _) => n
    | none => -1
  let numConds : Int := branches.length
  let numIns := numCondIns + numBodyIns + 2 * numConds + numElseIns
  let tape := writeConditions numBodyIns numConds elseBody.isSome branches numCondIns numBodyIns tape
  let tape := writeBodies numElseIns elseBody.isSome branches.reverse numBodyIns tape
  let tape := match elseBody with
    | some (_, e) => tape.append e
    | none => tape
  some (numIns, tape)

def produceIdentifier (id : Token) : Producer :=
  if id.text = trueKeyword then insInt .RES 1 id
  else if id.text = falseKeyword ∨ id.text = nilKeyword then insNoArg .RNIL id
  else insToken .RES id

def produceArgument (arg : Argument) : Producer :=
  if arg.isField then
    insNoArg .PUSH arg.argName + insText .RES selfName arg.argName +
      insToken (if arg.isConst then .FLDC else .FLD) arg.argName
  else insToken (if arg.isConst then .LETC else .LET) arg.argName

/-- The part of a unary expression after its operand. -/
def produceUnary (token : Token) : UnaryType → Producer
  | .not => insNoArg .NOT token
  | .notc => insNoArg .NOTC token
  | .negate => insNoArg .PUSH token + insInt .PUSH (-1) token + insNoArg .MULT token
  | .await => insNoArg .WAIT token
  | .const => fail
  | .unknown => fail

mutual

def produceInstructions : ExpressionTree → Producer
  | .identifier id => produceIdentifier id
  | .constant token => insToken .RES token
  | .stringLiteral token => insToken .RES token
  | .tupleExpression token list =>
    tupleExpressionHelper token list + insInt .TUPL list.length token
  | .arrayDeclaration token exp =>
    match exp with
    | none => insNoArg .ANEW token
    | some (.tupleExpression tupleToken list) =>
      tupleExpressionHelper tupleToken list + insInt .ANEW list.length token
    | some exp => produceInstructions exp + insNoArg .PUSH token + insInt .ANEW 1 token
  | .mapDeclaration lbrce entries =>
    insText .PUSH "struct" lbrce + insText .CLLN "Map" lbrce +
      match entries with
      | [] => 0
      | entry :: rest =>
        insNoArg .PUSH lbrce + (produceEntry entry + produceEntries rest) + insNoArg .RES lbrce
  | .primaryExpression exp => produceInstructions exp
  | .primaryExpressionNoConstants exp => produceInstructions exp
  | .postfixExpression base suffixes =>
    produceInstructions base + if suffixes.isEmpty then fail else producePostfixes suffixes
  | .rangeExpression token start inc stop =>
    insText .PUSH "range" token +
      (match inc with
        | none => 0
        | some inc => produceInstructions inc + insNoArg .PUSH token) +
      produceInstructions stop + insNoArg .PUSH token + produceInstructions start +
      insNoArg .PUSH token + insInt .TUPL (if inc.isSome then 3 else 2) token +
      insNoArg .CALL token
  | .unaryExpression token type exp =>
    match type, exp with
    | .negate, .constant constantToken => insNeg .RES constantToken
    | type, exp => produceInstructions exp + produceUnary token type
  | .biExpression _ exp suffixes => produceInstructions exp + produceBiSuffixes suffixes
  | .andExpression exp suffixes =>
    produceInstructions exp + given (produceSuffixTapes suffixes) fun (andSuffixIns, bodies) =>
      produceChain .IFN bodies andSuffixIns
  | .orExpression exp suffixes =>
    produceInstructions exp + given (produceSuffixTapes suffixes) fun (orSuffixIns, bodies) =>
      produceChain .IF bodies orSuffixIns
  | .inExpression token isNot element collection =>
    produceInstructions collection + insNoArg .PUSH token + produceInstructions element +
      insText .CALL inFnName token + if isNot then insNoArg .NOT token else 0
  | .isExpression token exp type =>
    produceInstructions exp + insNoArg .PUSH token + produceInstructions type +
      insNoArg .PUSH token + insNoArg .IS token
  | .conditionalExpression ifElse => produceIfElse ifElse
  | .anonFunctionDefinition func => produceAnonFunction func
  | .assignmentExpression eqToken assignment rhs =>
    produceInstructions rhs + produceAssignment eqToken assignment
  | .foreachStatement forToken inToken assignmentLhs iterable body =>
    insNoArg .NBLK forToken + produceInstructions iterable + insNoArg .PUSH inToken +
      insText .CALL iterFnName inToken + insNoArg .PUSH inToken +
      onNewTape (insNoArg .DUP forToken + insText .CALL nextFnName inToken +
          produceAssignment inToken assignmentLhs + produceInstructions body) fun bodyIns tmp =>
        withCount (insNoArg .DUP inToken + insText .CALL hasNextFnName inToken +
            insInt .IFN (bodyIns + 1) inToken) fun incLines =>
          append bodyIns (tmp.patchForeach bodyIns) +
            insInt .JMP (-(incLines + bodyIns + 1)) inToken + insNoArg .RES inToken +
            insNoArg .BBLK forToken
  | .forStatement forToken init condition inc body =>
    insNoArg .NBLK forToken + produceInstructions init +
      withCount (produceInstructions condition) fun conditionIns =>
        onNewTape (produceInstructions body) fun bodyIns tmp =>
          onTape (produceInstructions inc) tmp fun incIns tmp =>
            insInt .IFN (bodyIns + incIns + 1) forToken +
              append (bodyIns + incIns) (tmp.patchFor bodyIns incIns) +
              insInt .JMP (-(bodyIns + conditionIns + incIns + 1 + 1)) forToken +
              insNoArg .BBLK forToken
  | .whileStatement whileToken condition body =>
    withCount (insNoArg .NBLK whileToken + produceInstructions condition) fun numIns =>
      onNewTape (produceInstructions body) fun linesForBody tmp =>
        insInt .IFN (linesForBody + 1) whileToken +
          append linesForBody (tmp.patchWhile linesForBody) +
          insInt .JMP (-(numIns + (linesForBody + 1))) whileToken + insNoArg .BBLK whileToken
  | .compoundStatement expressions => produceStatements expressions
  | .tryStatement tryToken catchToken tryBody errorAssignmentLhs catchBody =>
    onNewTape (produceInstructions tryBody) fun tryIns tryBodyTape =>
      onNewTape (produceInstructions catchBody) fun catchIns catchBodyTape =>
        onNewTape (produceAssignment catchToken errorAssignmentLhs)
          fun numAssign errorAssignTape =>
            insNoArg .NBLK tryToken + insInt .CTCH (tryIns + 1) catchToken +
              append tryIns tryBodyTape + insInt .JMP (catchIns + numAssign) catchToken +
              append numAssign errorAssignTape + append catchIns catchBodyTape +
              insNoArg .RNIL catchToken + insText .SET "$try_goto" catchToken +
              insNoArg .BBLK tryToken
  | .raiseStatement raiseToken exp => produceInstructions exp + insNoArg .RAIS raiseToken
  | .selectionStatement ifElse => produceIfElse ifElse
  | .jumpStatement returnToken exp =>
    (match exp with
      | none => 0
      | some exp => produceInstructions exp) + insNoArg .RET returnToken
  | .breakStatement token type => insInt .JMP (breakOperand type) token
  | .exitStatement token => insNoArg .EXIT token

def tupleExpressionHelper (token : Token) : List ExpressionTree → Producer
  | [] => 0
  | elt :: rest =>
    tupleExpressionHelper token rest + produceInstructions elt + insNoArg .PUSH token

def produceStatements : List ExpressionTree → Producer
  | [] => 0
  | tree :: rest => produceInstructions tree + produceStatements rest

def produceEntry : MapDecEntry → Producer
  | ⟨colon, lhs, rhs⟩ =>
    insNoArg .DUP colon + produceInstructions rhs + insNoArg .PUSH colon +
      produceInstructions lhs + insNoArg .PUSH colon + insInt .TUPL 2 colon +
      insText .CALL arraylikeSetKey colon

def produceEntries : List MapDecEntry → Producer
  | [] => 0
  | entry :: rest => produceEntry entry + produceEntries rest

/-- The arguments of a call, which end in `CLLN` when there are none. -/
def produceCallArgs : Option ExpressionTree → (Op → Producer) → Producer
  | none, call => call .CLLN
  | some exp, call => produceInstructions exp + call .CALL

/-- The loop around `produce_postfix`, where a field looks ahead for a call. -/
def producePostfixes : List Postfix → Producer
  | [] => 0
  | .fncall token exp :: rest =>
    insNoArg .PUSH token + produceCallArgs exp (fun op => insNoArg op token) +
      producePostfixes rest
  | .arrayIndex token exp :: rest =>
    insNoArg .PUSH token + produceInstructions exp + insNoArg .AIDX token + producePostfixes rest
  | .field token id :: suffixes =>
    match suffixes with
    | .fncall _ exp :: rest =>
      insNoArg .PUSH token + produceCallArgs exp (fun op => insToken op id) +
        producePostfixes rest
    | suffixes => insToken .GET id + producePostfixes suffixes
  | .increment _ :: rest => producePostfixes rest
  | .decrement _ :: rest => producePostfixes rest
  | .none _ :: _ => fail

def produceBiSuffixes : List BiSuffix → Producer
  | [] => 0
  | ⟨token, type, exp⟩ :: rest =>
    match biToIns type with
    | none => fail
    | some op =>
      insNoArg .PUSH token + produceInstructions exp + insNoArg .PUSH token + insNoArg op token +
        produceBiSuffixes rest

def produceSuffixTapes : List BiSuffix → Option (Int × List (Token × Tape))
  | [] => some (0, [])
  | ⟨token, _, exp⟩ :: rest =>
    match produceInstructions exp Tape.create, produceSuffixTapes rest with
    | some (n, tape), some (m, tapes) => some (n + m, (token, tape) :: tapes)
    | _, _ => none

def produceConditional : Conditional → Option (Int × Int × Branch)
  | ⟨ifToken, condition, body⟩ =>
    match produceInstructions condition Tape.create, produceInstructions body Tape.create with
    | some (c, conditionTape), some (b, bodyTape) =>
      some (c, b, ⟨ifToken, conditionTape, bodyTape⟩)
    | _, _ => none

/-- The first loop of `produce_if_else`: the counts of conditions and bodies, and their tapes. -/
def produceConditionals : List Conditional → Option (Int × Int × List Branch)
  | [] => some (0, 0, [])
  | cond :: rest =>
    match produceConditional cond, produceConditionals rest with
    | some (c, b, branch), some (cs, bs, branches) => some (c + cs, b + bs, branch :: branches)
    | _, _ => none

def produceIfElse : IfElse → Producer
  | ⟨first, rest, none⟩ =>
    given (produceConditional first) fun (c, b, branch) =>
      given (produceConditionals rest) fun (cs, bs, branches) =>
        produceBranches (branch :: branches) (c + cs) (b + bs) none
  | ⟨first, rest, some e⟩ =>
    given (produceConditional first) fun (c, b, branch) =>
      given (produceConditionals rest) fun (cs, bs, branches) =>
        onNewTape (produceInstructions e) fun numElseIns elseBody =>
          produceBranches (branch :: branches) (c + cs) (b + bs) (some (numElseIns, elseBody))

/-- One round of `produce_all_arguments`. -/
def produceTupleArgument (token : Token) (i : Nat) (isLast : Bool) : Argument → Producer
  | ⟨isConst, isField, argName, some value⟩ =>
    insNoArg .PEEK token + insInt .TGTE (i + 1) argName +
      onNewTape (produceInstructions value) (fun defaultIns tmp =>
        insInt .IFN 3 argName + insNoArg (if isLast then .RES else .PEEK) argName +
          insInt .TGET i argName + insInt .JMP defaultIns argName + append defaultIns tmp) +
      produceArgument ⟨isConst, isField, argName, some value⟩
  | ⟨isConst, isField, argName, none⟩ =>
    (if isLast then insNoArg .RES token else insNoArg .PEEK argName) + insInt .TGET i token +
      produceArgument ⟨isConst, isField, argName, none⟩

/-- The loop of `produce_all_arguments` from argument `i` on. -/
def produceAllArguments (token : Token) : Nat → List Argument → Producer
  | _, [] => 0
  | i, arg :: rest =>
    produceTupleArgument token i rest.isEmpty arg + produceAllArguments token (i + 1) rest

/-- One round of the loop of `produce_arguments` over the arguments after the first. -/
def produceDefault : Argument → Producer
  | ⟨isConst, isField, argName, some value⟩ =>
    produceInstructions value + produceArgument ⟨isConst, isField, argName, some value⟩
  | ⟨isConst, isField, argName, none⟩ =>
    insNoArg .RNIL argName + produceArgument ⟨isConst, isField, argName, none⟩

def produceDefaults : List Argument → Producer
  | [] => 0
  | arg :: rest => produceDefault arg + produceDefaults rest

/-- The case of `produce_arguments` with one argument. -/
def produceOnlyArgument : Argument → Producer
  | ⟨isConst, isField, argName, some value⟩ =>
    onNewTape (produceInstructions value) (fun numDefaultIns defaults =>
      insNoArg .PUSH argName + insInt .TGTE 1 argName + insInt .IF (numDefaultIns + 1) argName +
        append numDefaultIns defaults + insInt .JMP 1 argName + insNoArg .RES argName +
        insInt .TGET 0 argName) +
      produceArgument ⟨isConst, isField, argName, some value⟩
  | ⟨isConst, isField, argName, none⟩ => produceArgument ⟨isConst, isField, argName, none⟩

def produceArguments : Arguments → Producer
  | ⟨_, first, []⟩ => produceOnlyArgument first
  | ⟨token, first, rest⟩ =>
    insNoArg .PUSH token + insNoArg .TLEN first.argName + insNoArg .PUSH first.argName +
      insInt .PUSH (-1) first.argName + insNoArg .EQ first.argName +
      onNewTape (insNoArg .RES first.argName + produceArgument first + produceDefaults rest)
        fun defaultsIns defaults =>
          onNewTape (produceTupleArgument token 0 rest.isEmpty first +
              produceAllArguments token 1 rest) fun nondefaultsIns nonDefaults =>
            onTape (insInt .JMP nondefaultsIns first.argName) defaults fun n defaults =>
              insInt .IFN (defaultsIns + n) first.argName +
                append (defaultsIns + n) defaults + append nondefaultsIns nonDefaults

def produceAnonFunction : FunctionDef → Producer
  | ⟨defToken, _, _, isAsync, some args, body⟩ =>
    onNewTape (produceArguments args + produceInstructions body + insNoArg .RET defToken)
      fun funcIns tmp =>
        insInt .JMP funcIns defToken + label (Tape.anonFnForToken defToken) isAsync +
          append funcIns tmp + insAnon .RES defToken
  | ⟨defToken, _, _, isAsync, none, body⟩ =>
    onNewTape (produceInstructions body + insNoArg .RET defToken) fun funcIns tmp =>
      insInt .JMP funcIns defToken + label (Tape.anonFnForToken defToken) isAsync +
        append funcIns tmp + insAnon .RES defToken

def produceAssignment (eqToken : Token) : Assignment → Producer
  | .var isConst var => insToken (if isConst then .SETC else .SET) var
  | .complex prefixExp suffixes =>
    insNoArg .PUSH eqToken + produceInstructions prefixExp + produceSetSuffixes suffixes
  | .multi _ subargs =>
    insNoArg .PUSH eqToken + produceSubargs eqToken subargs.length 0 subargs

/-- The suffixes of an assignment target: the last one is the store. -/
def produceSetSuffixes : List Postfix → Producer
  | [] => fail
  | .fncall token exp :: rest =>
    if rest.isEmpty then fail
    else insNoArg .PUSH token + produceCallArgs exp (fun op => insNoArg op token) +
      produceSetSuffixes rest
  | .arrayIndex token exp :: rest =>
    insNoArg .PUSH token + produceInstructions exp +
      if rest.isEmpty then insNoArg .ASET token
      else insNoArg .AIDX token + produceSetSuffixes rest
  | .field token id :: suffixes =>
    match suffixes with
    | [] => insToken .FLD id
    | .fncall _ exp :: next :: rest =>
      insNoArg .PUSH token + produceCallArgs exp (fun op => insToken op id) +
        produceSetSuffixes (next :: rest)
    | suffixes => insToken .GET id + produceSetSuffixes suffixes
  | .increment _ :: rest => if rest.isEmpty then fail else produceSetSuffixes rest
  | .decrement _ :: rest => if rest.isEmpty then fail else produceSetSuffixes rest
  | .none _ :: _ => fail

/-- The loop of `produce_assignment_multi` from target `i` of `len` on. -/
def produceSubargs (eqToken : Token) (len : Nat) : Nat → List Assignment → Producer
  | _, [] => 0
  | i, assign :: rest =>
    insNoArg (if i < len - i then .PEEK else .RES) eqToken + insNoArg .PUSH eqToken +
      insInt .RES i eqToken + insNoArg .AIDX eqToken + produceAssignment eqToken assign +
      produceSubargs eqToken len (i + 1) rest

end

end JeffVm
