import JeffVm.Files
import JeffVm.Structured

/-!
# What source trees do

A big-step semantics of the trees of statements and expressions. It says in which order the parts
of a tree are evaluated, which values an operation gets, which branch is taken, how often a loop
repeats and where a `break`, a `continue` or a `return` leads. There is no operand stack: an
operation is an instruction on a list of operands, and does the same whatever else is there.
-/

set_option autoImplicit false

namespace JeffVm

/-- What a tree is evaluated in: the heap, the scopes and the value of what came before. -/
structure Memory where
  store : Store
  contexts : Contexts
  value : Entity

namespace Memory

/-- The scene with operands on the stack. -/
def scene (m : Memory) (stack : List Entity) : Scene := ⟨m.store, m.contexts, m.value, stack⟩

def enter (m : Memory) (func : FunctionId) (self : ObjectId) (parentContext : Option ContextId) :
    Option (ContextId × Memory) :=
  ((m.scene []).enter func self parentContext).map
    fun (d, s) => (d, ⟨s.store, s.contexts, s.resval⟩)

def enterBlock (m : Memory) (c : ContextId) : Option (ContextId × Memory) :=
  ((m.scene []).enterBlock c).map fun (d, s) => (d, ⟨s.store, s.contexts, s.resval⟩)

/-- The value that a name has in context `c`, and the memory after the lookup. -/
def lookup (m : Memory) (c : ContextId) (id : String) : Entity × Memory :=
  let (member, store) := contextLookup m.store m.contexts c id
  (member.getD .none, { m with store := store })

end Memory

/-- A function that is called: the code that binds its arguments, its body, and the code that
returns. A constructor without a body is only code. -/
inductive Routine where
  | tree (prologue : Code) (body : ExpressionTree) (epilogue : Code)
  | code (body : Code)

namespace Routine

def ofFunction (func : FunctionDef) : Routine :=
  .tree (lowerOptArguments func.args) func.body (opCode .RET)

def ofConstructor (cls : ClassDef) : Routine :=
  match cls.constructor with
  | some func =>
    .tree (lowerFields cls ++ lowerOptArguments func.args) func.body
      (idCode .RES selfName ++ opCode .RET)
  | none => .code (lowerConstructor cls)

def lower : Routine → Code
  | tree prologue body epilogue => prologue ++ JeffVm.lower body ++ epilogue
  | code body => body

end Routine

abbrev Routines := FunctionId → Option Routine

/-- The code of the functions. -/
def Routines.lower (routines : Routines) : Program := fun func => (routines func).map Routine.lower

/-- The instruction calls the routine on the operands; it starts in context `d` with memory `m'`. -/
def Memory.Invokes (env : Env) (routines : Routines) (c : ContextId) (ins : Instruction)
    (operands : List Entity) (m : Memory) (routine : Routine) (d : ContextId) (m' : Memory) : Prop :=
  ∃ (m₁ : Memory) (func : FunctionId) (self : ObjectId) (parentContext : Option ContextId),
    (∀ stack, (m.scene (operands ++ stack)).Does env c ins
      (.call ⟨m₁.store, m₁.value, stack⟩ func self parentContext)) ∧
    m₁.contexts = m.contexts ∧ (m₁.store.functions func).isAsync = false ∧
    routines func = some routine ∧ m₁.enter func self parentContext = some (d, m')

/-- A loop; a `foreach` with its iterator. -/
inductive LoopTree where
  | while (condition body : ExpressionTree)
  | for (condition inc body : ExpressionTree)
  | foreach (iterator : Entity) (lhs : Assignment) (body : ExpressionTree)

/-- What is evaluated: a tree, a part of one with the values it depends on, or an operation on a list
of operands. -/
inductive Phrase where
  | tree (e : ExpressionTree)
  | elements (list : List ExpressionTree) (values : List Entity)
  | statements (list : List ExpressionTree)
  | entries (map : Entity) (entries : List MapDecEntry)
  | postfixes (suffixes : List Postfix)
  | operators (suffixes : List BiSuffix)
  | chain (test : Test) (suffixes : List BiSuffix)
  | branches (first : Conditional) (rest : List Conditional) (elseExp : Option ExpressionTree)
  | assign (assignment : Assignment)
  | setSuffixes (value : Entity) (suffixes : List Postfix)
  | subargs (value : Entity) (len i : Nat) (subargs : List Assignment)
  | test (loop : LoopTree)
  | first (loop : LoopTree)
  | second (loop : LoopTree)
  | condition (loop : LoopTree)
  | body (loop : LoopTree)
  | again (loop : LoopTree)
  | operate (ins : Instruction) (operands : List Entity)

/-- The instruction of an operator after its operand. -/
def unaryIns : UnaryType → Option Instruction
  | .not => some ⟨.NOT, .noArg⟩
  | .await => some ⟨.WAIT, .noArg⟩
  | _ => none

/-- A phrase in context `c` gets from a memory to a memory. -/
inductive Eval (env : Env) (routines : Routines) :
    ContextId → Phrase → Memory → Signal → Memory → Prop where
  -- Operations
  | operate {c : ContextId} {ins : Instruction} {operands : List Entity} {m m' : Memory} :
    (∀ stack, (m.scene (operands ++ stack)).Does env c ins (.next ⟨m'.store, m'.value, stack⟩)) →
    m'.contexts = m.contexts → Eval env routines c (.operate ins operands) m .normal m'
  | invokeReturn {c d : ContextId} {ins : Instruction} {operands : List Entity}
      {prologue epilogue : Code} {body : ExpressionTree} {m m₁ m₂ m₃ : Memory}
      {stack : List Entity} :
    m.Invokes env routines c ins operands (.tree prologue body epilogue) d m₁ →
    Exec env routines.lower d (.code prologue) (m₁.scene []) .normal (m₂.scene stack) →
    Eval env routines d (.tree body) m₂ .ret m₃ →
    Eval env routines c (.operate ins operands) m .normal m₃
  | invokeFinish {c d : ContextId} {ins : Instruction} {operands : List Entity}
      {prologue epilogue : Code} {body : ExpressionTree} {m m₁ m₂ m₃ m₄ : Memory}
      {stack stack' : List Entity} :
    m.Invokes env routines c ins operands (.tree prologue body epilogue) d m₁ →
    Exec env routines.lower d (.code prologue) (m₁.scene []) .normal (m₂.scene stack) →
    Eval env routines d (.tree body) m₂ .normal m₃ →
    Exec env routines.lower d (.code epilogue) (m₃.scene stack) .ret (m₄.scene stack') →
    Eval env routines c (.operate ins operands) m .normal m₄
  | invokeCode {c d : ContextId} {ins : Instruction} {operands : List Entity} {code : Code}
      {m m₁ m₂ : Memory} {stack : List Entity} :
    m.Invokes env routines c ins operands (.code code) d m₁ →
    Exec env routines.lower d (.code code) (m₁.scene []) .ret (m₂.scene stack) →
    Eval env routines c (.operate ins operands) m .normal m₂
  -- Primary expressions
  | one {c : ContextId} {id : Token} {m : Memory} : id.text = trueKeyword →
    Eval env routines c (.tree (.identifier id)) m .normal { m with value := .int 1 }
  | nothing {c : ContextId} {id : Token} {m : Memory} : id.text ≠ trueKeyword →
    id.text = falseKeyword ∨ id.text = nilKeyword →
    Eval env routines c (.tree (.identifier id)) m .normal { m with value := .none }
  | identifier {c : ContextId} {id : Token} {m m' : Memory} : id.text ≠ trueKeyword →
    ¬ (id.text = falseKeyword ∨ id.text = nilKeyword) →
    Eval env routines c (.operate ⟨.RES, Tape.argOfToken id⟩ []) m .normal m' →
    Eval env routines c (.tree (.identifier id)) m .normal m'
  | constant {c : ContextId} {token : Token} {m m' : Memory} :
    Eval env routines c (.operate ⟨.RES, Tape.argOfToken token⟩ []) m .normal m' →
    Eval env routines c (.tree (.constant token)) m .normal m'
  | stringLiteral {c : ContextId} {token : Token} {m m' : Memory} :
    Eval env routines c (.operate ⟨.RES, Tape.argOfToken token⟩ []) m .normal m' →
    Eval env routines c (.tree (.stringLiteral token)) m .normal m'
  | primary {c : ContextId} {exp : ExpressionTree} {m m' : Memory} {signal : Signal} :
    Eval env routines c (.tree exp) m signal m' →
    Eval env routines c (.tree (.primaryExpression exp)) m signal m'
  | primaryNoConstants {c : ContextId} {exp : ExpressionTree} {m m' : Memory} {signal : Signal} :
    Eval env routines c (.tree exp) m signal m' →
    Eval env routines c (.tree (.primaryExpressionNoConstants exp)) m signal m'
  -- The last element is evaluated first.
  | elementsNil {c : ContextId} {m : Memory} : Eval env routines c (.elements [] []) m .normal m
  | elementsCons {c : ContextId} {elt : ExpressionTree} {rest : List ExpressionTree}
      {values : List Entity} {m m₁ m₂ : Memory} :
    Eval env routines c (.elements rest values) m .normal m₁ →
    Eval env routines c (.tree elt) m₁ .normal m₂ →
    Eval env routines c (.elements (elt :: rest) (m₂.value :: values)) m .normal m₂
  | tuple {c : ContextId} {token : Token} {list : List ExpressionTree} {values : List Entity}
      {m m₁ m₂ : Memory} :
    Eval env routines c (.elements list values) m .normal m₁ →
    Eval env routines c (.operate ⟨.TUPL, .val (.int list.length)⟩ values) m₁ .normal m₂ →
    Eval env routines c (.tree (.tupleExpression token list)) m .normal m₂
  | arrayEmpty {c : ContextId} {token : Token} {m m' : Memory} :
    Eval env routines c (.operate ⟨.ANEW, .noArg⟩ []) m .normal m' →
    Eval env routines c (.tree (.arrayDeclaration token none)) m .normal m'
  | arrayTuple {c : ContextId} {token tupleToken : Token} {list : List ExpressionTree}
      {values : List Entity} {m m₁ m₂ : Memory} :
    Eval env routines c (.elements list values) m .normal m₁ →
    Eval env routines c (.operate ⟨.ANEW, .val (.int list.length)⟩ values) m₁ .normal m₂ →
    Eval env routines c (.tree (.arrayDeclaration token (some (.tupleExpression tupleToken list))))
      m .normal m₂
  | arraySingle {c : ContextId} {token : Token} {exp : ExpressionTree} {m m₁ m₂ : Memory} :
    (∀ tupleToken list, exp ≠ .tupleExpression tupleToken list) →
    Eval env routines c (.tree exp) m .normal m₁ →
    Eval env routines c (.operate ⟨.ANEW, .val (.int 1)⟩ [m₁.value]) m₁ .normal m₂ →
    Eval env routines c (.tree (.arrayDeclaration token (some exp))) m .normal m₂
  | mapEmpty {c : ContextId} {lbrce : Token} {m m' : Memory} :
    Eval env routines c (.operate ⟨.CLLN, .id "Map"⟩ [(m.lookup c "struct").1])
      (m.lookup c "struct").2 .normal m' →
    Eval env routines c (.tree (.mapDeclaration lbrce [])) m .normal m'
  | mapEntries {c : ContextId} {lbrce : Token} {entry : MapDecEntry} {rest : List MapDecEntry}
      {m m₁ m₂ : Memory} :
    Eval env routines c (.operate ⟨.CLLN, .id "Map"⟩ [(m.lookup c "struct").1])
      (m.lookup c "struct").2 .normal m₁ →
    Eval env routines c (.entries m₁.value (entry :: rest)) m₁ .normal m₂ →
    Eval env routines c (.tree (.mapDeclaration lbrce (entry :: rest))) m .normal
      { m₂ with value := m₁.value }
  | entriesNil {c : ContextId} {map : Entity} {m : Memory} :
    Eval env routines c (.entries map []) m .normal m
  -- The value of an entry is evaluated before its key.
  | entriesCons {c : ContextId} {map : Entity} {colon : Token} {lhs rhs : ExpressionTree}
      {rest : List MapDecEntry} {m m₁ m₂ m₃ m₄ m₅ : Memory} :
    Eval env routines c (.tree rhs) m .normal m₁ → Eval env routines c (.tree lhs) m₁ .normal m₂ →
    Eval env routines c (.operate ⟨.TUPL, .val (.int 2)⟩ [m₂.value, m₁.value]) m₂ .normal m₃ →
    Eval env routines c (.operate ⟨.CALL, .id arraylikeSetKey⟩ [map]) m₃ .normal m₄ →
    Eval env routines c (.entries map rest) m₄ .normal m₅ →
    Eval env routines c (.entries map (⟨colon, lhs, rhs⟩ :: rest)) m .normal m₅
  -- Suffixes
  | suffixed {c : ContextId} {base : ExpressionTree} {suffixes : List Postfix} {m m₁ m₂ : Memory} :
    Eval env routines c (.tree base) m .normal m₁ →
    Eval env routines c (.postfixes suffixes) m₁ .normal m₂ →
    Eval env routines c (.tree (.postfixExpression base suffixes)) m .normal m₂
  | postfixesNil {c : ContextId} {m : Memory} : Eval env routines c (.postfixes []) m .normal m
  | callWith {c : ContextId} {token : Token} {exp : ExpressionTree} {rest : List Postfix}
      {m m₁ m₂ m₃ : Memory} :
    Eval env routines c (.tree exp) m .normal m₁ →
    Eval env routines c (.operate ⟨.CALL, .noArg⟩ [m.value]) m₁ .normal m₂ →
    Eval env routines c (.postfixes rest) m₂ .normal m₃ →
    Eval env routines c (.postfixes (.fncall token (some exp) :: rest)) m .normal m₃
  | callWithout {c : ContextId} {token : Token} {rest : List Postfix} {m m₁ m₂ : Memory} :
    Eval env routines c (.operate ⟨.CLLN, .noArg⟩ [m.value]) m .normal m₁ →
    Eval env routines c (.postfixes rest) m₁ .normal m₂ →
    Eval env routines c (.postfixes (.fncall token none :: rest)) m .normal m₂
  | index {c : ContextId} {token : Token} {exp : ExpressionTree} {rest : List Postfix}
      {m m₁ m₂ m₃ : Memory} :
    Eval env routines c (.tree exp) m .normal m₁ →
    Eval env routines c (.operate ⟨.AIDX, .noArg⟩ [m.value]) m₁ .normal m₂ →
    Eval env routines c (.postfixes rest) m₂ .normal m₃ →
    Eval env routines c (.postfixes (.arrayIndex token exp :: rest)) m .normal m₃
  | methodWith {c : ContextId} {token id callToken : Token} {exp : ExpressionTree}
      {rest : List Postfix} {m m₁ m₂ m₃ : Memory} :
    Eval env routines c (.tree exp) m .normal m₁ →
    Eval env routines c (.operate ⟨.CALL, Tape.argOfToken id⟩ [m.value]) m₁ .normal m₂ →
    Eval env routines c (.postfixes rest) m₂ .normal m₃ →
    Eval env routines c (.postfixes (.field token id :: .fncall callToken (some exp) :: rest)) m
      .normal m₃
  | methodWithout {c : ContextId} {token id callToken : Token} {rest : List Postfix}
      {m m₁ m₂ : Memory} :
    Eval env routines c (.operate ⟨.CLLN, Tape.argOfToken id⟩ [m.value]) m .normal m₁ →
    Eval env routines c (.postfixes rest) m₁ .normal m₂ →
    Eval env routines c (.postfixes (.field token id :: .fncall callToken none :: rest)) m .normal m₂
  | field {c : ContextId} {token id : Token} {rest : List Postfix} {m m₁ m₂ : Memory} :
    (∀ callToken exp rest', rest ≠ .fncall callToken exp :: rest') →
    Eval env routines c (.operate ⟨.GET, Tape.argOfToken id⟩ []) m .normal m₁ →
    Eval env routines c (.postfixes rest) m₁ .normal m₂ →
    Eval env routines c (.postfixes (.field token id :: rest)) m .normal m₂
  -- Operators
  | range {c : ContextId} {token : Token} {start stop : ExpressionTree} {m m₁ m₂ m₃ m₄ : Memory} :
    Eval env routines c (.tree stop) (m.lookup c "range").2 .normal m₁ →
    Eval env routines c (.tree start) m₁ .normal m₂ →
    Eval env routines c (.operate ⟨.TUPL, .val (.int 2)⟩ [m₂.value, m₁.value]) m₂ .normal m₃ →
    Eval env routines c (.operate ⟨.CALL, .noArg⟩ [(m.lookup c "range").1]) m₃ .normal m₄ →
    Eval env routines c (.tree (.rangeExpression token start none stop)) m .normal m₄
  | rangeInc {c : ContextId} {token : Token} {start inc stop : ExpressionTree}
      {m m₁ m₂ m₃ m₄ m₅ : Memory} :
    Eval env routines c (.tree inc) (m.lookup c "range").2 .normal m₁ →
    Eval env routines c (.tree stop) m₁ .normal m₂ →
    Eval env routines c (.tree start) m₂ .normal m₃ →
    Eval env routines c (.operate ⟨.TUPL, .val (.int 3)⟩ [m₃.value, m₂.value, m₁.value]) m₃
      .normal m₄ →
    Eval env routines c (.operate ⟨.CALL, .noArg⟩ [(m.lookup c "range").1]) m₄ .normal m₅ →
    Eval env routines c (.tree (.rangeExpression token start (some inc) stop)) m .normal m₅
  | negConstant {c : ContextId} {token constantToken : Token} {n : Int} {m : Memory} :
    tokenToPrimitive constantToken = some (.int n) →
    Eval env routines c (.tree (.unaryExpression token .negate (.constant constantToken))) m
      .normal { m with value := .int (wrap32 (-n)) }
  | negate {c : ContextId} {token : Token} {exp : ExpressionTree} {m m₁ m₂ : Memory} :
    (∀ constantToken, exp ≠ .constant constantToken) →
    Eval env routines c (.tree exp) m .normal m₁ →
    Eval env routines c (.operate ⟨.MULT, .noArg⟩ [.int (-1), m₁.value]) m₁ .normal m₂ →
    Eval env routines c (.tree (.unaryExpression token .negate exp)) m .normal m₂
  | unary {c : ContextId} {token : Token} {type : UnaryType} {exp : ExpressionTree}
      {ins : Instruction} {m m₁ m₂ : Memory} :
    unaryIns type = some ins → Eval env routines c (.tree exp) m .normal m₁ →
    Eval env routines c (.operate ins []) m₁ .normal m₂ →
    Eval env routines c (.tree (.unaryExpression token type exp)) m .normal m₂
  | bi {c : ContextId} {level : BiLevel} {exp : ExpressionTree} {suffixes : List BiSuffix}
      {m m₁ m₂ : Memory} :
    Eval env routines c (.tree exp) m .normal m₁ →
    Eval env routines c (.operators suffixes) m₁ .normal m₂ →
    Eval env routines c (.tree (.biExpression level exp suffixes)) m .normal m₂
  | operatorsNil {c : ContextId} {m : Memory} : Eval env routines c (.operators []) m .normal m
  | operatorsCons {c : ContextId} {token : Token} {type : BiType} {exp : ExpressionTree} {op : Op}
      {rest : List BiSuffix} {m m₁ m₂ m₃ : Memory} :
    biToIns type = some op → Eval env routines c (.tree exp) m .normal m₁ →
    Eval env routines c (.operate ⟨op, .noArg⟩ [m₁.value, m.value]) m₁ .normal m₂ →
    Eval env routines c (.operators rest) m₂ .normal m₃ →
    Eval env routines c (.operators (⟨token, type, exp⟩ :: rest)) m .normal m₃
  | and {c : ContextId} {exp : ExpressionTree} {suffixes : List BiSuffix} {m m₁ m₂ : Memory} :
    Eval env routines c (.tree exp) m .normal m₁ →
    Eval env routines c (.chain .IFN suffixes) m₁ .normal m₂ →
    Eval env routines c (.tree (.andExpression exp suffixes)) m .normal m₂
  | or {c : ContextId} {exp : ExpressionTree} {suffixes : List BiSuffix} {m m₁ m₂ : Memory} :
    Eval env routines c (.tree exp) m .normal m₁ →
    Eval env routines c (.chain .IF suffixes) m₁ .normal m₂ →
    Eval env routines c (.tree (.orExpression exp suffixes)) m .normal m₂
  | chainNil {c : ContextId} {test : Test} {m : Memory} :
    Eval env routines c (.chain test []) m .normal m
  | chainStop {c : ContextId} {test : Test} {suffix : BiSuffix} {rest : List BiSuffix}
      {m : Memory} :
    test.jumps m.value = true → Eval env routines c (.chain test (suffix :: rest)) m .normal m
  | chainCons {c : ContextId} {test : Test} {token : Token} {type : BiType} {exp : ExpressionTree}
      {rest : List BiSuffix} {m m₁ m₂ : Memory} :
    test.jumps m.value = false → Eval env routines c (.tree exp) m .normal m₁ →
    Eval env routines c (.chain test rest) m₁ .normal m₂ →
    Eval env routines c (.chain test (⟨token, type, exp⟩ :: rest)) m .normal m₂
  | isIn {c : ContextId} {token : Token} {element collection : ExpressionTree}
      {m m₁ m₂ m₃ : Memory} :
    Eval env routines c (.tree collection) m .normal m₁ →
    Eval env routines c (.tree element) m₁ .normal m₂ →
    Eval env routines c (.operate ⟨.CALL, .id inFnName⟩ [m₁.value]) m₂ .normal m₃ →
    Eval env routines c (.tree (.inExpression token false element collection)) m .normal m₃
  | isNotIn {c : ContextId} {token : Token} {element collection : ExpressionTree}
      {m m₁ m₂ m₃ m₄ : Memory} :
    Eval env routines c (.tree collection) m .normal m₁ →
    Eval env routines c (.tree element) m₁ .normal m₂ →
    Eval env routines c (.operate ⟨.CALL, .id inFnName⟩ [m₁.value]) m₂ .normal m₃ →
    Eval env routines c (.operate ⟨.NOT, .noArg⟩ []) m₃ .normal m₄ →
    Eval env routines c (.tree (.inExpression token true element collection)) m .normal m₄
  | is {c : ContextId} {token : Token} {exp type : ExpressionTree} {m m₁ m₂ m₃ : Memory} :
    Eval env routines c (.tree exp) m .normal m₁ → Eval env routines c (.tree type) m₁ .normal m₂ →
    Eval env routines c (.operate ⟨.IS, .noArg⟩ [m₂.value, m₁.value]) m₂ .normal m₃ →
    Eval env routines c (.tree (.isExpression token exp type)) m .normal m₃
  | anonFunction {c : ContextId} {func : FunctionDef} {m m' : Memory} :
    Eval env routines c (.operate ⟨.RES, .id (Tape.anonFnForToken func.defToken)⟩ []) m .normal m' →
    Eval env routines c (.tree (.anonFunctionDefinition func)) m .normal m'
  -- Branches
  | conditional {c : ContextId} {first : Conditional} {rest : List Conditional}
      {elseExp : Option ExpressionTree} {m m' : Memory} {signal : Signal} :
    Eval env routines c (.branches first rest elseExp) m signal m' →
    Eval env routines c (.tree (.conditionalExpression ⟨first, rest, elseExp⟩)) m signal m'
  | selection {c : ContextId} {first : Conditional} {rest : List Conditional}
      {elseExp : Option ExpressionTree} {m m' : Memory} {signal : Signal} :
    Eval env routines c (.branches first rest elseExp) m signal m' →
    Eval env routines c (.tree (.selectionStatement ⟨first, rest, elseExp⟩)) m signal m'
  | taken {c : ContextId} {ifToken : Token} {condition body : ExpressionTree}
      {rest : List Conditional} {elseExp : Option ExpressionTree} {m m₁ m' : Memory}
      {signal : Signal} :
    Eval env routines c (.tree condition) m .normal m₁ → m₁.value.isNone = false →
    Eval env routines c (.tree body) m₁ signal m' →
    Eval env routines c (.branches ⟨ifToken, condition, body⟩ rest elseExp) m signal m'
  | passed {c : ContextId} {ifToken : Token} {condition body : ExpressionTree}
      {next : Conditional} {rest : List Conditional} {elseExp : Option ExpressionTree}
      {m m₁ m' : Memory} {signal : Signal} :
    Eval env routines c (.tree condition) m .normal m₁ → m₁.value.isNone = true →
    Eval env routines c (.branches next rest elseExp) m₁ signal m' →
    Eval env routines c (.branches ⟨ifToken, condition, body⟩ (next :: rest) elseExp) m signal m'
  | noBranch {c : ContextId} {ifToken : Token} {condition body : ExpressionTree}
      {m m₁ : Memory} :
    Eval env routines c (.tree condition) m .normal m₁ → m₁.value.isNone = true →
    Eval env routines c (.branches ⟨ifToken, condition, body⟩ [] none) m .normal m₁
  | otherwise {c : ContextId} {ifToken : Token} {condition body elseExp : ExpressionTree}
      {m m₁ m' : Memory} {signal : Signal} :
    Eval env routines c (.tree condition) m .normal m₁ → m₁.value.isNone = true →
    Eval env routines c (.tree elseExp) m₁ signal m' →
    Eval env routines c (.branches ⟨ifToken, condition, body⟩ [] (some elseExp)) m signal m'
  -- Assignments
  | assignment {c : ContextId} {eqToken : Token} {assignment : Assignment} {rhs : ExpressionTree}
      {m m₁ m₂ : Memory} :
    Eval env routines c (.tree rhs) m .normal m₁ →
    Eval env routines c (.assign assignment) m₁ .normal m₂ →
    Eval env routines c (.tree (.assignmentExpression eqToken assignment rhs)) m .normal m₂
  | assignVar {c : ContextId} {var : Token} {m m' : Memory} :
    Eval env routines c (.operate ⟨.SET, Tape.argOfToken var⟩ []) m .normal m' →
    Eval env routines c (.assign (.var false var)) m .normal m'
  | assignComplex {c : ContextId} {prefixExp : ExpressionTree} {suffixes : List Postfix}
      {m m₁ m₂ : Memory} :
    Eval env routines c (.tree prefixExp) m .normal m₁ →
    Eval env routines c (.setSuffixes m.value suffixes) m₁ .normal m₂ →
    Eval env routines c (.assign (.complex prefixExp suffixes)) m .normal m₂
  | setField {c : ContextId} {value : Entity} {token id : Token} {m m' : Memory} :
    Eval env routines c (.operate ⟨.FLD, Tape.argOfToken id⟩ [value]) m .normal m' →
    Eval env routines c (.setSuffixes value [.field token id]) m .normal m'
  | setIndex {c : ContextId} {value : Entity} {token : Token} {exp : ExpressionTree}
      {m m₁ m₂ : Memory} :
    Eval env routines c (.tree exp) m .normal m₁ →
    Eval env routines c (.operate ⟨.ASET, .noArg⟩ [m.value, value]) m₁ .normal m₂ →
    Eval env routines c (.setSuffixes value [.arrayIndex token exp]) m .normal m₂
  | setThroughIndex {c : ContextId} {value : Entity} {token : Token} {exp : ExpressionTree}
      {suffix : Postfix} {rest : List Postfix} {m m₁ m₂ m₃ : Memory} :
    Eval env routines c (.tree exp) m .normal m₁ →
    Eval env routines c (.operate ⟨.AIDX, .noArg⟩ [m.value]) m₁ .normal m₂ →
    Eval env routines c (.setSuffixes value (suffix :: rest)) m₂ .normal m₃ →
    Eval env routines c (.setSuffixes value (.arrayIndex token exp :: suffix :: rest)) m .normal m₃
  | setThroughField {c : ContextId} {value : Entity} {token id : Token} {suffix : Postfix}
      {rest : List Postfix} {m m₁ m₂ : Memory} :
    (∀ callToken exp next rest', suffix :: rest ≠ .fncall callToken exp :: next :: rest') →
    Eval env routines c (.operate ⟨.GET, Tape.argOfToken id⟩ []) m .normal m₁ →
    Eval env routines c (.setSuffixes value (suffix :: rest)) m₁ .normal m₂ →
    Eval env routines c (.setSuffixes value (.field token id :: suffix :: rest)) m .normal m₂
  | setThroughMethod {c : ContextId} {value : Entity} {token id callToken : Token}
      {exp : ExpressionTree} {suffix : Postfix} {rest : List Postfix} {m m₁ m₂ m₃ : Memory} :
    Eval env routines c (.tree exp) m .normal m₁ →
    Eval env routines c (.operate ⟨.CALL, Tape.argOfToken id⟩ [m.value]) m₁ .normal m₂ →
    Eval env routines c (.setSuffixes value (suffix :: rest)) m₂ .normal m₃ →
    Eval env routines c (.setSuffixes value
      (.field token id :: .fncall callToken (some exp) :: suffix :: rest)) m .normal m₃
  | setThroughCall {c : ContextId} {value : Entity} {token : Token} {exp : ExpressionTree}
      {suffix : Postfix} {rest : List Postfix} {m m₁ m₂ m₃ : Memory} :
    Eval env routines c (.tree exp) m .normal m₁ →
    Eval env routines c (.operate ⟨.CALL, .noArg⟩ [m.value]) m₁ .normal m₂ →
    Eval env routines c (.setSuffixes value (suffix :: rest)) m₂ .normal m₃ →
    Eval env routines c (.setSuffixes value (.fncall token (some exp) :: suffix :: rest)) m .normal
      m₃
  | assignMulti {c : ContextId} {isArray : Bool} {subargs : List Assignment} {m m' : Memory} :
    Eval env routines c (.subargs m.value subargs.length 0 subargs) m .normal m' →
    Eval env routines c (.assign (.multi isArray subargs)) m .normal m'
  -- The value stays on the stack while `i` is less than `len - i`, and is popped at the last.
  | subargsMore {c : ContextId} {value : Entity} {len i : Nat} {assignment : Assignment}
      {rest : List Assignment} {m m₁ m₂ m₃ : Memory} :
    i < len - i →
    Eval env routines c (.operate ⟨.AIDX, .noArg⟩ [value]) { m with value := .int i } .normal m₁ →
    Eval env routines c (.assign assignment) m₁ .normal m₂ →
    Eval env routines c (.subargs value len (i + 1) rest) m₂ .normal m₃ →
    Eval env routines c (.subargs value len i (assignment :: rest)) m .normal m₃
  | subargsLast {c : ContextId} {value : Entity} {len i : Nat} {assignment : Assignment}
      {m m₁ m₂ : Memory} :
    ¬ i < len - i →
    Eval env routines c (.operate ⟨.AIDX, .noArg⟩ [value]) { m with value := .int i } .normal m₁ →
    Eval env routines c (.assign assignment) m₁ .normal m₂ →
    Eval env routines c (.subargs value len i [assignment]) m .normal m₂
  -- Statements
  | compound {c : ContextId} {expressions : List ExpressionTree} {m m' : Memory}
      {signal : Signal} :
    Eval env routines c (.statements expressions) m signal m' →
    Eval env routines c (.tree (.compoundStatement expressions)) m signal m'
  | statementsNil {c : ContextId} {m : Memory} : Eval env routines c (.statements []) m .normal m
  | statementsCons {c : ContextId} {tree : ExpressionTree} {rest : List ExpressionTree}
      {m m₁ m' : Memory} {signal : Signal} :
    Eval env routines c (.tree tree) m .normal m₁ →
    Eval env routines c (.statements rest) m₁ signal m' →
    Eval env routines c (.statements (tree :: rest)) m signal m'
  | statementsStop {c : ContextId} {tree : ExpressionTree} {rest : List ExpressionTree}
      {m m' : Memory} {signal : Signal} :
    signal ≠ .normal → Eval env routines c (.tree tree) m signal m' →
    Eval env routines c (.statements (tree :: rest)) m signal m'
  | returnValue {c : ContextId} {returnToken : Token} {exp : ExpressionTree} {m m' : Memory} :
    Eval env routines c (.tree exp) m .normal m' →
    Eval env routines c (.tree (.jumpStatement returnToken (some exp))) m .ret m'
  | returnOnly {c : ContextId} {returnToken : Token} {m : Memory} :
    Eval env routines c (.tree (.jumpStatement returnToken none)) m .ret m
  | jump {c : ContextId} {token : Token} {type : BreakType} {m : Memory} :
    Eval env routines c (.tree (.breakStatement token type)) m (.jump type) m
  | try {c d : ContextId} {tryToken catchToken : Token} {tryBody catchBody : ExpressionTree}
      {errorAssignmentLhs : Assignment} {m m₁ m₂ m₃ : Memory} :
    m.enterBlock c = some (d, m₁) → Eval env routines d (.tree tryBody) m₁ .normal m₂ →
    Eval env routines d (.operate ⟨.SET, .id "$try_goto"⟩ []) { m₂ with value := .none } .normal m₃ →
    Eval env routines c
      (.tree (.tryStatement tryToken catchToken tryBody errorAssignmentLhs catchBody)) m .normal m₃
  | tryReturn {c d : ContextId} {tryToken catchToken : Token}
      {tryBody catchBody : ExpressionTree} {errorAssignmentLhs : Assignment} {m m₁ m₂ : Memory} :
    m.enterBlock c = some (d, m₁) → Eval env routines d (.tree tryBody) m₁ .ret m₂ →
    Eval env routines c
      (.tree (.tryStatement tryToken catchToken tryBody errorAssignmentLhs catchBody)) m .ret m₂
  -- Loops
  | while {c d : ContextId} {whileToken : Token} {condition body : ExpressionTree}
      {m m₁ m₂ : Memory} {signal : Signal} :
    m.enterBlock c = some (d, m₁) →
    Eval env routines d (.test (.while condition body)) m₁ signal m₂ →
    Eval env routines c (.tree (.whileStatement whileToken condition body)) m signal m₂
  | for {c d : ContextId} {forToken : Token} {init condition inc body : ExpressionTree}
      {m m₁ m₂ m₃ : Memory} {signal : Signal} :
    m.enterBlock c = some (d, m₁) → Eval env routines d (.tree init) m₁ .normal m₂ →
    Eval env routines d (.test (.for condition inc body)) m₂ signal m₃ →
    Eval env routines c (.tree (.forStatement forToken init condition inc body)) m signal m₃
  | foreach {c d : ContextId} {forToken inToken : Token} {lhs : Assignment}
      {iterable body : ExpressionTree} {m m₁ m₂ m₃ m₄ : Memory} :
    m.enterBlock c = some (d, m₁) → Eval env routines d (.tree iterable) m₁ .normal m₂ →
    Eval env routines d (.operate ⟨.CALL, .id iterFnName⟩ [m₂.value]) m₂ .normal m₃ →
    Eval env routines d (.test (.foreach m₃.value lhs body)) m₃ .normal m₄ →
    Eval env routines c (.tree (.foreachStatement forToken inToken lhs iterable body)) m .normal
      { m₄ with value := m₃.value }
  | foreachReturn {c d : ContextId} {forToken inToken : Token} {lhs : Assignment}
      {iterable body : ExpressionTree} {m m₁ m₂ m₃ m₄ : Memory} :
    m.enterBlock c = some (d, m₁) → Eval env routines d (.tree iterable) m₁ .normal m₂ →
    Eval env routines d (.operate ⟨.CALL, .id iterFnName⟩ [m₂.value]) m₂ .normal m₃ →
    Eval env routines d (.test (.foreach m₃.value lhs body)) m₃ .ret m₄ →
    Eval env routines c (.tree (.foreachStatement forToken inToken lhs iterable body)) m .ret m₄
  | whileCondition {c : ContextId} {condition body : ExpressionTree} {m m' : Memory} :
    Eval env routines c (.tree condition) m .normal m' →
    Eval env routines c (.condition (.while condition body)) m .normal m'
  | forCondition {c : ContextId} {condition inc body : ExpressionTree} {m m' : Memory} :
    Eval env routines c (.tree condition) m .normal m' →
    Eval env routines c (.condition (.for condition inc body)) m .normal m'
  | foreachCondition {c : ContextId} {iterator : Entity} {lhs : Assignment}
      {body : ExpressionTree} {m m' : Memory} :
    Eval env routines c (.operate ⟨.CALL, .id hasNextFnName⟩ [iterator]) m .normal m' →
    Eval env routines c (.condition (.foreach iterator lhs body)) m .normal m'
  | whileBody {c : ContextId} {condition body : ExpressionTree} {m : Memory} :
    Eval env routines c (.body (.while condition body)) m .normal m
  | forBody {c : ContextId} {condition inc body : ExpressionTree} {m m' : Memory}
      {signal : Signal} :
    Eval env routines c (.tree body) m signal m' →
    Eval env routines c (.body (.for condition inc body)) m signal m'
  | foreachBody {c : ContextId} {iterator : Entity} {lhs : Assignment} {body : ExpressionTree}
      {m m₁ m₂ m' : Memory} {signal : Signal} :
    Eval env routines c (.operate ⟨.CALL, .id nextFnName⟩ [iterator]) m .normal m₁ →
    Eval env routines c (.assign lhs) m₁ .normal m₂ →
    Eval env routines c (.tree body) m₂ signal m' →
    Eval env routines c (.body (.foreach iterator lhs body)) m signal m'
  | whileAgain {c : ContextId} {condition body : ExpressionTree} {m m' : Memory}
      {signal : Signal} :
    Eval env routines c (.tree body) m signal m' →
    Eval env routines c (.again (.while condition body)) m signal m'
  | forAgain {c : ContextId} {condition inc body : ExpressionTree} {m m' : Memory}
      {signal : Signal} :
    Eval env routines c (.tree inc) m signal m' →
    Eval env routines c (.again (.for condition inc body)) m signal m'
  | foreachAgain {c : ContextId} {iterator : Entity} {lhs : Assignment} {body : ExpressionTree}
      {m : Memory} :
    Eval env routines c (.again (.foreach iterator lhs body)) m .normal m
  | exit {c : ContextId} {loop : LoopTree} {m m₁ : Memory} :
    Eval env routines c (.condition loop) m .normal m₁ → m₁.value.isNone = true →
    Eval env routines c (.test loop) m .normal m₁
  | enter {c : ContextId} {loop : LoopTree} {m m₁ m' : Memory} {signal : Signal} :
    Eval env routines c (.condition loop) m .normal m₁ → m₁.value.isNone = false →
    Eval env routines c (.first loop) m₁ signal m' → Eval env routines c (.test loop) m signal m'
  | firstNext {c : ContextId} {loop : LoopTree} {m m₁ m' : Memory} {inner signal : Signal} :
    inner = .normal ∨ inner = .jump .continue → Eval env routines c (.body loop) m inner m₁ →
    Eval env routines c (.second loop) m₁ signal m' → Eval env routines c (.first loop) m signal m'
  | firstBreak {c : ContextId} {loop : LoopTree} {m m' : Memory} :
    Eval env routines c (.body loop) m (.jump .break) m' →
    Eval env routines c (.first loop) m .normal m'
  | firstReturn {c : ContextId} {loop : LoopTree} {m m' : Memory} :
    Eval env routines c (.body loop) m .ret m' → Eval env routines c (.first loop) m .ret m'
  | secondNext {c : ContextId} {loop : LoopTree} {m m₁ m' : Memory} {signal : Signal} :
    Eval env routines c (.again loop) m .normal m₁ →
    Eval env routines c (.test loop) m₁ signal m' → Eval env routines c (.second loop) m signal m'
  | secondAgain {c : ContextId} {loop : LoopTree} {m m₁ m' : Memory} {signal : Signal} :
    Eval env routines c (.again loop) m (.jump .continue) m₁ →
    Eval env routines c (.second loop) m₁ signal m' → Eval env routines c (.second loop) m signal m'
  | secondBreak {c : ContextId} {loop : LoopTree} {m m' : Memory} :
    Eval env routines c (.again loop) m (.jump .break) m' →
    Eval env routines c (.second loop) m .normal m'
  | secondReturn {c : ContextId} {loop : LoopTree} {m m' : Memory} :
    Eval env routines c (.again loop) m .ret m' → Eval env routines c (.second loop) m .ret m'

end JeffVm
