import JeffVm.Instruction

/-!
# Expression trees

The trees the populators build and the producers walk. A list that the populators never
leave empty is a first element and a rest, and a `NULL` child is `none`. The seven levels of
binary operators that share one producer are one constructor.
-/

set_option autoImplicit false

namespace JeffVm

inductive UnaryType where
  | unknown | not | notc | negate | const | await
  deriving DecidableEq, Repr

inductive BiType where
  | unknown
  | mult | div | mod
  | add | sub
  | lt | gt | lte | gte | eq | neq
  | and | or
  | binAnd | binXor | binOr
  deriving DecidableEq, Repr

inductive BiLevel where
  | multiplicative | additive | relational | equality | binaryAnd | binaryXor | binaryOr
  deriving DecidableEq, Repr

inductive BreakType where
  | break | continue
  deriving DecidableEq, Repr

inductive SpecialMethod where
  | NONE | EQUIV | NEQUIV | ARRAY_INDEX | ARRAY_SET
  deriving DecidableEq, Repr

mutual

inductive ExpressionTree where
  | identifier (id : Token)
  | constant (token : Token)
  | stringLiteral (token : Token)
  | tupleExpression (token : Token) (list : List ExpressionTree)
  | arrayDeclaration (token : Token) (exp : Option ExpressionTree)
  | mapDeclaration (lbrce : Token) (entries : List MapDecEntry)
  | primaryExpression (exp : ExpressionTree)
  | primaryExpressionNoConstants (exp : ExpressionTree)
  | postfixExpression (base : ExpressionTree) (suffixes : List Postfix)
  | rangeExpression (token : Token) (start : ExpressionTree) (inc : Option ExpressionTree)
      (stop : ExpressionTree)
  | unaryExpression (token : Token) (type : UnaryType) (exp : ExpressionTree)
  | biExpression (level : BiLevel) (exp : ExpressionTree) (suffixes : List BiSuffix)
  | andExpression (exp : ExpressionTree) (suffixes : List BiSuffix)
  | orExpression (exp : ExpressionTree) (suffixes : List BiSuffix)
  | inExpression (token : Token) (isNot : Bool) (element collection : ExpressionTree)
  | isExpression (token : Token) (exp type : ExpressionTree)
  | conditionalExpression (ifElse : IfElse)
  | anonFunctionDefinition (func : FunctionDef)
  | assignmentExpression (eqToken : Token) (assignment : Assignment) (rhs : ExpressionTree)
  | foreachStatement (forToken inToken : Token) (assignmentLhs : Assignment)
      (iterable body : ExpressionTree)
  | forStatement (forToken : Token) (init condition inc body : ExpressionTree)
  | whileStatement (whileToken : Token) (condition body : ExpressionTree)
  | compoundStatement (expressions : List ExpressionTree)
  | tryStatement (tryToken catchToken : Token) (tryBody : ExpressionTree)
      (errorAssignmentLhs : Assignment) (catchBody : ExpressionTree)
  | raiseStatement (raiseToken : Token) (exp : ExpressionTree)
  | selectionStatement (ifElse : IfElse)
  | jumpStatement (returnToken : Token) (exp : Option ExpressionTree)
  | breakStatement (token : Token) (type : BreakType)
  | exitStatement (token : Token)

inductive Postfix where
  | none (token : Token)
  | field (token id : Token)
  | fncall (token : Token) (exp : Option ExpressionTree)
  | arrayIndex (token : Token) (exp : ExpressionTree)
  | increment (token : Token)
  | decrement (token : Token)

structure BiSuffix where
  token : Token
  type : BiType
  exp : ExpressionTree

structure MapDecEntry where
  colon : Token
  lhs : ExpressionTree
  rhs : ExpressionTree

structure Conditional where
  ifToken : Token
  condition : ExpressionTree
  body : ExpressionTree

structure IfElse where
  first : Conditional
  rest : List Conditional
  elseExp : Option ExpressionTree

structure Argument where
  isConst : Bool
  isField : Bool
  argName : Token
  defaultValue : Option ExpressionTree

structure Arguments where
  token : Token
  first : Argument
  rest : List Argument

structure FunctionDef where
  defToken : Token
  fnName : Option Token
  specialMethod : SpecialMethod
  isAsync : Bool
  args : Option Arguments
  body : ExpressionTree

inductive Assignment where
  | var (isConst : Bool) (var : Token)
  | complex (prefixExp : ExpressionTree) (suffixes : List Postfix)
  | multi (isArray : Bool) (subargs : List Assignment)

end

def biToIns : BiType → Option Op
  | .mult => some .MULT
  | .div => some .DIV
  | .mod => some .MOD
  | .add => some .ADD
  | .sub => some .SUB
  | .lt => some .LT
  | .gt => some .GT
  | .lte => some .LTE
  | .gte => some .GTE
  | .eq => some .EQ
  | .neq => some .NEQ
  | .and => some .AND
  | .or => some .OR
  | .binAnd => some .BAND
  | .binXor => some .BXOR
  | .binOr => some .BOR
  | .unknown => none

end JeffVm
