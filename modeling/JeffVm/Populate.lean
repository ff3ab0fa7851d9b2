import JeffVm.ExpressionTree
import JeffVm.Parser

/-!
# Populators

What `populate_expression` makes of a syntax tree. The populator of a rule calls
`populate_expression` for the trees inside; it is a parameter here, and the fuel bounds how deep
the calls nest. `none` is a failed assertion, a call of `ERROR`, a read of a part that the tree
does not have, or a call that is out of fuel.
-/

set_option autoImplicit false

namespace JeffVm

namespace SyntaxTree

def expression : SyntaxTree → Option Rule
  | epsilon expression => expression
  | leaf _ expression => expression
  | node _ _ expression => expression

def isSyntax (tree : SyntaxTree) (type : Rule) : Bool := tree.expression = some type

def isToken (tree : SyntaxTree) (type : TokenType) : Bool :=
  match tree with
  | leaf token _ => token.type = type
  | _ => false

end SyntaxTree

section

variable (populateExpression : SyntaxTree → Option ExpressionTree)

/-! ## Identifiers, literals and lists -/

def populateIdentifier : SyntaxTree → Option ExpressionTree
  | .leaf token _ => some (.identifier token)
  | _ => none

def populateConstant : SyntaxTree → Option ExpressionTree
  | .leaf token _ => (tokenToPrimitive token).map fun _ => .constant token
  | _ => none

def populateStringLiteral : SyntaxTree → Option ExpressionTree
  | .leaf token _ => some (.stringLiteral token)
  | _ => none

/-- The elements of a tuple behind the first one. -/
def tupleElements : SyntaxTree → Option (List SyntaxTree)
  | .node _ (.node first second name) expression =>
    if expression = some .tupleExpression1 then
      if second.isSyntax .tupleExpression1 then
        (tupleElements second).map fun elements => first :: elements
      else some [.node first second name]
    else none
  | .node _ (.leaf token name) expression =>
    if expression = some .tupleExpression1 then some [.leaf token name] else none
  | _ => none

def populateTupleExpression : SyntaxTree → Option ExpressionTree
  | .node first second _ =>
    match second with
    | .node (.leaf comma _) _ _ => do
      let head ← populateExpression first
      let elements ← tupleElements second
      let list ← elements.mapM populateExpression
      some (.tupleExpression comma (head :: list))
    | _ => none
  | _ => none

def populateArrayDeclaration : SyntaxTree → Option ExpressionTree
  | .node (.leaf token _) (.leaf _ _) _ => some (.arrayDeclaration token none)
  | .node (.leaf token _) (.node exp _ _) _ =>
    (populateExpression exp).map fun exp => .arrayDeclaration token (some exp)
  | _ => none

/-- What is inside the parentheses. -/
def populateParenthesised : SyntaxTree → Option ExpressionTree
  | .node first (.node exp _ _) _ => if first.isToken .LPAREN then populateExpression exp else none
  | _ => none

def populatePrimaryExpression (stree : SyntaxTree) : Option ExpressionTree :=
  (populateParenthesised populateExpression stree).map .primaryExpression

def populatePrimaryExpressionNoConstants (stree : SyntaxTree) : Option ExpressionTree :=
  (populateParenthesised populateExpression stree).map .primaryExpressionNoConstants

def populateMapDecEntry : SyntaxTree → Option MapDecEntry
  | .node lhs (.node (.leaf colon _) rhs _) expression =>
    if expression = some .mapDeclarationEntry then do
      let lhs ← populateExpression lhs
      let rhs ← populateExpression rhs
      some ⟨colon, lhs, rhs⟩
    else none
  | _ => none

/-- The entries of a map behind the first one. A comma stands before the last of them. -/
def populateMapDecEntries : SyntaxTree → Option (List MapDecEntry)
  | .node first second expression =>
    if expression = some .mapDeclarationEntry then
      (populateMapDecEntry populateExpression (.node first second expression)).map fun entry =>
        [entry]
    else if expression = some .mapDeclarationEntry1 then
      if first.isToken .COMMA then populateMapDecEntries second
      else
        match first with
        | .node _ entry _ => do
          let entry ← populateMapDecEntry populateExpression entry
          let entries ← populateMapDecEntries second
          some (entry :: entries)
        | _ => none
    else none
  | _ => none

def populateMapDeclaration : SyntaxTree → Option ExpressionTree
  | .node (.leaf lbrce _) second _ =>
    if lbrce.type = .LBRCE then
      if second.isToken .RBRCE then some (.mapDeclaration lbrce [])
      else
        match second with
        | .node body rbrce _ =>
          if rbrce.isToken .RBRCE then
            if body.isSyntax .mapDeclarationEntry then
              (populateMapDecEntry populateExpression body).map fun entry =>
                .mapDeclaration lbrce [entry]
            else
              match body with
              | .node first rest (some .mapDeclarationList) => do
                let first ← populateMapDecEntry populateExpression first
                let entries ← populateMapDecEntries populateExpression rest
                some (.mapDeclaration lbrce (first :: entries))
              | _ => none
          else none
        | _ => none
    else none
  | _ => none

/-! ## Postfixes, ranges and operators -/

def postfixIncrement (inc : Token) : Postfix :=
  if inc.type = .INCREMENT then .increment inc else .decrement inc

/-- A postfix with an opening token; an index is never empty. -/
def surroundPostfix (opener : Token) (exp : Option ExpressionTree) : Option Postfix :=
  if opener.type = .LPAREN then some (.fncall opener exp)
  else exp.map fun exp => .arrayIndex opener exp

/-- `postfix_surround_helper` on what stands behind the opening token, where `helper` goes on
behind the closing one. -/
def postfixSurroundHelper (helper : SyntaxTree → Option (List Postfix)) (opener : Token)
    (closer : TokenType) : SyntaxTree → Option (List Postfix)
  | .leaf token _ =>
    if token.type = closer then (surroundPostfix opener none).map fun suffix => [suffix]
    else none
  | .node first second _ =>
    if first.isToken closer then do
      let suffix ← surroundPostfix opener none
      let suffixes ← helper second
      some (suffix :: suffixes)
    else do
      let exp ← populateExpression first
      let suffix ← surroundPostfix opener (some exp)
      match second with
      | .leaf token _ => if token.type = closer then some [suffix] else none
      | .node first tail _ =>
        if first.isToken closer then (helper tail).map fun suffixes => suffix :: suffixes
        else none
      | _ => none
  | _ => none

def postfixPeriod (helper : SyntaxTree → Option (List Postfix)) (ext : Token) :
    SyntaxTree → Option (List Postfix)
  | .leaf token name =>
    if name = some .identifier ∨ token.type = .NEW then some [.field ext token] else none
  | .node (.leaf id _) tail _ => (helper tail).map fun suffixes => .field ext id :: suffixes
  | _ => none

def postfixHelper : Nat → SyntaxTree → Option (List Postfix)
  | 0, _ => none
  | n + 1, suffix =>
    match suffix with
    | .leaf token _ =>
      if token.type = .INCREMENT ∨ token.type = .DECREMENT then some [postfixIncrement token]
      else none
    | .node (.leaf ext _) second _ =>
      match ext.type with
      | .PERIOD => postfixPeriod (postfixHelper n) ext second
      | .LPAREN => postfixSurroundHelper populateExpression (postfixHelper n) ext .RPAREN second
      | .LBRAC => postfixSurroundHelper populateExpression (postfixHelper n) ext .RBRAC second
      | .INCREMENT | .DECREMENT =>
        (postfixHelper n second).map fun suffixes => postfixIncrement ext :: suffixes
      | _ => none
    | _ => none

def populatePostfixExpression (n : Nat) : SyntaxTree → Option ExpressionTree
  | .node first second _ => do
    let base ← populateExpression first
    let suffixes ← postfixHelper populateExpression n second
    some (.postfixExpression base suffixes)
  | _ => none

def populateRangeExpression : SyntaxTree → Option ExpressionTree
  | .node first (.node (.leaf colon _) afterFirstColon _) _ =>
    if colon.type = .COLON then do
      let start ← populateExpression first
      match afterFirstColon with
      | .node inc (.node second stop _) _ =>
        if second.isToken .COLON then do
          let inc ← populateExpression inc
          let stop ← populateExpression stop
          some (.rangeExpression colon start (some inc) stop)
        else (populateExpression afterFirstColon).map (.rangeExpression colon start none)
      | _ => (populateExpression afterFirstColon).map (.rangeExpression colon start none)
    else none
  | _ => none

def unaryTokenToType (token : Token) : Option UnaryType :=
  match token.type with
  | .TILDE => some .not
  | .EXCLAIM => some .notc
  | .MINUS => some .negate
  | .CONST_T => some .const
  | .AWAIT => some .await
  | _ => none

def populateUnaryExpression : SyntaxTree → Option ExpressionTree
  | .node (.leaf token _) second _ => do
    let type ← unaryTokenToType token
    let exp ← populateExpression second
    some (.unaryExpression token type exp)
  | _ => none

def relationalTypeForToken (token : Token) : Option BiType :=
  match token.type with
  | .STAR => some .mult
  | .FSLASH => some .div
  | .PERCENT => some .mod
  | .PLUS => some .add
  | .MINUS => some .sub
  | .LTHAN => some .lt
  | .GTHAN => some .gt
  | .LTHANEQ => some .lte
  | .GTHANEQ => some .gte
  | .EQUIV => some .eq
  | .NEQUIV => some .neq
  | .AND_T => some .and
  | .OR_T => some .or
  | .AMPER => some .binAnd
  | .CARET => some .binXor
  | .PIPE => some .binOr
  | _ => none

/-- The loop of `BiExpressionPopulate` for the rule `expr`, from the suffix `curSuffix` on. -/
def biSuffixes (expr : Option Rule) (expr1 : Rule) : SyntaxTree → Option (List BiSuffix)
  | .node (.leaf token _) (.node first second name) expression =>
    if expression = some expr1 then do
      let type ← relationalTypeForToken token
      if name = expr then do
        let exp ← populateExpression first
        let suffixes ← biSuffixes expr expr1 second
        some (⟨token, type, exp⟩ :: suffixes)
      else do
        let exp ← populateExpression (.node first second name)
        some [⟨token, type, exp⟩]
    else none
  | .node (.leaf token _) (.leaf operand name) expression =>
    if expression = some expr1 ∧ name ≠ expr then do
      let type ← relationalTypeForToken token
      let exp ← populateExpression (.leaf operand name)
      some [⟨token, type, exp⟩]
    else none
  | _ => none

/-- `BiExpressionPopulate` -/
def biExpressionPopulate (expr1 : Rule) (build : ExpressionTree → List BiSuffix → ExpressionTree) :
    SyntaxTree → Option ExpressionTree
  | .node first second expression => do
    let exp ← populateExpression first
    let suffixes ← biSuffixes populateExpression expression expr1 second
    some (build exp suffixes)
  | _ => none

def populateMultiplicativeExpression : SyntaxTree → Option ExpressionTree :=
  biExpressionPopulate populateExpression .multiplicativeExpression1 (.biExpression .multiplicative)

def populateAdditiveExpression : SyntaxTree → Option ExpressionTree :=
  biExpressionPopulate populateExpression .additiveExpression1 (.biExpression .additive)

def populateRelationalExpression : SyntaxTree → Option ExpressionTree :=
  biExpressionPopulate populateExpression .relationalExpression1 (.biExpression .relational)

def populateEqualityExpression : SyntaxTree → Option ExpressionTree :=
  biExpressionPopulate populateExpression .equalityExpression1 (.biExpression .equality)

def populateAndExpression : SyntaxTree → Option ExpressionTree :=
  biExpressionPopulate populateExpression .andExpression1 .andExpression

def populateOrExpression : SyntaxTree → Option ExpressionTree :=
  biExpressionPopulate populateExpression .orExpression1 .orExpression

def populateBinaryAndExpression : SyntaxTree → Option ExpressionTree :=
  biExpressionPopulate populateExpression .binaryAndExpression1 (.biExpression .binaryAnd)

def populateBinaryXorExpression : SyntaxTree → Option ExpressionTree :=
  biExpressionPopulate populateExpression .binaryXorExpression1 (.biExpression .binaryXor)

def populateBinaryOrExpression : SyntaxTree → Option ExpressionTree :=
  biExpressionPopulate populateExpression .binaryOrExpression1 (.biExpression .binaryOr)

def populateInExpression : SyntaxTree → Option ExpressionTree
  | .node element (.node (.leaf token _) collection _) _ => do
    let element ← populateExpression element
    let collection ← populateExpression collection
    some (.inExpression token (token.type = .NOTIN) element collection)
  | _ => none

def populateIsExpression : SyntaxTree → Option ExpressionTree
  | .node exp (.node (.leaf token _) type _) _ => do
    let exp ← populateExpression exp
    let type ← populateExpression type
    some (.isExpression token exp type)
  | _ => none

/-! ## Conditions -/

/-- The body of a condition and what stands behind its `else`. -/
def splitElse : SyntaxTree → SyntaxTree × Option SyntaxTree
  | .node body (.node (.leaf token name) elseBody name') expression =>
    if token.type = .ELSE then (body, some elseBody)
    else (.node body (.node (.leaf token name) elseBody name') expression, none)
  | ifBody => (ifBody, none)

/-- The loop of `populate_if_else`; `name` is the rule of the whole tree. -/
def populateConditionals (name : Option Rule) :
    Nat → SyntaxTree → Option (Conditional × List Conditional × Option ExpressionTree)
  | 0, _ => none
  | n + 1, .node (.leaf ifToken _) (.node condition (.node first second expression) _) _ => do
    let ifBody := if first.isToken .THEN then second else .node first second expression
    let condition ← populateExpression condition
    let body ← populateExpression (splitElse ifBody).1
    match (splitElse ifBody).2 with
    | none => some (⟨ifToken, condition, body⟩, [], none)
    | some elseBody =>
      if elseBody.expression = name then do
        let (next, rest, elseExp) ← populateConditionals name n elseBody
        some (⟨ifToken, condition, body⟩, next :: rest, elseExp)
      else do
        let elseExp ← populateExpression elseBody
        some (⟨ifToken, condition, body⟩, [], some elseExp)
  | _, _ => none

def populateIfElse (n : Nat) (stree : SyntaxTree) : Option IfElse :=
  match stree with
  | .node first _ expression =>
    if first.isToken .IF_T then
      (populateConditionals populateExpression expression n stree).map fun (first, rest, elseExp) =>
        ⟨first, rest, elseExp⟩
    else none
  | _ => none

def populateConditionalExpression (n : Nat) (stree : SyntaxTree) : Option ExpressionTree :=
  (populateIfElse populateExpression n stree).map .conditionalExpression

/-! ## Assignments -/

/-- `populate_single_postfixes` -/
def populateSinglePostfixes : SyntaxTree → Option Postfix
  | .node (.leaf token _) second expression =>
    if expression = some .arrayIndexAssignment then
      match second with
      | .node exp _ _ => (populateExpression exp).map (.arrayIndex token)
      | _ => none
    else if expression = some .functionCallArgs then
      if second.isToken .RPAREN then some (.fncall token none)
      else
        match second with
        | .node exp _ _ => (populateExpression exp).map fun exp => .fncall token (some exp)
        | _ => none
    else if expression = some .fieldSetValue then
      match second with
      | .leaf id _ => some (.field token id)
      | _ => none
    else none
  | _ => none

/-- The loop of `populate_single_complex`. -/
def singleSuffixes : SyntaxTree → Option (List Postfix)
  | .node first second expression =>
    if expression = some .fieldExpression1 ∨ expression = some .fieldNext then do
      let suffix ← populateSinglePostfixes populateExpression first
      let suffixes ← singleSuffixes second
      some (suffix :: suffixes)
    else
      (populateSinglePostfixes populateExpression (.node first second expression)).map fun suffix =>
        [suffix]
  | _ => none

def populateSingle : SyntaxTree → Option Assignment
  | .leaf token expression =>
    if expression = some .identifier then some (.var false token) else none
  | .node first second expression =>
    if expression = some .constAssignmentExpression then
      match second with
      | .leaf token _ => some (.var true token)
      | _ => none
    else if expression = some .fieldExpression then do
      let prefixExp ← populateExpression first
      let suffixes ← singleSuffixes populateExpression second
      some (.complex prefixExp suffixes)
    else none
  | _ => none

def isAssignmentSingle (stree : SyntaxTree) : Bool :=
  stree.isSyntax .identifier || stree.isSyntax .constAssignmentExpression ||
    stree.isSyntax .fieldExpression

/-- The elements of an assignment list behind the first one. -/
def assignmentElements : SyntaxTree → Option (List SyntaxTree)
  | .node first second _ =>
    if first.isToken .COMMA then some [second]
    else
      match first with
      | .node _ element _ => (assignmentElements second).map fun elements => element :: elements
      | _ => none
  | _ => none

/-- `populate_list`, as far as the trees of the elements. -/
def listElements (opener closer : TokenType) : SyntaxTree → Option (List SyntaxTree)
  | .node first (.node list second _) _ =>
    if first.isToken opener && second.isToken closer then
      match list with
      | .node head rest name =>
        if rest.isSyntax .assignmentTupleList1 then
          (assignmentElements rest).map fun elements => head :: elements
        else some [.node head rest name]
      | list => some [list]
    else none
  | _ => none

def populateAssignment : Nat → SyntaxTree → Option Assignment
  | 0, _ => none
  | n + 1, stree =>
    if isAssignmentSingle stree then populateSingle populateExpression stree
    else if stree.isSyntax .assignmentTuple then do
      let elements ← listElements .LPAREN .RPAREN stree
      let subargs ← elements.mapM (populateAssignment n)
      some (.multi false subargs)
    else if stree.isSyntax .assignmentArray then do
      let elements ← listElements .LBRAC .RBRAC stree
      let subargs ← elements.mapM (populateAssignment n)
      some (.multi true subargs)
    else none

def populateAssignmentExpression (n : Nat) : SyntaxTree → Option ExpressionTree
  | .node first (.node (.leaf eqToken _) second _) _ =>
    if eqToken.type = .EQUALS then do
      let rhs ← populateExpression second
      let assignment ← populateAssignment populateExpression n first
      some (.assignmentExpression eqToken assignment rhs)
    else none
  | _ => none

/-! ## Functions without a name -/

/-- The argument without its `const`. -/
def populateArgumentElt (isConst : Bool) : SyntaxTree → Option Argument
  | .leaf token expression =>
    if expression = some .identifier then some ⟨isConst, false, token, none⟩ else none
  | .node (.leaf token name) (.node _ value _) expression =>
    if expression = some .functionArgEltWithDefault ∧ name = some .identifier then
      (populateExpression value).map fun value => ⟨isConst, false, token, some value⟩
    else none
  | _ => none

def populateArgument : SyntaxTree → Option Argument
  | .node first second expression =>
    if expression = some .constFunctionArgument then populateArgumentElt populateExpression true second
    else populateArgumentElt populateExpression false (.node first second expression)
  | stree => populateArgumentElt populateExpression false stree

/-- The arguments behind the first one. -/
def restArguments : SyntaxTree → Option (List Argument)
  | .node first second _ =>
    if first.isToken .COMMA then
      (populateArgument populateExpression second).map fun arg => [arg]
    else
      match first with
      | .node _ arg _ => do
        let arg ← populateArgument populateExpression arg
        let rest ← restArguments second
        some (arg :: rest)
      | _ => none
  | _ => none

def setFunctionArgs (stree : SyntaxTree) (token : Token) : Option Arguments :=
  match stree with
  | .node first second (some .functionArgumentList) => do
    let arg ← populateArgument populateExpression first
    let rest ← restArguments populateExpression second
    some ⟨token, arg, rest⟩
  | stree => (populateArgument populateExpression stree).map fun arg => ⟨token, arg, []⟩

/-- Whether the qualifier is `async`; otherwise it is `const`. -/
def populateFunctionQualifier : SyntaxTree → Option Bool
  | .leaf token expression =>
    if expression = some .functionQualifier then
      if token.type = .CONST_T then some false
      else if token.type = .ASYNC then some true
      else none
    else none
  | _ => none

/-- Whether there is an `async` among at most two qualifiers. -/
def populateFunctionQualifiers : SyntaxTree → Option Bool
  | .node first second expression =>
    if expression = some .functionQualifierList then do
      let isAsync ← populateFunctionQualifier first
      let isAsync' ← populateFunctionQualifier second
      some (isAsync || isAsync')
    else none
  | stree => populateFunctionQualifier stree

/-- The arguments between the parentheses of a signature, if there are any. -/
def populateSignatureArgs : SyntaxTree → Option (Token × Option Arguments)
  | .node (.leaf token _) second expression =>
    if expression = some .functionArgumentsNoArgs then some (token, none)
    else if expression = some .functionArgumentsPresent then
      match second with
      | .node args _ _ =>
        (setFunctionArgs populateExpression args token).map fun args => (token, some args)
      | _ => none
    else none
  | _ => none

/-- The first token of a signature, its arguments, and whether it is asynchronous. -/
def populateAnonSignature : SyntaxTree → Option (Token × Option Arguments × Bool)
  | .node first second expression =>
    if expression = some .anonSignatureWithQualifier then do
      let isAsync ← populateFunctionQualifiers second
      let (defToken, args) ← populateSignatureArgs populateExpression first
      some (defToken, args, isAsync)
    else
      (populateSignatureArgs populateExpression (.node first second expression)).map
        fun (defToken, args) => (defToken, args, false)
  | .leaf token expression =>
    if expression = some .identifier then
      (setFunctionArgs populateExpression (.leaf token expression) token).map fun args =>
        (token, some args, false)
    else none
  | _ => none

/-- The body of a function behind its signature. -/
def anonBody : SyntaxTree → SyntaxTree
  | .node first second expression =>
    if expression = some .anonFunctionLambdaRhs then second else .node first second expression
  | stree => stree

def populateAnonFunction : SyntaxTree → Option FunctionDef
  | .node first second expression =>
    if expression = some .anonFunctionDefinition then do
      let (defToken, args, isAsync) ← populateAnonSignature populateExpression first
      let body ← populateExpression (anonBody second)
      some ⟨defToken, none, .NONE, isAsync, args, body⟩
    else none
  | _ => none

def populateAnonFunctionDefinition (stree : SyntaxTree) : Option ExpressionTree :=
  (populateAnonFunction populateExpression stree).map .anonFunctionDefinition

/-! ## Statements -/

/-- What stands between the parentheses around the head of a loop, if there are any. -/
def forInner : SyntaxTree → Option SyntaxTree
  | .node first second expression =>
    if first.isToken .LPAREN then
      match second with
      | .node inner _ _ => some inner
      | _ => none
    else some (.node first second expression)
  | _ => none

def populateForeachStatement (n : Nat) : SyntaxTree → Option ExpressionTree
  | .node (.node (.leaf forToken _) head _) body _ =>
    if forToken.type = .FOR then do
      match ← forInner head with
      | .node lhs (.node (.leaf inToken _) iterable _) _ =>
        if inToken.type = .IN then do
          let assignmentLhs ← populateAssignment populateExpression n lhs
          let iterable ← populateExpression iterable
          let body ← populateExpression body
          some (.foreachStatement forToken inToken assignmentLhs iterable body)
        else none
      | _ => none
    else none
  | _ => none

def populateForStatement : SyntaxTree → Option ExpressionTree
  | .node (.node (.leaf forToken _) head _) body _ =>
    if forToken.type = .FOR then do
      match ← forInner head with
      | .node init (.node comma (.node condition (.node _ inc _) _) _) _ =>
        if comma.isToken .COMMA then do
          let init ← populateExpression init
          let condition ← populateExpression condition
          let inc ← populateExpression inc
          let body ← populateExpression body
          some (.forStatement forToken init condition inc body)
        else none
      | _ => none
    else none
  | _ => none

def populateWhileStatement : SyntaxTree → Option ExpressionTree
  | .node (.node (.leaf whileToken _) condition _) body _ =>
    if whileToken.type = .WHILE then do
      let condition ← populateExpression condition
      let body ← populateExpression body
      some (.whileStatement whileToken condition body)
    else none
  | _ => none

/-- The trees of the statements of a list behind the first one. -/
def statementElements : SyntaxTree → List SyntaxTree
  | .node first second expression =>
    if expression = some .statementList1 then first :: statementElements second
    else [.node first second expression]
  | cur => [cur]

def populateCompoundStatement : SyntaxTree → Option ExpressionTree
  | .node lbrce second _ =>
    if lbrce.isToken .LBRCE then
      if second.isToken .RBRCE then some (.compoundStatement [])
      else
        match second with
        | .node list rbrce _ =>
          if rbrce.isToken .RBRCE then
            match list with
            | .node first rest (some .statementList) =>
              ((first :: statementElements rest).mapM populateExpression).map .compoundStatement
            | list => (populateExpression list).map fun elt => .compoundStatement [elt]
          else none
        | _ => none
    else none
  | _ => none

/-- The parentheses around what catches an error are left out. -/
def catchAssignExp : SyntaxTree → Option SyntaxTree
  | .node first second expression =>
    if expression = some .catchAssign then
      match second with
      | .node lhs _ _ => some lhs
      | _ => none
    else some (.node first second expression)
  | stree => some stree

def populateTryStatement (n : Nat) : SyntaxTree → Option ExpressionTree
  | .node (.node (.leaf tryToken _) (.node tryBody (.node (.leaf catchToken _) assign _) _) _)
      catchBody _ =>
    if tryToken.type = .TRY ∧ catchToken.type = .CATCH then do
      let tryBody ← populateExpression tryBody
      let lhs ← catchAssignExp assign
      let errorAssignmentLhs ← populateAssignment populateExpression n lhs
      let catchBody ← populateExpression catchBody
      some (.tryStatement tryToken catchToken tryBody errorAssignmentLhs catchBody)
    else none
  | _ => none

def populateRaiseStatement : SyntaxTree → Option ExpressionTree
  | .node (.leaf raiseToken _) exp _ =>
    if raiseToken.type = .RAISE then (populateExpression exp).map (.raiseStatement raiseToken)
    else none
  | _ => none

def populateSelectionStatement (n : Nat) (stree : SyntaxTree) : Option ExpressionTree :=
  (populateIfElse populateExpression n stree).map .selectionStatement

/-- The tree of the expression that is returned: parentheses that do not belong to it are left
out. -/
def returnedTree : SyntaxTree → Option SyntaxTree
  | .node first second expression =>
    if first.isToken .LPAREN && expression ≠ some .primaryExpression then
      match second with
      | .node exp _ _ => some exp
      | _ => none
    else some (.node first second expression)
  | stree => some stree

def populateJumpStatement : SyntaxTree → Option ExpressionTree
  | .leaf token _ => if token.type = .RETURN then some (.jumpStatement token none) else none
  | .node (.leaf token _) second _ =>
    if token.type = .RETURN then do
      let exp ← returnedTree second
      (populateExpression exp).map fun exp => .jumpStatement token (some exp)
    else none
  | _ => none

def populateBreakStatement : SyntaxTree → Option ExpressionTree
  | .leaf token _ =>
    if token.type = .BREAK then some (.breakStatement token .break)
    else if token.type = .CONTINUE then some (.breakStatement token .continue)
    else none
  | _ => none

def populateExitStatement : SyntaxTree → Option ExpressionTree
  | .leaf token _ => if token.type = .EXIT_T then some (.exitStatement token) else none
  | _ => none

end

def populateExpression : Nat → SyntaxTree → Option ExpressionTree
  | 0, _ => none
  | n + 1, stree =>
    match stree.expression with
    | none => none
    | some rule =>
      match rule with
      | .identifier => populateIdentifier stree
      | .constant => populateConstant stree
      | .stringLiteral => populateStringLiteral stree
      | .tupleExpression => populateTupleExpression (populateExpression n) stree
      | .arrayDeclaration => populateArrayDeclaration (populateExpression n) stree
      | .mapDeclaration => populateMapDeclaration (populateExpression n) stree
      | .primaryExpression => populatePrimaryExpression (populateExpression n) stree
      | .primaryExpressionNoConstants =>
        populatePrimaryExpressionNoConstants (populateExpression n) stree
      | .postfixExpression => populatePostfixExpression (populateExpression n) n stree
      | .rangeExpression => populateRangeExpression (populateExpression n) stree
      | .unaryExpression => populateUnaryExpression (populateExpression n) stree
      | .binaryAndExpression => populateBinaryAndExpression (populateExpression n) stree
      | .binaryXorExpression => populateBinaryXorExpression (populateExpression n) stree
      | .binaryOrExpression => populateBinaryOrExpression (populateExpression n) stree
      | .multiplicativeExpression => populateMultiplicativeExpression (populateExpression n) stree
      | .additiveExpression => populateAdditiveExpression (populateExpression n) stree
      | .relationalExpression => populateRelationalExpression (populateExpression n) stree
      | .equalityExpression => populateEqualityExpression (populateExpression n) stree
      | .andExpression => populateAndExpression (populateExpression n) stree
      | .orExpression => populateOrExpression (populateExpression n) stree
      | .inExpression => populateInExpression (populateExpression n) stree
      | .isExpression => populateIsExpression (populateExpression n) stree
      | .conditionalExpression => populateConditionalExpression (populateExpression n) n stree
      | .anonFunctionDefinition => populateAnonFunctionDefinition (populateExpression n) stree
      | .assignmentExpression => populateAssignmentExpression (populateExpression n) n stree
      | .foreachStatement => populateForeachStatement (populateExpression n) n stree
      | .forStatement => populateForStatement (populateExpression n) stree
      | .whileStatement => populateWhileStatement (populateExpression n) stree
      | .compoundStatement => populateCompoundStatement (populateExpression n) stree
      | .tryStatement => populateTryStatement (populateExpression n) n stree
      | .raiseStatement => populateRaiseStatement (populateExpression n) stree
      | .selectionStatement => populateSelectionStatement (populateExpression n) n stree
      | .jumpStatement => populateJumpStatement (populateExpression n) stree
      | .breakStatement => populateBreakStatement stree
      | .exitStatement => populateExitStatement stree
      | _ => none

end JeffVm
