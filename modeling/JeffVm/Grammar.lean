import JeffVm.Instruction
import JeffVm.Lib.Backtracking

/-!
# The grammar

The rules of the parser over the token types, each with the parsing expression that the
source gives it.
-/

set_option autoImplicit false

namespace JeffVm

open Backtracking

def ln {ρ : Type} (exp : Exp TokenType ρ) : Exp TokenType ρ := .and [exp, .opt (.type .ENDLINE)]

def typeLn {ρ : Type} (tokType : TokenType) : Exp TokenType ρ := ln (.type tokType)

inductive Rule where
  | identifier | newExpression | constant | stringLiteral | arrayDeclaration | mapDeclarationEntry
  | mapDeclarationEntry1 | mapDeclarationList | mapDeclaration | lengthExpression
  | primaryExpression | primaryExpressionNoConstants | postfixExpression1 | postfixExpression
  | rangeExpression | unaryExpression | binaryAndExpression1 | binaryAndExpression
  | binaryXorExpression1 | binaryXorExpression | binaryOrExpression1 | binaryOrExpression
  | multiplicativeExpression1 | multiplicativeExpression | additiveExpression1 | additiveExpression
  | inExpression1 | inExpression | relationalExpression1 | relationalExpression
  | equalityExpression1 | equalityExpression | andExpression1 | andExpression | orExpression1
  | orExpression | isExpression | conditionalExpression | constAssignmentExpression
  | arrayIndexAssignment | functionCallArgs | fieldExtension | fieldSetValue | fieldSuffix
  | fieldNext | fieldExpression1 | fieldExpression | assignmentLhsSingle | assignmentTupleList1
  | assignmentTupleList | assignmentTuple | assignmentArray | assignmentLhs | assignmentExpression
  | tupleExpression1 | tupleExpression | expressionStatement | foreachStatement | forStatement
  | whileStatement | iterationStatement | compoundStatement | selectionStatement | exitStatement
  | raiseStatement | catchAssign | tryStatement | jumpStatement | breakStatement
  | defaultValueExpression | constExpression | functionArgDefaultValue | functionArgEltWithDefault
  | functionArgElt | constFunctionArgument | functionArgument | functionArgumentList1
  | functionArgumentList | functionArgumentsPresent | functionArgumentsNoArgs | functionArguments
  | defIdentifier | functionSignatureNoQualifier | functionQualifier | functionQualifierList1
  | functionQualifierList | functionSignatureWithQualifier | functionSignature | functionDefinition
  | methodIdentifier | methodSignatureNoQualifier | methodSignatureWithQualifier | methodSignature
  | methodDefinition | newArgVar | newFieldArg | newArgDefaultValue | newArgEltWithDefault
  | newArgElt | constNewArgument | newArgument | newArgumentList1 | newArgumentList
  | newArgumentsPresent | newArgumentsNoArgs | newArguments | newIdentifier | newSignatureNonconst
  | newSignatureConst | newSignature | newDefinition | anonSignatureNoQualifier
  | anonSignatureWithQualifier | anonSignature | anonFunctionLambdaLhs | anonFunctionLambdaRhs
  | anonFunctionDefinition | identifierList1 | identifierList | fieldStatement | classStatement
  | classStatementList1 | classStatementList | parentClassList1 | parentClassList | parentClasses
  | classCompoundStatement | classNameAndInheritance | classDefinitionNoAnnotationSyntax
  | annotationNotCalled | annotationNoArguments | annotationWithArguments | annotationSyntax
  | classDefinitionWithAnnotationSyntax | classDefinition | importStatement | moduleStatement
  | statement | fileLevelStatement | fileLevelStatementList1 | fileLevelStatementList | statementList1
  | statementList
  deriving DecidableEq, Repr

def Rule.body : Rule → Exp TokenType Rule
  | .identifier => .or [.type .WORD, .type .CLASS, .type .MODULE_T, .type .ASYNC, .type .THEN]
  | .newExpression => .type .NEW
  | .constant => .or [.type .INTEGER, .type .FLOATING]
  | .stringLiteral => .type .STR
  | .arrayDeclaration =>
    .or [.and [.type .LBRAC, .type .RBRAC],
         .and [.type .LBRAC, .rule .tupleExpression, .type .RBRAC]]
  | .mapDeclarationEntry =>
    .and [.rule .postfixExpression, typeLn .COLON, ln (.rule .postfixExpression)]
  | .mapDeclarationEntry1 =>
    .or [.and [.and [typeLn .COMMA, ln (.rule .mapDeclarationEntry)], .rule .mapDeclarationEntry1],
         .epsilon]
  | .mapDeclarationList => .and [.rule .mapDeclarationEntry, .rule .mapDeclarationEntry1]
  | .mapDeclaration =>
    .or [.and [typeLn .LBRCE, typeLn .RBRCE],
         .and [typeLn .LBRCE, ln (.rule .mapDeclarationList), typeLn .RBRCE]]
  | .lengthExpression => .and [.type .PIPE, .rule .tupleExpression, .type .PIPE]
  | .primaryExpression =>
    .or [.rule .anonFunctionDefinition,
         .rule .identifier,
         .rule .newExpression,
         .rule .constant,
         .rule .stringLiteral,
         .rule .arrayDeclaration,
         .rule .mapDeclaration,
         .rule .lengthExpression,
         .and [.type .LPAREN, .rule .tupleExpression, .type .RPAREN]]
  | .primaryExpressionNoConstants =>
    .or [.rule .anonFunctionDefinition,
         .rule .identifier,
         .rule .stringLiteral,
         .rule .arrayDeclaration,
         .rule .mapDeclaration,
         .and [.type .LPAREN, .rule .tupleExpression, .type .RPAREN]]
  | .postfixExpression1 =>
    .or [.and [.type .LBRAC, .rule .tupleExpression, .type .RBRAC, .rule .postfixExpression1],
         .and [typeLn .LPAREN, typeLn .RPAREN, .rule .postfixExpression1],
         .and [typeLn .LPAREN, .rule .tupleExpression, typeLn .RPAREN, .rule .postfixExpression1],
         .and [.opt (.type .ENDLINE),
               .type .PERIOD,
               .or [.rule .identifier, .rule .newExpression],
               .rule .postfixExpression1],
         .epsilon]
  | .postfixExpression =>
    .or [.and [.rule .primaryExpressionNoConstants, .rule .postfixExpression1],
         .rule .primaryExpression]
  | .rangeExpression =>
    .and [.rule .postfixExpression,
          .opt (.and [.type .COLON,
                      .rule .postfixExpression,
                      .opt (.and [.type .COLON, .rule .postfixExpression])])]
  | .unaryExpression =>
    .or [.and [.type .TILDE, .rule .unaryExpression],
         .and [.type .EXCLAIM, .rule .unaryExpression],
         .and [.type .MINUS, .rule .unaryExpression],
         .and [.type .CONST_T, .rule .unaryExpression],
         .and [.type .AWAIT, .rule .unaryExpression],
         .rule .rangeExpression]
  | .binaryAndExpression1 => .or [.and [.type .AMPER, .rule .binaryAndExpression], .epsilon]
  | .binaryAndExpression => .and [.rule .unaryExpression, .rule .binaryAndExpression1]
  | .binaryXorExpression1 => .or [.and [.type .CARET, .rule .binaryXorExpression], .epsilon]
  | .binaryXorExpression => .and [.rule .binaryAndExpression, .rule .binaryXorExpression1]
  | .binaryOrExpression1 => .or [.and [.type .PIPE, .rule .binaryOrExpression], .epsilon]
  | .binaryOrExpression => .and [.rule .binaryXorExpression, .rule .binaryOrExpression1]
  | .multiplicativeExpression1 =>
    .or [.and [.type .STAR, .rule .multiplicativeExpression],
         .and [.type .FSLASH, .rule .multiplicativeExpression],
         .and [.type .PERCENT, .rule .multiplicativeExpression],
         .epsilon]
  | .multiplicativeExpression => .and [.rule .binaryOrExpression, .rule .multiplicativeExpression1]
  | .additiveExpression1 =>
    .or [.and [.type .PLUS, .rule .additiveExpression],
         .and [.type .MINUS, .rule .additiveExpression],
         .epsilon]
  | .additiveExpression => .and [.rule .multiplicativeExpression, .rule .additiveExpression1]
  | .inExpression1 =>
    .or [.and [.or [.type .IN, .type .NOTIN], .rule .additiveExpression, .rule .inExpression1],
         .epsilon]
  | .inExpression => .and [.rule .additiveExpression, .rule .inExpression1]
  | .relationalExpression1 =>
    .or [.and [.type .LTHAN, .rule .relationalExpression],
         .and [.type .GTHAN, .rule .relationalExpression],
         .and [.type .LTHANEQ, .rule .relationalExpression],
         .and [.type .GTHANEQ, .rule .relationalExpression],
         .epsilon]
  | .relationalExpression => .and [.rule .inExpression, .rule .relationalExpression1]
  | .equalityExpression1 =>
    .or [.and [.type .EQUIV, .rule .equalityExpression],
         .and [.type .NEQUIV, .rule .equalityExpression],
         .epsilon]
  | .equalityExpression => .and [.rule .relationalExpression, .rule .equalityExpression1]
  | .andExpression1 => .or [.and [.type .AND_T, .rule .andExpression], .epsilon]
  | .andExpression => .and [.rule .equalityExpression, .rule .andExpression1]
  | .orExpression1 => .or [.and [.type .OR_T, .rule .orExpression], .epsilon]
  | .orExpression => .and [.rule .andExpression, .rule .orExpression1]
  | .isExpression =>
    .or [.and [.rule .orExpression, typeLn .IS_T, .rule .orExpression], .rule .orExpression]
  | .conditionalExpression =>
    .or [.and [typeLn .IF_T,
               ln (.rule .isExpression),
               .opt (typeLn .THEN),
               ln (.rule .conditionalExpression),
               typeLn .ELSE,
               .rule .conditionalExpression],
         .and [typeLn .IF_T,
               ln (.rule .isExpression),
               .opt (typeLn .THEN),
               .rule .conditionalExpression],
         .rule .isExpression]
  | .constAssignmentExpression => .and [typeLn .CONST_T, .rule .identifier]
  | .arrayIndexAssignment => .and [typeLn .LBRAC, .rule .tupleExpression, typeLn .RBRAC]
  | .functionCallArgs =>
    .or [.and [typeLn .LPAREN, typeLn .RPAREN],
         .and [typeLn .LPAREN, .rule .tupleExpression, typeLn .RPAREN]]
  | .fieldExtension => .or [.rule .arrayIndexAssignment, .rule .functionCallArgs, .epsilon]
  | .fieldSetValue => .and [.type .PERIOD, .rule .identifier]
  | .fieldSuffix => .or [.rule .fieldSetValue, .rule .arrayIndexAssignment]
  | .fieldNext => .and [.rule .fieldSuffix, .rule .fieldExpression1]
  | .fieldExpression1 =>
    .or [.and [.rule .fieldExtension, .rule .fieldNext], .rule .fieldNext, .epsilon]
  | .fieldExpression => .and [.rule .identifier, .rule .fieldExpression1]
  | .assignmentLhsSingle => .or [.rule .constAssignmentExpression, .rule .fieldExpression]
  | .assignmentTupleList1 =>
    .or [.and [.and [typeLn .COMMA, .rule .assignmentLhs], .rule .assignmentTupleList1], .epsilon]
  | .assignmentTupleList => .and [.rule .assignmentLhs, .rule .assignmentTupleList1]
  | .assignmentTuple => .and [typeLn .LPAREN, .rule .assignmentTupleList, typeLn .RPAREN]
  | .assignmentArray => .and [typeLn .LBRAC, .rule .assignmentTupleList, typeLn .RBRAC]
  | .assignmentLhs =>
    .or [.rule .assignmentTuple, .rule .assignmentArray, .rule .assignmentLhsSingle]
  | .assignmentExpression =>
    .or [.and [.rule .assignmentLhs, typeLn .EQUALS, .rule .conditionalExpression],
         .rule .conditionalExpression]
  | .tupleExpression1 =>
    .or [.and [typeLn .COMMA, .rule .assignmentExpression, .rule .tupleExpression1], .epsilon]
  | .tupleExpression => .and [.rule .assignmentExpression, .rule .tupleExpression1]
  | .expressionStatement => ln (.rule .tupleExpression)
  | .foreachStatement =>
    .and [.and [typeLn .FOR,
                .or [.and [typeLn .LPAREN,
                           .and [.rule .assignmentLhs, typeLn .IN, .rule .conditionalExpression],
                           typeLn .RPAREN],
                     .and [.rule .assignmentLhs, typeLn .IN, .rule .conditionalExpression]]],
          .rule .statement]
  | .forStatement =>
    .and [.and [typeLn .FOR,
                .or [.and [typeLn .LPAREN,
                           .and [.rule .assignmentExpression,
                                 typeLn .COMMA,
                                 .rule .conditionalExpression,
                                 typeLn .COMMA,
                                 ln (.rule .assignmentExpression)],
                           typeLn .RPAREN],
                     .and [.rule .assignmentExpression,
                           typeLn .COMMA,
                           .rule .conditionalExpression,
                           typeLn .COMMA,
                           ln (.rule .assignmentExpression)]]],
          .rule .statement]
  | .whileStatement =>
    .and [.and [typeLn .WHILE, ln (.rule .conditionalExpression)], .rule .statement]
  | .iterationStatement => .or [.rule .whileStatement, .rule .foreachStatement, .rule .forStatement]
  | .compoundStatement =>
    .or [.and [typeLn .LBRCE, typeLn .RBRCE],
         .and [typeLn .LBRCE, ln (.rule .statementList), typeLn .RBRCE]]
  | .selectionStatement =>
    .and [.type .IF_T,
          ln (.rule .tupleExpression),
          ln (.rule .statement),
          .opt (.and [typeLn .ELSE, .rule .statement])]
  | .exitStatement => typeLn .EXIT_T
  | .raiseStatement => .and [typeLn .RAISE, ln (.rule .assignmentExpression)]
  | .catchAssign =>
    .or [.and [typeLn .LPAREN, .rule .assignmentLhs, typeLn .RPAREN], .rule .assignmentLhs]
  | .tryStatement =>
    .or [.and [.and [typeLn .TRY, ln (.rule .statement), .and [typeLn .CATCH, .rule .catchAssign]],
               ln (.rule .statement)],
         .and [.and [typeLn .TRY, ln (.rule .statement), .and [typeLn .CATCH, .rule .catchAssign]],
               ln (.rule .statement)]]
  | .jumpStatement =>
    .or [.and [.type .RETURN, typeLn .LPAREN, .rule .tupleExpression, typeLn .RPAREN],
         .and [.type .RETURN, .rule .tupleExpression],
         .type .RETURN]
  | .breakStatement => .and [.or [.type .BREAK, .type .CONTINUE], .type .ENDLINE]
  | .defaultValueExpression => .and [.type .EQUALS, .rule .conditionalExpression]
  | .constExpression =>
    .and [.opt (typeLn .CONST_T),
          .or [.and [typeLn .LPAREN, .rule .functionArgumentList, typeLn .RPAREN],
               .rule .identifier],
          .opt (.rule .defaultValueExpression)]
  | .functionArgDefaultValue => .and [typeLn .EQUALS, .rule .conditionalExpression]
  | .functionArgEltWithDefault => .and [.rule .identifier, .rule .functionArgDefaultValue]
  | .functionArgElt => .or [.rule .functionArgEltWithDefault, .rule .identifier]
  | .constFunctionArgument => .and [typeLn .CONST_T, .rule .functionArgElt]
  | .functionArgument => .or [.rule .constFunctionArgument, .rule .functionArgElt]
  | .functionArgumentList1 =>
    .or [.and [.and [typeLn .COMMA, .rule .functionArgument], .rule .functionArgumentList1],
         .epsilon]
  | .functionArgumentList => .and [.rule .functionArgument, .rule .functionArgumentList1]
  | .functionArgumentsPresent => .and [typeLn .LPAREN, .rule .functionArgumentList, typeLn .RPAREN]
  | .functionArgumentsNoArgs => .and [typeLn .LPAREN, typeLn .RPAREN]
  | .functionArguments => .or [.rule .functionArgumentsPresent, .rule .functionArgumentsNoArgs]
  | .defIdentifier => .and [.type .DEF, .rule .identifier]
  | .functionSignatureNoQualifier => .and [.rule .defIdentifier, .rule .functionArguments]
  | .functionQualifier => .or [typeLn .ASYNC, typeLn .CONST_T]
  | .functionQualifierList1 =>
    .or [.and [.rule .functionQualifier, .rule .functionQualifierList1], .epsilon]
  | .functionQualifierList => .and [.rule .functionQualifier, .rule .functionQualifierList1]
  | .functionSignatureWithQualifier =>
    .and [.rule .functionSignatureNoQualifier, .rule .functionQualifierList]
  | .functionSignature =>
    .or [.rule .functionSignatureWithQualifier, .rule .functionSignatureNoQualifier]
  | .functionDefinition => .and [.rule .functionSignature, .rule .statement]
  | .methodIdentifier =>
    .and [.type .METHOD,
          .or [.rule .identifier,
               .type .EQUIV,
               .type .NEQUIV,
               .and [.type .LBRAC, .type .RBRAC, .type .EQUALS],
               .and [.type .LBRAC, .type .RBRAC]]]
  | .methodSignatureNoQualifier => .and [.rule .methodIdentifier, .rule .functionArguments]
  | .methodSignatureWithQualifier =>
    .and [.rule .methodSignatureNoQualifier, .rule .functionQualifierList]
  | .methodSignature => .or [.rule .methodSignatureWithQualifier, .rule .methodSignatureNoQualifier]
  | .methodDefinition => .and [.rule .methodSignature, .rule .statement]
  | .newArgVar => .or [.rule .newFieldArg, .rule .identifier]
  | .newFieldArg => .and [typeLn .FIELD, .rule .identifier]
  | .newArgDefaultValue => .and [typeLn .EQUALS, .rule .conditionalExpression]
  | .newArgEltWithDefault => .and [.rule .newArgVar, .rule .newArgDefaultValue]
  | .newArgElt => .or [.rule .newArgEltWithDefault, .rule .newArgVar]
  | .constNewArgument => .and [typeLn .CONST_T, .rule .newArgElt]
  | .newArgument => .or [.rule .constNewArgument, .rule .newArgElt]
  | .newArgumentList1 =>
    .or [.and [.and [typeLn .COMMA, .rule .newArgument], .rule .newArgumentList1], .epsilon]
  | .newArgumentList => .and [.rule .newArgument, .rule .newArgumentList1]
  | .newArgumentsPresent => .and [typeLn .LPAREN, .rule .newArgumentList, typeLn .RPAREN]
  | .newArgumentsNoArgs => .and [typeLn .LPAREN, typeLn .RPAREN]
  | .newArguments => .or [.rule .newArgumentsPresent, .rule .newArgumentsNoArgs]
  | .newIdentifier => .rule .newExpression
  | .newSignatureNonconst => .and [.rule .newIdentifier, .rule .newArguments]
  | .newSignatureConst => .and [.rule .newSignatureNonconst, typeLn .CONST_T]
  | .newSignature => .or [.rule .newSignatureConst, .rule .newSignatureNonconst]
  | .newDefinition => .and [.rule .newSignature, .rule .statement]
  | .anonSignatureNoQualifier => .rule .functionArguments
  | .anonSignatureWithQualifier =>
    .and [.rule .anonSignatureNoQualifier, .rule .functionQualifierList]
  | .anonSignature => .or [.rule .anonSignatureWithQualifier, .rule .anonSignatureNoQualifier]
  | .anonFunctionLambdaLhs => .or [.rule .anonSignature, .rule .identifier]
  | .anonFunctionLambdaRhs => .and [typeLn .RARROW, .rule .assignmentExpression]
  | .anonFunctionDefinition =>
    .or [.and [.rule .anonFunctionLambdaLhs, .rule .anonFunctionLambdaRhs],
         .and [.rule .anonSignature, .rule .compoundStatement]]
  | .identifierList1 =>
    .or [.and [.and [typeLn .COMMA, .rule .identifier], .rule .identifierList1], .epsilon]
  | .identifierList => .and [.rule .identifier, .rule .identifierList1]
  | .fieldStatement => .and [typeLn .FIELD, .rule .identifierList]
  | .classStatement =>
    ln (.or [.rule .newDefinition, .rule .fieldStatement, .rule .methodDefinition])
  | .classStatementList1 =>
    .or [.and [ln (.rule .classStatement), .rule .classStatementList1], .epsilon]
  | .classStatementList => .and [ln (.rule .classStatement), .rule .classStatementList1]
  | .parentClassList1 =>
    .or [.and [.and [typeLn .COMMA, ln (.rule .identifier)], .rule .parentClassList1], .epsilon]
  | .parentClassList => .and [ln (.rule .identifier), .rule .parentClassList1]
  | .parentClasses => .and [typeLn .COLON, .rule .parentClassList]
  | .classCompoundStatement =>
    .or [.and [typeLn .LBRCE, typeLn .RBRCE],
         .and [typeLn .LBRCE, ln (.rule .classStatementList), typeLn .RBRCE]]
  | .classNameAndInheritance => .and [ln (.rule .identifier), .opt (.rule .parentClasses)]
  | .classDefinitionNoAnnotationSyntax =>
    .and [.and [.type .CLASS, .rule .classNameAndInheritance],
          .or [.rule .classCompoundStatement, ln (.rule .classStatement)]]
  | .annotationNotCalled =>
    .or [.and [.rule .identifier, .type .PERIOD, .rule .identifier], .rule .identifier]
  | .annotationNoArguments => .and [.rule .annotationNotCalled, .type .LPAREN, .type .RPAREN]
  | .annotationWithArguments =>
    .and [.rule .annotationNotCalled, .type .LPAREN, .rule .tupleExpression, .type .RPAREN]
  | .annotationSyntax =>
    .and [.type .AT,
          .or [.rule .annotationWithArguments,
               .rule .annotationNoArguments,
               .rule .annotationNotCalled]]
  | .classDefinitionWithAnnotationSyntax =>
    .and [ln (.rule .annotationSyntax), .rule .classDefinitionNoAnnotationSyntax]
  | .classDefinition =>
    .or [.rule .classDefinitionWithAnnotationSyntax, .rule .classDefinitionNoAnnotationSyntax]
  | .importStatement =>
    .or [.and [.type .IMPORT, .rule .identifier, .type .AS, .rule .identifier, .type .ENDLINE],
         .and [.type .IMPORT, .rule .identifier, .type .ENDLINE]]
  | .moduleStatement => .and [.type .MODULE_T, .rule .identifier, .type .ENDLINE]
  | .statement =>
    .or [.rule .exitStatement,
         .rule .raiseStatement,
         .rule .tryStatement,
         .rule .selectionStatement,
         .rule .compoundStatement,
         .rule .iterationStatement,
         .rule .jumpStatement,
         .rule .breakStatement,
         .rule .expressionStatement]
  | .fileLevelStatement =>
    .or [.rule .moduleStatement,
         .rule .importStatement,
         .rule .classDefinition,
         .rule .functionDefinition,
         .rule .statement]
  | .fileLevelStatementList1 =>
    .or [.and [.rule .fileLevelStatement, .rule .fileLevelStatementList1], .epsilon]
  | .fileLevelStatementList => .and [.rule .fileLevelStatement, .rule .fileLevelStatementList1]
  | .statementList1 => .or [.and [.rule .statement, .rule .statementList1], .epsilon]
  | .statementList => .and [.rule .statement, .rule .statementList1]

/-- The rules that may match without reading a token. -/
def Rule.optional : Rule → Bool
  | .mapDeclarationEntry1 | .postfixExpression1 | .binaryAndExpression1
  | .binaryXorExpression1 | .binaryOrExpression1 | .multiplicativeExpression1
  | .additiveExpression1 | .inExpression1 | .relationalExpression1 | .equalityExpression1
  | .andExpression1 | .orExpression1 | .fieldExtension | .fieldExpression1
  | .assignmentTupleList1 | .tupleExpression1 | .functionArgumentList1
  | .functionQualifierList1 | .newArgumentList1 | .identifierList1 | .classStatementList1
  | .parentClassList1 | .fileLevelStatementList1 | .statementList1 => true
  | _ => false

def parserRules : Rules TokenType Rule Token := ⟨Token.type, Rule.body⟩

theorem body_nullable (r : Rule) (h : r.body.nullable Rule.optional = true) :
    r.optional = true := by
  cases r <;> first | rfl | cases h

theorem body_grounded (r : Rule) : r.body.grounded Rule.body Rule.optional 120 = true := by
  cases r <;> decide

/-- No rule calls itself before it has read a token. -/
theorem parserRules_grounded : parserRules.Grounded Rule.optional where
  nullable := body_nullable
  grounded r := ⟨120, body_grounded r⟩

end JeffVm
