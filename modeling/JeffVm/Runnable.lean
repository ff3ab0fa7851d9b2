import JeffVm.Executable

/-!
# Runnable trees

The trees for which the producers choose only operations that the machine dispatches, with
operands that it accepts: no `!`, no `exit`, nothing constant, and a name wherever an
instruction needs one.
-/

set_option autoImplicit false

namespace JeffVm

/-- The operand of an instruction for the token is an identifier. -/
def Token.isName (token : Token) : Bool :=
  match Tape.argOfToken token with
  | .id _ => true
  | _ => false

@[simp] theorem OperandKind.id_accepts_name (token : Token) :
    OperandKind.id.accepts (Tape.argOfToken token) = token.isName := by
  unfold Token.isName
  split
  · next id hid => rw [hid]; rfl
  · next hid =>
    cases harg : Tape.argOfToken token with
    | id id => exact absurd harg (hid id)
    | _ => rfl

@[simp] theorem OperandKind.absentOrId_accepts_name (token : Token) :
    OperandKind.absentOrId.accepts (Tape.argOfToken token) = token.isName := by
  have hname := OperandKind.id_accepts_name token
  cases harg : Tape.argOfToken token with
  | noArg =>
    unfold Tape.argOfToken at harg
    split at harg
    · cases harg
    · split at harg <;> cases harg
  | _ =>
    rw [harg] at hname
    rw [← hname]
    rfl

/-- The token that `produce_argument` writes. -/
def Token.bindable (isConst : Bool) (name : Token) : Bool := !isConst && name.isName

mutual

/-- Where a producer calls `ERROR`, what follows does not count. -/
def ExpressionTree.runnable : ExpressionTree → Bool
  | .identifier _ => true
  | .constant _ => true
  | .stringLiteral _ => true
  | .tupleExpression _ list => runnableList list
  | .arrayDeclaration _ none => true
  | .arrayDeclaration _ (some exp) => exp.runnable
  | .mapDeclaration _ entries => runnableEntries entries
  | .primaryExpression exp => exp.runnable
  | .primaryExpressionNoConstants exp => exp.runnable
  | .postfixExpression base suffixes => base.runnable && runnablePostfixes suffixes
  | .rangeExpression _ start none stop => stop.runnable && start.runnable
  | .rangeExpression _ start (some inc) stop => inc.runnable && stop.runnable && start.runnable
  | .unaryExpression _ type exp => exp.runnable && type != .notc
  | .biExpression _ exp suffixes => exp.runnable && runnableBiSuffixes suffixes
  | .andExpression exp suffixes => exp.runnable && runnableSuffixes suffixes
  | .orExpression exp suffixes => exp.runnable && runnableSuffixes suffixes
  | .inExpression _ _ element collection => collection.runnable && element.runnable
  | .isExpression _ exp type => exp.runnable && type.runnable
  | .conditionalExpression ifElse => ifElse.runnable
  | .anonFunctionDefinition func => func.runnable
  | .assignmentExpression _ assignment rhs => rhs.runnable && assignment.runnable
  | .foreachStatement _ _ assignmentLhs iterable body =>
    iterable.runnable && assignmentLhs.runnable && body.runnable
  | .forStatement _ init condition inc body =>
    init.runnable && condition.runnable && inc.runnable && body.runnable
  | .whileStatement _ condition body => condition.runnable && body.runnable
  | .compoundStatement expressions => runnableList expressions
  | .tryStatement _ _ tryBody errorAssignmentLhs catchBody =>
    tryBody.runnable && errorAssignmentLhs.runnable && catchBody.runnable
  | .raiseStatement _ exp => exp.runnable
  | .selectionStatement ifElse => ifElse.runnable
  | .jumpStatement _ none => true
  | .jumpStatement _ (some exp) => exp.runnable
  | .breakStatement _ _ => true
  | .exitStatement _ => false

def runnableList : List ExpressionTree → Bool
  | [] => true
  | tree :: rest => tree.runnable && runnableList rest

def runnableEntries : List MapDecEntry → Bool
  | [] => true
  | ⟨_, lhs, rhs⟩ :: rest => rhs.runnable && lhs.runnable && runnableEntries rest

def runnablePostfixes : List Postfix → Bool
  | [] => true
  | .fncall _ none :: rest => runnablePostfixes rest
  | .fncall _ (some exp) :: rest => exp.runnable && runnablePostfixes rest
  | .arrayIndex _ exp :: rest => exp.runnable && runnablePostfixes rest
  | .field _ id :: rest => id.isName && runnablePostfixes rest
  | .increment _ :: rest => runnablePostfixes rest
  | .decrement _ :: rest => runnablePostfixes rest
  | .none _ :: _ => true

def runnableBiSuffixes : List BiSuffix → Bool
  | [] => true
  | ⟨_, type, exp⟩ :: rest =>
    (biToIns type).isNone || (exp.runnable && runnableBiSuffixes rest)

def runnableSuffixes : List BiSuffix → Bool
  | [] => true
  | ⟨_, _, exp⟩ :: rest => exp.runnable && runnableSuffixes rest

def runnableConditionals : List Conditional → Bool
  | [] => true
  | ⟨_, condition, body⟩ :: rest =>
    condition.runnable && body.runnable && runnableConditionals rest

def IfElse.runnable : IfElse → Bool
  | ⟨⟨_, condition, body⟩, rest, none⟩ =>
    condition.runnable && body.runnable && runnableConditionals rest
  | ⟨⟨_, condition, body⟩, rest, some e⟩ =>
    condition.runnable && body.runnable && runnableConditionals rest && e.runnable

def Argument.runnable : Argument → Bool
  | ⟨isConst, _, argName, none⟩ => argName.bindable isConst
  | ⟨isConst, _, argName, some value⟩ => value.runnable && argName.bindable isConst

def runnableArguments : List Argument → Bool
  | [] => true
  | arg :: rest => arg.runnable && runnableArguments rest

def FunctionDef.runnable : FunctionDef → Bool
  | ⟨_, _, _, _, none, body⟩ => body.runnable
  | ⟨_, _, _, _, some ⟨_, first, rest⟩, body⟩ =>
    first.runnable && runnableArguments rest && body.runnable

def Assignment.runnable : Assignment → Bool
  | .var isConst var => var.bindable isConst
  | .complex prefixExp suffixes => prefixExp.runnable && runnablePostfixes suffixes
  | .multi _ subargs => runnableSubargs subargs

def runnableSubargs : List Assignment → Bool
  | [] => true
  | assign :: rest => assign.runnable && runnableSubargs rest

end

def Annotation.runnable (annot : Annotation) : Bool :=
  (annot.annotPrefix.isNone || annot.className.isName) &&
    annot.argsTuple.all ExpressionTree.runnable

def ClassDef.runnable (cls : ClassDef) : Bool :=
  cls.annot.all Annotation.runnable && (cls.fields.all Token.isName &&
    cls.constructor.all FunctionDef.runnable && cls.methods.all FunctionDef.runnable)

def ModuleDef.runnable (module : ModuleDef) : Bool :=
  module.imports.all Token.isName && module.classes.all ClassDef.runnable &&
    module.statements.all ExpressionTree.runnable && module.functions.all FunctionDef.runnable

def RegisteredTree.runnable : RegisteredTree → Bool
  | .expression e => e.runnable
  | .fileLevelStatementList module => module.runnable

/-! ## The code of runnable trees -/

theorem executable_identifier (id : Token) :
    (lowerIdentifier id).allPlain Instruction.executable = true := by
  unfold lowerIdentifier
  split
  · rfl
  · split <;> rfl

theorem executable_argument (isConst isField : Bool) (argName : Token)
    (value : Option ExpressionTree) :
    (lowerArgument ⟨isConst, isField, argName, value⟩).allPlain Instruction.executable =
      argName.bindable isConst := by
  cases isConst <;> cases isField <;>
    simp [lowerArgument, Token.bindable, Instruction.executable, Op.operand]

theorem executable_unary (type : UnaryType) :
    (lowerUnary type).allPlain Instruction.executable = (type != .notc) := by
  cases type <;> rfl

theorem executable_neg (token : Token) :
    (lowerNeg token).allPlain Instruction.executable = true := by
  unfold lowerNeg
  split <;> rfl

theorem Code.allPlainBranches_eq {p : Instruction → Bool} :
    ∀ (first : Code × Code) (rest : List (Code × Code)),
      allPlainBranches p (branches first rest) =
        (first :: rest).all fun q => q.1.allPlain p && q.2.allPlain p
  | first, [] => by simp [branches, allPlainBranches]
  | first, second :: rest => by
    rw [branches, allPlainBranches, allPlainBranches_eq second rest]
    rfl

mutual

theorem executable_lower : ∀ e : ExpressionTree,
    (lower e).allPlain Instruction.executable = e.runnable
  | .identifier id => by rw [lower, executable_identifier]; rfl
  | .constant _ => by rw [lower]; rfl
  | .stringLiteral _ => by rw [lower]; rfl
  | .tupleExpression _ list => by
    simp [lower, executable_tuple list, ExpressionTree.runnable, Instruction.executable,
      Op.operand]
  | .arrayDeclaration _ none => by rw [lower]; rfl
  | .arrayDeclaration _ (some exp) => by
    have hexp := executable_lower exp
    cases exp with
    | tupleExpression _ list =>
      simp [lower, executable_tuple list, ExpressionTree.runnable, Instruction.executable,
        Op.operand]
    | _ =>
      rw [lower, ExpressionTree.runnable] <;>
        simp_all [Instruction.executable, Op.operand]
  | .mapDeclaration _ [] => by
    simp [lower, ExpressionTree.runnable, runnableEntries, Instruction.executable, Op.operand]
  | .mapDeclaration _ (entry :: rest) => by
    obtain ⟨colon, lhs, rhs⟩ := entry
    simp [lower, executable_entry ⟨colon, lhs, rhs⟩, executable_entries rest,
      ExpressionTree.runnable, runnableEntries, Instruction.executable, Op.operand]
  | .primaryExpression exp => by rw [lower, ExpressionTree.runnable, executable_lower exp]
  | .primaryExpressionNoConstants exp => by
    rw [lower, ExpressionTree.runnable, executable_lower exp]
  | .postfixExpression base suffixes => by
    simp [lower, executable_lower base, executable_postfixes suffixes, ExpressionTree.runnable]
  | .rangeExpression _ start none stop => by
    simp [lower, executable_lower start, executable_lower stop, ExpressionTree.runnable,
      Instruction.executable, Op.operand]
  | .rangeExpression _ start (some inc) stop => by
    simp [lower, executable_lower start, executable_lower stop, executable_lower inc,
      ExpressionTree.runnable, Instruction.executable, Op.operand]
  | .unaryExpression _ type exp => by
    have hexp := executable_lower exp
    have hunary := executable_unary type
    cases type with
    | negate =>
      cases exp with
      | constant token => rw [lower, executable_neg]; rfl
      | _ => rw [lower, ExpressionTree.runnable] <;> simp_all
    | _ => rw [lower, ExpressionTree.runnable] <;> simp_all
  | .biExpression _ exp suffixes => by
    simp [lower, executable_lower exp, executable_biSuffixes suffixes, ExpressionTree.runnable]
  | .andExpression exp suffixes => by
    simp [lower, executable_lower exp, executable_suffixes .IFN suffixes,
      ExpressionTree.runnable]
  | .orExpression exp suffixes => by
    simp [lower, executable_lower exp, executable_suffixes .IF suffixes, ExpressionTree.runnable]
  | .inExpression _ isNot element collection => by
    cases isNot <;>
      simp [lower, executable_lower element, executable_lower collection,
        ExpressionTree.runnable, Instruction.executable, Op.operand]
  | .isExpression _ exp type => by
    simp [lower, executable_lower exp, executable_lower type, ExpressionTree.runnable,
      Instruction.executable, Op.operand]
  | .conditionalExpression ifElse => by
    rw [lower, ExpressionTree.runnable, executable_ifElse ifElse]
  | .anonFunctionDefinition func => by
    rw [lower, ExpressionTree.runnable, executable_anonFunction func]
  | .assignmentExpression _ assignment rhs => by
    simp [lower, executable_lower rhs, executable_assignment assignment, ExpressionTree.runnable]
  | .foreachStatement _ _ assignmentLhs iterable body => by
    simp [lower, Code.allPlain, executable_lower iterable, executable_lower body,
      executable_assignment assignmentLhs, ExpressionTree.runnable]
  | .forStatement _ init condition inc body => by
    simp [lower, Code.allPlain, executable_lower init, executable_lower condition,
      executable_lower inc, executable_lower body, ExpressionTree.runnable]
  | .whileStatement _ condition body => by
    simp [lower, Code.allPlain, executable_lower condition, executable_lower body,
      ExpressionTree.runnable]
  | .compoundStatement expressions => by
    rw [lower, ExpressionTree.runnable, executable_statements expressions]
  | .tryStatement _ _ tryBody errorAssignmentLhs catchBody => by
    simp [lower, Code.allPlain, executable_lower tryBody, executable_lower catchBody,
      executable_assignment errorAssignmentLhs, ExpressionTree.runnable]
  | .raiseStatement _ exp => by
    simp [lower, executable_lower exp, ExpressionTree.runnable, Instruction.executable,
      Op.operand]
  | .selectionStatement ifElse => by
    rw [lower, ExpressionTree.runnable, executable_ifElse ifElse]
  | .jumpStatement _ none => by
    simp [lower, ExpressionTree.runnable, Instruction.executable, Op.operand]
  | .jumpStatement _ (some exp) => by
    simp [lower, executable_lower exp, ExpressionTree.runnable, Instruction.executable,
      Op.operand]
  | .breakStatement _ _ => by rw [lower]; rfl
  | .exitStatement _ => by rw [lower]; rfl

theorem executable_tuple : ∀ list : List ExpressionTree,
    (lowerTuple list).allPlain Instruction.executable = runnableList list
  | [] => by rw [lowerTuple, runnableList]; rfl
  | elt :: rest => by
    simp [lowerTuple, runnableList, executable_tuple rest, executable_lower elt,
      Instruction.executable, Op.operand, Bool.and_comm]

theorem executable_statements : ∀ trees : List ExpressionTree,
    (lowerStatements trees).allPlain Instruction.executable = runnableList trees
  | [] => by rw [lowerStatements, runnableList]; rfl
  | tree :: rest => by
    simp [lowerStatements, runnableList, executable_lower tree, executable_statements rest]

theorem executable_entry : ∀ entry : MapDecEntry,
    (lowerEntry entry).allPlain Instruction.executable =
      (entry.rhs.runnable && entry.lhs.runnable)
  | ⟨_, lhs, rhs⟩ => by
    simp [lowerEntry, executable_lower lhs, executable_lower rhs, Instruction.executable,
      Op.operand]

theorem executable_entries : ∀ entries : List MapDecEntry,
    (lowerEntries entries).allPlain Instruction.executable = runnableEntries entries
  | [] => by rw [lowerEntries, runnableEntries]; rfl
  | ⟨colon, lhs, rhs⟩ :: rest => by
    simp [lowerEntries, runnableEntries, executable_entry ⟨colon, lhs, rhs⟩,
      executable_entries rest]

theorem executable_postfixes : ∀ suffixes : List Postfix,
    (lowerPostfixes suffixes).allPlain Instruction.executable = runnablePostfixes suffixes
  | [] => by rw [lowerPostfixes, runnablePostfixes]; rfl
  | .fncall _ none :: rest => by
    simp [lowerPostfixes, lowerCallArgs, runnablePostfixes, executable_postfixes rest,
      Instruction.executable, Op.operand]
  | .fncall _ (some exp) :: rest => by
    simp [lowerPostfixes, lowerCallArgs, runnablePostfixes, executable_lower exp,
      executable_postfixes rest, Instruction.executable, Op.operand]
  | .arrayIndex _ exp :: rest => by
    simp [lowerPostfixes, runnablePostfixes, executable_lower exp, executable_postfixes rest,
      Instruction.executable, Op.operand]
  | .field _ id :: [] => by
    simp [lowerPostfixes, runnablePostfixes, Instruction.executable, Op.operand]
  | .field _ id :: suffix :: rest => by
    have hget := executable_postfixes (suffix :: rest)
    have hrest := executable_postfixes rest
    cases suffix with
    | fncall _ exp =>
      cases exp with
      | none =>
        simp [lowerPostfixes, lowerCallArgs, runnablePostfixes, hrest, Instruction.executable,
          Op.operand]
      | some exp =>
        simp [lowerPostfixes, lowerCallArgs, runnablePostfixes, executable_lower exp, hrest,
          Instruction.executable, Op.operand, Bool.and_assoc, Bool.and_left_comm]
    | _ =>
      rw [lowerPostfixes, runnablePostfixes] <;>
        simp_all [Instruction.executable, Op.operand]
  | .increment _ :: rest => by
    rw [lowerPostfixes, runnablePostfixes, executable_postfixes rest]
  | .decrement _ :: rest => by
    rw [lowerPostfixes, runnablePostfixes, executable_postfixes rest]
  | .none _ :: rest => by rw [lowerPostfixes, runnablePostfixes]; rfl

theorem executable_biSuffixes : ∀ suffixes : List BiSuffix,
    (lowerBiSuffixes suffixes).allPlain Instruction.executable = runnableBiSuffixes suffixes
  | [] => by rw [lowerBiSuffixes, runnableBiSuffixes]; rfl
  | ⟨_, type, exp⟩ :: rest => by
    rw [lowerBiSuffixes, runnableBiSuffixes]
    cases hop : biToIns type with
    | none => rfl
    | some op =>
      have hexec := executable_biToIns hop
      simp [executable_lower exp, executable_biSuffixes rest, hexec]
      simp [Instruction.executable, Op.operand]

theorem executable_suffixes (test : Test) : ∀ suffixes : List BiSuffix,
    (Code.chain test (lowerSuffixes suffixes)).allPlain Instruction.executable =
      runnableSuffixes suffixes
  | [] => by rw [lowerSuffixes, runnableSuffixes]; rfl
  | ⟨_, _, exp⟩ :: rest => by
    rw [lowerSuffixes, Code.chain, Code.allPlain, Code.allPlain_append, executable_lower exp,
      executable_suffixes test rest, runnableSuffixes]

theorem executable_conditional : ∀ cond : Conditional,
    ((lowerConditional cond).1.allPlain Instruction.executable &&
        (lowerConditional cond).2.allPlain Instruction.executable) =
      (cond.condition.runnable && cond.body.runnable)
  | ⟨_, condition, body⟩ => by
    rw [lowerConditional, executable_lower condition, executable_lower body]

theorem executable_conditionals : ∀ conds : List Conditional,
    ((lowerConditionals conds).all fun q =>
        q.1.allPlain Instruction.executable && q.2.allPlain Instruction.executable) =
      runnableConditionals conds
  | [] => by rw [lowerConditionals, runnableConditionals]; rfl
  | ⟨ifToken, condition, body⟩ :: rest => by
    rw [lowerConditionals, List.all_cons, executable_conditional ⟨ifToken, condition, body⟩,
      executable_conditionals rest, runnableConditionals]

theorem executable_ifElse : ∀ ifElse : IfElse,
    (lowerIfElse ifElse).allPlain Instruction.executable = ifElse.runnable
  | ⟨⟨ifToken, condition, body⟩, rest, none⟩ => by
    rw [lowerIfElse, Code.allPlain, Code.allPlainBranches_eq, List.all_cons,
      executable_conditional ⟨ifToken, condition, body⟩, executable_conditionals rest,
      IfElse.runnable]
  | ⟨⟨ifToken, condition, body⟩, rest, some e⟩ => by
    rw [lowerIfElse, Code.allPlain, Code.allPlainBranches_eq, List.all_cons,
      executable_conditional ⟨ifToken, condition, body⟩, executable_conditionals rest,
      executable_lower e, IfElse.runnable]

theorem executable_tupleArgument (i : Nat) (isLast : Bool) : ∀ arg : Argument,
    (lowerTupleArgument i isLast arg).allPlain Instruction.executable = arg.runnable
  | ⟨isConst, isField, argName, some value⟩ => by
    cases isLast <;>
      simp [lowerTupleArgument, Code.allPlain, Argument.runnable, executable_lower value,
        executable_argument, Instruction.executable, Op.operand]
  | ⟨isConst, isField, argName, none⟩ => by
    cases isLast <;>
      simp [lowerTupleArgument, Argument.runnable, executable_argument, Instruction.executable,
        Op.operand]

theorem executable_allArguments : ∀ (i : Nat) (args : List Argument),
    (lowerAllArguments i args).allPlain Instruction.executable = runnableArguments args
  | i, [] => by rw [lowerAllArguments, runnableArguments]; rfl
  | i, arg :: rest => by
    rw [lowerAllArguments, Code.allPlain_append, executable_tupleArgument i _ arg,
      executable_allArguments (i + 1) rest, runnableArguments]

theorem executable_default : ∀ arg : Argument,
    (lowerDefault arg).allPlain Instruction.executable = arg.runnable
  | ⟨isConst, isField, argName, some value⟩ => by
    simp [lowerDefault, Argument.runnable, executable_lower value, executable_argument]
  | ⟨isConst, isField, argName, none⟩ => by
    simp [lowerDefault, Argument.runnable, executable_argument, Instruction.executable,
      Op.operand]

theorem executable_defaults : ∀ args : List Argument,
    (lowerDefaults args).allPlain Instruction.executable = runnableArguments args
  | [] => by rw [lowerDefaults, runnableArguments]; rfl
  | arg :: rest => by
    simp [lowerDefaults, runnableArguments, executable_default arg, executable_defaults rest]

theorem executable_onlyArgument : ∀ arg : Argument,
    (lowerOnlyArgument arg).allPlain Instruction.executable = arg.runnable
  | ⟨isConst, isField, argName, some value⟩ => by
    simp [lowerOnlyArgument, Code.allPlain, Argument.runnable, executable_lower value,
      executable_argument, Instruction.executable, Op.operand]
  | ⟨isConst, isField, argName, none⟩ => by
    rw [lowerOnlyArgument, executable_argument, Argument.runnable]

/-- The first argument is bound on both branches, its default is evaluated on one. -/
theorem executable_arguments : ∀ args : Arguments,
    (lowerArguments args).allPlain Instruction.executable =
      (args.first.runnable && runnableArguments args.rest)
  | ⟨_, first, []⟩ => by
    rw [lowerArguments, executable_onlyArgument first, runnableArguments, Bool.and_true]
  | ⟨_, ⟨isConst, isField, argName, value⟩, second :: rest⟩ => by
    have hdefaults := executable_defaults (second :: rest)
    have hfirst := executable_tupleArgument 0 (second :: rest).isEmpty
      ⟨isConst, isField, argName, value⟩
    have hrest := executable_allArguments 1 (second :: rest)
    have hbound : (⟨isConst, isField, argName, value⟩ : Argument).runnable = true →
        argName.bindable isConst = true := by
      cases value with
      | none => exact id
      | some value => exact fun h => (Bool.and_eq_true _ _ ▸ h).2
    rw [lowerArguments]
    · simp only [Code.allPlain_append, Code.allPlain_op, Code.allPlain_int, Code.allPlain,
        hdefaults, hfirst, hrest, executable_argument]
      rw [Bool.eq_iff_iff]
      simp only [Instruction.executable, Op.operand, OperandKind.absent_accepts,
        OperandKind.any_accepts, OperandKind.notString_accepts, Bool.true_and, Bool.and_eq_true]
      tauto
    · exact fun h => nomatch h

theorem executable_anonFunction : ∀ func : FunctionDef,
    (lowerAnonFunction func).allPlain Instruction.executable = func.runnable
  | ⟨_, _, _, _, some ⟨token, first, rest⟩, body⟩ => by
    simp [lowerAnonFunction, Code.allPlain, FunctionDef.runnable,
      executable_arguments ⟨token, first, rest⟩, executable_lower body, Instruction.executable,
      Op.operand]
  | ⟨_, _, _, _, none, body⟩ => by
    simp [lowerAnonFunction, Code.allPlain, FunctionDef.runnable, executable_lower body,
      Instruction.executable, Op.operand]

theorem executable_assignment : ∀ assignment : Assignment,
    (lowerAssignment assignment).allPlain Instruction.executable = assignment.runnable
  | .var isConst var => by
    cases isConst <;>
      simp [lowerAssignment, Assignment.runnable, Token.bindable, Instruction.executable,
        Op.operand]
  | .complex prefixExp suffixes => by
    simp [lowerAssignment, Assignment.runnable, executable_lower prefixExp,
      executable_setSuffixes suffixes, Instruction.executable, Op.operand]
  | .multi _ subargs => by
    simp [lowerAssignment, Assignment.runnable, executable_subargs _ 0 subargs,
      Instruction.executable, Op.operand]

theorem executable_setSuffixes : ∀ suffixes : List Postfix,
    (lowerSetSuffixes suffixes).allPlain Instruction.executable = runnablePostfixes suffixes
  | [] => by rw [lowerSetSuffixes, runnablePostfixes]; rfl
  | .fncall _ none :: rest => by
    simp [lowerSetSuffixes, lowerCallArgs, runnablePostfixes, executable_setSuffixes rest,
      Instruction.executable, Op.operand]
  | .fncall _ (some exp) :: rest => by
    simp [lowerSetSuffixes, lowerCallArgs, runnablePostfixes, executable_lower exp,
      executable_setSuffixes rest, Instruction.executable, Op.operand]
  | .arrayIndex _ exp :: [] => by
    simp [lowerSetSuffixes, runnablePostfixes, executable_lower exp, Instruction.executable,
      Op.operand]
  | .arrayIndex _ exp :: suffix :: rest => by
    have hrest := executable_setSuffixes (suffix :: rest)
    rw [lowerSetSuffixes, runnablePostfixes]
    simp [executable_lower exp, hrest, Instruction.executable, Op.operand]
  | .field _ id :: [] => by
    simp [lowerSetSuffixes, runnablePostfixes, Instruction.executable, Op.operand]
  | .field _ id :: [suffix] => by
    have hget := executable_setSuffixes [suffix]
    cases suffix <;> rw [lowerSetSuffixes, runnablePostfixes] <;>
      simp_all [Instruction.executable, Op.operand]
  | .field _ id :: suffix :: next :: rest => by
    have hget := executable_setSuffixes (suffix :: next :: rest)
    have hrest := executable_setSuffixes (next :: rest)
    cases suffix with
    | fncall _ exp =>
      cases exp with
      | none =>
        simp [lowerSetSuffixes, lowerCallArgs, runnablePostfixes, hrest,
          Instruction.executable, Op.operand]
      | some exp =>
        simp [lowerSetSuffixes, lowerCallArgs, runnablePostfixes, executable_lower exp, hrest,
          Instruction.executable, Op.operand, Bool.and_assoc, Bool.and_left_comm]
    | _ =>
      rw [lowerSetSuffixes, runnablePostfixes] <;>
        simp_all [Instruction.executable, Op.operand]
  | .increment _ :: rest => by
    rw [lowerSetSuffixes, runnablePostfixes, executable_setSuffixes rest]
  | .decrement _ :: rest => by
    rw [lowerSetSuffixes, runnablePostfixes, executable_setSuffixes rest]
  | .none _ :: rest => by rw [lowerSetSuffixes, runnablePostfixes]; rfl

theorem executable_subargs (len : Nat) : ∀ (i : Nat) (subargs : List Assignment),
    (lowerSubargs len i subargs).allPlain Instruction.executable = runnableSubargs subargs
  | i, [] => by rw [lowerSubargs, runnableSubargs]; rfl
  | i, assign :: rest => by
    have hassign := executable_assignment assign
    have hrest := executable_subargs len (i + 1) rest
    rw [lowerSubargs]
    split <;> simp [hassign, hrest, runnableSubargs, Instruction.executable, Op.operand]

end

/-! ## Files -/

theorem Code.allPlain_each_eq {p : Instruction → Bool} {α : Type} (f : α → Code) :
    ∀ as : List α, (each f as).allPlain p = as.all fun a => (f a).allPlain p
  | [] => rfl
  | a :: rest => by rw [each, allPlain_append, allPlain_each_eq f rest, List.all_cons]

theorem executable_optArguments : ∀ args : Option Arguments,
    (lowerOptArguments args).allPlain Instruction.executable =
      args.all fun args => args.first.runnable && runnableArguments args.rest
  | none => rfl
  | some args => executable_arguments args

theorem FunctionDef.runnable_eq : ∀ func : FunctionDef,
    func.runnable =
      ((func.args.all fun args => args.first.runnable && runnableArguments args.rest) &&
        func.body.runnable)
  | ⟨_, _, _, _, none, body⟩ => by rw [FunctionDef.runnable]; rfl
  | ⟨_, _, _, _, some ⟨_, first, rest⟩, body⟩ => by rw [FunctionDef.runnable]; rfl

theorem executable_function (func : FunctionDef) :
    (lowerFunction func).allPlain Instruction.executable = func.runnable := by
  simp [lowerFunction, executable_optArguments, executable_lower, FunctionDef.runnable_eq,
    Instruction.executable, Op.operand]

theorem executable_fields (cls : ClassDef) :
    (lowerFields cls).allPlain Instruction.executable = cls.fields.all Token.isName := by
  have hfield : ∀ field, (lowerField field).allPlain Instruction.executable = field.isName := by
    intro field
    simp [lowerField, Instruction.executable, Op.operand]
  unfold lowerFields
  cases cls.fields with
  | nil => rfl
  | cons f fields =>
    simp [Code.allPlain_each_eq, hfield, Instruction.executable, Op.operand]

/-- A class without a constructor and without fields has no constructor code. -/
theorem executable_constructor (cls : ClassDef) :
    (if cls.constructor.isSome ∨ 0 < cls.fields.length then lowerConstructor cls
        else .nil).allPlain Instruction.executable =
      (cls.fields.all Token.isName && cls.constructor.all FunctionDef.runnable) := by
  have hfields := executable_fields cls
  split
  · unfold lowerConstructor
    cases cls.constructor with
    | none => simp [hfields, Instruction.executable, Op.operand]
    | some func =>
      simp [hfields, executable_optArguments, executable_lower, FunctionDef.runnable_eq,
        Instruction.executable, Op.operand, Bool.and_assoc]
  · next hnone =>
    have hconstructor : cls.constructor = none := by
      cases hc : cls.constructor with
      | none => rfl
      | some func => exact absurd (.inl (by rw [hc]; rfl)) hnone
    have hnil : cls.fields = [] := by
      cases hf : cls.fields with
      | nil => rfl
      | cons f fields => exact absurd (.inr (by rw [hf]; exact Nat.succ_pos _)) hnone
    rw [hconstructor, hnil]
    rfl

theorem executable_class (cls : ClassDef) :
    (lowerClass cls).allPlain Instruction.executable =
      (cls.fields.all Token.isName && cls.constructor.all FunctionDef.runnable &&
        cls.methods.all FunctionDef.runnable) := by
  unfold lowerClass
  rw [Code.allPlain_append, executable_constructor, Code.allPlain_each_eq]
  simp only [executable_function]

theorem executable_annotated (cls : ClassDef) :
    (lowerAnnotated cls).allPlain Instruction.executable = cls.annot.all Annotation.runnable := by
  unfold lowerAnnotated
  cases cls.annot with
  | none => rfl
  | some annot =>
    obtain ⟨annotPrefix, className, argsTuple⟩ := annot
    cases annotPrefix <;> cases argsTuple <;>
      simp [lowerAnnot, Annotation.runnable, executable_lower, Instruction.executable,
        Op.operand]

theorem executable_super (cls : ClassDef) :
    (lowerSuper cls).allPlain Instruction.executable = true := by
  unfold lowerSuper
  cases cls.parentClasses <;> rfl

theorem executable_moduleDef (module : ModuleDef) :
    (lowerModuleDef module).allPlain Instruction.executable = module.runnable := by
  have hclasses : (module.classes.all ClassDef.runnable) =
      (module.classes.all (fun cls => cls.annot.all Annotation.runnable) &&
        module.classes.all fun cls => cls.fields.all Token.isName &&
          cls.constructor.all FunctionDef.runnable && cls.methods.all FunctionDef.runnable) := by
    rw [Bool.eq_iff_iff]
    simp only [ClassDef.runnable, List.all_eq_true, Bool.and_eq_true]
    exact ⟨fun h => ⟨fun cls hc => (h cls hc).1, fun cls hc => (h cls hc).2⟩,
      fun h cls hc => ⟨h.1 cls hc, h.2 cls hc⟩⟩
  unfold lowerModuleDef ModuleDef.runnable
  rw [hclasses]
  simp only [Code.allPlain_append, Code.allPlain_each_eq, executable_annotated,
    executable_super, executable_lower, executable_class, executable_function,
    Code.allPlain_token, Code.allPlain_int, Instruction.executable, Op.operand,
    OperandKind.id_accepts_name, OperandKind.primitive_accepts]
  rw [Bool.eq_iff_iff]
  simp only [Bool.and_eq_true, List.all_eq_true]
  tauto

theorem executable_tree : ∀ tree : RegisteredTree,
    (lowerTree tree).allPlain Instruction.executable = tree.runnable
  | .expression e => executable_lower e
  | .fileLevelStatementList module => executable_moduleDef module

/-- The appended instructions are executable exactly if the tree is runnable. -/
theorem executable_produceTree {tree : RegisteredTree} {tape tape' : Tape} {n : Int}
    (hproduce : produceTree tree tape = some (n, tape')) :
    ∃ code : List Instruction, tape'.ins = tape.ins ++ code ∧
      code.all Instruction.executable = tree.runnable := by
  obtain ⟨-, hins⟩ := generates_tree tree tape n tape' hproduce
  exact ⟨(lowerTree tree).code, hins, (Code.all_code _).trans (executable_tree tree)⟩

end JeffVm
