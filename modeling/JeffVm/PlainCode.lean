import JeffVm.Files

/-!
# Instructions outside the control skeleton

What the producers put between the jumps and blocks of a layout are instructions that go on
with the next one and leave the blocks alone.
-/

set_option autoImplicit false

namespace JeffVm

/-- The instructions of the control skeleton: they move control or open and close blocks. -/
def Op.isSkeleton : Op → Bool
  | .JMP => true
  | .IF => true
  | .IFN => true
  | .CTCH => true
  | .NBLK => true
  | .BBLK => true
  | _ => false

namespace Code

mutual

/-- All instructions outside the control skeleton satisfy `p`. -/
def allPlain (p : Instruction → Bool) : Code → Bool
  | nil => true
  | plain ins => p ins
  | brk _ => true
  | seq a b => allPlain p a && allPlain p b
  | skip _ body => allPlain p body
  | choice _ a b => allPlain p a && allPlain p b
  | ifThen branches => allPlainBranches p branches
  | ifElse branches otherwise => allPlainBranches p branches && allPlain p otherwise
  | func body => allPlain p body
  | tryCatch body assign handler => allPlain p body && allPlain p assign && allPlain p handler
  | whileLoop condition body => allPlain p condition && allPlain p body
  | forLoop init condition inc body =>
    allPlain p init && allPlain p condition && allPlain p inc && allPlain p body
  | foreachLoop iterable lhs body => allPlain p iterable && allPlain p lhs && allPlain p body

def allPlainBranches (p : Instruction → Bool) : Branches → Bool
  | .last condition body => allPlain p condition && allPlain p body
  | .more condition body rest =>
    allPlain p condition && allPlain p body && allPlainBranches p rest

end

variable {p : Instruction → Bool}

@[simp] theorem allPlain_append (a b : Code) :
    (a ++ b).allPlain p = (a.allPlain p && b.allPlain p) := by
  simp only [HAppend.hAppend, Append.append]
  rw [allPlain]

@[simp] theorem allPlain_nil : nil.allPlain p = true := rfl
@[simp] theorem allPlain_op (op : Op) : (opCode op).allPlain p = p ⟨op, .noArg⟩ := rfl
@[simp] theorem allPlain_int (op : Op) (n : Int) :
    (intCode op n).allPlain p = p ⟨op, .val (.int n)⟩ := rfl
@[simp] theorem allPlain_id (op : Op) (id : String) : (idCode op id).allPlain p = p ⟨op, .id id⟩ :=
  rfl
@[simp] theorem allPlain_token (op : Op) (token : Token) :
    (tokenCode op token).allPlain p = p ⟨op, Tape.argOfToken token⟩ := rfl

theorem allPlain_chain (test : Test) {cs : List Code} (h : ∀ c ∈ cs, c.allPlain p = true) :
    (chain test cs).allPlain p = true := by
  induction cs with
  | nil => rfl
  | cons c cs ih =>
    have hc := h c List.mem_cons_self
    have hcs := ih fun c hc => h c (List.mem_cons_of_mem _ hc)
    rw [chain, allPlain, allPlain_append, hc, hcs]
    rfl

theorem allPlain_branches : ∀ {first : Code × Code} {rest : List (Code × Code)},
    (∀ q ∈ first :: rest, q.1.allPlain p = true ∧ q.2.allPlain p = true) →
      allPlainBranches p (branches first rest) = true
  | first, [], h => by
    obtain ⟨hc, hb⟩ := h first List.mem_cons_self
    rw [branches, allPlainBranches, hc, hb]
    rfl
  | first, second :: rest, h => by
    obtain ⟨hc, hb⟩ := h first List.mem_cons_self
    have hrest := allPlain_branches fun q hq => h q (List.mem_cons_of_mem _ hq)
    rw [branches, allPlainBranches, hc, hb, hrest]
    rfl

theorem allPlain_each {α : Type} {f : α → Code} (hf : ∀ a, (f a).allPlain p = true) :
    ∀ as : List α, (each f as).allPlain p = true
  | [] => rfl
  | a :: rest => by
    rw [each, allPlain_append, hf a, allPlain_each hf rest]
    rfl

end Code

/-- Outside the control skeleton no instruction moves control or opens or closes a block. -/
def Instruction.isPlain (ins : Instruction) : Bool := !ins.op.isSkeleton

theorem isPlain_biToIns {type : BiType} {op : Op} (h : biToIns type = some op) :
    op.isSkeleton = false := by
  cases type <;> cases h <;> rfl

theorem allPlain_identifier (id : Token) :
    (lowerIdentifier id).allPlain Instruction.isPlain = true := by
  unfold lowerIdentifier
  split
  · rfl
  · split <;> rfl

theorem allPlain_argument (arg : Argument) :
    (lowerArgument arg).allPlain Instruction.isPlain = true := by
  unfold lowerArgument
  split <;> cases arg.isConst <;> rfl

theorem allPlain_unary (type : UnaryType) :
    (lowerUnary type).allPlain Instruction.isPlain = true := by
  cases type <;> rfl

theorem allPlain_neg (token : Token) : (lowerNeg token).allPlain Instruction.isPlain = true := by
  unfold lowerNeg
  split <;> rfl

mutual

theorem allPlain_lower : ∀ e : ExpressionTree, (lower e).allPlain Instruction.isPlain = true
  | .identifier id => by rw [lower, allPlain_identifier]
  | .constant _ => by rw [lower]; rfl
  | .stringLiteral _ => by rw [lower]; rfl
  | .tupleExpression _ list => by simp [lower, allPlain_tuple list, Instruction.isPlain, Op.isSkeleton]
  | .arrayDeclaration _ none => by rw [lower]; rfl
  | .arrayDeclaration _ (some exp) => by
    have hexp := allPlain_lower exp
    cases exp with
    | tupleExpression _ list =>
      simp [lower, allPlain_tuple list, Instruction.isPlain, Op.isSkeleton]
    | _ => rw [lower] <;> simp_all [Instruction.isPlain, Op.isSkeleton]
  | .mapDeclaration _ [] => by simp [lower, Instruction.isPlain, Op.isSkeleton]
  | .mapDeclaration _ (entry :: rest) => by
    simp [lower, allPlain_entry entry, allPlain_entries rest, Instruction.isPlain, Op.isSkeleton]
  | .primaryExpression exp => by rw [lower, allPlain_lower exp]
  | .primaryExpressionNoConstants exp => by rw [lower, allPlain_lower exp]
  | .postfixExpression base suffixes => by
    simp [lower, allPlain_lower base, allPlain_postfixes suffixes]
  | .rangeExpression _ start none stop => by
    simp [lower, allPlain_lower start, allPlain_lower stop, Instruction.isPlain, Op.isSkeleton]
  | .rangeExpression _ start (some inc) stop => by
    simp [lower, allPlain_lower start, allPlain_lower stop, allPlain_lower inc,
      Instruction.isPlain, Op.isSkeleton]
  | .unaryExpression _ type exp => by
    have hexp := allPlain_lower exp
    have hunary := allPlain_unary type
    cases type with
    | negate =>
      cases exp with
      | constant token => rw [lower, allPlain_neg]
      | _ => rw [lower] <;> simp_all
    | _ => rw [lower] <;> simp_all
  | .biExpression _ exp suffixes => by
    simp [lower, allPlain_lower exp, allPlain_biSuffixes suffixes]
  | .andExpression exp suffixes => by
    simp [lower, allPlain_lower exp, Code.allPlain_chain .IFN (allPlain_suffixes suffixes)]
  | .orExpression exp suffixes => by
    simp [lower, allPlain_lower exp, Code.allPlain_chain .IF (allPlain_suffixes suffixes)]
  | .inExpression _ isNot element collection => by
    cases isNot <;>
      simp [lower, allPlain_lower element, allPlain_lower collection, Instruction.isPlain,
        Op.isSkeleton]
  | .isExpression _ exp type => by
    simp [lower, allPlain_lower exp, allPlain_lower type, Instruction.isPlain, Op.isSkeleton]
  | .conditionalExpression ifElse => by rw [lower, allPlain_ifElse ifElse]
  | .anonFunctionDefinition func => by rw [lower, allPlain_anonFunction func]
  | .assignmentExpression _ assignment rhs => by
    simp [lower, allPlain_lower rhs, allPlain_assignment assignment]
  | .foreachStatement _ _ assignmentLhs iterable body => by
    simp [lower, Code.allPlain, allPlain_lower iterable, allPlain_lower body,
      allPlain_assignment assignmentLhs]
  | .forStatement _ init condition inc body => by
    simp [lower, Code.allPlain, allPlain_lower init, allPlain_lower condition,
      allPlain_lower inc, allPlain_lower body]
  | .whileStatement _ condition body => by
    simp [lower, Code.allPlain, allPlain_lower condition, allPlain_lower body]
  | .compoundStatement expressions => by rw [lower, allPlain_statements expressions]
  | .tryStatement _ _ tryBody errorAssignmentLhs catchBody => by
    simp [lower, Code.allPlain, allPlain_lower tryBody, allPlain_lower catchBody,
      allPlain_assignment errorAssignmentLhs]
  | .raiseStatement _ exp => by simp [lower, allPlain_lower exp, Instruction.isPlain, Op.isSkeleton]
  | .selectionStatement ifElse => by rw [lower, allPlain_ifElse ifElse]
  | .jumpStatement _ none => by simp [lower, Instruction.isPlain, Op.isSkeleton]
  | .jumpStatement _ (some exp) => by
    simp [lower, allPlain_lower exp, Instruction.isPlain, Op.isSkeleton]
  | .breakStatement _ _ => by rw [lower]; rfl
  | .exitStatement _ => by rw [lower]; rfl

theorem allPlain_tuple : ∀ list : List ExpressionTree,
    (lowerTuple list).allPlain Instruction.isPlain = true
  | [] => by rw [lowerTuple]; rfl
  | elt :: rest => by
    simp [lowerTuple, allPlain_tuple rest, allPlain_lower elt, Instruction.isPlain, Op.isSkeleton]

theorem allPlain_statements : ∀ trees : List ExpressionTree,
    (lowerStatements trees).allPlain Instruction.isPlain = true
  | [] => by rw [lowerStatements]; rfl
  | tree :: rest => by simp [lowerStatements, allPlain_lower tree, allPlain_statements rest]

theorem allPlain_entry : ∀ entry : MapDecEntry,
    (lowerEntry entry).allPlain Instruction.isPlain = true
  | ⟨_, lhs, rhs⟩ => by
    simp [lowerEntry, allPlain_lower lhs, allPlain_lower rhs, Instruction.isPlain, Op.isSkeleton]

theorem allPlain_entries : ∀ entries : List MapDecEntry,
    (lowerEntries entries).allPlain Instruction.isPlain = true
  | [] => by rw [lowerEntries]; rfl
  | entry :: rest => by simp [lowerEntries, allPlain_entry entry, allPlain_entries rest]

theorem allPlain_callArgs : ∀ (exp : Option ExpressionTree) (call : Op → Code),
    (∀ op, op = .CALL ∨ op = .CLLN → (call op).allPlain Instruction.isPlain = true) →
      (lowerCallArgs exp call).allPlain Instruction.isPlain = true
  | none, call, hcall => by rw [lowerCallArgs, hcall .CLLN (.inr rfl)]
  | some exp, call, hcall => by simp [lowerCallArgs, allPlain_lower exp, hcall .CALL (.inl rfl)]

theorem allPlain_postfixes : ∀ suffixes : List Postfix,
    (lowerPostfixes suffixes).allPlain Instruction.isPlain = true
  | [] => by rw [lowerPostfixes]; rfl
  | .fncall _ exp :: rest => by
    have hcall := allPlain_callArgs exp opCode (by rintro _ (rfl | rfl) <;> rfl)
    simp [lowerPostfixes, hcall, allPlain_postfixes rest, Instruction.isPlain, Op.isSkeleton]
  | .arrayIndex _ exp :: rest => by
    simp [lowerPostfixes, allPlain_lower exp, allPlain_postfixes rest, Instruction.isPlain,
      Op.isSkeleton]
  | .field _ id :: [] => by simp [lowerPostfixes, Instruction.isPlain, Op.isSkeleton]
  | .field _ id :: suffix :: rest => by
    have hget := allPlain_postfixes (suffix :: rest)
    have hrest := allPlain_postfixes rest
    cases suffix with
    | fncall _ exp =>
      have hcall := allPlain_callArgs exp (fun op => tokenCode op id)
        (by rintro _ (rfl | rfl) <;> rfl)
      simp [lowerPostfixes, hcall, hrest, Instruction.isPlain, Op.isSkeleton]
    | _ => rw [lowerPostfixes] <;> simp_all [Instruction.isPlain, Op.isSkeleton]
  | .increment _ :: rest => by rw [lowerPostfixes, allPlain_postfixes rest]
  | .decrement _ :: rest => by rw [lowerPostfixes, allPlain_postfixes rest]
  | .none _ :: rest => by rw [lowerPostfixes]; rfl

theorem allPlain_biSuffixes : ∀ suffixes : List BiSuffix,
    (lowerBiSuffixes suffixes).allPlain Instruction.isPlain = true
  | [] => by rw [lowerBiSuffixes]; rfl
  | ⟨_, type, exp⟩ :: rest => by
    rw [lowerBiSuffixes]
    cases hop : biToIns type with
    | none => rfl
    | some op =>
      simp [allPlain_lower exp, allPlain_biSuffixes rest, Instruction.isPlain,
        isPlain_biToIns hop]
      rfl

theorem allPlain_suffixes : ∀ suffixes : List BiSuffix,
    ∀ c ∈ lowerSuffixes suffixes, c.allPlain Instruction.isPlain = true
  | [] => by simp [lowerSuffixes]
  | ⟨_, _, exp⟩ :: rest => by
    have hexp := allPlain_lower exp
    have hrest := allPlain_suffixes rest
    simp [lowerSuffixes, hexp]
    exact hrest

theorem allPlain_conditional : ∀ cond : Conditional,
    (lowerConditional cond).1.allPlain Instruction.isPlain = true ∧
      (lowerConditional cond).2.allPlain Instruction.isPlain = true
  | ⟨_, condition, body⟩ => by
    simp [lowerConditional, allPlain_lower condition, allPlain_lower body]

theorem allPlain_conditionals : ∀ conds : List Conditional,
    ∀ q ∈ lowerConditionals conds, q.1.allPlain Instruction.isPlain = true ∧
      q.2.allPlain Instruction.isPlain = true
  | [] => by simp [lowerConditionals]
  | cond :: rest => by
    intro q hq
    rw [lowerConditionals] at hq
    rcases List.mem_cons.mp hq with rfl | hq
    · exact allPlain_conditional cond
    · exact allPlain_conditionals rest q hq

theorem allPlain_ifElse : ∀ ifElse : IfElse,
    (lowerIfElse ifElse).allPlain Instruction.isPlain = true
  | ⟨first, rest, elseExp⟩ => by
    have hbranches : Code.allPlainBranches Instruction.isPlain
        (Code.branches (lowerConditional first) (lowerConditionals rest)) = true := by
      apply Code.allPlain_branches
      intro q hq
      rcases List.mem_cons.mp hq with rfl | hq
      · exact allPlain_conditional first
      · exact allPlain_conditionals rest q hq
    cases elseExp with
    | none => rw [lowerIfElse, Code.allPlain, hbranches]
    | some e => rw [lowerIfElse, Code.allPlain, hbranches, allPlain_lower e]; rfl

theorem allPlain_tupleArgument (i : Nat) (isLast : Bool) : ∀ arg : Argument,
    (lowerTupleArgument i isLast arg).allPlain Instruction.isPlain = true
  | ⟨isConst, isField, argName, some value⟩ => by
    cases isLast <;>
      simp [lowerTupleArgument, Code.allPlain, allPlain_lower value, allPlain_argument,
        Instruction.isPlain, Op.isSkeleton]
  | ⟨isConst, isField, argName, none⟩ => by
    cases isLast <;>
      simp [lowerTupleArgument, allPlain_argument, Instruction.isPlain, Op.isSkeleton]

theorem allPlain_allArguments : ∀ (i : Nat) (args : List Argument),
    (lowerAllArguments i args).allPlain Instruction.isPlain = true
  | i, [] => by rw [lowerAllArguments]; rfl
  | i, arg :: rest => by
    rw [lowerAllArguments, Code.allPlain_append, allPlain_tupleArgument i _ arg,
      allPlain_allArguments (i + 1) rest]
    rfl

theorem allPlain_default : ∀ arg : Argument,
    (lowerDefault arg).allPlain Instruction.isPlain = true
  | ⟨isConst, isField, argName, some value⟩ => by
    simp [lowerDefault, allPlain_lower value, allPlain_argument]
  | ⟨isConst, isField, argName, none⟩ => by
    simp [lowerDefault, allPlain_argument, Instruction.isPlain, Op.isSkeleton]

theorem allPlain_defaults : ∀ args : List Argument,
    (lowerDefaults args).allPlain Instruction.isPlain = true
  | [] => by rw [lowerDefaults]; rfl
  | arg :: rest => by simp [lowerDefaults, allPlain_default arg, allPlain_defaults rest]

theorem allPlain_onlyArgument : ∀ arg : Argument,
    (lowerOnlyArgument arg).allPlain Instruction.isPlain = true
  | ⟨isConst, isField, argName, some value⟩ => by
    simp [lowerOnlyArgument, Code.allPlain, allPlain_lower value, allPlain_argument,
      Instruction.isPlain, Op.isSkeleton]
  | ⟨isConst, isField, argName, none⟩ => by rw [lowerOnlyArgument, allPlain_argument]

theorem allPlain_arguments : ∀ args : Arguments,
    (lowerArguments args).allPlain Instruction.isPlain = true
  | ⟨_, first, []⟩ => by rw [lowerArguments, allPlain_onlyArgument first]
  | ⟨_, first, second :: rest⟩ => by
    have hdefaults := allPlain_defaults (second :: rest)
    have hfirst := allPlain_tupleArgument 0 (second :: rest).isEmpty first
    have hrest := allPlain_allArguments 1 (second :: rest)
    rw [lowerArguments] <;>
      simp_all [Code.allPlain, allPlain_argument, Instruction.isPlain, Op.isSkeleton]

theorem allPlain_anonFunction : ∀ func : FunctionDef,
    (lowerAnonFunction func).allPlain Instruction.isPlain = true
  | ⟨_, _, _, _, some args, body⟩ => by
    simp [lowerAnonFunction, Code.allPlain, allPlain_arguments args, allPlain_lower body,
      Instruction.isPlain, Op.isSkeleton]
  | ⟨_, _, _, _, none, body⟩ => by
    simp [lowerAnonFunction, Code.allPlain, allPlain_lower body, Instruction.isPlain,
      Op.isSkeleton]

theorem allPlain_assignment : ∀ assignment : Assignment,
    (lowerAssignment assignment).allPlain Instruction.isPlain = true
  | .var isConst var => by
    cases isConst <;> rw [lowerAssignment] <;> rfl
  | .complex prefixExp suffixes => by
    simp [lowerAssignment, allPlain_lower prefixExp, allPlain_setSuffixes suffixes,
      Instruction.isPlain, Op.isSkeleton]
  | .multi _ subargs => by
    simp [lowerAssignment, allPlain_subargs _ 0 subargs, Instruction.isPlain, Op.isSkeleton]

theorem allPlain_setSuffixes : ∀ suffixes : List Postfix,
    (lowerSetSuffixes suffixes).allPlain Instruction.isPlain = true
  | [] => by rw [lowerSetSuffixes]; rfl
  | .fncall _ exp :: rest => by
    have hcall := allPlain_callArgs exp opCode (by rintro _ (rfl | rfl) <;> rfl)
    simp [lowerSetSuffixes, hcall, allPlain_setSuffixes rest, Instruction.isPlain, Op.isSkeleton]
  | .arrayIndex _ exp :: rest => by
    have hrest := allPlain_setSuffixes rest
    rw [lowerSetSuffixes]
    split <;> simp [allPlain_lower exp, hrest, Instruction.isPlain, Op.isSkeleton]
  | .field _ id :: [] => by simp [lowerSetSuffixes, Instruction.isPlain, Op.isSkeleton]
  | .field _ id :: [suffix] => by
    have hget := allPlain_setSuffixes [suffix]
    cases suffix <;> rw [lowerSetSuffixes] <;> simp_all [Instruction.isPlain, Op.isSkeleton]
  | .field _ id :: suffix :: next :: rest => by
    have hget := allPlain_setSuffixes (suffix :: next :: rest)
    have hrest := allPlain_setSuffixes (next :: rest)
    cases suffix with
    | fncall _ exp =>
      have hcall := allPlain_callArgs exp (fun op => tokenCode op id)
        (by rintro _ (rfl | rfl) <;> rfl)
      simp [lowerSetSuffixes, hcall, hrest, Instruction.isPlain, Op.isSkeleton]
    | _ => rw [lowerSetSuffixes] <;> simp_all [Instruction.isPlain, Op.isSkeleton]
  | .increment _ :: rest => by rw [lowerSetSuffixes, allPlain_setSuffixes rest]
  | .decrement _ :: rest => by rw [lowerSetSuffixes, allPlain_setSuffixes rest]
  | .none _ :: rest => by rw [lowerSetSuffixes]; rfl

theorem allPlain_subargs (len : Nat) : ∀ (i : Nat) (subargs : List Assignment),
    (lowerSubargs len i subargs).allPlain Instruction.isPlain = true
  | i, [] => by rw [lowerSubargs]; rfl
  | i, assign :: rest => by
    have hassign := allPlain_assignment assign
    have hrest := allPlain_subargs len (i + 1) rest
    rw [lowerSubargs]
    split <;> simp [hassign, hrest, Instruction.isPlain, Op.isSkeleton]

end

/-! ## Files -/

theorem allPlain_optArguments : ∀ args : Option Arguments,
    (lowerOptArguments args).allPlain Instruction.isPlain = true
  | none => rfl
  | some args => allPlain_arguments args

theorem allPlain_function (func : FunctionDef) :
    (lowerFunction func).allPlain Instruction.isPlain = true := by
  simp [lowerFunction, allPlain_optArguments, allPlain_lower, Instruction.isPlain, Op.isSkeleton]

theorem allPlain_fields (cls : ClassDef) :
    (lowerFields cls).allPlain Instruction.isPlain = true := by
  have hfield : ∀ field, (lowerField field).allPlain Instruction.isPlain = true := fun _ => rfl
  unfold lowerFields
  cases cls.fields with
  | nil => rfl
  | cons f fields =>
    simp [Code.allPlain_each hfield (f :: fields), Instruction.isPlain, Op.isSkeleton]

theorem allPlain_constructor (cls : ClassDef) :
    (lowerConstructor cls).allPlain Instruction.isPlain = true := by
  unfold lowerConstructor
  cases cls.constructor with
  | none => simp [allPlain_fields, Instruction.isPlain, Op.isSkeleton]
  | some func =>
    simp [allPlain_fields, allPlain_optArguments, allPlain_lower, Instruction.isPlain,
      Op.isSkeleton]

theorem allPlain_class (cls : ClassDef) : (lowerClass cls).allPlain Instruction.isPlain = true := by
  unfold lowerClass
  rw [Code.allPlain_append, Code.allPlain_each allPlain_function]
  split
  · rw [allPlain_constructor]
    rfl
  · rfl

theorem allPlain_annotated (cls : ClassDef) :
    (lowerAnnotated cls).allPlain Instruction.isPlain = true := by
  unfold lowerAnnotated
  cases cls.annot with
  | none => rfl
  | some annot =>
    obtain ⟨annotPrefix, className, argsTuple⟩ := annot
    cases annotPrefix <;> cases argsTuple <;>
      simp [lowerAnnot, allPlain_lower, Instruction.isPlain, Op.isSkeleton]

theorem allPlain_super (cls : ClassDef) : (lowerSuper cls).allPlain Instruction.isPlain = true := by
  unfold lowerSuper
  cases cls.parentClasses <;> rfl

theorem allPlain_moduleDef (module : ModuleDef) :
    (lowerModuleDef module).allPlain Instruction.isPlain = true := by
  unfold lowerModuleDef
  have himports : (Code.each (fun moduleName => tokenCode .LMDL moduleName)
      module.imports).allPlain Instruction.isPlain = true :=
    Code.allPlain_each (fun _ => rfl) module.imports
  simp only [Code.allPlain_append, himports, Code.allPlain_each allPlain_annotated,
    Code.allPlain_each allPlain_super, Code.allPlain_each allPlain_lower,
    Code.allPlain_each allPlain_class, Code.allPlain_each allPlain_function, Code.allPlain_int,
    Instruction.isPlain, Op.isSkeleton]
  rfl

theorem allPlain_tree : ∀ tree : RegisteredTree,
    (lowerTree tree).allPlain Instruction.isPlain = true
  | .expression e => allPlain_lower e
  | .fileLevelStatementList module => allPlain_moduleDef module

end JeffVm
