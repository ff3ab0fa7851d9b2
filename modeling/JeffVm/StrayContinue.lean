import JeffVm.Files

/-!
# Where a `continue` comes from

A `continue` that the patch loops of the code leave alone is the `continue` of a part of the
tree that no loop of the tree repeats.
-/

set_option autoImplicit false

namespace JeffVm

/-! ## Parts of trees -/

def Postfix.parts : Postfix → List ExpressionTree
  | .none _ => []
  | .field _ _ => []
  | .fncall _ exp => exp.toList
  | .arrayIndex _ exp => [exp]
  | .increment _ => []
  | .decrement _ => []

def Argument.parts (arg : Argument) : List ExpressionTree := arg.defaultValue.toList

def Arguments.parts (args : Arguments) : List ExpressionTree :=
  args.first.parts ++ args.rest.flatMap Argument.parts

def FunctionDef.parts (func : FunctionDef) : List ExpressionTree :=
  (match func.args with
    | none => []
    | some args => args.parts) ++ [func.body]

def Conditional.parts (cond : Conditional) : List ExpressionTree := [cond.condition, cond.body]

def IfElse.parts (ifElse : IfElse) : List ExpressionTree :=
  ifElse.first.parts ++ ifElse.rest.flatMap Conditional.parts ++ ifElse.elseExp.toList

mutual

def Assignment.parts : Assignment → List ExpressionTree
  | .var _ _ => []
  | .complex prefixExp suffixes => prefixExp :: suffixes.flatMap Postfix.parts
  | .multi _ subargs => subargParts subargs

def subargParts : List Assignment → List ExpressionTree
  | [] => []
  | assign :: rest => assign.parts ++ subargParts rest

end

namespace ExpressionTree

/-- The trees directly below a tree. -/
def parts : ExpressionTree → List ExpressionTree
  | identifier _ => []
  | constant _ => []
  | stringLiteral _ => []
  | tupleExpression _ list => list
  | arrayDeclaration _ exp => exp.toList
  | mapDeclaration _ entries => entries.flatMap fun entry => [entry.lhs, entry.rhs]
  | primaryExpression exp => [exp]
  | primaryExpressionNoConstants exp => [exp]
  | postfixExpression base suffixes => base :: suffixes.flatMap Postfix.parts
  | rangeExpression _ start inc stop => start :: stop :: inc.toList
  | unaryExpression _ _ exp => [exp]
  | biExpression _ exp suffixes => exp :: suffixes.map BiSuffix.exp
  | andExpression exp suffixes => exp :: suffixes.map BiSuffix.exp
  | orExpression exp suffixes => exp :: suffixes.map BiSuffix.exp
  | inExpression _ _ element collection => [element, collection]
  | isExpression _ exp type => [exp, type]
  | conditionalExpression ifElse => ifElse.parts
  | anonFunctionDefinition func => func.parts
  | assignmentExpression _ assignment rhs => rhs :: assignment.parts
  | foreachStatement _ _ assignmentLhs iterable body => iterable :: body :: assignmentLhs.parts
  | forStatement _ init condition inc body => [init, condition, inc, body]
  | whileStatement _ condition body => [condition, body]
  | compoundStatement expressions => expressions
  | tryStatement _ _ tryBody errorAssignmentLhs catchBody =>
    tryBody :: catchBody :: errorAssignmentLhs.parts
  | raiseStatement _ exp => [exp]
  | selectionStatement ifElse => ifElse.parts
  | jumpStatement _ exp => exp.toList
  | breakStatement _ _ => []
  | exitStatement _ => []

/-- The parts of a tree that are not inside a loop that the tree is. -/
def outsideLoop : ExpressionTree → List ExpressionTree
  | foreachStatement _ _ _ _ _ => []
  | forStatement _ _ _ _ _ => []
  | whileStatement _ _ _ => []
  | e => e.parts

/-- The parts of a tree that it does not repeat as the body of a loop. -/
def unrepeated : ExpressionTree → List ExpressionTree
  | foreachStatement _ _ _ iterable _ => [iterable]
  | forStatement _ init condition _ _ => [init, condition]
  | whileStatement _ condition _ => [condition]
  | e => e.parts

end ExpressionTree

/-- Some `continue` is reached through the parts that `next` gives. -/
inductive ContinueBelow (next : ExpressionTree → List ExpressionTree) : ExpressionTree → Prop where
  | here (token : Token) : ContinueBelow next (.breakStatement token .continue)
  | inPart {e part : ExpressionTree} (hmem : part ∈ next e) (hpart : ContinueBelow next part) :
      ContinueBelow next e

def ClassDef.functions (cls : ClassDef) : List FunctionDef := cls.constructor.toList ++ cls.methods

def ModuleDef.parts (module : ModuleDef) : List ExpressionTree :=
  module.classes.flatMap (fun cls => (cls.annot.bind Annotation.argsTuple).toList) ++
    module.statements ++ module.classes.flatMap (fun cls => cls.functions.flatMap FunctionDef.parts) ++
    module.functions.flatMap FunctionDef.parts

def RegisteredTree.ContinueBelow (next : ExpressionTree → List ExpressionTree) :
    RegisteredTree → Prop
  | .expression e => JeffVm.ContinueBelow next e
  | .fileLevelStatementList module => ∃ part ∈ module.parts, JeffVm.ContinueBelow next part

/-! ## Stray continues of the code -/

namespace Code

mutual

/-- A `continue` outside the repeated parts of all loops of the code. -/
def strays : Code → Bool
  | nil => false
  | plain _ => false
  | brk type => type == .continue
  | seq a b => strays a || strays b
  | skip _ body => strays body
  | choice _ a b => strays a || strays b
  | ifThen branches => straysBranches branches
  | ifElse branches otherwise => straysBranches branches || strays otherwise
  | func body => strays body
  | tryCatch body assign handler => strays body || strays assign || strays handler
  | whileLoop condition _ => strays condition
  | forLoop init condition _ _ => strays init || strays condition
  | foreachLoop iterable _ _ => strays iterable

def straysBranches : Branches → Bool
  | .last condition body => strays condition || strays body
  | .more condition body rest => strays condition || strays body || straysBranches rest

end

@[simp] theorem strays_append (a b : Code) : (a ++ b).strays = (a.strays || b.strays) := by
  simp only [HAppend.hAppend, Append.append]
  rw [strays]

@[simp] theorem strays_nil : nil.strays = false := rfl
@[simp] theorem strays_op (op : Op) : (opCode op).strays = false := rfl
@[simp] theorem strays_int (op : Op) (n : Int) : (intCode op n).strays = false := rfl
@[simp] theorem strays_id (op : Op) (id : String) : (idCode op id).strays = false := rfl
@[simp] theorem strays_token (op : Op) (token : Token) : (tokenCode op token).strays = false := rfl

theorem strays_chain (test : Test) {cs : List Code} (h : (chain test cs).strays = true) :
    ∃ c ∈ cs, c.strays = true := by
  induction cs with
  | nil => cases h
  | cons c cs ih =>
    rw [chain, strays, strays_append, Bool.or_eq_true] at h
    rcases h with hc | hcs
    · exact ⟨c, List.mem_cons_self, hc⟩
    · obtain ⟨d, hd, hstrays⟩ := ih hcs
      exact ⟨d, List.mem_cons_of_mem _ hd, hstrays⟩

theorem strays_branches : ∀ {first : Code × Code} {rest : List (Code × Code)},
    straysBranches (branches first rest) = true →
      ∃ q ∈ first :: rest, q.1.strays = true ∨ q.2.strays = true
  | first, [], h => by
    rw [branches, straysBranches, Bool.or_eq_true] at h
    exact ⟨first, List.mem_cons_self, h⟩
  | first, second :: rest, h => by
    rw [branches, straysBranches, Bool.or_eq_true, Bool.or_eq_true] at h
    rcases h with h | h
    · exact ⟨first, List.mem_cons_self, h⟩
    · obtain ⟨q, hq, hstrays⟩ := strays_branches h
      exact ⟨q, List.mem_cons_of_mem _ hq, hstrays⟩

theorem strays_each {α : Type} {f : α → Code} : ∀ {as : List α}, (each f as).strays = true →
    ∃ a ∈ as, (f a).strays = true
  | [], h => by cases h
  | a :: rest, h => by
    rw [each, strays_append, Bool.or_eq_true] at h
    rcases h with ha | hrest
    · exact ⟨a, List.mem_cons_self, ha⟩
    · obtain ⟨b, hb, hstrays⟩ := strays_each hrest
      exact ⟨b, List.mem_cons_of_mem _ hb, hstrays⟩

end Code

/-! ## Where a stray `continue` comes from -/

/-- One of the trees has a `continue` that no loop below it repeats. -/
def StrayIn (trees : List ExpressionTree) : Prop :=
  ∃ e ∈ trees, ContinueBelow ExpressionTree.unrepeated e

namespace StrayIn

variable {xs ys : List ExpressionTree}

theorem single {e : ExpressionTree} (h : ContinueBelow ExpressionTree.unrepeated e) :
    StrayIn [e] := ⟨e, List.mem_cons_self, h⟩

theorem left (h : StrayIn xs) : StrayIn (xs ++ ys) := by
  obtain ⟨e, hmem, he⟩ := h
  exact ⟨e, List.mem_append_left _ hmem, he⟩

theorem right (h : StrayIn ys) : StrayIn (xs ++ ys) := by
  obtain ⟨e, hmem, he⟩ := h
  exact ⟨e, List.mem_append_right _ hmem, he⟩

theorem here {e : ExpressionTree} (h : ContinueBelow ExpressionTree.unrepeated e) :
    StrayIn (e :: xs) := ⟨e, List.mem_cons_self, h⟩

theorem there {e : ExpressionTree} (h : StrayIn xs) : StrayIn (e :: xs) := by
  obtain ⟨d, hmem, hd⟩ := h
  exact ⟨d, List.mem_cons_of_mem _ hmem, hd⟩

/-- The parts of a tree that is not a loop. -/
theorem inParts {e : ExpressionTree} (h : StrayIn e.unrepeated) :
    ContinueBelow ExpressionTree.unrepeated e := by
  obtain ⟨d, hmem, hd⟩ := h
  exact .inPart hmem hd

end StrayIn

theorem strays_identifier (id : Token) : (lowerIdentifier id).strays = false := by
  unfold lowerIdentifier
  split
  · rfl
  · split <;> rfl

theorem strays_argument (arg : Argument) : (lowerArgument arg).strays = false := by
  unfold lowerArgument
  split <;> rfl

theorem strays_unary (type : UnaryType) : (lowerUnary type).strays = false := by
  cases type <;> rfl

theorem strays_neg (token : Token) : (lowerNeg token).strays = false := by
  unfold lowerNeg
  split <;> rfl

mutual

theorem stray_lower : ∀ e : ExpressionTree, (lower e).strays = true →
    ContinueBelow ExpressionTree.unrepeated e
  | .identifier id, h => by
    rw [lower, strays_identifier] at h
    cases h
  | .constant _, h => by rw [lower] at h; cases h
  | .stringLiteral _, h => by rw [lower] at h; cases h
  | .tupleExpression _ list, h => by
    simp only [lower, Code.strays_append, Code.strays_int, Bool.or_false] at h
    exact StrayIn.inParts (stray_tuple list h)
  | .arrayDeclaration _ none, h => by rw [lower] at h; cases h
  | .arrayDeclaration _ (some exp), h => by
    refine StrayIn.inParts (StrayIn.single ?_)
    have hexp := stray_lower exp
    cases exp with
    | tupleExpression _ list =>
      simp only [lower, Code.strays_append, Code.strays_int, Bool.or_false] at h
      exact StrayIn.inParts (stray_tuple list h)
    | _ => apply hexp; rw [lower] at h <;> simp_all
  | .mapDeclaration _ [], h => by simp [lower] at h
  | .mapDeclaration _ (entry :: rest), h => by
    simp only [lower, Code.strays_append, Code.strays_op, Code.strays_id, Bool.or_false,
      Bool.false_or, Bool.or_eq_true] at h
    exact StrayIn.inParts (stray_entries (entry :: rest) (by
      rw [lowerEntries, Code.strays_append, Bool.or_eq_true]
      exact h))
  | .primaryExpression exp, h => by
    rw [lower] at h
    exact StrayIn.inParts (.single (stray_lower exp h))
  | .primaryExpressionNoConstants exp, h => by
    rw [lower] at h
    exact StrayIn.inParts (.single (stray_lower exp h))
  | .postfixExpression base suffixes, h => by
    rw [lower, Code.strays_append, Bool.or_eq_true] at h
    rcases h with h | h
    · exact StrayIn.inParts (.here (stray_lower base h))
    · exact StrayIn.inParts (.there (stray_postfixes suffixes h))
  | .rangeExpression _ start none stop, h => by
    simp only [lower, Code.strays_append, Code.strays_op, Code.strays_id, Code.strays_int,
      Code.strays_nil, Bool.or_false, Bool.false_or, Bool.or_eq_true] at h
    rcases h with h | h
    · exact StrayIn.inParts (.there (.here (stray_lower stop h)))
    · exact StrayIn.inParts (.here (stray_lower start h))
  | .rangeExpression _ start (some inc) stop, h => by
    simp only [lower, Code.strays_append, Code.strays_op, Code.strays_id, Code.strays_int,
      Bool.or_false, Bool.false_or, Bool.or_eq_true] at h
    rcases h with (h | h) | h
    · exact StrayIn.inParts (.there (.there (.here (stray_lower inc h))))
    · exact StrayIn.inParts (.there (.here (stray_lower stop h)))
    · exact StrayIn.inParts (.here (stray_lower start h))
  | .unaryExpression _ type exp, h => by
    refine StrayIn.inParts (.single ?_)
    have hexp := stray_lower exp
    have hunary := strays_unary type
    cases type with
    | negate =>
      cases exp with
      | constant token =>
        rw [lower, strays_neg] at h
        cases h
      | _ => apply hexp; rw [lower] at h <;> simp_all
    | _ => apply hexp; rw [lower] at h <;> simp_all
  | .biExpression _ exp suffixes, h => by
    rw [lower, Code.strays_append, Bool.or_eq_true] at h
    rcases h with h | h
    · exact StrayIn.inParts (.here (stray_lower exp h))
    · exact StrayIn.inParts (.there (stray_biSuffixes suffixes h))
  | .andExpression exp suffixes, h => by
    rw [lower, Code.strays_append, Bool.or_eq_true] at h
    rcases h with h | h
    · exact StrayIn.inParts (.here (stray_lower exp h))
    · obtain ⟨c, hc, hstrays⟩ := Code.strays_chain .IFN h
      exact StrayIn.inParts (.there (stray_suffixes suffixes c hc hstrays))
  | .orExpression exp suffixes, h => by
    rw [lower, Code.strays_append, Bool.or_eq_true] at h
    rcases h with h | h
    · exact StrayIn.inParts (.here (stray_lower exp h))
    · obtain ⟨c, hc, hstrays⟩ := Code.strays_chain .IF h
      exact StrayIn.inParts (.there (stray_suffixes suffixes c hc hstrays))
  | .inExpression _ isNot element collection, h => by
    have hparts : (lower collection).strays = true ∨ (lower element).strays = true := by
      cases isNot <;>
        simpa only [lower, Code.strays_append, Code.strays_op, Code.strays_id, Code.strays_nil,
          Bool.false_eq_true, if_true, if_false, Bool.or_false, Bool.or_eq_true] using h
    rcases hparts with h | h
    · exact StrayIn.inParts (.there (.here (stray_lower collection h)))
    · exact StrayIn.inParts (.here (stray_lower element h))
  | .isExpression _ exp type, h => by
    simp only [lower, Code.strays_append, Code.strays_op, Bool.or_false, Bool.or_eq_true] at h
    rcases h with h | h
    · exact StrayIn.inParts (.here (stray_lower exp h))
    · exact StrayIn.inParts (.there (.here (stray_lower type h)))
  | .conditionalExpression ifElse, h => by
    rw [lower] at h
    exact StrayIn.inParts (stray_ifElse ifElse h)
  | .anonFunctionDefinition func, h => by
    rw [lower] at h
    exact StrayIn.inParts (stray_anonFunction func h)
  | .assignmentExpression _ assignment rhs, h => by
    rw [lower, Code.strays_append, Bool.or_eq_true] at h
    rcases h with h | h
    · exact StrayIn.inParts (.here (stray_lower rhs h))
    · exact StrayIn.inParts (.there (stray_assignment assignment h))
  | .foreachStatement _ _ _ iterable _, h => by
    rw [lower, Code.strays] at h
    exact StrayIn.inParts (.single (stray_lower iterable h))
  | .forStatement _ init condition _ _, h => by
    rw [lower, Code.strays, Bool.or_eq_true] at h
    rcases h with h | h
    · exact StrayIn.inParts (.here (stray_lower init h))
    · exact StrayIn.inParts (.there (.here (stray_lower condition h)))
  | .whileStatement _ condition _, h => by
    rw [lower, Code.strays] at h
    exact StrayIn.inParts (.single (stray_lower condition h))
  | .compoundStatement expressions, h => by
    rw [lower] at h
    exact StrayIn.inParts (stray_statements expressions h)
  | .tryStatement _ _ tryBody errorAssignmentLhs catchBody, h => by
    simp only [lower, Code.strays, Bool.or_eq_true] at h
    rcases h with (h | h) | h
    · exact StrayIn.inParts (.here (stray_lower tryBody h))
    · exact StrayIn.inParts (.there (.there (stray_assignment errorAssignmentLhs h)))
    · exact StrayIn.inParts (.there (.here (stray_lower catchBody h)))
  | .raiseStatement _ exp, h => by
    simp only [lower, Code.strays_append, Code.strays_op, Bool.or_false] at h
    exact StrayIn.inParts (.single (stray_lower exp h))
  | .selectionStatement ifElse, h => by
    rw [lower] at h
    exact StrayIn.inParts (stray_ifElse ifElse h)
  | .jumpStatement _ none, h => by simp [lower] at h
  | .jumpStatement _ (some exp), h => by
    simp only [lower, Code.strays_append, Code.strays_op, Bool.or_false] at h
    exact StrayIn.inParts (.single (stray_lower exp h))
  | .breakStatement token .break, h => by rw [lower] at h; cases h
  | .breakStatement token .continue, _ => .here token
  | .exitStatement _, h => by rw [lower] at h; cases h

theorem stray_tuple : ∀ list : List ExpressionTree, (lowerTuple list).strays = true → StrayIn list
  | [], h => by rw [lowerTuple] at h; cases h
  | elt :: rest, h => by
    simp only [lowerTuple, Code.strays_append, Code.strays_op, Bool.or_false, Bool.or_eq_true] at h
    rcases h with h | h
    · exact .there (stray_tuple rest h)
    · exact .here (stray_lower elt h)

theorem stray_statements : ∀ trees : List ExpressionTree, (lowerStatements trees).strays = true →
    StrayIn trees
  | [], h => by rw [lowerStatements] at h; cases h
  | tree :: rest, h => by
    rw [lowerStatements, Code.strays_append, Bool.or_eq_true] at h
    rcases h with h | h
    · exact .here (stray_lower tree h)
    · exact .there (stray_statements rest h)

theorem stray_entry : ∀ entry : MapDecEntry, (lowerEntry entry).strays = true →
    StrayIn [entry.lhs, entry.rhs]
  | ⟨_, lhs, rhs⟩, h => by
    simp only [lowerEntry, Code.strays_append, Code.strays_op, Code.strays_id, Code.strays_int,
      Bool.or_false, Bool.false_or, Bool.or_eq_true] at h
    rcases h with h | h
    · exact .there (.here (stray_lower rhs h))
    · exact .here (stray_lower lhs h)

theorem stray_entries : ∀ entries : List MapDecEntry, (lowerEntries entries).strays = true →
    StrayIn (entries.flatMap fun entry => [entry.lhs, entry.rhs])
  | [], h => by rw [lowerEntries] at h; cases h
  | entry :: rest, h => by
    rw [lowerEntries, Code.strays_append, Bool.or_eq_true] at h
    rw [List.flatMap_cons]
    rcases h with h | h
    · exact .left (stray_entry entry h)
    · exact .right (stray_entries rest h)

theorem stray_callArgs : ∀ (exp : Option ExpressionTree) (call : Op → Code),
    (∀ op, (call op).strays = false) → (lowerCallArgs exp call).strays = true → StrayIn exp.toList
  | none, call, hcall, h => by
    rw [lowerCallArgs, hcall] at h
    cases h
  | some exp, call, hcall, h => by
    rw [lowerCallArgs, Code.strays_append, hcall, Bool.or_false] at h
    exact .single (stray_lower exp h)

theorem stray_postfixes : ∀ suffixes : List Postfix, (lowerPostfixes suffixes).strays = true →
    StrayIn (suffixes.flatMap Postfix.parts)
  | [], h => by rw [lowerPostfixes] at h; cases h
  | .fncall _ exp :: rest, h => by
    simp only [lowerPostfixes, Code.strays_append, Code.strays_op, Bool.false_or,
      Bool.or_eq_true] at h
    rw [List.flatMap_cons]
    rcases h with h | h
    · exact .left (stray_callArgs exp opCode (fun _ => rfl) h)
    · exact .right (stray_postfixes rest h)
  | .arrayIndex _ exp :: rest, h => by
    simp only [lowerPostfixes, Code.strays_append, Code.strays_op, Bool.false_or, Bool.or_false,
      Bool.or_eq_true] at h
    rw [List.flatMap_cons]
    rcases h with h | h
    · exact .left (.single (stray_lower exp h))
    · exact .right (stray_postfixes rest h)
  | .field _ id :: [], h => by simp [lowerPostfixes] at h
  | .field _ id :: suffix :: rest, h => by
    have hget := stray_postfixes (suffix :: rest)
    have hrest := stray_postfixes rest
    rw [List.flatMap_cons]
    apply StrayIn.right
    cases suffix with
    | fncall _ exp =>
      simp only [lowerPostfixes, Code.strays_append, Code.strays_op, Bool.false_or,
        Bool.or_eq_true] at h
      rw [List.flatMap_cons]
      rcases h with h | h
      · exact .left (stray_callArgs exp _ (fun _ => rfl) h)
      · exact .right (hrest h)
    | _ => apply hget; rw [lowerPostfixes] at h <;> simp_all
  | .increment _ :: rest, h => by
    rw [lowerPostfixes] at h
    exact stray_postfixes rest h
  | .decrement _ :: rest, h => by
    rw [lowerPostfixes] at h
    exact stray_postfixes rest h
  | .none _ :: rest, h => by rw [lowerPostfixes] at h; cases h

theorem stray_biSuffixes : ∀ suffixes : List BiSuffix, (lowerBiSuffixes suffixes).strays = true →
    StrayIn (suffixes.map BiSuffix.exp)
  | [], h => by rw [lowerBiSuffixes] at h; cases h
  | ⟨_, type, exp⟩ :: rest, h => by
    rw [lowerBiSuffixes] at h
    cases hop : biToIns type with
    | none =>
      rw [hop] at h
      cases h
    | some op =>
      simp only [hop, Code.strays_append, Code.strays_op, Bool.false_or, Bool.or_false,
        Bool.or_eq_true] at h
      rcases h with h | h
      · exact .here (stray_lower exp h)
      · exact .there (stray_biSuffixes rest h)

theorem stray_suffixes : ∀ suffixes : List BiSuffix, ∀ c ∈ lowerSuffixes suffixes,
    c.strays = true → StrayIn (suffixes.map BiSuffix.exp)
  | [], c, hc, _ => by
    rw [lowerSuffixes] at hc
    cases hc
  | ⟨_, _, exp⟩ :: rest, c, hc, h => by
    rw [lowerSuffixes] at hc
    rcases List.mem_cons.mp hc with rfl | hc
    · exact .here (stray_lower exp h)
    · exact .there (stray_suffixes rest c hc h)

theorem stray_conditional : ∀ cond : Conditional,
    (lowerConditional cond).1.strays = true ∨ (lowerConditional cond).2.strays = true →
      StrayIn cond.parts
  | ⟨_, condition, body⟩, h => by
    rw [lowerConditional] at h
    rcases h with h | h
    · exact .here (stray_lower condition h)
    · exact .there (.here (stray_lower body h))

theorem stray_conditionals : ∀ conds : List Conditional, ∀ q ∈ lowerConditionals conds,
    q.1.strays = true ∨ q.2.strays = true → StrayIn (conds.flatMap Conditional.parts)
  | [], q, hq, _ => by
    rw [lowerConditionals] at hq
    cases hq
  | cond :: rest, q, hq, h => by
    rw [lowerConditionals] at hq
    rw [List.flatMap_cons]
    rcases List.mem_cons.mp hq with rfl | hq
    · exact .left (stray_conditional cond h)
    · exact .right (stray_conditionals rest q hq h)

theorem stray_ifElse : ∀ ifElse : IfElse, (lowerIfElse ifElse).strays = true → StrayIn ifElse.parts
  | ⟨first, rest, elseExp⟩, h => by
    have hbranches : Code.straysBranches
        (Code.branches (lowerConditional first) (lowerConditionals rest)) = true →
          StrayIn (first.parts ++ rest.flatMap Conditional.parts) := by
      intro h
      obtain ⟨q, hq, hstrays⟩ := Code.strays_branches h
      rcases List.mem_cons.mp hq with rfl | hq
      · exact .left (stray_conditional first hstrays)
      · exact .right (stray_conditionals rest q hq hstrays)
    cases elseExp with
    | none =>
      rw [lowerIfElse, Code.strays] at h
      exact .left (hbranches h)
    | some e =>
      rw [lowerIfElse, Code.strays, Bool.or_eq_true] at h
      rcases h with h | h
      · exact .left (hbranches h)
      · exact .right (.single (stray_lower e h))

theorem stray_tupleArgument (i : Nat) (isLast : Bool) : ∀ arg : Argument,
    (lowerTupleArgument i isLast arg).strays = true → StrayIn arg.parts
  | ⟨isConst, isField, argName, some value⟩, h => by
    simp only [lowerTupleArgument, Code.strays_append, Code.strays, Code.strays_op,
      Code.strays_int, strays_argument, Bool.false_or, Bool.or_false] at h
    exact .single (stray_lower value h)
  | ⟨isConst, isField, argName, none⟩, h => by
    simp [lowerTupleArgument, strays_argument] at h

theorem stray_allArguments : ∀ (i : Nat) (args : List Argument),
    (lowerAllArguments i args).strays = true → StrayIn (args.flatMap Argument.parts)
  | i, [], h => by rw [lowerAllArguments] at h; cases h
  | i, arg :: rest, h => by
    rw [lowerAllArguments, Code.strays_append, Bool.or_eq_true] at h
    rw [List.flatMap_cons]
    rcases h with h | h
    · exact .left (stray_tupleArgument i _ arg h)
    · exact .right (stray_allArguments (i + 1) rest h)

theorem stray_default : ∀ arg : Argument, (lowerDefault arg).strays = true → StrayIn arg.parts
  | ⟨isConst, isField, argName, some value⟩, h => by
    rw [lowerDefault, Code.strays_append, strays_argument, Bool.or_false] at h
    exact .single (stray_lower value h)
  | ⟨isConst, isField, argName, none⟩, h => by
    simp [lowerDefault, strays_argument] at h

theorem stray_defaults : ∀ args : List Argument, (lowerDefaults args).strays = true →
    StrayIn (args.flatMap Argument.parts)
  | [], h => by rw [lowerDefaults] at h; cases h
  | arg :: rest, h => by
    rw [lowerDefaults, Code.strays_append, Bool.or_eq_true] at h
    rw [List.flatMap_cons]
    rcases h with h | h
    · exact .left (stray_default arg h)
    · exact .right (stray_defaults rest h)

theorem stray_onlyArgument : ∀ arg : Argument, (lowerOnlyArgument arg).strays = true →
    StrayIn arg.parts
  | ⟨isConst, isField, argName, some value⟩, h => by
    simp only [lowerOnlyArgument, Code.strays_append, Code.strays, Code.strays_op,
      Code.strays_int, strays_argument, Bool.false_or, Bool.or_false] at h
    exact .single (stray_lower value h)
  | ⟨isConst, isField, argName, none⟩, h => by
    rw [lowerOnlyArgument, strays_argument] at h
    cases h

theorem stray_arguments : ∀ args : Arguments, (lowerArguments args).strays = true →
    StrayIn args.parts
  | ⟨_, first, []⟩, h => by
    rw [lowerArguments] at h
    exact .left (stray_onlyArgument first h)
  | ⟨_, first, second :: rest⟩, h => by
    have hdefaults := stray_defaults (second :: rest)
    have hfirst := stray_tupleArgument 0 (second :: rest).isEmpty first
    have hrest := stray_allArguments 1 (second :: rest)
    rw [lowerArguments] at h
    · simp only [Code.strays_append, Code.strays, Code.strays_op, Code.strays_int,
        strays_argument, Bool.false_or, Bool.or_false, Bool.or_eq_true] at h
      rcases h with h | h | h
      · exact .right (hdefaults h)
      · exact .left (hfirst h)
      · exact .right (hrest h)
    · simp

theorem stray_anonFunction : ∀ func : FunctionDef, (lowerAnonFunction func).strays = true →
    StrayIn func.parts
  | ⟨_, _, _, _, some args, body⟩, h => by
    simp only [lowerAnonFunction, Code.strays_append, Code.strays, Code.strays_op,
      Code.strays_id, Bool.or_false, Bool.or_eq_true] at h
    rcases h with h | h
    · exact .left (stray_arguments args h)
    · exact .right (.single (stray_lower body h))
  | ⟨_, _, _, _, none, body⟩, h => by
    simp only [lowerAnonFunction, Code.strays_append, Code.strays, Code.strays_op,
      Code.strays_id, Bool.or_false] at h
    exact .right (.single (stray_lower body h))

theorem stray_assignment : ∀ assignment : Assignment, (lowerAssignment assignment).strays = true →
    StrayIn assignment.parts
  | .var _ _, h => by rw [lowerAssignment] at h; cases h
  | .complex prefixExp suffixes, h => by
    simp only [lowerAssignment, Code.strays_append, Code.strays_op, Bool.false_or,
      Bool.or_eq_true] at h
    rw [Assignment.parts]
    rcases h with h | h
    · exact .here (stray_lower prefixExp h)
    · exact .there (stray_setSuffixes suffixes h)
  | .multi _ subargs, h => by
    simp only [lowerAssignment, Code.strays_append, Code.strays_op, Bool.false_or] at h
    rw [Assignment.parts]
    exact stray_subargs _ 0 subargs h

theorem stray_setSuffixes : ∀ suffixes : List Postfix, (lowerSetSuffixes suffixes).strays = true →
    StrayIn (suffixes.flatMap Postfix.parts)
  | [], h => by rw [lowerSetSuffixes] at h; cases h
  | .fncall _ exp :: rest, h => by
    simp only [lowerSetSuffixes, Code.strays_append, Code.strays_op, Bool.false_or,
      Bool.or_eq_true] at h
    rw [List.flatMap_cons]
    rcases h with h | h
    · exact .left (stray_callArgs exp opCode (fun _ => rfl) h)
    · exact .right (stray_setSuffixes rest h)
  | .arrayIndex _ exp :: rest, h => by
    have hrest := stray_setSuffixes rest
    rw [lowerSetSuffixes] at h
    rw [List.flatMap_cons]
    have hparts : (lower exp).strays = true ∨ (lowerSetSuffixes rest).strays = true := by
      split at h <;> simp_all
    rcases hparts with h | h
    · exact .left (.single (stray_lower exp h))
    · exact .right (hrest h)
  | .field _ id :: [], h => by simp [lowerSetSuffixes] at h
  | .field _ id :: [suffix], h => by
    have hget := stray_setSuffixes [suffix]
    rw [List.flatMap_cons]
    apply StrayIn.right
    apply hget
    cases suffix <;> rw [lowerSetSuffixes] at h <;> simp_all
  | .field _ id :: suffix :: next :: rest, h => by
    have hget := stray_setSuffixes (suffix :: next :: rest)
    have hrest := stray_setSuffixes (next :: rest)
    rw [List.flatMap_cons]
    apply StrayIn.right
    cases suffix with
    | fncall _ exp =>
      simp only [lowerSetSuffixes, Code.strays_append, Code.strays_op, Bool.false_or,
        Bool.or_eq_true] at h
      rw [List.flatMap_cons]
      rcases h with h | h
      · exact .left (stray_callArgs exp _ (fun _ => rfl) h)
      · exact .right (hrest h)
    | _ => apply hget; rw [lowerSetSuffixes] at h <;> simp_all
  | .increment _ :: rest, h => by
    rw [lowerSetSuffixes] at h
    exact stray_setSuffixes rest h
  | .decrement _ :: rest, h => by
    rw [lowerSetSuffixes] at h
    exact stray_setSuffixes rest h
  | .none _ :: rest, h => by rw [lowerSetSuffixes] at h; cases h

theorem stray_subargs (len : Nat) : ∀ (i : Nat) (subargs : List Assignment),
    (lowerSubargs len i subargs).strays = true → StrayIn (subargParts subargs)
  | i, [], h => by rw [lowerSubargs] at h; cases h
  | i, assign :: rest, h => by
    simp only [lowerSubargs, Code.strays_append, Code.strays_op, Code.strays_int, Bool.false_or,
      Bool.or_eq_true] at h
    rw [subargParts]
    rcases h with h | h
    · exact .left (stray_assignment assign h)
    · exact .right (stray_subargs len (i + 1) rest h)

end

/-! ## Files -/

theorem StrayIn.flatMap {α : Type} {f : α → List ExpressionTree} {as : List α} {a : α}
    (ha : a ∈ as) (h : StrayIn (f a)) : StrayIn (as.flatMap f) := by
  obtain ⟨e, hmem, he⟩ := h
  exact ⟨e, List.mem_flatMap.mpr ⟨a, ha, hmem⟩, he⟩

theorem stray_functionParts (func : FunctionDef) (h : (lowerOptArguments func.args).strays = true ∨
    (lower func.body).strays = true) : StrayIn func.parts := by
  unfold FunctionDef.parts
  rcases h with h | h
  · apply StrayIn.left
    cases hargs : func.args with
    | none =>
      rw [hargs] at h
      cases h
    | some args =>
      rw [hargs] at h
      exact stray_arguments args h
  · exact .right (.single (stray_lower func.body h))

theorem stray_function (func : FunctionDef) (h : (lowerFunction func).strays = true) :
    StrayIn func.parts := by
  simp only [lowerFunction, Code.strays_append, Code.strays_op, Bool.or_false,
    Bool.or_eq_true] at h
  exact stray_functionParts func h

theorem strays_fields (cls : ClassDef) : (lowerFields cls).strays = false := by
  have heach : ∀ fields, (Code.each lowerField fields).strays = false := by
    intro fields
    by_contra h
    obtain ⟨field, -, hstrays⟩ := Code.strays_each (Bool.eq_true_of_not_eq_false h)
    cases hstrays
  unfold lowerFields
  cases cls.fields with
  | nil => rfl
  | cons f fields => simp [heach]

theorem stray_class (cls : ClassDef) (h : (lowerClass cls).strays = true) :
    StrayIn (cls.functions.flatMap FunctionDef.parts) := by
  unfold lowerClass at h
  rw [Code.strays_append, Bool.or_eq_true] at h
  unfold ClassDef.functions
  rw [List.flatMap_append]
  rcases h with h | h
  · apply StrayIn.left
    split at h
    · unfold lowerConstructor at h
      cases hconstructor : cls.constructor with
      | none => simp [hconstructor, strays_fields] at h
      | some func =>
        simp only [hconstructor, Code.strays_append, Code.strays_op, Code.strays_id, strays_fields,
          Bool.or_false, Bool.false_or, Bool.or_eq_true] at h
        exact .flatMap (List.mem_singleton.mpr rfl) (stray_functionParts func h)
    · cases h
  · obtain ⟨func, hfunc, hstrays⟩ := Code.strays_each h
    exact .right (.flatMap hfunc (stray_function func hstrays))

theorem stray_annotated (cls : ClassDef) (h : (lowerAnnotated cls).strays = true) :
    StrayIn (cls.annot.bind Annotation.argsTuple).toList := by
  unfold lowerAnnotated at h
  cases hannot : cls.annot with
  | none =>
    rw [hannot] at h
    cases h
  | some annot =>
    obtain ⟨annotPrefix, className, argsTuple⟩ := annot
    rw [hannot] at h
    cases argsTuple with
    | none => cases annotPrefix <;> simp [lowerAnnot] at h
    | some args =>
      have hargs : (lower args).strays = true := by
        cases annotPrefix <;> simpa [lowerAnnot] using h
      exact .single (stray_lower args hargs)

theorem strays_super (cls : ClassDef) : (lowerSuper cls).strays = false := by
  unfold lowerSuper
  cases cls.parentClasses <;> rfl

theorem stray_moduleDef (module : ModuleDef) (h : (lowerModuleDef module).strays = true) :
    StrayIn module.parts := by
  simp only [lowerModuleDef, Code.strays_append, Code.strays_int, Bool.or_false,
    Bool.or_eq_true] at h
  unfold ModuleDef.parts
  rcases h with ((((h | h) | h) | h) | h) | h
  · obtain ⟨moduleName, -, hstrays⟩ := Code.strays_each h
    cases hstrays
  · obtain ⟨cls, hcls, hstrays⟩ := Code.strays_each h
    exact .left (.left (.left (.flatMap hcls (stray_annotated cls hstrays))))
  · obtain ⟨cls, -, hstrays⟩ := Code.strays_each h
    cases (strays_super cls).symm.trans hstrays
  · obtain ⟨statement, hstatement, hstrays⟩ := Code.strays_each h
    exact .left (.left (.right ⟨statement, hstatement, stray_lower statement hstrays⟩))
  · obtain ⟨cls, hcls, hstrays⟩ := Code.strays_each h
    exact .left (.right (.flatMap hcls (stray_class cls hstrays)))
  · obtain ⟨func, hfunc, hstrays⟩ := Code.strays_each h
    exact .right (.flatMap hfunc (stray_function func hstrays))

theorem stray_tree : ∀ tree : RegisteredTree, (lowerTree tree).strays = true →
    tree.ContinueBelow ExpressionTree.unrepeated
  | .expression e => stray_lower e
  | .fileLevelStatementList module => stray_moduleDef module

end JeffVm
