import JeffVm.Formulas

/-!
# Files of formulas

A file whose lines assign formulas to names, from its text to the end of the process: the names
have then the integers that the lines give them one after the other, where no part of a formula
leaves the range of `int32_t`.
-/

set_option autoImplicit false

namespace JeffVm

open Backtracking

/-! ## The trees of a file -/

section Populators

variable (populateClass : SyntaxTree → Option ClassDef)
  (populateAnnot : SyntaxTree → Option Annotation)
  (populateFunction : SyntaxTree → Option FunctionDef)
  (populateExpression : SyntaxTree → Option ExpressionTree)

def populateFiStatement (stree : SyntaxTree) (module : ModuleDef) : Option ModuleDef :=
  if stree.isSyntax .moduleStatement then
    match module.name, stree with
    | none, .node (.leaf moduleToken _) (.leaf moduleName _) _ =>
      some { module with name := some ⟨moduleToken, moduleName⟩ }
    | _, _ => none
  else if stree.isSyntax .importStatement then
    match stree with
    | .node _ second _ =>
      if second.isSyntax .identifier then
        match second with
        | .leaf moduleName _ => some { module with imports := module.imports ++ [moduleName] }
        | _ => none
      else none
    | _ => none
  else if stree.isSyntax .classDefinitionNoAnnotationSyntax then do
    let cls ← populateClass stree
    some { module with classes := module.classes ++ [cls] }
  else if stree.isSyntax .classDefinitionWithAnnotationSyntax then
    match stree with
    | .node first second _ => do
      let cls ← populateClass second
      let annot ← populateAnnot first
      some { module with classes := module.classes ++ [{ cls with annot := some annot }] }
    | _ => none
  else if stree.isSyntax .functionDefinition then do
    let func ← populateFunction stree
    some { module with functions := module.functions ++ [func] }
  else do
    let etree ← populateExpression stree
    some { module with statements := module.statements ++ [etree] }

/-- The loop of `populate_module_def`. -/
def populateFiStatements : SyntaxTree → ModuleDef → Option ModuleDef
  | .node first second (some .fileLevelStatementList1), module => do
    let module ← populateFiStatement populateClass populateAnnot populateFunction
      populateExpression first module
    populateFiStatements second module
  | cur, module =>
    if cur.isSyntax .fileLevelStatementList1 then none
    else populateFiStatement populateClass populateAnnot populateFunction populateExpression cur
      module

def populateModuleDef : SyntaxTree → Option ModuleDef
  | .node first second _ => do
    let module ← populateFiStatement populateClass populateAnnot populateFunction
      populateExpression first ⟨none, [], [], [], []⟩
    populateFiStatements populateClass populateAnnot populateFunction populateExpression second
      module
  | _ => none

end Populators

/-! ## Lines -/

section Lines

variable {u after : List Token} {e : ExpressionTree} {t : SyntaxTree} {x eq endline : Token}

def assignmentTree (x eq : Token) (t : SyntaxTree) : SyntaxTree :=
  .node (.leaf x (some .identifier)) (.node (.leaf eq none) t none) (some .assignmentExpression)

theorem parses_assignment (hx : x.type = .WORD) (heq : eq.type = .EQUALS)
    (h : ReadsAs .conditionalExpression u e t) (hends : EndsAt .conditionalExpression after) :
    Rule.assignmentExpression.Parses (x :: eq :: (u ++ after)) (some (assignmentTree x eq t))
      after := by
  have hlhs : Rule.assignmentLhs.Parses (x :: eq :: (u ++ after)) (some (.leaf x (some .identifier)))
      (eq :: (u ++ after)) := by
    apply lhs_name hx
    intro next hnext
    cases hnext
    rw [heq]
    decide
  have hrhs : Matches parserRules syntaxBuilder
      (.and2 (typeLn .EQUALS) (.rule .conditionalExpression)) (eq :: (u ++ after))
      (some (.node (.leaf eq none) t none)) after :=
    .and2 (typeLn_reads heq (h.not_line after)) (h.parses after hends)
      (merge_of_solid after (not_blank_leaf (by rw [heq]; decide)) (h.solid (by decide)))
  exact parses_of_body (p := .assignmentExpression) (.or2_left (.and2 hlhs hrhs
    (merge_of_solid after (hlhs.solid (by decide)) not_blank_node)))

/-- The last alternative, where none of the others begins with the token. -/
theorem matches_last {others : List (Exp TokenType Rule)} {last : Exp TokenType Rule} {token : Token}
    {q rest : List Token} {m : Option SyntaxTree}
    (hothers : ∀ e ∈ others, e.accepts Rule.body token.type 120 = false)
    (hlast : Matches parserRules syntaxBuilder last (token :: q) m rest) :
    Matches parserRules syntaxBuilder (.or (others ++ [last])) (token :: q) m rest := by
  induction others with
  | nil => exact hlast
  | cons e others ih =>
    obtain ⟨he, hothers⟩ := List.forall_mem_cons.mp hothers
    rw [List.cons_append, exp_or_cons _ (by simp)]
    exact .or2_right (Matches.reject 120 he) (ih hothers)

/-- The alternatives in front of `expression_statement`. -/
def otherStatements : List (Exp TokenType Rule) :=
  [.rule .exitStatement, .rule .raiseStatement, .rule .tryStatement, .rule .selectionStatement,
    .rule .compoundStatement, .rule .iterationStatement, .rule .jumpStatement, .rule .breakStatement]

/-- The alternatives in front of `statement`. -/
def otherFileStatements : List (Exp TokenType Rule) :=
  [.rule .moduleStatement, .rule .importStatement, .rule .classDefinition, .rule .functionDefinition]

/-- A line with an assignment is a statement of the file. -/
theorem parses_line (hx : x.type = .WORD) (heq : eq.type = .EQUALS)
    (h : ReadsAs .conditionalExpression u e t) (hline : endline.type = .ENDLINE)
    (hafter : ∀ next ∈ after.head?, next.type ≠ .PERIOD) :
    Rule.fileLevelStatement.Parses (x :: eq :: (u ++ endline :: after))
      (some (assignmentTree x eq t)) after := by
  have hassignment := parses_assignment hx heq h (ends_line hline hafter)
  have hend : Rule.tupleExpression1.Parses (endline :: after)
      (some (.epsilon (some .tupleExpression1))) (endline :: after) := by
    refine parses_of_body (p := .tupleExpression1) (m := some (.epsilon none))
      (.or2_right (.and2_fail (typeLn_fail ?_)) .epsilon)
    intro next hnext
    cases hnext
    rw [hline]
    decide
  have htuple : Rule.tupleExpression.Parses (x :: eq :: (u ++ endline :: after))
      (some (assignmentTree x eq t)) (endline :: after) :=
    parses_named (merge_absent hassignment hend) rfl
  have hmerge : matchMerge (assignmentTree x eq t) (some (.leaf endline none)) after =
      (some (assignmentTree x eq t), after) := by
    simp [matchMerge, SyntaxTree.isEpsilon, SyntaxTree.isNewline, assignmentTree, hline]
  have hexpression : Rule.expressionStatement.Parses (x :: eq :: (u ++ endline :: after))
      (some (assignmentTree x eq t)) after :=
    parses_named (.and2 htuple (matches_opt.mpr (.inl ⟨_, .type hline, rfl⟩)) hmerge) rfl
  have hstatement : Rule.statement.Parses (x :: eq :: (u ++ endline :: after))
      (some (assignmentTree x eq t)) after := by
    have hothers : ∀ e ∈ otherStatements, e.accepts Rule.body x.type 120 = false := by
      rw [hx]
      decide
    have hbody : Matches parserRules syntaxBuilder Rule.statement.body
        (x :: eq :: (u ++ endline :: after)) (some (assignmentTree x eq t)) after :=
      matches_last hothers hexpression
    exact parses_named hbody rfl
  have hothers : ∀ e ∈ otherFileStatements, e.accepts Rule.body x.type 120 = false := by
    rw [hx]
    decide
  have hbody : Matches parserRules syntaxBuilder Rule.fileLevelStatement.body
      (x :: eq :: (u ++ endline :: after)) (some (assignmentTree x eq t)) after :=
    matches_last hothers hstatement
  exact parses_named hbody rfl

end Lines

/-- A line of the file: its tokens, up to the newline, and its tree. -/
structure ReadLine where
  tokens : List Token
  tree : SyntaxTree
  exp : ExpressionTree

/-- The line is read in front of anything that begins with no period. -/
structure ReadLine.Good (line : ReadLine) : Prop where
  parses : ∀ after : List Token, (∀ next ∈ after.head?, next.type ≠ .PERIOD) →
    Rule.fileLevelStatement.Parses (line.tokens ++ after) (some line.tree) after
  name : line.tree.expression = some .assignmentExpression
  head : ∃ x rest, line.tokens = x :: rest ∧ x.type = .WORD
  populates : ∃ n, ∀ k, n ≤ k → populateExpression k line.tree = some line.exp

/-- The tree of the lines behind the first one. -/
def linesTree : SyntaxTree → List SyntaxTree → SyntaxTree
  | t, [] => t
  | t, t' :: rest => .node t (linesTree t' rest) (some .fileLevelStatementList1)

section Lists

variable {first line : ReadLine} {rest : List ReadLine}

theorem head_lines (h : ∀ line ∈ rest, line.Good) :
    ∀ next ∈ (rest.flatMap ReadLine.tokens).head?, next.type ≠ .PERIOD := by
  intro next hnext
  cases rest with
  | nil => cases hnext
  | cons line rest =>
    obtain ⟨x, behind, hx, hword⟩ := (h line List.mem_cons_self).head
    rw [List.flatMap_cons, hx] at hnext
    cases hnext
    rw [hword]
    decide

theorem list1_nil : Rule.fileLevelStatementList1.Parses []
    (some (.epsilon (some .fileLevelStatementList1))) [] := by
  have hrejects : (Exp.rule Rule.fileLevelStatement).accepts Rule.body TokenType.ENDLINE 120 =
      false := by decide
  exact parses_of_body (p := .fileLevelStatementList1) (m := some (.epsilon none))
    (.or2_right (.and2_fail (Matches.reject_nil 120 hrejects)) .epsilon)

theorem solid_linesTree (h : line.Good) :
    ¬ (linesTree line.tree (rest.map ReadLine.tree)).Blank := by
  cases rest with
  | nil => exact (h.parses [] (by simp)).solid (by decide)
  | cons line' rest => exact not_blank_node

theorem list1_lines (hline : line.Good) (h : ∀ line ∈ rest, line.Good) :
    Rule.fileLevelStatementList1.Parses (line.tokens ++ rest.flatMap ReadLine.tokens)
      (some (linesTree line.tree (rest.map ReadLine.tree))) [] := by
  induction rest generalizing line with
  | nil =>
    have hparses := hline.parses [] (by simp)
    have hbody : Matches parserRules syntaxBuilder Rule.fileLevelStatementList1.body
        (line.tokens ++ []) (some line.tree) [] := .or2_left (merge_absent hparses list1_nil)
    have hnamed : line.tree.expression.isSome = true := by
      rw [hline.name]
      rfl
    exact parses_named hbody hnamed
  | cons line' rest ih =>
    have hrest := h line' List.mem_cons_self
    have hparses := hline.parses ((line' :: rest).flatMap ReadLine.tokens) (head_lines h)
    have hlist := ih hrest fun l hl => h l (List.mem_cons_of_mem _ hl)
    exact parses_of_body (p := .fileLevelStatementList1) (.or2_left (.and2 hparses hlist
      (merge_of_solid [] (hparses.solid (by decide)) (solid_linesTree hrest))))

/-- A file with more than one line. -/
theorem parses_lines (hfirst : first.Good) (hline : line.Good) (h : ∀ line ∈ rest, line.Good) :
    Rule.fileLevelStatementList.Parses ((first :: line :: rest).flatMap ReadLine.tokens)
      (some (.node first.tree (linesTree line.tree (rest.map ReadLine.tree))
        (some .fileLevelStatementList))) [] := by
  have hall : ∀ l ∈ line :: rest, l.Good := List.forall_mem_cons.mpr ⟨hline, h⟩
  have hparses := hfirst.parses ((line :: rest).flatMap ReadLine.tokens) (head_lines hall)
  have hlist := list1_lines hline h
  exact parses_of_body (p := .fileLevelStatementList) (.and2 hparses hlist
    (merge_of_solid [] (hparses.solid (by decide)) (solid_linesTree hline)))

end Lists

section Populating

variable {populateClass : SyntaxTree → Option ClassDef}
  {populateAnnot : SyntaxTree → Option Annotation}
  {populateFunction : SyntaxTree → Option FunctionDef} {first line : ReadLine}
  {rest : List ReadLine} {module : ModuleDef} {populate : SyntaxTree → Option ExpressionTree}

def ModuleDef.addStatements (module : ModuleDef) (trees : List ExpressionTree) : ModuleDef :=
  { module with statements := module.statements ++ trees }

theorem populateFiStatement_assignment {tree : SyntaxTree} {e : ExpressionTree}
    (hname : tree.expression = some .assignmentExpression) (h : populate tree = some e) :
    populateFiStatement populateClass populateAnnot populateFunction populate tree module =
      some (module.addStatements [e]) := by
  simp [populateFiStatement, SyntaxTree.isSyntax, hname, h, ModuleDef.addStatements]

theorem populateFiStatements_last {tree : SyntaxTree} {e : ExpressionTree}
    (hname : tree.expression = some .assignmentExpression) (h : populate tree = some e) :
    populateFiStatements populateClass populateAnnot populateFunction populate tree module =
      some (module.addStatements [e]) := by
  have hstatement := @populateFiStatement_assignment populateClass populateAnnot
    populateFunction module populate tree e hname h
  have hne : ∀ first second, tree = .node first second (some .fileLevelStatementList1) → False := by
    rintro first second rfl
    cases hname
  rw [populateFiStatements]
  · rw [hstatement, SyntaxTree.isSyntax, hname]
    rfl
  · exact hne

theorem addStatements_addStatements (trees trees' : List ExpressionTree) :
    (module.addStatements trees).addStatements trees' = module.addStatements (trees ++ trees') := by
  simp [ModuleDef.addStatements]

theorem populates_lines (hline : line.Good) (h : ∀ line ∈ rest, line.Good) :
    ∃ n, ∀ k, n ≤ k → ∀ module, populateFiStatements populateClass populateAnnot
      populateFunction (populateExpression k) (linesTree line.tree (rest.map ReadLine.tree)) module =
        some (module.addStatements (line.exp :: rest.map ReadLine.exp)) := by
  induction rest generalizing line with
  | nil =>
    obtain ⟨n, hn⟩ := hline.populates
    exact ⟨n, fun k hk module => populateFiStatements_last hline.name (hn k hk)⟩
  | cons line' rest ih =>
    obtain ⟨n, hn⟩ := hline.populates
    obtain ⟨n', hn'⟩ := ih (h line' List.mem_cons_self) fun l hl => h l (List.mem_cons_of_mem _ hl)
    refine ⟨max n n', fun k hk module => ?_⟩
    have hstatement := @populateFiStatement_assignment populateClass populateAnnot
      populateFunction module (populateExpression k) line.tree line.exp hline.name (hn k (by omega))
    have hrest := hn' k (by omega) (module.addStatements [line.exp])
    rw [addStatements_addStatements] at hrest
    rw [List.map_cons, linesTree, populateFiStatements, hstatement]
    exact hrest

/-- All lines are statements of the module. -/
theorem populates_module (hfirst : first.Good) (hline : line.Good) (h : ∀ line ∈ rest, line.Good) :
    ∃ n, ∀ k, n ≤ k → populateModuleDef populateClass populateAnnot populateFunction
      (populateExpression k) (.node first.tree (linesTree line.tree (rest.map ReadLine.tree))
        (some .fileLevelStatementList)) =
        some ⟨none, [], [], [], (first :: line :: rest).map ReadLine.exp⟩ := by
  obtain ⟨n, hn⟩ := hfirst.populates
  obtain ⟨n', hn'⟩ := @populates_lines populateClass populateAnnot populateFunction line rest
    hline h
  refine ⟨max n n', fun k hk => ?_⟩
  have hstatement := @populateFiStatement_assignment populateClass populateAnnot
    populateFunction ⟨none, [], [], [], []⟩ (populateExpression k) first.tree first.exp hfirst.name
    (hn k (by omega))
  have hrest := hn' k (by omega) (ModuleDef.addStatements ⟨none, [], [], [], []⟩ [first.exp])
  rw [populateModuleDef, hstatement]
  exact hrest

end Populating

/-! ## Programs of assignments -/

/-- `name = formula` -/
structure FormulaLine where
  name : String
  formula : Formula

def Formula.names : Formula → List String
  | number _ => []
  | name id => [id]
  | negate f => f.names
  | binary _ f g => f.names ++ g.names

/-- A name that a line can assign to and a formula can use. -/
structure IsVariable (id : String) : Prop where
  readable : isName id = true ∧ wordType id.toList = .WORD
  ne_self : id ≠ "self"
  ne_keyword : id ≠ trueKeyword ∧ id ≠ falseKeyword ∧ id ≠ nilKeyword

/-- Each formula uses only names that have been assigned. -/
def DefinedBefore : List String → List FormulaLine → Prop
  | _, [] => True
  | known, line :: rest =>
    (∀ id ∈ line.formula.names, id ∈ known) ∧ DefinedBefore (line.name :: known) rest

/-- The integers of the names after the lines. -/
def runLines (names : String → Int) : List FormulaLine → String → Int
  | [] => names
  | line :: rest => runLines (Function.update names line.name (line.formula.value names)) rest

/-- No formula leaves the range of `int32_t`. -/
def InRangeLines (names : String → Int) : List FormulaLine → Prop
  | [] => True
  | line :: rest => line.formula.InRange names ∧
    InRangeLines (Function.update names line.name (line.formula.value names)) rest

/-- The tree of the line, which there is code for. -/
inductive FormulaLine.Stands (line : FormulaLine) : ExpressionTree → Prop
  | intro {x eq : Token} {e : ExpressionTree} : x.kind = (.WORD, line.name) →
    line.formula.Stands e → line.Stands (.assignmentExpression eq (.var false x) e)

section Running

variable {env : Env} {routines : Routines} {c : ContextId} {line : FormulaLine} {e : ExpressionTree}
  {known : List String} {names : String → Int} {s : Store} {cs : Contexts} {m : Memory}

/-- The names have their integers in the members of the context. -/
def Holds (s : Store) (cs : Contexts) (c : ContextId) (known : List String)
    (names : String → Int) : Prop :=
  ∀ id ∈ known, IsVariable id ∧
    s.get (cs.context c).memberObj id = some (.int (names id))

theorem Formula.bound {f : Formula} (h : Holds s cs c known names)
    (hnames : ∀ id ∈ f.names, id ∈ known) : f.Bound cs c s names := by
  induction f with
  | number n => trivial
  | name id =>
    obtain ⟨hvariable, hget⟩ := h id (hnames id (List.mem_singleton_self id))
    refine ⟨hvariable.ne_keyword, ?_⟩
    rw [contextLookup]
    simp only [if_neg hvariable.ne_self, hget]
  | negate f ih => exact ih hnames
  | binary op f g ihf ihg =>
    exact ⟨ihf fun id hid => hnames id (List.mem_append_left _ hid),
      ihg fun id hid => hnames id (List.mem_append_right _ hid)⟩

/-- Without an outer context the name is one of the context, unless the object has it. -/
theorem contextSet_own {id : String} (value : Entity) (hprevious : (cs.context c).previous = none)
    (hself : s.get (cs.context c).self id = none) :
    contextSet s cs c id value = s.setMember (cs.context c).memberObj id value := by
  rw [contextSet]
  simp [hprevious, Contexts.chain?, hself]

theorem argOfToken_word {x : Token} {id : String} (h : x.kind = (.WORD, id)) :
    Tape.argOfToken x = .id id := by
  have htype : x.type = .WORD := congrArg Prod.fst h
  have htext : x.text = id := congrArg Prod.snd h
  rw [Tape.argOfToken, tokenToPrimitive, htype]
  simp [htext]

/-- A line sets its name to the value of its formula. -/
theorem FormulaLine.Stands.eval (h : line.Stands e) (hrange : line.formula.InRange names)
    (hbound : line.formula.Bound m.contexts c m.store names)
    (hprevious : (m.contexts.context c).previous = none)
    (hself : m.store.get (m.contexts.context c).self line.name = none) :
    Eval env routines c (.tree e) m .normal ⟨m.store.setMember (m.contexts.context c).memberObj
      line.name (.int (line.formula.value names)), m.contexts,
      .int (line.formula.value names)⟩ := by
  cases h with
  | @intro x eq e hx hstands =>
    have hvalue := hstands.evaluates m.contexts c m.store names hrange hbound
    have hrhs := evaluate_gets env routines m.contexts c e hvalue m.value
    refine .assignment hrhs (.assignVar (.operate ?_ rfl))
    intro stack
    rw [argOfToken_word hx, ← contextSet_own _ hprevious hself]
    exact does_set line.name

/-- What the line leaves alone, and what it sets. -/
theorem Holds.step (h : Holds s cs c known names) (hvariable : IsVariable line.name) :
    Holds (s.setMember (cs.context c).memberObj line.name
      (.int (line.formula.value names))) cs c (line.name :: known)
      (Function.update names line.name (line.formula.value names)) := by
  intro id hid
  by_cases heq : id = line.name
  · subst heq
    refine ⟨hvariable, ?_⟩
    rw [Store.get_setMember_self, Function.update_self]
  · obtain ⟨hid, hget⟩ := h id ((List.mem_cons.mp hid).resolve_left heq)
    refine ⟨hid, ?_⟩
    rw [get_setMember_other _ _ _ _ heq, Function.update_of_ne heq]
    exact hget

/-- The lines one after the other, by induction over them. -/
theorem eval_lines {lines : List FormulaLine} {exps : List ExpressionTree}
    (h : List.Forall₂ FormulaLine.Stands lines exps)
    (hvariables : ∀ line ∈ lines, IsVariable line.name)
    (hdefined : DefinedBefore known lines) (hrange : InRangeLines names lines)
    (hholds : Holds m.store m.contexts c known names)
    (hprevious : (m.contexts.context c).previous = none)
    (hobjects : (m.contexts.context c).self ≠ (m.contexts.context c).memberObj)
    (hself : ∀ line ∈ lines, m.store.get (m.contexts.context c).self line.name = none) :
    ∃ m', Eval env routines c (.statements exps) m .normal m' ∧ m'.contexts = m.contexts ∧
      Holds m'.store m'.contexts c ((lines.map FormulaLine.name).reverse ++ known)
        (runLines names lines) := by
  induction h generalizing m known names with
  | nil => exact ⟨m, .statementsNil, rfl, hholds⟩
  | @cons line e lines exps hline hrest ih =>
    obtain ⟨hnames, hdefined⟩ := hdefined
    obtain ⟨hformula, hrange⟩ := hrange
    obtain ⟨hvariable, hvariables⟩ := List.forall_mem_cons.mp hvariables
    have hbound := Formula.bound hholds hnames
    have heval := @FormulaLine.Stands.eval env routines c line e names m hline hformula hbound
      hprevious
      (hself line List.mem_cons_self)
    have hself' : ∀ line' ∈ lines, (m.store.setMember (m.contexts.context c).memberObj line.name
        (.int (line.formula.value names))).get (m.contexts.context c).self line'.name =
          none := by
      intro line' hline'
      rw [Store.get_setMember_ne _ _ _ _ hobjects]
      exact hself line' (List.mem_cons_of_mem _ hline')
    obtain ⟨m', hevals, hcontexts, hend⟩ := ih (m := ⟨_, m.contexts, _⟩) hvariables hdefined hrange
      (hholds.step hvariable) hprevious hobjects hself'
    refine ⟨m', .statementsCons heval hevals, hcontexts, ?_⟩
    rw [List.map_cons, List.reverse_cons, List.append_assoc]
    exact hend

theorem FormulaLine.Stands.succeeds (h : line.Stands e) : (produceInstructions e).Succeeds := by
  cases h with
  | intro hx hstands =>
    rw [produceInstructions]
    apply hstands.succeeds.add
    rw [produceAssignment]
    exact Producer.succeeds_ins _

theorem FormulaLine.Stands.tidy (h : line.Stands e) : (lower e).tidy = true := by
  cases h with
  | intro hx hstands =>
    rw [lower, Code.tidy_append, hstands.tidy]
    rfl

end Running

section Module

variable {lines : List FormulaLine} {exps : List ExpressionTree}

theorem succeeds_assignments (h : List.Forall₂ FormulaLine.Stands lines exps) :
    (produceModuleDef ⟨none, [], [], [], exps⟩).Succeeds := by
  have hskip : Producer.Succeeds 0 := fun tape => ⟨0, tape, rfl⟩
  have hstatements : (Producer.each produceInstructions exps).Succeeds := by
    induction h with
    | nil => exact hskip
    | cons hline _ ih => exact hline.succeeds.add ih
  exact ((((((hskip.add hskip).add hskip).add hskip).add hstatements).add
    (Producer.succeeds_ins _)).add hskip).add hskip

theorem tidy_assignments (h : List.Forall₂ FormulaLine.Stands lines exps) :
    (lowerModuleDef ⟨none, [], [], [], exps⟩).tidy = true := by
  have hstatements : (Code.each lower exps).tidy = true := by
    induction h with
    | nil => rfl
    | cons hline _ ih =>
      rw [Code.each, Code.tidy_append, hline.tidy, ih]
      rfl
  simp only [lowerModuleDef, Code.tidy_append, hstatements]
  rfl

end Module

/-! ## From the text to the end of the process -/

section Text

variable {lines : List FormulaLine} {line : FormulaLine} {known : List String}

def FormulaLine.kinds (line : FormulaLine) : List TokenKind :=
  (.WORD, line.name) :: (.EQUALS, "=") :: line.formula.kinds

theorem Formula.readable {f : Formula} (h : ∀ id ∈ f.names, IsVariable id) : f.Readable := by
  induction f with
  | number n => trivial
  | name id => exact (h id (List.mem_singleton_self id)).readable
  | negate f ih => exact ih h
  | binary op f g ihf ihg =>
    exact ⟨ihf fun id hid => h id (List.mem_append_left _ hid),
      ihg fun id hid => h id (List.mem_append_right _ hid)⟩

theorem readable_lines (h : DefinedBefore known lines) (hknown : ∀ id ∈ known, IsVariable id)
    (hvariables : ∀ line ∈ lines, IsVariable line.name) :
    ∀ line ∈ lines, line.formula.Readable := by
  induction lines generalizing known with
  | nil => exact List.forall_mem_nil _
  | cons line lines ih =>
    obtain ⟨hnames, hdefined⟩ := h
    obtain ⟨hvariable, hvariables⟩ := List.forall_mem_cons.mp hvariables
    have hformula := Formula.readable fun id hid => hknown id (hnames id hid)
    have hrest := ih hdefined (List.forall_mem_cons.mpr ⟨hvariable, hknown⟩) hvariables
    exact List.forall_mem_cons.mpr ⟨hformula, hrest⟩

theorem FormulaLine.lexeme (hvariable : IsVariable line.name) (hreadable : line.formula.Readable) :
    ∀ kind ∈ line.kinds, Lexeme kind := by
  have hname : Lexeme (.WORD, line.name) := .name hvariable.readable.1 hvariable.readable.2
  have hequals : Lexeme (.EQUALS, "=") := .operator (by decide)
  exact List.forall_mem_cons.mpr ⟨hname,
    List.forall_mem_cons.mpr ⟨hequals, Formula.lexeme_kinds hreadable⟩⟩

theorem FormulaLine.lexed {escape : Bool} {li : LineInfo} (hvariable : IsVariable line.name)
    (hreadable : line.formula.Readable) (htext : Spaced line.kinds li.lineText) :
    Lexer.Line escape li.lineText line.kinds where
  lexes := htext.lexes (line.lexeme hvariable hreadable)
  last := by
    have hne : line.kinds ≠ [] := List.cons_ne_nil _ _
    refine ⟨_, List.getLast?_eq_some_getLast hne, ?_⟩
    exact (line.lexeme hvariable hreadable _ (List.getLast_mem hne)).type_ne.2
  words kind hmem := (line.lexeme hvariable hreadable kind hmem).type_ne.1

theorem lexed_lines {escape : Bool} {fi : List LineInfo}
    (htext : List.Forall₂ (fun li line => Spaced (FormulaLine.kinds line) li.lineText) fi lines)
    (hvariables : ∀ line ∈ lines, IsVariable line.name)
    (hreadable : ∀ line ∈ lines, line.formula.Readable) :
    List.Forall₂ (fun li kinds => Lexer.Line escape li.lineText kinds) fi
      (lines.map FormulaLine.kinds) := by
  induction htext with
  | nil => exact .nil
  | cons hline _ ih =>
    obtain ⟨hvariable, hvariables⟩ := List.forall_mem_cons.mp hvariables
    obtain ⟨hformula, hreadable⟩ := List.forall_mem_cons.mp hreadable
    exact .cons (FormulaLine.lexed hvariable hformula hline) (ih hvariables hreadable)

/-- The tokens of a line with their newline. -/
theorem FormulaLine.read {toks : List Token}
    (h : toks.map Token.kind = line.kinds ++ [(.ENDLINE, "")]) :
    ∃ r : ReadLine, r.tokens = toks ∧ r.Good ∧ line.Stands r.exp := by
  obtain ⟨body, ends, rfl, hbody, hends⟩ := List.map_eq_append_iff.mp h
  obtain ⟨x, behind, rfl, hx, hbehind⟩ := List.map_eq_cons_iff.mp hbody
  obtain ⟨eq, u, rfl, heq, hu⟩ := List.map_eq_cons_iff.mp hbehind
  obtain ⟨endline, tail, rfl, hline, htail⟩ := List.map_eq_cons_iff.mp hends
  cases List.map_eq_nil_iff.mp htail
  obtain ⟨e, hwritten, hstands⟩ := line.formula.written u hu
  obtain ⟨t, ht⟩ := (Formula.written_whole hwritten).reads
  have hword : x.type = .WORD := congrArg Prod.fst hx
  have hequals : eq.type = .EQUALS := congrArg Prod.fst heq
  have hendline : endline.type = .ENDLINE := congrArg Prod.fst hline
  refine ⟨⟨x :: eq :: u ++ [endline], assignmentTree x eq t,
    .assignmentExpression eq (.var false x) e⟩, rfl, ?_, .intro hx hstands⟩
  constructor
  · intro after hafter
    have hparses := parses_line hword hequals ht hendline hafter
    have hassoc : x :: eq :: u ++ [endline] ++ after = x :: eq :: (u ++ endline :: after) := by simp
    rw [← hassoc] at hparses
    exact hparses
  · rfl
  · exact ⟨x, _, rfl, hword⟩
  · obtain ⟨n, hn⟩ := ht.populates
    apply populates_within (n := n + 1)
    intro k hk
    have hrhs := hn k (by omega)
    obtain ⟨k, rfl⟩ := Nat.exists_eq_add_one.mpr (Nat.lt_of_lt_of_le (Nat.succ_pos n) hk)
    have htarget : populateAssignment (populateExpression (k + 1)) (k + 1)
        (.leaf x (some .identifier)) = some (.var false x) := rfl
    have hassignment : populateAssignmentExpression (populateExpression (k + 1)) (k + 1)
        (assignmentTree x eq t) = some (.assignmentExpression eq (.var false x) e) := by
      simp [populateAssignmentExpression, assignmentTree, hequals, hrhs, htarget]
    exact hassignment

/-- The tokens of all lines, by induction over these. -/
theorem read_lines {toks : List Token}
    (h : toks.map Token.kind = lines.flatMap fun line => line.kinds ++ [(.ENDLINE, "")]) :
    ∃ rs : List ReadLine, rs.flatMap ReadLine.tokens = toks ∧ (∀ r ∈ rs, r.Good) ∧
      List.Forall₂ FormulaLine.Stands lines (rs.map ReadLine.exp) := by
  induction lines generalizing toks with
  | nil => exact ⟨[], (List.map_eq_nil_iff.mp h).symm, List.forall_mem_nil _, .nil⟩
  | cons line lines ih =>
    rw [List.flatMap_cons] at h
    obtain ⟨first, rest, rfl, hfirst, hrest⟩ := List.map_eq_append_iff.mp h
    obtain ⟨r, hr, hgood, hstands⟩ := line.read hfirst
    obtain ⟨rs, hrs, hgoods, hall⟩ := ih hrest
    refine ⟨r :: rs, ?_, List.forall_mem_cons.mpr ⟨hgood, hgoods⟩, .cons hstands hall⟩
    rw [List.flatMap_cons, hr, hrs]

end Text

/-- `x = 2 + 3` and `y = x * -4` -/
def twoLines : List FormulaLine :=
  [⟨"x", sumFormula⟩, ⟨"y", .binary .mult (.name "x") minusFour⟩]

def twoLinesText : List LineInfo :=
  [⟨['x', ' ', '=', ' ', '2', ' ', '+', ' ', '3', '\n'], 1, by decide, by decide⟩,
    ⟨['y', ' ', '=', ' ', 'x', ' ', '*', ' ', '-', '4', '\n'], 2, by decide, by decide⟩]

theorem twoLinesText_spaced : List.Forall₂
    (fun li line => Spaced (FormulaLine.kinds line) li.lineText) twoLinesText twoLines := by
  have hempty : ∀ d ∈ ([] : List Char), isWhitespace d = true := List.forall_mem_nil _
  have hblank : ∀ d ∈ [' '], isWhitespace d = true := List.forall_mem_singleton.mpr rfl
  refine .cons ?_ (.cons ?_ .nil)
  · refine @Spaced.cons (.WORD, "x") _ [] _ hempty (endsWord_char (by decide)) ?_
    refine @Spaced.cons (.EQUALS, "=") _ [' '] _ hblank rfl ?_
    refine @Spaced.cons (.INTEGER, "2") _ [' '] _ hblank (endsWord_char (by decide)) ?_
    refine @Spaced.cons (.PLUS, "+") _ [' '] _ hblank rfl ?_
    refine @Spaced.cons (.INTEGER, "3") _ [' '] _ hblank (endsWord_char (by decide)) ?_
    exact @Spaced.nil [] hempty
  · refine @Spaced.cons (.WORD, "y") _ [] _ hempty (endsWord_char (by decide)) ?_
    refine @Spaced.cons (.EQUALS, "=") _ [' '] _ hblank rfl ?_
    refine @Spaced.cons (.WORD, "x") _ [' '] _ hblank (endsWord_char (by decide)) ?_
    refine @Spaced.cons (.STAR, "*") _ [' '] _ hblank rfl ?_
    refine @Spaced.cons (.MINUS, "-") _ [' '] _ hblank rfl ?_
    refine @Spaced.cons (.INTEGER, "4") _ [] _ hempty (endsWord_char (by decide)) ?_
    exact @Spaced.nil [] hempty

/-- A store with the code as the tape of module 0. -/
def twoLinesStore (tape : Tape) : Store where
  objects := fun _ => ⟨.Object, .empty, .none⟩
  nextObject := 10
  classes := fun _ => ⟨"Object", [], .empty, 0⟩
  functions := fun _ => ⟨"f", 0, false, false, false, false, 0, 0⟩
  modules := fun _ => ⟨"m", tape.ins, .empty, .empty, 0, true⟩
  builtin := 0

theorem twoLines_variables : ∀ line ∈ twoLines, IsVariable line.name := by
  have hx : IsVariable "x" := ⟨by decide, by decide, by decide⟩
  have hy : IsVariable "y" := ⟨by decide, by decide, by decide⟩
  exact List.forall_mem_cons.mpr ⟨hx, List.forall_mem_singleton.mpr hy⟩

theorem twoLines_defined : DefinedBefore [] twoLines := by
  simp [DefinedBefore, twoLines, sumFormula, minusFour, Formula.names]

theorem twoLines_inRange : InRangeLines (fun _ => 0) twoLines := by
  simp [InRangeLines, twoLines, sumFormula, minusFour, Formula.InRange, Formula.value,
    FormulaOp.apply]

end JeffVm
