import JeffVm.Evaluate
import JeffVm.Files
import JeffVm.Site
import JeffVm.StructuredRun

/-!
# Compiled programs do what their trees do

The code that the producers leave on a tape is the code of their trees, so the virtual machine
does with it what the trees do: an expression or a statement anywhere on the tape of a module, and
a whole file from the start of the process to its end.
-/

set_option autoImplicit false

namespace JeffVm

/-! ## Produced code on a tape -/

section Produced

variable {p : Producer} {body : Code} {tape tape' : Tape} {n : Int} {ins : List Instruction}

/-- The instructions of a piece of code, as they are, stand for its items. -/
theorem Placed.of_ins {base : Nat}
    (h : ∀ (i : Nat) (instruction : Instruction), body.code[i]? = some instruction →
      ins[base + i]? = some instruction) : Placed ins noTargets base body.emit := by
  intro i item hitem
  have hins : body.code[i]? = some item.ins := by
    unfold Code.code
    rw [List.getElem?_map, hitem]
    rfl
  have hplace := h i item.ins hins
  unfold Item.Stands
  cases hown : item.own with
  | none => exact hplace
  | some type =>
    intro target htarget
    cases htarget

/-- What a producer has left at the end of a tape is there on each longer tape. -/
theorem Generates.placed (hp : Generates p body) (h : p tape = some (n, tape'))
    (hlies : tape'.ins <+: ins) : Placed ins noTargets tape.ins.length body.emit := by
  obtain ⟨-, hins⟩ := hp tape n tape' h
  obtain ⟨rest, rfl⟩ := hlies
  rw [hins, List.append_assoc]
  apply Placed.of_ins
  intro i instruction hi
  have hlt : i < body.code.length := (List.getElem?_eq_some_iff.mp hi).1
  rw [List.getElem?_append_right (Nat.le_add_right _ _), Nat.add_sub_cancel_left,
    List.getElem?_append_left hlt]
  exact hi

theorem Generates.length (hp : Generates p body) (h : p tape = some (n, tape')) :
    tape'.ins.length = tape.ins.length + body.size := by
  obtain ⟨-, hins⟩ := hp tape n tape' h
  rw [hins, List.length_append, Code.length_code]

end Produced

/-! ## Compiled functions -/

/-- The code of the routine was produced where the function is, on the tape of its module. -/
inductive Compiled (store : Store) (func : FunctionId) : Routine → Prop where
  | function {fn : FunctionDef} {tape tape' : Tape} {n : Int} :
    produceFunction fn tape = some (n, tape') →
    tape'.ins <+: (store.modules (store.functions func).module).tape →
    (store.functions func).insPos = tape.ins.length → Compiled store func (.ofFunction fn)
  | constructor {cls : ClassDef} {tape tape' : Tape} {n : Int} :
    produceConstructor cls tape = some (n, tape') →
    tape'.ins <+: (store.modules (store.functions func).module).tape →
    (store.functions func).insPos = tape.ins.length → Compiled store func (.ofConstructor cls)
  -- The first instruction jumps over the function.
  | anonymous {fn : FunctionDef} {tape tape' : Tape} {n : Int} :
    produceAnonFunction fn tape = some (n, tape') →
    tape'.ins <+: (store.modules (store.functions func).module).tape →
    (store.functions func).insPos = tape.ins.length + 1 → Compiled store func (.ofFunction fn)

/-- All routines are compiled, and no patch loop takes another jump for one of its own. -/
def Routines.CompiledIn (routines : Routines) (store : Store) : Prop :=
  ∀ func routine, routines func = some routine →
    Compiled store func routine ∧ routine.lower.tidy = true

theorem Routine.emit_ofConstructor (cls : ClassDef) :
    (Routine.ofConstructor cls).lower.emit = (lowerConstructor cls).emit := by
  unfold Routine.ofConstructor
  cases hfunc : cls.constructor with
  | none => rfl
  | some func =>
    simp only [Routine.lower, lowerConstructor, hfunc, Code.emit_append, List.append_assoc]

theorem Routine.emit_ofFunction (fn : FunctionDef) : ∃ body, lowerAnonFunction fn =
    .func body ++ idCode .RES (Tape.anonFnForToken fn.defToken) ∧
      (Routine.ofFunction fn).lower.emit = body.emit := by
  obtain ⟨defToken, fnName, specialMethod, isAsync, args, body⟩ := fn
  cases args with
  | none => exact ⟨_, rfl, rfl⟩
  | some args => exact ⟨_, rfl, rfl⟩

theorem Compiled.placed {store : Store} {func : FunctionId} {routine : Routine}
    (h : Compiled store func routine) : ∃ base : Nat, (store.functions func).insPos = base ∧
      Placed (store.modules (store.functions func).module).tape noTargets base
        routine.lower.emit := by
  cases h with
  | @function fn tape tape' n hproduce hlies hpos =>
    exact ⟨tape.ins.length, hpos, (generates_function fn).placed hproduce hlies⟩
  | @constructor cls tape tape' n hproduce hlies hpos =>
    rw [Routine.emit_ofConstructor]
    exact ⟨tape.ins.length, hpos, (generates_constructor cls).placed hproduce hlies⟩
  | @anonymous fn tape tape' n hproduce hlies hpos =>
    have hplaced := (generates_anonFunction fn).placed hproduce hlies
    obtain ⟨body, hlower, hbody⟩ := Routine.emit_ofFunction fn
    rw [hlower, Code.emit_append, Code.emit, List.cons_append, Placed.cons_iff,
      Placed.append_iff] at hplaced
    rw [hbody]
    exact ⟨tape.ins.length + 1, by rw [hpos]; rfl, hplaced.2.1⟩

theorem Routines.CompiledIn.hosted {routines : Routines} {store : Store}
    (h : routines.CompiledIn store) : routines.lower.HostedBy store := by
  intro func body hbody
  obtain ⟨routine, hroutine, rfl⟩ := Option.map_eq_some_iff.mp hbody
  obtain ⟨hcompiled, htidy⟩ := h func routine hroutine
  obtain ⟨base, hbase, hplaced⟩ := hcompiled.placed
  exact ⟨base, hbase, htidy, hplaced⟩

/-! ## Trees -/

/-- A task at the start of the code that a tree has left on the tape. -/
theorem Begins.produced {program : Program} {c t : Nat} {e : ExpressionTree} {tape tape' : Tape}
    {n : Int} {s : Scene} {w : World} (hproduce : produceInstructions e tape = some (n, tape'))
    (hlies : tape'.ins <+: s.tape c) (htidy : (lower e).tidy = true)
    (hhosted : program.HostedBy s.store) (hat : w.At t c tape.ins.length s) :
    Begins program w t c noTargets tape.ins.length tape'.ins.length (.code (lower e)) s := by
  have hgenerates := generates_instructions e
  exact ⟨hhosted, hat, hgenerates.placed hproduce hlies, htidy, hgenerates.length hproduce⟩

/-- The machine gets from the first to the last instruction of a tree with the memory that the
tree leads to and the operand stack as it was; or it gets to the instruction that returns. -/
theorem compiled_tree_runs {env : Env} {routines : Routines} {c t : Nat} {e : ExpressionTree}
    {tape tape' : Tape} {n : Int} {m m' : Memory} {stack : List Entity} {signal : Signal}
    {w : World} (hproduce : produceInstructions e tape = some (n, tape'))
    (hlies : tape'.ins <+: (m.scene stack).tape c) (htidy : (lower e).tidy = true)
    (hcompiled : routines.CompiledIn m.store)
    (hat : w.At t c tape.ins.length (m.scene stack))
    (heval : Eval env routines c (.tree e) m signal m') :
    (signal = .normal →
      ∃ w', Reaches env w w' t c ∧ w'.At t c tape'.ins.length (m'.scene stack)) ∧
    (signal = .ret →
      ∃ w' stack', Reaches env w w' t c ∧ Returning env w' t c (m'.scene stack')) := by
  have hbegins : Begins routines.lower w t c noTargets tape.ins.length tape'.ins.length
      (.code (lower e)) (m.scene stack) :=
    .produced hproduce hlies htidy hcompiled.hosted hat
  obtain ⟨stack', hexec, hstack⟩ := heval.lowers stack
  have hruns := hexec.sound hbegins
  constructor
  · rintro rfl
    obtain ⟨w', hreaches, hat'⟩ := hruns
    rw [hstack (fun h => by cases h)] at hat'
    exact ⟨w', hreaches, hat'⟩
  · rintro rfl
    obtain ⟨w', hreaches, hreturning⟩ := hruns
    exact ⟨w', stack', hreaches, hreturning⟩

/-- `while True break` -/
def breakTree : ExpressionTree :=
  .whileStatement (.word "while" 1) (.identifier (.word "True" 1))
    (.breakStatement (.word "break" 1) .break)

/-- A task at the start of the code, with two values on its stack. -/
def treeWorld (e : ExpressionTree) : World :=
  codeWorld (lower e).code (fun _ => ⟨.Object, .empty, .none⟩) .none [.int 5, .int 6]

def treeMemory (e : ExpressionTree) : Memory :=
  ⟨(treeWorld e).store, (treeWorld e).contexts.view, .none⟩

theorem treeWorld_at (e : ExpressionTree) :
    (treeWorld e).At 0 0 0 ((treeMemory e).scene [.int 5, .int 6]) := by
  refine ⟨rfl, ⟨rfl, rfl, Nat.zero_lt_one, Nat.zero_lt_one⟩, rfl, rfl, rfl, rfl, rfl, ?_, ?_⟩
  · intro id hid
    cases hid
  · intro id hid
    cases hid

theorem breakTree_evals : ∃ m', Eval noNatives (fun _ => none) 0 (.tree breakTree)
    (treeMemory breakTree) .normal m' ∧ m'.value = .int 1 := by
  refine ⟨_, .while rfl (.enter (.whileCondition (.one rfl)) rfl
    (.firstNext (.inl rfl) .whileBody (.secondBreak (.whileAgain .jump)))), ?_⟩
  rfl

/-- The block of the loop is left through `break`, and the stack is as it was. -/
theorem compiled_tree_runs_break : ∃ w m', Reaches noNatives (treeWorld breakTree) w 0 0 ∧
    w.At 0 0 6 (Memory.scene m' [.int 5, .int 6]) ∧ m'.value = .int 1 := by
  obtain ⟨m', heval, hvalue⟩ := breakTree_evals
  obtain ⟨w, hreaches, hat⟩ := (compiled_tree_runs
    (show produceInstructions breakTree Tape.create = some _ from rfl) (List.prefix_refl _) rfl
    (fun _ _ h => by cases h) (treeWorld_at breakTree) heval).1 rfl
  exact ⟨w, m', hreaches, hat, hvalue⟩

/-! ## Expressions -/

mutual

/-- The expression is built of the kinds that the interpreter knows, in the branches that are not
taken too. -/
def callsNothing : ExpressionTree → Bool
  | .identifier _ => true
  | .constant _ => true
  | .stringLiteral _ => true
  | .tupleExpression _ list => callNothing list
  | .arrayDeclaration _ exp =>
    match exp with
    | none => true
    | some exp => callsNothing exp
  | .primaryExpression exp => callsNothing exp
  | .primaryExpressionNoConstants exp => callsNothing exp
  | .unaryExpression _ _ exp => callsNothing exp
  | .biExpression _ exp suffixes => callsNothing exp && suffixesCallNothing suffixes
  | .andExpression exp suffixes => callsNothing exp && suffixesCallNothing suffixes
  | .orExpression exp suffixes => callsNothing exp && suffixesCallNothing suffixes
  | .conditionalExpression ifElse => ifElseCallsNothing ifElse
  | _ => false

def callNothing : List ExpressionTree → Bool
  | [] => true
  | elt :: rest => callsNothing elt && callNothing rest

def suffixesCallNothing : List BiSuffix → Bool
  | [] => true
  | ⟨_, _, exp⟩ :: rest => callsNothing exp && suffixesCallNothing rest

def conditionalCallsNothing : Conditional → Bool
  | ⟨_, condition, body⟩ => callsNothing condition && callsNothing body

def conditionalsCallNothing : List Conditional → Bool
  | [] => true
  | cond :: rest => conditionalCallsNothing cond && conditionalsCallNothing rest

def ifElseCallsNothing : IfElse → Bool
  | ⟨first, rest, none⟩ => conditionalCallsNothing first && conditionalsCallNothing rest
  | ⟨first, rest, some e⟩ =>
    conditionalCallsNothing first && conditionalsCallNothing rest && callsNothing e

end

theorem Code.tidy_append (a b : Code) : (a ++ b).tidy = (a.tidy && b.tidy) := by
  simp only [HAppend.hAppend, Append.append, Code.tidy]

theorem Code.tidy_chain {test : Test} {codes : List Code} (h : ∀ c ∈ codes, c.tidy = true) :
    (Code.chain test codes).tidy = true := by
  induction codes with
  | nil => rfl
  | cons c codes ih =>
    obtain ⟨hc, hcodes⟩ := List.forall_mem_cons.mp h
    rw [Code.chain, Code.tidy, Code.tidy_append, hc, ih hcodes]
    rfl

theorem Code.tidy_branches {first : Code × Code} {rest : List (Code × Code)}
    (hfirst : first.1.tidy = true ∧ first.2.tidy = true)
    (hrest : ∀ b ∈ rest, b.1.tidy = true ∧ b.2.tidy = true) :
    Code.tidyBranches (Code.branches first rest) = true := by
  induction rest generalizing first with
  | nil =>
    rw [Code.branches, Code.tidyBranches, hfirst.1, hfirst.2]
    rfl
  | cons second rest ih =>
    obtain ⟨hsecond, hrest⟩ := List.forall_mem_cons.mp hrest
    rw [Code.branches, Code.tidyBranches, hfirst.1, hfirst.2, ih hsecond hrest]
    rfl

theorem lowerIdentifier_tidy (id : Token) : (lowerIdentifier id).tidy = true := by
  unfold lowerIdentifier
  split
  · rfl
  · split
    · rfl
    · rfl

theorem lowerNeg_tidy (token : Token) : (lowerNeg token).tidy = true := by
  unfold lowerNeg
  split
  · rfl
  · rfl

theorem arraySingle_tidy {token : Token} {exp : ExpressionTree}
    (hexp : ∀ tupleToken list, exp ≠ .tupleExpression tupleToken list)
    (h : (lower exp).tidy = true) : (lower (.arrayDeclaration token (some exp))).tidy = true := by
  rw [lower_arraySingle hexp, Code.tidy_append, Code.tidy_append, h]
  rfl

theorem lowerUnary_tidy (type : UnaryType) : (lowerUnary type).tidy = true := by
  cases type <;> rfl

theorem lower_unary_tidy {token : Token} {type : UnaryType} {exp : ExpressionTree}
    (h : (lower exp).tidy = true) : (lower (.unaryExpression token type exp)).tidy = true := by
  have hunary : (lower exp ++ lowerUnary type).tidy = true := by
    rw [Code.tidy_append, h, lowerUnary_tidy]
    rfl
  by_cases hneg : type = .negate ∧ ∃ constantToken, exp = .constant constantToken
  · obtain ⟨rfl, constantToken, rfl⟩ := hneg
    exact lowerNeg_tidy constantToken
  · have hplain : lower (.unaryExpression token type exp) = lower exp ++ lowerUnary type := by
      rw [lower]
      rintro constantToken rfl rfl
      exact hneg ⟨rfl, constantToken, rfl⟩
    rw [hplain]
    exact hunary

mutual

/-- Without loops there are no patch loops. -/
theorem lower_tidy : ∀ e : ExpressionTree, callsNothing e = true → (lower e).tidy = true
  | .identifier id, _ => lowerIdentifier_tidy id
  | .constant _, _ => rfl
  | .stringLiteral _, _ => rfl
  | .tupleExpression _ list, h => by
    rw [callsNothing] at h
    rw [lower, Code.tidy_append, lowerTuple_tidy list h]
    rfl
  | .arrayDeclaration _ none, _ => rfl
  | .arrayDeclaration _ (some exp), h => by
    rw [callsNothing] at h
    have hexp := lower_tidy exp h
    cases exp with
    | tupleExpression token list =>
      rw [lower, Code.tidy_append, Bool.and_eq_true] at hexp
      rw [lower, Code.tidy_append, hexp.1]
      rfl
    | _ => exact arraySingle_tidy (fun _ _ heq => by cases heq) hexp
  | .primaryExpression exp, h => by
    rw [callsNothing] at h
    rw [lower]
    exact lower_tidy exp h
  | .primaryExpressionNoConstants exp, h => by
    rw [callsNothing] at h
    rw [lower]
    exact lower_tidy exp h
  | .unaryExpression _ _ exp, h => by
    rw [callsNothing] at h
    exact lower_unary_tidy (lower_tidy exp h)
  | .biExpression _ exp suffixes, h => by
    rw [callsNothing, Bool.and_eq_true] at h
    rw [lower, Code.tidy_append, lower_tidy exp h.1, lowerBiSuffixes_tidy suffixes h.2]
    rfl
  | .andExpression exp suffixes, h => by
    rw [callsNothing, Bool.and_eq_true] at h
    rw [lower, Code.tidy_append, lower_tidy exp h.1,
      Code.tidy_chain (lowerSuffixes_tidy suffixes h.2)]
    rfl
  | .orExpression exp suffixes, h => by
    rw [callsNothing, Bool.and_eq_true] at h
    rw [lower, Code.tidy_append, lower_tidy exp h.1,
      Code.tidy_chain (lowerSuffixes_tidy suffixes h.2)]
    rfl
  | .conditionalExpression ifElse, h => by
    rw [callsNothing] at h
    rw [lower]
    exact lowerIfElse_tidy ifElse h
  | .mapDeclaration _ _, h => by cases h
  | .postfixExpression _ _, h => by cases h
  | .rangeExpression _ _ _ _, h => by cases h
  | .inExpression _ _ _ _, h => by cases h
  | .isExpression _ _ _, h => by cases h
  | .anonFunctionDefinition _, h => by cases h
  | .assignmentExpression _ _ _, h => by cases h
  | .foreachStatement _ _ _ _ _, h => by cases h
  | .forStatement _ _ _ _ _, h => by cases h
  | .whileStatement _ _ _, h => by cases h
  | .compoundStatement _, h => by cases h
  | .tryStatement _ _ _ _ _, h => by cases h
  | .raiseStatement _ _, h => by cases h
  | .selectionStatement _, h => by cases h
  | .jumpStatement _ _, h => by cases h
  | .breakStatement _ _, h => by cases h
  | .exitStatement _, h => by cases h

theorem lowerTuple_tidy : ∀ list : List ExpressionTree, callNothing list = true →
    (lowerTuple list).tidy = true
  | [], _ => rfl
  | elt :: rest, h => by
    rw [callNothing, Bool.and_eq_true] at h
    rw [lowerTuple, Code.tidy_append, Code.tidy_append, lowerTuple_tidy rest h.2, lower_tidy elt h.1]
    rfl

theorem lowerBiSuffixes_tidy : ∀ suffixes : List BiSuffix, suffixesCallNothing suffixes = true →
    (lowerBiSuffixes suffixes).tidy = true
  | [], _ => rfl
  | ⟨_, type, exp⟩ :: rest, h => by
    rw [suffixesCallNothing, Bool.and_eq_true] at h
    rw [lowerBiSuffixes]
    split
    · rfl
    · simp only [Code.tidy_append, lower_tidy exp h.1, lowerBiSuffixes_tidy rest h.2]
      rfl

theorem lowerSuffixes_tidy : ∀ suffixes : List BiSuffix, suffixesCallNothing suffixes = true →
    ∀ c ∈ lowerSuffixes suffixes, c.tidy = true
  | [], _ => List.forall_mem_nil _
  | ⟨_, _, exp⟩ :: rest, h => by
    rw [suffixesCallNothing, Bool.and_eq_true] at h
    rw [lowerSuffixes]
    exact List.forall_mem_cons.mpr ⟨lower_tidy exp h.1, lowerSuffixes_tidy rest h.2⟩

theorem lowerConditional_tidy : ∀ cond : Conditional, conditionalCallsNothing cond = true →
    (lowerConditional cond).1.tidy = true ∧ (lowerConditional cond).2.tidy = true
  | ⟨_, condition, body⟩, h => by
    rw [conditionalCallsNothing, Bool.and_eq_true] at h
    exact ⟨lower_tidy condition h.1, lower_tidy body h.2⟩

theorem lowerConditionals_tidy : ∀ conds : List Conditional, conditionalsCallNothing conds = true →
    ∀ b ∈ lowerConditionals conds, b.1.tidy = true ∧ b.2.tidy = true
  | [], _ => List.forall_mem_nil _
  | cond :: rest, h => by
    rw [conditionalsCallNothing, Bool.and_eq_true] at h
    rw [lowerConditionals]
    exact List.forall_mem_cons.mpr ⟨lowerConditional_tidy cond h.1, lowerConditionals_tidy rest h.2⟩

theorem lowerIfElse_tidy : ∀ ifElse : IfElse, ifElseCallsNothing ifElse = true →
    (lowerIfElse ifElse).tidy = true
  | ⟨first, rest, none⟩, h => by
    rw [ifElseCallsNothing, Bool.and_eq_true] at h
    rw [lowerIfElse, Code.tidy]
    exact Code.tidy_branches (lowerConditional_tidy first h.1) (lowerConditionals_tidy rest h.2)
  | ⟨first, rest, some e⟩, h => by
    rw [ifElseCallsNothing, Bool.and_eq_true, Bool.and_eq_true] at h
    rw [lowerIfElse, Code.tidy, lower_tidy e h.2, Code.tidy_branches
      (lowerConditional_tidy first h.1.1) (lowerConditionals_tidy rest h.1.2)]
    rfl

end

/-- The code of an expression that calls no function leaves the value that the interpreter
computes, with the operand stack and the scopes as they were. A branch that is not taken may hold
any expression, if no patch loop in it takes another jump for one of its own. -/
theorem compiled_expression_computes {env : Env} {c t : Nat} {e : ExpressionTree}
    {tape tape' : Tape} {n : Int} {m : Memory} {stack : List Entity} {value : Entity}
    {store : Store} {w : World} (hproduce : produceInstructions e tape = some (n, tape'))
    (hlies : tape'.ins <+: (m.scene stack).tape c)
    (htidy : callsNothing e = true ∨ (lower e).tidy = true)
    (hat : w.At t c tape.ins.length (m.scene stack))
    (hvalue : evaluate m.contexts c e m.store = some (value, store)) :
    ∃ w', Reaches env w w' t c ∧
      w'.At t c tape'.ins.length ⟨store, m.contexts, value, stack⟩ := by
  have hnobody : Program.HostedBy (Routines.lower fun _ => none) m.store :=
    fun func body h => by cases h
  have heval := evaluate_gets env (fun _ => none) m.contexts c e hvalue m.value
  exact (heval.lowers.value stack).sound
    (.produced hproduce hlies (htidy.elim (lower_tidy e) id) hnobody hat)

/-- `2 * 3 + 1 if 0 < 1` -/
def guardedSum : ExpressionTree :=
  let number (digit : String) : ExpressionTree := .constant ⟨.INTEGER, 1, 0, digit⟩
  .conditionalExpression ⟨⟨.word "if" 1,
    .biExpression .relational (number "0") [⟨.word "<" 1, .lt, number "1"⟩],
    .biExpression .additive
      (.biExpression .multiplicative (number "2") [⟨.word "*" 1, .mult, number "3"⟩])
      [⟨.word "+" 1, .add, number "1"⟩]⟩, [], none⟩

theorem compiled_expression_computes_sum : ∃ w, Reaches noNatives (treeWorld guardedSum) w 0 0 ∧
    w.At 0 0 15 ⟨(treeMemory guardedSum).store, (treeMemory guardedSum).contexts, .int 7,
      [.int 5, .int 6]⟩ :=
  compiled_expression_computes (show produceInstructions guardedSum Tape.create = some _ from rfl)
    (List.prefix_refl _) (.inl rfl) (treeWorld_at guardedSum) rfl

/-! ## Files -/

/-- What a process starts with. -/
def Memory.boot (store : Store) (m : ModuleId) : Memory :=
  let s := (World.boot store m).scene 0
  ⟨s.store, s.contexts, s.resval⟩

/-- The code of a file before its statements: imports, annotations and superclasses. -/
def ModuleDef.prologue (module : ModuleDef) : Code :=
  Code.each (fun moduleName => tokenCode .LMDL moduleName) module.imports ++
    Code.each lowerAnnotated module.classes ++ Code.each lowerSuper module.classes

theorem lowerStatements_eq_each (trees : List ExpressionTree) :
    lowerStatements trees = Code.each lower trees := by
  induction trees with
  | nil => rfl
  | cons tree rest ih => rw [lowerStatements, Code.each, ih]

section Files

variable {env : Env} {routines : Routines} {store : Store} {m : ModuleId} {w w' : World}
  {t c : Nat} {s s' : Scene}

/-- The code of a file ends after its statements. -/
theorem Exec.file {module : ModuleDef} {m₀ m₁ m₂ : Memory}
    (hprologue : Exec env routines.lower c (.code module.prologue) (m₀.scene []) .normal
      (m₁.scene []))
    (hstatements : Eval env routines c (.statements module.statements) m₁ .normal m₂) :
    Exec env routines.lower c (.code (lowerModuleDef module)) (m₀.scene []) .ret
      ({ m₂ with value := .int 0 }.scene []) := by
  have hall := hstatements.lowers.normal []
  rw [Phrase.lower, lowerStatements_eq_each] at hall
  have hne : Signal.ret ≠ .normal := fun h => by cases h
  exact .seqStop hne (.seqStop hne ((hprologue.append hall).append (.exitInt 0)))

/-- The start of a process is forced, and the main task is then at the start of its module. -/
theorem World.boot_at (env : Env) (store : Store) (m : ModuleId) : ∃ w,
    RunsIn (processStep env) (Chosen env [] []) (World.boot store m) w ∧
      w.At 0 0 0 ((Memory.boot store m).scene []) ∧ w.queued = [] ∧ w.waiting = [] ∧
      w.background = [] ∧ (w.tasks 0).dependentTasks = [] := by
  have hstart : (World.boot store m).start 0 = some { World.boot store m with
      queued := []
      running := some (0, 0) } := by
    have hsetState : (World.boot store m).setState 0 .RUNNING = World.boot store m :=
      World.setState_self rfl
    rw [World.start_some rfl rfl, hsetState]
    rfl
  have hstep : processStep env (World.boot store m) (.start 0) = some { World.boot store m with
      queued := []
      running := some (0, 0) } := by
    rw [processStep, if_pos ⟨rfl, List.mem_singleton.mpr rfl⟩]
    exact hstart
  have hchosen : Chosen env [] [] (World.boot store m) (.start 0) := chosen_start rfl rfl
  refine ⟨_, .single hchosen hstep, ⟨rfl, ⟨rfl, rfl, Nat.zero_lt_one, Nat.zero_lt_one⟩, rfl, rfl,
    rfl, ⟨rfl, rfl, ?_, ?_⟩⟩, rfl, rfl, rfl, rfl⟩
  · intro id hid
    cases hid
  · intro id hid
    cases hid

/-- A main task that returns is the last to run. -/
theorem World.finishes (hreturning : Returning env w t c s') (hqueued : w.queued = [])
    (hbackground : w.background = []) (hdependent : (w.tasks t).dependentTasks = []) : ∃ w',
    RunsIn (processStep env) (Chosen env [] []) w w' ∧ w'.scene t = s' ∧
      (w'.tasks t).state = .COMPLETE ∧ w'.waiting = w.waiting ∧
      ∀ ev, processStep env w' ev = none := by
  obtain ⟨d, pos, s, ins, f, -, hat, hins, hexec, -, rfl⟩ := hreturning
  have happly : w.apply t d (.complete f) =
      some (((w.setFrame t f).setState t .COMPLETE).incIns d, .stopped) := rfl
  have hstop : (((w.setFrame t f).setState t .COMPLETE).incIns d).stop env t =
      some { ((w.setFrame t f).setState t .COMPLETE).incIns d with
        running := none
        completed := setInsert t w.completed } := by
    have hstate : ((((w.setFrame t f).setState t .COMPLETE).incIns d).tasks t).state =
        .COMPLETE := by
      simp [World.incIns, World.modifyContext, World.setState, World.modifyTask]
    have hnobody : ((((w.setFrame t f).setState t .COMPLETE).incIns d).tasks t).dependentTasks =
        [] := by
      simp [World.incIns, World.modifyContext, World.setState, World.setFrame, World.modifyTask,
        hdependent]
    unfold World.stop World.markTaskComplete
    simp only [hstate, hnobody, List.foldl_nil]
    rfl
  have hchosen : Chosen env w.queued w.background w .execute := chosen_execute hat.running
  rw [hqueued, hbackground] at hchosen
  refine ⟨_, .single hchosen ((hat.step_stopped hins hexec happly).trans hstop), ?_, ?_, rfl, ?_⟩
  · have hview : (((w.setFrame t f).setState t .COMPLETE).incIns d).contexts.view = s.contexts := by
      rw [← hat.scene]
      exact Contexts.view_modify w.contexts d (fun x => { x with ins := x.ins + 1 }) fun x => rfl
    unfold World.scene Scene.withFrame
    rw [Scene.mk.injEq]
    refine ⟨rfl, hview, ?_, ?_⟩
    · simp [World.incIns, World.modifyContext, World.setState, World.setFrame, World.modifyTask]
    · simp [World.incIns, World.modifyContext, World.setState, World.setFrame, World.modifyTask]
  · simp [World.incIns, World.modifyContext, World.setState, World.setFrame, World.modifyTask]
  · intro ev
    cases ev with
    | execute => rfl
    | start id =>
      rw [processStep, if_neg]
      rintro ⟨-, hmem⟩
      have hmem' : id ∈ w.queued := hmem
      rw [hqueued] at hmem'
      cases hmem'
    | finish args =>
      rw [processStep, if_neg]
      intro hmem
      have hmem' : args ∈ w.background := hmem
      rw [hbackground] at hmem'
      cases hmem'

/-- Where the code of the file gets from the start of the process to a `return`, the process runs
to its end, and it cannot run in any other way. -/
theorem World.runs_file {module : ModuleDef} {tape tape' : Tape} {n : Int}
    (hproduce : produceModuleDef module tape = some (n, tape')) (hempty : tape.ins = [])
    (htape : (store.modules m).tape = tape'.ins) (htidy : (lowerModuleDef module).tidy = true)
    (hcompiled : routines.CompiledIn store)
    (hexec : Exec env routines.lower 0 (.code (lowerModuleDef module))
      ((Memory.boot store m).scene []) .ret s') : ∃ w,
    RunsIn (processStep env) (Chosen env [] []) (World.boot store m) w ∧ w.scene 0 = s' ∧
      (w.tasks 0).state = .COMPLETE ∧ w.waiting = [] ∧ ∀ ev, processStep env w ev = none := by
  have hgenerates := generates_moduleDef module
  obtain ⟨w₁, hboot, hat, hqueued, hwaiting, hbackground, hdependent⟩ := World.boot_at env store m
  have htape' : ((Memory.boot store m).scene []).tape 0 = tape'.ins := htape
  have hplaced := hgenerates.placed hproduce (List.prefix_refl tape'.ins)
  rw [hempty, ← htape'] at hplaced
  have hbegins : Begins routines.lower w₁ 0 0 noTargets 0 (0 + (lowerModuleDef module).size)
      (.code (lowerModuleDef module)) ((Memory.boot store m).scene []) :=
    ⟨hcompiled.hosted.same (store.sameProgram_heapNew .Object), hat, hplaced, htidy, rfl⟩
  obtain ⟨w₂, hreaches, hreturning⟩ := hexec.sound hbegins
  have hrun := hreaches.run
  rw [hqueued, hbackground] at hrun
  obtain ⟨w₃, hfinish, hscene, hstate, hwaiting', hstops⟩ := World.finishes hreturning
    (hreaches.alongside.queued.trans hqueued) (hreaches.alongside.background.trans hbackground)
    (hreaches.alongside.dependentTasks.trans hdependent)
  exact ⟨w₃, (hboot.trans hrun).trans hfinish, hscene, hstate,
    hwaiting'.trans (hreaches.alongside.waiting.trans hwaiting), hstops⟩

end Files

/-- A file that is started runs to its end, and it cannot run in any other way: its statements do
what they do as trees, and then the process stops with nothing left to do. -/
theorem compiled_file_runs {env : Env} {routines : Routines} {module : ModuleDef}
    {tape tape' : Tape} {n : Int} {store : Store} {m : ModuleId} {m₁ m₂ : Memory}
    (hproduce : produceModuleDef module tape = some (n, tape')) (hempty : tape.ins = [])
    (htape : (store.modules m).tape = tape'.ins) (htidy : (lowerModuleDef module).tidy = true)
    (hcompiled : routines.CompiledIn store)
    (hprologue : Exec env routines.lower 0 (.code module.prologue)
      ((Memory.boot store m).scene []) .normal (m₁.scene []))
    (hstatements : Eval env routines 0 (.statements module.statements) m₁ .normal m₂) : ∃ w,
    RunsIn (processStep env) (Chosen env [] []) (World.boot store m) w ∧
      w.scene 0 = { m₂ with value := .int 0 }.scene [] ∧ (w.tasks 0).state = .COMPLETE ∧
      w.waiting = [] ∧ ∀ ev, processStep env w ev = none :=
  World.runs_file hproduce hempty htape htidy hcompiled (Exec.file hprologue hstatements)

/-- `def f() return 7` -/
def callFunction : FunctionDef :=
  ⟨.word "def" 1, some (.word "f" 1), .NONE, false, none,
    .jumpStatement (.word "return" 1) (some (.constant ⟨.INTEGER, 1, 0, "7"⟩))⟩

/-- The function, and `x = f()`. -/
def callFile : ModuleDef where
  name := none
  imports := []
  classes := []
  functions := [callFunction]
  statements := [.assignmentExpression (.word "=" 2) (.var false (.word "x" 2))
    (.postfixExpression (.identifier (.word "f" 2)) [.fncall (.word "(" 2) none])]

/-- The store with the function at position 5 of the tape. -/
def callStore : Store where
  objects := fun o => if o = 1 then ⟨.Function, .empty, .functionObj 0⟩
    else ⟨.Object, .empty, .none⟩
  nextObject := 10
  classes := fun _ => ⟨"Object", [], .empty, 0⟩
  functions := fun _ => ⟨"f", 0, false, false, false, false, 5, 1⟩
  modules := fun _ =>
    ⟨"m", (lowerModuleDef callFile).code, .empty, KeyedList.empty.insert ("f", 0), 0, true⟩
  builtin := 0

def callRoutines : Routines := fun _ => some (.ofFunction callFunction)

/-- The tape before the function. -/
def callTape : Tape :=
  ((Producer.each produceInstructions callFile.statements +
    Producer.insInt .EXIT 0 callFile.exitToken) Tape.create).elim Tape.create Prod.snd

theorem callRoutines_compiled : callRoutines.CompiledIn callStore := by
  intro func routine h
  cases h
  exact ⟨.function (show produceFunction callFunction callTape = some _ from rfl)
    (List.prefix_refl _) rfl, rfl⟩

/-- The call of a function object without an argument. -/
theorem Memory.invokes_function {env : Env} {routines : Routines} {c d : ContextId}
    {m m' : Memory} {o : ObjectId} {func : FunctionId} {routine : Routine}
    (hcls : m.store.cls o = .Function) (hinternal : m.store.internal o = .functionObj func)
    (hnative : (m.store.functions func).isNative = false)
    (hsync : (m.store.functions func).isAsync = false) (hroutine : routines func = some routine)
    (henter : { m with value := .none }.enter func
      (m.store.modules (m.store.functions func).module).reflection (some c) = some (d, m')) :
    m.Invokes env routines c ⟨.CLLN, .noArg⟩ [.obj o] routine d m' :=
  ⟨{ m with value := .none }, func, _, some c,
    fun _ => does_callFunction hcls hinternal hnative, rfl, hsync, hroutine, henter⟩

theorem callFile_evals : ∃ m, Eval noNatives callRoutines 0 (.statements callFile.statements)
    (Memory.boot callStore 0) .normal m ∧ m.store.get 10 "x" = some (.int 7) := by
  have hname : operandValue (Memory.boot callStore 0).contexts 0 (Memory.boot callStore 0).store
      (.id "f") = some (.obj 1, (Memory.boot callStore 0).store.setMember 0 "f" (.obj 1)) := rfl
  have hcall : ∃ m, Eval noNatives callRoutines 0 (.tree
      (.postfixExpression (.identifier (.word "f" 2)) [.fncall (.word "(" 2) none]))
        (Memory.boot callStore 0) .normal m ∧
        (contextSet m.store m.contexts 0 "x" m.value).get 10 "x" = some (.int 7) := by
    refine ⟨_, .suffixed (.identifier (by decide) (by decide) (gets_operand hname _))
      (.callWithout (.invokeReturn (Memory.invokes_function rfl rfl rfl rfl rfl rfl) .nil
          (.returnValue (.constant (gets_operand rfl _)))) .postfixesNil), ?_⟩
    rfl
  obtain ⟨m, heval, hget⟩ := hcall
  have hset : Eval noNatives callRoutines 0 (.assign (.var false (.word "x" 2))) m .normal
      ⟨contextSet m.store m.contexts 0 "x" m.value, m.contexts, m.value⟩ :=
    .assignVar (.operate (fun _ => does_set "x") rfl)
  exact ⟨_, .statementsCons (.assignment heval hset) .statementsNil, hget⟩

/-- The call returns to the statement, which sets the variable before the file ends. -/
theorem compiled_file_runs_call : ∃ w,
    RunsIn (processStep noNatives) (Chosen noNatives [] []) (World.boot callStore 0) w ∧
      w.store.get 10 "x" = some (.int 7) ∧ (w.tasks 0).state = .COMPLETE := by
  obtain ⟨m, heval, hget⟩ := callFile_evals
  obtain ⟨w, hrun, hscene, hstate, -, -⟩ := compiled_file_runs
    (show produceModuleDef callFile Tape.create = some _ from rfl) rfl rfl rfl
    callRoutines_compiled ((Exec.nil.append .nil).append .nil) heval
  have hstore : w.store = m.store := congrArg Scene.store hscene
  rw [← hstore] at hget
  exact ⟨w, hrun, hget, hstate⟩

end JeffVm
