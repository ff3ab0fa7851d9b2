import JeffVm.Files

/-!
# Where producers put labels

Whatever a producer of statements and expressions does, the functions of the tape lie on it and
its classes stay where they are. Only the producer of a class opens one, and it closes it.
-/

set_option autoImplicit false

namespace JeffVm

open Producer

namespace Tape

def FunctionsInside (t : Tape) : Prop := ∀ f ∈ t.funcRefs.entries, f.index ≤ t.size

/-- Where the classes are. -/
def spans (t : Tape) : List (String × Nat × Nat) :=
  t.classRefs.entries.map fun c => (c.name, c.startIndex, c.endIndex)

/-- More instructions, with functions among them and no classes. -/
structure Extends (t t' : Tape) : Prop where
  size_le : t.size ≤ t'.size
  functions : t.FunctionsInside → t'.FunctionsInside
  current : t'.currentClass = t.currentClass
  spans : t'.spans = t.spans

/-- A tape to be appended. -/
structure Loose (t : Tape) : Prop where
  functions : t.FunctionsInside
  classes : t.classRefs.entries = []

variable {t t' t'' : Tape}

theorem Extends.refl (t : Tape) : t.Extends t := ⟨Nat.le_refl _, id, rfl, rfl⟩

theorem Extends.trans (h : t.Extends t') (h' : t'.Extends t'') : t.Extends t'' :=
  ⟨Nat.le_trans h.size_le h'.size_le, h'.functions ∘ h.functions, h'.current.trans h.current,
    h'.spans.trans h.spans⟩

theorem extends_add (t : Tape) (ins : Instruction) (source : SourceMapping) :
    t.Extends (t.add ins source) := by
  have hsize : (t.add ins source).size = t.size + 1 := by simp [size]
  refine ⟨by omega, ?_, rfl, rfl⟩
  intro hinside f hf
  rw [hsize]
  exact Nat.le_succ_of_le (hinside f hf)

theorem Loose.create : Tape.create.Loose := by
  refine ⟨?_, rfl⟩
  intro f hf
  cases hf

theorem Loose.extends (h : t.Loose) (h' : t.Extends t') : t'.Loose := by
  refine ⟨h'.functions h.functions, ?_⟩
  have hspans := h'.spans
  rw [Tape.spans, Tape.spans, h.classes] at hspans
  exact List.map_eq_nil_iff.mp hspans

theorem Loose.patch (h : t.Loose) (brk cont : Nat → Int) : (t.patch brk cont).Loose := by
  refine ⟨?_, h.classes⟩
  intro f hf
  have hsize : (t.patch brk cont).size = t.size := by simp [size, Tape.patch]
  rw [hsize]
  exact h.functions f hf

theorem extends_append (t : Tape) {tail : Tape} (h : tail.Loose) : t.Extends (t.append tail) := by
  have hsize : (t.append tail).size = t.size + tail.size := by simp [size]
  refine ⟨by omega, ?_, rfl, ?_⟩
  · intro hinside f hf
    rw [hsize]
    rcases KeyedList.mem_foldl_insert _ hf with hf | ⟨g, hg, rfl⟩
    · exact Nat.le_trans (hinside f hf) (Nat.le_add_right _ _)
    · have hle := h.functions g hg
      simp only [FunctionRef.shift]
      omega
  · simp [spans, Tape.append, h.classes]

theorem extends_startFunc {name : String} {isAsync : Bool} {t' : Tape}
    (h : t.startFunc name isAsync = some t') : t.Extends t' := by
  have hins := startFuncAtIndex_ins h
  have hsize : t'.size = t.size := by rw [size, hins, size]
  unfold startFunc startFuncAtIndex at h
  split at h
  · rename_i cls hcur
    split at h
    · cases h
    · split at h
      · cases h
      · cases h
        refine ⟨Nat.le_refl _, id, rfl, ?_⟩
        simp only [spans, modifyClass, KeyedList.entries_modify, List.map_map]
        apply List.map_congr_left
        intro c _
        simp only [Function.comp_apply]
        split <;> rfl
  · split at h
    · cases h
    · cases h
      refine ⟨Nat.le_refl _, ?_, rfl, rfl⟩
      intro hinside f hf
      rcases KeyedList.mem_insertEntry hf with rfl | hf
      · exact Nat.le_refl _
      · exact hinside f hf

end Tape

/-! ## Producers -/

/-- Every run of the producer extends the tape. -/
def Producer.Tidy (p : Producer) : Prop :=
  ∀ tape n tape', p tape = some (n, tape') → tape.Extends tape'

/-- The two halves of a run. -/
theorem Producer.withCount_run {p : Producer} {k : Int → Producer} {tape tape' : Tape} {n : Int}
    (h : withCount p k tape = some (n, tape')) :
    ∃ m tape₁ m', p tape = some (m, tape₁) ∧ k m tape₁ = some (m', tape') ∧ n = m + m' := by
  unfold withCount at h
  split at h
  · cases h
  · rename_i m tape₁ hrun
    split at h
    · cases h
    · rename_i m' tape₂ hrun'
      cases h
      exact ⟨m, tape₁, m', hrun, hrun', rfl⟩

namespace Producer.Tidy

variable {p q : Producer}

theorem zero : Tidy 0 := by
  intro tape n tape' h
  cases h
  exact .refl tape

theorem fail : Tidy Producer.fail := by
  intro tape n tape' h
  cases h

theorem withCount {k : Int → Producer} (hp : Tidy p) (hk : ∀ n, Tidy (k n)) :
    Tidy (withCount p k) := by
  intro tape n tape' h
  obtain ⟨m, tape₁, m', hrun, hrun', -⟩ := withCount_run h
  exact (hp _ _ _ hrun).trans (hk m _ _ _ hrun')

theorem add (hp : Tidy p) (hq : Tidy q) : Tidy (p + q) := withCount hp fun _ => hq

theorem onTape {k : Int → Tape → Producer} {tmp : Tape} (hp : Tidy p) (htmp : tmp.Loose)
    (hk : ∀ n tmp', tmp'.Loose → Tidy (k n tmp')) : Tidy (onTape p tmp k) := by
  intro tape n tape' h
  unfold Producer.onTape at h
  split at h
  · cases h
  · rename_i m tmp' hrun
    exact hk m tmp' (htmp.extends (hp _ _ _ hrun)) tape n tape' h

theorem onNewTape {k : Int → Tape → Producer} (hp : Tidy p)
    (hk : ∀ n tmp', tmp'.Loose → Tidy (k n tmp')) : Tidy (onNewTape p k) :=
  onTape hp .create hk

theorem given {α : Type} {o : Option α} {k : α → Producer} (hk : ∀ a, o = some a → Tidy (k a)) :
    Tidy (given o k) := by
  cases o with
  | none => exact fail
  | some a => exact hk a rfl

theorem insNoArg (op : Op) (token : Token) : Tidy (Producer.insNoArg op token) := by
  intro tape n tape' h
  cases h
  exact tape.extends_add _ _

theorem insInt (op : Op) (val : Int) (token : Token) : Tidy (Producer.insInt op val token) := by
  intro tape n tape' h
  cases h
  exact tape.extends_add _ _

theorem insText (op : Op) (text : String) (token : Token) :
    Tidy (Producer.insText op text token) := by
  intro tape n tape' h
  cases h
  exact tape.extends_add _ _

theorem insToken (op : Op) (token : Token) : Tidy (Producer.insToken op token) := by
  intro tape n tape' h
  cases h
  exact tape.extends_add _ _

theorem insAnon (op : Op) (token : Token) : Tidy (Producer.insAnon op token) := by
  intro tape n tape' h
  cases h
  exact tape.extends_add _ _

theorem insNeg (op : Op) (token : Token) : Tidy (Producer.insNeg op token) := by
  intro tape n tape' h
  obtain ⟨tape₁, hneg, heq⟩ := Option.map_eq_some_iff.mp h
  cases heq
  unfold Tape.insNeg at hneg
  split at hneg
  · cases hneg
    exact tape.extends_add _ _
  · cases hneg

theorem label (name : String) (isAsync : Bool) : Tidy (Producer.label name isAsync) := by
  intro tape n tape' h
  obtain ⟨tape₁, hstart, heq⟩ := Option.map_eq_some_iff.mp h
  cases heq
  exact Tape.extends_startFunc hstart

theorem append {n : Int} {tail : Tape} (h : tail.Loose) : Tidy (Producer.append n tail) := by
  intro tape m tape' hrun
  cases hrun
  exact tape.extends_append h

end Producer.Tidy

/-! ## Branches -/

def Branch.Loose (b : Branch) : Prop := b.condition.Loose ∧ b.body.Loose

theorem extends_writeConditions (numBodyIns numConds : Int) (hasElse : Bool) :
    ∀ (branches : List Branch) (numCondIns numBodyJump : Int) (tape : Tape),
      (∀ b ∈ branches, b.Loose) → tape.Extends
        (writeConditions numBodyIns numConds hasElse branches numCondIns numBodyJump tape)
  | [], _, _, tape, _ => .refl tape
  | [b], _, _, tape, h => by
    have hb := h b List.mem_cons_self
    exact (tape.extends_append hb.1).trans (Tape.extends_add _ _ _)
  | b :: b' :: rest, numCondIns, numBodyJump, tape, h => by
    have hb := h b List.mem_cons_self
    have hrest := extends_writeConditions numBodyIns numConds hasElse (b' :: rest)
      (numCondIns - b.condition.size) (numBodyJump - b.body.size)
      ((tape.append b.condition).insInt .IF (numCondIns - b.condition.size +
        (numBodyJump - b.body.size) + 2 * (b' :: rest).length) b.token)
      fun c hc => h c (List.mem_cons_of_mem b hc)
    exact ((tape.extends_append hb.1).trans (Tape.extends_add _ _ _)).trans hrest

theorem extends_writeBodies (numElseIns : Int) (hasElse : Bool) :
    ∀ (branches : List Branch) (numBodyIns : Int) (tape : Tape),
      (∀ b ∈ branches, b.Loose) → tape.Extends
        (writeBodies numElseIns hasElse branches numBodyIns tape)
  | [], _, tape, _ => .refl tape
  | b :: rest, numBodyIns, tape, h => by
    have hb := h b List.mem_cons_self
    have hone := tape.extends_append hb.2
    have hrest := fun tape => extends_writeBodies numElseIns hasElse rest
      (numBodyIns - b.body.size) tape fun c hc => h c (List.mem_cons_of_mem b hc)
    rw [writeBodies]
    split
    · exact (hone.trans (Tape.extends_add _ _ _)).trans (hrest _)
    · exact hone.trans (hrest _)

theorem tidy_branches {branches : List Branch} (h : ∀ b ∈ branches, b.Loose)
    (numCondIns numBodyIns : Int) {elseBody : Option (Int × Tape)}
    (helse : ∀ n e, elseBody = some (n, e) → e.Loose) :
    Tidy (produceBranches branches numCondIns numBodyIns elseBody) := by
  intro tape n tape' hrun
  have hall : ∀ (n numElseIns : Int) (hasElse : Bool), tape.Extends (writeBodies numElseIns hasElse
      branches.reverse numBodyIns (writeConditions numBodyIns n hasElse branches numCondIns
        numBodyIns tape)) := by
    intro n numElseIns hasElse
    apply (extends_writeConditions _ _ _ branches _ _ tape h).trans
    exact extends_writeBodies _ _ _ _ _ fun b hb => h b (List.mem_reverse.mp hb)
  unfold produceBranches at hrun
  cases elseBody with
  | none =>
    cases hrun
    exact hall _ _ _
  | some e =>
    obtain ⟨m, e⟩ := e
    cases hrun
    exact (hall _ _ _).trans (Tape.extends_append _ (helse m e rfl))

theorem tidy_chain (op : Op) : ∀ (suffixes : List (Token × Tape)) (suffixIns : Int),
    (∀ s ∈ suffixes, s.2.Loose) → Tidy (produceChain op suffixes suffixIns)
  | [], _, _ => .zero
  | (token, _) :: rest, _, h =>
    ((Tidy.insInt op _ token).add (.append (h _ List.mem_cons_self))).add
      (tidy_chain op rest _ fun s hs => h s (List.mem_cons_of_mem _ hs))

theorem tidy_identifier (id : Token) : Tidy (produceIdentifier id) := by
  unfold produceIdentifier
  split
  · exact .insInt _ _ _
  · split
    · exact .insNoArg _ _
    · exact .insToken _ _

theorem tidy_argument (arg : Argument) : Tidy (produceArgument arg) := by
  unfold produceArgument
  split
  · exact ((Tidy.insNoArg _ _).add (.insText _ _ _)).add (.insToken _ _)
  · exact .insToken _ _

theorem tidy_unary (token : Token) (type : UnaryType) : Tidy (produceUnary token type) := by
  cases type with
  | not => exact .insNoArg _ _
  | notc => exact .insNoArg _ _
  | negate => exact ((Tidy.insNoArg _ _).add (.insInt _ _ _)).add (.insNoArg _ _)
  | await => exact .insNoArg _ _
  | const => exact .fail
  | unknown => exact .fail

/-! ## All statements and expressions -/

mutual

theorem tidy_instructions : ∀ e : ExpressionTree, Tidy (produceInstructions e)
  | .identifier id => tidy_identifier id
  | .constant token => .insToken _ token
  | .stringLiteral token => .insToken _ token
  | .tupleExpression token list => (tidy_tuple token list).add (.insInt _ _ _)
  | .arrayDeclaration token none => .insNoArg _ token
  | .arrayDeclaration token (some exp) => by
    have hexp := ((tidy_instructions exp).add (.insNoArg .PUSH token)).add (.insInt .ANEW 1 token)
    cases exp with
    | tupleExpression tupleToken list =>
      rw [produceInstructions]
      exact (tidy_tuple tupleToken list).add (.insInt _ _ _)
    | _ => exact hexp
  | .mapDeclaration lbrce [] =>
    ((Tidy.insText _ _ lbrce).add (.insText _ _ _)).add .zero
  | .mapDeclaration lbrce (entry :: rest) =>
    ((Tidy.insText _ _ lbrce).add (.insText _ _ _)).add
      (((Tidy.insNoArg _ _).add ((tidy_entry entry).add (tidy_entries rest))).add (.insNoArg _ _))
  | .primaryExpression exp => tidy_instructions exp
  | .primaryExpressionNoConstants exp => tidy_instructions exp
  | .postfixExpression base suffixes => by
    rw [produceInstructions]
    refine (tidy_instructions base).add ?_
    split
    · exact .fail
    · exact tidy_postfixes suffixes
  | .rangeExpression token start none stop =>
    ((((((Tidy.insText _ _ token).add .zero).add (tidy_instructions stop)).add
      (.insNoArg _ _)).add (tidy_instructions start)).add (.insNoArg _ _)).add
        (.insInt _ _ _) |>.add (.insNoArg _ _)
  | .rangeExpression token start (some inc) stop =>
    ((((((Tidy.insText _ _ token).add ((tidy_instructions inc).add (.insNoArg _ _))).add
      (tidy_instructions stop)).add (.insNoArg _ _)).add (tidy_instructions start)).add
        (.insNoArg _ _)).add (.insInt _ _ _) |>.add (.insNoArg _ _)
  | .unaryExpression token type exp => by
    have hexp := (tidy_instructions exp).add (tidy_unary token type)
    unfold produceInstructions
    split
    · exact .insNeg _ _
    · exact hexp
  | .biExpression _ exp suffixes => (tidy_instructions exp).add (tidy_biSuffixes suffixes)
  | .andExpression exp suffixes =>
    (tidy_instructions exp).add (.given fun (n, bodies) hbodies =>
      tidy_chain _ _ _ (loose_suffixTapes suffixes (n, bodies) hbodies))
  | .orExpression exp suffixes =>
    (tidy_instructions exp).add (.given fun (n, bodies) hbodies =>
      tidy_chain _ _ _ (loose_suffixTapes suffixes (n, bodies) hbodies))
  | .inExpression token isNot element collection => by
    rw [produceInstructions]
    refine ((((tidy_instructions collection).add (.insNoArg _ _)).add
      (tidy_instructions element)).add (.insText _ _ _)).add ?_
    split
    · exact .insNoArg _ _
    · exact .zero
  | .isExpression token exp type =>
    ((((tidy_instructions exp).add (.insNoArg _ token)).add (tidy_instructions type)).add
      (.insNoArg _ _)).add (.insNoArg _ _)
  | .conditionalExpression ifElse => tidy_ifElse ifElse
  | .anonFunctionDefinition func => tidy_anonFunction func
  | .assignmentExpression eqToken assignment rhs =>
    (tidy_instructions rhs).add (tidy_assignment eqToken assignment)
  | .foreachStatement forToken inToken assignmentLhs iterable body =>
    ((((Tidy.insNoArg _ forToken).add (tidy_instructions iterable)).add (.insNoArg _ inToken)).add
      (.insText _ _ _)).add (.insNoArg _ _) |>.add
      (.onNewTape ((((Tidy.insNoArg _ _).add (.insText _ _ _)).add
        (tidy_assignment inToken assignmentLhs)).add (tidy_instructions body)) fun bodyIns _ htmp =>
          .withCount (((Tidy.insNoArg _ _).add (.insText _ _ _)).add (.insInt _ _ _)) fun incLines =>
            (((Tidy.append (htmp.patch _ _)).add (.insInt _ _ _)).add (.insNoArg _ _)).add
              (.insNoArg _ _))
  | .forStatement forToken init condition inc body =>
    ((Tidy.insNoArg _ forToken).add (tidy_instructions init)).add
      (.withCount (tidy_instructions condition) fun conditionIns =>
        .onNewTape (tidy_instructions body) fun bodyIns _ htmp =>
          .onTape (tidy_instructions inc) htmp fun incIns _ htmp =>
            (((Tidy.insInt _ _ _).add (.append (htmp.patch _ _))).add (.insInt _ _ _)).add
              (.insNoArg _ _))
  | .whileStatement whileToken condition body =>
    .withCount ((Tidy.insNoArg _ whileToken).add (tidy_instructions condition)) fun numIns =>
      .onNewTape (tidy_instructions body) fun linesForBody _ htmp =>
        (((Tidy.insInt _ _ _).add (.append (htmp.patch _ _))).add (.insInt _ _ _)).add
          (.insNoArg _ _)
  | .compoundStatement expressions => tidy_statements expressions
  | .tryStatement tryToken catchToken tryBody errorAssignmentLhs catchBody =>
    .onNewTape (tidy_instructions tryBody) fun tryIns _ htry =>
      .onNewTape (tidy_instructions catchBody) fun catchIns _ hcatch =>
        .onNewTape (tidy_assignment catchToken errorAssignmentLhs) fun numAssign _ hassign =>
          ((((((((Tidy.insNoArg _ tryToken).add (.insInt _ _ catchToken)).add (.append htry)).add
            (.insInt _ _ _)).add (.append hassign)).add (.append hcatch)).add
              (.insNoArg _ _)).add (.insText _ _ _)).add (.insNoArg _ _)
  | .raiseStatement raiseToken exp => (tidy_instructions exp).add (.insNoArg _ raiseToken)
  | .selectionStatement ifElse => tidy_ifElse ifElse
  | .jumpStatement returnToken none => Tidy.zero.add (.insNoArg _ returnToken)
  | .jumpStatement returnToken (some exp) => (tidy_instructions exp).add (.insNoArg _ returnToken)
  | .breakStatement token type => .insInt _ _ token
  | .exitStatement token => .insNoArg _ token

theorem tidy_tuple (token : Token) : ∀ list : List ExpressionTree,
    Tidy (tupleExpressionHelper token list)
  | [] => .zero
  | elt :: rest => ((tidy_tuple token rest).add (tidy_instructions elt)).add (.insNoArg _ _)

theorem tidy_statements : ∀ trees : List ExpressionTree, Tidy (produceStatements trees)
  | [] => .zero
  | tree :: rest => (tidy_instructions tree).add (tidy_statements rest)

theorem tidy_entry : ∀ entry : MapDecEntry, Tidy (produceEntry entry)
  | ⟨colon, lhs, rhs⟩ =>
    ((((((Tidy.insNoArg _ colon).add (tidy_instructions rhs)).add (.insNoArg _ _)).add
      (tidy_instructions lhs)).add (.insNoArg _ _)).add (.insInt _ _ _)).add (.insText _ _ _)

theorem tidy_entries : ∀ entries : List MapDecEntry, Tidy (produceEntries entries)
  | [] => .zero
  | entry :: rest => (tidy_entry entry).add (tidy_entries rest)

theorem tidy_callArgs : ∀ (exp : Option ExpressionTree) {call : Op → Producer},
    (∀ op, Tidy (call op)) → Tidy (produceCallArgs exp call)
  | none, _, h => h _
  | some exp, _, h => (tidy_instructions exp).add (h _)

theorem tidy_postfixes : ∀ suffixes : List Postfix, Tidy (producePostfixes suffixes)
  | [] => .zero
  | .fncall token exp :: rest =>
    ((Tidy.insNoArg _ token).add (tidy_callArgs exp fun op => .insNoArg op token)).add
      (tidy_postfixes rest)
  | .arrayIndex token exp :: rest =>
    (((Tidy.insNoArg _ token).add (tidy_instructions exp)).add (.insNoArg _ _)).add
      (tidy_postfixes rest)
  | .field token id :: [] => (Tidy.insToken _ id).add .zero
  | .field token id :: suffix :: rest => by
    have hget := (Tidy.insToken .GET id).add (tidy_postfixes (suffix :: rest))
    have hrest := tidy_postfixes rest
    cases suffix with
    | fncall _ exp =>
      rw [producePostfixes]
      exact ((Tidy.insNoArg _ _).add (tidy_callArgs exp fun op => .insToken op id)).add hrest
    | _ => exact hget
  | .increment _ :: rest => tidy_postfixes rest
  | .decrement _ :: rest => tidy_postfixes rest
  | .none _ :: _ => .fail

theorem tidy_biSuffixes : ∀ suffixes : List BiSuffix, Tidy (produceBiSuffixes suffixes)
  | [] => .zero
  | ⟨token, type, exp⟩ :: rest => by
    have hexp := tidy_instructions exp
    have hrest := tidy_biSuffixes rest
    rw [produceBiSuffixes]
    cases biToIns type with
    | none => exact .fail
    | some op =>
      exact ((((Tidy.insNoArg _ _).add hexp).add (.insNoArg _ _)).add (.insNoArg _ _)).add hrest

theorem loose_suffixTapes : ∀ (suffixes : List BiSuffix) (bodies : Int × List (Token × Tape)),
    produceSuffixTapes suffixes = some bodies → ∀ s ∈ bodies.2, s.2.Loose
  | [], bodies, h => by
    rw [produceSuffixTapes] at h
    cases h
    intro s hs
    cases hs
  | ⟨token, type, exp⟩ :: rest, bodies, h => by
    have hexp := tidy_instructions exp
    have hrest := loose_suffixTapes rest
    rw [produceSuffixTapes] at h
    split at h
    · rename_i n tape m tapes hrun hrun'
      cases h
      intro s hs
      rcases List.mem_cons.mp hs with rfl | hs
      · exact Tape.Loose.create.extends (hexp _ _ _ hrun)
      · exact hrest (m, tapes) hrun' s hs
    · cases h

theorem loose_conditional : ∀ (cond : Conditional) (r : Int × Int × Branch),
    produceConditional cond = some r → r.2.2.Loose
  | ⟨ifToken, condition, body⟩, r, h => by
    have hcondition := tidy_instructions condition
    have hbody := tidy_instructions body
    rw [produceConditional] at h
    split at h
    · rename_i c conditionTape b bodyTape hc hb
      cases h
      exact ⟨Tape.Loose.create.extends (hcondition _ _ _ hc),
        Tape.Loose.create.extends (hbody _ _ _ hb)⟩
    · cases h

theorem loose_conditionals : ∀ (conds : List Conditional) (r : Int × Int × List Branch),
    produceConditionals conds = some r → ∀ b ∈ r.2.2, b.Loose
  | [], r, h => by
    rw [produceConditionals] at h
    cases h
    intro b hb
    cases hb
  | cond :: rest, r, h => by
    have hfirst := loose_conditional cond
    have hothers := loose_conditionals rest
    rw [produceConditionals] at h
    split at h
    · rename_i hc hcs
      cases h
      intro b hb
      rcases List.mem_cons.mp hb with rfl | hb
      · exact hfirst _ hc
      · exact hothers _ hcs b hb
    · cases h

theorem tidy_ifElse : ∀ ifElse : IfElse, Tidy (produceIfElse ifElse)
  | ⟨first, rest, none⟩ =>
    .given fun (c, b, branch) hr => .given fun (cs, bs, branches) hrs => by
      have hfirst := loose_conditional first _ hr
      have hothers := loose_conditionals rest _ hrs
      apply tidy_branches
      · intro x hx
        rcases List.mem_cons.mp hx with rfl | hx
        · exact hfirst
        · exact hothers x hx
      · intro n e h
        cases h
  | ⟨first, rest, some e⟩ =>
    .given fun (c, b, branch) hr => .given fun (cs, bs, branches) hrs =>
      .onNewTape (tidy_instructions e) fun numElseIns elseBody helse => by
        have hfirst := loose_conditional first _ hr
        have hothers := loose_conditionals rest _ hrs
        apply tidy_branches
        · intro x hx
          rcases List.mem_cons.mp hx with rfl | hx
          · exact hfirst
          · exact hothers x hx
        · intro n e' h
          cases h
          exact helse

theorem tidy_tupleArgument (token : Token) (i : Nat) (isLast : Bool) : ∀ arg : Argument,
    Tidy (produceTupleArgument token i isLast arg)
  | ⟨isConst, isField, argName, some value⟩ =>
    (((Tidy.insNoArg _ _).add (.insInt _ _ _)).add
      (.onNewTape (tidy_instructions value) fun n tmp htmp =>
        ((((Tidy.insInt _ _ _).add (.insNoArg _ _)).add (.insInt _ _ _)).add (.insInt _ _ _)).add
          (.append htmp))).add (tidy_argument _)
  | ⟨isConst, isField, argName, none⟩ => by
    rw [produceTupleArgument]
    refine (Tidy.add ?_ (.insInt _ _ _)).add (tidy_argument _)
    split
    · exact .insNoArg _ _
    · exact .insNoArg _ _

theorem tidy_allArguments (token : Token) : ∀ (i : Nat) (args : List Argument),
    Tidy (produceAllArguments token i args)
  | _, [] => .zero
  | i, arg :: rest =>
    (tidy_tupleArgument token i _ arg).add (tidy_allArguments token (i + 1) rest)

theorem tidy_default : ∀ arg : Argument, Tidy (produceDefault arg)
  | ⟨_, _, _, some value⟩ => (tidy_instructions value).add (tidy_argument _)
  | ⟨_, _, _, none⟩ => (Tidy.insNoArg _ _).add (tidy_argument _)

theorem tidy_defaults : ∀ args : List Argument, Tidy (produceDefaults args)
  | [] => .zero
  | arg :: rest => (tidy_default arg).add (tidy_defaults rest)

theorem tidy_onlyArgument : ∀ arg : Argument, Tidy (produceOnlyArgument arg)
  | ⟨_, _, _, some value⟩ =>
    (Tidy.onNewTape (tidy_instructions value) fun _ _ hdefaults =>
      ((((((Tidy.insNoArg _ _).add (.insInt _ _ _)).add (.insInt _ _ _)).add
        (.append hdefaults)).add (.insInt _ _ _)).add (.insNoArg _ _)).add (.insInt _ _ _)).add
          (tidy_argument _)
  | ⟨_, _, _, none⟩ => tidy_argument _

theorem tidy_arguments : ∀ args : Arguments, Tidy (produceArguments args)
  | ⟨_, first, []⟩ => tidy_onlyArgument first
  | ⟨token, first, second :: rest⟩ =>
    ((((((Tidy.insNoArg _ _).add (.insNoArg _ _)).add (.insNoArg _ _)).add (.insInt _ _ _)).add
      (.insNoArg _ _)).add
      (.onNewTape (((Tidy.insNoArg _ _).add (tidy_argument first)).add
          (tidy_defaults (second :: rest))) fun _ _ hdefaults =>
        .onNewTape ((tidy_tupleArgument token 0 _ first).add
            (tidy_allArguments token 1 (second :: rest))) fun _ _ hnonDefaults =>
          .onTape (.insInt _ _ _) hdefaults fun _ _ hdefaults' =>
            ((Tidy.insInt _ _ _).add (.append hdefaults')).add (.append hnonDefaults)))

theorem tidy_anonFunction : ∀ func : FunctionDef, Tidy (produceAnonFunction func)
  | ⟨_, _, _, _, some args, body⟩ =>
    .onNewTape (((tidy_arguments args).add (tidy_instructions body)).add (.insNoArg _ _))
      fun _ _ htmp =>
        (((Tidy.insInt _ _ _).add (.label _ _)).add (.append htmp)).add (.insAnon _ _)
  | ⟨_, _, _, _, none, body⟩ =>
    .onNewTape ((tidy_instructions body).add (.insNoArg _ _)) fun _ _ htmp =>
      (((Tidy.insInt _ _ _).add (.label _ _)).add (.append htmp)).add (.insAnon _ _)

theorem tidy_assignment (eqToken : Token) : ∀ assignment : Assignment,
    Tidy (produceAssignment eqToken assignment)
  | .var _ _ => .insToken _ _
  | .complex prefixExp suffixes =>
    ((Tidy.insNoArg _ _).add (tidy_instructions prefixExp)).add (tidy_setSuffixes suffixes)
  | .multi _ subargs =>
    (Tidy.insNoArg _ _).add (tidy_subargs eqToken subargs.length 0 subargs)

theorem tidy_setSuffixes : ∀ suffixes : List Postfix, Tidy (produceSetSuffixes suffixes)
  | [] => .fail
  | .fncall token exp :: rest => by
    have hrest := tidy_setSuffixes rest
    have hcall := tidy_callArgs exp fun op => Tidy.insNoArg op token
    rw [produceSetSuffixes]
    split
    · exact .fail
    · exact ((Tidy.insNoArg _ _).add hcall).add hrest
  | .arrayIndex token exp :: rest => by
    have hrest := tidy_setSuffixes rest
    have hexp := tidy_instructions exp
    rw [produceSetSuffixes]
    refine ((Tidy.insNoArg _ _).add hexp).add ?_
    split
    · exact .insNoArg _ _
    · exact (Tidy.insNoArg _ _).add hrest
  | .field token id :: [] => .insToken _ _
  | .field token id :: [suffix] => by
    have hget := (Tidy.insToken .GET id).add (tidy_setSuffixes [suffix])
    cases suffix <;> exact hget
  | .field token id :: suffix :: next :: rest => by
    have hget := (Tidy.insToken .GET id).add (tidy_setSuffixes (suffix :: next :: rest))
    have hrest := tidy_setSuffixes (next :: rest)
    cases suffix with
    | fncall _ exp =>
      have hcall := tidy_callArgs exp fun op => Tidy.insToken op id
      rw [produceSetSuffixes]
      exact ((Tidy.insNoArg _ _).add hcall).add hrest
    | _ => exact hget
  | .increment _ :: rest => by
    have hrest := tidy_setSuffixes rest
    rw [produceSetSuffixes]
    split
    · exact .fail
    · exact hrest
  | .decrement _ :: rest => by
    have hrest := tidy_setSuffixes rest
    rw [produceSetSuffixes]
    split
    · exact .fail
    · exact hrest
  | .none _ :: rest => .fail

theorem tidy_subargs (eqToken : Token) (len : Nat) : ∀ (i : Nat) (subargs : List Assignment),
    Tidy (produceSubargs eqToken len i subargs)
  | _, [] => .zero
  | i, assign :: rest =>
    (((((Tidy.insNoArg _ _).add (.insNoArg _ _)).add (.insInt _ _ _)).add (.insNoArg _ _)).add
      (tidy_assignment eqToken assign)).add (tidy_subargs eqToken len (i + 1) rest)

end

/-! ## Files -/

theorem tidy_each {α : Type} {p : α → Producer} (hp : ∀ a, Tidy (p a)) :
    ∀ as : List α, Tidy (each p as)
  | [] => .zero
  | a :: rest => (hp a).add (tidy_each hp rest)

theorem tidy_optArguments : ∀ args : Option Arguments, Tidy (produceOptArguments args)
  | none => .zero
  | some args => tidy_arguments args

theorem tidy_functionName (func : FunctionDef) : Tidy (produceFunctionName func) := by
  unfold produceFunctionName
  split
  · exact .given fun fnName _ => .label _ _
  all_goals exact .label _ _

theorem tidy_function (func : FunctionDef) : Tidy (produceFunction func) :=
  (((tidy_functionName func).add (tidy_optArguments func.args)).add
    (tidy_instructions func.body)).add (.insNoArg _ _)

theorem tidy_fields (cls : ClassDef) : Tidy (produceFields cls) := by
  unfold produceFields
  split
  · exact .zero
  · refine ((Tidy.insNoArg _ _).add (tidy_each ?_ _)).add (.insNoArg _ _)
    intro field
    exact ((Tidy.insNoArg _ _).add (.insText _ _ _)).add (.insToken _ _)

theorem tidy_constructor (cls : ClassDef) : Tidy (produceConstructor cls) := by
  unfold produceConstructor
  split
  · rename_i func _
    exact .given fun fnName _ => (((((Tidy.label _ _).add (tidy_fields cls)).add
      (tidy_optArguments func.args)).add (tidy_instructions func.body)).add (.insText _ _ _)).add
        (.insNoArg _ _)
  · exact (((Tidy.label _ _).add (tidy_fields cls)).add (.insText _ _ _)).add (.insNoArg _ _)

theorem tidy_field (name : String) : Tidy (Producer.field name) := by
  intro tape n tape' h
  obtain ⟨tape₁, hfield, heq⟩ := Option.map_eq_some_iff.mp h
  cases heq
  unfold Tape.field at hfield
  split at hfield
  · cases hfield
  · split at hfield
    · cases hfield
    · split at hfield
      · cases hfield
      · cases hfield
        refine ⟨Nat.le_refl _, id, rfl, ?_⟩
        simp only [Tape.spans, Tape.modifyClass, KeyedList.entries_modify, List.map_map]
        apply List.map_congr_left
        intro c _
        simp only [Function.comp_apply]
        split <;> rfl

namespace Tape

/-- Functions and classes lie on the tape, and a class ends before the next one starts. -/
structure Ordered (t : Tape) : Prop where
  functions : t.FunctionsInside
  closed : t.currentClass = none
  pairwise : t.spans.Pairwise fun c d => c.2.2 ≤ d.2.1
  le : ∀ c ∈ t.spans, c.2.2 ≤ t.size

variable {t t' : Tape}

theorem Ordered.create : Tape.create.Ordered := by
  refine ⟨Loose.create.functions, rfl, .nil, ?_⟩
  intro c hc
  cases hc

theorem Ordered.extends (h : t.Ordered) (h' : t.Extends t') : t'.Ordered := by
  refine ⟨h'.functions h.functions, h'.current.trans h.closed, ?_, ?_⟩
  · rw [h'.spans]
    exact h.pairwise
  · intro c hc
    rw [h'.spans] at hc
    exact Nat.le_trans (h.le c hc) h'.size_le

/-- A class with what is inside of it. -/
theorem Ordered.class {name : String} {t₁ t₂ t₃ : Tape} (h : t.Ordered)
    (hstart : t.startClass name = some t₁) (hinside : t₁.Extends t₂)
    (hend : t₂.endClass = some t₃) : t₃.Ordered := by
  unfold startClass startClassAtIndex at hstart
  split at hstart
  · cases hstart
  · rename_i hnew
    cases hstart
    have hcur : t₂.currentClass = some name := hinside.current
    have hspans : t₂.spans = t.spans ++ [(name, t.size, 0)] := by
      rw [hinside.spans, spans]
      dsimp only
      rw [KeyedList.entries_insert_of_notMem hnew, List.map_append]
      rfl
    have hle : t.size ≤ t₂.size := hinside.size_le
    have hfunctions := hinside.functions h.functions
    simp only [endClass, endClassAtIndex, hcur, Option.some.injEq] at hend
    subst hend
    have hspans₃ : spans { t₂.modifyClass name (fun c => { c with endIndex := t₂.size })
        (fun _ => rfl) with currentClass := none } = t.spans ++ [(name, t.size, t₂.size)] := by
      have hmap : spans { t₂.modifyClass name (fun c => { c with endIndex := t₂.size })
          (fun _ => rfl) with currentClass := none } =
            t₂.spans.map fun c => if c.1 = name then (c.1, c.2.1, t₂.size) else c := by
        simp only [spans, modifyClass, KeyedList.entries_modify, List.map_map]
        apply List.map_congr_left
        intro c _
        simp only [Function.comp_apply]
        split <;> rfl
      rw [hmap, hspans, List.map_append]
      congr 1
      · conv_rhs => rw [← List.map_id t.spans]
        apply List.map_congr_left
        intro c hc
        have hne : c.1 ≠ name := by
          intro heq
          obtain ⟨d, hd, rfl⟩ := List.mem_map.mp hc
          exact hnew (List.mem_map.mpr ⟨d, hd, heq⟩)
        rw [if_neg hne]
        rfl
      · simp
    refine ⟨hfunctions, rfl, ?_, ?_⟩
    · rw [hspans₃, List.pairwise_append]
      refine ⟨h.pairwise, List.pairwise_singleton _ _, ?_⟩
      intro c hc d hd
      obtain rfl := List.mem_singleton.mp hd
      exact h.le c hc
    · intro c hc
      rw [hspans₃] at hc
      rcases List.mem_append.mp hc with hc | hc
      · exact Nat.le_trans (h.le c hc) hle
      · obtain rfl := List.mem_singleton.mp hc
        exact Nat.le_refl _

end Tape

/-- The producer leaves classes in order. -/
def Producer.KeepsOrder (p : Producer) : Prop :=
  ∀ tape n tape', p tape = some (n, tape') → tape.Ordered → tape'.Ordered

namespace Producer.KeepsOrder

variable {p q : Producer}

theorem of_tidy (h : Tidy p) : KeepsOrder p := by
  intro tape n tape' hrun hordered
  exact hordered.extends (h _ _ _ hrun)

theorem add (hp : KeepsOrder p) (hq : KeepsOrder q) : KeepsOrder (p + q) := by
  intro tape n tape' hrun hordered
  obtain ⟨n₁, tape₁, n₂, hp₁, hq₁, -⟩ := withCount_run (k := fun _ => q) hrun
  exact hq _ _ _ hq₁ (hp _ _ _ hp₁ hordered)

theorem each {α : Type} {p : α → Producer} (hp : ∀ a, KeepsOrder (p a)) :
    ∀ as : List α, KeepsOrder (each p as)
  | [] => of_tidy .zero
  | a :: rest => (hp a).add (each hp rest)

end Producer.KeepsOrder

theorem keepsOrder_class (cls : ClassDef) : KeepsOrder (produceClass cls) := by
  unfold produceClass
  split
  · exact .of_tidy .fail
  · intro tape n tape' hrun hordered
    have hconstructor : Tidy
        (if cls.constructor.isSome ∨ 0 < cls.fields.length then produceConstructor cls else 0) := by
      split
      · exact tidy_constructor cls
      · exact .zero
    obtain ⟨_, t₄, _, hrun, hend, -⟩ := withCount_run hrun
    obtain ⟨_, t₃, _, hrun, hmethods, -⟩ := withCount_run hrun
    obtain ⟨_, t₂, _, hrun, hnew, -⟩ := withCount_run hrun
    obtain ⟨_, t₁, _, hstart, hfields, -⟩ := withCount_run hrun
    obtain ⟨t₁, hstart, heq⟩ := Option.map_eq_some_iff.mp hstart
    cases heq
    obtain ⟨t₅, hend, heq⟩ := Option.map_eq_some_iff.mp hend
    cases heq
    have hinside := ((tidy_each (fun f => tidy_field f.text) cls.fields _ _ _ hfields).trans
      (hconstructor _ _ _ hnew)).trans (tidy_each tidy_function cls.methods _ _ _ hmethods)
    exact hordered.class hstart hinside hend

theorem tidy_module (name : String) : Tidy (startModule name) := by
  intro tape n tape' h
  cases h
  exact ⟨Nat.le_refl _, id, rfl, rfl⟩

theorem tidy_annotated (cls : ClassDef) : Tidy (produceAnnotated cls) := by
  unfold produceAnnotated
  split
  · exact .zero
  · rename_i annot _
    unfold produceAnnotation
    refine ((((Tidy.add ?_ ?_).add (.insNoArg _ _)).add (.insToken _ _)).add (.insText _ _ _))
    · split
      · exact (Tidy.insToken _ _).add (.insToken _ _)
      · exact .insToken _ _
    · split
      · exact (tidy_instructions _).add (.insNoArg _ _)
      · exact .insNoArg _ _

theorem tidy_super (cls : ClassDef) : Tidy (produceSuper cls) := by
  unfold produceSuper
  split
  · exact .zero
  · exact ((Tidy.insToken _ _).add (.insToken _ _)).add (.insText _ _ _)

/-- The tape of a file. -/
theorem keepsOrder_tree (tree : RegisteredTree) : KeepsOrder (produceTree tree) := by
  cases tree with
  | expression e => exact .of_tidy (tidy_instructions e)
  | fileLevelStatementList module =>
    rw [produceTree]
    unfold produceModuleDef
    refine ((KeepsOrder.of_tidy ?_).add (.each keepsOrder_class module.classes)).add
      (.of_tidy (tidy_each tidy_function module.functions))
    refine ((((Tidy.add ?_ (tidy_each (fun m => .insToken .LMDL m) module.imports)).add
      (tidy_each tidy_annotated module.classes)).add
        (tidy_each tidy_super module.classes)).add
          (tidy_each tidy_instructions module.statements)).add
            (.insInt .EXIT 0 module.exitToken)
    split
    · exact tidy_module _
    · exact .zero

end JeffVm
