import JeffVm.Semantics

/-!
# The code of source trees does what the trees do

What a tree does in the semantics of trees, its code does in the semantics of structured code. The
code keeps the operands of what is still to come on the stack, and comes back to the stack that it
found.
-/

set_option autoImplicit false

namespace JeffVm

/-! ## Instructions that only move values -/

section Does

variable {env : Env} {c : ContextId} {m : Memory} {stack : List Entity} {e : Entity}

theorem World.frame_of_scene {w : World} {t : TaskId} {s : Scene} (h : w.scene t = s) :
    w.frame t = s.frame := by
  rw [← h]
  rfl

/-- A name has the same value in the scene as in the process. -/
theorem World.contextLookup_of_scene {w : World} {t : TaskId} {s : Scene} (h : w.scene t = s)
    (store : Store) (id : String) :
    contextLookup store w.contexts c id = contextLookup store s.contexts c id := by
  rw [← h]
  apply contextLookup_congr
  intro d
  exact ⟨rfl, rfl, rfl, rfl⟩

theorem contextLookup_sameProgram (s : Store) (cs : Contexts) (id : String) :
    s.SameProgram (contextLookup s cs c id).2 := by
  unfold contextLookup
  dsimp only
  repeat' split
  all_goals exact ⟨fun _ => rfl, rfl⟩

theorem Scene.does_next {s : Scene} {ins : Instruction} {f : Frame}
    (hsame : s.store.SameProgram f.store)
    (h : ∀ w t, w.scene t = s → execute env w t c ins = some (.next f)) :
    s.Does env c ins (.next f) :=
  ⟨hsame, fun w t _ hscene => h w t hscene⟩

theorem does_push : (m.scene stack).Does env c ⟨.PUSH, .noArg⟩
    (.next ⟨m.store, m.value, m.value :: stack⟩) := by
  apply Scene.does_next (.refl m.store)
  intro w t hscene
  simp only [execute, executePUSH, World.frame_of_scene hscene]
  rfl

theorem does_pushInt (n : Int) : (m.scene stack).Does env c ⟨.PUSH, .val (.int n)⟩
    (.next ⟨m.store, m.value, .int n :: stack⟩) := by
  apply Scene.does_next (.refl m.store)
  intro w t hscene
  simp only [execute, executePUSH, World.frame_of_scene hscene]
  rfl

theorem does_pushId (id : String) : (m.scene stack).Does env c ⟨.PUSH, .id id⟩
    (.next ⟨(m.lookup c id).2.store, m.value, (m.lookup c id).1 :: stack⟩) := by
  apply Scene.does_next (contextLookup_sameProgram m.store m.contexts id)
  intro w t hscene
  simp only [execute, executePUSH, World.frame_of_scene hscene, Frame.lookupOrNone, Frame.lookup,
    World.contextLookup_of_scene hscene]
  rfl

theorem does_res : (m.scene (e :: stack)).Does env c ⟨.RES, .noArg⟩ (.next ⟨m.store, e, stack⟩) := by
  apply Scene.does_next (.refl m.store)
  intro w t hscene
  simp only [execute, executeRES, World.frame_of_scene hscene]
  rfl

theorem does_resInt (n : Int) : (m.scene stack).Does env c ⟨.RES, .val (.int n)⟩
    (.next ⟨m.store, .int n, stack⟩) := by
  apply Scene.does_next (.refl m.store)
  intro w t hscene
  simp only [execute, executeRES, World.frame_of_scene hscene]
  rfl

theorem does_peek : (m.scene (e :: stack)).Does env c ⟨.PEEK, .noArg⟩
    (.next ⟨m.store, e, e :: stack⟩) := by
  apply Scene.does_next (.refl m.store)
  intro w t hscene
  simp only [execute, executePEEK, World.frame_of_scene hscene]
  rfl

theorem does_dup : (m.scene (e :: stack)).Does env c ⟨.DUP, .noArg⟩
    (.next ⟨m.store, m.value, e :: e :: stack⟩) := by
  apply Scene.does_next (.refl m.store)
  intro w t hscene
  simp only [execute, executeDUP, World.frame_of_scene hscene]
  rfl

theorem does_rnil : (m.scene stack).Does env c ⟨.RNIL, .noArg⟩ (.next ⟨m.store, .none, stack⟩) := by
  apply Scene.does_next (.refl m.store)
  intro w t hscene
  simp only [execute, executeRNIL, World.frame_of_scene hscene]
  rfl

theorem does_ret : (m.scene stack).Does env c ⟨.RET, .noArg⟩
    (.complete ⟨m.store, m.value, stack⟩) := by
  refine ⟨.refl m.store, ?_⟩
  intro w t _ hscene
  simp only [execute, executeRET, World.frame_of_scene hscene]
  rfl

theorem contextSet_of_scene {w : World} {t : TaskId} {s : Scene} (h : w.scene t = s)
    (store : Store) (id : String) (e : Entity) :
    contextSet store w.contexts c id e = contextSet store s.contexts c id e := by
  rw [← h]
  have hchain : w.contexts.view.chain? (w.contexts.context c).previous =
      w.contexts.chain? (w.contexts.context c).previous := by
    cases (w.contexts.context c).previous with
    | none => rfl
    | some p => exact Contexts.chain_congr fun d _ => rfl
  unfold contextSet
  simp only [World.scene, Contexts.view, Context.view] at hchain ⊢
  rw [hchain]
  rfl

theorem contextSet_sameProgram (s : Store) (cs : Contexts) (id : String) (e : Entity) :
    s.SameProgram (contextSet s cs c id e) := by
  unfold contextSet
  dsimp only
  repeat' split
  all_goals exact ⟨fun _ => rfl, rfl⟩

theorem does_set (id : String) : (m.scene stack).Does env c ⟨.SET, .id id⟩
    (.next ⟨contextSet m.store m.contexts c id m.value, m.value, stack⟩) := by
  refine ⟨contextSet_sameProgram m.store m.contexts id m.value, ?_⟩
  intro w t hblock hscene
  have hvalue : (w.tasks t).resval = m.value := congrArg Scene.resval hscene
  simp only [execute, executeSET, World.frame_of_scene hscene, contextSet_of_scene hscene,
    hblock.parent, hvalue]
  rfl

/-- The call of a function object with code, without an argument. -/
theorem does_callFunction {o : ObjectId} {func : FunctionId} (hcls : m.store.cls o = .Function)
    (hinternal : m.store.internal o = .functionObj func)
    (hnative : (m.store.functions func).isNative = false) :
    (m.scene (.obj o :: stack)).Does env c ⟨.CLLN, .noArg⟩ (.call ⟨m.store, .none, stack⟩ func
      (m.store.modules (m.store.functions func).module).reflection (some c)) := by
  refine ⟨.refl m.store, ?_⟩
  intro w t _ hscene
  simp only [execute, executeCALL, World.frame_of_scene hscene, Memory.scene, Scene.frame,
    Frame.pop, callEntity, hcls, hinternal, callFunctionBase, Frame.withResval, if_true, hnative,
    Bool.false_eq_true, if_false]

theorem does_exit (n : Int) : (m.scene stack).Does env c ⟨.EXIT, .val (.int n)⟩
    (.complete ⟨m.store, .int n, stack⟩) := by
  refine ⟨.refl m.store, ?_⟩
  intro w t _ hscene
  simp only [execute, executeEXIT, World.frame_of_scene hscene]
  rfl

end Does

/-! ## Code that only moves values -/

namespace Exec

variable {env : Env} {program : Program} {c : ContextId} {m : Memory} {stack : List Entity}
  {e : Entity}

theorem append {a b : Code} {s s₁ s' : Scene} {signal : Signal}
    (ha : Exec env program c (.code a) s .normal s₁)
    (hb : Exec env program c (.code b) s₁ signal s') :
    Exec env program c (.code (a ++ b)) s signal s' := .seq ha hb

theorem push : Exec env program c (.code (opCode .PUSH)) (m.scene stack) .normal
    (m.scene (m.value :: stack)) := .plain does_push

theorem pushInt (n : Int) : Exec env program c (.code (intCode .PUSH n)) (m.scene stack) .normal
    (m.scene (.int n :: stack)) := .plain (does_pushInt n)

theorem pushId (id : String) : Exec env program c (.code (idCode .PUSH id)) (m.scene stack) .normal
    ((m.lookup c id).2.scene ((m.lookup c id).1 :: stack)) := .plain (does_pushId id)

theorem res : Exec env program c (.code (opCode .RES)) (m.scene (e :: stack)) .normal
    ({ m with value := e }.scene stack) := .plain does_res

theorem resInt (n : Int) : Exec env program c (.code (intCode .RES n)) (m.scene stack) .normal
    ({ m with value := .int n }.scene stack) := .plain (does_resInt n)

theorem peek : Exec env program c (.code (opCode .PEEK)) (m.scene (e :: stack)) .normal
    ({ m with value := e }.scene (e :: stack)) := .plain does_peek

theorem dup : Exec env program c (.code (opCode .DUP)) (m.scene (e :: stack)) .normal
    (m.scene (e :: e :: stack)) := .plain does_dup

theorem rnil : Exec env program c (.code (opCode .RNIL)) (m.scene stack) .normal
    ({ m with value := .none }.scene stack) := .plain does_rnil

theorem ret : Exec env program c (.code (opCode .RET)) (m.scene stack) .ret (m.scene stack) :=
  .complete does_ret

theorem exitInt (n : Int) : Exec env program c (.code (intCode .EXIT n)) (m.scene stack) .ret
    ({ m with value := .int n }.scene stack) := .complete (does_exit n)

end Exec

/-! ## Phrases and their code -/

namespace LoopTree

def lower : LoopTree → Loop
  | .while condition body => .ofWhile (JeffVm.lower condition) (JeffVm.lower body)
  | .for condition inc body =>
    .ofFor (JeffVm.lower condition) (JeffVm.lower inc) (JeffVm.lower body)
  | .foreach _ lhs body => .ofForeach (lowerAssignment lhs) (JeffVm.lower body)

/-- What the loop has on the stack. -/
def held : LoopTree → List Entity
  | .foreach iterator _ _ => [iterator]
  | _ => []

end LoopTree

namespace Phrase

def lower : Phrase → Fragment
  | tree e => .code (JeffVm.lower e)
  | elements list _ => .code (lowerTuple list)
  | statements list => .code (lowerStatements list)
  | entries _ list => .code (lowerEntries list)
  | postfixes suffixes => .code (lowerPostfixes suffixes)
  | operators suffixes => .code (lowerBiSuffixes suffixes)
  | chain kind suffixes => .code (Code.chain kind (lowerSuffixes suffixes))
  | branches cond conds elseExp =>
    .cases (Code.branches (lowerConditional cond) (lowerConditionals conds))
      (elseExp.map JeffVm.lower)
  | assign assignment => .code (lowerAssignment assignment)
  | setSuffixes _ suffixes => .code (lowerSetSuffixes suffixes)
  | subargs _ len i list => .code (lowerSubargs len i list)
  | test loop => .test loop.lower
  | first loop => .first loop.lower
  | second loop => .second loop.lower
  | condition loop => .code loop.lower.test
  | body loop => .code loop.lower.first
  | again loop => .code loop.lower.second
  | operate ins _ => .code (.plain ins)

/-- What the phrase takes from the stack. -/
def takes : Phrase → List Entity
  | entries map _ => [map]
  | setSuffixes value _ => [value]
  | subargs value _ _ _ => [value]
  | test loop | first loop | second loop | condition loop | body loop | again loop => loop.held
  | operate _ operands => operands
  | _ => []

/-- What the phrase leaves on the stack. -/
def leaves : Phrase → List Entity
  | elements _ values => values
  | entries map _ => [map]
  | test loop | first loop | second loop | condition loop | body loop | again loop => loop.held
  | _ => []

end Phrase

/-- The code of the phrase does the same on any stack; a `return` may leave anything there. -/
def Lowers (env : Env) (routines : Routines) (c : ContextId) (phrase : Phrase) (m : Memory)
    (signal : Signal) (m' : Memory) : Prop :=
  ∀ stack, ∃ stack', Exec env routines.lower c phrase.lower (m.scene (phrase.takes ++ stack)) signal
    (m'.scene stack') ∧ (signal ≠ .ret → stack' = phrase.leaves ++ stack)

section

variable {env : Env} {routines : Routines} {c d : ContextId} {phrase : Phrase}
  {m m' m₁ m₂ m₃ m₄ m₅ : Memory} {signal inner : Signal} {e : ExpressionTree}

theorem Lowers.exec (h : Lowers env routines c phrase m signal m') (hne : signal ≠ .ret)
    (stack : List Entity) : Exec env routines.lower c phrase.lower
      (m.scene (phrase.takes ++ stack)) signal (m'.scene (phrase.leaves ++ stack)) := by
  obtain ⟨stack', hexec, hstack⟩ := h stack
  rw [hstack hne] at hexec
  exact hexec

theorem Lowers.normal (h : Lowers env routines c phrase m .normal m') (stack : List Entity) :
    Exec env routines.lower c phrase.lower (m.scene (phrase.takes ++ stack)) .normal
      (m'.scene (phrase.leaves ++ stack)) := h.exec (fun heq => by cases heq) stack

theorem Lowers.of_exec (h : ∀ stack, Exec env routines.lower c phrase.lower
    (m.scene (phrase.takes ++ stack)) signal (m'.scene (phrase.leaves ++ stack))) :
    Lowers env routines c phrase m signal m' :=
  fun stack => ⟨phrase.leaves ++ stack, h stack, fun _ => rfl⟩

/-- The last part of a phrase decides how the phrase ends; it finds `before` on the stack. -/
theorem Lowers.of_last {last : Phrase} (before : List Entity)
    (h : Lowers env routines c last m₁ signal m') (hleaves : phrase.leaves = last.leaves ++ before)
    (hexec : ∀ stack stack', Exec env routines.lower c last.lower
      (m₁.scene (last.takes ++ (before ++ stack))) signal (m'.scene stack') →
        Exec env routines.lower c phrase.lower (m.scene (phrase.takes ++ stack)) signal
          (m'.scene stack')) :
    Lowers env routines c phrase m signal m' := by
  intro stack
  obtain ⟨stack', hlast, hstack⟩ := h (before ++ stack)
  refine ⟨stack', hexec stack stack' hlast, ?_⟩
  rw [hleaves, List.append_assoc]
  exact hstack

theorem Lowers.of_part {last : Phrase} (h : Lowers env routines c last m₁ signal m')
    (hleaves : phrase.leaves = last.leaves)
    (hexec : ∀ stack stack', Exec env routines.lower c last.lower (m₁.scene (last.takes ++ stack))
      signal (m'.scene stack') → Exec env routines.lower c phrase.lower
        (m.scene (phrase.takes ++ stack)) signal (m'.scene stack')) :
    Lowers env routines c phrase m signal m' :=
  h.of_last [] (hleaves.trans (List.append_nil _).symm) hexec

theorem Lowers.value (h : Lowers env routines c (.tree e) m .normal m') (stack : List Entity) :
    Exec env routines.lower c (.code (lower e)) (m.scene stack) .normal (m'.scene stack) :=
  h.normal stack

theorem Lowers.operation {ins : Instruction} {operands : List Entity}
    (h : Lowers env routines c (.operate ins operands) m .normal m') (stack : List Entity) :
    Exec env routines.lower c (.code (.plain ins)) (m.scene (operands ++ stack)) .normal
      (m'.scene stack) := h.normal stack

theorem Lowers.pushed (h : Lowers env routines c (.tree e) m .normal m') (stack : List Entity) :
    Exec env routines.lower c (.code (lower e ++ opCode .PUSH)) (m.scene stack) .normal
      (m'.scene (m'.value :: stack)) := (h.value stack).append .push

/-! ## Primary expressions -/

theorem Lowers.elementsNil : Lowers env routines c (.elements [] []) m .normal m :=
  .of_exec fun _ => .nil

theorem Lowers.elementsCons {elt : ExpressionTree} {rest : List ExpressionTree}
    {values : List Entity} (hrest : Lowers env routines c (.elements rest values) m .normal m₁)
    (helt : Lowers env routines c (.tree elt) m₁ .normal m₂) :
    Lowers env routines c (.elements (elt :: rest) (m₂.value :: values)) m .normal m₂ := by
  apply Lowers.of_exec
  intro stack
  exact ((hrest.normal stack).append (helt.value (values ++ stack))).append .push

theorem Lowers.one {id : Token} (h : id.text = trueKeyword) :
    Lowers env routines c (.tree (.identifier id)) m .normal { m with value := .int 1 } := by
  apply Lowers.of_exec
  intro stack
  rw [Phrase.lower, lower, lowerIdentifier, if_pos h]
  exact .resInt 1

theorem Lowers.nothing {id : Token} (htrue : id.text ≠ trueKeyword)
    (h : id.text = falseKeyword ∨ id.text = nilKeyword) :
    Lowers env routines c (.tree (.identifier id)) m .normal { m with value := .none } := by
  apply Lowers.of_exec
  intro stack
  rw [Phrase.lower, lower, lowerIdentifier, if_neg htrue, if_pos h]
  exact .rnil

theorem Lowers.identifier {id : Token} (htrue : id.text ≠ trueKeyword)
    (hnothing : ¬ (id.text = falseKeyword ∨ id.text = nilKeyword))
    (h : Lowers env routines c (.operate ⟨.RES, Tape.argOfToken id⟩ []) m .normal m') :
    Lowers env routines c (.tree (.identifier id)) m .normal m' := by
  apply Lowers.of_exec
  intro stack
  rw [Phrase.lower, lower, lowerIdentifier, if_neg htrue, if_neg hnothing]
  exact h.operation stack

/-- The elements of a tuple, and the instruction that takes them. -/
theorem Lowers.ofElements {exp : ExpressionTree} {list : List ExpressionTree}
    {values : List Entity} {ins : Instruction} (hexp : lower exp = lowerTuple list ++ .plain ins)
    (hlist : Lowers env routines c (.elements list values) m .normal m₁)
    (h : Lowers env routines c (.operate ins values) m₁ .normal m₂) :
    Lowers env routines c (.tree exp) m .normal m₂ := by
  apply Lowers.of_exec
  intro stack
  rw [Phrase.lower, hexp]
  exact (hlist.normal stack).append (h.operation stack)

theorem lower_arraySingle {token : Token} {exp : ExpressionTree}
    (hexp : ∀ tupleToken list, exp ≠ .tupleExpression tupleToken list) :
    lower (.arrayDeclaration token (some exp)) = lower exp ++ opCode .PUSH ++ intCode .ANEW 1 := by
  cases exp with
  | tupleExpression tupleToken list => exact absurd rfl (hexp tupleToken list)
  | _ => rfl

theorem Lowers.arraySingle {token : Token} {exp : ExpressionTree}
    (hexp : ∀ tupleToken list, exp ≠ .tupleExpression tupleToken list)
    (hvalue : Lowers env routines c (.tree exp) m .normal m₁)
    (hnew : Lowers env routines c (.operate ⟨.ANEW, .val (.int 1)⟩ [m₁.value]) m₁ .normal m₂) :
    Lowers env routines c (.tree (.arrayDeclaration token (some exp))) m .normal m₂ := by
  apply Lowers.of_exec
  intro stack
  rw [Phrase.lower, lower_arraySingle hexp]
  exact (hvalue.pushed stack).append (hnew.operation stack)

/-- A new map. -/
theorem Lowers.map (hmap : Lowers env routines c (.operate ⟨.CLLN, .id "Map"⟩
      [(m.lookup c "struct").1]) (m.lookup c "struct").2 .normal m') (stack : List Entity) :
    Exec env routines.lower c (.code (idCode .PUSH "struct" ++ idCode .CLLN "Map"))
      (m.scene stack) .normal (m'.scene stack) :=
  (Exec.pushId "struct").append (hmap.operation stack)

theorem Lowers.mapEmpty {lbrce : Token} (hmap : Lowers env routines c
      (.operate ⟨.CLLN, .id "Map"⟩ [(m.lookup c "struct").1]) (m.lookup c "struct").2 .normal m') :
    Lowers env routines c (.tree (.mapDeclaration lbrce [])) m .normal m' := by
  apply Lowers.of_exec
  intro stack
  exact (hmap.map stack).append .nil

theorem Lowers.mapEntries {lbrce : Token} {entry : MapDecEntry} {rest : List MapDecEntry}
    (hmap : Lowers env routines c (.operate ⟨.CLLN, .id "Map"⟩ [(m.lookup c "struct").1])
      (m.lookup c "struct").2 .normal m₁)
    (hentries : Lowers env routines c (.entries m₁.value (entry :: rest)) m₁ .normal m₂) :
    Lowers env routines c (.tree (.mapDeclaration lbrce (entry :: rest))) m .normal
      { m₂ with value := m₁.value } := by
  apply Lowers.of_exec
  intro stack
  have hrest : Exec env routines.lower c
      (.code (opCode .PUSH ++ lowerEntries (entry :: rest) ++ opCode .RES)) (m₁.scene stack) .normal
        ({ m₂ with value := m₁.value }.scene stack) :=
    (Exec.push.append (hentries.normal stack)).append .res
  exact (hmap.map stack).append hrest

theorem Lowers.entriesNil {map : Entity} : Lowers env routines c (.entries map []) m .normal m :=
  .of_exec fun _ => .nil

theorem Lowers.entriesCons {map : Entity} {colon : Token} {lhs rhs : ExpressionTree}
    {rest : List MapDecEntry} (hrhs : Lowers env routines c (.tree rhs) m .normal m₁)
    (hlhs : Lowers env routines c (.tree lhs) m₁ .normal m₂)
    (htuple : Lowers env routines c
      (.operate ⟨.TUPL, .val (.int 2)⟩ [m₂.value, m₁.value]) m₂ .normal m₃)
    (hset : Lowers env routines c (.operate ⟨.CALL, .id arraylikeSetKey⟩ [map]) m₃ .normal m₄)
    (hrest : Lowers env routines c (.entries map rest) m₄ .normal m₅) :
    Lowers env routines c (.entries map (⟨colon, lhs, rhs⟩ :: rest)) m .normal m₅ := by
  apply Lowers.of_exec
  intro stack
  have hvalue := Exec.dup.append (hrhs.value (map :: map :: stack))
  have hkey := (hvalue.append .push).append (hlhs.value (m₁.value :: map :: map :: stack))
  have hentry := ((hkey.append .push).append (htuple.operation (map :: map :: stack))).append
    (hset.operation (map :: stack))
  exact hentry.append (hrest.normal stack)

/-! ## Suffixes -/

theorem Lowers.suffixed {base : ExpressionTree} {suffixes : List Postfix}
    (hbase : Lowers env routines c (.tree base) m .normal m₁)
    (hsuffixes : Lowers env routines c (.postfixes suffixes) m₁ .normal m₂) :
    Lowers env routines c (.tree (.postfixExpression base suffixes)) m .normal m₂ := by
  apply Lowers.of_exec
  intro stack
  exact (hbase.value stack).append (hsuffixes.normal stack)

theorem Lowers.postfixesNil : Lowers env routines c (.postfixes []) m .normal m :=
  .of_exec fun _ => .nil

/-- The value so far is an operand of an instruction after an argument. -/
theorem Lowers.withArgument {exp : ExpressionTree} {ins : Instruction}
    (hexp : Lowers env routines c (.tree exp) m .normal m₁)
    (h : Lowers env routines c (.operate ins [m.value]) m₁ .normal m₂) (stack : List Entity) :
    Exec env routines.lower c (.code (opCode .PUSH ++ (lower exp ++ .plain ins))) (m.scene stack)
      .normal (m₂.scene stack) := by
  apply Exec.push.append
  exact (hexp.value (m.value :: stack)).append (h.operation stack)

theorem Lowers.callWith {token : Token} {exp : ExpressionTree} {rest : List Postfix}
    (hexp : Lowers env routines c (.tree exp) m .normal m₁)
    (hcall : Lowers env routines c (.operate ⟨.CALL, .noArg⟩ [m.value]) m₁ .normal m₂)
    (hrest : Lowers env routines c (.postfixes rest) m₂ .normal m₃) :
    Lowers env routines c (.postfixes (.fncall token (some exp) :: rest)) m .normal m₃ := by
  apply Lowers.of_exec
  intro stack
  exact (Lowers.withArgument hexp hcall stack).append (hrest.normal stack)

theorem Lowers.callWithout {token : Token} {rest : List Postfix}
    (hcall : Lowers env routines c (.operate ⟨.CLLN, .noArg⟩ [m.value]) m .normal m₁)
    (hrest : Lowers env routines c (.postfixes rest) m₁ .normal m₂) :
    Lowers env routines c (.postfixes (.fncall token none :: rest)) m .normal m₂ := by
  apply Lowers.of_exec
  intro stack
  exact (Exec.push.append (hcall.operation stack)).append (hrest.normal stack)

theorem Lowers.index {token : Token} {exp : ExpressionTree} {rest : List Postfix}
    (hexp : Lowers env routines c (.tree exp) m .normal m₁)
    (hindex : Lowers env routines c (.operate ⟨.AIDX, .noArg⟩ [m.value]) m₁ .normal m₂)
    (hrest : Lowers env routines c (.postfixes rest) m₂ .normal m₃) :
    Lowers env routines c (.postfixes (.arrayIndex token exp :: rest)) m .normal m₃ := by
  apply Lowers.of_exec
  intro stack
  have hvalue := Exec.push.append (hexp.value (m.value :: stack))
  exact (hvalue.append (hindex.operation stack)).append (hrest.normal stack)

theorem Lowers.methodWith {token id callToken : Token} {exp : ExpressionTree}
    {rest : List Postfix} (hexp : Lowers env routines c (.tree exp) m .normal m₁)
    (hcall : Lowers env routines c (.operate ⟨.CALL, Tape.argOfToken id⟩ [m.value]) m₁ .normal m₂)
    (hrest : Lowers env routines c (.postfixes rest) m₂ .normal m₃) :
    Lowers env routines c (.postfixes (.field token id :: .fncall callToken (some exp) :: rest)) m
      .normal m₃ := by
  apply Lowers.of_exec
  intro stack
  exact (Lowers.withArgument hexp hcall stack).append (hrest.normal stack)

theorem Lowers.methodWithout {token id callToken : Token} {rest : List Postfix}
    (hcall : Lowers env routines c (.operate ⟨.CLLN, Tape.argOfToken id⟩ [m.value]) m .normal m₁)
    (hrest : Lowers env routines c (.postfixes rest) m₁ .normal m₂) :
    Lowers env routines c (.postfixes (.field token id :: .fncall callToken none :: rest)) m
      .normal m₂ := by
  apply Lowers.of_exec
  intro stack
  exact (Exec.push.append (hcall.operation stack)).append (hrest.normal stack)

theorem lowerPostfixes_field {token id : Token} {rest : List Postfix}
    (hrest : ∀ callToken exp rest', rest ≠ .fncall callToken exp :: rest') :
    lowerPostfixes (.field token id :: rest) = tokenCode .GET id ++ lowerPostfixes rest := by
  cases rest with
  | nil => rfl
  | cons suffix rest =>
    cases suffix with
    | fncall callToken exp => exact absurd rfl (hrest callToken exp rest)
    | _ => rfl

theorem Lowers.field {token id : Token} {rest : List Postfix}
    (hcall : ∀ callToken exp rest', rest ≠ .fncall callToken exp :: rest')
    (hget : Lowers env routines c (.operate ⟨.GET, Tape.argOfToken id⟩ []) m .normal m₁)
    (hrest : Lowers env routines c (.postfixes rest) m₁ .normal m₂) :
    Lowers env routines c (.postfixes (.field token id :: rest)) m .normal m₂ := by
  apply Lowers.of_exec
  intro stack
  rw [Phrase.lower, lowerPostfixes_field hcall]
  exact (hget.operation stack).append (hrest.normal stack)

/-! ## Operators -/

theorem Lowers.range {token : Token} {start stop : ExpressionTree}
    (hstop : Lowers env routines c (.tree stop) (m.lookup c "range").2 .normal m₁)
    (hstart : Lowers env routines c (.tree start) m₁ .normal m₂)
    (htuple : Lowers env routines c
      (.operate ⟨.TUPL, .val (.int 2)⟩ [m₂.value, m₁.value]) m₂ .normal m₃)
    (hcall : Lowers env routines c (.operate ⟨.CALL, .noArg⟩ [(m.lookup c "range").1]) m₃ .normal
      m₄) : Lowers env routines c (.tree (.rangeExpression token start none stop)) m .normal m₄ := by
  apply Lowers.of_exec
  intro stack
  have hname : Exec env routines.lower c (.code (idCode .PUSH "range" ++ .nil)) (m.scene stack)
      .normal ((m.lookup c "range").2.scene ((m.lookup c "range").1 :: stack)) :=
    (Exec.pushId "range").append .nil
  have hsecond := (hname.append (hstop.value _)).append .push
  have hboth := (hsecond.append (hstart.value _)).append .push
  exact (hboth.append (htuple.operation _)).append (hcall.operation stack)

theorem Lowers.rangeInc {token : Token} {start inc stop : ExpressionTree}
    (hinc : Lowers env routines c (.tree inc) (m.lookup c "range").2 .normal m₁)
    (hstop : Lowers env routines c (.tree stop) m₁ .normal m₂)
    (hstart : Lowers env routines c (.tree start) m₂ .normal m₃)
    (htuple : Lowers env routines c
      (.operate ⟨.TUPL, .val (.int 3)⟩ [m₃.value, m₂.value, m₁.value]) m₃ .normal m₄)
    (hcall : Lowers env routines c (.operate ⟨.CALL, .noArg⟩ [(m.lookup c "range").1]) m₄ .normal
      m₅) :
    Lowers env routines c (.tree (.rangeExpression token start (some inc) stop)) m .normal m₅ := by
  apply Lowers.of_exec
  intro stack
  have hname : Exec env routines.lower c (.code (idCode .PUSH "range")) (m.scene stack) .normal
      ((m.lookup c "range").2.scene ((m.lookup c "range").1 :: stack)) := .pushId "range"
  have hsecond := ((hname.append (hinc.pushed _)).append (hstop.value _)).append .push
  have hall := (hsecond.append (hstart.value _)).append .push
  exact (hall.append (htuple.operation _)).append (hcall.operation stack)

theorem Lowers.negConstant {token constantToken : Token} {n : Int}
    (h : tokenToPrimitive constantToken = some (.int n)) :
    Lowers env routines c (.tree (.unaryExpression token .negate (.constant constantToken))) m
      .normal { m with value := .int (wrap32 (-n)) } := by
  apply Lowers.of_exec
  intro stack
  rw [Phrase.lower, lower, lowerNeg, h]
  exact .resInt (wrap32 (-n))

theorem lower_negate {token : Token} {exp : ExpressionTree}
    (hexp : ∀ constantToken, exp ≠ .constant constantToken) :
    lower (.unaryExpression token .negate exp) = lower exp ++ lowerUnary .negate := by
  cases exp with
  | constant constantToken => exact absurd rfl (hexp constantToken)
  | _ => rfl

theorem Lowers.negate {token : Token} {exp : ExpressionTree}
    (hexp : ∀ constantToken, exp ≠ .constant constantToken)
    (hvalue : Lowers env routines c (.tree exp) m .normal m₁)
    (hmult : Lowers env routines c (.operate ⟨.MULT, .noArg⟩ [.int (-1), m₁.value]) m₁ .normal m₂) :
    Lowers env routines c (.tree (.unaryExpression token .negate exp)) m .normal m₂ := by
  apply Lowers.of_exec
  intro stack
  rw [Phrase.lower, lower_negate hexp]
  apply (hvalue.value stack).append
  exact (Exec.push.append (.pushInt (-1))).append (hmult.operation stack)

theorem lower_unary {token : Token} {type : UnaryType} {exp : ExpressionTree} {ins : Instruction}
    (h : unaryIns type = some ins) :
    lower (.unaryExpression token type exp) = lower exp ++ .plain ins := by
  cases type with
  | not =>
    cases h
    rfl
  | await =>
    cases h
    rfl
  | _ => cases h

theorem Lowers.unary {token : Token} {type : UnaryType} {exp : ExpressionTree} {ins : Instruction}
    (htype : unaryIns type = some ins) (hvalue : Lowers env routines c (.tree exp) m .normal m₁)
    (h : Lowers env routines c (.operate ins []) m₁ .normal m₂) :
    Lowers env routines c (.tree (.unaryExpression token type exp)) m .normal m₂ := by
  apply Lowers.of_exec
  intro stack
  rw [Phrase.lower, lower_unary htype]
  exact (hvalue.value stack).append (h.operation stack)

theorem Lowers.bi {level : BiLevel} {exp : ExpressionTree} {suffixes : List BiSuffix}
    (hexp : Lowers env routines c (.tree exp) m .normal m₁)
    (hsuffixes : Lowers env routines c (.operators suffixes) m₁ .normal m₂) :
    Lowers env routines c (.tree (.biExpression level exp suffixes)) m .normal m₂ := by
  apply Lowers.of_exec
  intro stack
  exact (hexp.value stack).append (hsuffixes.normal stack)

theorem Lowers.operatorsNil : Lowers env routines c (.operators []) m .normal m :=
  .of_exec fun _ => .nil

theorem lowerBiSuffixes_cons {token : Token} {type : BiType} {exp : ExpressionTree} {op : Op}
    {rest : List BiSuffix} (h : biToIns type = some op) :
    lowerBiSuffixes (⟨token, type, exp⟩ :: rest) =
      opCode .PUSH ++ lower exp ++ opCode .PUSH ++ opCode op ++ lowerBiSuffixes rest := by
  rw [lowerBiSuffixes, h]

theorem Lowers.operatorsCons {token : Token} {type : BiType} {exp : ExpressionTree} {op : Op}
    {rest : List BiSuffix} (htype : biToIns type = some op)
    (hexp : Lowers env routines c (.tree exp) m .normal m₁)
    (h : Lowers env routines c (.operate ⟨op, .noArg⟩ [m₁.value, m.value]) m₁ .normal m₂)
    (hrest : Lowers env routines c (.operators rest) m₂ .normal m₃) :
    Lowers env routines c (.operators (⟨token, type, exp⟩ :: rest)) m .normal m₃ := by
  apply Lowers.of_exec
  intro stack
  rw [Phrase.lower, lowerBiSuffixes_cons htype]
  have hvalues := (Exec.push.append (hexp.value (m.value :: stack))).append .push
  exact (hvalues.append (h.operation stack)).append (hrest.normal stack)

/-- The first operand of a chain of `and` or `or`, and the chain. -/
theorem Lowers.chained {test : Test} {exp : ExpressionTree} {suffixes : List BiSuffix}
    (hexp : Lowers env routines c (.tree exp) m .normal m₁)
    (hchain : Lowers env routines c (.chain test suffixes) m₁ .normal m₂) (stack : List Entity) :
    Exec env routines.lower c (.code (lower exp ++ Code.chain test (lowerSuffixes suffixes)))
      (m.scene stack) .normal (m₂.scene stack) :=
  (hexp.value stack).append (hchain.normal stack)

theorem Lowers.chainNil {test : Test} : Lowers env routines c (.chain test []) m .normal m :=
  .of_exec fun _ => .nil

theorem Lowers.chainStop {test : Test} {suffix : BiSuffix} {rest : List BiSuffix}
    (hjumps : test.jumps m.value = true) :
    Lowers env routines c (.chain test (suffix :: rest)) m .normal m := by
  obtain ⟨token, type, exp⟩ := suffix
  exact .of_exec fun _ => .skipOver hjumps

theorem Lowers.chainCons {test : Test} {token : Token} {type : BiType} {exp : ExpressionTree}
    {rest : List BiSuffix} (hjumps : test.jumps m.value = false)
    (hexp : Lowers env routines c (.tree exp) m .normal m₁)
    (hrest : Lowers env routines c (.chain test rest) m₁ .normal m₂) :
    Lowers env routines c (.chain test (⟨token, type, exp⟩ :: rest)) m .normal m₂ := by
  apply Lowers.of_exec
  intro stack
  exact .skipInto hjumps (Lowers.chained hexp hrest stack)

/-- The operands of `in`, and its call. -/
theorem Lowers.contains {element collection : ExpressionTree}
    (hcollection : Lowers env routines c (.tree collection) m .normal m₁)
    (helement : Lowers env routines c (.tree element) m₁ .normal m₂)
    (hcall : Lowers env routines c (.operate ⟨.CALL, .id inFnName⟩ [m₁.value]) m₂ .normal m₃)
    (stack : List Entity) : Exec env routines.lower c
      (.code (lower collection ++ opCode .PUSH ++ lower element ++ idCode .CALL inFnName))
      (m.scene stack) .normal (m₃.scene stack) :=
  ((hcollection.pushed stack).append (helement.value (m₁.value :: stack))).append
    (hcall.operation stack)

theorem Lowers.isIn {token : Token} {element collection : ExpressionTree}
    (hcollection : Lowers env routines c (.tree collection) m .normal m₁)
    (helement : Lowers env routines c (.tree element) m₁ .normal m₂)
    (hcall : Lowers env routines c (.operate ⟨.CALL, .id inFnName⟩ [m₁.value]) m₂ .normal m₃) :
    Lowers env routines c (.tree (.inExpression token false element collection)) m .normal m₃ := by
  apply Lowers.of_exec
  intro stack
  exact (Lowers.contains hcollection helement hcall stack).append .nil

theorem Lowers.isNotIn {token : Token} {element collection : ExpressionTree}
    (hcollection : Lowers env routines c (.tree collection) m .normal m₁)
    (helement : Lowers env routines c (.tree element) m₁ .normal m₂)
    (hcall : Lowers env routines c (.operate ⟨.CALL, .id inFnName⟩ [m₁.value]) m₂ .normal m₃)
    (hnot : Lowers env routines c (.operate ⟨.NOT, .noArg⟩ []) m₃ .normal m₄) :
    Lowers env routines c (.tree (.inExpression token true element collection)) m .normal m₄ := by
  apply Lowers.of_exec
  intro stack
  exact (Lowers.contains hcollection helement hcall stack).append (hnot.operation stack)

theorem Lowers.is {token : Token} {exp type : ExpressionTree}
    (hexp : Lowers env routines c (.tree exp) m .normal m₁)
    (htype : Lowers env routines c (.tree type) m₁ .normal m₂)
    (his : Lowers env routines c (.operate ⟨.IS, .noArg⟩ [m₂.value, m₁.value]) m₂ .normal m₃) :
    Lowers env routines c (.tree (.isExpression token exp type)) m .normal m₃ := by
  apply Lowers.of_exec
  intro stack
  have hboth := ((hexp.pushed stack).append (htype.value (m₁.value :: stack))).append .push
  exact hboth.append (his.operation stack)

theorem lowerAnonFunction_eq (func : FunctionDef) : ∃ body, lowerAnonFunction func =
    .func body ++ idCode .RES (Tape.anonFnForToken func.defToken) := by
  obtain ⟨defToken, fnName, specialMethod, isAsync, args, body⟩ := func
  cases args with
  | none => exact ⟨_, rfl⟩
  | some args => exact ⟨_, rfl⟩

theorem Lowers.anonFunction {func : FunctionDef}
    (h : Lowers env routines c (.operate ⟨.RES, .id (Tape.anonFnForToken func.defToken)⟩ []) m
      .normal m') : Lowers env routines c (.tree (.anonFunctionDefinition func)) m .normal m' := by
  apply Lowers.of_exec
  intro stack
  obtain ⟨body, hlower⟩ := lowerAnonFunction_eq func
  rw [Phrase.lower, lower, hlower]
  exact Exec.func.append (h.operation stack)

/-! ## Branches -/

theorem lowerIfElse_eq (first : Conditional) (rest : List Conditional)
    (elseExp : Option ExpressionTree) : lowerIfElse ⟨first, rest, elseExp⟩ =
      match elseExp with
      | none => .ifThen (Code.branches (lowerConditional first) (lowerConditionals rest))
      | some e =>
        .ifElse (Code.branches (lowerConditional first) (lowerConditionals rest)) (lower e) := by
  cases elseExp <;> rfl

theorem Lowers.ofBranches {exp : ExpressionTree} {first : Conditional} {rest : List Conditional}
    {elseExp : Option ExpressionTree} (hexp : lower exp = lowerIfElse ⟨first, rest, elseExp⟩)
    (h : Lowers env routines c (.branches first rest elseExp) m signal m') :
    Lowers env routines c (.tree exp) m signal m' := by
  apply h.of_part
  · rfl
  · intro stack stack' hexec
    rw [Phrase.lower, hexp, lowerIfElse_eq]
    cases elseExp with
    | none => exact .ifThen hexec
    | some e => exact .ifElse hexec

theorem Lowers.taken {ifToken : Token} {condition body : ExpressionTree}
    {rest : List Conditional} {elseExp : Option ExpressionTree}
    (hcondition : Lowers env routines c (.tree condition) m .normal m₁)
    (hsome : m₁.value.isNone = false) (hbody : Lowers env routines c (.tree body) m₁ signal m') :
    Lowers env routines c (.branches ⟨ifToken, condition, body⟩ rest elseExp) m signal m' := by
  apply hbody.of_part
  · rfl
  · intro stack stack' hexec
    cases rest with
    | nil => exact .lastThen (hcondition.value stack) hsome hexec
    | cons next rest => exact .moreThen (hcondition.value stack) hsome hexec

theorem Lowers.passed {ifToken : Token} {condition body : ExpressionTree}
    {next : Conditional} {rest : List Conditional} {elseExp : Option ExpressionTree}
    (hcondition : Lowers env routines c (.tree condition) m .normal m₁)
    (hnone : m₁.value.isNone = true)
    (hrest : Lowers env routines c (.branches next rest elseExp) m₁ signal m') :
    Lowers env routines c (.branches ⟨ifToken, condition, body⟩ (next :: rest) elseExp) m signal
      m' := by
  apply hrest.of_part
  · rfl
  · intro stack stack' hexec
    exact .moreRest (hcondition.value stack) hnone hexec

theorem Lowers.noBranch {ifToken : Token} {condition body : ExpressionTree}
    (hcondition : Lowers env routines c (.tree condition) m .normal m₁)
    (hnone : m₁.value.isNone = true) :
    Lowers env routines c (.branches ⟨ifToken, condition, body⟩ [] none) m .normal m₁ := by
  apply Lowers.of_exec
  intro stack
  exact .lastNone (hcondition.value stack) hnone

theorem Lowers.otherwise {ifToken : Token} {condition body elseExp : ExpressionTree}
    (hcondition : Lowers env routines c (.tree condition) m .normal m₁)
    (hnone : m₁.value.isNone = true) (helse : Lowers env routines c (.tree elseExp) m₁ signal m') :
    Lowers env routines c (.branches ⟨ifToken, condition, body⟩ [] (some elseExp)) m signal m' := by
  apply helse.of_part
  · rfl
  · intro stack stack' hexec
    exact .lastElse (hcondition.value stack) hnone hexec

/-! ## Assignments -/

theorem Lowers.assignment {eqToken : Token} {assignment : Assignment} {rhs : ExpressionTree}
    (hrhs : Lowers env routines c (.tree rhs) m .normal m₁)
    (hassign : Lowers env routines c (.assign assignment) m₁ .normal m₂) :
    Lowers env routines c (.tree (.assignmentExpression eqToken assignment rhs)) m .normal m₂ := by
  apply Lowers.of_exec
  intro stack
  exact (hrhs.value stack).append (hassign.normal stack)

theorem Lowers.assignComplex {prefixExp : ExpressionTree} {suffixes : List Postfix}
    (hbase : Lowers env routines c (.tree prefixExp) m .normal m₁)
    (hsuffixes : Lowers env routines c (.setSuffixes m.value suffixes) m₁ .normal m₂) :
    Lowers env routines c (.assign (.complex prefixExp suffixes)) m .normal m₂ := by
  apply Lowers.of_exec
  intro stack
  exact (Exec.push.append (hbase.value (m.value :: stack))).append (hsuffixes.normal stack)

theorem Lowers.setIndex {value : Entity} {token : Token} {exp : ExpressionTree}
    (hexp : Lowers env routines c (.tree exp) m .normal m₁)
    (hset : Lowers env routines c (.operate ⟨.ASET, .noArg⟩ [m.value, value]) m₁ .normal m₂) :
    Lowers env routines c (.setSuffixes value [.arrayIndex token exp]) m .normal m₂ := by
  apply Lowers.of_exec
  intro stack
  exact (Exec.push.append (hexp.value (m.value :: value :: stack))).append (hset.operation stack)

theorem Lowers.setThroughIndex {value : Entity} {token : Token} {exp : ExpressionTree}
    {suffix : Postfix} {rest : List Postfix}
    (hexp : Lowers env routines c (.tree exp) m .normal m₁)
    (hindex : Lowers env routines c (.operate ⟨.AIDX, .noArg⟩ [m.value]) m₁ .normal m₂)
    (hrest : Lowers env routines c (.setSuffixes value (suffix :: rest)) m₂ .normal m₃) :
    Lowers env routines c (.setSuffixes value (.arrayIndex token exp :: suffix :: rest)) m .normal
      m₃ := by
  apply Lowers.of_exec
  intro stack
  have hvalue := Exec.push.append (hexp.value (m.value :: value :: stack))
  exact hvalue.append ((hindex.operation (value :: stack)).append (hrest.normal stack))

theorem lowerSetSuffixes_field {token id : Token} {suffix : Postfix} {rest : List Postfix}
    (hrest : ∀ callToken exp next rest', suffix :: rest ≠ .fncall callToken exp :: next :: rest') :
    lowerSetSuffixes (.field token id :: suffix :: rest) =
      tokenCode .GET id ++ lowerSetSuffixes (suffix :: rest) := by
  cases suffix with
  | fncall callToken exp =>
    cases rest with
    | nil => rfl
    | cons next rest => exact absurd rfl (hrest callToken exp next rest)
  | _ => rfl

theorem Lowers.setThroughField {value : Entity} {token id : Token} {suffix : Postfix}
    {rest : List Postfix}
    (hcall : ∀ callToken exp next rest', suffix :: rest ≠ .fncall callToken exp :: next :: rest')
    (hget : Lowers env routines c (.operate ⟨.GET, Tape.argOfToken id⟩ []) m .normal m₁)
    (hrest : Lowers env routines c (.setSuffixes value (suffix :: rest)) m₁ .normal m₂) :
    Lowers env routines c (.setSuffixes value (.field token id :: suffix :: rest)) m .normal m₂ := by
  apply Lowers.of_exec
  intro stack
  rw [Phrase.lower, lowerSetSuffixes_field hcall]
  exact (hget.operation (value :: stack)).append (hrest.normal stack)

theorem Lowers.setThroughMethod {value : Entity} {token id callToken : Token}
    {exp : ExpressionTree} {suffix : Postfix} {rest : List Postfix}
    (hexp : Lowers env routines c (.tree exp) m .normal m₁)
    (hcall : Lowers env routines c (.operate ⟨.CALL, Tape.argOfToken id⟩ [m.value]) m₁ .normal m₂)
    (hrest : Lowers env routines c (.setSuffixes value (suffix :: rest)) m₂ .normal m₃) :
    Lowers env routines c (.setSuffixes value
      (.field token id :: .fncall callToken (some exp) :: suffix :: rest)) m .normal m₃ := by
  apply Lowers.of_exec
  intro stack
  exact (Lowers.withArgument hexp hcall (value :: stack)).append (hrest.normal stack)

theorem Lowers.setThroughCall {value : Entity} {token : Token} {exp : ExpressionTree}
    {suffix : Postfix} {rest : List Postfix}
    (hexp : Lowers env routines c (.tree exp) m .normal m₁)
    (hcall : Lowers env routines c (.operate ⟨.CALL, .noArg⟩ [m.value]) m₁ .normal m₂)
    (hrest : Lowers env routines c (.setSuffixes value (suffix :: rest)) m₂ .normal m₃) :
    Lowers env routines c (.setSuffixes value (.fncall token (some exp) :: suffix :: rest)) m .normal
      m₃ := by
  apply Lowers.of_exec
  intro stack
  exact (Lowers.withArgument hexp hcall (value :: stack)).append (hrest.normal stack)

theorem Lowers.assignMulti {isArray : Bool} {subargs : List Assignment}
    (h : Lowers env routines c (.subargs m.value subargs.length 0 subargs) m .normal m') :
    Lowers env routines c (.assign (.multi isArray subargs)) m .normal m' := by
  apply Lowers.of_exec
  intro stack
  exact Exec.push.append (h.normal stack)

/-- An element of the value on the stack is assigned. -/
theorem Lowers.subarg {value : Entity} {i : Nat} {assignment : Assignment} {take : Code}
    {stack stack' : List Entity}
    (htake : Exec env routines.lower c (.code take) (m.scene (value :: stack)) .normal
      ({ m with value := value }.scene stack'))
    (hindex : Lowers env routines c (.operate ⟨.AIDX, .noArg⟩ [value])
      { m with value := .int i } .normal m₁)
    (hassign : Lowers env routines c (.assign assignment) m₁ .normal m₂) :
    Exec env routines.lower c (.code (take ++ opCode .PUSH ++ intCode .RES i ++ opCode .AIDX ++
      lowerAssignment assignment)) (m.scene (value :: stack)) .normal (m₂.scene stack') := by
  have hvalue := (htake.append .push).append (.resInt i)
  exact (hvalue.append (hindex.operation stack')).append (hassign.normal stack')

theorem Lowers.subargsMore {value : Entity} {len i : Nat} {assignment : Assignment}
    {rest : List Assignment} (hi : i < len - i)
    (hindex : Lowers env routines c (.operate ⟨.AIDX, .noArg⟩ [value])
      { m with value := .int i } .normal m₁)
    (hassign : Lowers env routines c (.assign assignment) m₁ .normal m₂)
    (hrest : Lowers env routines c (.subargs value len (i + 1) rest) m₂ .normal m₃) :
    Lowers env routines c (.subargs value len i (assignment :: rest)) m .normal m₃ := by
  apply Lowers.of_exec
  intro stack
  rw [Phrase.lower, lowerSubargs, if_pos hi]
  exact (Lowers.subarg .peek hindex hassign).append (hrest.normal stack)

theorem Lowers.subargsLast {value : Entity} {len i : Nat} {assignment : Assignment}
    (hi : ¬ i < len - i)
    (hindex : Lowers env routines c (.operate ⟨.AIDX, .noArg⟩ [value])
      { m with value := .int i } .normal m₁)
    (hassign : Lowers env routines c (.assign assignment) m₁ .normal m₂) :
    Lowers env routines c (.subargs value len i [assignment]) m .normal m₂ := by
  apply Lowers.of_exec
  intro stack
  rw [Phrase.lower, lowerSubargs, if_neg hi]
  exact (Lowers.subarg .res hindex hassign).append .nil

/-! ## Statements -/

theorem Lowers.statementsNil : Lowers env routines c (.statements []) m .normal m :=
  .of_exec fun _ => .nil

theorem Lowers.statementsCons {tree : ExpressionTree} {rest : List ExpressionTree}
    (htree : Lowers env routines c (.tree tree) m .normal m₁)
    (hrest : Lowers env routines c (.statements rest) m₁ signal m') :
    Lowers env routines c (.statements (tree :: rest)) m signal m' := by
  apply hrest.of_part
  · rfl
  · intro stack stack' hexec
    exact (htree.value stack).append hexec

theorem Lowers.statementsStop {tree : ExpressionTree} {rest : List ExpressionTree}
    (hne : signal ≠ .normal) (htree : Lowers env routines c (.tree tree) m signal m') :
    Lowers env routines c (.statements (tree :: rest)) m signal m' := by
  apply htree.of_part
  · rfl
  · intro stack stack' hexec
    exact .seqStop hne hexec

theorem Lowers.returnValue {returnToken : Token} {exp : ExpressionTree}
    (hexp : Lowers env routines c (.tree exp) m .normal m') :
    Lowers env routines c (.tree (.jumpStatement returnToken (some exp))) m .ret m' := by
  apply Lowers.of_exec
  intro stack
  exact (hexp.value stack).append .ret

theorem Lowers.returnOnly {returnToken : Token} :
    Lowers env routines c (.tree (.jumpStatement returnToken none)) m .ret m := by
  apply Lowers.of_exec
  intro stack
  exact Exec.nil.append .ret

theorem Lowers.jump {token : Token} {type : BreakType} :
    Lowers env routines c (.tree (.breakStatement token type)) m (.jump type) m :=
  .of_exec fun _ => .brk

/-! ## Blocks -/

theorem Memory.enterBlock_scene (h : m.enterBlock c = some (d, m')) (stack : List Entity) :
    (m.scene stack).enterBlock c = some (d, m'.scene stack) := by
  obtain ⟨⟨d', s⟩, henter, heq⟩ := Option.map_eq_some_iff.mp h
  cases heq
  obtain ⟨cs, hcreate, rfl⟩ := Scene.enterBlock_some henter
  unfold Scene.enterBlock
  exact Option.map_eq_some_iff.mpr ⟨_, hcreate, rfl⟩

theorem Memory.enter_scene {func : FunctionId} {self : ObjectId}
    {parentContext : Option ContextId} (h : m.enter func self parentContext = some (d, m'))
    (stack : List Entity) :
    (m.scene stack).enter func self parentContext = some (d, m'.scene []) := by
  obtain ⟨⟨d', s⟩, henter, heq⟩ := Option.map_eq_some_iff.mp h
  cases heq
  obtain ⟨cs, hcreate, rfl⟩ := Scene.enter_some henter
  unfold Scene.enter
  exact Option.map_eq_some_iff.mpr ⟨_, hcreate, rfl⟩

theorem Lowers.try {tryToken catchToken : Token} {tryBody catchBody : ExpressionTree}
    {errorAssignmentLhs : Assignment} (henter : m.enterBlock c = some (d, m₁))
    (hbody : Lowers env routines d (.tree tryBody) m₁ .normal m₂)
    (hset : Lowers env routines d (.operate ⟨.SET, .id "$try_goto"⟩ [])
      { m₂ with value := .none } .normal m₃) :
    Lowers env routines c
      (.tree (.tryStatement tryToken catchToken tryBody errorAssignmentLhs catchBody)) m .normal m₃ := by
  apply Lowers.of_exec
  intro stack
  exact .tryDone (Memory.enterBlock_scene henter stack) (hbody.value stack)
    (Exec.rnil.append (hset.operation stack))

theorem Lowers.tryReturn {tryToken catchToken : Token} {tryBody catchBody : ExpressionTree}
    {errorAssignmentLhs : Assignment} (henter : m.enterBlock c = some (d, m₁))
    (hbody : Lowers env routines d (.tree tryBody) m₁ .ret m₂) :
    Lowers env routines c
      (.tree (.tryStatement tryToken catchToken tryBody errorAssignmentLhs catchBody)) m .ret m₂ := by
  intro stack
  obtain ⟨stack', hexec, -⟩ := hbody stack
  exact ⟨stack', .tryReturn (Memory.enterBlock_scene henter stack) hexec, fun h => absurd rfl h⟩

theorem Lowers.while {whileToken : Token} {condition body : ExpressionTree}
    (henter : m.enterBlock c = some (d, m₁))
    (hloop : Lowers env routines d (.test (.while condition body)) m₁ signal m₂) :
    Lowers env routines c (.tree (.whileStatement whileToken condition body)) m signal m₂ := by
  intro stack
  obtain ⟨stack', hexec, hstack⟩ := hloop stack
  exact ⟨stack', .whileLoop (Memory.enterBlock_scene henter stack) hexec, hstack⟩

theorem Lowers.for {forToken : Token} {init condition inc body : ExpressionTree}
    (henter : m.enterBlock c = some (d, m₁))
    (hinit : Lowers env routines d (.tree init) m₁ .normal m₂)
    (hloop : Lowers env routines d (.test (.for condition inc body)) m₂ signal m₃) :
    Lowers env routines c (.tree (.forStatement forToken init condition inc body)) m signal m₃ := by
  intro stack
  obtain ⟨stack', hexec, hstack⟩ := hloop stack
  exact ⟨stack', .forLoop (Memory.enterBlock_scene henter stack) (hinit.value stack) hexec, hstack⟩

/-- The iterator of a `foreach` is made and pushed. -/
theorem Lowers.iterator {iterable : ExpressionTree}
    (hiterable : Lowers env routines c (.tree iterable) m .normal m₁)
    (hiter : Lowers env routines c (.operate ⟨.CALL, .id iterFnName⟩ [m₁.value]) m₁ .normal m₂)
    (stack : List Entity) : Exec env routines.lower c (.code (foreachInit (lower iterable)))
      (m.scene stack) .normal (m₂.scene (m₂.value :: stack)) :=
  ((hiterable.pushed stack).append (hiter.operation stack)).append .push

theorem Lowers.foreach {forToken inToken : Token} {lhs : Assignment}
    {iterable body : ExpressionTree} (henter : m.enterBlock c = some (d, m₁))
    (hiterable : Lowers env routines d (.tree iterable) m₁ .normal m₂)
    (hiter : Lowers env routines d (.operate ⟨.CALL, .id iterFnName⟩ [m₂.value]) m₂ .normal m₃)
    (hloop : Lowers env routines d (.test (.foreach m₃.value lhs body)) m₃ .normal m₄) :
    Lowers env routines c (.tree (.foreachStatement forToken inToken lhs iterable body)) m .normal
      { m₄ with value := m₃.value } := by
  apply Lowers.of_exec
  intro stack
  exact .foreachDone (Memory.enterBlock_scene henter stack)
    (Lowers.iterator hiterable hiter stack) (hloop.normal stack) .res

theorem Lowers.foreachReturn {forToken inToken : Token} {lhs : Assignment}
    {iterable body : ExpressionTree} (henter : m.enterBlock c = some (d, m₁))
    (hiterable : Lowers env routines d (.tree iterable) m₁ .normal m₂)
    (hiter : Lowers env routines d (.operate ⟨.CALL, .id iterFnName⟩ [m₂.value]) m₂ .normal m₃)
    (hloop : Lowers env routines d (.test (.foreach m₃.value lhs body)) m₃ .ret m₄) :
    Lowers env routines c (.tree (.foreachStatement forToken inToken lhs iterable body)) m .ret
      m₄ := by
  intro stack
  obtain ⟨stack', hexec, -⟩ := hloop stack
  exact ⟨stack', .foreachReturn (Memory.enterBlock_scene henter stack)
    (Lowers.iterator hiterable hiter stack) hexec, fun h => absurd rfl h⟩

/-! ## Loops -/

theorem Lowers.foreachCondition {iterator : Entity} {lhs : Assignment} {body : ExpressionTree}
    (hcall : Lowers env routines c (.operate ⟨.CALL, .id hasNextFnName⟩ [iterator]) m .normal m') :
    Lowers env routines c (.condition (.foreach iterator lhs body)) m .normal m' := by
  apply Lowers.of_exec
  intro stack
  exact Exec.dup.append (hcall.operation (iterator :: stack))

theorem Lowers.whileBody {condition body : ExpressionTree} :
    Lowers env routines c (.body (.while condition body)) m .normal m :=
  .of_exec fun _ => .nil

theorem Lowers.foreachBody {iterator : Entity} {lhs : Assignment} {body : ExpressionTree}
    (hnext : Lowers env routines c (.operate ⟨.CALL, .id nextFnName⟩ [iterator]) m .normal m₁)
    (hlhs : Lowers env routines c (.assign lhs) m₁ .normal m₂)
    (hbody : Lowers env routines c (.tree body) m₂ signal m') :
    Lowers env routines c (.body (.foreach iterator lhs body)) m signal m' := by
  apply hbody.of_last [iterator] rfl
  intro stack stack' hexec
  have hcall := Exec.dup.append (hnext.operation (iterator :: stack))
  exact (hcall.append (hlhs.normal (iterator :: stack))).append hexec

theorem Lowers.foreachAgain {iterator : Entity} {lhs : Assignment} {body : ExpressionTree} :
    Lowers env routines c (.again (.foreach iterator lhs body)) m .normal m :=
  .of_exec fun _ => .nil

section Loops

variable {loop : LoopTree}

theorem Lowers.exit (hcondition : Lowers env routines c (.condition loop) m .normal m₁)
    (hnone : m₁.value.isNone = true) : Lowers env routines c (.test loop) m .normal m₁ := by
  apply Lowers.of_exec
  intro stack
  exact .exit (hcondition.normal stack) hnone

theorem Lowers.enter (hcondition : Lowers env routines c (.condition loop) m .normal m₁)
    (hsome : m₁.value.isNone = false) (hfirst : Lowers env routines c (.first loop) m₁ signal m') :
    Lowers env routines c (.test loop) m signal m' := by
  apply hfirst.of_part
  · rfl
  · intro stack stack' hexec
    exact .enter (hcondition.normal stack) hsome hexec

theorem Lowers.firstNext (hinner : inner = .normal ∨ inner = .jump .continue)
    (hbody : Lowers env routines c (.body loop) m inner m₁)
    (hsecond : Lowers env routines c (.second loop) m₁ signal m') :
    Lowers env routines c (.first loop) m signal m' := by
  have hne : inner ≠ .ret := by
    rcases hinner with rfl | rfl
    · exact fun h => by cases h
    · exact fun h => by cases h
  apply hsecond.of_part
  · rfl
  · intro stack stack' hexec
    exact .firstNext hinner (hbody.exec hne stack) hexec

theorem Lowers.firstBreak (hbody : Lowers env routines c (.body loop) m (.jump .break) m') :
    Lowers env routines c (.first loop) m .normal m' := by
  apply Lowers.of_exec
  intro stack
  exact .firstBreak (hbody.exec (fun h => by cases h) stack)

theorem Lowers.firstReturn (hbody : Lowers env routines c (.body loop) m .ret m') :
    Lowers env routines c (.first loop) m .ret m' := by
  apply hbody.of_part
  · rfl
  · intro stack stack' hexec
    exact .firstReturn hexec

theorem Lowers.secondNext (hagain : Lowers env routines c (.again loop) m .normal m₁)
    (htest : Lowers env routines c (.test loop) m₁ signal m') :
    Lowers env routines c (.second loop) m signal m' := by
  apply htest.of_part
  · rfl
  · intro stack stack' hexec
    exact .secondNext (hagain.normal stack) hexec

theorem Lowers.secondAgain (hagain : Lowers env routines c (.again loop) m (.jump .continue) m₁)
    (hsecond : Lowers env routines c (.second loop) m₁ signal m') :
    Lowers env routines c (.second loop) m signal m' := by
  apply hsecond.of_part
  · rfl
  · intro stack stack' hexec
    exact .secondAgain (hagain.exec (fun h => by cases h) stack) hexec

theorem Lowers.secondBreak (hagain : Lowers env routines c (.again loop) m (.jump .break) m') :
    Lowers env routines c (.second loop) m .normal m' := by
  apply Lowers.of_exec
  intro stack
  exact .secondBreak (hagain.exec (fun h => by cases h) stack)

theorem Lowers.secondReturn (hagain : Lowers env routines c (.again loop) m .ret m') :
    Lowers env routines c (.second loop) m .ret m' := by
  apply hagain.of_part
  · rfl
  · intro stack stack' hexec
    exact .secondReturn hexec

end Loops

/-! ## Operations and calls -/

theorem Lowers.operate {ins : Instruction} {operands : List Entity}
    (hdoes : ∀ stack, (m.scene (operands ++ stack)).Does env c ins
      (.next ⟨m'.store, m'.value, stack⟩)) (hcontexts : m'.contexts = m.contexts) :
    Lowers env routines c (.operate ins operands) m .normal m' := by
  apply Lowers.of_exec
  intro stack
  have hscene : m'.scene stack =
      (m.scene (operands ++ stack)).withFrame ⟨m'.store, m'.value, stack⟩ := by
    unfold Memory.scene Scene.withFrame
    rw [hcontexts]
  show Exec env routines.lower c (.code (.plain ins)) (m.scene (operands ++ stack)) .normal
    (m'.scene stack)
  rw [hscene]
  exact .plain (hdoes stack)

theorem Lowers.invoke {ins : Instruction} {operands : List Entity} {routine : Routine}
    {stack' : List Entity}
    (hinvokes : m.Invokes env routines c ins operands routine d m₁)
    (hexec : Exec env routines.lower d (.code routine.lower) (m₁.scene []) .ret (m₂.scene stack')) :
    Lowers env routines c (.operate ins operands) m .normal m₂ := by
  obtain ⟨m₀, func, self, parentContext, hdoes, hcontexts, hsync, hroutine, henter⟩ := hinvokes
  apply Lowers.of_exec
  intro stack
  apply Exec.call (hdoes stack) hsync (by rw [Routines.lower, hroutine]; rfl) _ hexec
  have hscene : (m.scene (operands ++ stack)).withFrame ⟨m₀.store, m₀.value, stack⟩ =
      m₀.scene stack := by
    unfold Memory.scene Scene.withFrame
    rw [hcontexts]
  rw [hscene]
  exact Memory.enter_scene henter stack

theorem Lowers.invokeReturn {ins : Instruction} {operands stack : List Entity}
    {prologue epilogue : Code} {body : ExpressionTree}
    (hinvokes : m.Invokes env routines c ins operands (.tree prologue body epilogue) d m₁)
    (hprologue : Exec env routines.lower d (.code prologue) (m₁.scene []) .normal (m₂.scene stack))
    (hbody : Lowers env routines d (.tree body) m₂ .ret m₃) :
    Lowers env routines c (.operate ins operands) m .normal m₃ := by
  obtain ⟨stack', hexec, -⟩ := hbody stack
  exact Lowers.invoke hinvokes (.seqStop (fun h => by cases h) (hprologue.append hexec))

theorem Lowers.invokeFinish {ins : Instruction} {operands stack stack' : List Entity}
    {prologue epilogue : Code} {body : ExpressionTree}
    (hinvokes : m.Invokes env routines c ins operands (.tree prologue body epilogue) d m₁)
    (hprologue : Exec env routines.lower d (.code prologue) (m₁.scene []) .normal (m₂.scene stack))
    (hbody : Lowers env routines d (.tree body) m₂ .normal m₃)
    (hepilogue : Exec env routines.lower d (.code epilogue) (m₃.scene stack) .ret
      (m₄.scene stack')) : Lowers env routines c (.operate ins operands) m .normal m₄ :=
  Lowers.invoke hinvokes ((hprologue.append (hbody.value stack)).append hepilogue)

end

/-! ## All trees -/

/-- Whatever a phrase does, its code does. -/
theorem Eval.lowers {env : Env} {routines : Routines} {c : ContextId} {phrase : Phrase}
    {m m' : Memory} {signal : Signal} (h : Eval env routines c phrase m signal m') :
    Lowers env routines c phrase m signal m' := by
  induction h with
  | operate hdoes hcontexts => exact Lowers.operate hdoes hcontexts
  | invokeReturn hinvokes hprologue _ ih => exact Lowers.invokeReturn hinvokes hprologue ih
  | invokeFinish hinvokes hprologue _ hepilogue ih =>
    exact Lowers.invokeFinish hinvokes hprologue ih hepilogue
  | invokeCode hinvokes hcode => exact Lowers.invoke hinvokes hcode
  | one h => exact Lowers.one h
  | nothing htrue h => exact Lowers.nothing htrue h
  | identifier htrue hnothing _ ih => exact Lowers.identifier htrue hnothing ih
  | constant _ ih => exact ih
  | stringLiteral _ ih => exact ih
  | primary _ ih => exact ih
  | primaryNoConstants _ ih => exact ih
  | elementsNil => exact Lowers.elementsNil
  | elementsCons _ _ ihr ihe => exact Lowers.elementsCons ihr ihe
  | tuple _ _ ihl iht => exact Lowers.ofElements rfl ihl iht
  | arrayEmpty _ ih => exact ih
  | arrayTuple _ _ ihl ihn => exact Lowers.ofElements rfl ihl ihn
  | arraySingle hexp _ _ ihe ihn => exact Lowers.arraySingle hexp ihe ihn
  | mapEmpty _ ih => exact Lowers.mapEmpty ih
  | mapEntries _ _ ihm ihe => exact Lowers.mapEntries ihm ihe
  | entriesNil => exact Lowers.entriesNil
  | entriesCons _ _ _ _ _ ihr ihl iht ihs ihn => exact Lowers.entriesCons ihr ihl iht ihs ihn
  | suffixed _ _ ihb ihs => exact Lowers.suffixed ihb ihs
  | postfixesNil => exact Lowers.postfixesNil
  | callWith _ _ _ ihe ihc ihr => exact Lowers.callWith ihe ihc ihr
  | callWithout _ _ ihc ihr => exact Lowers.callWithout ihc ihr
  | index _ _ _ ihe ihi ihr => exact Lowers.index ihe ihi ihr
  | methodWith _ _ _ ihe ihc ihr => exact Lowers.methodWith ihe ihc ihr
  | methodWithout _ _ ihc ihr => exact Lowers.methodWithout ihc ihr
  | field hcall _ _ ihg ihr => exact Lowers.field hcall ihg ihr
  | range _ _ _ _ ihs ihe iht ihc => exact Lowers.range ihs ihe iht ihc
  | rangeInc _ _ _ _ _ ihi ihs ihe iht ihc => exact Lowers.rangeInc ihi ihs ihe iht ihc
  | negConstant h => exact Lowers.negConstant h
  | negate hexp _ _ ihv ihm => exact Lowers.negate hexp ihv ihm
  | unary htype _ _ ihv ih => exact Lowers.unary htype ihv ih
  | bi _ _ ihe ihs => exact Lowers.bi ihe ihs
  | operatorsNil => exact Lowers.operatorsNil
  | operatorsCons htype _ _ _ ihe ih ihr => exact Lowers.operatorsCons htype ihe ih ihr
  | and _ _ ihe ihc => exact .of_exec (Lowers.chained ihe ihc)
  | or _ _ ihe ihc => exact .of_exec (Lowers.chained ihe ihc)
  | chainNil => exact Lowers.chainNil
  | chainStop hjumps => exact Lowers.chainStop hjumps
  | chainCons hjumps _ _ ihe ihr => exact Lowers.chainCons hjumps ihe ihr
  | isIn _ _ _ ihc ihe ih => exact Lowers.isIn ihc ihe ih
  | isNotIn _ _ _ _ ihc ihe ih ihn => exact Lowers.isNotIn ihc ihe ih ihn
  | is _ _ _ ihe iht ih => exact Lowers.is ihe iht ih
  | anonFunction _ ih => exact Lowers.anonFunction ih
  | conditional _ ih => exact Lowers.ofBranches rfl ih
  | selection _ ih => exact Lowers.ofBranches rfl ih
  | taken _ hsome _ ihc ihb => exact Lowers.taken ihc hsome ihb
  | passed _ hnone _ ihc ihr => exact Lowers.passed ihc hnone ihr
  | noBranch _ hnone ihc => exact Lowers.noBranch ihc hnone
  | otherwise _ hnone _ ihc ihe => exact Lowers.otherwise ihc hnone ihe
  | assignment _ _ ihr iha => exact Lowers.assignment ihr iha
  | assignVar _ ih => exact ih
  | assignComplex _ _ ihp ihs => exact Lowers.assignComplex ihp ihs
  | setField _ ih => exact ih
  | setIndex _ _ ihe ihs => exact Lowers.setIndex ihe ihs
  | setThroughIndex _ _ _ ihe ihi ihr => exact Lowers.setThroughIndex ihe ihi ihr
  | setThroughField hcall _ _ ihg ihr => exact Lowers.setThroughField hcall ihg ihr
  | setThroughMethod _ _ _ ihe ihc ihr => exact Lowers.setThroughMethod ihe ihc ihr
  | setThroughCall _ _ _ ihe ihc ihr => exact Lowers.setThroughCall ihe ihc ihr
  | assignMulti _ ih => exact Lowers.assignMulti ih
  | subargsMore hi _ _ _ ihi iha ihr => exact Lowers.subargsMore hi ihi iha ihr
  | subargsLast hi _ _ ihi iha => exact Lowers.subargsLast hi ihi iha
  | compound _ ih => exact ih
  | statementsNil => exact Lowers.statementsNil
  | statementsCons _ _ iht ihr => exact Lowers.statementsCons iht ihr
  | statementsStop hne _ iht => exact Lowers.statementsStop hne iht
  | returnValue _ ihe => exact Lowers.returnValue ihe
  | returnOnly => exact Lowers.returnOnly
  | jump => exact Lowers.jump
  | «try» henter _ _ ihb ihs => exact Lowers.try henter ihb ihs
  | tryReturn henter _ ihb => exact Lowers.tryReturn henter ihb
  | «while» henter _ ih => exact Lowers.while henter ih
  | «for» henter _ _ ihi ih => exact Lowers.for henter ihi ih
  | foreach henter _ _ _ ihi ihc ihl => exact Lowers.foreach henter ihi ihc ihl
  | foreachReturn henter _ _ _ ihi ihc ihl => exact Lowers.foreachReturn henter ihi ihc ihl
  | whileCondition _ ih => exact ih
  | forCondition _ ih => exact ih
  | foreachCondition _ ih => exact Lowers.foreachCondition ih
  | whileBody => exact Lowers.whileBody
  | forBody _ ih => exact ih
  | foreachBody _ _ _ ihn iha ihb => exact Lowers.foreachBody ihn iha ihb
  | whileAgain _ ih => exact ih
  | forAgain _ ih => exact ih
  | foreachAgain => exact Lowers.foreachAgain
  | exit _ hnone ihc => exact Lowers.exit ihc hnone
  | enter _ hsome _ ihc ihf => exact Lowers.enter ihc hsome ihf
  | firstNext hinner _ _ ihb ihs => exact Lowers.firstNext hinner ihb ihs
  | firstBreak _ ihb => exact Lowers.firstBreak ihb
  | firstReturn _ ihb => exact Lowers.firstReturn ihb
  | secondNext _ _ iha iht => exact Lowers.secondNext iha iht
  | secondAgain _ _ iha ihs => exact Lowers.secondAgain iha ihs
  | secondBreak _ iha => exact Lowers.secondBreak iha
  | secondReturn _ iha => exact Lowers.secondReturn iha

end JeffVm
