import JeffVm.ProduceCode

/-!
# Whole files

The definition that a file becomes, its producer and the code of it: imports, annotations,
superclasses, statements, classes and functions.
-/

set_option autoImplicit false

namespace JeffVm

/-- `argsTuple` is there when the annotation is called with arguments. -/
structure Annotation where
  annotPrefix : Option Token
  className : Token
  argsTuple : Option ExpressionTree

structure ClassDef where
  name : Token
  parentClasses : List Token
  annot : Option Annotation
  fields : List Token
  constructor : Option FunctionDef
  methods : List FunctionDef

structure ModuleName where
  moduleToken : Token
  moduleName : Token

structure ModuleDef where
  name : Option ModuleName
  imports : List Token
  classes : List ClassDef
  functions : List FunctionDef
  statements : List ExpressionTree

/-- The trees that `produce_instructions` has a producer for. -/
inductive RegisteredTree where
  | expression (e : ExpressionTree)
  | fileLevelStatementList (module : ModuleDef)

namespace Producer

/-- The loop that adds up what `p` counts for each element. -/
def each {α : Type} (p : α → Producer) : List α → Producer
  | [] => 0
  | a :: rest => p a + each p rest

def labelText (name : String) : Producer := label name false

def startClass (name : String) : Producer :=
  fun tape => (tape.startClass name).map (fun tape => (0, tape))

def endClass : Producer := fun tape => tape.endClass.map (fun tape => (0, tape))

def field (name : String) : Producer := fun tape => (tape.field name).map (fun tape => (0, tape))

def startModule (name : String) : Producer := fun tape => some (0, tape.module name)

end Producer

open Producer

def annotateName : String := "annotate"
def setSuperName : String := "$__set_super"

def produceFunctionName (func : FunctionDef) : Producer :=
  match func.specialMethod with
  | .NONE => given func.fnName fun fnName => label fnName.text func.isAsync
  | .EQUIV => labelText eqFnName
  | .NEQUIV => labelText neqFnName
  | .ARRAY_INDEX => labelText arraylikeIndexKey
  | .ARRAY_SET => labelText arraylikeSetKey

/-- The arguments of a function that has some. -/
def produceOptArguments : Option Arguments → Producer
  | none => 0
  | some args => produceArguments args

def produceFunction (func : FunctionDef) : Producer :=
  produceFunctionName func + produceOptArguments func.args + produceInstructions func.body +
    insNoArg .RET func.defToken

def produceField (field : Token) : Producer :=
  insNoArg .PNIL field + insText .RES selfName field + insToken .FLD field

/-- The part of a constructor that clears the fields. -/
def produceFields (cls : ClassDef) : Producer :=
  match cls.fields with
  | [] => 0
  | fields => insNoArg .PUSH cls.name + each produceField fields + insNoArg .RES cls.name

def produceConstructor (cls : ClassDef) : Producer :=
  match cls.constructor with
  | some func =>
    given func.fnName fun fnName =>
      label fnName.text false + produceFields cls + produceOptArguments func.args +
        produceInstructions func.body + insText .RES selfName fnName + insNoArg .RET func.defToken
  | none =>
    labelText constructorKey + produceFields cls + insText .RES selfName cls.name +
      insNoArg .RET cls.name

def produceClass (cls : ClassDef) : Producer :=
  if 1 < cls.parentClasses.length then fail
  else
    startClass cls.name.text + each (fun f => field f.text) cls.fields +
      (if cls.constructor.isSome ∨ 0 < cls.fields.length then produceConstructor cls else 0) +
      each produceFunction cls.methods + endClass

def produceAnnotation (cls : ClassDef) (annot : Annotation) : Producer :=
  (match annot.annotPrefix with
    | some annotPrefix => insToken .RES annotPrefix + insToken .GTSH annot.className
    | none => insToken .PUSH annot.className) +
    (match annot.argsTuple with
      | some args => produceInstructions args + insNoArg .CALL annot.className
      | none => insNoArg .CLLN annot.className) +
    insNoArg .PUSH annot.className + insToken .RES cls.name +
    insText .CALL annotateName annot.className

def produceAnnotated (cls : ClassDef) : Producer :=
  match cls.annot with
  | none => 0
  | some annot => produceAnnotation cls annot

def produceSuper (cls : ClassDef) : Producer :=
  match cls.parentClasses with
  | [] => 0
  | super :: _ =>
    insToken .PUSH cls.name + insToken .RES super + insText .CALL setSuperName super

/-- The token of the `exit` at the end of the statements. -/
def ModuleDef.exitToken (module : ModuleDef) : Token :=
  match module.name with
  | some name => name.moduleToken
  | none => ⟨.INTEGER, -1, -1, "0"⟩

def produceModuleDef (module : ModuleDef) : Producer :=
  (match module.name with
    | some name => startModule name.moduleName.text
    | none => 0) +
    each (fun moduleName => insToken .LMDL moduleName) module.imports +
    each produceAnnotated module.classes + each produceSuper module.classes +
    each produceInstructions module.statements + insInt .EXIT 0 module.exitToken +
    each produceClass module.classes + each produceFunction module.functions

/-- `produce_instructions` -/
def produceTree : RegisteredTree → Producer
  | .expression e => produceInstructions e
  | .fileLevelStatementList module => produceModuleDef module

/-! ## The code of a file -/

namespace Code

/-- The codes of a list of parts one after the other. -/
def each {α : Type} (f : α → Code) : List α → Code
  | [] => nil
  | a :: rest => f a ++ each f rest

end Code

def lowerOptArguments : Option Arguments → Code
  | none => .nil
  | some args => lowerArguments args

def lowerFunction (func : FunctionDef) : Code :=
  lowerOptArguments func.args ++ lower func.body ++ opCode .RET

def lowerField (field : Token) : Code :=
  opCode .PNIL ++ idCode .RES selfName ++ tokenCode .FLD field

def lowerFields (cls : ClassDef) : Code :=
  match cls.fields with
  | [] => .nil
  | fields => opCode .PUSH ++ Code.each lowerField fields ++ opCode .RES

def lowerConstructor (cls : ClassDef) : Code :=
  match cls.constructor with
  | some func =>
    lowerFields cls ++ lowerOptArguments func.args ++ lower func.body ++ idCode .RES selfName ++
      opCode .RET
  | none => lowerFields cls ++ idCode .RES selfName ++ opCode .RET

def lowerClass (cls : ClassDef) : Code :=
  (if cls.constructor.isSome ∨ 0 < cls.fields.length then lowerConstructor cls else .nil) ++
    Code.each lowerFunction cls.methods

def lowerAnnot (cls : ClassDef) (annot : Annotation) : Code :=
  (match annot.annotPrefix with
    | some annotPrefix => tokenCode .RES annotPrefix ++ tokenCode .GTSH annot.className
    | none => tokenCode .PUSH annot.className) ++
    (match annot.argsTuple with
      | some args => lower args ++ opCode .CALL
      | none => opCode .CLLN) ++
    opCode .PUSH ++ tokenCode .RES cls.name ++ idCode .CALL annotateName

def lowerAnnotated (cls : ClassDef) : Code :=
  match cls.annot with
  | none => .nil
  | some annot => lowerAnnot cls annot

def lowerSuper (cls : ClassDef) : Code :=
  match cls.parentClasses with
  | [] => .nil
  | super :: _ => tokenCode .PUSH cls.name ++ tokenCode .RES super ++ idCode .CALL setSuperName

def lowerModuleDef (module : ModuleDef) : Code :=
  Code.each (fun moduleName => tokenCode .LMDL moduleName) module.imports ++
    Code.each lowerAnnotated module.classes ++ Code.each lowerSuper module.classes ++
    Code.each lower module.statements ++ intCode .EXIT 0 ++
    Code.each lowerClass module.classes ++ Code.each lowerFunction module.functions

def lowerTree : RegisteredTree → Code
  | .expression e => lower e
  | .fileLevelStatementList module => lowerModuleDef module

/-! ## The producers of a file emit its code -/

namespace Tape

theorem startClass_ins {tape tape' : Tape} {name : String} (h : tape.startClass name = some tape') :
    tape'.ins = tape.ins := by
  unfold startClass startClassAtIndex at h
  split at h
  · cases h
  · cases h
    rfl

theorem endClass_ins {tape tape' : Tape} (h : tape.endClass = some tape') :
    tape'.ins = tape.ins := by
  unfold endClass endClassAtIndex at h
  split at h
  · cases h
  · cases h
    rfl

theorem field_ins {tape tape' : Tape} {name : String} (h : tape.field name = some tape') :
    tape'.ins = tape.ins := by
  unfold field at h
  split at h
  · cases h
  · split at h
    · cases h
    · split at h
      · cases h
      · cases h
        rfl

end Tape

/-- A change of the labels of a tape counts as nothing. -/
theorem emits_labels {f : Tape → Option Tape}
    (hf : ∀ tape tape', f tape = some tape' → tape'.ins = tape.ins) :
    Emits (fun tape => (f tape).map (fun tape => ((0 : Int), tape))) [] := by
  intro tape n tape' h
  obtain ⟨t, hrun, heq⟩ := Option.map_eq_some_iff.mp h
  cases heq
  refine ⟨rfl, ?_⟩
  rw [List.append_nil]
  exact hf tape tape' hrun

namespace Generates

theorem label (name : String) (isAsync : Bool) : Generates (Producer.label name isAsync) .nil :=
  Emits.label name isAsync

theorem startClass (name : String) : Generates (Producer.startClass name) .nil :=
  emits_labels fun _ _ => Tape.startClass_ins

theorem endClass : Generates Producer.endClass .nil := emits_labels fun _ _ => Tape.endClass_ins

theorem field (name : String) : Generates (Producer.field name) .nil :=
  emits_labels fun _ _ => Tape.field_ins

theorem startModule (name : String) : Generates (Producer.startModule name) .nil := by
  intro tape n tape' h
  cases h
  refine ⟨rfl, ?_⟩
  rw [Code.code_nil, List.append_nil]
  rfl

theorem given {α : Type} {o : Option α} {k : α → Producer} {c : Code}
    (hk : ∀ a, o = some a → Generates (k a) c) : Generates (Producer.given o k) c := Emits.given hk

theorem congr {p : Producer} {a b : Code} (hp : Generates p a) (h : a.code = b.code) :
    Generates p b := by
  unfold Generates
  rw [← h]
  exact hp

/-- What is added before changes only labels. -/
theorem after_labels {p q : Producer} {c : Code} (hp : Generates p .nil) (hq : Generates q c) :
    Generates (p + q) c := (hp.add hq).congr (by simp)

theorem before_labels {p q : Producer} {c : Code} (hp : Generates p c) (hq : Generates q .nil) :
    Generates (p + q) c := (hp.add hq).congr (by simp)

theorem each {α : Type} {p : α → Producer} {f : α → Code} (hp : ∀ a, Generates (p a) (f a)) :
    ∀ as : List α, Generates (Producer.each p as) (Code.each f as)
  | [] => zero
  | a :: rest => (hp a).add (each hp rest)

theorem each_labels {α : Type} {p : α → Producer} (hp : ∀ a, Generates (p a) .nil) :
    ∀ as : List α, Generates (Producer.each p as) .nil
  | [] => zero
  | a :: rest => (hp a).after_labels (each_labels hp rest)

end Generates

theorem generates_functionName (func : FunctionDef) :
    Generates (produceFunctionName func) .nil := by
  unfold produceFunctionName
  split
  · exact .given fun fnName _ => .label fnName.text func.isAsync
  all_goals exact .label _ _

theorem generates_optArguments : ∀ args : Option Arguments,
    Generates (produceOptArguments args) (lowerOptArguments args)
  | none => .zero
  | some args => generates_arguments args

theorem generates_function (func : FunctionDef) :
    Generates (produceFunction func) (lowerFunction func) :=
  (((generates_functionName func).after_labels (generates_optArguments func.args)).add
    (generates_instructions func.body)).add (.op .RET func.defToken)

theorem generates_field (field : Token) : Generates (produceField field) (lowerField field) :=
  ((Generates.op .PNIL field).add (.text .RES selfName field)).add (.token .FLD field)

theorem generates_fields (cls : ClassDef) : Generates (produceFields cls) (lowerFields cls) := by
  unfold produceFields lowerFields
  cases cls.fields with
  | nil => exact .zero
  | cons f fields =>
    exact ((Generates.op .PUSH cls.name).add (.each generates_field (f :: fields))).add
      (.op .RES cls.name)

theorem generates_constructor (cls : ClassDef) :
    Generates (produceConstructor cls) (lowerConstructor cls) := by
  unfold produceConstructor lowerConstructor
  cases cls.constructor with
  | none =>
    exact (((Generates.label constructorKey false).after_labels (generates_fields cls)).add
      (.text .RES selfName cls.name)).add (.op .RET cls.name)
  | some func =>
    refine .given fun fnName _ => ?_
    exact (((((Generates.label fnName.text false).after_labels (generates_fields cls)).add
      (generates_optArguments func.args)).add (generates_instructions func.body)).add
        (.text .RES selfName fnName)).add (.op .RET func.defToken)

theorem generates_class (cls : ClassDef) : Generates (produceClass cls) (lowerClass cls) := by
  have hconstructor : Generates
      (if cls.constructor.isSome ∨ 0 < cls.fields.length then produceConstructor cls else 0)
      (if cls.constructor.isSome ∨ 0 < cls.fields.length then lowerConstructor cls else .nil) := by
    split
    · exact generates_constructor cls
    · exact .zero
  have hfields : Generates (each (fun f => Producer.field f.text) cls.fields) .nil :=
    .each_labels (fun f => Generates.field f.text) cls.fields
  unfold produceClass lowerClass
  split
  · exact .fail _
  · exact ((((Generates.startClass cls.name.text).after_labels hfields).after_labels
      hconstructor).add (.each generates_function cls.methods)).before_labels .endClass

theorem generates_annotated (cls : ClassDef) :
    Generates (produceAnnotated cls) (lowerAnnotated cls) := by
  unfold produceAnnotated produceAnnotation lowerAnnotated lowerAnnot
  cases cls.annot with
  | none => exact .zero
  | some annot =>
    refine ((((Generates.add ?_ ?_).add (.op .PUSH annot.className)).add (.token .RES cls.name)).add
      (.text .CALL annotateName annot.className))
    · cases annot.annotPrefix with
      | none => exact .token .PUSH annot.className
      | some annotPrefix =>
        exact (Generates.token .RES annotPrefix).add (.token .GTSH annot.className)
    · cases annot.argsTuple with
      | none => exact .op .CLLN annot.className
      | some args => exact (generates_instructions args).add (.op .CALL annot.className)

theorem generates_super (cls : ClassDef) : Generates (produceSuper cls) (lowerSuper cls) := by
  unfold produceSuper lowerSuper
  cases cls.parentClasses with
  | nil => exact .zero
  | cons super _ =>
    exact ((Generates.token .PUSH cls.name).add (.token .RES super)).add
      (.text .CALL setSuperName super)

theorem generates_moduleDef (module : ModuleDef) :
    Generates (produceModuleDef module) (lowerModuleDef module) := by
  have hname : Generates (match module.name with
      | some name => startModule name.moduleName.text
      | none => 0) .nil := by
    cases module.name with
    | none => exact .zero
    | some name => exact .startModule name.moduleName.text
  have himports : Generates (each (fun moduleName => insToken .LMDL moduleName) module.imports)
      (Code.each (fun moduleName => tokenCode .LMDL moduleName) module.imports) :=
    .each (fun moduleName => Generates.token .LMDL moduleName) module.imports
  unfold produceModuleDef lowerModuleDef
  exact (((((((hname.after_labels himports).add
    (.each generates_annotated module.classes)).add
      (.each generates_super module.classes)).add
        (.each generates_instructions module.statements)).add (.int .EXIT 0 module.exitToken)).add
          (.each generates_class module.classes)).add (.each generates_function module.functions))

/-- Every registered producer counts the instructions it appends and appends the layout of
the lowered tree. -/
theorem generates_tree : ∀ tree : RegisteredTree, Generates (produceTree tree) (lowerTree tree)
  | .expression e => generates_instructions e
  | .fileLevelStatementList module => generates_moduleDef module

end JeffVm
