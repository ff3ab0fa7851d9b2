import JeffVm.Lib.KeyedList
import JeffVm.Instruction

/-!
# Tapes

A tape is the list of instructions of one module with its class and function labels.
Functions and classes are keyed by name; while a class is open, new labels go to it.
`none` is a call of `ERROR` or a failed `ASSERT`.
-/

set_option autoImplicit false

namespace JeffVm

structure SourceMapping where
  line : Int
  col : Int
  deriving DecidableEq, Repr

structure FunctionRef where
  name : String
  index : Nat
  isConst : Bool
  isAsync : Bool
  deriving DecidableEq

structure FieldRef where
  name : String
  deriving DecidableEq

structure ClassRef where
  name : String
  startIndex : Nat
  endIndex : Nat
  funcRefs : KeyedList FunctionRef.name
  fieldRefs : KeyedList FieldRef.name
  supers : List String
  deriving DecidableEq

/-- `currentClass` is the name of the class the pointer refers to. -/
structure Tape where
  moduleName : Option String
  ins : List Instruction
  sourceMap : List SourceMapping
  classRefs : KeyedList ClassRef.name
  funcRefs : KeyedList FunctionRef.name
  currentClass : Option String
  deriving DecidableEq

def FunctionRef.shift (n : Nat) (f : FunctionRef) : FunctionRef := { f with index := f.index + n }

@[simp] theorem FunctionRef.shift_name (n : Nat) (f : FunctionRef) : (f.shift n).name = f.name := rfl

def ClassRef.shift (n : Nat) (c : ClassRef) : ClassRef :=
  { c with
    startIndex := c.startIndex + n
    endIndex := c.endIndex + n
    funcRefs := c.funcRefs.map (FunctionRef.shift n) (FunctionRef.shift_name n) }

@[simp] theorem ClassRef.shift_name (n : Nat) (c : ClassRef) : (c.shift n).name = c.name := rfl

/-- The state of a class entry before its end is known. -/
def ClassRef.init (name : String) (index : Nat) : ClassRef :=
  ⟨name, index, 0, .empty, .empty, []⟩

namespace Tape

def create : Tape := ⟨none, [], [], .empty, .empty, none⟩

def size (tape : Tape) : Nat := tape.ins.length

def modifyClass (tape : Tape) (name : String) (f : ClassRef → ClassRef)
    (hf : ∀ c, (f c).name = c.name) : Tape :=
  { tape with classRefs := tape.classRefs.modify name f hf }

def startFuncAtIndex (tape : Tape) (name : String) (index : Nat) (isAsync : Bool) : Option Tape :=
  let ref : FunctionRef := ⟨name, index, false, isAsync⟩
  match tape.currentClass with
  | some cls =>
    match tape.classRefs.lookup cls with
    | none => none
    | some c =>
      if name ∈ c.funcRefs.keys then none
      else some (tape.modifyClass cls (fun c => { c with funcRefs := c.funcRefs.insert ref })
        (fun _ => rfl))
  | none =>
    if name ∈ tape.funcRefs.keys then none
    else some { tape with funcRefs := tape.funcRefs.insert ref }

theorem startFuncAtIndex_ins {tape tape' : Tape} {name : String} {index : Nat} {isAsync : Bool}
    (h : tape.startFuncAtIndex name index isAsync = some tape') : tape'.ins = tape.ins := by
  unfold startFuncAtIndex at h
  cases hcur : tape.currentClass with
  | none =>
    simp only [hcur] at h
    split at h
    · cases h
    · exact Option.some.inj h ▸ rfl
  | some cls =>
    simp only [hcur] at h
    cases hcls : tape.classRefs.lookup cls with
    | none => simp [hcls] at h
    | some c =>
      simp only [hcls] at h
      split at h
      · cases h
      · exact Option.some.inj h ▸ rfl

def startFunc (tape : Tape) (name : String) (isAsync : Bool) : Option Tape :=
  tape.startFuncAtIndex name tape.size isAsync

def startClassAtIndex (tape : Tape) (name : String) (index : Nat) : Option Tape :=
  if name ∈ tape.classRefs.keys then none
  else some { tape with
    classRefs := tape.classRefs.insert (.init name index)
    currentClass := some name }

def endClassAtIndex (tape : Tape) (index : Nat) : Option Tape :=
  match tape.currentClass with
  | none => none
  | some cls =>
    some { tape.modifyClass cls (fun c => { c with endIndex := index }) (fun _ => rfl) with
      currentClass := none }

def startClass (tape : Tape) (name : String) : Option Tape :=
  tape.startClassAtIndex name tape.size

def endClass (tape : Tape) : Option Tape := tape.endClassAtIndex tape.size

def addSuper (tape : Tape) (parent : String) : Option Tape :=
  match tape.currentClass with
  | none => none
  | some cls =>
    some (tape.modifyClass cls (fun c => { c with supers := c.supers ++ [parent] }) (fun _ => rfl))

def field (tape : Tape) (name : String) : Option Tape :=
  match tape.currentClass with
  | none => none
  | some cls =>
    match tape.classRefs.lookup cls with
    | none => none
    | some c =>
      if name ∈ c.fieldRefs.keys then none
      else some (tape.modifyClass cls (fun c => { c with fieldRefs := c.fieldRefs.insert ⟨name⟩ })
        (fun _ => rfl))

def module (tape : Tape) (name : String) : Tape := { tape with moduleName := some name }

def add (tape : Tape) (ins : Instruction) (source : SourceMapping) : Tape :=
  { tape with ins := tape.ins ++ [ins], sourceMap := tape.sourceMap ++ [source] }

@[simp] theorem add_ins (tape : Tape) (ins : Instruction) (source : SourceMapping) :
    (tape.add ins source).ins = tape.ins ++ [ins] := rfl

def insRaw (tape : Tape) (ins : Instruction) : Tape := tape.add ins ⟨-1, -1⟩

/-- The operand `tape_ins` takes from a token. -/
def argOfToken (token : Token) : Arg :=
  match tokenToPrimitive token with
  | some p => .val p
  | none => if token.type = .STR then .str token.text else .id token.text

def insToken (tape : Tape) (op : Op) (token : Token) : Tape :=
  tape.add ⟨op, argOfToken token⟩ ⟨token.line, token.col⟩

/-- `none` is the failed `ASSERT` in `pint` on a token that is not an integer. -/
def insNeg (tape : Tape) (op : Op) (token : Token) : Option Tape :=
  match tokenToPrimitive token with
  | some (.int n) => some (tape.add ⟨op, .val (.int (wrap32 (-n)))⟩ ⟨token.line, token.col⟩)
  | _ => none

def insText (tape : Tape) (op : Op) (text : String) (token : Token) : Tape :=
  tape.add ⟨op, .id text⟩ ⟨token.line, token.col⟩

def insInt (tape : Tape) (op : Op) (val : Int) (token : Token) : Tape :=
  tape.add ⟨op, .val (.int val)⟩ ⟨token.line, token.col⟩

def insNoArg (tape : Tape) (op : Op) (token : Token) : Tape :=
  tape.add ⟨op, .noArg⟩ ⟨token.line, token.col⟩

def anonFnForToken (token : Token) : String :=
  "$anon_" ++ toString token.line ++ "_" ++ toString token.col

def insAnon (tape : Tape) (op : Op) (token : Token) : Tape :=
  tape.insText op (anonFnForToken token) token

/-- The labels of the tail move behind the instructions of the head; a label whose name the
head already has overwrites it. -/
def append (head tail : Tape) : Tape :=
  { head with
    ins := head.ins ++ tail.ins
    sourceMap := head.sourceMap ++ tail.sourceMap
    funcRefs := tail.funcRefs.entries.foldl
      (fun refs f => refs.insert (f.shift head.size)) head.funcRefs
    classRefs := tail.classRefs.entries.foldl
      (fun refs c => refs.insert (c.shift head.size)) head.classRefs }

@[simp] theorem append_ins (head tail : Tape) : (head.append tail).ins = head.ins ++ tail.ins := rfl

/-! ## The open class -/

/-- The part of a tape that opening a class leaves alone. -/
structure SameCore (t t' : Tape) : Prop where
  moduleName : t'.moduleName = t.moduleName
  ins : t'.ins = t.ins
  sourceMap : t'.sourceMap = t.sourceMap
  funcRefs : t'.funcRefs = t.funcRefs

theorem SameCore.refl (t : Tape) : SameCore t t := ⟨rfl, rfl, rfl, rfl⟩

theorem SameCore.trans {t t' t'' : Tape} (h : SameCore t t') (h' : SameCore t' t'') :
    SameCore t t'' :=
  ⟨h'.moduleName.trans h.moduleName, h'.ins.trans h.ins, h'.sourceMap.trans h.sourceMap,
    h'.funcRefs.trans h.funcRefs⟩

theorem SameCore.modifyClass (t : Tape) (name : String) (f : ClassRef → ClassRef)
    (hf : ∀ c, (f c).name = c.name) : SameCore t (t.modifyClass name f hf) :=
  ⟨rfl, rfl, rfl, rfl⟩

/-- The last class `c` is open. -/
structure Opens (t : Tape) (cs : List ClassRef) (c : ClassRef) : Prop where
  entries : t.classRefs.entries = cs ++ [c]
  current : t.currentClass = some c.name

theorem Opens.modifyClass {t : Tape} {cs : List ClassRef} {c : ClassRef} (h : t.Opens cs c)
    (f : ClassRef → ClassRef) (hf : ∀ c, (f c).name = c.name) :
    (t.modifyClass c.name f hf).Opens cs (f c) :=
  ⟨KeyedList.entries_modify_last h.entries f hf, by rw [hf]; exact h.current⟩

theorem Opens.lookup {t : Tape} {cs : List ClassRef} {c : ClassRef} (h : t.Opens cs c) :
    t.classRefs.lookup c.name = some c :=
  KeyedList.lookup_of_mem (by rw [h.entries]; simp)

theorem addSupers {cs : List ClassRef} (ss : List String) :
    ∀ {t : Tape} {c : ClassRef}, t.Opens cs c →
      ∃ t', ss.foldlM addSuper t = some t' ∧ SameCore t t' ∧
        t'.Opens cs { c with supers := c.supers ++ ss } := by
  induction ss with
  | nil =>
    intro t c h
    refine ⟨t, rfl, SameCore.refl t, ?_⟩
    rw [List.append_nil]
    exact h
  | cons s ss ih =>
    intro t c h
    have hstep : t.addSuper s = some (t.modifyClass c.name
        (fun c => { c with supers := c.supers ++ [s] }) (fun _ => rfl)) := by
      simp [addSuper, h.current]
    obtain ⟨t', hrun, hcore, hopens⟩ := ih (h.modifyClass
      (fun c => { c with supers := c.supers ++ [s] }) (fun _ => rfl))
    refine ⟨t', ?_, (SameCore.modifyClass t _ _ _).trans hcore, ?_⟩
    · rw [List.foldlM_cons, hstep]
      exact hrun
    · rw [List.append_assoc] at hopens
      exact hopens

end Tape

end JeffVm
