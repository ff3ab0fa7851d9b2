import JeffVm.Entity
import JeffVm.Tape

/-!
# The optimizer

The peephole passes of `optimize`, in the order they are registered, and the rebuilding of
the tape after each of them. A pass only reads the tape and records adjustments by index.
`none` is a failed `ASSERT` or an index outside a list, which C leaves undefined.
-/

set_option autoImplicit false

namespace JeffVm

inductive Adjustment where
  | remove
  | setOp (op : Op)
  | setVal (op : Op) (val : Primitive)
  | replace (ins : Instruction)
  deriving DecidableEq, Repr

/-- The adjustments in the order they are added; a later one replaces an earlier one. -/
abbrev Adjustments := List (Nat × Adjustment)

def Adjustments.lookup (as : Adjustments) (i : Nat) : Option Adjustment :=
  (as.reverse.find? fun a => a.1 == i).map Prod.snd

def Op.isGoto : Op → Bool
  | .JMP => true
  | .IFN => true
  | .IF => true
  | .CTCH => true
  | _ => false

/-- `pint` of the operand. -/
def Instruction.pint (ins : Instruction) : Option Int :=
  match ins.arg with
  | .val (.int n) => some n
  | _ => none

/-- The key under which `_populate_gotos` stores the goto at index `i`: the index of the
instruction before the one it goes to. -/
def gotoKey (i : Nat) (ins : Instruction) : Option Int :=
  if ins.op.isGoto then ins.pint.map fun n => i + n else none

/-- `NULL != map_lookup(&oh->i_gotos, k)`. The goto at index 0 is stored as `NULL`. -/
def hasGoto (ins : List Instruction) (k : Nat) : Bool :=
  ins.zipIdx.any fun p => decide (0 < p.2) && gotoKey p.2 p.1 == some (k : Int)

/-- The operands of two instructions are the same identifier. -/
def sameId (first second : Instruction) : Bool :=
  match first.arg, second.arg with
  | .id a, .id b => a == b
  | _, _ => false

def Arg.isPrimitive : Arg → Bool
  | .val _ => true
  | _ => false

def Arg.isId : Arg → Bool
  | .id _ => true
  | _ => false

def Instruction.isNoArg (ins : Instruction) : Bool := ins.arg == .noArg

def Instruction.isAssign (ins : Instruction) : Bool := ins.op == .SET || ins.op == .LET

/-! ## The passes -/

section Passes

/-- The loop over an instruction and the one before it; `i` is the index of the second. -/
def pairRounds (round : Nat → Instruction → Instruction → Adjustments) :
    Nat → List Instruction → Adjustments
  | i, first :: second :: rest =>
    round i first second ++ pairRounds round (i + 1) (second :: rest)
  | _, _ => []

/-- The loop over three instructions in a row; `i` is the index of the third. -/
def tripleRounds (round : Nat → Instruction → Instruction → Instruction → Adjustments) :
    Nat → List Instruction → Adjustments
  | i, first :: second :: third :: rest =>
    round i first second third ++ tripleRounds round (i + 1) (second :: third :: rest)
  | _, _ => []

def eachRound (round : Nat → Instruction → Adjustments) : Nat → List Instruction → Adjustments
  | i, ins :: rest => round i ins ++ eachRound round (i + 1) rest
  | _, [] => []

variable (tape : List Instruction)

def optimizerSetRes : Adjustments :=
  pairRounds (fun i first second =>
    if first.isAssign && second.op == .RES && sameId first second && !hasGoto tape (i - 1) then
      [(i, .remove)]
    else []) 1 tape

def optimizerSetPush : Adjustments :=
  pairRounds (fun i first second =>
    if first.isAssign && second.op == .PUSH && sameId first second && !hasGoto tape (i - 1) then
      [(i, .replace ⟨.PUSH, .noArg⟩)]
    else []) 1 tape

def tapeGet (k : Int) : Option Instruction := if 0 ≤ k then tape[k.toNat]? else none

/-- One round of `optimizer_JmpRes`, which reads the tape at the target of the jump. -/
def roundJmpRes (i : Nat) (first second : Instruction) : Option Adjustments :=
  if first.op == .SET && second.op == .JMP then
    match second.pint with
    | none => none
    | some jmpVal =>
      if 0 ≤ jmpVal then some []
      else
        match tapeGet tape (i + jmpVal - 1), tapeGet tape (i + jmpVal) with
        | some jumpToParent, some jumpTo =>
          if jumpToParent.op == .SET && jumpToParent.text == first.text && jumpTo.op == .RES &&
              sameId first jumpTo then
            some [((i + jmpVal).toNat, .remove)]
          else some []
        | _, _ => none
  else some []

def optimizerJmpResFrom : Nat → List Instruction → Option Adjustments
  | i, first :: second :: rest =>
    match roundJmpRes tape i first second, optimizerJmpResFrom (i + 1) (second :: rest) with
    | some as, some bs => some (as ++ bs)
    | _, _ => none
  | _, _ => some []

def optimizerJmpRes : Option Adjustments := optimizerJmpResFrom tape 1 tape

/-- The comparison of the operands in `optimizer_PushRes`. -/
def sameOperand : Arg → Arg → Bool
  | .noArg, .noArg => true
  | .str a, .str b => a == b
  | .id a, .id b => a == b
  | .val a, .val b => a.equals b
  | _, _ => false

def optimizerPushRes : Adjustments :=
  pairRounds (fun i first second =>
    if first.op == .PUSH && second.op == .RES && sameOperand first.arg second.arg &&
        !hasGoto tape i then
      [(i - 1, .setOp .PSRS), (i, .remove)]
    else []) 1 tape

def optimizerResPush2 : Adjustments :=
  pairRounds (fun i first second =>
    if first.op == .RES && first.isNoArg && second.op == .PUSH && second.isNoArg &&
        !hasGoto tape (i - 1) then
      [(i - 1, .setOp .PEEK), (i, .remove)]
    else []) 1 tape

def optimizerRetRet : Adjustments :=
  pairRounds (fun i first second =>
    if first.op == .RET && first.isNoArg && second.op == .RET && second.isNoArg &&
        !hasGoto tape (i - 1) then
      [(i, .remove)]
    else []) 1 tape

def optimizerPeekRes : Adjustments :=
  pairRounds (fun i first second =>
    if first.op == .PEEK && (second.op == .RES || second.op == .TLEN) &&
        !hasGoto tape (i - 1) then
      [(i - 1, .remove)]
    else []) 1 tape

def optimizerSetEmpty : Adjustments :=
  pairRounds (fun i first second =>
    if first.op == .TGET && first.arg.isPrimitive && second.isAssign &&
        second.arg == .id "_" && !hasGoto tape (i - 1) then
      [(i - 1, .remove), (i, .remove)]
    else []) 1 tape

def optimizerPeekPeek : Adjustments :=
  pairRounds (fun i first second =>
    if first.op == .PEEK && first.isNoArg && second.op == .PEEK && second.isNoArg &&
        !hasGoto tape (i - 1) then
      [(i - 1, .remove)]
    else []) 1 tape

def optimizerPushResEmpty : Adjustments :=
  pairRounds (fun i first second =>
    if first.op == .PUSH && first.isNoArg && second.op == .RES && second.isNoArg &&
        !hasGoto tape (i - 1) then
      [(i - 1, .remove), (i, .remove)]
    else []) 1 tape

def optimizerPushRes2 : Adjustments :=
  pairRounds (fun i first second =>
    if first.op == .PUSH && second.op == .RES && first.isNoArg && second.isNoArg &&
        !hasGoto tape i then
      [(i - 1, .remove), (i, .remove)]
    else []) 1 tape

def Op.isMathOp : Op → Bool
  | .ADD => true
  | .SUB => true
  | .DIV => true
  | .MULT => true
  | .MOD => true
  | .LT => true
  | .LTE => true
  | .GTE => true
  | .GT => true
  | .EQ => true
  | _ => false

def optimizerSimpleMath : Adjustments :=
  tripleRounds (fun i first second third =>
    if first.op == .PUSH && second.op == .PUSH && third.op.isMathOp &&
        (second.arg.isPrimitive || second.arg.isId) && !hasGoto tape i && !hasGoto tape (i - 1) then
      [(i - 2, if first.isNoArg then .remove else .setOp .RES), (i - 1, .setOp third.op),
        (i, .remove)]
    else []) 2 tape

def optimizerGetPush : Adjustments :=
  pairRounds (fun i first second =>
    if first.op == .GET && !first.isNoArg && second.op == .PUSH && second.isNoArg &&
        !hasGoto tape (i - 1) then
      [(i, .remove), (i - 1, .setOp .GTSH)]
    else []) 1 tape

def optimizerNil : Adjustments :=
  eachRound (fun i ins =>
    if (ins.op == .RES || ins.op == .PUSH) && ins.arg == .id "None" then
      [(i, .replace ⟨if ins.op == .RES then .RNIL else .PNIL, .noArg⟩)]
    else []) 0 tape

end Passes

/-- The passes that `optimize_init` registers. -/
def optimizers : List (List Instruction → Option Adjustments) :=
  [some ∘ optimizerSetRes, some ∘ optimizerSetPush, optimizerJmpRes, some ∘ optimizerPushRes,
    some ∘ optimizerResPush2, some ∘ optimizerRetRet, some ∘ optimizerPeekRes,
    some ∘ optimizerSetEmpty, some ∘ optimizerPeekPeek, some ∘ optimizerPushResEmpty,
    some ∘ optimizerPeekRes, some ∘ optimizerPushRes2, some ∘ optimizerSimpleMath,
    some ∘ optimizerGetPush, some ∘ optimizerNil]

/-! ## The new tape -/

/-- The instruction with its adjustment. -/
def Adjustment.apply (ins : Instruction) : Option Adjustment → Option Instruction
  | none => some ins
  | some .remove => none
  | some (.setOp op) => some { ins with op := op }
  | some (.setVal op val) => some ⟨op, .val val⟩
  | some (.replace ins) => some ins

namespace Tape

/-- `tape_class_with_parents` and the fields of the class. -/
def openClass (new : Tape) (c : ClassRef) : Option Tape :=
  match new.startClass c.name with
  | none => none
  | some new =>
    match c.supers.foldlM (fun tape parent => tape.addSuper parent) new with
    | none => none
    | some new => c.fieldRefs.entries.foldlM (fun tape f => tape.field f.name) new

/-- The classes that end or start and the function that starts before instruction `i`; of
several labels at one index the last one is in the map. -/
def labelsAt (t : Tape) (i : Nat) (new : Tape) : Option Tape :=
  let classes := t.classRefs.entries.reverse
  let funcs := (t.funcRefs.entries ++ t.classRefs.entries.flatMap fun c => c.funcRefs.entries).reverse
  match (match classes.find? fun c => c.endIndex == i with
    | some _ => new.endClass
    | none => some new) with
  | none => none
  | some new =>
    match (match classes.find? fun c => c.startIndex == i with
      | some c => new.openClass c
      | none => some new) with
    | none => none
    | some new =>
      match funcs.find? fun f => f.index == i with
      | some f => new.startFunc f.name f.isAsync
      | none => some new

end Tape

/-- The variables of the first loop of `_oh_resolve`. -/
structure Resolving where
  newTape : Tape
  oldIndex : List Nat
  newIndex : List Int

/-- The loop from instruction `i` on, and the labels behind the last one. -/
def resolveFrom (t : Tape) (as : Adjustments) : Nat → List Instruction → Resolving → Option Resolving
  | i, [], r => (t.labelsAt i r.newTape).map fun new => { r with newTape := new }
  | i, ins :: rest, r =>
    match t.labelsAt i r.newTape with
    | none => none
    | some new =>
      resolveFrom t as (i + 1) rest
        (match Adjustment.apply ins (as.lookup i) with
        | none => { r with newTape := new, newIndex := r.newIndex ++ [(new.size : Int) - 1] }
        | some newIns =>
          ⟨new.add newIns (t.sourceMap.getD i ⟨-1, -1⟩), r.oldIndex ++ [i],
            r.newIndex ++ [(new.size : Int)]⟩)

/-- The second loop of `_oh_resolve` on the instruction at index `i` of the new tape. -/
def Resolving.retarget (r : Resolving) (i : Nat) (ins : Instruction) : Option Instruction :=
  if ins.op.isGoto then
    match ins.pint, r.oldIndex[i]? with
    | some diff, some oldI =>
      if 0 ≤ oldI + diff then
        (r.newIndex[(oldI + diff).toNat]?).map fun newGotoI => ⟨ins.op, .val (.int (newGotoI - i))⟩
      else none
    | _, _ => none
  else some ins

def Resolving.retargetFrom (r : Resolving) : Nat → List Instruction → Option (List Instruction)
  | _, [] => some []
  | i, ins :: rest =>
    match r.retarget i ins, r.retargetFrom (i + 1) rest with
    | some ins, some rest => some (ins :: rest)
    | _, _ => none

/-- `_oh_resolve` -/
def ohResolve (t : Tape) (as : Adjustments) : Option Tape :=
  match resolveFrom t as 0 t.ins ⟨{ Tape.create with moduleName := t.moduleName }, [], []⟩ with
  | none => none
  | some r => (r.retargetFrom 0 r.newTape.ins).map fun ins => { r.newTape with ins := ins }

/-- One pass: `_populate_gotos` reads the operands of all gotos. -/
def runOptimizer (t : Tape) (opt : List Instruction → Option Adjustments) : Option Tape :=
  if t.ins.all fun ins => !ins.op.isGoto || ins.pint.isSome then
    match opt t.ins with
    | none => none
    | some as => ohResolve t as
  else none

def optimize (t : Tape) : Option Tape := optimizers.foldlM runOptimizer t

end JeffVm
