import JeffVm.PlainCode
import JeffVm.Execute

/-!
# Executable instructions

The operations that `vm_execute_task` dispatches and the operand kinds that their functions
accept, and the trees all of whose instructions are of that sort.
-/

set_option autoImplicit false

namespace JeffVm

/-! ## What the machine accepts -/

/-- The tests of the `_execute_…` functions on the type of an instruction. -/
inductive OperandKind where
  | any | absent | id | absentOrId | notString | primitive | absentOrInt | int
  deriving DecidableEq, Repr

def OperandKind.accepts : OperandKind → Arg → Bool
  | .any, _ => true
  | .absent, .noArg => true
  | .id, .id _ => true
  | .absentOrId, .noArg => true
  | .absentOrId, .id _ => true
  | .notString, .noArg => true
  | .notString, .id _ => true
  | .notString, .val _ => true
  | .primitive, .val _ => true
  | .absentOrInt, .noArg => true
  | .absentOrInt, .val (.int _) => true
  | .int, .val (.int _) => true
  | _, _ => false

namespace OperandKind

@[simp] theorem any_accepts (arg : Arg) : any.accepts arg = true := rfl
@[simp] theorem absent_accepts : absent.accepts .noArg = true := rfl
@[simp] theorem id_accepts (s : String) : OperandKind.id.accepts (.id s) = true := rfl
@[simp] theorem absentOrId_accepts : absentOrId.accepts .noArg = true := rfl
@[simp] theorem absentOrId_accepts_id (s : String) : absentOrId.accepts (.id s) = true := rfl
@[simp] theorem notString_accepts : notString.accepts .noArg = true := rfl
@[simp] theorem primitive_accepts (p : Primitive) : primitive.accepts (.val p) = true := rfl
@[simp] theorem absentOrInt_accepts : absentOrInt.accepts .noArg = true := rfl
@[simp] theorem absentOrInt_accepts_int (n : Int) :
    absentOrInt.accepts (.val (.int n)) = true := rfl
@[simp] theorem int_accepts (n : Int) : int.accepts (.val (.int n)) = true := rfl

end OperandKind

/-- The cases of the `switch` of `vm_execute_task`; the other operations are unknown to it. -/
def Op.operand : Op → Option OperandKind
  | .RES => some .any
  | .RNIL => some .absent
  | .PUSH => some .any
  | .PNIL => some .absent
  | .PEEK => some .absentOrId
  | .DUP => some .absent
  | .FLD => some .id
  | .LET => some .id
  | .SET => some .id
  | .GET => some .id
  | .GTSH => some .id
  | .CALL => some .absentOrId
  | .CLLN => some .absentOrId
  | .RET => some .notString
  | .NBLK => some .absent
  | .BBLK => some .absent
  | .JMP => some .primitive
  | .IF => some .primitive
  | .IFN => some .primitive
  | .EXIT => some .primitive
  | .ADD => some .notString
  | .SUB => some .notString
  | .MULT => some .notString
  | .DIV => some .notString
  | .MOD => some .notString
  | .AND => some .notString
  | .OR => some .notString
  | .BAND => some .notString
  | .BXOR => some .notString
  | .BOR => some .notString
  | .LT => some .notString
  | .GT => some .notString
  | .LTE => some .notString
  | .GTE => some .notString
  | .EQ => some .notString
  | .NEQ => some .notString
  | .IS => some .absent
  | .NOT => some .absent
  | .ANEW => some .absentOrInt
  | .AIDX => some .notString
  | .ASET => some .any
  | .TUPL => some .int
  | .TLEN => some .absent
  | .TGET => some .any
  | .TGTE => some .any
  | .CTCH => some .primitive
  | .RAIS => some .any
  | .LMDL => some .id
  | .WAIT => some .any
  | _ => none

/-- Executing the instruction cannot end in `Unknown instruction` or `Invalid arg type`. -/
def Instruction.executable (ins : Instruction) : Bool :=
  match ins.op.operand with
  | none => false
  | some kind => kind.accepts ins.arg

/-- The machine does not get past an instruction that is not executable: at most the array
that `AIDX` pops is not an object, which raises before the operand is looked at. -/
theorem execute_of_not_executable (env : Env) (w : World) (t : TaskId) (c : ContextId)
    {ins : Instruction} {effect : Effect} (h : ins.executable = false)
    (hstep : execute env w t c ins = some effect) : ∃ f err, effect = .raise f err := by
  obtain ⟨op, arg⟩ := ins
  cases hop : op.operand with
  | none => cases op <;> first | cases hstep | cases hop
  | some kind =>
    have hkind : kind.accepts arg = false := by
      simpa only [Instruction.executable, hop] using h
    by_cases haidx : op = .AIDX
    · subst haidx
      cases hop
      cases arg with
      | str str =>
        simp only [execute, executeAIDX] at hstep
        split at hstep
        · cases hstep
        · cases hstep
        · exact ⟨_, _, (Option.some.inj hstep).symm⟩
      | _ => cases hkind
    · cases op <;> cases hop <;> cases arg with
      | val val => cases val <;> first | exact absurd rfl haidx | (cases hkind; done) | cases hstep
      | _ => first | exact absurd rfl haidx | (cases hkind; done) | cases hstep

theorem executable_biToIns {type : BiType} {op : Op} (h : biToIns type = some op) :
    Instruction.executable ⟨op, .noArg⟩ = true := by
  cases type <;> cases h <;> rfl

/-! ## The layout of executable code -/

theorem executable_patchIns (brk cont : Nat → Int) (i : Nat) (ins : Instruction) :
    (patchIns brk cont i ins).executable = ins.executable := by
  unfold patchIns
  cases hjmp : ins.jmpOffset with
  | none => rfl
  | some n =>
    have hins : ins.executable = true := by
      unfold Instruction.jmpOffset at hjmp
      split at hjmp
      · rfl
      · cases hjmp
    dsimp only
    split
    · exact hins.symm
    · split
      · exact hins.symm
      · rfl

namespace Item

def executable (item : Item) : Bool := item.ins.executable

@[simp] theorem executable_jump (n : Int) : (jump .JMP n).executable = true := rfl
@[simp] theorem executable_catch (n : Int) : (jump .CTCH n).executable = true := rfl

@[simp] theorem executable_test (test : Test) (n : Int) :
    (jump test.op n).executable = true := by
  cases test <;> rfl

@[simp] theorem all_settleAll (items : List Item) :
    (settleAll items).all executable = items.all executable := by
  unfold settleAll
  rw [List.all_map]
  rfl

@[simp] theorem all_patchItems (brk cont : Nat → Int) (items : List Item) :
    (patchItems brk cont items).all executable = items.all executable := by
  have hpatch : ∀ (f : Nat → Item → Item), (∀ i item, (f i item).executable = item.executable) →
      ∀ items : List Item, (items.mapIdx f).all executable = items.all executable := by
    intro f hf items
    induction items generalizing f with
    | nil => rfl
    | cons item items ih =>
      rw [List.mapIdx_cons, List.all_cons, List.all_cons, hf, ih (fun i => f (i + 1))]
      exact fun i => hf (i + 1)
  exact hpatch (patchItem brk cont) (fun i item => executable_patchIns brk cont i item.ins) items

end Item

namespace Code

mutual

/-- The control skeleton is executable, so only the instructions between it count. -/
theorem all_emit : ∀ c : Code,
    c.emit.all Item.executable = c.allPlain Instruction.executable
  | nil => rfl
  | plain ins => by simp [emit, allPlain, Item.executable]
  | brk _ => rfl
  | seq a b => by rw [emit, allPlain, List.all_append, all_emit a, all_emit b]
  | skip test body => by simp [emit, allPlain, all_emit body]
  | choice test a b => by simp [emit, allPlain, all_emit a, all_emit b]
  | ifThen branches => by rw [emit, allPlain, all_emitBranches branches]
  | ifElse branches otherwise => by
    rw [emit, allPlain, List.all_append, all_emitBranches branches, all_emit otherwise]
  | func body => by simp [emit, allPlain, all_emit body]
  | tryCatch body assign handler => by
    simp [emit, allPlain, all_emit body, all_emit assign, all_emit handler, Item.executable,
      Item.op, Item.named, Item.jump, Instruction.executable, Op.operand,
      Bool.and_assoc]
  | whileLoop condition body => by
    simp [emit, allPlain, all_emit condition, all_emit body, Item.executable, Item.op, Item.jump,
      Instruction.executable, Op.operand]
  | forLoop init condition inc body => by
    simp [emit, allPlain, all_emit init, all_emit condition, all_emit body, all_emit inc,
      Item.executable, Item.op, Item.jump, Instruction.executable, Op.operand, Bool.and_assoc,
      Bool.and_comm]
  | foreachLoop iterable lhs body => by
    simp [emit, allPlain, all_emit iterable, all_emit lhs, all_emit body, Item.executable,
      Item.op, Item.named, Item.jump, Instruction.executable, Op.operand,
      Bool.and_assoc]

theorem all_emitBranches : ∀ (branches : Branches) (tail after : Nat) (jumps : Bool),
    (emitBranches branches tail after jumps).all Item.executable =
      allPlainBranches Instruction.executable branches
  | .last condition body, tail, after, jumps => by
    cases jumps <;>
      simp [emitBranches, allPlainBranches, all_emit condition, all_emit body, Item.executable,
        Item.jump, Instruction.executable, Op.operand]
  | .more condition body rest, tail, after, jumps => by
    cases jumps <;>
      simp [emitBranches, allPlainBranches, all_emit condition, all_emit body,
        all_emitBranches rest, Item.executable, Item.jump, Instruction.executable, Op.operand,
        Bool.and_assoc, Bool.and_comm]

end

theorem all_code (c : Code) :
    c.code.all Instruction.executable = c.allPlain Instruction.executable := by
  rw [code, List.all_map, ← all_emit c]
  rfl

end Code

end JeffVm
