import JeffVm.Process

/-!
# What instructions can do

Only the control instructions move the position of a context by themselves, open or close a
block, or end the task. All others leave this to the loop of `vm_execute_task`.
-/

set_option autoImplicit false

namespace JeffVm

/-- The effects after which the loop moves on to the next instruction of the same context. -/
def Effect.Straight : Effect → Prop
  | .next _ | .raise _ _ | .call _ _ _ _ | .background _ _ _ | .load _ _ | .wait _ _ => True
  | _ => False

/-- The instructions with another effect. -/
def Op.isControl : Op → Bool
  | .RET | .EXIT | .NBLK | .BBLK | .JMP | .IF | .IFN | .CTCH => true
  | _ => false

def Straight (o : Option Effect) : Prop := ∀ e ∈ o, e.Straight

namespace Straight

@[simp] theorem none : Straight none := by simp [Straight]

@[simp] theorem some (e : Effect) : Straight (some e) ↔ e.Straight := by simp [Straight]

@[simp] theorem next (f : Frame) : (Effect.next f).Straight := trivial

@[simp] theorem raise (f : Frame) (err : ObjectId) : (Effect.raise f err).Straight := trivial

@[simp] theorem call (f : Frame) (func : FunctionId) (self : ObjectId)
    (parentContext : Option ContextId) : (Effect.call f func self parentContext).Straight := trivial

@[simp] theorem background (f : Frame) (func : FunctionId) (self : ObjectId) :
    (Effect.background f func self).Straight := trivial

@[simp] theorem load (f : Frame) (m : ModuleId) : (Effect.load f m).Straight := trivial

@[simp] theorem wait (f : Frame) (task : TaskId) : (Effect.wait f task).Straight := trivial

@[simp] theorem map_next {α : Type} (o : Option α) (g : α → Frame) :
    Straight (o.map fun a => .next (g a)) := by
  cases o <;> simp

section

variable (env : Env) (w : World) (t : TaskId) (c : ContextId) (f : Frame)

@[simp] theorem raiseError (msg : String) : (raiseError w t f msg).Straight := trivial

@[simp] theorem callFunctionBase (func : FunctionId) (self : ObjectId)
    (parentContext : Option ContextId) :
    Straight (callFunctionBase env w t c f func self parentContext) := by
  unfold JeffVm.callFunctionBase
  simp only
  repeat' split
  all_goals simp

@[simp] theorem executePrimitive (op : Op) (arg : Arg) :
    Straight (executePrimitive w t c op arg f) := by
  unfold JeffVm.executePrimitive
  simp only
  repeat' split
  all_goals simp

@[simp] theorem executeBOR (arg : Arg) : Straight (executeBOR w t c arg f) := by
  unfold JeffVm.executeBOR
  simp only
  repeat' split
  all_goals simp

@[simp] theorem equalityOfPrimitives (op : Op) (first second : Entity) :
    (equalityOfPrimitives w t op first second f).Straight := by
  unfold JeffVm.equalityOfPrimitives
  repeat' split
  all_goals simp

@[simp] theorem executeEQ (op : Op) (arg : Arg) : Straight (executeEQ env w t c op arg f) := by
  unfold JeffVm.executeEQ
  simp only
  repeat' split
  all_goals simp

@[simp] theorem executeRES (arg : Arg) : Straight (executeRES w c arg f) := by
  unfold JeffVm.executeRES
  split <;> simp

@[simp] theorem executePEEK (arg : Arg) : Straight (executePEEK w c arg f) := by
  unfold JeffVm.executePEEK
  split <;> simp

@[simp] theorem executeDUP (arg : Arg) : Straight (executeDUP arg f) := by
  unfold JeffVm.executeDUP
  split <;> simp

@[simp] theorem executePUSH (arg : Arg) : Straight (executePUSH w c arg f) := by
  unfold JeffVm.executePUSH
  split <;> simp

@[simp] theorem executePNIL (arg : Arg) : Straight (executePNIL arg f) := by
  unfold JeffVm.executePNIL
  split <;> simp

@[simp] theorem executeRNIL (arg : Arg) : Straight (executeRNIL arg f) := by
  unfold JeffVm.executeRNIL
  split <;> simp

@[simp] theorem executeFLD (arg : Arg) : Straight (executeFLD w t arg f) := by
  unfold JeffVm.executeFLD
  repeat' split
  all_goals simp

@[simp] theorem executeLET (arg : Arg) : Straight (executeLET w c arg f) := by
  unfold JeffVm.executeLET
  split <;> simp

@[simp] theorem executeSET (arg : Arg) : Straight (executeSET w c arg f) := by
  unfold JeffVm.executeSET
  split <;> simp

theorem fieldOf {id : String} {raised : Effect} (h : fieldOf w t c id f = .inl raised) :
    raised.Straight := by
  unfold JeffVm.fieldOf at h
  split at h <;> cases h <;> simp

@[simp] theorem executeGET (arg : Arg) : Straight (executeGET w t c arg f) := by
  unfold JeffVm.executeGET
  split
  · split
    · rename_i h
      simpa using fieldOf w t c f h
    · simp
  · simp

@[simp] theorem executeGTSH (arg : Arg) : Straight (executeGTSH w t c arg f) := by
  unfold JeffVm.executeGTSH
  split
  · split
    · rename_i h
      simpa using fieldOf w t c f h
    · simp
  · simp

@[simp] theorem callMethod (o : ObjectId) (id : String) :
    Straight (callMethod env w t c o id f) := by
  unfold JeffVm.callMethod
  simp only
  repeat' split
  all_goals simp

@[simp] theorem callEntity (op : Op) (fn : Entity) : Straight (callEntity env w t c op fn f) := by
  unfold JeffVm.callEntity
  simp only
  repeat' split
  all_goals simp

@[simp] theorem executeCALL (op : Op) (arg : Arg) : Straight (executeCALL env w t c op arg f) := by
  unfold JeffVm.executeCALL
  simp only
  repeat' split
  all_goals simp

@[simp] theorem executeWAIT : Straight (executeWAIT w t f) := by
  unfold JeffVm.executeWAIT
  simp only
  repeat' split
  all_goals simp

@[simp] theorem executeNOT (arg : Arg) : Straight (executeNOT arg f) := by
  unfold JeffVm.executeNOT
  split <;> simp

@[simp] theorem executeANEW (arg : Arg) : Straight (executeANEW arg f) := by
  unfold JeffVm.executeANEW
  simp only
  split <;> simp

@[simp] theorem executeAIDX (arg : Arg) : Straight (executeAIDX env w t c arg f) := by
  unfold JeffVm.executeAIDX
  simp only
  repeat' split
  all_goals simp

@[simp] theorem executeASET : Straight (executeASET env w t c f) := by
  unfold JeffVm.executeASET
  simp only
  repeat' split
  all_goals simp

@[simp] theorem executeTUPL (arg : Arg) : Straight (executeTUPL arg f) := by
  unfold JeffVm.executeTUPL
  simp only
  split <;> simp

@[simp] theorem executeTLEN (arg : Arg) : Straight (executeTLEN arg f) := by
  unfold JeffVm.executeTLEN
  split
  · cases f.peek with
    | none => simp
    | some e =>
      simp only [Option.map_some]
      split <;> simp
  · simp

@[simp] theorem executeTGTE (arg : Arg) : Straight (executeTGTE w t arg f) := by
  unfold JeffVm.executeTGTE
  repeat' split
  all_goals simp

@[simp] theorem executeTGET (arg : Arg) : Straight (executeTGET w t arg f) := by
  unfold JeffVm.executeTGET
  repeat' split
  all_goals simp

@[simp] theorem executeIS (arg : Arg) : Straight (executeIS w t arg f) := by
  unfold JeffVm.executeIS
  simp only
  repeat' split
  all_goals simp

@[simp] theorem executeLMDL (arg : Arg) : Straight (executeLMDL env w t c arg f) := by
  unfold JeffVm.executeLMDL
  simp only
  repeat' split
  all_goals simp

@[simp] theorem executeRAIS : Straight (executeRAIS w t f) := by
  unfold JeffVm.executeRAIS
  simp only
  repeat' split
  all_goals simp

end

end Straight

section

variable {env : Env} {w : World} {t : TaskId} {c : ContextId} {ins : Instruction} {e : Effect}

theorem execute_straight (hop : ins.op.isControl = false) (h : execute env w t c ins = some e) :
    e.Straight := by
  suffices hs : Straight (execute env w t c ins) from hs e h
  unfold execute
  cases hins : ins.op <;> simp_all [Op.isControl]

/-- Only `BBLK` closes a block. -/
theorem op_of_backBlock {f : Frame} (h : execute env w t c ins = some (.backBlock f)) :
    ins.op = .BBLK := by
  by_cases hop : ins.op.isControl
  · obtain ⟨op, arg⟩ := ins
    unfold execute at h
    cases op with
    | BBLK => rfl
    | RET =>
      cases arg with
      | id x => cases hx : (w.frame t).lookup w.contexts c x with | mk e f' =>
          cases e <;> simp [executeRET, hx] at h
      | _ => simp [executeRET] at h
    | IF | IFN =>
      simp only [executeIF] at h
      repeat' split at h
      all_goals simp at h
    | EXIT => cases arg <;> simp [executeEXIT] at h
    | NBLK => cases arg <;> simp [executeNBLK] at h
    | JMP =>
      simp only [executeJMP] at h
      split at h <;> simp at h
    | CTCH =>
      simp only [executeCTCH] at h
      split at h <;> simp at h
    | _ => simp [Op.isControl] at hop
  · exact absurd (execute_straight (by simpa using hop) h) id

end

end JeffVm
