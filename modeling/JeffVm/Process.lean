import JeffVm.Execute
import JeffVm.Lib.Transition

/-!
# Running a process

`vm_execute_task` and `process_run` as steps of one process: take any queued task, execute
one instruction of the running task, or finish a background call. When the running task stops,
the same step does what `process_run` does with its state.
-/

set_option autoImplicit false

namespace JeffVm

namespace World

def modifyContext (w : World) (c : ContextId) (f : Context → Context) : World :=
  { w with contexts := w.contexts.modify c f }

def incIns (w : World) (c : ContextId) : World :=
  w.modifyContext c (fun x => { x with ins := x.ins + 1 })

/-- `process_create_unqueued_task` for a child of `parent` with its result value. -/
def createTask (w : World) (parent : TaskId) (resval : Entity) : TaskId × World :=
  (w.nextTask,
    { w with
      tasks := Function.update w.tasks w.nextTask ⟨.RUNNING, none, resval, [], some parent, [], false⟩
      nextTask := w.nextTask + 1 })

def enqueue (w : World) (t : TaskId) : World := { w with queued := w.queued ++ [t] }

/-- `task_create_context`, with the previous pointer that the new context ends up with. -/
def createContext (w : World) (t : TaskId) (self : ObjectId) (m : ModuleId) (insPos : Int)
    (func : Option FunctionId) (previous : Option ContextId) : Option (ContextId × World) :=
  let (members, store) := w.store.heapNew .Object
  match w.contexts.create ⟨t, previous, members, self, m, func, insPos, none, -1⟩ with
  | none => none
  | some (c, contexts) =>
    some (c, { w.modifyTask t (fun task => { task with current := some c }) with
      store := store
      contexts := contexts })

/-- `_execute_as_new_task`: a queued task with one context. -/
def executeAsNewTask (w : World) (t : TaskId) (self : ObjectId) (m : ModuleId) (insPos : Int)
    (func : Option FunctionId) (previous : Option ContextId) : Option (TaskId × World) :=
  let (child, w) := w.createTask t (w.tasks t).resval
  let w := w.enqueue child
  (w.createContext child self m insPos func previous).map fun (_, w) => (child, w)

def futureCreate (w : World) (task : TaskId) : ObjectId × World :=
  let (o, store) := w.store.heapNewWith .Future (.future ⟨some task, false, false⟩)
  (o, { w with store := store })

def addDependent (w : World) (task dependent : TaskId) : World :=
  w.modifyTask task fun x => { x with dependentTasks := setInsert dependent x.dependentTasks }

def setState (w : World) (t : TaskId) (state : TaskState) : World :=
  w.modifyTask t fun x => { x with state := state }

def setResval (w : World) (t : TaskId) (e : Entity) : World :=
  w.modifyTask t fun x => { x with resval := e }

/-- The loop over the dependent tasks in `_mark_task_complete`. -/
def wake (resval : Entity) (w : World) (dependent : TaskId) : World :=
  if (w.tasks dependent).state = .WAITING then
    let w := w.setResval dependent resval
    { w.enqueue dependent with waiting := w.waiting.filter (· ≠ dependent) }
  else w

/-- `_mark_task_complete` -/
def markTaskComplete (w : World) (t : TaskId) : World :=
  let w := { w with completed := setInsert t w.completed }
  (w.tasks t).dependentTasks.foldl (wake (w.tasks t).resval) w

/-- `task_back_context` -/
def taskBackContext (w : World) (t : TaskId) : Option (Option ContextId × World) :=
  match (w.tasks t).current with
  | none => none
  | some c =>
    let previous := (w.contexts.context c).previous
    let w' := w.modifyTask t fun task => { task with current := previous }
    match previous with
    | none => some (none, w')
    | some p => some (some p, { w' with contexts := w.contexts.setIns p (w.contexts.context c).ins })

/-- The loop of `_attemp_catch_error`: the context with a handler, if one is found. There are
at most `n` rounds. -/
def findHandler (t : TaskId) : Nat → ContextId → World → Option (Option ContextId × World)
  | 0, _, _ => none
  | n + 1, c, w =>
    if (w.contexts.context c).catchIns < 0 then
      match w.taskBackContext t with
      | none => none
      | some (none, w) => some (none, w)
      | some (some c, w) => findHandler t n c w
    else some (some c, w)

/-- `_attemp_catch_error` -/
def attempCatchError (w : World) (t : TaskId) (c : ContextId) : Option (Bool × World) :=
  match w.findHandler t ((w.contexts.chain? (w.tasks t).current).length + 1) c with
  | none => none
  | some (none, w) => some (false, w.setState t .ERROR)
  | some (some c, w) =>
    some (true, w.modifyContext c
      (fun x => { x with ins := x.catchIns, error := none, catchIns := -1 }))

/-- How an iteration of the loop in `vm_execute_task` ends. -/
inductive Outcome where
  | running (context : ContextId)
  | stopped
  deriving DecidableEq

/-- What an instruction of task `t` in context `c` does to the process. -/
def apply (w : World) (t : TaskId) (c : ContextId) : Effect → Option (World × Outcome)
  | .next f => some ((w.setFrame t f).incIns c, .running c)
  | .raise f err =>
    some (((w.setFrame t (f.withResval (.obj err))).modifyContext c
      (fun x => { x with error := some err })).incIns c, .running c)
  | .jump f n =>
    some ((w.setFrame t f).modifyContext c (fun x => { x with ins := x.ins + n + 1 }), .running c)
  | .call f func self parentContext =>
    let fn := f.store.functions func
    let previous := if fn.isAnon then parentContext else none
    match (w.setFrame t f).executeAsNewTask t self fn.module fn.insPos (some func) previous with
    | none => none
    | some (child, w) =>
      if fn.isAsync then
        let (future, w) := w.futureCreate child
        some ((w.setResval t (.obj future)).incIns c, .running c)
      else some (((w.addDependent child t).setState t .WAITING).incIns c, .stopped)
  | .background f func self =>
    let (child, w) := (w.setFrame t f).createTask t f.resval
    let (future, w) := w.futureCreate child
    let w := { w with background := w.background ++ [BackgroundThreadArgs.mk child c func self] }
    some ((w.setResval t (.obj future)).incIns c, .running c)
  | .load f m =>
    let reflection := (f.store.modules m).reflection
    match (w.setFrame t f).executeAsNewTask t reflection m 0 none none with
    | none => none
    | some (child, w) => some (((w.addDependent child t).setState t .WAITING).incIns c, .stopped)
  | .wait f task =>
    some ((((w.setFrame t f).addDependent task t).setState t .WAITING).incIns c, .stopped)
  | .newBlock f =>
    let w := w.setFrame t f
    let ctx := w.contexts.context c
    let previous := (w.tasks ctx.parentTask).current
    match w.createContext ctx.parentTask ctx.self ctx.module ctx.ins none previous with
    | none => none
    | some (new, w) => some (w.incIns new, .running new)
  | .backBlock f =>
    match (w.setFrame t f).taskBackContext t with
    | some (some p, w) => some (w.incIns p, .running p)
    | _ => none
  | .setCatch f n =>
    some (((w.setFrame t f).modifyContext c (fun x => { x with catchIns := x.ins + n + 1 })).incIns c, .running c)
  | .complete f => some (((w.setFrame t f).setState t .COMPLETE).incIns c, .stopped)

/-- `context_ins` -/
def contextIns (w : World) (c : ContextId) : Option Instruction :=
  let ctx := w.contexts.context c
  if ctx.ins < 0 then none else (w.store.modules ctx.module).tape[ctx.ins.toNat]?

/-- The top of the loop of `vm_execute_task`: a pending error is caught, or ends the task. -/
def fetch (w : World) (t : TaskId) (c : ContextId) : Option (Bool × World) :=
  if (w.contexts.context c).error.isSome then w.attempCatchError t c else some (true, w)

/-- One iteration of the loop of `vm_execute_task`. -/
def iterate (env : Env) (w : World) (t : TaskId) (c : ContextId) : Option (World × Outcome) :=
  match w.fetch t c with
  | none => none
  | some (false, w) => some (w, .stopped)
  | some (true, w) =>
    match w.contextIns c with
    | none => none
    | some ins =>
      match execute env w t c ins with
      | none => none
      | some effect => w.apply t c effect

/-- The `switch` of `process_run` on the state of a task that has stopped. -/
def stop (env : Env) (w : World) (t : TaskId) : Option World :=
  let w := { w with running := none }
  match (w.tasks t).state with
  | .WAITING => some { w with waiting := setInsert t w.waiting }
  | .ERROR =>
    match (w.tasks t).parentTask with
    | some parent =>
      some ((w.modifyTask parent fun x => { x with childTaskHasError := true }).markTaskComplete t)
    | none =>
      match env.errorln w.store with
      | none => none
      | some f =>
        let fn := w.store.functions f
        let self := (w.store.modules fn.module).reflection
        (w.executeAsNewTask t self fn.module fn.insPos (some f) none).map fun (child, w) =>
          w.addDependent child t
  | .COMPLETE => some (w.markTaskComplete t)
  | _ => none

/-- The part of `vm_execute_task` before its loop. -/
def start (w : World) (t : TaskId) : Option World :=
  let w := { w.setState t .RUNNING with queued := w.queued.erase t }
  match (w.tasks t).current with
  | none => some { w.markTaskComplete t with running := none }
  | some c =>
    if (w.tasks t).childTaskHasError then
      match (w.tasks t).resval with
      | .obj err =>
        if w.store.cls err = .Error then
          let w := w.modifyContext c (fun x => { x with error := some err })
          some { w.modifyTask t (fun x => { x with childTaskHasError := false }) with
            running := some (t, c) }
        else none
      | _ => none
    else some { w with running := some (t, c) }

/-- `_execute_in_background` with its callback. -/
def finish (env : Env) (w : World) (args : BackgroundThreadArgs) : Option World :=
  let w := { w with background := w.background.erase args }
  match env.native args.func w args.task args.context args.self (w.tasks args.task).resval with
  | none => none
  | some (.returned store value) =>
    let w := { w.setResval args.task value with store := store }
    some ((w.setState args.task .COMPLETE).markTaskComplete args.task)
  | some (.raised store err) =>
    let w := { w.setResval args.task (.obj err) with store := store }
    let w := w.modifyContext args.context (fun x => { x with error := some err })
    some ((w.setState args.task .COMPLETE).markTaskComplete args.task)

/-- The process that `run` starts, with one task for the main module. -/
def boot (store : Store) (m : ModuleId) : World :=
  let (members, store) := store.heapNew .Object
  { store := store
    contexts :=
      { context := fun _ => ⟨0, none, members, (store.modules m).reflection, m, none, 0, none, -1⟩
        next := 1
        previous_lt := by
          intro c p h
          cases h }
    tasks := fun t => ⟨.RUNNING, if t = 0 then some 0 else none, .none, [], none, [], false⟩
    nextTask := 1
    queued := [0]
    waiting := []
    completed := []
    background := []
    running := none }

end World

/-- Who moves next. Any queued task may be taken. -/
inductive Event where
  | start (task : TaskId)
  | execute
  | finish (args : BackgroundThreadArgs)
  deriving DecidableEq

open World in
/-- A step of the process. -/
def processStep (env : Env) (w : World) : Event → Option World
  | .start t => if w.running = none ∧ t ∈ w.queued then w.start t else none
  | .execute =>
    match w.running with
    | none => none
    | some (t, c) =>
      match w.iterate env t c with
      | none => none
      | some (w, .running c) => some { w with running := some (t, c) }
      | some (w, .stopped) => w.stop env t
  | .finish args => if args ∈ w.background then w.finish env args else none

end JeffVm
