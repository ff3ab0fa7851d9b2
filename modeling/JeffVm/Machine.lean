import JeffVm.Context

/-!
# Tasks and the state of a process

One process with its heap, its context and task arenas and its sets of tasks. The running
task comes with the local `context` variable of `vm_execute_task`, which is not always the
current context of the task.
-/

set_option autoImplicit false

namespace JeffVm

inductive TaskState where
  | NEW | RUNNING | WAITING | COMPLETE | ERROR
  deriving DecidableEq, Repr

/-- The top of `entityStack` is its head. -/
structure Task where
  state : TaskState
  current : Option ContextId
  resval : Entity
  entityStack : List Entity
  parentTask : Option TaskId
  dependentTasks : List TaskId
  childTaskHasError : Bool
  deriving DecidableEq

/-- A call of a background native function. -/
structure BackgroundThreadArgs where
  task : TaskId
  context : ContextId
  func : FunctionId
  self : ObjectId
  deriving DecidableEq

structure World where
  store : Store
  contexts : Contexts
  tasks : TaskId → Task
  nextTask : TaskId
  queued : List TaskId
  waiting : List TaskId
  completed : List TaskId
  background : List BackgroundThreadArgs
  running : Option (TaskId × ContextId)

/-- `set_insert` -/
def setInsert {α : Type} [DecidableEq α] (a : α) (as : List α) : List α :=
  if a ∈ as then as else as ++ [a]

/-- A native function returns a value, or what `raise_error` returns in its context. -/
inductive NativeResult where
  | returned (store : Store) (value : Entity)
  | raised (store : Store) (err : ObjectId)

/-- The native functions, the module loader and the array library. -/
structure Env where
  native : FunctionId → World → TaskId → ContextId → ObjectId → Entity → Option NativeResult
  modulemanagerLookup : Store → String → Option (Store × Option ModuleId)
  arraySetRef : List Entity → Nat → Entity → List Entity
  errorln : Store → Option FunctionId

def noNatives : Env :=
  ⟨fun _ _ _ _ _ _ => none, fun _ _ => none, fun table _ _ => table, fun _ => none⟩

/-- The part of a task, with the heap, that an instruction changes in place. -/
structure Frame where
  store : Store
  resval : Entity
  stack : List Entity

/-- What an instruction does besides changing the frame. Calls are of functions with code;
the result value of an error is the error. -/
inductive Effect where
  | next (f : Frame)
  | raise (f : Frame) (err : ObjectId)
  | jump (f : Frame) (n : Int)
  | call (f : Frame) (func : FunctionId) (self : ObjectId) (parentContext : Option ContextId)
  | background (f : Frame) (func : FunctionId) (self : ObjectId)
  | load (f : Frame) (module : ModuleId)
  | wait (f : Frame) (task : TaskId)
  | newBlock (f : Frame)
  | backBlock (f : Frame)
  | setCatch (f : Frame) (n : Int)
  | complete (f : Frame)

namespace World

def frame (w : World) (t : TaskId) : Frame :=
  ⟨w.store, (w.tasks t).resval, (w.tasks t).entityStack⟩

def modifyTask (w : World) (t : TaskId) (f : Task → Task) : World :=
  { w with tasks := Function.update w.tasks t (f (w.tasks t)) }

def setFrame (w : World) (t : TaskId) (f : Frame) : World :=
  { w.modifyTask t (fun task => { task with resval := f.resval, entityStack := f.stack }) with
    store := f.store }

theorem frame_setFrame (w : World) (t : TaskId) (f : Frame) : (w.setFrame t f).frame t = f := by
  simp [frame, setFrame, modifyTask]

/-- The first `n` tasks from `t` along the parent pointers. -/
def taskChainOf (w : World) : Nat → Option TaskId → List TaskId
  | 0, _ => []
  | _ + 1, none => []
  | n + 1, some t => t :: w.taskChainOf n (w.tasks t).parentTask

/-- One line for each context of the task and of the tasks that wait for it. -/
def stackLines (w : World) (t : TaskId) : List Internal :=
  (w.taskChainOf (t + 1) (some t)).flatMap fun t =>
    (w.contexts.chain? (w.tasks t).current).map fun c =>
      let ctx := w.contexts.context c
      .stackLine ctx.module ctx.func ctx.ins

end World

namespace Store

def arrayTable (s : Store) (o : ObjectId) : List Entity :=
  match s.internal o with
  | .array table => table
  | _ => []

def arrayAdd (s : Store) (array : ObjectId) (child : Entity) : Store :=
  s.setInternal array (.array (s.arrayTable array ++ [child]))

/-- `error_new`, with the constructor of `Error`. -/
def errorNew (s : Store) (lines : List Internal) (message : List Char) : ObjectId × Store :=
  let (errorMsg, s) := s.stringNew message
  let (err, s) := s.heapNew .Error
  let s := s.setMember err "message" (.obj errorMsg)
  let (stacktrace, s) := s.heapNew .Array
  let s := lines.foldl
    (fun s line =>
      let (sl, s) := s.heapNewWith .StackLine line
      s.arrayAdd stacktrace (.obj sl)) s
  (err, s.setMember err "stacktrace" (.obj stacktrace))

end Store

end JeffVm
