import JeffVm.Machine

/-!
# Instructions

The `_execute_…` functions. Each reads the world and returns the frame it leaves and one
effect; nothing else of the process changes while an instruction executes. `none` is a
failed `ASSERT`, a call of `ERROR` or a use of memory that C leaves undefined.
-/

set_option autoImplicit false

namespace JeffVm

namespace Frame

/-- `task_popstack` -/
def pop (f : Frame) : Option (Entity × Frame) :=
  match f.stack with
  | [] => none
  | e :: rest => some (e, { f with stack := rest })

/-- `task_peekstack` -/
def peek (f : Frame) : Option Entity := f.stack.head?

def push (f : Frame) (e : Entity) : Frame := { f with stack := e :: f.stack }

def withResval (f : Frame) (e : Entity) : Frame := { f with resval := e }

/-- The value a name looks up to, where `NULL` counts as `None`. -/
def lookup (f : Frame) (cs : Contexts) (c : ContextId) (id : String) : Option Entity × Frame :=
  let (member, store) := contextLookup f.store cs c id
  (member, { f with store := store })

def lookupOrNone (f : Frame) (cs : Contexts) (c : ContextId) (id : String) : Entity × Frame :=
  let (member, f) := f.lookup cs c id
  (member.getD .none, f)

/-- A new string object for a quoted operand. -/
def string (f : Frame) (str : String) : Entity × Frame :=
  let (o, store) := f.store.stringNew (str.toList.drop 1).dropLast
  (.obj o, { f with store := store })

/-- Pop `n` entities, the first popped first. -/
def popN (f : Frame) : Nat → Option (List Entity × Frame)
  | 0 => some ([], f)
  | n + 1 =>
    match f.pop with
    | none => none
    | some (e, f) =>
      match f.popN n with
      | none => none
      | some (es, f) => some (e :: es, f)

end Frame

section Execute

variable (env : Env) (w : World) (t : TaskId) (c : ContextId)

/-- `raise_error` -/
def raiseError (f : Frame) (msg : String) : Effect :=
  let (err, store) := f.store.errorNew (w.stackLines t) msg.toList
  .raise { f with store := store } err

/-- `_call_function_base` -/
def callFunctionBase (f : Frame) (func : FunctionId) (self : ObjectId)
    (parentContext : Option ContextId) : Option Effect :=
  let fn := f.store.functions func
  if fn.isNative then
    if fn.isBackground then
      if fn.isAsync then some (.background f func self) else none
    else
      match env.native func { w with store := f.store } t c self f.resval with
      | none => none
      | some (.returned store value) => some (.next { f with store := store, resval := value })
      | some (.raised store err) => some (.raise { f with store := store } err)
  else some (.call f func self parentContext)

def executePrimitive (op : Op) (arg : Arg) (f : Frame) : Option Effect :=
  let rhs := "RHS for op '" ++ op.opToStr.toUpper ++ "' must be primitive."
  let lhs := "LHS for op '" ++ op.opToStr.toUpper ++ "' must be primitive."
  match arg with
  | .noArg =>
    match f.pop with
    | none => none
    | some (.prim second, f) =>
      match f.pop with
      | none => none
      | some (.prim first, f) => (primitiveResult op first second).map fun e => .next (f.withResval e)
      | some (_, f) => some (raiseError w t f lhs)
    | some (_, f) => some (raiseError w t f rhs)
  | .id id =>
    match f.resval with
    | .prim first =>
      match f.lookup w.contexts c id with
      | (some (.prim second), f) =>
        (primitiveResult op first second).map fun e => .next (f.withResval e)
      | (some _, f) => some (raiseError w t f rhs)
      | (none, _) => none
    | _ => some (raiseError w t f lhs)
  | .val val =>
    match f.resval with
    | .prim first => (primitiveResult op first val).map fun e => .next (f.withResval e)
    | _ => some (raiseError w t f lhs)
  | .str _ => none

/-- `_execute_BOR_with_obj` -/
def executeBOR (arg : Arg) (f : Frame) : Option Effect :=
  match arg with
  | .noArg =>
    match f.stack with
    | second :: first :: rest =>
      match first with
      | .prim _ => executePrimitive w t c .BOR arg f
      | .none => some (.next { f with resval := second, stack := rest })
      | .obj _ => some (.next { f with resval := first, stack := rest })
    | _ => none
  | .id id =>
    match f.resval with
    | .prim _ => executePrimitive w t c .BOR arg f
    | .obj _ => some (.next f)
    | .none =>
      let (e, f) := f.lookupOrNone w.contexts c id
      some (.next (f.withResval e))
  | .val val =>
    match f.resval with
    | .prim _ => executePrimitive w t c .BOR arg f
    | .obj _ => some (.next f)
    | .none => some (.next (f.withResval (.prim val)))
  | .str _ => none

/-- The function that `EQ` or `NEQ` calls on an object. -/
def equalityKey (op : Op) : String := if op = .EQ then "__eq__" else "__neq__"

/-- The part of `_execute_EQ` after the call of a method. -/
def equalityOfPrimitives (op : Op) (first second : Entity) (f : Frame) : Effect :=
  match second with
  | .prim p2 =>
    match first with
    | .prim p1 => .next (f.withResval (equalityResult op p1 p2))
    | _ => raiseError w t f "LHS for op 'EQ' must be primitive."
  | _ => raiseError w t f "RHS for op 'EQ' must be primitive."

/-- The primitives that an identifier operand is compared with are never set. -/
def executeEQ (op : Op) (arg : Arg) (f : Frame) : Option Effect :=
  match arg with
  | .noArg =>
    match f.stack with
    | second :: first :: rest =>
      let f := { f with stack := rest }
      match first with
      | .obj o =>
        match f.store.classGetFunction (f.store.cls o) (equalityKey op) with
        | some func => callFunctionBase env w t c (f.withResval second) func o (some c)
        | none => some (equalityOfPrimitives w t op first second f)
      | _ => some (equalityOfPrimitives w t op first second f)
    | _ => none
  | .id id =>
    match f.resval with
    | .prim _ =>
      match f.lookup w.contexts c id with
      | (some (.prim _), _) => none
      | (some _, f) => some (raiseError w t f "RHS for op 'EQ' must be primitive.")
      | (none, _) => none
    | _ => some (raiseError w t f "LHS for op 'EQ' must be primitive.")
  | .val val =>
    match f.resval with
    | .prim p1 => some (.next (f.withResval (equalityResult op p1 val)))
    | _ => some (raiseError w t f "LHS for op 'EQ' must be primitive.")
  | .str _ => none

def executeRES (arg : Arg) (f : Frame) : Option Effect :=
  match arg with
  | .noArg => f.pop.map fun (e, f) => .next (f.withResval e)
  | .id id =>
    let (e, f) := f.lookupOrNone w.contexts c id
    some (.next (f.withResval e))
  | .val val => some (.next (f.withResval (.prim val)))
  | .str str =>
    let (e, f) := f.string str
    some (.next (f.withResval e))

def executePEEK (arg : Arg) (f : Frame) : Option Effect :=
  match arg with
  | .noArg => f.peek.map fun e => .next (f.withResval e)
  | .id id =>
    let (e, f) := f.lookupOrNone w.contexts c id
    some (.next (f.withResval e))
  | _ => none

def executeDUP (arg : Arg) (f : Frame) : Option Effect :=
  match arg with
  | .noArg => f.peek.map fun e => .next (f.push e)
  | _ => none

def executePUSH (arg : Arg) (f : Frame) : Option Effect :=
  match arg with
  | .noArg => some (.next (f.push f.resval))
  | .id id =>
    let (e, f) := f.lookupOrNone w.contexts c id
    some (.next (f.push e))
  | .val val => some (.next (f.push (.prim val)))
  | .str str =>
    let (e, f) := f.string str
    some (.next (f.push e))

def executePNIL (arg : Arg) (f : Frame) : Option Effect :=
  match arg with
  | .noArg => some (.next (f.push .none))
  | _ => none

def executeRNIL (arg : Arg) (f : Frame) : Option Effect :=
  match arg with
  | .noArg => some (.next (f.withResval .none))
  | _ => none

def executeFLD (arg : Arg) (f : Frame) : Option Effect :=
  match arg with
  | .id id =>
    match f.resval with
    | .obj o => f.pop.map fun (e, f) => .next { f with store := f.store.setMember o id e }
    | _ => some (raiseError w t f
        ("Attempted to set field '" ++ id ++ "' on something not an object."))
  | _ => none

def executeLET (arg : Arg) (f : Frame) : Option Effect :=
  match arg with
  | .id id => some (.next { f with store := contextLet f.store w.contexts c id f.resval })
  | _ => none

/-- The value is that of the task of the context. -/
def executeSET (arg : Arg) (f : Frame) : Option Effect :=
  match arg with
  | .id id =>
    let e := (w.tasks (w.contexts.context c).parentTask).resval
    some (.next { f with store := contextSet f.store w.contexts c id e })
  | _ => none

/-- The object that `GET` and `GTSH` need, or the error they raise. -/
def fieldOf (id : String) (f : Frame) : Effect ⊕ (Entity × Frame) :=
  match f.resval with
  | .obj o =>
    let (e, store) := f.store.getMaybeWrap o id c
    .inr (e, { f with store := store })
  | .none => .inl (raiseError w t f ("Attempted to get field '" ++ id ++ "' from a None."))
  | .prim _ => .inl (raiseError w t f ("Attempted to get field '" ++ id ++ "' from a Primtive."))

def executeGET (arg : Arg) (f : Frame) : Option Effect :=
  match arg with
  | .id id =>
    match fieldOf w t c id f with
    | .inl raised => some raised
    | .inr (e, f) => some (.next (f.withResval e))
  | _ => none

def executeGTSH (arg : Arg) (f : Frame) : Option Effect :=
  match arg with
  | .id id =>
    match fieldOf w t c id f with
    | .inl raised => some raised
    | .inr (e, f) => some (.next (f.push e))
  | _ => none

/-- `_call_method` -/
def callMethod (o : ObjectId) (id : String) (f : Frame) : Option Effect :=
  let className := (f.store.classes (f.store.cls o)).name
  let (method, store) := f.store.getMaybeWrap o id c
  let f := { f with store := store }
  match method with
  | .none => some (raiseError w t f ("Failed to find method '" ++ id ++ "' on " ++ className))
  | .prim _ => some (raiseError w t f
      ("Attempted to treat '" ++ id ++ "' on " ++ className ++ " as a method."))
  | .obj r =>
    match f.store.cls r, f.store.internal r with
    | .FunctionRef, .functionRef self func parentContext =>
      callFunctionBase env w t c f func self parentContext
    | .FunctionRef, _ => none
    | cls, _ => some (raiseError w t f ("Attempted to treat '" ++ id ++ "' of type '' on " ++
        (f.store.classes cls).name ++ " as a method."))

/-- The second half of `_execute_CALL`, once the callee is known. -/
def callEntity (op : Op) (fn : Entity) (f : Frame) : Option Effect :=
  let clear (f : Frame) : Frame := if op = .CLLN then f.withResval .none else f
  match fn with
  | .obj o =>
    match f.store.cls o, f.store.internal o with
    | .Class, .classObj cls =>
      let (obj, store) := f.store.heapNew cls
      let f := { f with store := store }
      match f.store.classGetFunction cls "new" with
      | none => some (.next (f.withResval (.obj obj)))
      | some constructor => callFunctionBase env w t c (clear f) constructor obj (some c)
    | .FunctionRef, .functionRef self func parentContext =>
      callFunctionBase env w t c (clear f) func self parentContext
    | .Function, .functionObj func =>
      let self := (f.store.modules (f.store.functions func).module).reflection
      callFunctionBase env w t c (clear f) func self (some c)
    | .Class, _ => none
    | .FunctionRef, _ => none
    | .Function, _ => none
    | cls, _ => some (raiseError w t f ("Attempted to call something not a function (class=" ++
        (f.store.classes cls).name ++ ")."))
  | _ => some (raiseError w t f "Attempted to call something not a function (not an object).")

def executeCALL (op : Op) (arg : Arg) (f : Frame) : Option Effect :=
  match arg with
  | .id id =>
    let f := if op = .CLLN then f.withResval .none else f
    match f.pop with
    | none => none
    | some (.obj o, f) =>
      match f.store.cls o, f.store.internal o with
      | .Module, .moduleObj m =>
        match f.store.moduleLookup m id with
        | some fn => callEntity env w t c op (.obj fn) f
        | none => callMethod env w t c o id f
      | .Module, _ => none
      | _, _ => callMethod env w t c o id f
    | some (_, f) => some (raiseError w t f "Calling function on non-object.")
  | .noArg =>
    match f.pop with
    | none => none
    | some (fn, f) => callEntity env w t c op fn f
  | _ => none

/-- The task of a future; waiting is over once it has run, and the value is then kept. -/
def executeWAIT (f : Frame) : Option Effect :=
  match f.resval with
  | .obj o =>
    match f.store.cls o, f.store.internal o with
    | .Future, .future future =>
      let complete (task : TaskId) :=
        decide ((w.tasks task).state = .COMPLETE ∨ (w.tasks task).state = .ERROR)
      match future.isComplete || future.task.any complete, future.task with
      | false, some task => some (.wait f task)
      | false, none => none
      | true, task =>
        let store := f.store.setInternal o (.future { future with isComplete := true })
        if future.isResultSet then
          (store.get o "$resval").map fun e => .next { f with store := store, resval := e }
        else
          match task with
          | none => none
          | some task =>
            let result := if task = t then f.resval else (w.tasks task).resval
            let store := store.setMember o "$resval" result
            let store := store.setInternal o (.future { future with isComplete := true, isResultSet := true })
            some (.next { f with store := store, resval := result })
    | .Future, _ => none
    | _, _ => some (.next f)
  | _ => some (.next f)

def executeRET (arg : Arg) (f : Frame) : Option Effect :=
  match arg with
  | .noArg => some (.complete f)
  | .id id =>
    match f.lookup w.contexts c id with
    | (some e, f) => some (.complete (f.withResval e))
    | (none, _) => none
  | .val val => some (.complete (f.withResval (.prim val)))
  | .str _ => none

def executeNBLK (arg : Arg) (f : Frame) : Option Effect :=
  match arg with
  | .noArg => some (.newBlock f)
  | _ => none

def executeBBLK (arg : Arg) (f : Frame) : Option Effect :=
  match arg with
  | .noArg => some (.backBlock f)
  | _ => none

def executeJMP (arg : Arg) (f : Frame) : Option Effect :=
  match arg with
  | .val (.int n) => some (.jump f n)
  | _ => none

def executeIF (op : Op) (arg : Arg) (f : Frame) : Option Effect :=
  match arg with
  | .val (.int n) =>
    let isFalse := f.resval.isNone
    if (isFalse && op == .IFN) || (!isFalse && op == .IF) then some (.jump f n) else some (.next f)
  | _ => none

def executeEXIT (arg : Arg) (f : Frame) : Option Effect :=
  match arg with
  | .val val => some (.complete (f.withResval (.prim val)))
  | _ => none

def executeNOT (arg : Arg) (f : Frame) : Option Effect :=
  match arg with
  | .noArg => some (.next (f.withResval (if f.resval.isNone then .int 1 else .none)))
  | _ => none

def executeANEW (arg : Arg) (f : Frame) : Option Effect :=
  let (arrayObj, store) := f.store.heapNew .Array
  let f := { f with store := store }
  match arg with
  | .noArg => some (.next (f.withResval (.obj arrayObj)))
  | .val (.int numArgs) =>
    (f.popN numArgs.toNat).map fun (es, f) =>
      .next { f with
        store := es.foldl (fun s e => s.arrayAdd arrayObj e) f.store
        resval := .obj arrayObj }
  | _ => none

/-- The index of an array or a tuple, where it is valid. -/
def indexOf (e : Entity) (size : Nat) : Option Nat :=
  match e with
  | .prim (.int i) => if 0 ≤ i ∧ i < size then some i.toNat else none
  | _ => none

def executeAIDX (arg : Arg) (f : Frame) : Option Effect :=
  match f.pop with
  | none => none
  | some (.obj arr, f) =>
    let index : Option (Option Entity × Frame) :=
      match arg with
      | .noArg => some (some f.resval, f)
      | .id id => some (f.lookup w.contexts c id)
      | .val val =>
        match val with
        | .int i => some (if i < 0 then none else some (.prim val), f)
        | _ => some (none, f)
      | .str _ => none
    match index with
    | none => none
    | some (none, f) => some (raiseError w t f "Invalid array index.")
    | some (some index, f) =>
      match f.store.cls arr, f.store.internal arr with
      | .Array, .array table =>
        match indexOf index table.length with
        | some i => some (.next (f.withResval (table.getD i .none)))
        | none => some (raiseError w t f "Invalid array index.")
      | .Tuple, .tuple table =>
        match indexOf index table.length with
        | some i => some (.next (f.withResval (table.getD i .none)))
        | none => some (raiseError w t f "Invalid tuple index.")
      | .Array, _ => none
      | .Tuple, _ => none
      | cls, _ =>
        match f.store.classGetFunction cls "__index__" with
        | some func => callFunctionBase env w t c f func arr (some c)
        | none => some (raiseError w t f "Invalid array index on non-indexable.")
  | some (_, f) => some (raiseError w t f "Invalid array index on non-indexable.")

def executeASET (f : Frame) : Option Effect :=
  match f.stack with
  | arrEntity :: newVal :: rest =>
    let f := { f with stack := rest }
    match arrEntity with
    | .obj arr =>
      match f.store.cls arr, f.store.internal arr with
      | .Array, .array table =>
        match f.resval with
        | .prim (.int i) =>
          if i < 0 then
            some (raiseError w t f ("Array index out of bounds: " ++ toString i))
          else
            let table := env.arraySetRef table i.toNat newVal
            some (.next { f with store := f.store.setInternal arr (.array table) })
        | _ => some (raiseError w t f "Cannot index with non-int.")
      | .Array, _ => none
      | cls, _ =>
        match f.store.classGetFunction cls "__set__" with
        | some func =>
          let (args, store) := f.store.heapNewWith .Tuple (.tuple [f.resval, newVal])
          callFunctionBase env w t c { f with store := store, resval := .obj args } func arr (some c)
        | none => some (raiseError w t f "Cannot set index value on non-indexable.")
    | _ => some (raiseError w t f "Cannot set index value on non-indexable.")
  | _ => none

def executeTUPL (arg : Arg) (f : Frame) : Option Effect :=
  match arg with
  | .val (.int numArgs) =>
    let (tupleObj, store) := f.store.heapNew .Tuple
    let f := { f with store := store }
    (f.popN numArgs.toNat).map fun (es, f) =>
      .next { f with store := f.store.setInternal tupleObj (.tuple es), resval := .obj tupleObj }
  | _ => none

/-- The elements of a tuple, when the entity is one. -/
def tupleOf (s : Store) (e : Entity) : Option (List Entity) :=
  match e with
  | .obj o =>
    match s.cls o, s.internal o with
    | .Tuple, .tuple table => some table
    | _, _ => none
  | _ => none

def executeTLEN (arg : Arg) (f : Frame) : Option Effect :=
  match arg with
  | .noArg =>
    f.peek.map fun e =>
      match tupleOf f.store e with
      | none => .next (f.withResval (.int (-1)))
      | some table => .next (f.withResval (.int table.length))
  | _ => none

def executeTGTE (arg : Arg) (f : Frame) : Option Effect :=
  match arg with
  | .val (.int testLen) =>
    if testLen = 1 then
      some (.next (f.withResval (if f.resval.isNone then .none else .int 1)))
    else
      match tupleOf f.store f.resval with
      | none => some (.next (f.withResval .none))
      | some table =>
        some (.next (f.withResval (if (table.length : Int) ≥ testLen then .int 1 else .none)))
  | _ => some (raiseError w t f "Invalid TLEN type.")

def executeTGET (arg : Arg) (f : Frame) : Option Effect :=
  match arg with
  | .val (.int index) =>
    match tupleOf f.store f.resval with
    | none =>
      if index = 0 then some (.next f)
      else some (raiseError w t (f.withResval (.int (-1)))
        "Attempted to index something not a tuple.")
    | some table =>
      if index < 0 ∨ (table.length : Int) ≤ index then
        some (raiseError w t f ("Tuple index out of bounds. Index=" ++ toString index ++
          ", Tuple.len=" ++ toString table.length ++ "."))
      else some (.next (f.withResval (table.getD index.toNat .none)))
  | _ => some (raiseError w t f "Invalid TGET type.")

def executeIS (arg : Arg) (f : Frame) : Option Effect :=
  match arg with
  | .noArg =>
    match f.stack with
    | rhs :: lhs :: rest =>
      let f := { f with stack := rest }
      let classOf : Option ClassId :=
        match rhs with
        | .obj o =>
          match f.store.cls o, f.store.internal o with
          | .Class, .classObj cls => some cls
          | _, _ => none
        | _ => none
      match classOf with
      | none => some (raiseError w t f "Cannot perform type-check against a non-object type.")
      | some cls =>
        match lhs with
        | .obj o =>
          some (.next (f.withResval
            (if f.store.inheritsFrom (f.store.cls o) cls then .int 1 else .none)))
        | _ => some (.next (f.withResval .none))
    | _ => none
  | _ => none

def executeLMDL (arg : Arg) (f : Frame) : Option Effect :=
  match arg with
  | .id id =>
    match env.modulemanagerLookup f.store id with
    | none => none
    | some (store, none) =>
      some (raiseError w t { f with store := store } ("Module '" ++ id ++ "' not found."))
    | some (store, some m) =>
      let module := store.modules m
      let store := store.setMember (store.modules (w.contexts.context c).module).reflection id
        (.obj module.reflection)
      if module.isInitialized then some (.next { f with store := store })
      else
        let store := { store with
          modules := Function.update store.modules m { module with isInitialized := true } }
        some (.load { f with store := store } m)
  | _ => none

def executeCTCH (arg : Arg) (f : Frame) : Option Effect :=
  match arg with
  | .val (.int n) => some (.setCatch f n)
  | _ => none

def executeRAIS (f : Frame) : Option Effect :=
  let other := raiseError w t f "raise can only be invoked with an Error()."
  match f.resval with
  | .obj err =>
    if f.store.inheritsFrom (f.store.cls err) .Error then some (.raise f err) else some other
  | _ => some other

/-- The `switch` of `vm_execute_task`. -/
def execute (ins : Instruction) : Option Effect :=
  let f := w.frame t
  match ins.op with
  | .RES => executeRES w c ins.arg f
  | .RNIL => executeRNIL ins.arg f
  | .PUSH => executePUSH w c ins.arg f
  | .PNIL => executePNIL ins.arg f
  | .PEEK => executePEEK w c ins.arg f
  | .DUP => executeDUP ins.arg f
  | .FLD => executeFLD w t ins.arg f
  | .LET => executeLET w c ins.arg f
  | .SET => executeSET w c ins.arg f
  | .GET => executeGET w t c ins.arg f
  | .GTSH => executeGTSH w t c ins.arg f
  | .CALL | .CLLN => executeCALL env w t c ins.op ins.arg f
  | .RET => executeRET w c ins.arg f
  | .NBLK => executeNBLK ins.arg f
  | .BBLK => executeBBLK ins.arg f
  | .JMP => executeJMP ins.arg f
  | .IF | .IFN => executeIF ins.op ins.arg f
  | .EXIT => executeEXIT ins.arg f
  | .ADD | .SUB | .MULT | .DIV | .MOD | .AND | .OR | .BAND | .BXOR | .LT | .GT | .LTE | .GTE =>
    executePrimitive w t c ins.op ins.arg f
  | .BOR => executeBOR w t c ins.arg f
  | .EQ | .NEQ => executeEQ env w t c ins.op ins.arg f
  | .IS => executeIS w t ins.arg f
  | .NOT => executeNOT ins.arg f
  | .ANEW => executeANEW ins.arg f
  | .AIDX => executeAIDX env w t c ins.arg f
  | .ASET => executeASET env w t c f
  | .TUPL => executeTUPL ins.arg f
  | .TLEN => executeTLEN ins.arg f
  | .TGET => executeTGET w t ins.arg f
  | .TGTE => executeTGTE w t ins.arg f
  | .CTCH => executeCTCH ins.arg f
  | .RAIS => executeRAIS w t f
  | .LMDL => executeLMDL env w t c ins.arg f
  | .WAIT => executeWAIT w t f
  | _ => none

end Execute

end JeffVm
