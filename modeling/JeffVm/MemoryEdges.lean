import JeffVm.Process

/-!
# The edges of the memory graph

The functions of the heap and the instructions that store references, with the edges that they
increment and decrement. An edge is counted by what was incremented less what was decremented.
-/

set_option autoImplicit false

namespace JeffVm

/-- The members and the elements of an object. -/
def Store.held (s : Store) (o : ObjectId) : List Entity :=
  (s.objects o).members.entries.map Prod.snd ++ (s.internal o).elements

/-- `Array_set_ref` and the assignment to its slot. The slots that it adds are `None`. -/
def setSlot (table : List Entity) (i : Nat) (e : Entity) : List Entity :=
  (table ++ List.replicate (i + 1 - table.length) Entity.none).set i e

structure EdgeHeap where
  store : Store
  edges : ObjectId → ObjectId → Int

namespace EdgeHeap

/-- `mgraph_inc` where the child is an object. -/
def inc (h : EdgeHeap) (p : ObjectId) (child : Entity) : EdgeHeap :=
  { h with edges := fun x y => h.edges x y + if x = p ∧ child = .obj y then 1 else 0 }

/-- `mgraph_dec` where the child is an object. -/
def dec (h : EdgeHeap) (p : ObjectId) (child : Entity) : EdgeHeap :=
  { h with edges := fun x y => h.edges x y - if x = p ∧ child = .obj y then 1 else 0 }

def withStore (h : EdgeHeap) (store : Store) : EdgeHeap := { h with store := store }

def heapNew (h : EdgeHeap) (cls : ClassId) : ObjectId × EdgeHeap :=
  ((h.store.heapNew cls).1, h.withStore (h.store.heapNew cls).2)

/-- A new object whose internal data is set right after its creation. -/
def heapNewWith (h : EdgeHeap) (cls : ClassId) (internal : Internal) : ObjectId × EdgeHeap :=
  ((h.store.heapNewWith cls internal).1, h.withStore (h.store.heapNewWith cls internal).2)

def objectSetMember (h : EdgeHeap) (parent : ObjectId) (key : String) (child : Entity) : EdgeHeap :=
  let oldMember := (h.store.get parent key).getD .none
  let h := (h.dec parent oldMember).inc parent child
  h.withStore (h.store.setMember parent key child)

def objectSetMemberObj (h : EdgeHeap) (parent : ObjectId) (key : String) (child : ObjectId) :
    EdgeHeap :=
  h.objectSetMember parent key (.obj child)

def arrayAdd (h : EdgeHeap) (array : ObjectId) (child : Entity) : EdgeHeap :=
  (h.withStore (h.store.arrayAdd array child)).inc array child

def arrayRemove (h : EdgeHeap) (array : ObjectId) (index : Nat) : Option (Entity × EdgeHeap) :=
  match h.store.internal array with
  | .array table =>
    match table[index]? with
    | some e =>
      some (e, (h.withStore (h.store.setInternal array (.array (table.eraseIdx index)))).dec
        array e)
    | none => none
  | _ => none

def arraySet (h : EdgeHeap) (array : ObjectId) (index : Nat) (child : Entity) : Option EdgeHeap :=
  match h.store.internal array with
  | .array table =>
    let h := h.dec array (table.getD index .none)
    let h := h.withStore (h.store.setInternal array (.array (setSlot table index child)))
    some (h.inc array child)
  | _ => none

def tupleSet (h : EdgeHeap) (tuple : ObjectId) (index : Nat) (child : Entity) : Option EdgeHeap :=
  match h.store.internal tuple with
  | .tuple table =>
    if index < table.length then
      some ((h.withStore (h.store.setInternal tuple (.tuple (table.set index child)))).inc
        tuple child)
    else none
  | _ => none

/-- `error_new` -/
def errorNew (h : EdgeHeap) (lines : List Internal) (message : List Char) : ObjectId × EdgeHeap :=
  let (errorMsg, h) := h.heapNewWith .String (.string message)
  let (err, h) := h.heapNew .Error
  let h := h.objectSetMemberObj err "message" errorMsg
  let (stacktrace, h) := h.heapNew .Array
  let h := lines.foldl
    (fun h line =>
      let (sl, h) := h.heapNewWith .StackLine line
      h.arrayAdd stacktrace (.obj sl)) h
  (err, h.objectSetMemberObj err "stacktrace" stacktrace)

/-- `context_lookup` -/
def contextLookup (h : EdgeHeap) (cs : Contexts) (c : ContextId) (id : String) :
    Option Entity × EdgeHeap :=
  let s := h.store
  let ctx := cs.context c
  let wrap (f : FunctionId) : ObjectId × EdgeHeap :=
    ((s.wrapFunctionInRef f ctx.self c).1, h.withStore (s.wrapFunctionInRef f ctx.self c).2)
  if id = "self" then (some (.obj ctx.self), h)
  else
    match s.get ctx.memberObj id with
    | some member => (some member, h)
    | none =>
      match (cs.chain? ctx.previous).findSome? fun p => s.get (cs.context p).memberObj id with
      | some member => (some member, h)
      | none =>
        match s.get ctx.self id with
        | some member =>
          match s.anonFunction member with
          | some f => (some (.obj (wrap f).1), (wrap f).2)
          | none => (some member, h)
        | none =>
          match s.classGetFunction (s.cls ctx.self) id with
          | some f => (some (.obj (wrap f).1), (wrap f).2.objectSetMemberObj ctx.self id (wrap f).1)
          | none =>
            match s.get (s.modules ctx.module).reflection id with
            | some member => (some member, h)
            | none =>
              match s.moduleLookup ctx.module id with
              | some o =>
                match s.anonFunction (.obj o) with
                | some f => (some (.obj (wrap f).1), (wrap f).2)
                | none =>
                  (some (.obj o), h.objectSetMemberObj (s.modules ctx.module).reflection id o)
              | none =>
                match s.get (s.modules s.builtin).reflection id with
                | some member => (some member, h)
                | none =>
                  match s.moduleLookup s.builtin id with
                  | some o =>
                    (some (.obj o), h.objectSetMemberObj (s.modules s.builtin).reflection id o)
                  | none => (none, h)

end EdgeHeap

/-! ## The instructions -/

structure EdgeFrame where
  heap : EdgeHeap
  resval : Entity
  stack : List Entity

/-- What an instruction that stores references does; the call of a function is left to do. -/
inductive EdgeEffect where
  | next (f : EdgeFrame)
  | raise (f : EdgeFrame) (err : ObjectId)
  | call (f : EdgeFrame) (func : FunctionId) (self : ObjectId)

namespace EdgeFrame

def withResval (f : EdgeFrame) (e : Entity) : EdgeFrame := { f with resval := e }

def pop (f : EdgeFrame) : Option (Entity × EdgeFrame) :=
  match f.stack with
  | [] => none
  | e :: rest => some (e, { f with stack := rest })

section

variable (w : World) (t : TaskId) (c : ContextId)

def raiseError (f : EdgeFrame) (msg : String) : EdgeEffect :=
  let (err, heap) := f.heap.errorNew (w.stackLines t) msg.toList
  .raise { f with heap := heap } err

def executeFLD (arg : Arg) (f : EdgeFrame) : Option EdgeEffect :=
  match arg with
  | .id id =>
    match f.resval with
    | .obj o => f.pop.map fun (e, f) => .next { f with heap := f.heap.objectSetMember o id e }
    | _ => some (f.raiseError w t
        ("Attempted to set field '" ++ id ++ "' on something not an object."))
  | _ => none

/-- The loop of `_execute_ANEW`. -/
def arrayAddN (array : ObjectId) : Nat → EdgeFrame → Option EdgeFrame
  | 0, f => some f
  | n + 1, f =>
    match f.pop with
    | none => none
    | some (e, f) => arrayAddN array n { f with heap := f.heap.arrayAdd array e }

def executeANEW (arg : Arg) (f : EdgeFrame) : Option EdgeEffect :=
  let (arrayObj, heap) := f.heap.heapNew .Array
  let f := { f with heap := heap, resval := .obj arrayObj }
  match arg with
  | .noArg => some (.next f)
  | .val (.int numArgs) => (f.arrayAddN arrayObj numArgs.toNat).map .next
  | _ => none

/-- The loop of `_execute_TUPL` from index `i` on. -/
def tupleSetN (tuple : ObjectId) : Nat → Nat → EdgeFrame → Option EdgeFrame
  | 0, _, f => some f
  | n + 1, i, f =>
    match f.pop with
    | none => none
    | some (e, f) =>
      match f.heap.tupleSet tuple i e with
      | none => none
      | some heap => tupleSetN tuple n (i + 1) { f with heap := heap }

def executeTUPL (arg : Arg) (f : EdgeFrame) : Option EdgeEffect :=
  match arg with
  | .val (.int numArgs) =>
    let (tupleObj, heap) :=
      f.heap.heapNewWith .Tuple (.tuple (List.replicate numArgs.toNat Entity.none))
    (tupleSetN tupleObj numArgs.toNat 0 { f with heap := heap, resval := .obj tupleObj }).map .next
  | _ => none

/-- The index that `AIDX` takes from its operand. -/
def indexArg (arg : Arg) (f : EdgeFrame) : Option (Option Entity × EdgeFrame) :=
  match arg with
  | .noArg => some (some f.resval, f)
  | .id id =>
    let (member, heap) := f.heap.contextLookup w.contexts c id
    some (member, { f with heap := heap })
  | .val val =>
    match val with
    | .int i => some (if i < 0 then none else some (.prim val), f)
    | _ => some (none, f)
  | .str _ => none

/-- The rest of `AIDX`, where the index is known. -/
def executeIndex (arr : ObjectId) (index : Entity) (f : EdgeFrame) : Option EdgeEffect :=
  match f.heap.store.cls arr, f.heap.store.internal arr with
  | .Array, .array table =>
    match indexOf index table.length with
    | some i => some (.next (f.withResval (table.getD i .none)))
    | none => some (f.raiseError w t "Invalid array index.")
  | .Tuple, .tuple table =>
    match indexOf index table.length with
    | some i => some (.next (f.withResval (table.getD i .none)))
    | none => some (f.raiseError w t "Invalid tuple index.")
  | .Array, _ => none
  | .Tuple, _ => none
  | cls, _ =>
    match f.heap.store.classGetFunction cls "__index__" with
    | some func => some (.call f func arr)
    | none => some (f.raiseError w t "Invalid array index on non-indexable.")

def executeAIDX (arg : Arg) (f : EdgeFrame) : Option EdgeEffect :=
  match f.pop with
  | none => none
  | some (.obj arr, f) =>
    match f.indexArg w c arg with
    | none => none
    | some (none, f) => some (f.raiseError w t "Invalid array index.")
    | some (some index, f) => f.executeIndex w t arr index
  | some (_, f) => some (f.raiseError w t "Invalid array index on non-indexable.")

def executeASET (f : EdgeFrame) : Option EdgeEffect :=
  match f.stack with
  | arrEntity :: newVal :: rest =>
    let f := { f with stack := rest }
    match arrEntity with
    | .obj arr =>
      match f.heap.store.cls arr, f.heap.store.internal arr with
      | .Array, .array _ =>
        match f.resval with
        | .prim (.int i) =>
          if i < 0 then
            some (f.raiseError w t ("Array index out of bounds: " ++ toString i))
          else (f.heap.arraySet arr i.toNat newVal).map fun heap => .next { f with heap := heap }
        | _ => some (f.raiseError w t "Cannot index with non-int.")
      | .Array, _ => none
      | cls, _ =>
        match f.heap.store.classGetFunction cls "__set__" with
        | some func =>
          let (args, heap) := f.heap.heapNewWith .Tuple (.tuple [f.resval, newVal])
          some (.call { f with heap := heap, resval := .obj args } func arr)
        | none => some (f.raiseError w t "Cannot set index value on non-indexable.")
    | _ => some (f.raiseError w t "Cannot set index value on non-indexable.")
  | _ => none

/-- The five instructions that the operations of the heap are interleaved with. -/
def execute (ins : Instruction) (f : EdgeFrame) : Option EdgeEffect :=
  match ins.op with
  | .FLD => f.executeFLD w t ins.arg
  | .ANEW => f.executeANEW ins.arg
  | .TUPL => f.executeTUPL ins.arg
  | .AIDX => f.executeAIDX w t c ins.arg
  | .ASET => f.executeASET w t
  | _ => none

end

end EdgeFrame

def EdgeEffect.heap : EdgeEffect → EdgeHeap
  | next f => f.heap
  | raise f _ => f.heap
  | call f _ _ => f.heap

/-! ## Operations -/

/-- An operation of the heap, or an instruction with the operands that it finds. -/
inductive HeapOp where
  | heapNew (cls : ClassId)
  | objectSetMember (parent : ObjectId) (key : String) (child : Entity)
  | objectSetMemberObj (parent : ObjectId) (key : String) (child : ObjectId)
  | arrayAdd (array : ObjectId) (child : Entity)
  | arraySet (array : ObjectId) (index : Nat) (child : Entity)
  | arrayRemove (array : ObjectId) (index : Nat)
  | tupleSet (tuple : ObjectId) (index : Nat) (child : Entity)
  | execute (ins : Instruction) (w : World) (t : TaskId) (c : ContextId) (resval : Entity)
      (stack : List Entity)

namespace HeapOp

def step (h : EdgeHeap) : HeapOp → Option EdgeHeap
  | heapNew cls => some (h.heapNew cls).2
  | objectSetMember parent key child => some (h.objectSetMember parent key child)
  | objectSetMemberObj parent key child => some (h.objectSetMemberObj parent key child)
  | arrayAdd array child =>
    match h.store.internal array with
    | .array _ => some (h.arrayAdd array child)
    | _ => none
  | arraySet array index child => h.arraySet array index child
  | arrayRemove array index => (h.arrayRemove array index).map Prod.snd
  | tupleSet tuple index child => h.tupleSet tuple index child
  | execute ins w t c resval stack =>
    (EdgeFrame.execute w t c ins ⟨h, resval, stack⟩).map EdgeEffect.heap

end HeapOp

/-! ## The machine without edges -/

namespace EdgeHeap

theorem store_objectSetMember (h : EdgeHeap) (parent : ObjectId) (key : String) (child : Entity) :
    (h.objectSetMember parent key child).store = h.store.setMember parent key child := rfl

theorem store_errorNew (h : EdgeHeap) (lines : List Internal) (message : List Char) :
    ((h.errorNew lines message).1, (h.errorNew lines message).2.store) =
      h.store.errorNew lines message := by
  have hlines : ∀ (stacktrace : ObjectId) (h : EdgeHeap),
      (lines.foldl (fun h line => (h.heapNewWith .StackLine line).2.arrayAdd stacktrace
        (.obj (h.heapNewWith .StackLine line).1)) h).store =
      lines.foldl (fun s line => (s.heapNewWith .StackLine line).2.arrayAdd stacktrace
        (.obj (s.heapNewWith .StackLine line).1)) h.store := by
    intro stacktrace
    induction lines with
    | nil =>
      intro h
      rfl
    | cons line lines ih =>
      intro h
      exact ih _
  have hstore : (h.errorNew lines message).2.store = (h.store.errorNew lines message).2 := by
    simp only [errorNew, objectSetMemberObj, store_objectSetMember, hlines]
    rfl
  rw [hstore]
  rfl

theorem store_contextLookup (h : EdgeHeap) (cs : Contexts) (c : ContextId) (id : String) :
    ((h.contextLookup cs c id).1, (h.contextLookup cs c id).2.store) =
      JeffVm.contextLookup h.store cs c id := by
  unfold contextLookup JeffVm.contextLookup
  dsimp only
  generalize (cs.chain? (cs.context c).previous).findSome? _ = inChain
  generalize h.store.get (cs.context c).memberObj id = inContext
  cases inContext with
  | some member => split <;> rfl
  | none =>
  cases inChain with
  | some member => split <;> rfl
  | none =>
  cases h.store.get (cs.context c).self id with
  | some member =>
    dsimp only
    cases h.store.anonFunction member <;> split <;> rfl
  | none =>
  cases h.store.classGetFunction (h.store.cls (cs.context c).self) id with
  | some func => split <;> rfl
  | none =>
  cases h.store.get (h.store.modules (cs.context c).module).reflection id with
  | some member => split <;> rfl
  | none =>
  cases h.store.moduleLookup (cs.context c).module id with
  | some o =>
    dsimp only
    cases h.store.anonFunction (.obj o) <;> split <;> rfl
  | none =>
  cases h.store.get (h.store.modules h.store.builtin).reflection id with
  | some member => split <;> rfl
  | none =>
  cases h.store.moduleLookup h.store.builtin id <;> split <;> rfl

end EdgeHeap

namespace EdgeFrame

def frame (f : EdgeFrame) : Frame := ⟨f.heap.store, f.resval, f.stack⟩

end EdgeFrame

/-- The effect in the machine, which also calls the function. -/
def EdgeEffect.effect (env : Env) (w : World) (t : TaskId) (c : ContextId) :
    EdgeEffect → Option Effect
  | next f => some (.next f.frame)
  | raise f err => some (.raise f.frame err)
  | call f func self => callFunctionBase env w t c f.frame func self (some c)

namespace EdgeFrame

variable {env : Env} {w : World} {t : TaskId} {c : ContextId} {f : EdgeFrame}

theorem effect_raiseError (env : Env) (c : ContextId) (f : EdgeFrame) (msg : String) :
    (f.raiseError w t msg).effect env w t c = some (JeffVm.raiseError w t f.frame msg) := by
  have herror := EdgeHeap.store_errorNew f.heap (w.stackLines t) msg.toList
  simp only [raiseError, EdgeEffect.effect, JeffVm.raiseError, frame, ← herror]

theorem effect_next (o : Option EdgeFrame) :
    (o.map EdgeEffect.next).bind (EdgeEffect.effect env w t c) = (o.map frame).map .next := by
  cases o <;> rfl

theorem effect_executeFLD (arg : Arg) :
    (f.executeFLD w t arg).bind (EdgeEffect.effect env w t c) = JeffVm.executeFLD w t arg f.frame := by
  unfold executeFLD JeffVm.executeFLD
  cases arg with
  | id id =>
    obtain ⟨heap, resval, stack⟩ := f
    cases resval with
    | obj o =>
      cases stack with
      | nil => rfl
      | cons e rest => rfl
    | none => exact effect_raiseError env c ⟨heap, .none, stack⟩ _
    | prim p => exact effect_raiseError env c ⟨heap, .prim p, stack⟩ _
  | _ => rfl

theorem popN_eq (f : Frame) (n : Nat) : f.popN n =
    if n ≤ f.stack.length then some (f.stack.take n, { f with stack := f.stack.drop n })
    else none := by
  induction n generalizing f with
  | zero => rfl
  | succ n ih =>
    obtain ⟨store, resval, stack⟩ := f
    cases stack with
    | nil => rfl
    | cons e rest =>
      simp only [Frame.popN, Frame.pop, ih, List.length_cons, Nat.succ_le_succ_iff,
        List.take_succ_cons, List.drop_succ_cons]
      by_cases hlen : n ≤ rest.length
      · rw [if_pos hlen, if_pos hlen]
      · rw [if_neg hlen, if_neg hlen]

theorem frame_arrayAddN (array : ObjectId) (n : Nat) :
    (arrayAddN array n f).map frame =
      if n ≤ f.stack.length then some ⟨(f.stack.take n).foldl (fun s e => s.arrayAdd array e)
        f.heap.store, f.resval, f.stack.drop n⟩
      else none := by
  induction n generalizing f with
  | zero => rfl
  | succ n ih =>
    obtain ⟨heap, resval, stack⟩ := f
    cases stack with
    | nil => rfl
    | cons e rest =>
      simp only [arrayAddN, pop, ih, List.length_cons, Nat.succ_le_succ_iff, List.take_succ_cons,
        List.drop_succ_cons, List.foldl_cons]
      rfl

theorem effect_executeANEW (arg : Arg) :
    (f.executeANEW arg).bind (EdgeEffect.effect env w t c) = JeffVm.executeANEW arg f.frame := by
  unfold executeANEW JeffVm.executeANEW
  cases arg with
  | noArg => rfl
  | val val =>
    cases val with
    | int numArgs =>
      dsimp only
      have hadd := frame_arrayAddN
        (f := ⟨(f.heap.heapNew .Array).2, .obj (f.heap.heapNew .Array).1, f.stack⟩)
        (f.heap.heapNew .Array).1 numArgs.toNat
      rw [effect_next, hadd, popN_eq]
      by_cases hlen : numArgs.toNat ≤ f.stack.length
      · simp only [frame, hlen, if_true]
        rfl
      · simp only [frame, hlen, if_false]
        rfl
    | _ => rfl
  | _ => rfl

/-- The elements that the loop has set so far are `set`. -/
theorem frame_tupleSetN (tuple : ObjectId) (n : Nat) (set : List Entity)
    (htuple : f.heap.store.internal tuple = .tuple (set ++ List.replicate n Entity.none)) :
    (tupleSetN tuple n set.length f).map frame =
      if n ≤ f.stack.length then some ⟨f.heap.store.setInternal tuple
        (.tuple (set ++ f.stack.take n)), f.resval, f.stack.drop n⟩
      else none := by
  induction n generalizing f set with
  | zero =>
    have hsame : f.heap.store.setInternal tuple (.tuple set) = f.heap.store := by
      rw [List.replicate_zero, List.append_nil] at htuple
      rw [← htuple]
      simp [Store.setInternal, Store.modify, Store.internal]
    simp [tupleSetN, hsame, frame]
  | succ n ih =>
    obtain ⟨heap, resval, stack⟩ := f
    cases stack with
    | nil => rfl
    | cons e rest =>
      have hset : heap.tupleSet tuple set.length e = some ((heap.withStore (heap.store.setInternal
          tuple (.tuple ((set ++ [e]) ++ List.replicate n Entity.none)))).inc tuple e) := by
        simp only at htuple
        simp [EdgeHeap.tupleSet, htuple, List.replicate_succ]
      have hrest := ih (f := ⟨(heap.withStore (heap.store.setInternal tuple
        (.tuple ((set ++ [e]) ++ List.replicate n Entity.none)))).inc tuple e, resval, rest⟩)
        (set ++ [e]) (by simp [EdgeHeap.inc, EdgeHeap.withStore, Store.setInternal,
          Store.internal])
      simp only [tupleSetN, pop, hset, List.length_cons, Nat.succ_le_succ_iff, List.take_succ_cons,
        List.drop_succ_cons]
      rw [List.length_append, List.length_singleton] at hrest
      rw [hrest]
      simp [EdgeHeap.inc, EdgeHeap.withStore, Store.setInternal, Store.modify]

theorem effect_executeTUPL (arg : Arg) :
    (f.executeTUPL arg).bind (EdgeEffect.effect env w t c) = JeffVm.executeTUPL arg f.frame := by
  unfold executeTUPL JeffVm.executeTUPL
  cases arg with
  | val val =>
    cases val with
    | int numArgs =>
      dsimp only
      have hinternal : (f.heap.heapNewWith .Tuple (.tuple (List.replicate numArgs.toNat
          Entity.none))).2.store.internal f.heap.store.nextObject =
            .tuple ([] ++ List.replicate numArgs.toNat Entity.none) :=
        Store.internal_heapNewWith ..
      have hset := frame_tupleSetN (f := ⟨(f.heap.heapNewWith .Tuple (.tuple (List.replicate
        numArgs.toNat Entity.none))).2, .obj f.heap.store.nextObject, f.stack⟩)
        f.heap.store.nextObject numArgs.toNat [] hinternal
      rw [effect_next]
      refine (congrArg (Option.map Effect.next) hset).trans ?_
      rw [popN_eq]
      by_cases hlen : numArgs.toNat ≤ f.stack.length
      · simp [hlen, frame, EdgeHeap.heapNewWith, EdgeHeap.withStore, Store.heapNewWith, Store.heapNew,
          Store.setInternal, Store.modify]
      · simp [hlen, frame]
    | _ => rfl
  | _ => rfl

theorem effect_executeIndex (arr : ObjectId) (index : Entity) :
    (f.executeIndex w t arr index).bind (EdgeEffect.effect env w t c) =
      match f.frame.store.cls arr, f.frame.store.internal arr with
      | .Array, .array table =>
        match indexOf index table.length with
        | some i => some (.next (f.frame.withResval (table.getD i .none)))
        | none => some (JeffVm.raiseError w t f.frame "Invalid array index.")
      | .Tuple, .tuple table =>
        match indexOf index table.length with
        | some i => some (.next (f.frame.withResval (table.getD i .none)))
        | none => some (JeffVm.raiseError w t f.frame "Invalid tuple index.")
      | .Array, _ => none
      | .Tuple, _ => none
      | cls, _ =>
        match f.frame.store.classGetFunction cls "__index__" with
        | some func => callFunctionBase env w t c f.frame func arr (some c)
        | none => some (JeffVm.raiseError w t f.frame "Invalid array index on non-indexable.") := by
  have hraise := effect_raiseError (w := w) (t := t) env c f
  have hcall : ∀ cls,
      (match f.heap.store.classGetFunction cls "__index__" with
      | some func => some (EdgeEffect.call f func arr)
      | none => some (f.raiseError w t "Invalid array index on non-indexable.")).bind
        (EdgeEffect.effect env w t c) =
      match f.heap.store.classGetFunction cls "__index__" with
      | some func => callFunctionBase env w t c f.frame func arr (some c)
      | none => some (JeffVm.raiseError w t f.frame "Invalid array index on non-indexable.") := by
    intro cls
    cases f.heap.store.classGetFunction cls "__index__" with
    | some func => rfl
    | none => exact hraise _
  unfold executeIndex
  simp only [frame] at hraise hcall ⊢
  cases f.heap.store.cls arr with
  | Array =>
    cases f.heap.store.internal arr with
    | array table =>
      dsimp only
      cases indexOf index table.length with
      | some i => rfl
      | none => exact hraise _
    | _ => rfl
  | Tuple =>
    cases f.heap.store.internal arr with
    | tuple table =>
      dsimp only
      cases indexOf index table.length with
      | some i => rfl
      | none => exact hraise _
    | _ => rfl
  | _ => exact hcall _

theorem effect_executeAIDX (arg : Arg) :
    (f.executeAIDX w t c arg).bind (EdgeEffect.effect env w t c) =
      JeffVm.executeAIDX env w t c arg f.frame := by
  obtain ⟨heap, resval, stack⟩ := f
  cases stack with
  | nil => rfl
  | cons e rest =>
    cases e with
    | none => exact effect_raiseError env c ⟨heap, resval, rest⟩ _
    | prim p => exact effect_raiseError env c ⟨heap, resval, rest⟩ _
    | obj arr =>
      cases arg with
      | noArg => exact effect_executeIndex (f := ⟨heap, resval, rest⟩) arr resval
      | id id =>
        have hlookup := EdgeHeap.store_contextLookup heap w.contexts c id
        unfold executeAIDX JeffVm.executeAIDX
        simp only [pop, Frame.pop, frame, indexArg, Frame.lookup, ← hlookup]
        cases (heap.contextLookup w.contexts c id).1 with
        | none => exact effect_raiseError env c ⟨_, resval, rest⟩ _
        | some index => exact effect_executeIndex (f := ⟨_, resval, rest⟩) arr index
      | val val =>
        cases val with
        | int i =>
          unfold executeAIDX JeffVm.executeAIDX
          simp only [pop, Frame.pop, frame, indexArg]
          by_cases hi : i < 0
          · simp only [hi, if_true]
            exact effect_raiseError env c ⟨heap, resval, rest⟩ _
          · simp only [hi, if_false]
            exact effect_executeIndex (f := ⟨heap, resval, rest⟩) arr (.prim (.int i))
        | _ => exact effect_raiseError env c ⟨heap, resval, rest⟩ _
      | str str => rfl

theorem effect_executeASET (hset : env.arraySetRef = setSlot) :
    (f.executeASET w t).bind (EdgeEffect.effect env w t c) =
      JeffVm.executeASET env w t c f.frame := by
  obtain ⟨heap, resval, stack⟩ := f
  match stack with
  | [] => rfl
  | [_] => rfl
  | .none :: newVal :: rest => exact effect_raiseError env c ⟨heap, resval, rest⟩ _
  | .prim p :: newVal :: rest => exact effect_raiseError env c ⟨heap, resval, rest⟩ _
  | .obj arr :: newVal :: rest =>
    have hraise := effect_raiseError (w := w) (t := t) env c ⟨heap, resval, rest⟩
    have hcall : ∀ cls,
        (match heap.store.classGetFunction cls "__set__" with
        | some func => some (EdgeEffect.call ⟨(heap.heapNewWith .Tuple (.tuple [resval, newVal])).2,
            .obj (heap.heapNewWith .Tuple (.tuple [resval, newVal])).1, rest⟩ func arr)
        | none => some (raiseError w t ⟨heap, resval, rest⟩
            "Cannot set index value on non-indexable.")).bind (EdgeEffect.effect env w t c) =
        match heap.store.classGetFunction cls "__set__" with
        | some func => callFunctionBase env w t c
            ⟨(heap.store.heapNewWith .Tuple (.tuple [resval, newVal])).2,
              .obj (heap.store.heapNewWith .Tuple (.tuple [resval, newVal])).1, rest⟩ func arr
            (some c)
        | none => some (JeffVm.raiseError w t ⟨heap.store, resval, rest⟩
            "Cannot set index value on non-indexable.") := by
      intro cls
      cases heap.store.classGetFunction cls "__set__" with
      | some func => rfl
      | none => exact hraise _
    unfold executeASET JeffVm.executeASET
    simp only [frame] at hraise ⊢
    cases heap.store.cls arr with
    | Array =>
      cases harr : heap.store.internal arr with
      | array table =>
        dsimp only
        cases resval with
        | prim p =>
          cases p with
          | int i =>
            by_cases hi : i < 0
            · simp only [hi, if_true]
              exact hraise _
            · simp only [hi, if_false, EdgeHeap.arraySet, harr, hset]
              rfl
          | _ => exact hraise _
        | _ => exact hraise _
      | _ => rfl
    | _ => exact hcall _

/-- The instructions do to the store what they do in the machine, when the slots that an array
gets are `None`. -/
theorem effect_execute {ins : Instruction} {effect : EdgeEffect}
    (hset : env.arraySetRef = setSlot) (hexec : execute w t c ins f = some effect)
    (hframe : w.frame t = f.frame) :
    effect.effect env w t c = JeffVm.execute env w t c ins := by
  have hbind : ∀ o, o = some effect →
      effect.effect env w t c = o.bind (EdgeEffect.effect env w t c) := by
    intro o ho
    rw [ho]
    rfl
  unfold execute at hexec
  unfold JeffVm.execute
  rw [hframe]
  split at hexec
  · rename_i hop
    rw [hop, hbind _ hexec]
    exact effect_executeFLD ins.arg
  · rename_i hop
    rw [hop, hbind _ hexec]
    exact effect_executeANEW ins.arg
  · rename_i hop
    rw [hop, hbind _ hexec]
    exact effect_executeTUPL ins.arg
  · rename_i hop
    rw [hop, hbind _ hexec]
    exact effect_executeAIDX ins.arg
  · rename_i hop
    rw [hop, hbind _ hexec]
    exact effect_executeASET hset
  · cases hexec

end EdgeFrame

/-! ## Edges as references -/

/-- For each pair of objects there are as many edges as references. -/
def EdgeHeap.Mirrors (h : EdgeHeap) : Prop :=
  ∀ p c, h.edges p c = (h.store.held p).count (.obj c)

/-! ## Edges and references of each operation -/

namespace EdgeHeap

variable {h h' h'' : EdgeHeap}

/-- How many edges there are too many. -/
def defect (h : EdgeHeap) (p c : ObjectId) : Int := h.edges p c - (h.store.held p).count (.obj c)

/-- Objects that do not exist yet hold nothing. -/
def Fresh (h : EdgeHeap) : Prop := ∀ p, h.store.nextObject ≤ p → h.store.held p = []

theorem mirrors_iff : h.Mirrors ↔ ∀ p c, h.defect p c = 0 := by
  constructor
  · intro hm p c
    rw [defect, hm p c, Int.sub_self]
  · intro hd p c
    have hzero := hd p c
    rw [defect] at hzero
    omega

/-- The operation changes no defect. -/
structure Balanced (h h' : EdgeHeap) : Prop where
  fresh : h'.Fresh
  le : h.store.nextObject ≤ h'.store.nextObject
  defect : ∀ p c, h'.defect p c = h.defect p c

theorem Balanced.refl (hf : h.Fresh) : Balanced h h := ⟨hf, Nat.le_refl _, fun _ _ => rfl⟩

theorem Balanced.trans (hb : Balanced h h') (hb' : Balanced h' h'') : Balanced h h'' :=
  ⟨hb'.fresh, Nat.le_trans hb.le hb'.le, fun p c => (hb'.defect p c).trans (hb.defect p c)⟩

theorem held_modify_ne (s : Store) {o p : ObjectId} (f : Object → Object) (hne : p ≠ o) :
    (s.modify o f).held p = s.held p := by
  simp [Store.held, Store.internal, Store.modify_objects_ne s f hne]

/-- What the operations have in common: one object changes, and its edges with it. -/
theorem balanced_modify (hf : h.Fresh) {o : ObjectId} (ho : o < h.store.nextObject)
    (f : Object → Object) {edges : ObjectId → ObjectId → Int}
    (hedges : ∀ p c, p ≠ o → edges p c = h.edges p c)
    (hself : ∀ c, edges o c - ((h.store.modify o f).held o).count (.obj c) = h.defect o c) :
    Balanced h ⟨h.store.modify o f, edges⟩ := by
  refine ⟨?_, Nat.le_refl _, ?_⟩
  · intro p hp
    have hne : p ≠ o := by
      intro heq
      subst heq
      exact absurd ho (Nat.not_lt.mpr hp)
    rw [held_modify_ne _ _ hne]
    exact hf p hp
  · intro p c
    by_cases hp : p = o
    · subst hp
      exact hself c
    · simp only [EdgeHeap.defect, held_modify_ne _ _ hp, hedges p c hp]

theorem balanced_objectSetMember (hf : h.Fresh) {parent : ObjectId}
    (hparent : parent < h.store.nextObject) (key : String) (child : Entity) :
    Balanced h (h.objectSetMember parent key child) := by
  apply balanced_modify hf hparent
  · intro p c hp
    simp [dec, inc, hp]
  · intro c
    have hcount := KeyedList.count_map_insertEntry Prod.fst
      Prod.snd (key, child) (h.store.objects parent).members.entries (.obj c)
    have hold : ((h.store.objects parent).members.entries.find? (fun b => b.1 = key)).elim 0
        (fun b => if b.2 = .obj c then 1 else 0) =
          if (h.store.get parent key).getD .none = .obj c then 1 else 0 := by
      unfold Store.get KeyedList.lookup
      cases (h.store.objects parent).members.entries.find? (fun b => decide (b.1 = key)) with
      | none => simp
      | some b => simp
    rw [hold] at hcount
    simp only [dec, inc, defect, Store.held, Store.internal, Store.modify_objects_self,
      KeyedList.insert, List.count_append, true_and]
    push_cast
    split at hcount <;> split at hcount <;> simp_all <;> omega

/-- The internal data of an object that is not shared with other objects. -/
theorem balanced_setInternal (hf : h.Fresh) {o : ObjectId} (ho : o < h.store.nextObject)
    (internal : Internal) {edges : ObjectId → ObjectId → Int}
    (hedges : ∀ p c, p ≠ o → edges p c = h.edges p c)
    (hself : ∀ c, edges o c - internal.elements.count (.obj c) =
      h.edges o c - (h.store.internal o).elements.count (.obj c)) :
    Balanced h ⟨h.store.setInternal o internal, edges⟩ := by
  apply balanced_modify hf ho _ hedges
  intro c
  have hsame := hself c
  simp only [defect, Store.held, Store.internal, Store.modify_objects_self, List.count_append]
  simp only [Store.internal] at hsame
  omega

/-- A new object holds its internal data without edges. -/
theorem defect_heapNewWith (hf : h.Fresh) (cls : ClassId) (internal : Internal) (p c : ObjectId) :
    (h.heapNewWith cls internal).2.defect p c = h.defect p c -
      if p = h.store.nextObject then (internal.elements.count (.obj c) : Int) else 0 := by
  have hedges : (h.heapNewWith cls internal).2.edges = h.edges := rfl
  by_cases hp : p = h.store.nextObject
  · subst hp
    have hheld : (h.heapNewWith cls internal).2.store.held h.store.nextObject =
        internal.elements := by
      simp [heapNewWith, withStore, Store.heapNewWith, Store.heapNew, Store.setInternal, Store.held,
        Store.internal]
    rw [defect, defect, hheld, hedges, hf h.store.nextObject (Nat.le_refl _), if_pos rfl]
    simp
  · have hheld : (h.heapNewWith cls internal).2.store.held p = h.store.held p := by
      simp only [Store.held, Store.internal, heapNewWith, withStore,
        Store.objects_heapNewWith_ne _ _ _ hp]
    rw [defect, defect, hheld, hedges, if_neg hp, Int.sub_zero]

theorem fresh_heapNewWith (hf : h.Fresh) (cls : ClassId) (internal : Internal) :
    (h.heapNewWith cls internal).2.Fresh := by
  intro p hp
  have hle : h.store.nextObject + 1 ≤ p := hp
  have hne : p ≠ h.store.nextObject := Nat.ne_of_gt hle
  simp only [Store.held, Store.internal, heapNewWith, withStore,
    Store.objects_heapNewWith_ne _ _ _ hne]
  exact hf p (Nat.le_of_succ_le hle)

theorem balanced_heapNewWith (hf : h.Fresh) (cls : ClassId) (internal : Internal)
    (hempty : ∀ c, internal.elements.count (.obj c) = 0) :
    Balanced h (h.heapNewWith cls internal).2 := by
  refine ⟨fresh_heapNewWith hf cls internal, Nat.le_succ _, ?_⟩
  intro p c
  rw [defect_heapNewWith hf, hempty]
  simp

theorem balanced_heapNew (hf : h.Fresh) (cls : ClassId) : Balanced h (h.heapNew cls).2 := by
  have hempty : ∀ c, cls.init.elements.count (.obj c) = 0 := by
    intro c
    cases cls <;> rfl
  have hnew := balanced_heapNewWith hf cls _ hempty
  have heq : h.store.heapNewWith cls cls.init = h.store.heapNew cls := by
    simp [Store.heapNewWith, Store.heapNew, Store.setInternal, Store.modify]
  rwa [heapNewWith, heq] at hnew

theorem balanced_arrayAdd (hf : h.Fresh) {array : ObjectId} {table : List Entity}
    (harray : h.store.internal array = .array table) (ho : array < h.store.nextObject)
    (child : Entity) : Balanced h (h.arrayAdd array child) := by
  have htable : h.store.arrayTable array = table := by
    rw [Store.arrayTable, harray]
  apply balanced_setInternal hf ho
  · intro p c hp
    simp [hp, withStore]
  · intro c
    simp only [htable, harray, Internal.elements, List.count_append, List.count_singleton,
      beq_iff_eq, withStore, true_and]
    split <;> push_cast <;> omega

theorem count_set (table : List Entity) (c : ObjectId) {i : Nat} (hi : i < table.length)
    (e : Entity) :
    ((table.set i e).count (.obj c) : Int) = table.count (.obj c) -
      (if table[i] = .obj c then 1 else 0) + if e = .obj c then 1 else 0 := by
  induction table generalizing i with
  | nil => exact absurd hi (Nat.not_lt_zero i)
  | cons x table ih =>
    cases i with
    | zero =>
      simp only [List.set_cons_zero, List.count_cons, beq_iff_eq, List.getElem_cons_zero]
      push_cast
      omega
    | succ i =>
      have hrest := ih (Nat.lt_of_succ_lt_succ hi)
      simp only [List.set_cons_succ, List.count_cons, List.getElem_cons_succ]
      push_cast
      omega

theorem count_eraseIdx (table : List Entity) (c : ObjectId) {i : Nat} (hi : i < table.length) :
    ((table.eraseIdx i).count (.obj c) : Int) = table.count (.obj c) -
      if table[i] = .obj c then 1 else 0 := by
  induction table generalizing i with
  | nil => exact absurd hi (Nat.not_lt_zero i)
  | cons x table ih =>
    cases i with
    | zero =>
      simp only [List.eraseIdx_cons_zero, List.count_cons, beq_iff_eq, List.getElem_cons_zero]
      push_cast
      omega
    | succ i =>
      have hrest := ih (Nat.lt_of_succ_lt_succ hi)
      simp only [List.eraseIdx_cons_succ, List.count_cons, List.getElem_cons_succ]
      push_cast
      omega

theorem count_setSlot (table : List Entity) (c : ObjectId) (i : Nat) (e : Entity) :
    ((setSlot table i e).count (.obj c) : Int) = table.count (.obj c) -
      (if table.getD i .none = .obj c then 1 else 0) + if e = .obj c then 1 else 0 := by
  have hlen : i < (table ++ List.replicate (i + 1 - table.length) Entity.none).length := by
    rw [List.length_append, List.length_replicate]
    omega
  have hpad : (List.replicate (i + 1 - table.length) Entity.none).count (.obj c) = 0 := by
    rw [List.count_replicate]
    simp
  have hget : (table ++ List.replicate (i + 1 - table.length) Entity.none)[i] =
      table.getD i .none := by
    by_cases hi : i < table.length
    · rw [List.getElem_append_left hi]
      simp [hi]
    · rw [List.getElem_append_right (by omega)]
      simp [hi]
  rw [setSlot, count_set _ _ hlen, hget, List.count_append, hpad, Nat.add_zero]

theorem balanced_arraySet (hf : h.Fresh) {array : ObjectId} (ho : array < h.store.nextObject)
    {index : Nat} {child : Entity} (hset : h.arraySet array index child = some h') :
    Balanced h h' := by
  unfold arraySet at hset
  split at hset
  · rename_i table harray
    cases hset
    apply balanced_setInternal hf ho
    · intro p c hp
      simp [hp, dec, withStore]
    · intro c
      simp only [harray, Internal.elements, count_setSlot, dec, withStore, true_and]
      omega
  · cases hset

theorem balanced_arrayRemove (hf : h.Fresh) {array : ObjectId} (ho : array < h.store.nextObject)
    {index : Nat} {e : Entity} (hremove : h.arrayRemove array index = some (e, h')) :
    Balanced h h' := by
  unfold arrayRemove at hremove
  split at hremove
  · rename_i table harray
    split at hremove
    · rename_i e' he
      cases hremove
      obtain ⟨hi, hget⟩ := List.getElem?_eq_some_iff.mp he
      apply balanced_setInternal hf ho
      · intro p c hp
        simp [hp, withStore]
      · intro c
        simp only [harray, Internal.elements, count_eraseIdx _ _ hi, hget, withStore, true_and]
        omega
    · cases hremove
  · cases hremove

/-- The slot that `tuple_set` writes to holds no object. -/
def ClearSlot (h : EdgeHeap) (tuple : ObjectId) (index : Nat) : Prop :=
  ∀ o, (h.store.internal tuple).elements[index]? ≠ some (.obj o)

/-- Without a decrement for the old entity in the slot there is an edge too many. -/
theorem defect_tupleSet {tuple : ObjectId} {index : Nat} {child : Entity}
    (hset : h.tupleSet tuple index child = some h') (p c : ObjectId) :
    h'.defect p c = h.defect p c +
      if p = tuple ∧ (h.store.internal tuple).elements[index]? = some (.obj c) then 1 else 0 := by
  unfold tupleSet at hset
  split at hset
  · rename_i table htuple
    split at hset
    · rename_i hi
      cases hset
      by_cases hp : p = tuple
      · subst hp
        simp only [defect, inc, withStore, Store.held, Store.internal, Store.setInternal,
          Store.modify_objects_self, List.count_append, true_and]
        simp only [Store.internal] at htuple
        rw [htuple]
        simp only [Internal.elements, List.getElem?_eq_getElem hi, Option.some.injEq]
        push_cast [count_set _ _ hi]
        omega
      · simp only [defect, inc, withStore, Store.setInternal, held_modify_ne _ _ hp, hp, false_and,
          if_false]
        omega
    · cases hset
  · cases hset

theorem defect_tupleSet_iff {tuple : ObjectId} {index : Nat} {child : Entity}
    (hset : h.tupleSet tuple index child = some h') :
    (∀ p c, h'.defect p c = h.defect p c) ↔ h.ClearSlot tuple index := by
  constructor
  · intro hsame o ho
    have hdefect := defect_tupleSet hset tuple o
    rw [hsame, if_pos ⟨rfl, ho⟩] at hdefect
    omega
  · intro hclear p c
    rw [defect_tupleSet hset, if_neg fun hslot => hclear c hslot.2]
    exact Int.add_zero _

theorem fresh_tupleSet (hf : h.Fresh) {tuple : ObjectId} (ho : tuple < h.store.nextObject)
    {index : Nat} {child : Entity} (hset : h.tupleSet tuple index child = some h') :
    h'.Fresh ∧ h.store.nextObject ≤ h'.store.nextObject := by
  unfold tupleSet at hset
  split at hset
  · rename_i table _
    split at hset
    · cases hset
      refine ⟨?_, Nat.le_refl _⟩
      intro p hp
      have hne : p ≠ tuple := by
        intro heq
        subst heq
        exact absurd ho (Nat.not_lt.mpr hp)
      exact (held_modify_ne h.store
        (fun obj => { obj with internal := .tuple (table.set index child) }) hne).trans (hf p hp)
    · cases hset
  · cases hset

theorem tupleSet_elements {tuple : ObjectId} {index : Nat} {child : Entity}
    (hset : h.tupleSet tuple index child = some h') {j : Nat} (hj : index ≠ j) :
    (h'.store.internal tuple).elements[j]? = (h.store.internal tuple).elements[j]? := by
  unfold tupleSet at hset
  split at hset
  · rename_i table htuple
    split at hset
    · cases hset
      simp only [inc, withStore, Store.setInternal, Store.internal, Store.modify_objects_self]
      simp only [Store.internal] at htuple
      rw [htuple]
      exact List.getElem?_set_ne hj
    · cases hset
  · cases hset

/-! ## Errors and names -/

theorem heapNew_lt (h : EdgeHeap) (cls : ClassId) :
    (h.heapNew cls).1 < (h.heapNew cls).2.store.nextObject :=
  Nat.lt_succ_self _

theorem internal_heapNew (h : EdgeHeap) (cls : ClassId) :
    (h.heapNew cls).2.store.internal (h.heapNew cls).1 = cls.init := by
  simp [heapNew, withStore, Store.heapNew, Store.internal]

theorem internal_arrayAdd (h : EdgeHeap) (array : ObjectId) (child : Entity) :
    (h.arrayAdd array child).store.internal array =
      .array (h.store.arrayTable array ++ [child]) := by
  simp [arrayAdd, inc, withStore, Store.arrayAdd, Store.setInternal, Store.internal]

/-- The stack trace of an error that is being created. -/
structure Tracing (h h' : EdgeHeap) (stacktrace : ObjectId) : Prop where
  balanced : Balanced h h'
  array : ∃ table, h'.store.internal stacktrace = .array table
  lt : stacktrace < h'.store.nextObject

theorem Tracing.line {stacktrace : ObjectId} (htrace : Tracing h h' stacktrace) {line : Internal}
    (hline : ∀ c, line.elements.count (.obj c) = 0) :
    Tracing h ((h'.heapNewWith .StackLine line).2.arrayAdd stacktrace
      (.obj (h'.heapNewWith .StackLine line).1)) stacktrace := by
  obtain ⟨table, harray⟩ := htrace.array
  have hnew := balanced_heapNewWith htrace.balanced.fresh .StackLine _ hline
  have hsame : (h'.heapNewWith .StackLine line).2.store.internal stacktrace = .array table := by
    have hne : stacktrace ≠ h'.store.nextObject := Nat.ne_of_lt htrace.lt
    simp only [Store.internal, heapNewWith, withStore, Store.objects_heapNewWith_ne _ _ _ hne]
    exact harray
  have hlt := Nat.lt_of_lt_of_le htrace.lt hnew.le
  exact ⟨htrace.balanced.trans (hnew.trans (balanced_arrayAdd hnew.fresh hsame hlt _)),
    ⟨_, internal_arrayAdd _ _ _⟩, hlt⟩

theorem Tracing.lines {stacktrace : ObjectId} (htrace : Tracing h h' stacktrace)
    {lines : List Internal} (hlines : ∀ line ∈ lines, ∀ c, line.elements.count (.obj c) = 0) :
    Tracing h (lines.foldl (fun h line => (h.heapNewWith .StackLine line).2.arrayAdd stacktrace
      (.obj (h.heapNewWith .StackLine line).1)) h') stacktrace := by
  induction lines generalizing h' with
  | nil => exact htrace
  | cons line lines ih =>
    exact ih (htrace.line (hlines line List.mem_cons_self))
      fun line' hmem => hlines line' (List.mem_cons_of_mem _ hmem)

theorem balanced_errorNew (hf : h.Fresh) {lines : List Internal}
    (hlines : ∀ line ∈ lines, ∀ c, line.elements.count (.obj c) = 0) (message : List Char) :
    Balanced h (h.errorNew lines message).2 := by
  have hmsg := balanced_heapNewWith hf .String (.string message) fun _ => rfl
  have herr := balanced_heapNew hmsg.fresh .Error
  have hlt := heapNew_lt (h.heapNewWith .String (.string message)).2 .Error
  have hmember := balanced_objectSetMember herr.fresh hlt "message"
    (.obj (h.heapNewWith .String (.string message)).1)
  have hstack := balanced_heapNew hmember.fresh .Array
  have htrace : Tracing _ _ _ :=
    ⟨hstack, ⟨_, internal_heapNew _ .Array⟩, heapNew_lt _ .Array⟩
  have hall := (htrace.lines hlines).balanced
  refine hmsg.trans (herr.trans (hmember.trans (hall.trans ?_)))
  exact balanced_objectSetMember hall.fresh
    (Nat.lt_of_lt_of_le hlt (Nat.le_trans hmember.le hall.le)) _ _

theorem balanced_wrap (hf : h.Fresh) (func : FunctionId) (self : ObjectId) (c : ContextId) :
    Balanced h (h.withStore (h.store.wrapFunctionInRef func self c).2) :=
  balanced_heapNewWith hf .FunctionRef _ fun _ => rfl

theorem balanced_contextLookup (hf : h.Fresh) (cs : Contexts) (c : ContextId) (id : String)
    (hself : (cs.context c).self < h.store.nextObject)
    (hmodule : (h.store.modules (cs.context c).module).reflection < h.store.nextObject)
    (hbuiltin : (h.store.modules h.store.builtin).reflection < h.store.nextObject) :
    Balanced h (h.contextLookup cs c id).2 := by
  have hwrap := fun func => balanced_wrap hf func (cs.context c).self c
  unfold contextLookup
  dsimp only
  repeat' split
  all_goals first
    | exact .refl hf
    | exact hwrap _
    | exact balanced_objectSetMember hf hmodule _ _
    | exact balanced_objectSetMember hf hbuiltin _ _
    | exact (hwrap _).trans (balanced_objectSetMember (hwrap _).fresh
        (Nat.lt_of_lt_of_le hself (hwrap _).le) _ _)

end EdgeHeap

/-! ## Edges and references of each instruction -/

namespace EdgeFrame

open EdgeHeap (Balanced)

variable {w : World} {t : TaskId} {c : ContextId} {f f' : EdgeFrame} {h : EdgeHeap}

/-- The objects that an instruction may change exist. -/
structure Exists (w : World) (c : ContextId) (f : EdgeFrame) : Prop where
  resval : ∀ o, f.resval = .obj o → o < f.heap.store.nextObject
  stack : ∀ o, .obj o ∈ f.stack → o < f.heap.store.nextObject
  self : (w.contexts.context c).self < f.heap.store.nextObject
  module : (f.heap.store.modules (w.contexts.context c).module).reflection <
    f.heap.store.nextObject
  builtin : (f.heap.store.modules f.heap.store.builtin).reflection < f.heap.store.nextObject

theorem balanced_raiseError (hf : f.heap.Fresh) (msg : String) :
    Balanced f.heap (f.raiseError w t msg).heap := by
  apply EdgeHeap.balanced_errorNew hf
  intro line hline c
  obtain ⟨s, -, hline⟩ := List.mem_flatMap.mp hline
  obtain ⟨d, -, rfl⟩ := List.mem_map.mp hline
  rfl

theorem pop_heap {e : Entity} (hpop : f.pop = some (e, f')) : f'.heap = f.heap := by
  unfold pop at hpop
  split at hpop
  · cases hpop
  · cases hpop
    rfl

theorem balanced_executeFLD {arg : Arg} {effect : EdgeEffect} (hf : f.heap.Fresh)
    (hexists : f.Exists w c) (hexec : f.executeFLD w t arg = some effect) :
    Balanced f.heap effect.heap := by
  unfold executeFLD at hexec
  split at hexec
  · split at hexec
    · rename_i o hresval
      obtain ⟨⟨e, f'⟩, hpop, rfl⟩ := Option.map_eq_some_iff.mp hexec
      have hheap := pop_heap hpop
      change Balanced f.heap (f'.heap.objectSetMember o _ e)
      rw [hheap]
      exact EdgeHeap.balanced_objectSetMember hf (hexists.resval o hresval) _ _
    · cases hexec
      exact balanced_raiseError hf _
  · cases hexec

theorem balanced_arrayAddN {array : ObjectId} (n : Nat) (hf : f.heap.Fresh)
    (hlt : array < f.heap.store.nextObject) {table : List Entity}
    (harray : f.heap.store.internal array = .array table)
    (hadd : arrayAddN array n f = some f') : Balanced f.heap f'.heap := by
  induction n generalizing f table with
  | zero =>
    cases hadd
    exact .refl hf
  | succ n ih =>
    rw [arrayAddN] at hadd
    split at hadd
    · cases hadd
    · rename_i e f₁ hpop
      have hheap := pop_heap hpop
      rw [← hheap] at hf hlt harray
      have hone := EdgeHeap.balanced_arrayAdd hf harray hlt e
      have hrest := ih (f := ⟨f₁.heap.arrayAdd array e, f₁.resval, f₁.stack⟩) hone.fresh
        (Nat.lt_of_lt_of_le hlt hone.le) (EdgeHeap.internal_arrayAdd f₁.heap array e) hadd
      rw [← hheap]
      exact hone.trans hrest

theorem balanced_executeANEW {arg : Arg} {effect : EdgeEffect} (hf : f.heap.Fresh)
    (hexec : f.executeANEW arg = some effect) : Balanced f.heap effect.heap := by
  have hnew := EdgeHeap.balanced_heapNew hf .Array
  unfold executeANEW at hexec
  dsimp only at hexec
  split at hexec
  · cases hexec
    exact hnew
  · obtain ⟨f', hadd, rfl⟩ := Option.map_eq_some_iff.mp hexec
    refine hnew.trans ?_
    exact balanced_arrayAddN (f := ⟨(f.heap.heapNew .Array).2, _, f.stack⟩) _ hnew.fresh
      (EdgeHeap.heapNew_lt _ _) (EdgeHeap.internal_heapNew f.heap .Array) hadd
  · cases hexec

/-- The slots that the loop of `TUPL` has not written yet are clear. -/
theorem balanced_tupleSetN {tuple : ObjectId} (n i : Nat) (hf : f.heap.Fresh)
    (hlt : tuple < f.heap.store.nextObject)
    (hclear : ∀ j, i ≤ j → f.heap.ClearSlot tuple j)
    (hset : tupleSetN tuple n i f = some f') : Balanced f.heap f'.heap := by
  induction n generalizing f i with
  | zero =>
    cases hset
    exact .refl hf
  | succ n ih =>
    rw [tupleSetN] at hset
    split at hset
    · cases hset
    · rename_i e f₁ hpop
      have hheap := pop_heap hpop
      split at hset
      · cases hset
      · rename_i heap hone
        rw [hheap] at hone
        obtain ⟨hfresh, hle⟩ := EdgeHeap.fresh_tupleSet hf hlt hone
        have hbal : Balanced f.heap heap :=
          ⟨hfresh, hle, (EdgeHeap.defect_tupleSet_iff hone).mpr (hclear i (Nat.le_refl i))⟩
        refine hbal.trans (ih (f := ⟨heap, f₁.resval, f₁.stack⟩) (i + 1) hfresh
          (Nat.lt_of_lt_of_le hlt hle) ?_ hset)
        intro j hj o
        have hsame := EdgeHeap.tupleSet_elements hone (Nat.ne_of_lt hj)
        rw [hsame]
        exact hclear j (Nat.le_of_succ_le hj) o

theorem balanced_executeTUPL {arg : Arg} {effect : EdgeEffect} (hf : f.heap.Fresh)
    (hexec : f.executeTUPL arg = some effect) : Balanced f.heap effect.heap := by
  unfold executeTUPL at hexec
  split at hexec
  · rename_i numArgs
    obtain ⟨f', hset, rfl⟩ := Option.map_eq_some_iff.mp hexec
    have hnew := EdgeHeap.balanced_heapNewWith hf .Tuple
      (.tuple (List.replicate numArgs.toNat Entity.none)) (by
        intro c
        simp [Internal.elements, List.count_replicate])
    refine hnew.trans ?_
    apply balanced_tupleSetN _ 0 hnew.fresh (Nat.lt_succ_self _) _ hset
    intro j _ o hslot
    have hinternal : (f.heap.heapNewWith .Tuple (.tuple (List.replicate numArgs.toNat
        Entity.none))).2.store.internal f.heap.store.nextObject =
          .tuple (List.replicate numArgs.toNat Entity.none) := Store.internal_heapNewWith ..
    have hmem : Entity.obj o ∈ List.replicate numArgs.toNat Entity.none := by
      apply List.mem_of_getElem?
      rw [← hslot]
      exact congrArg (fun i : Internal => i.elements[j]?) hinternal.symm
    cases List.eq_of_mem_replicate hmem
  · cases hexec

theorem balanced_index {arg : Arg} {index : Option Entity} (hf : f.heap.Fresh)
    (hexists : f.Exists w c) (hindex : f.indexArg w c arg = some (index, f')) :
    Balanced f.heap f'.heap := by
  unfold indexArg at hindex
  split at hindex
  · cases hindex
    exact .refl hf
  · cases hindex
    exact EdgeHeap.balanced_contextLookup hf _ _ _ hexists.self hexists.module hexists.builtin
  · split at hindex
    · cases hindex
      exact .refl hf
    · cases hindex
      exact .refl hf
  · cases hindex

theorem Exists.pop {e : Entity} (hexists : f.Exists w c) (hpop : f.pop = some (e, f')) :
    f'.Exists w c ∧ ∀ o, e = .obj o → o < f.heap.store.nextObject := by
  unfold EdgeFrame.pop at hpop
  split at hpop
  · cases hpop
  · rename_i e' rest hstack
    cases hpop
    refine ⟨⟨hexists.resval, ?_, hexists.self, hexists.module, hexists.builtin⟩, ?_⟩
    · intro o ho
      exact hexists.stack o (by rw [hstack]; exact List.mem_cons_of_mem _ ho)
    · intro o ho
      subst ho
      exact hexists.stack o (by rw [hstack]; exact List.mem_cons_self)

theorem balanced_executeAIDX {arg : Arg} {effect : EdgeEffect} (hf : f.heap.Fresh)
    (hexists : f.Exists w c) (hexec : f.executeAIDX w t c arg = some effect) :
    Balanced f.heap effect.heap := by
  unfold executeAIDX at hexec
  split at hexec
  · cases hexec
  · rename_i arr f₁ hpop
    have hheap := pop_heap hpop
    rw [← hheap] at hf ⊢
    split at hexec
    · cases hexec
    · rename_i f₂ hindex
      cases hexec
      have hbal := balanced_index hf (hexists.pop hpop).1 hindex
      exact hbal.trans (balanced_raiseError hbal.fresh _)
    · rename_i index f₂ hindex
      have hbal := balanced_index hf (hexists.pop hpop).1 hindex
      have hraise : ∀ msg, Balanced f₁.heap (f₂.raiseError w t msg).heap :=
        fun msg => hbal.trans (balanced_raiseError hbal.fresh msg)
      unfold executeIndex at hexec
      repeat' split at hexec
      all_goals cases hexec
      all_goals first
        | exact hbal
        | exact hraise _
  · rename_i e f₁ _ hpop
    have hheap := pop_heap hpop
    rw [← hheap] at hf ⊢
    cases hexec
    exact balanced_raiseError hf _

/-- `ASET` does not have to build a tuple of arguments with an object in it. -/
def ClearSet (f : EdgeFrame) : Prop :=
  ∀ arr newVal rest func, f.stack = .obj arr :: newVal :: rest →
    f.heap.store.cls arr ≠ .Array →
    f.heap.store.classGetFunction (f.heap.store.cls arr) "__set__" = some func →
      ∀ o, f.resval ≠ .obj o ∧ newVal ≠ .obj o

/-- What is known of an instruction: it changes no defect exactly when the condition holds. -/
structure BalancedIff (h h' : EdgeHeap) (P : Prop) : Prop where
  fresh : h'.Fresh
  le : h.store.nextObject ≤ h'.store.nextObject
  defect_iff : (∀ p c, h'.defect p c = h.defect p c) ↔ P

theorem BalancedIff.of_balanced {h' : EdgeHeap} {P : Prop} (hbal : Balanced h h') (hP : P) :
    BalancedIff h h' P :=
  ⟨hbal.fresh, hbal.le, ⟨fun _ => hP, fun _ => hbal.defect⟩⟩

/-- The tuple of the arguments of `__set__` holds its elements without edges. -/
theorem balancedIff_args (hf : h.Fresh) (resval newVal : Entity) :
    BalancedIff h (h.heapNewWith .Tuple (.tuple [resval, newVal])).2
      (∀ o, resval ≠ .obj o ∧ newVal ≠ .obj o) := by
  refine ⟨EdgeHeap.fresh_heapNewWith hf _ _, Nat.le_succ _, ?_⟩
  constructor
  · intro hsame o
    have hdefect := EdgeHeap.defect_heapNewWith hf .Tuple (.tuple [resval, newVal])
      h.store.nextObject o
    rw [hsame, if_pos rfl] at hdefect
    have hzero : [resval, newVal].count (.obj o) = 0 := by
      have : (([resval, newVal].count (.obj o) : Nat) : Int) = 0 := by
        simp only [Internal.elements] at hdefect
        omega
      exact Int.ofNat_eq_zero.mp this
    have hnot := List.count_eq_zero.mp hzero
    constructor
    · intro heq
      exact hnot (heq ▸ List.mem_cons_self)
    · intro heq
      exact hnot (heq ▸ List.mem_cons_of_mem _ List.mem_cons_self)
  · intro hclear p c
    have hzero : [resval, newVal].count (.obj c) = 0 := by
      apply List.count_eq_zero.mpr
      intro hmem
      rcases List.mem_cons.mp hmem with heq | hmem
      · exact (hclear c).1 heq.symm
      · exact (hclear c).2 (List.mem_singleton.mp hmem).symm
    rw [EdgeHeap.defect_heapNewWith hf, Internal.elements, hzero]
    simp

theorem executeASET_defect {effect : EdgeEffect} (hf : f.heap.Fresh)
    (hexists : f.Exists w c) (hexec : f.executeASET w t = some effect) :
    BalancedIff f.heap effect.heap f.ClearSet := by
  unfold executeASET at hexec
  split at hexec
  · rename_i arrEntity newVal rest hstack
    have hraise : ∀ msg, Balanced f.heap
        (({ f with stack := rest } : EdgeFrame).raiseError w t msg).heap :=
      fun msg => balanced_raiseError (f := { f with stack := rest }) hf msg
    dsimp only at hexec
    split at hexec
    · rename_i arr
      have harr : arr < f.heap.store.nextObject := by
        apply hexists.stack
        rw [hstack]
        exact List.mem_cons_self
      have hvacuous : f.heap.store.cls arr = .Array → f.ClearSet := by
        intro hcls arr' newVal' rest' func hstack' hne
        rw [hstack] at hstack'
        cases hstack'
        exact absurd hcls hne
      split at hexec
      · rename_i hcls _
        refine .of_balanced ?_ (hvacuous hcls)
        split at hexec
        · split at hexec
          · cases hexec
            exact hraise _
          · obtain ⟨heap, hset, rfl⟩ := Option.map_eq_some_iff.mp hexec
            exact EdgeHeap.balanced_arraySet hf harr hset
        · cases hexec
          exact hraise _
      · cases hexec
      · rename_i hne _
        split at hexec
        · rename_i func hfunc
          cases hexec
          have hargs := balancedIff_args (h := f.heap) hf f.resval newVal
          refine ⟨hargs.fresh, hargs.le, hargs.defect_iff.trans ?_⟩
          constructor
          · intro hclear arr' newVal' rest' func' hstack' _ _
            rw [hstack] at hstack'
            cases hstack'
            exact hclear
          · intro hclear
            exact hclear arr newVal rest func hstack hne hfunc
        · rename_i hfunc
          cases hexec
          refine .of_balanced (hraise _) ?_
          intro arr' newVal' rest' func' hstack' _ hfunc'
          rw [hstack] at hstack'
          cases hstack'
          rw [hfunc] at hfunc'
          cases hfunc'
    · rename_i hne
      cases hexec
      refine .of_balanced (hraise _) ?_
      intro arr' newVal' rest' func' hstack' _ _
      rw [hstack] at hstack'
      cases hstack'
      exact absurd rfl (hne arr')
  · cases hexec

end EdgeFrame

/-! ## Runs -/

namespace HeapOp

open EdgeFrame (BalancedIff)

/-- The objects that the operation changes exist. -/
def Exists (h : EdgeHeap) : HeapOp → Prop
  | heapNew _ => True
  | objectSetMember parent _ _ => parent < h.store.nextObject
  | objectSetMemberObj parent _ _ => parent < h.store.nextObject
  | arrayAdd array _ => array < h.store.nextObject
  | arraySet array _ _ => array < h.store.nextObject
  | arrayRemove array _ => array < h.store.nextObject
  | tupleSet tuple _ _ => tuple < h.store.nextObject
  | execute _ w _ c resval stack => EdgeFrame.Exists w c ⟨h, resval, stack⟩

/-- No object of a tuple is overwritten, and `__set__` does not get an object. -/
def Clean (h : EdgeHeap) : HeapOp → Prop
  | tupleSet tuple index _ => h.ClearSlot tuple index
  | execute ins _ _ _ resval stack => ins.op = .ASET → EdgeFrame.ClearSet ⟨h, resval, stack⟩
  | _ => True

theorem execute_defect {ins : Instruction} {w : World} {t : TaskId} {c : ContextId}
    {f : EdgeFrame} {effect : EdgeEffect} (hf : f.heap.Fresh) (hexists : f.Exists w c)
    (hexec : EdgeFrame.execute w t c ins f = some effect) :
    BalancedIff f.heap effect.heap (ins.op = .ASET → f.ClearSet) := by
  unfold EdgeFrame.execute at hexec
  split at hexec
  · rename_i hop
    exact .of_balanced (EdgeFrame.balanced_executeFLD hf hexists hexec)
      fun hset => by rw [hop] at hset; cases hset
  · rename_i hop
    exact .of_balanced (EdgeFrame.balanced_executeANEW hf hexec)
      fun hset => by rw [hop] at hset; cases hset
  · rename_i hop
    exact .of_balanced (EdgeFrame.balanced_executeTUPL hf hexec)
      fun hset => by rw [hop] at hset; cases hset
  · rename_i hop
    exact .of_balanced (EdgeFrame.balanced_executeAIDX hf hexists hexec)
      fun hset => by rw [hop] at hset; cases hset
  · rename_i hop
    have hset := EdgeFrame.executeASET_defect hf hexists hexec
    exact ⟨hset.fresh, hset.le, hset.defect_iff.trans ⟨fun hclear _ => hclear, fun hclear =>
      hclear hop⟩⟩
  · cases hexec

/-- What one operation does. -/
theorem step_defect {h h' : EdgeHeap} {op : HeapOp} (hf : h.Fresh) (hexists : op.Exists h)
    (hstep : op.step h = some h') : BalancedIff h h' (op.Clean h) := by
  cases op with
  | heapNew cls =>
    cases hstep
    exact .of_balanced (EdgeHeap.balanced_heapNew hf cls) trivial
  | objectSetMember parent key child =>
    cases hstep
    exact .of_balanced (EdgeHeap.balanced_objectSetMember hf hexists key child) trivial
  | objectSetMemberObj parent key child =>
    cases hstep
    exact .of_balanced (EdgeHeap.balanced_objectSetMember hf hexists key (.obj child)) trivial
  | arrayAdd array child =>
    rw [step] at hstep
    split at hstep
    · rename_i table harray
      cases hstep
      exact .of_balanced (EdgeHeap.balanced_arrayAdd hf harray hexists child) trivial
    · cases hstep
  | arraySet array index child =>
    exact .of_balanced (EdgeHeap.balanced_arraySet hf hexists hstep) trivial
  | arrayRemove array index =>
    obtain ⟨⟨e, h₁⟩, hremove, rfl⟩ := Option.map_eq_some_iff.mp hstep
    exact .of_balanced (EdgeHeap.balanced_arrayRemove hf hexists hremove) trivial
  | tupleSet tuple index child =>
    obtain ⟨hfresh, hle⟩ := EdgeHeap.fresh_tupleSet hf hexists hstep
    exact ⟨hfresh, hle, EdgeHeap.defect_tupleSet_iff hstep⟩
  | execute ins w t c resval stack =>
    obtain ⟨effect, hexec, rfl⟩ := Option.map_eq_some_iff.mp hstep
    exact execute_defect (f := ⟨h, resval, stack⟩) hf hexists hexec

end HeapOp

/-- Along a run the edges are the references exactly when no step of it overwrites an object in
a tuple or passes an object to `__set__`. -/
theorem edges_mirror_iff {h : EdgeHeap} {ops : List HeapOp} (hfresh : h.Fresh)
    (hmirrors : h.Mirrors)
    (hexists : Along (fun h op => op.step h) (fun h op => op.Exists h) h ops) :
    (∀ n h', runSteps (fun h op => HeapOp.step h op) h (ops.take n) = some h' → h'.Mirrors) ↔
      Along (fun h op => op.step h) (fun h op => op.Clean h) h ops := by
  apply along_iff (I := EdgeHeap.Fresh) (E := fun h op => op.Exists h) _ hfresh hmirrors hexists
  intro s op s' hf hm he hl
  have hstep := HeapOp.step_defect hf he hl
  refine ⟨hstep.fresh, ?_⟩
  rw [← hstep.defect_iff, EdgeHeap.mirrors_iff]
  rw [EdgeHeap.mirrors_iff] at hm
  constructor
  · intro hzero p c
    rw [hzero, hm]
  · intro hsame p c
    rw [hsame, hm]

/-- Object 0 is an instance of a class with a method `__set__`. -/
def settableStore : Store where
  objects := fun _ => ⟨.user 0, .empty, .none⟩
  nextObject := 2
  classes := fun _ => ⟨"A", [], ⟨[("__set__", 0)], by decide⟩, 0⟩
  functions := fun _ => ⟨"__set__", 0, false, false, false, false, 0, 0⟩
  modules := fun _ => ⟨"m", [], .empty, .empty, 0, true⟩
  builtin := 0

def settableHeap : EdgeHeap := ⟨settableStore, fun _ _ => 0⟩

theorem settableHeap_fresh : settableHeap.Fresh := fun _ _ => rfl

theorem settableHeap_mirrors : settableHeap.Mirrors := fun _ _ => rfl

/-- `a[0] = x` on an array of object 1 and on object 0. -/
def setOps (arr : ObjectId) (x : Entity) : List HeapOp :=
  [.heapNew .Array, .arrayAdd 2 (.obj 1),
    .execute ⟨.ASET, .noArg⟩ (World.boot settableStore 0) 0 0 (.int 0) [.obj arr, x]]

theorem setOps_exists {arr : ObjectId} {x : Entity} (harr : arr < 3)
    (hx : ∀ o, x = .obj o → o < 3) :
    Along (fun h op => HeapOp.step h op) (fun h op => op.Exists h) settableHeap (setOps arr x) := by
  intro h₁ hnew
  obtain rfl := Option.some.inj hnew
  refine ⟨trivial, ?_⟩
  intro h₂ hadd
  obtain rfl := Option.some.inj hadd
  refine ⟨Nat.lt_succ_self 2, ?_⟩
  intro h₃ _
  refine ⟨⟨?_, ?_, Nat.zero_lt_succ 2, Nat.zero_lt_succ 2, Nat.zero_lt_succ 2⟩, trivial⟩
  · intro o ho
    cases ho
  · intro o ho
    rcases List.mem_cons.mp ho with heq | hmem
    · cases heq
      exact harr
    · exact hx o (List.mem_singleton.mp hmem).symm

/-- After `a[0] = x` on the array the edges are the references. -/
theorem edges_mirror_array : ∃ h', runSteps (fun h op => HeapOp.step h op) settableHeap
    (setOps 2 (.obj 0)) = some h' ∧ h'.Mirrors := by
  have hexists : Along (fun h op => HeapOp.step h op) (fun h op => op.Exists h) settableHeap
      (setOps 2 (.obj 0)) := by
    apply setOps_exists (by decide)
    intro o ho
    cases ho
    decide
  refine ⟨_, rfl, ?_⟩
  apply (edges_mirror_iff settableHeap_fresh settableHeap_mirrors hexists).mpr _ 3 _ rfl
  intro h₁ hnew
  obtain rfl := Option.some.inj hnew
  refine ⟨trivial, ?_⟩
  intro h₂ hadd
  obtain rfl := Option.some.inj hadd
  refine ⟨trivial, ?_⟩
  intro h₃ _
  refine ⟨?_, trivial⟩
  intro _ arr newVal rest func hstack hcls
  cases hstack
  exact absurd rfl hcls

/-- `__set__` gets a tuple without an edge to the object in it. -/
theorem not_edges_mirror : ¬ ∀ (h : EdgeHeap) (ops : List HeapOp), h.Fresh → h.Mirrors →
    Along (fun h op => HeapOp.step h op) (fun h op => op.Exists h) h ops →
      ∀ n h', runSteps (fun h op => HeapOp.step h op) h (ops.take n) = some h' → h'.Mirrors := by
  intro hall
  have hexists : Along (fun h op => HeapOp.step h op) (fun h op => op.Exists h) settableHeap
      (setOps 0 (.obj 1)) := by
    apply setOps_exists (by decide)
    intro o ho
    cases ho
    decide
  have hmirrors := hall _ _ settableHeap_fresh settableHeap_mirrors hexists 3 _ rfl 3 1
  exact absurd hmirrors (by decide)

end JeffVm
