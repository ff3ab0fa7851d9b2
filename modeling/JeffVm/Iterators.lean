import JeffVm.Destructuring
import JeffVm.Scope

/-!
# The iterators of the library

`iter` of arrays, tuples and maps, and the classes `IndexIterator` and `KVIterator` of the module
`builtin`. The state of an iteration is in fields of the iterator; the functions that read and
advance it are closures over the context of its constructor, and are found as fields too.
-/

set_option autoImplicit false

namespace JeffVm

namespace Iterators

/-- The objects and contexts of a process, with the number of the task of the next call. -/
structure Heap where
  store : Store
  contexts : Contexts
  nextTask : TaskId

/-- The functions of the library that take part in an iteration. -/
inductive Body where
  | arrayIter | tupleIter | mapIter
  | iteratorNew | indexIteratorNew | hasNext | next | kvIteratorNew | kvNext
  deriving DecidableEq

/-- The numbers of the classes and functions, and the names of the anonymous functions. -/
structure Library where
  indexIterator : Nat
  kvIterator : Nat
  map : Nat
  function : Body → FunctionId
  anonName : Body → String

/-! ## What the bodies do -/

namespace Heap

variable (h : Heap)

def lookup (c : ContextId) (id : String) : Entity × Heap :=
  let (member, store) := contextLookup h.store h.contexts c id
  (member.getD .none, { h with store := store })

def assign (c : ContextId) (id : String) (e : Entity) : Heap :=
  { h with store := contextSet h.store h.contexts c id e }

def declare (c : ContextId) (id : String) (e : Entity) : Heap :=
  { h with store := contextLet h.store h.contexts c id e }

def setField (o : ObjectId) (id : String) (e : Entity) : Heap :=
  { h with store := h.store.setMember o id e }

/-- `e.id`; `none` is an error. -/
def field (c : ContextId) (e : Entity) (id : String) : Option (Entity × Heap) :=
  match e with
  | .obj o =>
    let (e, store) := h.store.getMaybeWrap o id c
    some (e, { h with store := store })
  | _ => none

def new (cls : ClassId) : ObjectId × Heap :=
  let (o, store) := h.store.heapNew cls
  (o, { h with store := store })

def tuple (es : List Entity) : Entity × Heap :=
  let (o, store) := h.store.heapNewWith .Tuple (.tuple es)
  (.obj o, { h with store := store })

/-- The context of a call of `f`, with no variables yet. -/
def enter (f : FunctionId) (self : ObjectId) (previous : Option ContextId) :
    Option (ContextId × Heap) :=
  let (members, store) := h.store.heapNew .Object
  let fn := h.store.functions f
  (h.contexts.create ⟨h.nextTask, previous, members, self, fn.module, some f, fn.insPos, none, -1⟩).map
    fun (c, contexts) => (c, ⟨store, contexts, h.nextTask + 1⟩)

/-- `e is cls` -/
def isA (e : Entity) (cls : ClassId) : Bool :=
  match e with
  | .obj o => h.store.inheritsFrom (h.store.cls o) cls
  | _ => false

/-- `e.len()` of an array, a tuple or a string. The size becomes an int. -/
def len (e : Entity) : Option Entity :=
  match e with
  | .obj o =>
    match h.store.internal o with
    | .array table => some (.int (wrap32 table.length))
    | .tuple table => some (.int (wrap32 table.length))
    | .string table => some (.int (wrap32 table.length))
    | _ => none
  | _ => none

/-- `e[index]` of an array or a tuple; `none` is an error. -/
def elementOf (e index : Entity) : Option Entity :=
  (h.store.elements e).bind fun table => (indexOf index table.length).bind fun i => table[i]?

/-- `(id, …) = e`, from element `i` on. -/
def destructure (h : Heap) (c : ContextId) (e : Entity) : Nat → List String → Option Heap
  | _, [] => some h
  | i, id :: ids =>
    match h.elementOf e (.int i) with
    | none => none
    | some v => (h.assign c id v).destructure c e (i + 1) ids

/-- The fields that a constructor sets to None before its body. -/
def clearFields (h : Heap) (self : ObjectId) (ids : List String) : Heap :=
  ids.foldl (fun h id => h.setField self id .none) h

end Heap

/-- An operation on two values; `none` is an error. -/
def binary (op : Op) (e e' : Entity) : Option Entity :=
  match e, e' with
  | .prim p, .prim p' => primitiveResult op p p'
  | _, _ => none

/-! ## The bodies -/

/-- `m[k]` for a map: the method `[]` of the module `struct`. -/
abbrev MapIndex := Heap → ObjectId → Entity → Option (Entity × Heap)

section Bodies

variable (L : Library)

/-- `Iterator.new` -/
def iteratorNew (h : Heap) (self : ObjectId) (hasNext next : Entity) : Option Heap :=
  let (_, h) := h.tuple [hasNext, next]
  (h.enter (L.function .iteratorNew) self none).map fun (_, h) =>
    let h := h.clearFields self ["has_next", "next"]
    (h.setField self "has_next" hasNext).setField self "next" next

/-- The `if` of `IndexIterator.new`. -/
def setBounds (h : Heap) (c : ContextId) : Option Heap :=
  let (args, h) := h.lookup c "args"
  if h.isA args .Array || h.isA args .String then
    let h := h.assign c "indexable" args
    let h := h.assign c "start" (.int 0)
    (h.len args).map fun n => h.assign c "end" n
  else if h.isA args .Tuple then h.destructure c args 0 ["indexable", "start", "end"]
  else none

/-- `IndexIterator.new`; the arguments of `super(Iterator)` are evaluated from the last. -/
def indexIteratorNew (h : Heap) (self : ObjectId) (args : Entity) : Option Heap := do
  let (c, h) ← h.enter (L.function .indexIteratorNew) self none
  let h := h.clearFields self ["indexable", "start", "end", "i", "index"]
  let h := h.declare c "args" args
  let h ← setBounds h c
  let h := h.assign c "i" (.int (-1))
  let (start, h) := h.lookup c "start"
  let index ← binary .SUB start (.int 1)
  let h := h.assign c "index" index
  let (next, h) := h.lookup c (L.anonName .next)
  let (hasNext, h) := h.lookup c (L.anonName .hasNext)
  iteratorNew L h self hasNext next

/-- `() -> index < (end - 1)` -/
def hasNextBody (h : Heap) (c : ContextId) : Option (Entity × Heap) := do
  let (index, h) := h.lookup c "index"
  let (last, h) := h.lookup c "end"
  let last ← binary .SUB last (.int 1)
  let e ← binary .LT index last
  some (e, h)

/-- The function that advances an `IndexIterator`. -/
def nextBody (h : Heap) (c : ContextId) : Option (Entity × Heap) := do
  let (i, h) := h.lookup c "i"
  let i ← binary .ADD i (.int 1)
  let h := h.assign c "i" i
  let (index, h) := h.lookup c "index"
  let index ← binary .ADD index (.int 1)
  let h := h.assign c "index" index
  let (indexable, h) := h.lookup c "indexable"
  let (index, h) := h.lookup c "index"
  let e ← h.elementOf indexable index
  let (i, h) := h.lookup c "i"
  some (h.tuple [i, e])

/-- A call of a function reference whose function has one of the bodies. -/
def call (bodies : FunctionId → Option (Heap → ContextId → Option (Entity × Heap))) (h : Heap)
    (e : Entity) : Option (Entity × Heap) :=
  match e with
  | .obj r =>
    match h.store.cls r, h.store.internal r with
    | .FunctionRef, .functionRef self f parentContext => do
      let body ← bodies f
      let previous := if (h.store.functions f).isAnon then parentContext else none
      let (c, h) ← h.enter f self previous
      body h c
    | _, _ => none
  | _ => none

/-- The closures of an `IndexIterator`. -/
def indexBodies (f : FunctionId) : Option (Heap → ContextId → Option (Entity × Heap)) :=
  if f = L.function .hasNext then some hasNextBody
  else if f = L.function .next then some nextBody
  else none

/-- `KVIterator.new` -/
def kvIteratorNew (h : Heap) (self : ObjectId) (keyIter container : Entity) : Option Heap := do
  let (c, h) ← h.enter (L.function .kvIteratorNew) self none
  let h := h.clearFields self ["key_iter", "container"]
  let h := (h.setField self "key_iter" keyIter).setField self "container" container
  let (next, h) := h.lookup c (L.anonName .kvNext)
  let (keyIter, h) := h.lookup c "key_iter"
  let (hasNext, h) ← h.field c keyIter "has_next"
  iteratorNew L h self hasNext next

/-- The function that advances a `KVIterator`. Its `key_iter` is an iterator over an array. -/
def kvNextBody (mapIndex : MapIndex) (h : Heap) (c : ContextId) : Option (Entity × Heap) := do
  let (keyIter, h) := h.lookup c "key_iter"
  let (next, h) ← h.field c keyIter "next"
  let (pair, h) ← call (indexBodies L) h next
  let k ← h.elementOf pair (.int 1)
  let h := h.assign c "k" k
  let (container, h) := h.lookup c "container"
  let (k, h) := h.lookup c "k"
  match container with
  | .obj m =>
    let (v, h) ← mapIndex h m k
    let (k, h) := h.lookup c "k"
    some (h.tuple [k, v])
  | _ => none

/-- All closures of the two classes. -/
def bodies (mapIndex : MapIndex) (f : FunctionId) :
    Option (Heap → ContextId → Option (Entity × Heap)) :=
  if f = L.function .kvNext then some (kvNextBody L mapIndex) else indexBodies L f

/-- `IndexIterator(args)` -/
def newIndexIterator (h : Heap) (args : Entity) : Option (ObjectId × Heap) :=
  let (it, h) := h.new (.user L.indexIterator)
  (indexIteratorNew L h it args).map fun h => (it, h)

/-- `Array.iter` -/
def arrayIter (h : Heap) (self : ObjectId) : Option (ObjectId × Heap) := do
  let (_, h) ← h.enter (L.function .arrayIter) self none
  newIndexIterator L h (.obj self)

/-- `Tuple.iter` -/
def tupleIter (h : Heap) (self : ObjectId) : Option (ObjectId × Heap) := do
  let (_, h) ← h.enter (L.function .tupleIter) self none
  let n ← h.len (.obj self)
  let (args, h) := h.tuple [.obj self, .int 0, n]
  newIndexIterator L h args

/-- `Map.iter` -/
def mapIter (h : Heap) (self : ObjectId) : Option (ObjectId × Heap) := do
  let (c, h) ← h.enter (L.function .mapIter) self none
  let (keys, h) := h.lookup c "keys"
  match keys with
  | .obj keys =>
    if h.store.cls keys = .Array then
      let (keyIter, h) ← arrayIter L h keys
      let (_, h) := h.tuple [.obj keyIter, .obj self]
      let (it, h) := h.new (.user L.kvIterator)
      (kvIteratorNew L h it (.obj keyIter) (.obj self)).map fun h => (it, h)
    else none
  | _ => none

/-- `x.iter()` -/
def iter (h : Heap) (x : ObjectId) : Option (ObjectId × Heap) :=
  match h.store.cls x with
  | .Array => arrayIter L h x
  | .Tuple => tupleIter L h x
  | cls => if cls = .user L.map then mapIter L h x else none

/-- `it.has_next()` or `it.next()`, called in context `caller`. -/
def callField (mapIndex : MapIndex) (h : Heap) (caller : ContextId) (it : ObjectId)
    (id : String) : Option (Entity × Heap) := do
  let (f, h) ← h.field caller (.obj it) id
  call (bodies L mapIndex) h f

def hasNext (mapIndex : MapIndex) (h : Heap) (caller : ContextId) (it : ObjectId) :
    Option (Entity × Heap) :=
  callField L mapIndex h caller it "has_next"

def next (mapIndex : MapIndex) (h : Heap) (caller : ContextId) (it : ObjectId) :
    Option (Entity × Heap) :=
  callField L mapIndex h caller it "next"

end Bodies

/-! ## Names in the code of an iterator -/

/-- In context `c` a name that is not among `vars` stands for a field of `it`. -/
structure Inside (h : Heap) (c : ContextId) (it : ObjectId) (vars : List String) : Prop where
  self : (h.contexts.context c).self = it
  unbound : ∀ p ∈ h.contexts.chain c, ∀ id ∉ vars,
    h.store.get (h.contexts.context p).memberObj id = none
  apart : ∀ p ∈ h.contexts.chain c, (h.contexts.context p).memberObj ≠ it

section Names

variable {h : Heap} {c : ContextId} {it : ObjectId} {vars : List String} {id : String}
variable {e : Entity}

theorem get_setMember_update (s : Store) (o : ObjectId) (id : String) (e : Entity) :
    (s.setMember o id e).get o = Function.update (s.get o) id (some e) := by
  funext id'
  by_cases hid : id' = id
  · rw [hid, Store.get_setMember_self, Function.update_self]
  · rw [get_setMember_other s o o e hid, Function.update_of_ne hid]

theorem Inside.own (hin : Inside h c it vars) (hid : id ∉ vars) :
    h.store.get (h.contexts.context c).memberObj id = none := by
  apply hin.unbound c _ id hid
  rw [Contexts.chain_eq]
  exact List.mem_cons_self

theorem Inside.enclosing (hin : Inside h c it vars) (hid : id ∉ vars) :
    ∀ p ∈ h.contexts.chain? (h.contexts.context c).previous,
      h.store.get (h.contexts.context p).memberObj id = none := by
  intro p hp
  apply hin.unbound p _ id hid
  rw [Contexts.chain_eq]
  exact List.mem_cons_of_mem c hp

theorem Inside.not_enclosing (hin : Inside h c it vars) (hid : id ∉ vars) :
    (h.contexts.chain? (h.contexts.context c).previous).find?
      (fun p => (h.store.get (h.contexts.context p).memberObj id).isSome) = none := by
  apply List.find?_eq_none.mpr
  intro p hp
  rw [hin.enclosing hid p hp]
  exact Bool.false_ne_true

theorem Inside.lookup (hin : Inside h c it vars) (hid : id ∉ vars) (hself : id ≠ "self")
    (hget : h.store.get it id = some e) (hplain : h.store.anonFunction e = none) :
    h.lookup c id = (e, h) := by
  have henclosing := List.findSome?_eq_none_iff.mpr (hin.enclosing hid)
  rw [Heap.lookup, contextLookup, if_neg hself]
  simp only [hin.own hid, henclosing, hin.self, hget, hplain, Option.getD_some]

/-- A name that is a method of the class: here an anonymous function, which is wrapped. -/
theorem Inside.lookup_method (hin : Inside h c it vars) (hid : id ∉ vars) (hself : id ≠ "self")
    (hget : h.store.get it id = none) {f : FunctionId}
    (hmethod : h.store.classGetFunction (h.store.cls it) id = some f) :
    h.lookup c id = (.obj h.store.nextObject,
      Heap.setField { h with store := (h.store.wrapFunctionInRef f it c).2 } it id
        (.obj h.store.nextObject)) := by
  have henclosing := List.findSome?_eq_none_iff.mpr (hin.enclosing hid)
  rw [Heap.lookup, contextLookup, if_neg hself]
  simp only [hin.own hid, henclosing, hin.self, hget, hmethod, Option.getD_some]
  rfl

theorem Inside.assign (hin : Inside h c it vars) (hid : id ∉ vars)
    (hhas : (h.store.get it id).isSome) : h.assign c id e = h.setField it id e := by
  rw [Heap.assign, contextSet, hin.own hid]
  simp only [Option.isSome_none, Bool.false_eq_true, if_false, hin.not_enclosing hid, hin.self,
    if_pos hhas]
  rfl

/-- A name that nothing has becomes a variable of the context. -/
theorem Inside.assign_new (hin : Inside h c it vars) (hid : id ∉ vars)
    (hget : h.store.get it id = none) : h.assign c id e = h.declare c id e := by
  rw [Heap.assign, contextSet, hin.own hid]
  simp only [Option.isSome_none, Bool.false_eq_true, if_false, hin.not_enclosing hid, hin.self,
    hget]
  rfl

theorem lookup_variable (hself : id ≠ "self")
    (hget : h.store.get (h.contexts.context c).memberObj id = some e) :
    h.lookup c id = (e, h) := by
  rw [Heap.lookup, contextLookup, if_neg hself]
  simp only [hget, Option.getD_some]

theorem Inside.setField (hin : Inside h c it vars) (id : String) (e : Entity) :
    Inside (h.setField it id e) c it vars where
  self := hin.self
  unbound := by
    intro p hp id' hid'
    rw [Heap.setField, Store.get_setMember_ne _ _ _ _ (hin.apart p hp)]
    exact hin.unbound p hp id' hid'
  apart := hin.apart

theorem Inside.declare (hin : Inside h c it vars) (id : String) (e : Entity) :
    Inside (h.declare c id e) c it (id :: vars) where
  self := hin.self
  unbound := by
    intro p hp id' hid'
    obtain ⟨hne, hid'⟩ := not_or.mp (mt List.mem_cons.mpr hid')
    rw [Heap.declare, contextLet, get_setMember_other _ _ _ _ hne]
    exact hin.unbound p hp id' hid'
  apart := hin.apart

end Names

end Iterators

end JeffVm
