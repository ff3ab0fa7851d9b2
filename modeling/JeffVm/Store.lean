import JeffVm.Entity
import JeffVm.Lib.KeyedList

/-!
# Objects, classes and modules

The heap of one process with the tables of classes, functions and modules that its objects
point to. Pointers are positions in these tables; an interned string is its text.
-/

set_option autoImplicit false

namespace JeffVm

/-- The classes that the VM compares pointers with, and all others. -/
inductive ClassId where
  | Object | Class | Function | FunctionRef | Module | Array | String | Tuple
  | Error | StackLine | Future
  | user (n : Nat)
  deriving DecidableEq, Repr

structure Future where
  task : Option TaskId
  isComplete : Bool
  isResultSet : Bool
  deriving DecidableEq, Repr

/-- The union at the end of an object. -/
inductive Internal where
  | none
  | classObj (cls : ClassId)
  | moduleObj (module : ModuleId)
  | functionObj (func : FunctionId)
  | functionRef (obj : ObjectId) (func : FunctionId) (parentContext : Option ContextId)
  | array (table : List Entity)
  | tuple (table : List Entity)
  | string (table : List Char)
  | future (future : Future)
  | stackLine (module : ModuleId) (func : Option FunctionId) (ins : Int)
  deriving DecidableEq, Repr

def Entity.objects : Entity → List ObjectId
  | .obj o => [o]
  | _ => []

def Internal.elements : Internal → List Entity
  | .array table => table
  | .tuple table => table
  | _ => []

abbrev Members := KeyedList (Prod.fst : String × Entity → String)

structure Object where
  cls : ClassId
  members : Members
  internal : Internal
  deriving DecidableEq

structure Function where
  name : String
  module : ModuleId
  isNative : Bool
  isAnon : Bool
  isAsync : Bool
  isBackground : Bool
  insPos : Int
  reflection : ObjectId

/-- `supers` is the chain of `_super` pointers, nearest first. -/
structure Class where
  name : String
  supers : List ClassId
  functions : KeyedList (Prod.fst : String × FunctionId → String)
  reflection : ObjectId

structure Module where
  name : String
  tape : List Instruction
  classes : KeyedList (Prod.fst : String × ClassId → String)
  functions : KeyedList (Prod.fst : String × FunctionId → String)
  reflection : ObjectId
  isInitialized : Bool

structure Store where
  objects : ObjectId → Object
  nextObject : ObjectId
  classes : ClassId → Class
  functions : FunctionId → Function
  modules : ModuleId → Module
  builtin : ModuleId

/-- `_init_fn` of the class. -/
def ClassId.init : ClassId → Internal
  | .Array => .array []
  | .Future => .future ⟨none, false, false⟩
  | _ => .none

namespace Store

def cls (s : Store) (o : ObjectId) : ClassId := (s.objects o).cls

def internal (s : Store) (o : ObjectId) : Internal := (s.objects o).internal

/-- `object_get` -/
def get (s : Store) (o : ObjectId) (field : String) : Option Entity :=
  ((s.objects o).members.lookup field).map Prod.snd

/-- The objects in the members and the elements of `o`. -/
def contents (s : Store) (o : ObjectId) : List ObjectId :=
  (s.objects o).members.entries.flatMap (fun member => member.2.objects) ++
    (s.internal o).elements.flatMap Entity.objects

def modify (s : Store) (o : ObjectId) (f : Object → Object) : Store :=
  { s with objects := Function.update s.objects o (f (s.objects o)) }

/-- `object_set_member` -/
def setMember (s : Store) (o : ObjectId) (key : String) (child : Entity) : Store :=
  s.modify o (fun obj => { obj with members := obj.members.insert (key, child) })

def setInternal (s : Store) (o : ObjectId) (internal : Internal) : Store :=
  s.modify o (fun obj => { obj with internal := internal })

/-- `heap_new` -/
def heapNew (s : Store) (cls : ClassId) : ObjectId × Store :=
  (s.nextObject,
    { s with
      objects := Function.update s.objects s.nextObject ⟨cls, .empty, cls.init⟩
      nextObject := s.nextObject + 1 })

/-- A new object whose internal data is set right after its creation. -/
def heapNewWith (s : Store) (cls : ClassId) (internal : Internal) : ObjectId × Store :=
  let (o, s) := s.heapNew cls
  (o, s.setInternal o internal)

def stringNew (s : Store) (src : List Char) : ObjectId × Store :=
  s.heapNewWith .String (.string src)

def classGetFunction (s : Store) (cls : ClassId) (name : String) : Option FunctionId :=
  (cls :: (s.classes cls).supers).findSome? fun c =>
    ((s.classes c).functions.lookup name).map Prod.snd

def inheritsFrom (s : Store) (cls possibleSuper : ClassId) : Bool :=
  decide (possibleSuper ∈ cls :: (s.classes cls).supers)

def moduleLookup (s : Store) (m : ModuleId) (name : String) : Option ObjectId :=
  match (s.modules m).classes.lookup name with
  | some (_, c) => some (s.classes c).reflection
  | none =>
    match (s.modules m).functions.lookup name with
    | some (_, f) => some (s.functions f).reflection
    | none => none

/-- The function that an entity reflects, if it reflects one. -/
def functionOf (s : Store) (e : Entity) : Option FunctionId :=
  match e with
  | .obj o =>
    match s.internal o with
    | .functionObj f => if s.cls o = .Function then some f else none
    | _ => none
  | _ => none

def anonFunction (s : Store) (e : Entity) : Option FunctionId :=
  (s.functionOf e).filter fun f => (s.functions f).isAnon

/-- `wrap_function_in_ref` in context `c`. -/
def wrapFunctionInRef (s : Store) (f : FunctionId) (obj : ObjectId) (c : ContextId) :
    ObjectId × Store :=
  s.heapNewWith .FunctionRef
    (.functionRef obj f (if (s.functions f).isAnon then some c else none))

/-- `class_get_function_ref`: every round of its loop looks at the same class. -/
def classGetFunctionRef (s : Store) (cls : ClassId) (name : String) : Option ObjectId :=
  match s.get (s.classes cls).reflection name with
  | some (.obj o) => if s.cls o = .FunctionRef then some o else none
  | _ => none

/-- `object_get_maybe_wrap` -/
def getMaybeWrap (s : Store) (o : ObjectId) (field : String) (c : ContextId) : Entity × Store :=
  let member := if s.cls o = .Class then none else s.get o field
  let found : Option Entity :=
    match member with
    | some e => some e
    | none => (s.classGetFunction (s.cls o) field).map fun f => .obj (s.functions f).reflection
  match found with
  | some e =>
    match s.functionOf e with
    | some f =>
      let (r, s) := s.wrapFunctionInRef f o c
      (.obj r, s)
    | none => (e, s)
  | none =>
    match s.classGetFunctionRef (s.cls o) field with
    | some r => (.obj r, s)
    | none => (.none, s)

@[simp] theorem modify_objects_self (s : Store) (o : ObjectId) (f : Object → Object) :
    (s.modify o f).objects o = f (s.objects o) := by
  simp [modify]

@[simp] theorem modify_objects_ne (s : Store) {o o' : ObjectId} (f : Object → Object) (h : o' ≠ o) :
    (s.modify o f).objects o' = s.objects o' := by
  simp [modify, h]

theorem get_setMember_self (s : Store) (o : ObjectId) (key : String) (e : Entity) :
    (s.setMember o key e).get o key = some e := by
  have h := KeyedList.lookup_insert_self (s.objects o).members (key, e)
  simp only [get, setMember, modify_objects_self]
  rw [h]
  rfl

theorem get_setMember_ne (s : Store) {o o' : ObjectId} (key key' : String) (e : Entity)
    (h : o' ≠ o) : (s.setMember o key e).get o' key' = s.get o' key' := by
  simp [get, setMember, h]

theorem internal_setMember (s : Store) (o o' : ObjectId) (key : String) (e : Entity) :
    (s.setMember o key e).internal o' = s.internal o' := by
  by_cases h : o' = o
  · subst h
    simp [internal, setMember]
  · simp [internal, setMember, h]

theorem cls_setMember (s : Store) (o o' : ObjectId) (key : String) (e : Entity) :
    (s.setMember o key e).cls o' = s.cls o' := by
  by_cases h : o' = o
  · subst h
    simp [cls, setMember]
  · simp [cls, setMember, h]

@[simp] theorem heapNewWith_fst (s : Store) (cls : ClassId) (internal : Internal) :
    (s.heapNewWith cls internal).1 = s.nextObject := rfl

theorem internal_heapNewWith (s : Store) (cls : ClassId) (i : Internal) :
    (s.heapNewWith cls i).2.internal s.nextObject = i := by
  simp [heapNewWith, heapNew, internal, setInternal]

theorem cls_heapNewWith (s : Store) (cls : ClassId) (i : Internal) :
    (s.heapNewWith cls i).2.cls s.nextObject = cls := by
  simp [heapNewWith, heapNew, Store.cls, setInternal]

theorem objects_heapNewWith_ne (s : Store) (cls : ClassId) (i : Internal) {o : ObjectId}
    (h : o ≠ s.nextObject) : (s.heapNewWith cls i).2.objects o = s.objects o := by
  simp [heapNewWith, heapNew, setInternal, h]

end Store

end JeffVm
