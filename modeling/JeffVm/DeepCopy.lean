import JeffVm.Lib.MemoryGraph
import JeffVm.Machine
import JeffVm.Lib.Memo

/-!
# Copying objects

`entity_copy` with the copy functions of the classes. A copy is made and entered in the map before
what its object refers to is copied, so that a cycle finds it there half built. All heaps are one
`Store`: the objects of the heap that is copied from are its old ones.
-/

set_option autoImplicit false

namespace JeffVm

/-- The heap in the middle of a copy, with `copy_map`. -/
structure CopyState where
  store : Store
  copyMap : ObjectId → Option ObjectId

namespace Store

def tupleTable (s : Store) (o : ObjectId) : List Entity :=
  match s.internal o with
  | .tuple table => table
  | _ => []

/-- `tuple_set` -/
def tupleSet (s : Store) (tuple : ObjectId) (index : Nat) (child : Entity) : Option Store :=
  if index < (s.tupleTable tuple).length then
    some (s.setInternal tuple (.tuple ((s.tupleTable tuple).set index child)))
  else none

end Store

namespace CopyState

section

variable (copy : CopyState → Entity → Option (Entity × CopyState)) (target src : ObjectId)

/-- A loop that copies what `get` reads at `i`, and lets `put` store the copy, `n` times. -/
def copyEach (get : Store → Nat → Option Entity) (put : Store → Nat → Entity → Option Store) :
    Nat → Nat → CopyState → Option CopyState
  | 0, _, st => some st
  | n + 1, i, st =>
    match get st.store i with
    | none => none
    | some e =>
      match copy st e with
      | none => none
      | some (member, st) =>
        match put st.store i member with
        | none => none
        | some store => copyEach get put n (i + 1) { st with store := store }

def arrayCopy (st : CopyState) : Option CopyState :=
  match st.store.internal src with
  | .array table =>
    copyEach copy (fun s i => (s.arrayTable src)[i]?) (fun s _ e => some (s.arrayAdd target e))
      table.length 0 st
  | _ => none

/-- The slots of `tuple_create` are set in order, and none is read before. -/
def tupleCopy (st : CopyState) : Option CopyState :=
  match st.store.internal src with
  | .tuple table =>
    let created := st.store.setInternal target (.tuple (List.replicate table.length .none))
    copyEach copy (fun s i => (s.tupleTable src)[i]?) (fun s i e => s.tupleSet target i e)
      table.length 0 { st with store := created }
  | _ => none

def stringCopy (st : CopyState) : Option CopyState :=
  match st.store.internal src with
  | .string table => some { st with store := st.store.setInternal target (.string table) }
  | _ => none

def functionRefCopy (st : CopyState) : Option CopyState :=
  match st.store.internal src with
  | .functionRef obj func parentContext =>
    match copy st (.obj obj) with
    | some (.obj cpyObj, st) =>
      some { st with store := st.store.setInternal target (.functionRef cpyObj func parentContext) }
    | _ => none
  | _ => none

/-- `_copy_fn` of the class. -/
def copyFn (st : CopyState) : Option CopyState :=
  match st.store.cls src with
  | .Array => arrayCopy copy target src st
  | .Tuple => tupleCopy copy target src st
  | .String => stringCopy target src st
  | .FunctionRef => functionRefCopy copy target src st
  | _ => some st

/-- The loop over the members in `entity_copy`. -/
def copyMembers (st : CopyState) : Option CopyState :=
  copyEach copy (fun s i => (s.objects src).members.entries[i]?.map Prod.snd)
    (fun s i e => (s.objects src).members.entries[i]?.map fun member => s.setMember target member.1 e)
    (st.store.objects src).members.entries.length 0 st

end

/-- `entity_copy`; calls nest at most `n` deep. -/
def entityCopy : Nat → CopyState → Entity → Option (Entity × CopyState)
  | _, st, .none => some (.none, st)
  | _, st, .prim p => some (.prim p, st)
  | 0, _, .obj _ => none
  | n + 1, st, .obj o =>
    match st.copyMap o with
    | some cpy => some (.obj cpy, st)
    | none =>
      let (cpy, store) := st.store.heapNew (st.store.cls o)
      (copyFn (entityCopy n) cpy o ⟨store, Function.update st.copyMap o (some cpy)⟩).bind fun st =>
        (copyMembers (entityCopy n) cpy o st).map fun st => (.obj cpy, st)

end CopyState

/-! ## Isomorphic copies -/

def Entity.renamed (f : ObjectId → ObjectId) : Entity → Entity
  | .obj o => .obj (f o)
  | e => e

def Internal.renamed (f : ObjectId → ObjectId) : Internal → Internal
  | .array table => .array (table.map (Entity.renamed f))
  | .tuple table => .tuple (table.map (Entity.renamed f))
  | internal => internal

/-- The same class, the same members under the same names, the same elements and bytes, with every
reference taken through `f`. -/
def Object.renamed (f : ObjectId → ObjectId) (obj : Object) : Object where
  cls := obj.cls
  members := obj.members.map (fun member => (member.1, member.2.renamed f)) fun _ => rfl
  internal := obj.internal.renamed f

/-- The objects that `e` leads to, along members and elements. -/
def Store.objectGraph (s : Store) (e : Entity) : MGraph ObjectId where
  root o := o ∈ e.objects
  edges o o' := (s.contents o).count o'

def Store.Reaches (s : Store) (e : Entity) (o : ObjectId) : Prop := (s.objectGraph e).Reachable o

/-- Classes without `_init_fn` and `_copy_fn`, whose objects have members only. -/
def ClassId.isPlain : ClassId → Bool
  | .Object | .user _ => true
  | _ => false

/-- Plain objects, Arrays, Tuples and Strings. A call of the class `Tuple` or `String` gives an
object without data. -/
inductive Store.Copyable (s : Store) (o : ObjectId) : Prop where
  | plain : (s.cls o).isPlain = true → s.internal o = .none → s.Copyable o
  | array (table : List Entity) : s.cls o = .Array → s.internal o = .array table → s.Copyable o
  | tuple (table : List Entity) : s.cls o = .Tuple → s.internal o = .tuple table → s.Copyable o
  | string (table : List Char) : s.cls o = .String → s.internal o = .string table → s.Copyable o
  | noData : s.cls o = .Tuple ∨ s.cls o = .String → s.internal o = .none → s.Copyable o

def Store.HasData (s : Store) (o : ObjectId) : Prop :=
  s.cls o = .Tuple ∨ s.cls o = .String → s.internal o ≠ .none

/-- What `e` leads to are existing objects that can be copied. -/
structure Store.CopyableGraph (s : Store) (e : Entity) : Prop where
  exist : ∀ o, s.Reaches e o → o < s.nextObject
  copyable : ∀ o, s.Reaches e o → s.Copyable o

/-- `e'` in `s'` is `e` in `s` with new objects, one for each that `e` leads to. -/
structure IsomorphicCopy (s s' : Store) (e e' : Entity) (f : ObjectId → ObjectId) : Prop where
  root : e' = e.renamed f
  objects : ∀ o, s.Reaches e o → s'.objects (f o) = (s.objects o).renamed f
  sharing : ∀ o o', s.Reaches e o → s.Reaches e o' → (f o = f o' ↔ o = o')
  created : ∀ c, s.nextObject ≤ c ∧ c < s'.nextObject ↔ ∃ o, s.Reaches e o ∧ f o = c
  unchanged : ∀ o, o < s.nextObject → s'.objects o = s.objects o
  tables : s'.classes = s.classes ∧ s'.functions = s.functions ∧ s'.modules = s.modules ∧
    s'.builtin = s.builtin

/-- `entity_copy` with an empty map ends, and returns an isomorphic copy. -/
def CopiesDeeply (s : Store) (e : Entity) : Prop :=
  ∃ e' st f, (∃ n, ∀ m, n ≤ m → CopyState.entityCopy m ⟨s, fun _ => none⟩ e = some (e', st)) ∧
    IsomorphicCopy s st.store e e' f

end JeffVm
