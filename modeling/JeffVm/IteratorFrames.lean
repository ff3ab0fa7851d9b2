import JeffVm.Iterators

/-!
# Code that leaves iterators alone

A step of the process changes no container and no iterator but those it is for. The contexts that
the constructors of the iterators have left behind, and the closures over them, stay as they are.
-/

set_option autoImplicit false

namespace JeffVm

namespace Iterators

/-- The classes and functions of the library are as `builtin.jv` and `struct.jv` define them. -/
structure Loaded (L : Library) (s : Store) : Prop where
  closures : ∀ b, b = .hasNext ∨ b = .next ∨ b = .kvNext → (s.functions (L.function b)).isAnon
  hasNext : s.classGetFunction (.user L.indexIterator) (L.anonName .hasNext) =
    some (L.function .hasNext)
  next : s.classGetFunction (.user L.indexIterator) (L.anonName .next) = some (L.function .next)
  kvNext : s.classGetFunction (.user L.kvIterator) (L.anonName .kvNext) =
    some (L.function .kvNext)
  tuples : ClassId.Array ∉ (s.classes .Tuple).supers ∧ ClassId.String ∉ (s.classes .Tuple).supers

/-- Names and numbers that are different in the library. -/
structure Library.Proper (L : Library) : Prop where
  anon : ∀ b, isAnonName (L.anonName b)
  names : L.anonName .hasNext ≠ L.anonName .next
  functions : Function.Injective L.function
  iterators : L.indexIterator ≠ L.kvIterator
  map : L.map ≠ L.indexIterator ∧ L.map ≠ L.kvIterator

def Library.IsIterator (L : Library) (cls : ClassId) : Prop :=
  cls = .user L.indexIterator ∨ cls = .user L.kvIterator

/-! ## The objects of the iterators -/

/-- An object that only the code of the iterators writes: an iterator, or the variables of a
context whose `self` is one. -/
def Reserved (L : Library) (h : Heap) (o : ObjectId) : Prop :=
  o < h.store.nextObject ∧ (L.IsIterator (h.store.cls o) ∨
    h.store.cls o = .Object ∧ ∃ c < h.contexts.next, (h.contexts.context c).memberObj = o ∧
      (h.contexts.context c).self < h.store.nextObject ∧
      L.IsIterator (h.store.cls (h.contexts.context c).self))

/-- Between the heaps only members of the iterators' objects have changed. -/
structure Quiet (L : Library) (h h' : Heap) : Prop where
  nextObject : h.store.nextObject ≤ h'.store.nextObject
  nextContext : h.contexts.next ≤ h'.contexts.next
  cls : ∀ o < h.store.nextObject, h'.store.cls o = h.store.cls o
  internal : ∀ o < h.store.nextObject, h'.store.internal o = h.store.internal o
  objects : ∀ o < h.store.nextObject, ¬ Reserved L h o →
    h'.store.objects o = h.store.objects o
  contexts : ∀ c < h.contexts.next, h'.contexts.context c = h.contexts.context c
  classes : h'.store.classes = h.store.classes
  functions : h'.store.functions = h.store.functions
  modules : h'.store.modules = h.store.modules
  builtin : h'.store.builtin = h.store.builtin

/-- What the values of a map rest on: a property of the heap that the code of the iterators
keeps. -/
structure Support (L : Library) where
  holds : Heap → Prop
  kept : ∀ h h', Quiet L h h' → holds h → holds h'

/-! ## Containers -/

/-- What a container holds: the elements of an array or a tuple, or the array of the keys of a
map with its elements, and what the values rest on. -/
inductive Contents (L : Library) where
  | indexed (table : List Entity)
  | keyed (keys : ObjectId) (table : List Entity) (support : Support L)

def Contents.table {L : Library} : Contents L → List Entity
  | indexed table => table
  | keyed _ table _ => table

/-- The object holds these elements. -/
structure IsTable (h : Heap) (o : ObjectId) (table : List Entity) : Prop where
  bound : o < h.store.nextObject
  kind : h.store.cls o = .Array ∧ h.store.internal o = .array table ∨
    h.store.cls o = .Tuple ∧ h.store.internal o = .tuple table

inductive Holds (L : Library) (h : Heap) (x : ObjectId) : Contents L → Prop where
  | indexed {table : List Entity} (htable : IsTable h x table) : Holds L h x (.indexed table)
  | keyed {keys : ObjectId} {table : List Entity} {support : Support L}
      (hbound : x < h.store.nextObject) (hcls : h.store.cls x = .user L.map)
      (hkeys : h.store.get x "keys" = some (.obj keys)) (harray : h.store.cls keys = .Array)
      (htable : IsTable h keys table) (hsupport : support.holds h) :
      Holds L h x (.keyed keys table support)

/-! ## Code that leaves the iterators alone -/

/-- The code between two heaps changes neither a container nor an iterator, apart from `p`. -/
structure Leaves (L : Library) (xs : ObjectId → Option (Contents L)) (p : ObjectId → Prop)
    (h h' : Heap) : Prop where
  nextObject : h.store.nextObject ≤ h'.store.nextObject
  nextContext : h.contexts.next ≤ h'.contexts.next
  cls : ∀ o < h.store.nextObject, h'.store.cls o = h.store.cls o
  reference : ∀ o < h.store.nextObject, h.store.cls o = .FunctionRef →
    h'.store.internal o = h.store.internal o
  scope : ∀ c < h.contexts.next, (h'.contexts.context c).previous = (h.contexts.context c).previous ∧
    (h'.contexts.context c).memberObj = (h.contexts.context c).memberObj ∧
    (h'.contexts.context c).self = (h.contexts.context c).self
  reserved : ∀ o, Reserved L h o → ¬ p o → h'.store.objects o = h.store.objects o
  contents : ∀ x given, xs x = some given → Holds L h x given → Holds L h' x given
  loaded : Loaded L h.store → Loaded L h'.store

section Leaving

variable {L : Library} {xs : ObjectId → Option (Contents L)} {p q : ObjectId → Prop}
variable {h h' h'' : Heap} {o it : ObjectId} {c : ContextId}

theorem Loaded.congr {s s' : Store} (h : Loaded L s) (hclasses : s'.classes = s.classes)
    (hfunctions : s'.functions = s.functions) : Loaded L s' := by
  have hget : ∀ cls name, s'.classGetFunction cls name = s.classGetFunction cls name := by
    intro cls name
    rw [Store.classGetFunction, Store.classGetFunction, hclasses]
  constructor
  · rw [hfunctions]
    exact h.closures
  · rw [hget]
    exact h.hasNext
  · rw [hget]
    exact h.next
  · rw [hget]
    exact h.kvNext
  · rw [hclasses]
    exact h.tuples

theorem Leaves.refl (h : Heap) : Leaves L xs p h h where
  nextObject := Nat.le_refl _
  nextContext := Nat.le_refl _
  cls := fun _ _ => rfl
  reference := fun _ _ _ => rfl
  scope := fun _ _ => ⟨rfl, rfl, rfl⟩
  reserved := fun _ _ _ => rfl
  contents := fun _ _ _ hholds => hholds
  loaded := id

theorem Leaves.mono (hl : Leaves L xs p h h') (hpq : ∀ o, p o → q o) : Leaves L xs q h h' :=
  { hl with reserved := fun o ho hq => hl.reserved o ho fun hp => hq (hpq o hp) }

theorem Leaves.reserved_mono (hl : Leaves L xs p h h') (ho : Reserved L h o) :
    Reserved L h' o := by
  obtain ⟨hlt, hcase⟩ := ho
  refine ⟨Nat.lt_of_lt_of_le hlt hl.nextObject, ?_⟩
  rw [hl.cls o hlt]
  cases hcase with
  | inl hiter => exact .inl hiter
  | inr hcase =>
    obtain ⟨hcls, c, hc, hmembers, hself, hiter⟩ := hcase
    obtain ⟨-, hmembers', hself'⟩ := hl.scope c hc
    refine .inr ⟨hcls, c, Nat.lt_of_lt_of_le hc hl.nextContext, hmembers'.trans hmembers, ?_, ?_⟩
    · rw [hself']
      exact Nat.lt_of_lt_of_le hself hl.nextObject
    · rw [hself', hl.cls _ hself]
      exact hiter

theorem Leaves.trans (hl : Leaves L xs p h h') (hl' : Leaves L xs p h' h'') :
    Leaves L xs p h h'' where
  nextObject := Nat.le_trans hl.nextObject hl'.nextObject
  nextContext := Nat.le_trans hl.nextContext hl'.nextContext
  cls := by
    intro o ho
    rw [hl'.cls o (Nat.lt_of_lt_of_le ho hl.nextObject), hl.cls o ho]
  reference := by
    intro o ho hcls
    rw [hl'.reference o (Nat.lt_of_lt_of_le ho hl.nextObject) ((hl.cls o ho).trans hcls),
      hl.reference o ho hcls]
  scope := by
    intro c hc
    obtain ⟨hprevious, hmembers, hself⟩ := hl.scope c hc
    obtain ⟨hprevious', hmembers', hself'⟩ := hl'.scope c (Nat.lt_of_lt_of_le hc hl.nextContext)
    exact ⟨hprevious'.trans hprevious, hmembers'.trans hmembers, hself'.trans hself⟩
  reserved := by
    intro o ho hp
    rw [hl'.reserved o (hl.reserved_mono ho) hp, hl.reserved o ho hp]
  contents := fun x given hx hholds => hl'.contents x given hx (hl.contents x given hx hholds)
  loaded := fun hloaded => hl'.loaded (hl.loaded hloaded)

/-- What is new is not among what was there. -/
theorem Leaves.old (hl : Leaves L xs (fun o => p o ∨ h.store.nextObject ≤ o) h h') :
    Leaves L xs p h h' :=
  { hl with
    reserved := by
      intro o ho hp
      apply hl.reserved o ho
      intro hcase
      cases hcase with
      | inl hcase => exact hp hcase
      | inr hcase => exact absurd ho.1 (Nat.not_lt.mpr hcase) }

theorem IsTable.congr {table : List Entity} (ht : IsTable h o table)
    (hle : h.store.nextObject ≤ h'.store.nextObject)
    (hcls : h'.store.cls o = h.store.cls o) (hinternal : h'.store.internal o = h.store.internal o) :
    IsTable h' o table where
  bound := Nat.lt_of_lt_of_le ht.bound hle
  kind := by
    rw [hcls, hinternal]
    exact ht.kind

theorem Quiet.leaves (hq : Quiet L h h')
    (hmap : ∀ o < h.store.nextObject, h.store.cls o = .user L.map →
      h'.store.objects o = h.store.objects o)
    (hp : ∀ o, Reserved L h o → ¬ p o → h'.store.objects o = h.store.objects o) :
    Leaves L xs p h h' where
  nextObject := hq.nextObject
  nextContext := hq.nextContext
  cls := hq.cls
  reference := fun o ho _ => hq.internal o ho
  scope := by
    intro c hc
    rw [hq.contexts c hc]
    exact ⟨rfl, rfl, rfl⟩
  reserved := hp
  contents := by
    have htable : ∀ o table, IsTable h o table → IsTable h' o table := fun o table ht =>
      ht.congr hq.nextObject (hq.cls o ht.bound) (hq.internal o ht.bound)
    intro x given _ hholds
    cases hholds with
    | indexed ht => exact .indexed (htable x _ ht)
    | @keyed keys table support hbound hcls hkeys harray ht hsupport =>
      refine .keyed (Nat.lt_of_lt_of_le hbound hq.nextObject) ?_ ?_ ?_ (htable _ _ ht)
        (support.kept h h' hq hsupport)
      · exact (hq.cls x hbound).trans hcls
      · rw [Store.get, hmap x hbound hcls]
        exact hkeys
      · exact (hq.cls _ ht.bound).trans harray
  loaded := fun hloaded => hloaded.congr hq.classes hq.functions

/-- A step after which the objects that were there are the same. -/
theorem leaves_of_objects (hobject : h.store.nextObject ≤ h'.store.nextObject)
    (hcontext : h.contexts.next ≤ h'.contexts.next)
    (hobjects : ∀ o < h.store.nextObject, h'.store.objects o = h.store.objects o)
    (hscope : ∀ c < h.contexts.next, h'.contexts.context c = h.contexts.context c)
    (hstore : h'.store = { h.store with
      objects := h'.store.objects, nextObject := h'.store.nextObject }) :
    Leaves L xs p h h' := by
  have hquiet : Quiet L h h' :=
    { nextObject := hobject
      nextContext := hcontext
      cls := fun o ho => congrArg Object.cls (hobjects o ho)
      internal := fun o ho => congrArg Object.internal (hobjects o ho)
      objects := fun o ho _ => hobjects o ho
      contexts := hscope
      classes := by rw [hstore]
      functions := by rw [hstore]
      modules := by rw [hstore]
      builtin := by rw [hstore] }
  exact hquiet.leaves (fun o ho _ => hobjects o ho) fun o ho _ => hobjects o ho.1

/-- A write to an object of the iterators that is no map. -/
theorem leaves_setField (hp : p o) (hreserved : Reserved L h o)
    (hcls : h.store.cls o ≠ .user L.map) (id : String) (e : Entity) :
    Leaves L xs p h (h.setField o id e) := by
  have hother : ∀ o', o' ≠ o → (h.setField o id e).store.objects o' = h.store.objects o' := by
    intro o' hne
    rw [Heap.setField, Store.setMember, Store.modify_objects_ne _ _ hne]
  have hquiet : Quiet L h (h.setField o id e) :=
    { nextObject := Nat.le_refl _
      nextContext := Nat.le_refl _
      cls := fun o' _ => Store.cls_setMember h.store o o' id e
      internal := fun o' _ => Store.internal_setMember h.store o o' id e
      objects := by
        intro o' _ hfree
        apply hother
        rintro rfl
        exact hfree hreserved
      contexts := fun _ _ => rfl
      classes := rfl
      functions := rfl
      modules := rfl
      builtin := rfl }
  apply hquiet.leaves
  · intro o' _ hmap
    apply hother
    rintro rfl
    exact hcls hmap
  · intro o' _ hp'
    apply hother
    rintro rfl
    exact hp' hp

theorem leaves_heapNewWith (h : Heap) (cls : ClassId) (internal : Internal) :
    Leaves L xs p h { h with store := (h.store.heapNewWith cls internal).2 } :=
  leaves_of_objects (Nat.le_succ _) (Nat.le_refl _)
    (fun _ ho => Store.objects_heapNewWith_ne h.store cls internal (Nat.ne_of_lt ho))
    (fun _ _ => rfl) rfl

theorem leaves_new (h : Heap) (cls : ClassId) : Leaves L xs p h (h.new cls).2 :=
  leaves_of_objects (Nat.le_succ _) (Nat.le_refl _)
    (fun _ ho => Function.update_of_ne (Nat.ne_of_lt ho) _ _) (fun _ _ => rfl) rfl

theorem leaves_tuple (h : Heap) (es : List Entity) : Leaves L xs p h (h.tuple es).2 :=
  leaves_heapNewWith h .Tuple (.tuple es)

theorem create_exists (cs : Contexts) (ctx : Context)
    (hprevious : ∀ d, ctx.previous = some d → d < cs.next) :
    ∃ cs', cs.create ctx = some (cs.next, cs') ∧ cs'.next = cs.next + 1 ∧
      cs'.context cs.next = ctx ∧ ∀ d < cs.next, cs'.context d = cs.context d := by
  unfold Contexts.create
  rw [dif_pos hprevious]
  refine ⟨_, rfl, rfl, Function.update_self _ _ _, ?_⟩
  intro d hd
  exact Function.update_of_ne (Nat.ne_of_lt hd) _ _

/-- A call of a function on `o` has entered a context with no variables. -/
structure Entered (L : Library) (xs : ObjectId → Option (Contents L)) (h h' : Heap) (c : ContextId)
    (o : ObjectId) (before : Option ContextId) : Prop where
  leaves : ∀ p, Leaves L xs p h h'
  objects : ∀ o < h.store.nextObject, h'.store.objects o = h.store.objects o
  context : ∀ d < h.contexts.next, h'.contexts.context d = h.contexts.context d
  new : h.contexts.next ≤ c
  bound : c < h'.contexts.next
  self : (h'.contexts.context c).self = o
  previous : (h'.contexts.context c).previous = before
  members : h.store.nextObject ≤ (h'.contexts.context c).memberObj
  membersBound : (h'.contexts.context c).memberObj < h'.store.nextObject
  membersCls : h'.store.cls (h'.contexts.context c).memberObj = .Object
  empty : ∀ id, h'.store.get (h'.contexts.context c).memberObj id = none

theorem enter_spec (L : Library) (xs : ObjectId → Option (Contents L)) (h : Heap) (f : FunctionId)
    (self : ObjectId) {previous : Option ContextId}
    (hprevious : ∀ d, previous = some d → d < h.contexts.next) :
    ∃ c h', h.enter f self previous = some (c, h') ∧ Entered L xs h h' c self previous := by
  obtain ⟨cs, hcreate, hnext, hself, hcontexts⟩ := create_exists h.contexts
    ⟨h.nextTask, previous, h.store.nextObject, self, (h.store.functions f).module, some f,
      (h.store.functions f).insPos, none, -1⟩ hprevious
  refine ⟨h.contexts.next, ⟨(h.store.heapNew .Object).2, cs, h.nextTask + 1⟩, ?_, ?_⟩
  · unfold Heap.enter
    simp only [Store.heapNew, hcreate, Option.map_some]
  · have hobjects : ∀ o < h.store.nextObject,
        ((h.store.heapNew .Object).2.objects o) = h.store.objects o := fun o ho =>
      Function.update_of_ne (Nat.ne_of_lt ho) _ _
    constructor
    · intro p
      apply leaves_of_objects
      · exact Nat.le_succ _
      · rw [hnext]
        exact Nat.le_succ _
      · exact hobjects
      · exact hcontexts
      · rfl
    · exact hobjects
    · exact hcontexts
    · exact Nat.le_refl _
    · rw [hnext]
      exact Nat.lt_succ_self _
    · rw [hself]
    · rw [hself]
    · rw [hself]
    · rw [hself]
      exact Nat.lt_succ_self _
    · rw [hself]
      simp [Store.heapNew, Store.cls]
    · intro id
      rw [hself]
      simp [Store.heapNew, Store.get]

theorem IsTable.entered {before : Option ContextId} {table : List Entity} {self : ObjectId}
    (ht : IsTable h o table) (he : Entered L xs h h' c self before) : IsTable h' o table :=
  ht.congr (he.leaves fun _ => False).nextObject (congrArg Object.cls (he.objects o ht.bound))
    (congrArg Object.internal (he.objects o ht.bound))

end Leaving

/-! ## Closures -/

/-- The context of a constructor of `it`, as its closures find it. Its variables are in an object
from before `n`. -/
structure Captured (n : Nat) (h : Heap) (c : ContextId) (it : ObjectId) : Prop where
  bound : c < h.contexts.next
  self : (h.contexts.context c).self = it
  previous : (h.contexts.context c).previous = none
  older : n ≤ h.store.nextObject
  membersBound : (h.contexts.context c).memberObj < n
  membersCls : h.store.cls (h.contexts.context c).memberObj = .Object
  unbound : ∀ id ∉ ["args"], h.store.get (h.contexts.context c).memberObj id = none

/-- Field `id` of `o` is the closure `f` that the constructor of `it` has made. -/
def HasClosure (n : Nat) (h : Heap) (o : ObjectId) (id : String) (it : ObjectId)
    (f : FunctionId) : Prop :=
  ∃ r c, h.store.get o id = some (.obj r) ∧ r < h.store.nextObject ∧
    h.store.cls r = .FunctionRef ∧ h.store.internal r = .functionRef it f (some c) ∧
    Captured n h c it

section Closures

variable {L : Library} {xs : ObjectId → Option (Contents L)} {p : ObjectId → Prop}
variable {h h' : Heap} {o it x : ObjectId} {c : ContextId} {id : String} {f : FunctionId}
variable {n n' : Nat}

theorem Library.IsIterator.ne_object {cls : ClassId} (h : L.IsIterator cls) : cls ≠ .Object := by
  cases h with
  | inl h => rw [h]; exact ClassId.noConfusion
  | inr h => rw [h]; exact ClassId.noConfusion

theorem Library.IsIterator.ne_class {cls : ClassId} (h : L.IsIterator cls) : cls ≠ .Class := by
  cases h with
  | inl h => rw [h]; exact ClassId.noConfusion
  | inr h => rw [h]; exact ClassId.noConfusion

theorem Library.IsIterator.ne_function {cls : ClassId} (h : L.IsIterator cls) : cls ≠ .Function := by
  cases h with
  | inl h => rw [h]; exact ClassId.noConfusion
  | inr h => rw [h]; exact ClassId.noConfusion

theorem Library.IsIterator.ne_map {cls : ClassId} (h : L.IsIterator cls) (hL : L.Proper) :
    cls ≠ .user L.map := by
  cases h with
  | inl h =>
    rw [h]
    intro heq
    exact hL.map.1 (ClassId.user.inj heq).symm
  | inr h =>
    rw [h]
    intro heq
    exact hL.map.2 (ClassId.user.inj heq).symm

theorem leaves_setIterator (hp : p it) (hL : L.Proper) (hbound : it < h.store.nextObject)
    (hiter : L.IsIterator (h.store.cls it)) (id : String) (e : Entity) :
    Leaves L xs p h (h.setField it id e) :=
  leaves_setField hp ⟨hbound, .inl hiter⟩ (hiter.ne_map hL) id e

theorem get_of_objects (hobjects : h'.store.objects o = h.store.objects o) (id : String) :
    h'.store.get o id = h.store.get o id := by
  rw [Store.get, Store.get, hobjects]

theorem Captured.reserved (hc : Captured n h c it) (hbound : it < h.store.nextObject)
    (hiter : L.IsIterator (h.store.cls it)) :
    Reserved L h (h.contexts.context c).memberObj := by
  refine ⟨Nat.lt_of_lt_of_le hc.membersBound hc.older, .inr ⟨hc.membersCls, c, hc.bound, rfl, ?_, ?_⟩⟩
  · rw [hc.self]
    exact hbound
  · rw [hc.self]
    exact hiter

theorem Captured.leaves (hc : Captured n h c it) (hl : Leaves L xs p h h')
    (hp : ∀ o < n, p o → L.IsIterator (h.store.cls o))
    (hbound : it < h.store.nextObject) (hiter : L.IsIterator (h.store.cls it)) :
    Captured n h' c it := by
  obtain ⟨hprevious, hmembers, hself⟩ := hl.scope c hc.bound
  have hsame : h'.store.objects (h.contexts.context c).memberObj =
      h.store.objects (h.contexts.context c).memberObj := by
    apply hl.reserved _ (hc.reserved hbound hiter)
    intro hpm
    exact (hp _ hc.membersBound hpm).ne_object hc.membersCls
  constructor
  · exact Nat.lt_of_lt_of_le hc.bound hl.nextContext
  · exact hself.trans hc.self
  · exact hprevious.trans hc.previous
  · exact Nat.le_trans hc.older hl.nextObject
  · rw [hmembers]
    exact hc.membersBound
  · rw [hmembers]
    exact (congrArg Object.cls hsame).trans hc.membersCls
  · intro id hid
    rw [hmembers, get_of_objects hsame]
    exact hc.unbound id hid

theorem Captured.mono (hc : Captured n h c it) (hle : n ≤ n') (holder : n' ≤ h.store.nextObject) :
    Captured n' h c it :=
  { hc with older := holder, membersBound := Nat.lt_of_lt_of_le hc.membersBound hle }

theorem HasClosure.mono (hc : HasClosure n h o id it f) (hle : n ≤ n')
    (holder : n' ≤ h.store.nextObject) : HasClosure n' h o id it f := by
  obtain ⟨r, c, hget, hr, hcls, hinternal, hcaptured⟩ := hc
  exact ⟨r, c, hget, hr, hcls, hinternal, hcaptured.mono hle holder⟩

theorem HasClosure.leaves (hc : HasClosure n h o id it f) (hl : Leaves L xs p h h')
    (hp : ∀ o < n, p o → L.IsIterator (h.store.cls o))
    (hbound : it < h.store.nextObject) (hiter : L.IsIterator (h.store.cls it))
    (hfield : h'.store.get o id = h.store.get o id) : HasClosure n h' o id it f := by
  obtain ⟨r, c, hget, hr, hcls, hinternal, hcaptured⟩ := hc
  refine ⟨r, c, hfield.trans hget, Nat.lt_of_lt_of_le hr hl.nextObject, ?_, ?_, ?_⟩
  · exact (hl.cls r hr).trans hcls
  · exact (hl.reference r hr hcls).trans hinternal
  · exact hcaptured.leaves hl hp hbound hiter

/-- The contexts of `c` are calls of functions of `it`. -/
def Own (h : Heap) (c : ContextId) (it : ObjectId) : Prop :=
  ∀ d ∈ h.contexts.chain c, d < h.contexts.next ∧ (h.contexts.context d).self = it ∧
    (h.contexts.context d).memberObj < h.store.nextObject ∧
    h.store.cls (h.contexts.context d).memberObj = .Object

theorem Own.reserved (ho : Own h c it) (hbound : it < h.store.nextObject)
    (hiter : L.IsIterator (h.store.cls it)) :
    ∀ d ∈ h.contexts.chain c, Reserved L h (h.contexts.context d).memberObj := by
  intro d hd
  obtain ⟨hnext, hself, hmembers, hcls⟩ := ho d hd
  refine ⟨hmembers, .inr ⟨hcls, d, hnext, rfl, ?_, ?_⟩⟩
  · rw [hself]
    exact hbound
  · rw [hself]
    exact hiter

theorem Own.objects (ho : Own h c it) (hl : Leaves L xs p h h')
    (hp : ∀ o < h.store.nextObject, p o → L.IsIterator (h.store.cls o))
    (hbound : it < h.store.nextObject) (hiter : L.IsIterator (h.store.cls it)) :
    ∀ d ∈ h.contexts.chain c, h'.store.objects (h.contexts.context d).memberObj =
      h.store.objects (h.contexts.context d).memberObj := by
  intro d hd
  obtain ⟨-, -, hmembers, hcls⟩ := ho d hd
  apply hl.reserved _ (ho.reserved hbound hiter d hd)
  intro hpd
  exact (hp _ hmembers hpd).ne_object hcls

theorem Leaves.chain (hl : Leaves L xs p h h') (ho : Own h c it) :
    h'.contexts.chain c = h.contexts.chain c :=
  Contexts.chain_congr fun d hd => (hl.scope d (ho d hd).1).1

theorem Own.leaves (ho : Own h c it) (hl : Leaves L xs p h h') : Own h' c it := by
  intro d hd
  rw [hl.chain ho] at hd
  obtain ⟨hnext, hself, hmembers, hcls⟩ := ho d hd
  obtain ⟨-, hmembers', hself'⟩ := hl.scope d hnext
  refine ⟨Nat.lt_of_lt_of_le hnext hl.nextContext, hself'.trans hself, ?_, ?_⟩
  · rw [hmembers']
    exact Nat.lt_of_lt_of_le hmembers hl.nextObject
  · rw [hmembers', hl.cls _ hmembers]
    exact hcls

theorem mem_chain_self (h : Heap) (c : ContextId) : c ∈ h.contexts.chain c := by
  rw [Contexts.chain_eq]
  exact List.mem_cons_self

theorem Inside.leaves {vars : List String} (hin : Inside h c it vars) (ho : Own h c it)
    (hl : Leaves L xs p h h') (hp : ∀ o < h.store.nextObject, p o → L.IsIterator (h.store.cls o))
    (hbound : it < h.store.nextObject) (hiter : L.IsIterator (h.store.cls it)) :
    Inside h' c it vars := by
  have hobjects := ho.objects hl hp hbound hiter
  have hself := mem_chain_self h c
  constructor
  · exact (hl.scope c (ho c hself).1).2.2.trans hin.self
  · intro d hd id hid
    rw [hl.chain ho] at hd
    rw [(hl.scope d (ho d hd).1).2.1, get_of_objects (hobjects d hd)]
    exact hin.unbound d hd id hid
  · intro d hd
    rw [hl.chain ho] at hd
    rw [(hl.scope d (ho d hd).1).2.1]
    exact hin.apart d hd

theorem Entered.chain {c₀ : ContextId} (he : Entered L xs h h' c it (some c₀))
    (hc : Captured n h c₀ it) : h'.contexts.chain c = [c, c₀] := by
  rw [Contexts.chain_eq, he.previous, Contexts.chain?, Contexts.chain_eq, he.context c₀ hc.bound,
    hc.previous]
  rfl

theorem Entered.own {c₀ : ContextId} (he : Entered L xs h h' c it (some c₀))
    (hc : Captured n h c₀ it) : Own h' c it := by
  have hmembers := Nat.lt_of_lt_of_le hc.membersBound hc.older
  have hl := he.leaves fun _ => False
  intro d hd
  rw [he.chain hc] at hd
  rcases List.mem_cons.mp hd with rfl | hd
  · exact ⟨he.bound, he.self, he.membersBound, he.membersCls⟩
  · rw [List.mem_singleton.mp hd, he.context c₀ hc.bound]
    exact ⟨Nat.lt_of_lt_of_le hc.bound hl.nextContext, hc.self,
      Nat.lt_of_lt_of_le hmembers hl.nextObject, (hl.cls _ hmembers).trans hc.membersCls⟩

/-- The context of a call of a closure: its own variables, then those of the constructor. -/
theorem Entered.inside {c₀ : ContextId} (he : Entered L xs h h' c it (some c₀))
    (hc : Captured n h c₀ it) (hbound : it < h.store.nextObject)
    (hiter : L.IsIterator (h.store.cls it)) : Inside h' c it ["args"] := by
  have hcontext := he.context c₀ hc.bound
  have hchain := he.chain hc
  have hobjects := he.objects _ (Nat.lt_of_lt_of_le hc.membersBound hc.older)
  constructor
  · exact he.self
  · intro d hd id hid
    rw [hchain] at hd
    rcases List.mem_cons.mp hd with rfl | hd
    · exact he.empty id
    · rw [List.mem_singleton.mp hd, hcontext, get_of_objects hobjects]
      exact hc.unbound id hid
  · intro d hd
    rw [hchain] at hd
    rcases List.mem_cons.mp hd with rfl | hd
    · exact Nat.ne_of_gt (Nat.lt_of_lt_of_le hbound he.members)
    · rw [List.mem_singleton.mp hd, hcontext]
      intro heq
      rw [← heq] at hiter
      exact hiter.ne_object hc.membersCls

/-- The context of a call of a constructor or a method has its own variables only. -/
theorem Entered.inside_none (he : Entered L xs h h' c it none) (hbound : it < h.store.nextObject) :
    Inside h' c it [] := by
  have hchain : h'.contexts.chain c = [c] := by
    rw [Contexts.chain_eq, he.previous]
    rfl
  constructor
  · exact he.self
  · intro d hd id _
    rw [hchain, List.mem_singleton] at hd
    rw [hd]
    exact he.empty id
  · intro d hd
    rw [hchain, List.mem_singleton] at hd
    rw [hd]
    exact Nat.ne_of_gt (Nat.lt_of_lt_of_le hbound he.members)

theorem call_closure (xs : ObjectId → Option (Contents L))
    {bodies : FunctionId → Option (Heap → ContextId → Option (Entity × Heap))}
    {body : Heap → ContextId → Option (Entity × Heap)} (hc : HasClosure n h o id it f)
    (hbody : bodies f = some body) (hanon : (h.store.functions f).isAnon)
    (hbound : it < h.store.nextObject) (hiter : L.IsIterator (h.store.cls it)) :
    ∃ r c h', h.store.get o id = some (.obj r) ∧ h.store.cls r = .FunctionRef ∧
      (∃ c₀, Entered L xs h h' c it (some c₀)) ∧ Inside h' c it ["args"] ∧ Own h' c it ∧
      call bodies h (.obj r) = body h' c := by
  obtain ⟨r, c₀, hget, -, hcls, hinternal, hcaptured⟩ := hc
  have hprevious : ∀ d, some c₀ = some d → d < h.contexts.next := by
    intro d hd
    cases hd
    exact hcaptured.bound
  obtain ⟨c, h', henter, he⟩ := enter_spec L xs h f it hprevious
  refine ⟨r, c, h', hget, hcls, ⟨c₀, he⟩, he.inside hcaptured hbound hiter,
    he.own hcaptured, ?_⟩
  unfold call
  simp only [hcls, hinternal, hbody, hanon, if_true, henter, Option.bind_eq_bind,
    Option.bind_some]

end Closures

end Iterators

end JeffVm
