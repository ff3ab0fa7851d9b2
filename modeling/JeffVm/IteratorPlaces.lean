import JeffVm.IteratorFrames
import JeffVm.StructMap

/-!
# Places of iterators

How far an iterator has come is in its fields, or for a map in those of the iterator over the
keys. `has_next` reads the place and `next` advances it by one.
-/

set_option autoImplicit false

namespace JeffVm

namespace Iterators

/-! ## The closures of an index iterator -/

section IndexClosures

variable {L : Library} {h : Heap} {c : ContextId} {it x : ObjectId} {vars : List String}
variable {table : List Entity} {n m : Int} {e : Entity}

theorem binary_sub (n m : Int) : binary .SUB (.int n) (.int m) = some (.int (wrap32 (n - m))) :=
  rfl

theorem binary_add (n m : Int) : binary .ADD (.int n) (.int m) = some (.int (wrap32 (n + m))) :=
  rfl

theorem binary_lt (n m : Int) :
    binary .LT (.int n) (.int m) = some (if n < m then .int 1 else .none) := by
  by_cases hlt : n < m
  · simp [binary, primitiveResult, primitiveOp, Primitive.compareOp, Primitive.mathOp, Entity.int,
      Primitive.isFloat, Primitive.isInt, Primitive.intOf, Primitive.ofBool, hlt, Op.isBool, wrap32]
  · simp [binary, primitiveResult, primitiveOp, Primitive.compareOp, Primitive.mathOp, Entity.int,
      Primitive.isFloat, Primitive.isInt, Primitive.intOf, Primitive.ofBool, hlt, Op.isBool, wrap32]

theorem anonFunction_int (s : Store) (n : Int) : s.anonFunction (.int n) = none := rfl

theorem anonFunction_obj {s : Store} {o : ObjectId} (hcls : s.cls o ≠ .Function) :
    s.anonFunction (.obj o) = none := by
  rw [Store.anonFunction, Store.functionOf]
  split
  · rw [if_neg hcls]
    rfl
  · rfl

theorem IsTable.elements (ht : IsTable h x table) : h.store.elements (.obj x) = some table := by
  rcases ht.kind with ⟨hcls, hinternal⟩ | ⟨hcls, hinternal⟩
  · simp only [Store.elements, hcls, hinternal]
  · simp only [Store.elements, hcls, hinternal]

theorem IsTable.ne_function (ht : IsTable h x table) : h.store.cls x ≠ .Function := by
  rcases ht.kind with ⟨hcls, -⟩ | ⟨hcls, -⟩
  · rw [hcls]
    exact ClassId.noConfusion
  · rw [hcls]
    exact ClassId.noConfusion

theorem elementOf_table (ht : IsTable h x table) {i : Nat} (hi : table[i]? = some e) :
    h.elementOf (.obj x) (.int i) = some e := by
  have hlt : i < table.length := (List.getElem?_eq_some_iff.mp hi).1
  have hrange : (0 : Int) ≤ i ∧ (i : Int) < table.length := by omega
  rw [Heap.elementOf, ht.elements, Option.bind_some, Entity.int, indexOf, if_pos hrange,
    Option.bind_some, Int.toNat_natCast]
  exact hi

theorem elementOf_end (ht : IsTable h x table) {k : Int} (hk : k < 0 ∨ table.length ≤ k) :
    h.elementOf (.obj x) (.int k) = none := by
  have hrange : ¬ (0 ≤ k ∧ k < table.length) := by omega
  rw [Heap.elementOf, ht.elements, Option.bind_some, Entity.int, indexOf, if_neg hrange,
    Option.bind_none]

theorem elementOf_congr {h' : Heap} (ht : IsTable h x table) (ht' : IsTable h' x table)
    (index : Entity) : h'.elementOf (.obj x) index = h.elementOf (.obj x) index := by
  rw [Heap.elementOf, Heap.elementOf, ht.elements, ht'.elements]

theorem IsTable.setField (ht : IsTable h x table) (o : ObjectId) (id : String) (e : Entity) :
    IsTable (h.setField o id e) x table :=
  ht.congr (Nat.le_refl _) (Store.cls_setMember h.store o x id e)
    (Store.internal_setMember h.store o x id e)

theorem IsTable.len (ht : IsTable h x table) :
    h.len (.obj x) = some (.int (wrap32 table.length)) := by
  rw [Heap.len]
  rcases ht.kind with ⟨-, hinternal⟩ | ⟨-, hinternal⟩
  · simp only [hinternal]
  · simp only [hinternal]

/-- `has_next` compares two fields. -/
theorem hasNextBody_spec (hin : Inside h c it vars) (hvars : "index" ∉ vars ∧ "end" ∉ vars)
    (hindex : h.store.get it "index" = some (.int n))
    (hlast : h.store.get it "end" = some (.int m)) :
    hasNextBody h c = some (if n < wrap32 (m - 1) then .int 1 else .none, h) := by
  have hreadIndex := hin.lookup hvars.1 (by decide) hindex (anonFunction_int h.store n)
  have hreadLast := hin.lookup hvars.2 (by decide) hlast (anonFunction_int h.store m)
  simp only [hasNextBody, hreadIndex, hreadLast, binary_sub, binary_lt, Option.bind_eq_bind,
    Option.bind_some]

/-- `next` advances both counters and reads the element, if there is one. -/
theorem nextBody_spec (hin : Inside h c it vars)
    (hvars : "i" ∉ vars ∧ "index" ∉ vars ∧ "indexable" ∉ vars) {k : Int}
    (hi : h.store.get it "i" = some (.int n)) (hindex : h.store.get it "index" = some (.int n))
    (hindexable : h.store.get it "indexable" = some (.obj x)) (ht : IsTable h x table)
    (hk : wrap32 (n + 1) = k) :
    nextBody h c = (h.elementOf (.obj x) (.int k)).map fun e =>
      ((h.setField it "i" (.int k)).setField it "index" (.int k)).tuple [.int k, e] := by
  obtain ⟨hvarI, hvarIndex, hvarIndexable⟩ := hvars
  let h₁ := h.setField it "i" (.int k)
  let h₂ := h₁.setField it "index" (.int k)
  have hin₁ : Inside h₁ c it vars := hin.setField "i" (.int k)
  have hin₂ : Inside h₂ c it vars := hin₁.setField "index" (.int k)
  have ht₂ : IsTable h₂ x table := (ht.setField it "i" (.int k)).setField it "index" (.int k)
  have hget₁ : h₁.store.get it = Function.update (h.store.get it) "i" (some (.int k)) :=
    get_setMember_update h.store it "i" (.int k)
  have hget₂ : h₂.store.get it = Function.update (h₁.store.get it) "index" (some (.int k)) :=
    get_setMember_update h₁.store it "index" (.int k)
  have hindex₁ : h₁.store.get it "index" = some (.int n) := by
    rw [hget₁, Function.update_of_ne (by decide), hindex]
  have hindex₂ : h₂.store.get it "index" = some (.int k) := by
    rw [hget₂, Function.update_self]
  have hi₂ : h₂.store.get it "i" = some (.int k) := by
    rw [hget₂, Function.update_of_ne (by decide), hget₁, Function.update_self]
  have hindexable₂ : h₂.store.get it "indexable" = some (.obj x) := by
    rw [hget₂, Function.update_of_ne (by decide), hget₁, Function.update_of_ne (by decide),
      hindexable]
  have hreadI := hin.lookup hvarI (by decide) hi (anonFunction_int _ n)
  have hsetI : h.assign c "i" (.int k) = h₁ :=
    hin.assign hvarI (by rw [hi]; rfl)
  have hreadIndex := hin₁.lookup hvarIndex (by decide) hindex₁ (anonFunction_int _ n)
  have hsetIndex : h₁.assign c "index" (.int k) = h₂ :=
    hin₁.assign hvarIndex (by rw [hindex₁]; rfl)
  have hreadIndexable := hin₂.lookup hvarIndexable (by decide) hindexable₂
    (anonFunction_obj ht₂.ne_function)
  have hreadIndex₂ := hin₂.lookup hvarIndex (by decide) hindex₂ (anonFunction_int _ k)
  have hreadI₂ := hin₂.lookup hvarI (by decide) hi₂ (anonFunction_int _ k)
  simp only [nextBody, hreadI, binary_add, hk, hsetI, hreadIndex, hsetIndex, hreadIndexable,
    hreadIndex₂, elementOf_congr ht ht₂, hreadI₂, Option.bind_eq_bind, Option.bind_some]
  cases h.elementOf (.obj x) (.int k) with
  | none => rfl
  | some e => rfl

end IndexClosures

/-! ## The place of an index iterator -/

/-- `it` iterates over the `size` elements of `x` and has given `count` of them. -/
structure IndexCursor (L : Library) (n : Nat) (h : Heap) (it x : ObjectId) (size count : Nat) :
    Prop where
  bound : it < h.store.nextObject
  cls : h.store.cls it = .user L.indexIterator
  indexable : h.store.get it "indexable" = some (.obj x)
  last : h.store.get it "end" = some (.int (wrap32 size))
  i : h.store.get it "i" = some (.int (count - 1))
  index : h.store.get it "index" = some (.int (count - 1))
  hasNextField : HasClosure n h it "has_next" it (L.function .hasNext)
  nextField : HasClosure n h it "next" it (L.function .next)

section Places

variable {L : Library} {xs : ObjectId → Option (Contents L)} {p : ObjectId → Prop}
variable {h h' : Heap} {o it x : ObjectId} {n n' size count : Nat} {table : List Entity}
variable {mapIndex : MapIndex}

theorem IndexCursor.isIterator (hcur : IndexCursor L n h it x size count) :
    L.IsIterator (h.store.cls it) := .inl hcur.cls

theorem IndexCursor.reserved (hcur : IndexCursor L n h it x size count) : Reserved L h it :=
  ⟨hcur.bound, .inl hcur.isIterator⟩

theorem IndexCursor.leaves (hcur : IndexCursor L n h it x size count) (hl : Leaves L xs p h h')
    (hp : ∀ o < n, p o → L.IsIterator (h.store.cls o)) (hnot : ¬ p it) :
    IndexCursor L n h' it x size count := by
  have hsame := hl.reserved it hcur.reserved hnot
  have hget := get_of_objects hsame
  constructor
  · exact Nat.lt_of_lt_of_le hcur.bound hl.nextObject
  · exact (hl.cls it hcur.bound).trans hcur.cls
  · exact (hget _).trans hcur.indexable
  · exact (hget _).trans hcur.last
  · exact (hget _).trans hcur.i
  · exact (hget _).trans hcur.index
  · exact hcur.hasNextField.leaves hl hp hcur.bound hcur.isIterator (hget _)
  · exact hcur.nextField.leaves hl hp hcur.bound hcur.isIterator (hget _)

theorem IndexCursor.mono (hcur : IndexCursor L n h it x size count) (hle : n ≤ n')
    (holder : n' ≤ h.store.nextObject) : IndexCursor L n' h it x size count :=
  { hcur with
    hasNextField := hcur.hasNextField.mono hle holder
    nextField := hcur.nextField.mono hle holder }

theorem leaves_counters (hL : L.Proper) (hbound : it < h.store.nextObject)
    (hiter : L.IsIterator (h.store.cls it)) (e : Entity) :
    Leaves L xs (fun o => o = it) h ((h.setField it "i" e).setField it "index" e) := by
  have hi : Leaves L xs (fun o => o = it) h (h.setField it "i" e) :=
    leaves_setIterator (p := fun o => o = it) rfl hL hbound hiter "i" e
  have hiter' : L.IsIterator ((h.setField it "i" e).store.cls it) := by
    rw [hi.cls it hbound]
    exact hiter
  have hbound' := Nat.lt_of_lt_of_le hbound hi.nextObject
  exact hi.trans (leaves_setIterator (p := fun o => o = it) rfl hL hbound' hiter' "index" e)

/-- Setting both counters moves the iterator. -/
theorem IndexCursor.advance (hcur : IndexCursor L n h it x size count)
    (hL : L.Proper) {k : Nat} :
    IndexCursor L n ((h.setField it "i" (.int k)).setField it "index" (.int k)) it x size (k + 1) := by
  let h₁ := h.setField it "i" (.int k)
  let h₂ := h₁.setField it "index" (.int k)
  have hl : Leaves L (fun _ => none) (fun o => o = it) h h₂ :=
    leaves_counters hL hcur.bound hcur.isIterator (.int k)
  have hp : ∀ o < n, o = it → L.IsIterator (h.store.cls o) := by
    rintro o - rfl
    exact hcur.isIterator
  have hget : h₂.store.get it = Function.update (Function.update (h.store.get it) "i"
      (some (.int k))) "index" (some (.int k)) := by
    rw [← get_setMember_update h.store it "i" (.int k)]
    exact get_setMember_update h₁.store it "index" (.int k)
  have hother : ∀ id, id ≠ "i" → id ≠ "index" → h₂.store.get it id = h.store.get it id := by
    intro id hi hindex
    rw [hget, Function.update_of_ne hindex, Function.update_of_ne hi]
  have hcount : ((k + 1 : Nat) : Int) - 1 = k := by omega
  constructor
  · exact hcur.bound
  · exact (hl.cls it hcur.bound).trans hcur.cls
  · exact (hother _ (by decide) (by decide)).trans hcur.indexable
  · exact (hother _ (by decide) (by decide)).trans hcur.last
  · rw [hget, Function.update_of_ne (by decide), Function.update_self, hcount]
  · rw [hget, Function.update_self, hcount]
  · exact hcur.hasNextField.leaves hl hp hcur.bound hcur.isIterator (hother _ (by decide) (by decide))
  · exact hcur.nextField.leaves hl hp hcur.bound hcur.isIterator (hother _ (by decide) (by decide))

theorem field_closure {id : String} {r : ObjectId} (caller : ContextId)
    (hcls : h.store.cls o ≠ .Class) (hget : h.store.get o id = some (.obj r))
    (href : h.store.cls r = .FunctionRef) :
    h.field caller (.obj o) id = some (.obj r, h) := by
  have hfunction : h.store.functionOf (.obj r) = none := by
    rw [Store.functionOf]
    split
    · rw [if_neg (by rw [href]; exact ClassId.noConfusion)]
    · rfl
  simp only [Heap.field, Store.getMaybeWrap, if_neg hcls, hget, hfunction]

theorem bodies_hasNext (mapIndex : MapIndex) (hL : L.Proper) :
    bodies L mapIndex (L.function .hasNext) = some hasNextBody := by
  have hne : L.function .hasNext ≠ L.function .kvNext := fun heq =>
    Body.noConfusion (hL.functions heq)
  rw [bodies, if_neg hne, indexBodies, if_pos rfl]

theorem indexBodies_next (hL : L.Proper) : indexBodies L (L.function .next) = some nextBody := by
  have hne : L.function .next ≠ L.function .hasNext := fun heq =>
    Body.noConfusion (hL.functions heq)
  rw [indexBodies, if_neg hne, if_pos rfl]

theorem bodies_next (mapIndex : MapIndex) (hL : L.Proper) :
    bodies L mapIndex (L.function .next) = some nextBody := by
  have hne : L.function .next ≠ L.function .kvNext := fun heq =>
    Body.noConfusion (hL.functions heq)
  rw [bodies, if_neg hne, indexBodies_next hL]

theorem bodies_kvNext : bodies L mapIndex (L.function .kvNext) = some (kvNextBody L mapIndex) := by
  rw [bodies, if_pos rfl]

/-- `has_next` of an object whose field is the closure of an index iterator. -/
theorem IndexCursor.hasNext_spec (hcur : IndexCursor L n h it x size count)
    (mapIndex : MapIndex) (hL : L.Proper)
    (hloaded : Loaded L h.store) (hclass : h.store.cls o ≠ .Class)
    (hclosure : HasClosure n h o "has_next" it (L.function .hasNext)) (caller : ContextId) :
    ∃ h', hasNext L mapIndex h caller o =
        some (if (count : Int) - 1 < wrap32 (wrap32 size - 1) then .int 1 else .none, h') ∧
      ∀ p, Leaves L xs p h h' := by
  have hbodies : bodies L mapIndex (L.function .hasNext) = some hasNextBody :=
    bodies_hasNext mapIndex hL
  obtain ⟨r, c, h', hget, href, ⟨c₀, he⟩, hin, -, hcall⟩ := call_closure xs hclosure hbodies
    (hloaded.closures .hasNext (.inl rfl)) hcur.bound
    hcur.isIterator
  have hfields := get_of_objects (he.objects it hcur.bound)
  have hbody := hasNextBody_spec hin ⟨by decide, by decide⟩ ((hfields _).trans hcur.index)
    ((hfields _).trans hcur.last)
  refine ⟨h', ?_, he.leaves⟩
  rw [hasNext, callField, field_closure caller hclass hget href]
  simp only [Option.bind_eq_bind, Option.bind_some]
  rw [hcall, hbody]

theorem tuple_spec (h : Heap) (es : List Entity) :
    (h.tuple es).1 = .obj h.store.nextObject ∧ IsTable (h.tuple es).2 h.store.nextObject es ∧
      tupleOf (h.tuple es).2.store (.obj h.store.nextObject) = some es := by
  have hcls : (h.tuple es).2.store.cls h.store.nextObject = .Tuple :=
    Store.cls_heapNewWith h.store .Tuple (.tuple es)
  have hinternal : (h.tuple es).2.store.internal h.store.nextObject = .tuple es :=
    Store.internal_heapNewWith h.store .Tuple (.tuple es)
  refine ⟨rfl, ⟨Nat.lt_succ_self _, .inr ⟨hcls, hinternal⟩⟩, ?_⟩
  simp only [tupleOf, hcls, hinternal]

/-- The closure that advances an index iterator gives the index with the element. -/
theorem IndexCursor.next_spec {bodies : FunctionId → Option (Heap → ContextId →
      Option (Entity × Heap))} {e : Entity} (hcur : IndexCursor L n h it x size count)
    (xs : ObjectId → Option (Contents L)) (hL : L.Proper) (hloaded : Loaded L h.store)
    (hbody : bodies (L.function .next) = some nextBody)
    (ht : IsTable h x table) (helem : table[count]? = some e) (hfits : count < 2 ^ 31)
    (caller : ContextId) :
    ∃ r o h', h.field caller (.obj it) "next" = some (.obj r, h) ∧
      call bodies h (.obj r) = some (.obj o, h') ∧ IsTable h' o [.int count, e] ∧
      tupleOf h'.store (.obj o) = some [.int count, e] ∧
      Leaves L xs (fun o => o = it) h h' ∧ IndexCursor L n h' it x size (count + 1) := by
  obtain ⟨r, c, h₁, hget, href, ⟨c₀, he⟩, hin, -, hcall⟩ := call_closure xs hcur.nextField
    hbody (hloaded.closures .next (.inr (.inl rfl))) hcur.bound hcur.isIterator
  have hcur₁ : IndexCursor L n h₁ it x size count :=
    hcur.leaves (he.leaves fun _ => False) (fun _ _ hfalse => hfalse.elim) id
  have ht₁ : IsTable h₁ x table := ht.entered he
  have hwrap : wrap32 ((count : Int) - 1 + 1) = count := by
    rw [Int.sub_add_cancel]
    exact wrap32_of_range (by omega) (by omega)
  have hrun := nextBody_spec hin ⟨by decide, by decide, by decide⟩ hcur₁.i hcur₁.index
    hcur₁.indexable ht₁ hwrap
  rw [elementOf_table ht₁ helem] at hrun
  let h₂ := (h₁.setField it "i" (.int count)).setField it "index" (.int count)
  have hcur₂ : IndexCursor L n h₂ it x size (count + 1) := hcur₁.advance hL
  have hl₂ : Leaves L xs (fun o => o = it) h₁ h₂ :=
    leaves_counters hL hcur₁.bound hcur₁.isIterator _
  have hl₃ : ∀ p, Leaves L xs p h₂ (h₂.tuple [.int count, e]).2 := fun p => leaves_tuple h₂ _
  refine ⟨r, h₂.store.nextObject, (h₂.tuple [.int count, e]).2,
    field_closure caller hcur.isIterator.ne_class hget href, ?_, (tuple_spec h₂ _).2.1,
    (tuple_spec h₂ _).2.2, ?_, ?_⟩
  · rw [hcall, hrun]
    rfl
  · exact ((he.leaves _).trans hl₂).trans (hl₃ _)
  · exact hcur₂.leaves (hl₃ fun _ => False) (fun _ _ hfalse => hfalse.elim) id

/-- Behind the last element the closure raises an error. -/
theorem IndexCursor.next_end {bodies : FunctionId → Option (Heap → ContextId →
      Option (Entity × Heap))} (hcur : IndexCursor L n h it x size count)
    (hloaded : Loaded L h.store) (hbody : bodies (L.function .next) = some nextBody)
    (ht : IsTable h x table) (hend : table.length ≤ count) (hfits : count ≤ 2 ^ 31)
    (caller : ContextId) :
    ∃ r, h.field caller (.obj it) "next" = some (.obj r, h) ∧ call bodies h (.obj r) = none := by
  obtain ⟨r, c, h₁, hget, href, ⟨c₀, he⟩, hin, -, hcall⟩ := call_closure (fun _ => none)
    hcur.nextField hbody (hloaded.closures .next (.inr (.inl rfl))) hcur.bound hcur.isIterator
  have hcur₁ : IndexCursor L n h₁ it x size count :=
    hcur.leaves (he.leaves fun _ => False) (fun _ _ hfalse => hfalse.elim) id
  have ht₁ : IsTable h₁ x table := ht.entered he
  have hrun := nextBody_spec hin ⟨by decide, by decide, by decide⟩ hcur₁.i hcur₁.index
    hcur₁.indexable ht₁ rfl
  have hout : wrap32 ((count : Int) - 1 + 1) < 0 ∨
      (table.length : Int) ≤ wrap32 ((count : Int) - 1 + 1) := by
    rw [wrap32, Int.bmod_def]
    omega
  rw [elementOf_end ht₁ hout] at hrun
  exact ⟨r, field_closure caller hcur.isIterator.ne_class hget href, hcall.trans hrun⟩

end Places

/-! ## The place of a key iterator -/

/-- `m[k]` has a value for the keys of a map while what it rests on holds, and its code leaves the
iterators alone. -/
def Reads (L : Library) (xs : ObjectId → Option (Contents L)) (mapIndex : MapIndex)
    (value : ObjectId → Entity → Entity) : Prop :=
  ∀ h m keys table support k, Loaded L h.store → xs m = some (.keyed keys table support) →
    Holds L h m (.keyed keys table support) → k ∈ table →
      ∃ h', mapIndex h m k = some (value m k, h') ∧ Leaves L xs (fun _ => False) h h'

/-- `it` iterates over the keys of the map `m`, with the iterator `root` over their array. -/
structure KeyedCursor (L : Library) (n : Nat) (h : Heap) (it root m keys : ObjectId) (size count : Nat) :
    Prop where
  bound : it < h.store.nextObject
  cls : h.store.cls it = .user L.kvIterator
  keyIter : h.store.get it "key_iter" = some (.obj root)
  container : h.store.get it "container" = some (.obj m)
  free : h.store.get it "k" = none
  hasNextField : HasClosure n h it "has_next" root (L.function .hasNext)
  nextField : HasClosure n h it "next" it (L.function .kvNext)
  root : IndexCursor L n h root keys size count

section KeyedPlaces

variable {L : Library} {xs : ObjectId → Option (Contents L)} {p : ObjectId → Prop}
variable {h h' : Heap} {it root m keys : ObjectId} {n n' size count k : Nat} {table : List Entity}
variable {support : Support L} {mapIndex : MapIndex} {value : ObjectId → Entity → Entity}

theorem KeyedCursor.isIterator (hcur : KeyedCursor L n h it root m keys size count) :
    L.IsIterator (h.store.cls it) := .inr hcur.cls

theorem KeyedCursor.reserved (hcur : KeyedCursor L n h it root m keys size count) :
    Reserved L h it := ⟨hcur.bound, .inl hcur.isIterator⟩

theorem KeyedCursor.ne_root (hcur : KeyedCursor L n h it root m keys size count)
    (hL : L.Proper) : it ≠ root := by
  rintro rfl
  exact hL.iterators (ClassId.user.inj (hcur.root.cls.symm.trans hcur.cls))

theorem KeyedCursor.mono (hcur : KeyedCursor L n h it root m keys size count) (hle : n ≤ n')
    (holder : n' ≤ h.store.nextObject) : KeyedCursor L n' h it root m keys size count :=
  { hcur with
    hasNextField := hcur.hasNextField.mono hle holder
    nextField := hcur.nextField.mono hle holder
    root := hcur.root.mono hle holder }

/-- The iterator over the keys may move; the rest stays. -/
theorem KeyedCursor.step (hcur : KeyedCursor L n h it root m keys size count)
    (hl : Leaves L xs p h h') (hp : ∀ o < n, p o → L.IsIterator (h.store.cls o)) (hnot : ¬ p it)
    (hroot : IndexCursor L n h' root keys size k) :
    KeyedCursor L n h' it root m keys size k := by
  have hget := get_of_objects (hl.reserved it hcur.reserved hnot)
  constructor
  · exact Nat.lt_of_lt_of_le hcur.bound hl.nextObject
  · exact (hl.cls it hcur.bound).trans hcur.cls
  · exact (hget _).trans hcur.keyIter
  · exact (hget _).trans hcur.container
  · exact (hget _).trans hcur.free
  · exact hcur.hasNextField.leaves hl hp hcur.root.bound hcur.root.isIterator (hget _)
  · exact hcur.nextField.leaves hl hp hcur.bound hcur.isIterator (hget _)
  · exact hroot

theorem KeyedCursor.leaves (hcur : KeyedCursor L n h it root m keys size count)
    (hl : Leaves L xs p h h') (hp : ∀ o < n, p o → L.IsIterator (h.store.cls o)) (hnot : ¬ p it)
    (hroot : ¬ p root) : KeyedCursor L n h' it root m keys size count :=
  hcur.step hl hp hnot (hcur.root.leaves hl hp hroot)

theorem Holds.isTable (hh : Holds L h m (.keyed keys table support)) :
    IsTable h keys table := by
  obtain _ | ⟨-, -, -, -, ht, -⟩ := hh
  exact ht

theorem Holds.ne_function (hh : Holds L h m (.keyed keys table support)) : h.store.cls m ≠ .Function := by
  obtain _ | ⟨-, hcls, -, -, -, -⟩ := hh
  rw [hcls]
  exact ClassId.noConfusion

/-- The closure that advances a key iterator, once it has the key: the key becomes a variable, and
the value is read from the container. -/
theorem readValue_spec {c : ContextId} {e : Entity} (hreads : Reads L xs mapIndex value)
    (hin : Inside h c it ["args"]) (hown : Own h c it) (hloaded : Loaded L h.store)
    (hbound : it < h.store.nextObject) (hiter : L.IsIterator (h.store.cls it))
    (hcontainer : h.store.get it "container" = some (.obj m)) (hfree : h.store.get it "k" = none)
    (hx : xs m = some (.keyed keys table support)) (hholds : Holds L h m (.keyed keys table support))
    (he : e ∈ table) :
    ∃ h₁ h₂, h.assign c "k" e = h₁ ∧ h₁.lookup c "container" = (.obj m, h₁) ∧
      h₁.lookup c "k" = (e, h₁) ∧ mapIndex h₁ m e = some (value m e, h₂) ∧
      h₂.lookup c "k" = (e, h₂) ∧
      Leaves L xs (fun o => o = (h.contexts.context c).memberObj) h h₂ := by
  let h₁ := h.declare c "k" e
  have hin₁ : Inside h₁ c it ["k", "args"] := hin.declare "k" e
  have hl₁ : Leaves L xs (fun o => o = (h.contexts.context c).memberObj) h h₁ := by
    apply leaves_setField (p := fun o => o = (h.contexts.context c).memberObj) rfl
      (hown.reserved hbound hiter c (mem_chain_self h c))
    rw [(hown c (mem_chain_self h c)).2.2.2]
    exact ClassId.noConfusion
  have hown₁ := hown.leaves hl₁
  have hholds₁ := hl₁.contents m _ hx hholds
  have hcontainer₁ : h₁.store.get it "container" = some (.obj m) :=
    (Store.get_setMember_ne h.store "k" _ e (hin.apart c (mem_chain_self h c)).symm).trans hcontainer
  have hvar₁ : h₁.store.get (h₁.contexts.context c).memberObj "k" = some e :=
    Store.get_setMember_self h.store _ _ _
  obtain ⟨h₂, hread, hl₂⟩ := hreads h₁ m keys table support e (hl₁.loaded hloaded) hx hholds₁ he
  -- the variables of the closure are as they were before the value was read
  have hiter₁ : L.IsIterator (h₁.store.cls it) := by
    rw [hl₁.cls it hbound]
    exact hiter
  have hobjects := hown₁.objects hl₂ (fun _ _ hfalse => hfalse.elim)
    (Nat.lt_of_lt_of_le hbound hl₁.nextObject) hiter₁
  have hvar₂ : h₂.store.get (h₂.contexts.context c).memberObj "k" = some e := by
    rw [(hl₂.scope c (hown₁ c (mem_chain_self h₁ c)).1).2.1,
      get_of_objects (hobjects c (mem_chain_self h₁ c))]
    exact hvar₁
  refine ⟨h₁, h₂, hin.assign_new (by decide) hfree, ?_, lookup_variable (by decide) hvar₁, hread,
    lookup_variable (by decide) hvar₂, hl₁.trans (hl₂.mono fun _ hfalse => hfalse.elim)⟩
  exact hin₁.lookup (by decide) (by decide) hcontainer₁ (anonFunction_obj hholds₁.ne_function)

/-- `next` of a key iterator gives the key with its value. -/
theorem KeyedCursor.next_spec (hcur : KeyedCursor L n h it root m keys size count)
    (hL : L.Proper) (hloaded : Loaded L h.store) (hreads : Reads L xs mapIndex value)
    (hx : xs m = some (.keyed keys table support)) (hholds : Holds L h m (.keyed keys table support))
    {e : Entity} (helem : table[count]? = some e) (hfits : count < 2 ^ 31)
    (hn : n ≤ h.store.nextObject) (caller : ContextId) :
    ∃ o h', next L mapIndex h caller it = some (.obj o, h') ∧
      tupleOf h'.store (.obj o) = some [e, value m e] ∧
      Leaves L xs (fun o => o = root) h h' ∧
      KeyedCursor L n h' it root m keys size (count + 1) := by
  have hbody : bodies L mapIndex (L.function .kvNext) = some (kvNextBody L mapIndex) :=
    bodies_kvNext
  obtain ⟨r, c, h₁, hget, href, ⟨c₀, he⟩, hin₁, hown₁, hcall⟩ := call_closure xs hcur.nextField hbody
    (hloaded.closures .kvNext (.inr (.inr rfl))) hcur.bound hcur.isIterator
  have hl₁ := he.leaves fun _ => False
  have hcur₁ : KeyedCursor L n h₁ it root m keys size count :=
    hcur.leaves hl₁ (fun _ _ hfalse => hfalse.elim) id id
  have hholds₁ := hl₁.contents m _ hx hholds
  -- the next key
  have hreadKeyIter := hin₁.lookup (by decide) (by decide) hcur₁.keyIter
    (anonFunction_obj hcur₁.root.isIterator.ne_function)
  obtain ⟨r', pair, h₂, hfield, hpair, htuple, -, hl₂, hroot₂⟩ := hcur₁.root.next_spec xs hL
    (hl₁.loaded hloaded) (indexBodies_next hL) hholds₁.isTable helem hfits c
  have hkey : h₂.elementOf (.obj pair) (.int (1 : Nat)) = some e := elementOf_table htuple rfl
  have hp₁ : ∀ o < h₁.store.nextObject, o = root → L.IsIterator (h₁.store.cls o) := by
    rintro o - rfl
    exact hcur₁.root.isIterator
  have hl₁₂ : Leaves L xs (fun o => o = root) h h₂ := (he.leaves _).trans hl₂
  have hsame₂ := get_of_objects (hl₂.reserved it hcur₁.reserved (hcur₁.ne_root hL))
  -- its value
  have hiter₂ : L.IsIterator (h₂.store.cls it) := by
    rw [hl₁₂.cls it hcur.bound]
    exact hcur.isIterator
  obtain ⟨h₃, h₄, hset, hreadContainer, hreadKey, hread, hreadKey₄, hl₄⟩ := readValue_spec hreads
    (hin₁.leaves hown₁ hl₂ hp₁ hcur₁.bound hcur₁.isIterator) (hown₁.leaves hl₂)
    (hl₁₂.loaded hloaded) (Nat.lt_of_lt_of_le hcur.bound hl₁₂.nextObject) hiter₂
    ((hsame₂ _).trans hcur₁.container) ((hsame₂ _).trans hcur₁.free) hx
    (hl₁₂.contents m _ hx hholds) (List.mem_of_getElem? helem)
  have hl₅ : ∀ p, Leaves L xs p h₄ (h₄.tuple [e, value m e]).2 := fun p => leaves_tuple h₄ _
  -- the variables of the closure are in a new object
  have hnew : ∀ o, o = (h₂.contexts.context c).memberObj → h.store.nextObject ≤ o := by
    rintro o rfl
    rw [(hl₂.scope c he.bound).2.1]
    exact he.members
  have hl₂₅ : Leaves L xs (fun o => h.store.nextObject ≤ o) h₂ (h₄.tuple [e, value m e]).2 :=
    (hl₄.mono hnew).trans (hl₅ _)
  -- the iterator over the keys has moved, this one has not
  have hl : Leaves L xs (fun o => o = root) h (h₄.tuple [e, value m e]).2 :=
    ((hl₁₂.mono fun _ ho => .inl ho).trans (hl₂₅.mono fun _ ho => .inr ho)).old
  have hroot₅ : IndexCursor L n (h₄.tuple [e, value m e]).2 root keys size (count + 1) := by
    apply hroot₂.leaves hl₂₅
    · intro o ho hge
      exact absurd (Nat.lt_of_lt_of_le ho hn) (Nat.not_lt.mpr hge)
    · exact Nat.not_le.mpr hcur.root.bound
  refine ⟨h₄.store.nextObject, (h₄.tuple [e, value m e]).2, ?_, (tuple_spec h₄ _).2.2, hl, ?_⟩
  · rw [next, callField, field_closure caller hcur.isIterator.ne_class hget href]
    simp only [Option.bind_eq_bind, Option.bind_some]
    rw [hcall]
    simp only [kvNextBody, hreadKeyIter, hfield, Option.bind_eq_bind, Option.bind_some, hpair]
    rw [show h₂.elementOf (.obj pair) (.int 1) = some e from hkey]
    simp only [Option.bind_some, hset, hreadContainer, hreadKey, hread, hreadKey₄]
    rfl
  · apply hcur.step hl
    · rintro o - rfl
      exact hcur.root.isIterator
    · exact hcur.ne_root hL
    · exact hroot₅

theorem KeyedCursor.next_end (hcur : KeyedCursor L n h it root m keys size count)
    (mapIndex : MapIndex) (hL : L.Proper) (hloaded : Loaded L h.store) (ht : IsTable h keys table)
    (hend : table.length ≤ count) (hfits : count ≤ 2 ^ 31) (caller : ContextId) :
    next L mapIndex h caller it = none := by
  have hbody : bodies L mapIndex (L.function .kvNext) = some (kvNextBody L mapIndex) :=
    bodies_kvNext
  obtain ⟨r, c, h₁, hget, href, ⟨c₀, he⟩, hin₁, -, hcall⟩ := call_closure (fun _ => none)
    hcur.nextField hbody (hloaded.closures .kvNext (.inr (.inr rfl))) hcur.bound hcur.isIterator
  have hl₁ := he.leaves fun _ => False
  have hcur₁ : KeyedCursor L n h₁ it root m keys size count :=
    hcur.leaves hl₁ (fun _ _ hfalse => hfalse.elim) id id
  have hreadKeyIter := hin₁.lookup (by decide) (by decide) hcur₁.keyIter
    (anonFunction_obj hcur₁.root.isIterator.ne_function)
  have ht₁ : IsTable h₁ keys table := ht.entered he
  obtain ⟨r', hfield, hnone⟩ := hcur₁.root.next_end (hl₁.loaded hloaded) (indexBodies_next hL) ht₁
    hend hfits c
  rw [next, callField, field_closure caller hcur.isIterator.ne_class hget href]
  simp only [Option.bind_eq_bind, Option.bind_some]
  rw [hcall]
  simp only [kvNextBody, hreadKeyIter, hfield, Option.bind_eq_bind, Option.bind_some, hnone,
    Option.bind_none]

end KeyedPlaces

end Iterators

end JeffVm
