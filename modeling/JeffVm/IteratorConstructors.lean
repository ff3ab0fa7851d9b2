import JeffVm.IteratorPlaces

/-!
# Constructors of iterators

What `iter` makes stands at the start of its container.
-/

set_option autoImplicit false

namespace JeffVm

namespace Iterators

/-! ## The constructors -/

section Constructors

variable {L : Library} {xs : ObjectId → Option (Contents L)} {p : ObjectId → Prop}
variable {h h' h'' : Heap} {o it x : ObjectId} {c : ContextId} {n size : Nat}
variable {vars ids : List String}
variable {args : Entity}

/-- The fields set in order. -/
def Heap.setFields (h : Heap) (o : ObjectId) (fields : List (String × Entity)) : Heap :=
  fields.foldl (fun h field => h.setField o field.1 field.2) h

theorem leaves_setFields (fields : List (String × Entity)) (hp : p it) (hL : L.Proper)
    (hbound : it < h.store.nextObject) (hiter : L.IsIterator (h.store.cls it)) :
    Leaves L xs p h (h.setFields it fields) := by
  induction fields generalizing h with
  | nil => exact Leaves.refl h
  | cons field fields ih =>
    apply (leaves_setIterator hp hL hbound hiter field.1 field.2).trans
    apply ih
    · exact hbound
    · rw [Heap.setField, Store.cls_setMember]
      exact hiter

theorem contexts_setFields (h : Heap) (it : ObjectId) (fields : List (String × Entity)) :
    (h.setFields it fields).contexts = h.contexts := by
  induction fields generalizing h with
  | nil => rfl
  | cons field fields ih => exact ih (h.setField it field.1 field.2)

theorem nextObject_setFields (h : Heap) (it : ObjectId) (fields : List (String × Entity)) :
    (h.setFields it fields).store.nextObject = h.store.nextObject := by
  induction fields generalizing h with
  | nil => rfl
  | cons field fields ih => exact ih (h.setField it field.1 field.2)

theorem IsTable.setFields {table : List Entity} (ht : IsTable h x table) (it : ObjectId)
    (fields : List (String × Entity)) : IsTable (h.setFields it fields) x table := by
  induction fields generalizing h with
  | nil => exact ht
  | cons field fields ih => exact ih (ht.setField it field.1 field.2)

theorem get_setFields (h : Heap) (it : ObjectId) (fields : List (String × Entity)) :
    (h.setFields it fields).store.get it =
      fields.foldl (fun (get : String → Option Entity) field =>
        Function.update get field.1 (some field.2)) (h.store.get it) := by
  induction fields generalizing h with
  | nil => rfl
  | cons field fields ih =>
    refine (ih (h.setField it field.1 field.2)).trans ?_
    rw [Heap.setField, get_setMember_update]
    rfl

theorem clearFields_eq_setFields (h : Heap) (it : ObjectId) (ids : List String) :
    h.clearFields it ids = h.setFields it (ids.map fun id => (id, .none)) := by
  rw [Heap.clearFields, Heap.setFields, List.foldl_map]

theorem get_clearFields (h : Heap) (it : ObjectId) (ids : List String) (id : String) :
    (h.clearFields it ids).store.get it id =
      if id ∈ ids then some .none else h.store.get it id := by
  induction ids generalizing h with
  | nil => rfl
  | cons id' ids ih =>
    have hget : (h.setField it id' .none).store.get it =
        Function.update (h.store.get it) id' (some .none) := get_setMember_update _ _ _ _
    refine (ih (h.setField it id' .none)).trans ?_
    rw [hget]
    by_cases hmem : id ∈ ids
    · rw [if_pos hmem, if_pos (List.mem_cons_of_mem id' hmem)]
    · rw [if_neg hmem]
      by_cases heq : id = id'
      · rw [heq, Function.update_self, if_pos List.mem_cons_self]
      · have hnot : id ∉ id' :: ids := fun h => (List.mem_cons.mp h).elim heq hmem
        rw [Function.update_of_ne heq, if_neg hnot]

/-- `Iterator.new` sets the two fields with the closures. -/
theorem iteratorNew_spec (xs : ObjectId → Option (Contents L)) (hL : L.Proper)
    (hbound : it < h.store.nextObject) (hiter : L.IsIterator (h.store.cls it)) (f g : Entity) :
    ∃ h', iteratorNew L h it f g = some h' ∧ Leaves L xs (fun o => o = it) h h' ∧
      h'.store.get it "has_next" = some f ∧ h'.store.get it "next" = some g ∧
      ∀ id ∉ ["has_next", "next"], h'.store.get it id = h.store.get it id := by
  have hl₁ : Leaves L xs (fun o => o = it) h (h.tuple [f, g]).2 := leaves_tuple h [f, g]
  have hobject₁ : (h.tuple [f, g]).2.store.objects it = h.store.objects it :=
    Store.objects_heapNewWith_ne h.store _ _ (Nat.ne_of_lt hbound)
  have hbound₁ := Nat.lt_of_lt_of_le hbound hl₁.nextObject
  have hprevious : ∀ d, none = some d → d < (h.tuple [f, g]).2.contexts.next := fun d hd => by
    cases hd
  obtain ⟨c, h₂, henter, he⟩ := enter_spec L xs (h.tuple [f, g]).2 (L.function .iteratorNew) it
    hprevious
  have hl₂ := he.leaves fun o => o = it
  have hiter₂ : L.IsIterator (h₂.store.cls it) := by
    rw [hl₂.cls it hbound₁, hl₁.cls it hbound]
    exact hiter
  let h₃ := h₂.setFields it
    [("has_next", .none), ("next", .none), ("has_next", f), ("next", g)]
  have hl₃ : Leaves L xs (fun o => o = it) h₂ h₃ :=
    leaves_setFields _ rfl hL (Nat.lt_of_lt_of_le hbound₁ hl₂.nextObject) hiter₂
  have hget := get_setFields h₂ it
    [("has_next", .none), ("next", .none), ("has_next", f), ("next", g)]
  simp only [List.foldl_cons, List.foldl_nil] at hget
  refine ⟨h₃, ?_, (hl₁.trans hl₂).trans hl₃, ?_, ?_, ?_⟩
  · simp only [iteratorNew, henter, Option.map_some]
    rfl
  · rw [hget, Function.update_of_ne (by decide), Function.update_self]
  · rw [hget, Function.update_self]
  · intro id hid
    obtain ⟨hne, hid'⟩ := not_or.mp (mt List.mem_cons.mpr hid)
    have hne' : id ≠ "next" := fun h => hid' (List.mem_singleton.mpr h)
    rw [hget, Function.update_of_ne hne', Function.update_of_ne hne, Function.update_of_ne hne',
      Function.update_of_ne hne, get_of_objects (he.objects it hbound₁), get_of_objects hobject₁]

/-- What the constructor of an index iterator over `x` is given. -/
inductive Args (h : Heap) (x : ObjectId) (size : Nat) : Entity → Prop where
  | array {table : List Entity} (hcls : h.store.cls x = .Array) (ht : IsTable h x table)
      (hsize : table.length = size) : Args h x size (.obj x)
  | tuple {t : ObjectId} (hcls : h.store.cls t = .Tuple)
      (ht : IsTable h t [.obj x, .int 0, .int (wrap32 size)]) : Args h x size (.obj t)

theorem isA_self {cls : ClassId} (hcls : h.store.cls o = cls) : h.isA (.obj o) cls = true := by
  rw [Heap.isA, hcls, Store.inheritsFrom]
  exact decide_eq_true List.mem_cons_self

theorem not_isA {cls : ClassId} (hne : cls ≠ h.store.cls o)
    (hnot : cls ∉ (h.store.classes (h.store.cls o)).supers) : h.isA (.obj o) cls = false := by
  rw [Heap.isA, Store.inheritsFrom]
  exact decide_eq_false fun hmem => (List.mem_cons.mp hmem).elim hne hnot

/-- The bounds of an iteration, as the constructor sets them from either kind of argument. -/
def Heap.bounded (h : Heap) (it x : ObjectId) (size : Nat) : Heap :=
  ((h.setField it "indexable" (.obj x)).setField it "start" (.int 0)).setField it "end"
    (.int (wrap32 size))

/-- The three assignments of the bounds go to the fields. -/
theorem assign_bounds (x : ObjectId) (size : Nat) (hin : Inside h c it ["args"])
    (hfields : ∀ id ∈ ["indexable", "start", "end"], (h.store.get it id).isSome) :
    ((h.assign c "indexable" (.obj x)) = h.setField it "indexable" (.obj x)) ∧
      (h.setField it "indexable" (.obj x)).assign c "start" (.int 0) =
        (h.setField it "indexable" (.obj x)).setField it "start" (.int 0) ∧
      ((h.setField it "indexable" (.obj x)).setField it "start" (.int 0)).assign c "end"
        (.int (wrap32 size)) = h.bounded it x size := by
  have hin₁ := hin.setField "indexable" (.obj x)
  have hin₂ := hin₁.setField "start" (.int 0)
  have hhas : ∀ (h : Heap) (id id' : String) (e : Entity), (h.store.get it id).isSome →
      ((h.setField it id' e).store.get it id).isSome := by
    intro h id id' e hsome
    rw [Heap.setField, get_setMember_update]
    by_cases heq : id = id'
    · rw [heq, Function.update_self]
      rfl
    · rw [Function.update_of_ne heq]
      exact hsome
  have hstart := hhas h "start" "indexable" (.obj x) (hfields _ (by decide))
  have hend := hhas h "end" "indexable" (.obj x) (hfields _ (by decide))
  refine ⟨hin.assign (by decide) (hfields _ (by decide)), hin₁.assign (by decide) hstart, ?_⟩
  exact hin₂.assign (by decide) (hhas _ "end" "start" (.int 0) hend)

theorem setBounds_spec (hin : Inside h c it ["args"])
    (hvar : h.store.get (h.contexts.context c).memberObj "args" = some args)
    (hfields : ∀ id ∈ ["indexable", "start", "end"], (h.store.get it id).isSome)
    (hloaded : Loaded L h.store) (hargs : Args h x size args) :
    setBounds h c = some (h.bounded it x size) := by
  have hread : h.lookup c "args" = (args, h) := lookup_variable (by decide) hvar
  obtain ⟨hsetIndexable, hsetStart, hsetEnd⟩ := assign_bounds x size hin hfields
  cases hargs with
  | @array table hcls ht hsize =>
    have hlen := ((ht.setField it "indexable" (.obj x)).setField it "start" (.int 0)).len
    rw [hsize] at hlen
    rw [setBounds]
    simp only [hread, isA_self hcls, Bool.true_or, if_true, hsetIndexable, hsetStart, hlen,
      Option.map_some, hsetEnd]
  | @tuple t hcls ht =>
    obtain ⟨harray, hstring⟩ := hloaded.tuples
    have hnotArray : h.isA (.obj t) .Array = false :=
      not_isA (by rw [hcls]; exact ClassId.noConfusion) (by rw [hcls]; exact harray)
    have hnotString : h.isA (.obj t) .String = false :=
      not_isA (by rw [hcls]; exact ClassId.noConfusion) (by rw [hcls]; exact hstring)
    have ht₁ := ht.setField it "indexable" (.obj x)
    have ht₂ := ht₁.setField it "start" (.int 0)
    have hfirst := elementOf_table ht (i := 0) rfl
    have hsecond := elementOf_table ht₁ (i := 0 + 1) rfl
    have hthird := elementOf_table ht₂ (i := 0 + 1 + 1) rfl
    rw [setBounds]
    simp only [hread, hnotArray, hnotString, Bool.or_self, Bool.false_eq_true, if_false,
      isA_self hcls, if_true, Heap.destructure, hfirst, hsetIndexable, hsecond, hsetStart, hthird,
      hsetEnd]

theorem ne_anonName (hL : L.Proper) (b : Body) {id : String} (hid : isAnonName id = false) :
    id ≠ L.anonName b := by
  rintro rfl
  exact Bool.false_ne_true (hid.symm.trans (hL.anon b))

theorem anonName_not_mem (hL : L.Proper) (b : Body) (hids : ∀ id ∈ ids, isAnonName id = false) :
    L.anonName b ∉ ids := fun hmem => ne_anonName hL b (hids _ hmem) rfl

theorem Captured.apart (hc : Captured n h c it) (hiter : L.IsIterator (h.store.cls it)) :
    (h.contexts.context c).memberObj ≠ it := by
  intro heq
  rw [← heq] at hiter
  exact hiter.ne_object hc.membersCls

theorem Captured.inside (hc : Captured n h c it) (hiter : L.IsIterator (h.store.cls it)) :
    Inside h c it ["args"] := by
  have hchain : h.contexts.chain c = [c] := by
    rw [Contexts.chain_eq, hc.previous]
    rfl
  constructor
  · exact hc.self
  · intro d hd id hid
    rw [hchain, List.mem_singleton] at hd
    rw [hd]
    exact hc.unbound id hid
  · intro d hd
    rw [hchain, List.mem_singleton] at hd
    rw [hd]
    exact hc.apart hiter

/-- Object `r` is the closure `f` of `it` over the context `c`. -/
structure IsClosure (h : Heap) (r it : ObjectId) (f : FunctionId) (c : ContextId) : Prop where
  bound : r < h.store.nextObject
  cls : h.store.cls r = .FunctionRef
  internal : h.store.internal r = .functionRef it f (some c)

theorem IsClosure.leaves {r : ObjectId} {f : FunctionId} (hr : IsClosure h r it f c)
    (hl : Leaves L xs p h h') : IsClosure h' r it f c where
  bound := Nat.lt_of_lt_of_le hr.bound hl.nextObject
  cls := (hl.cls r hr.bound).trans hr.cls
  internal := (hl.reference r hr.bound hr.cls).trans hr.internal

theorem IsClosure.hasClosure {r : ObjectId} {f : FunctionId} {id : String}
    (hr : IsClosure h r it f c) (hget : h.store.get o id = some (.obj r))
    (hc : Captured n h c it) : HasClosure n h o id it f :=
  ⟨r, c, hget, hr.bound, hr.cls, hr.internal, hc⟩

/-- An anonymous function in a constructor becomes a closure over the context of this call. -/
theorem closure_spec (xs : ObjectId → Option (Contents L)) (hc : Captured n h c it) (hL : L.Proper)
    (hbound : it < h.store.nextObject) (hiter : L.IsIterator (h.store.cls it)) {b : Body}
    (hget : h.store.get it (L.anonName b) = none)
    (hmethod : h.store.classGetFunction (h.store.cls it) (L.anonName b) = some (L.function b))
    (hanon : (h.store.functions (L.function b)).isAnon) :
    ∃ r h', h.lookup c (L.anonName b) = (.obj r, h') ∧ Leaves L xs (fun o => o = it) h h' ∧
      IsClosure h' r it (L.function b) c ∧
      ∀ id, h'.store.get it id = if id = L.anonName b then some (.obj r) else h.store.get it id := by
  have hargs : L.anonName b ∉ ["args"] := anonName_not_mem hL b (by decide)
  have hread := (hc.inside hiter).lookup_method hargs (ne_anonName hL b (by decide)).symm hget
    hmethod
  let h₁ : Heap := { h with store := (h.store.wrapFunctionInRef (L.function b) it c).2 }
  have hl₁ : Leaves L xs (fun o => o = it) h h₁ := leaves_heapNewWith h _ _
  have hobject : h₁.store.objects it = h.store.objects it :=
    Store.objects_heapNewWith_ne h.store _ _ (Nat.ne_of_lt hbound)
  have hl₂ : Leaves L xs (fun o => o = it) h₁
      (h₁.setField it (L.anonName b) (.obj h.store.nextObject)) := by
    apply leaves_setIterator (p := fun o => o = it) rfl hL (Nat.lt_of_lt_of_le hbound hl₁.nextObject)
    rw [hl₁.cls it hbound]
    exact hiter
  refine ⟨h.store.nextObject, _, hread, hl₁.trans hl₂, ⟨Nat.lt_succ_self _, ?_, ?_⟩, ?_⟩
  · rw [Heap.setField, Store.cls_setMember]
    exact Store.cls_heapNewWith h.store _ _
  · rw [Heap.setField, Store.internal_setMember]
    refine (Store.internal_heapNewWith h.store _ _).trans ?_
    rw [if_pos hanon]
  · intro id
    have hupdate : (h₁.setField it (L.anonName b) (.obj h.store.nextObject)).store.get it =
        Function.update (h₁.store.get it) (L.anonName b) (some (.obj h.store.nextObject)) :=
      get_setMember_update _ _ _ _
    refine (congrFun hupdate id).trans ?_
    rw [Function.update_apply, get_of_objects hobject]

/-- The constructor of the iterator `it` has come from `h` to `h'`, in the context `c`. -/
structure Constructing (L : Library) (xs : ObjectId → Option (Contents L)) (n : Nat) (h h' : Heap)
    (c : ContextId) (it : ObjectId) : Prop where
  loaded : Loaded L h'.store
  bound : it < h'.store.nextObject
  iterator : L.IsIterator (h'.store.cls it)
  leaves : Leaves L xs (fun o => o = it) h h'
  captured : Captured n h' c it

theorem Constructing.step (hc : Constructing L xs n h h' c it)
    (hl : Leaves L xs (fun o => o = it) h' h'') : Constructing L xs n h h'' c it where
  loaded := hl.loaded hc.loaded
  bound := Nat.lt_of_lt_of_le hc.bound hl.nextObject
  iterator := by
    rw [hl.cls it hc.bound]
    exact hc.iterator
  leaves := hc.leaves.trans hl
  captured := by
    apply hc.captured.leaves hl _ hc.bound hc.iterator
    rintro o - rfl
    exact hc.iterator

theorem Constructing.setFields (hc : Constructing L xs n h h' c it) (hL : L.Proper)
    (fields : List (String × Entity)) : Constructing L xs n h (h'.setFields it fields) c it :=
  hc.step (leaves_setFields fields rfl hL hc.bound hc.iterator)

/-- The class of the iterator is the one it was made with. -/
theorem Constructing.cls_eq (hc : Constructing L xs n h h' c it) (hbound : it < h.store.nextObject) :
    h'.store.cls it = h.store.cls it := hc.leaves.cls it hbound

theorem Constructing.closure (hc : Constructing L xs n h h' c it) (hL : L.Proper) {b : Body}
    (hget : h'.store.get it (L.anonName b) = none)
    (hmethod : h'.store.classGetFunction (h'.store.cls it) (L.anonName b) = some (L.function b))
    (hb : b = .hasNext ∨ b = .next ∨ b = .kvNext) :
    ∃ r h'', h'.lookup c (L.anonName b) = (.obj r, h'') ∧ Leaves L xs (fun o => o = it) h' h'' ∧
      Constructing L xs n h h'' c it ∧ IsClosure h'' r it (L.function b) c ∧
      ∀ id, h''.store.get it id = if id = L.anonName b then some (.obj r) else h'.store.get it id := by
  obtain ⟨r, h'', hread, hl, hr, hget'⟩ := closure_spec xs hc.captured hL hc.bound hc.iterator hget
    hmethod (hc.loaded.closures b hb)
  exact ⟨r, h'', hread, hl, hc.step hl, hr, hget'⟩

/-- The context of a constructor after its parameter is declared, or with none. -/
theorem Entered.captured (he : Entered L xs h h' c it none) :
    Captured h'.store.nextObject h' c it where
  bound := he.bound
  self := he.self
  previous := he.previous
  older := Nat.le_refl _
  membersBound := he.membersBound
  membersCls := he.membersCls
  unbound := fun id _ => he.empty id

theorem Captured.setFields (hc : Captured n h c it) (fields : List (String × Entity))
    (hne : (h.contexts.context c).memberObj ≠ it) : Captured n (h.setFields it fields) c it := by
  induction fields generalizing h with
  | nil => exact hc
  | cons field fields ih =>
    apply ih (h := h.setField it field.1 field.2) _ hne
    refine ⟨hc.bound, hc.self, hc.previous, hc.older, hc.membersBound, ?_, ?_⟩
    · exact (Store.cls_setMember h.store it _ _ _).trans hc.membersCls
    · intro id hid
      exact (Store.get_setMember_ne h.store _ id _ hne).trans (hc.unbound id hid)

theorem Captured.declare (hc : Captured n h c it) (e : Entity) :
    Captured n (h.declare c "args" e) c it := by
  refine ⟨hc.bound, hc.self, hc.previous, hc.older, hc.membersBound, ?_, ?_⟩
  · exact (Store.cls_setMember h.store _ _ _ _).trans hc.membersCls
  · intro id hid
    have hne : id ≠ "args" := fun h => hid (List.mem_singleton.mpr h)
    exact (get_setMember_other h.store _ _ _ hne).trans (hc.unbound id hid)

/-- The arguments are the same where no class and no table has changed. -/
theorem Args.transport (ha : Args h x size args)
    (hcls : ∀ o < h.store.nextObject, h'.store.cls o = h.store.cls o)
    (htable : ∀ o table, IsTable h o table → IsTable h' o table) : Args h' x size args := by
  cases ha with
  | array hkind ht hsize => exact .array ((hcls _ ht.bound).trans hkind) (htable _ _ ht) hsize
  | tuple hkind ht => exact .tuple ((hcls _ ht.bound).trans hkind) (htable _ _ ht)

/-- A constructor up to its parameters: the fields of the class are None. -/
theorem cleared_spec (xs : ObjectId → Option (Contents L)) (f : FunctionId) (ids : List String)
    (hL : L.Proper) (hloaded : Loaded L h.store) (hbound : it < h.store.nextObject)
    (hiter : L.IsIterator (h.store.cls it)) (hempty : ∀ id, h.store.get it id = none) :
    ∃ c h₁ h₂, h.enter f it none = some (c, h₁) ∧ h₁.clearFields it ids = h₂ ∧
      Constructing L xs h₂.store.nextObject h h₂ c it ∧
      h.store.nextObject ≤ (h₂.contexts.context c).memberObj ∧
      (∀ o table, IsTable h o table → IsTable h₂ o table) ∧
      ∀ id, h₂.store.get it id = if id ∈ ids then some .none else none := by
  have hprevious : ∀ d, none = some d → d < h.contexts.next := fun d hd => by cases hd
  obtain ⟨c, h₁, henter, he⟩ := enter_spec L xs h f it hprevious
  have hne : (h₁.contexts.context c).memberObj ≠ it :=
    Nat.ne_of_gt (Nat.lt_of_lt_of_le hbound he.members)
  have hl₁ := he.leaves fun o => o = it
  have hstart : Constructing L xs h₁.store.nextObject h h₁ c it := by
    refine ⟨hl₁.loaded hloaded, Nat.lt_of_lt_of_le hbound hl₁.nextObject, ?_, hl₁, he.captured⟩
    rw [hl₁.cls it hbound]
    exact hiter
  have hset := clearFields_eq_setFields h₁ it ids
  refine ⟨c, h₁, h₁.clearFields it ids, henter, rfl, ?_, ?_, ?_, ?_⟩
  · rw [hset, nextObject_setFields]
    exact hstart.setFields hL _
  · rw [hset, contexts_setFields]
    exact he.members
  · intro o table ht
    rw [hset]
    exact (ht.entered he).setFields it _
  · intro id
    rw [get_clearFields, get_of_objects (he.objects it hbound), hempty]

/-- The constructor of an index iterator up to the declaration of its parameter. -/
theorem declared_spec (xs : ObjectId → Option (Contents L)) (f : FunctionId) (ids : List String)
    (hL : L.Proper) (hloaded : Loaded L h.store) (hbound : it < h.store.nextObject)
    (hiter : L.IsIterator (h.store.cls it)) (hempty : ∀ id, h.store.get it id = none)
    (hargs : Args h x size args) :
    ∃ c h₁ h₂, h.enter f it none = some (c, h₁) ∧
      (h₁.clearFields it ids).declare c "args" args = h₂ ∧
      Constructing L xs h₂.store.nextObject h h₂ c it ∧
      h₂.store.get (h₂.contexts.context c).memberObj "args" = some args ∧ Args h₂ x size args ∧
      ∀ id, h₂.store.get it id = if id ∈ ids then some .none else none := by
  obtain ⟨c, h₁, h₂, henter, rfl, hc, hmembers, htables, hget⟩ := cleared_spec xs f ids hL hloaded
    hbound hiter hempty
  let h₂ := h₁.clearFields it ids
  have hl : Leaves L xs (fun o => o = it ∨ h.store.nextObject ≤ o) h₂
      (h₂.declare c "args" args) := by
    apply leaves_setField (.inr hmembers) (hc.captured.reserved hc.bound hc.iterator)
    rw [hc.captured.membersCls]
    exact ClassId.noConfusion
  have hcls : (h₂.declare c "args" args).store.cls it = h₂.store.cls it :=
    Store.cls_setMember h₂.store _ it _ _
  have hl' := (hc.leaves.mono fun o ho => .inl ho).trans hl
  refine ⟨c, h₁, h₂.declare c "args" args, henter, rfl, ⟨hl.loaded hc.loaded, hc.bound, ?_, hl'.old,
    hc.captured.declare args⟩, ?_, ?_, ?_⟩
  · rw [hcls]
    exact hc.iterator
  · exact Store.get_setMember_self h₂.store _ _ _
  · apply hargs.transport hl'.cls
    intro o table ht
    exact (htables o table ht).setField _ _ _
  · intro id
    rw [← hget]
    exact Store.get_setMember_ne _ _ _ _ (Nat.ne_of_lt (Nat.lt_of_lt_of_le hbound hmembers))

/-! ## The constructor of an index iterator -/

/-- The fields that the constructor of an index iterator assigns, in order. -/
def indexFields (x : ObjectId) (size : Nat) : List (String × Entity) :=
  [("indexable", .obj x), ("start", .int 0), ("end", .int (wrap32 size)), ("i", .int (-1)),
    ("index", .int (-1))]

/-- What the fields are after the assignments. -/
structure Counting (h : Heap) (it x : ObjectId) (size : Nat) : Prop where
  indexable : h.store.get it "indexable" = some (.obj x)
  last : h.store.get it "end" = some (.int (wrap32 size))
  i : h.store.get it "i" = some (.int (-1))
  index : h.store.get it "index" = some (.int (-1))

theorem counting_indexFields (h : Heap) (it x : ObjectId) (size : Nat) :
    Counting (h.setFields it (indexFields x size)) it x size := by
  have hget := get_setFields h it (indexFields x size)
  simp only [indexFields, List.foldl_cons, List.foldl_nil] at hget
  constructor
  · rw [indexFields, hget, Function.update_of_ne (by decide), Function.update_of_ne (by decide),
      Function.update_of_ne (by decide), Function.update_of_ne (by decide), Function.update_self]
  · rw [indexFields, hget, Function.update_of_ne (by decide), Function.update_of_ne (by decide),
      Function.update_self]
  · rw [indexFields, hget, Function.update_of_ne (by decide), Function.update_self]
  · rw [indexFields, hget, Function.update_self]

theorem get_setFields_of_not_mem (h : Heap) (it : ObjectId) {fields : List (String × Entity)}
    {id : String} (hid : id ∉ fields.map Prod.fst) :
    (h.setFields it fields).store.get it id = h.store.get it id := by
  induction fields generalizing h with
  | nil => rfl
  | cons field fields ih =>
    rw [List.map_cons] at hid
    obtain ⟨hne, hid⟩ := not_or.mp (mt List.mem_cons.mpr hid)
    refine (ih (h.setField it field.1 field.2) hid).trans ?_
    rw [Heap.setField, get_setMember_update, Function.update_of_ne hne]

/-- The body of the constructor up to the closures assigns these fields. -/
theorem counters_spec (hin : Inside h c it ["args"])
    (hvar : h.store.get (h.contexts.context c).memberObj "args" = some args)
    (hfields : ∀ id ∈ ["indexable", "start", "end", "i", "index"], (h.store.get it id).isSome)
    (hloaded : Loaded L h.store) (hargs : Args h x size args) :
    ∃ h₁ h₂, setBounds h c = some h₁ ∧ h₁.assign c "i" (.int (-1)) = h₂ ∧
      h₂.lookup c "start" = (.int 0, h₂) ∧
      h₂.assign c "index" (.int (-1)) = h.setFields it (indexFields x size) := by
  have hbounds := setBounds_spec hin hvar
    (fun id hid => hfields id (List.mem_append_left ["i", "index"] hid)) hloaded hargs
  let h₁ := h.bounded it x size
  let h₂ := h₁.setField it "i" (.int (-1))
  have hin₁ : Inside h₁ c it ["args"] := ((hin.setField _ _).setField _ _).setField _ _
  have hin₂ : Inside h₂ c it ["args"] := hin₁.setField _ _
  have hget₁ : h₁.store.get it = Function.update (Function.update (Function.update
      (h.store.get it) "indexable" (some (.obj x))) "start" (some (.int 0))) "end"
      (some (.int (wrap32 size))) :=
    get_setFields h it [("indexable", .obj x), ("start", .int 0), ("end", .int (wrap32 size))]
  have hget₂ : h₂.store.get it = Function.update (h₁.store.get it) "i" (some (.int (-1))) :=
    get_setMember_update h₁.store it _ _
  refine ⟨h₁, h₂, hbounds, ?_, ?_, ?_⟩
  · apply hin₁.assign (by decide)
    rw [hget₁, Function.update_of_ne (by decide), Function.update_of_ne (by decide),
      Function.update_of_ne (by decide)]
    exact hfields "i" (by decide)
  · apply hin₂.lookup (by decide) (by decide) _ (anonFunction_int _ 0)
    rw [hget₂, Function.update_of_ne (by decide), hget₁, Function.update_of_ne (by decide),
      Function.update_self]
  · apply hin₂.assign (by decide)
    rw [hget₂, Function.update_of_ne (by decide), hget₁, Function.update_of_ne (by decide),
      Function.update_of_ne (by decide), Function.update_of_ne (by decide)]
    exact hfields "index" (by decide)

/-- What has been made in a constructor with both closures is at the start. -/
theorem Counting.indexCursor {r r' : ObjectId} (hfields : Counting h' it x size)
    (hc : Constructing L xs n h h' c it) (hcls : h'.store.cls it = .user L.indexIterator)
    (hhasNext : IsClosure h' r it (L.function .hasNext) c)
    (hgetHasNext : h'.store.get it "has_next" = some (.obj r))
    (hnext : IsClosure h' r' it (L.function .next) c)
    (hgetNext : h'.store.get it "next" = some (.obj r')) :
    IndexCursor L h'.store.nextObject h' it x size 0 := by
  have hcaptured := hc.captured.mono hc.captured.older (Nat.le_refl _)
  constructor
  · exact hc.bound
  · exact hcls
  · exact hfields.indexable
  · exact hfields.last
  · exact hfields.i
  · exact hfields.index
  · exact hhasNext.hasClosure hgetHasNext hcaptured
  · exact hnext.hasClosure hgetNext hcaptured

/-- The constructor of an index iterator makes one at the start. -/
theorem indexIteratorNew_spec (xs : ObjectId → Option (Contents L)) (hL : L.Proper)
    (hloaded : Loaded L h.store) (hbound : it < h.store.nextObject)
    (hcls : h.store.cls it = .user L.indexIterator) (hempty : ∀ id, h.store.get it id = none)
    (hargs : Args h x size args) :
    ∃ h', indexIteratorNew L h it args = some h' ∧ Leaves L xs (fun o => o = it) h h' ∧
      IndexCursor L h'.store.nextObject h' it x size 0 := by
  obtain ⟨c, h₁, h₂, henter, hdeclare, hc₂, hvar, hargs₂, hget₂⟩ := declared_spec xs
    (L.function .indexIteratorNew) ["indexable", "start", "end", "i", "index"] hL hloaded hbound
    (.inl hcls) hempty hargs
  -- the bounds and the counters
  have hfields₂ : ∀ id ∈ ["indexable", "start", "end", "i", "index"],
      (h₂.store.get it id).isSome := by
    intro id hid
    rw [hget₂, if_pos hid]
    rfl
  obtain ⟨h₃, h₄, hbounds, hsetI, hstart, hsetIndex⟩ := counters_spec
    (hc₂.captured.inside hc₂.iterator) hvar hfields₂ hc₂.loaded hargs₂
  let h₅ := h₂.setFields it (indexFields x size)
  have hc₅ : Constructing L xs h₂.store.nextObject h h₅ c it := hc₂.setFields hL _
  have hcounting : Counting h₅ it x size := counting_indexFields h₂ it x size
  have hfree₅ : ∀ b, h₅.store.get it (L.anonName b) = none := by
    intro b
    have hnot : L.anonName b ∉ ["indexable", "start", "end", "i", "index"] :=
      anonName_not_mem hL b (by decide)
    exact (get_setFields_of_not_mem h₂ it hnot).trans ((hget₂ _).trans (if_neg hnot))
  -- the closures, the one that is passed last first
  have hmethod : ∀ {h' : Heap}, Constructing L xs h₂.store.nextObject h h' c it →
      h'.store.cls it = .user L.indexIterator := fun hc => (hc.cls_eq hbound).trans hcls
  obtain ⟨rn, h₆, hreadNext, -, hc₆, hnext₆, hget₆⟩ := hc₅.closure hL (hfree₅ .next)
    ((congrArg (h₅.store.classGetFunction · _) (hmethod hc₅)).trans hc₅.loaded.next)
    (.inr (.inl rfl))
  have hfree₆ : h₆.store.get it (L.anonName .hasNext) = none := by
    rw [hget₆, if_neg hL.names]
    exact hfree₅ .hasNext
  obtain ⟨rh, h₇, hreadHasNext, hl₇, hc₇, hhasNext₇, hget₇⟩ := hc₆.closure hL hfree₆
    ((congrArg (h₆.store.classGetFunction · _) (hmethod hc₆)).trans hc₆.loaded.hasNext) (.inl rfl)
  obtain ⟨h₈, hsuper, hl₈, hhasNext₈, hnext₈, hget₈⟩ := iteratorNew_spec xs hL hc₇.bound
    hc₇.iterator (.obj rh) (.obj rn)
  have hc₈ := hc₇.step hl₈
  have hfield : ∀ id, isAnonName id = false → id ∉ ["has_next", "next"] →
      h₈.store.get it id = h₅.store.get it id := by
    intro id hid hmem
    rw [hget₈ id hmem, hget₇, if_neg (ne_anonName hL _ hid), hget₆, if_neg (ne_anonName hL _ hid)]
  have hcounting₈ : Counting h₈ it x size := by
    constructor
    · exact (hfield _ (by decide) (by decide)).trans hcounting.indexable
    · exact (hfield _ (by decide) (by decide)).trans hcounting.last
    · exact (hfield _ (by decide) (by decide)).trans hcounting.i
    · exact (hfield _ (by decide) (by decide)).trans hcounting.index
  refine ⟨h₈, ?_, hc₈.leaves, hcounting₈.indexCursor hc₈ (hmethod hc₈) (hhasNext₇.leaves hl₈)
    hhasNext₈ ((hnext₆.leaves hl₇).leaves hl₈) hnext₈⟩
  have hfirst : binary .SUB (.int 0) (.int 1) = some (.int (-1)) := rfl
  simp only [indexIteratorNew, henter, hdeclare, hbounds, hsetI, hstart, hfirst, hsetIndex,
    Option.bind_eq_bind, Option.bind_some]
  rw [show (h₂.setFields it (indexFields x size)).lookup c (L.anonName .next) = (.obj rn, h₆) from
    hreadNext]
  simp only [hreadHasNext]
  exact hsuper

/-- `IndexIterator(args)` is a new iterator at the start. -/
theorem newIndexIterator_spec (xs : ObjectId → Option (Contents L)) (hL : L.Proper)
    (hloaded : Loaded L h.store) (hargs : Args h x size args) :
    ∃ it h', newIndexIterator L h args = some (it, h') ∧ h.store.nextObject ≤ it ∧
      (∀ p, Leaves L xs p h h') ∧
      IndexCursor L h'.store.nextObject h' it x size 0 := by
  let it := h.store.nextObject
  let h₁ := (h.new (.user L.indexIterator)).2
  have hl₁ : ∀ p, Leaves L xs p h h₁ := fun p => leaves_new h _
  have hobjects : ∀ o < h.store.nextObject, h₁.store.objects o = h.store.objects o := fun o ho =>
    Function.update_of_ne (Nat.ne_of_lt ho) _ _
  have hcls : h₁.store.cls it = .user L.indexIterator := by
    simp [h₁, it, Heap.new, Store.heapNew, Store.cls]
  have hempty : ∀ id, h₁.store.get it id = none := by
    intro id
    simp [h₁, it, Heap.new, Store.heapNew, Store.get]
  have hargs₁ : Args h₁ x size args := by
    apply hargs.transport (hl₁ fun _ => False).cls
    intro o table ht
    exact ht.congr (Nat.le_succ _) (congrArg Object.cls (hobjects o ht.bound))
      (congrArg Object.internal (hobjects o ht.bound))
  obtain ⟨h₂, hnew, hl₂, hcur⟩ := indexIteratorNew_spec xs hL ((hl₁ fun _ => False).loaded hloaded)
    (Nat.lt_succ_self _) hcls hempty hargs₁
  refine ⟨it, h₂, ?_, Nat.le_refl _, ?_, hcur⟩
  · rw [newIndexIterator]
    exact Option.map_eq_some_iff.mpr ⟨h₂, hnew, rfl⟩
  · intro p
    apply Leaves.old
    apply (hl₁ _).trans
    apply hl₂.mono
    rintro o rfl
    exact .inr (Nat.le_refl _)

theorem arrayIter_spec (xs : ObjectId → Option (Contents L)) (hL : L.Proper)
    (hloaded : Loaded L h.store) {table : List Entity} (ht : IsTable h x table)
    (hcls : h.store.cls x = .Array) :
    ∃ it h', arrayIter L h x = some (it, h') ∧ h.store.nextObject ≤ it ∧
      (∀ p, Leaves L xs p h h') ∧
      IndexCursor L h'.store.nextObject h' it x table.length 0 := by
  have hprevious : ∀ d, none = some d → d < h.contexts.next := fun d hd => by cases hd
  obtain ⟨c, h₁, henter, he⟩ := enter_spec L xs h (L.function .arrayIter) x hprevious
  have hl₁ := he.leaves fun _ => False
  obtain ⟨it, h₂, hnew, hle, hl₂, hcur⟩ := newIndexIterator_spec xs hL (hl₁.loaded hloaded)
    (.array ((hl₁.cls x ht.bound).trans hcls) (ht.entered he) rfl)
  refine ⟨it, h₂, ?_, Nat.le_trans hl₁.nextObject hle, fun p => (he.leaves p).trans (hl₂ p), hcur⟩
  rw [arrayIter, henter]
  exact hnew

theorem tupleIter_spec (xs : ObjectId → Option (Contents L)) (hL : L.Proper)
    (hloaded : Loaded L h.store) {table : List Entity} (ht : IsTable h x table) :
    ∃ it h', tupleIter L h x = some (it, h') ∧ h.store.nextObject ≤ it ∧
      (∀ p, Leaves L xs p h h') ∧
      IndexCursor L h'.store.nextObject h' it x table.length 0 := by
  have hprevious : ∀ d, none = some d → d < h.contexts.next := fun d hd => by cases hd
  obtain ⟨c, h₁, henter, he⟩ := enter_spec L xs h (L.function .tupleIter) x hprevious
  have hl₁ := he.leaves fun _ => False
  have hlen := (ht.entered he).len
  obtain ⟨hargs, ht₂, -⟩ := tuple_spec h₁ [.obj x, .int 0, .int (wrap32 table.length)]
  have hl₂ : ∀ p, Leaves L xs p h₁ (h₁.tuple [.obj x, .int 0, .int (wrap32 table.length)]).2 :=
    fun p => leaves_tuple h₁ _
  have hcls : (h₁.tuple [.obj x, .int 0, .int (wrap32 table.length)]).2.store.cls
      h₁.store.nextObject = .Tuple := Store.cls_heapNewWith h₁.store _ _
  obtain ⟨it, h₃, hnew, hle, hl₃, hcur⟩ := newIndexIterator_spec xs hL
    ((hl₂ fun _ => False).loaded (hl₁.loaded hloaded)) (.tuple hcls ht₂)
  refine ⟨it, h₃, ?_, ?_, fun p => ((he.leaves p).trans (hl₂ p)).trans (hl₃ p), hcur⟩
  · rw [tupleIter, henter]
    simp only [Option.bind_eq_bind, Option.bind_some, hlen]
    exact hnew
  · exact Nat.le_trans (Nat.le_trans hl₁.nextObject (hl₂ fun _ => False).nextObject) hle

theorem HasClosure.field (hc : HasClosure n h o "has_next" it (L.function .hasNext))
    (hclass : h.store.cls o ≠ .Class) (caller : ContextId) :
    ∃ r, h.field caller (.obj o) "has_next" = some (.obj r, h) ∧ r < h.store.nextObject ∧
      h.store.get o "has_next" = some (.obj r) := by
  obtain ⟨r, c, hget, hr, hcls, -, -⟩ := hc
  exact ⟨r, field_closure caller hclass hget hcls, hr, hget⟩

/-- The constructor of a key iterator takes over `has_next` of the iterator over the keys. -/
theorem kvIteratorNew_spec (xs : ObjectId → Option (Contents L)) (hL : L.Proper)
    (hloaded : Loaded L h.store) (hbound : it < h.store.nextObject)
    (hcls : h.store.cls it = .user L.kvIterator) (hempty : ∀ id, h.store.get it id = none)
    {root m keys : ObjectId} (hroot : IndexCursor L n h root keys size 0)
    (hn : n ≤ h.store.nextObject) :
    ∃ h', kvIteratorNew L h it (.obj root) (.obj m) = some h' ∧
      Leaves L xs (fun o => o = it) h h' ∧
      KeyedCursor L h'.store.nextObject h' it root m keys size 0 := by
  have hne : root ≠ it := by
    rintro rfl
    rw [hroot.cls] at hcls
    exact hL.iterators (ClassId.user.inj hcls)
  -- the iterator over the keys stays where it is
  have hstays : ∀ {h' : Heap}, Leaves L xs (fun o => o = it) h h' →
      IndexCursor L n h' root keys size 0 := by
    intro h' hl
    apply hroot.leaves hl _ hne
    rintro o - rfl
    exact .inr hcls
  obtain ⟨c, h₁, h₂, henter, hclear, hc₂, -, -, hget₂⟩ := cleared_spec xs
    (L.function .kvIteratorNew) ["key_iter", "container"] hL hloaded hbound (.inr hcls) hempty
  let fields : List (String × Entity) := [("key_iter", .obj root), ("container", .obj m)]
  let h₃ := h₂.setFields it fields
  have hc₃ : Constructing L xs h₂.store.nextObject h h₃ c it := hc₂.setFields hL fields
  have hget₃ : h₃.store.get it = Function.update (Function.update (h₂.store.get it) "key_iter"
      (some (.obj root))) "container" (some (.obj m)) := get_setFields h₂ it fields
  have hfree₃ : ∀ id ∉ ["key_iter", "container"], h₃.store.get it id = none := fun id hid =>
    (get_setFields_of_not_mem h₂ it hid).trans ((hget₂ _).trans (if_neg hid))
  have hmethod : h₃.store.classGetFunction (h₃.store.cls it) (L.anonName .kvNext) =
      some (L.function .kvNext) := by
    rw [hc₃.cls_eq hbound, hcls]
    exact hc₃.loaded.kvNext
  obtain ⟨rn, h₄, hreadNext, -, hc₄, hnext₄, hget₄⟩ := hc₃.closure hL
    (hfree₃ _ (anonName_not_mem hL _ (by decide))) hmethod (.inr (.inr rfl))
  have hroot₄ := hstays hc₄.leaves
  have hkeyIter₄ : h₄.store.get it "key_iter" = some (.obj root) := by
    rw [hget₄, if_neg (ne_anonName hL _ (by decide)), hget₃, Function.update_of_ne (by decide),
      Function.update_self]
  have hreadKeyIter := (hc₄.captured.inside hc₄.iterator).lookup (by decide) (by decide) hkeyIter₄
    (anonFunction_obj hroot₄.isIterator.ne_function)
  obtain ⟨rh, hfield, -, hgetRoot⟩ := hroot₄.hasNextField.field hroot₄.isIterator.ne_class c
  obtain ⟨h₅, hsuper, hl₅, hhasNext₅, hnext₅, hget₅⟩ := iteratorNew_spec xs hL hc₄.bound
    hc₄.iterator (.obj rh) (.obj rn)
  have hc₅ := hc₄.step hl₅
  have hroot₅ : IndexCursor L h₅.store.nextObject h₅ root keys size 0 :=
    (hstays hc₅.leaves).mono (Nat.le_trans hn hc₅.leaves.nextObject) (Nat.le_refl _)
  have hother : ∀ id, isAnonName id = false → id ∉ ["has_next", "next"] →
      h₅.store.get it id = h₃.store.get it id := by
    intro id hid hmem
    rw [hget₅ id hmem, hget₄, if_neg (ne_anonName hL _ hid)]
  refine ⟨h₅, ?_, hc₅.leaves, ?_⟩
  · simp only [kvIteratorNew, henter, hclear, Option.bind_eq_bind, Option.bind_some]
    rw [show ((h₂.setField it "key_iter" (.obj root)).setField it "container" (.obj m)).lookup c
      (L.anonName .kvNext) = (.obj rn, h₄) from hreadNext]
    simp only [hreadKeyIter, hfield, Option.bind_some]
    exact hsuper
  · constructor
    · exact hc₅.bound
    · exact (hc₅.cls_eq hbound).trans hcls
    · rw [hother _ (by decide) (by decide), hget₃, Function.update_of_ne (by decide),
        Function.update_self]
    · rw [hother _ (by decide) (by decide), hget₃, Function.update_self]
    · rw [hother _ (by decide) (by decide)]
      exact hfree₃ _ (by decide)
    · -- the field of this iterator is the closure of the other one
      obtain ⟨r, c', hget, hr, hclsRef, hinternal, hcaptured⟩ := hroot₅.hasNextField
      have hsame : h₅.store.get root "has_next" = h₄.store.get root "has_next" :=
        get_of_objects (hl₅.reserved root hroot₄.reserved hne) _
      cases (hsame.symm.trans hget).symm.trans hgetRoot
      exact ⟨rh, c', hhasNext₅, hr, hclsRef, hinternal, hcaptured⟩
    · exact (hnext₄.leaves hl₅).hasClosure hnext₅
        (hc₅.captured.mono hc₅.captured.older (Nat.le_refl _))
    · exact hroot₅

theorem mapIter_spec (xs : ObjectId → Option (Contents L)) (hL : L.Proper) (hloaded : Loaded L h.store)
    {m keys : ObjectId} {table : List Entity} {support : Support L}
    (hholds : Holds L h m (.keyed keys table support)) :
    ∃ it root h', mapIter L h m = some (it, h') ∧ h.store.nextObject ≤ it ∧
      h.store.nextObject ≤ root ∧ (∀ p, Leaves L xs p h h') ∧
      KeyedCursor L h'.store.nextObject h' it root m keys table.length 0 := by
  obtain _ | ⟨hbound, hmap, hkeys, harray, ht, -⟩ := hholds
  have hprevious : ∀ d, none = some d → d < h.contexts.next := fun d hd => by cases hd
  obtain ⟨c, h₁, henter, he⟩ := enter_spec L xs h (L.function .mapIter) m hprevious
  have hl₁ := he.leaves fun _ => False
  have harray₁ : h₁.store.cls keys = .Array := (hl₁.cls keys ht.bound).trans harray
  have hread : h₁.lookup c "keys" = (.obj keys, h₁) := by
    apply (he.inside_none hbound).lookup (by decide) (by decide)
    · rw [get_of_objects (he.objects m hbound)]
      exact hkeys
    · apply anonFunction_obj
      rw [harray₁]
      exact ClassId.noConfusion
  obtain ⟨root, h₂, hnewRoot, hleRoot, hl₂, hroot⟩ := arrayIter_spec xs hL (hl₁.loaded hloaded)
    (ht.entered he) harray₁
  let h₃ := (h₂.tuple [.obj root, .obj m]).2
  have hl₃ : ∀ p, Leaves L xs p h₂ h₃ := fun p => leaves_tuple h₂ _
  let it := h₃.store.nextObject
  let h₄ := (h₃.new (.user L.kvIterator)).2
  have hl₄ : ∀ p, Leaves L xs p h₃ h₄ := fun p => leaves_new h₃ _
  have hcls : h₄.store.cls it = .user L.kvIterator := by
    simp [h₄, it, Heap.new, Store.heapNew, Store.cls]
  have hempty : ∀ id, h₄.store.get it id = none := by
    intro id
    simp [h₄, it, Heap.new, Store.heapNew, Store.get]
  have hl : ∀ p, Leaves L xs p h h₄ := fun p =>
    (((he.leaves p).trans (hl₂ p)).trans (hl₃ p)).trans (hl₄ p)
  have hle : h.store.nextObject ≤ it :=
    (((he.leaves fun _ => False).trans (hl₂ _)).trans (hl₃ _)).nextObject
  have hroot₄ : IndexCursor L h₂.store.nextObject h₄ root keys table.length 0 :=
    hroot.leaves ((hl₃ fun _ => False).trans (hl₄ _)) (fun _ _ hfalse => hfalse.elim) id
  obtain ⟨h₅, hnew, hl₅, hcur⟩ := kvIteratorNew_spec xs hL ((hl fun _ => False).loaded hloaded)
    (Nat.lt_succ_self _) hcls hempty hroot₄ ((hl₃ fun _ => False).trans (hl₄ _)).nextObject
  refine ⟨it, root, h₅, ?_, hle, Nat.le_trans hl₁.nextObject hleRoot, ?_, hcur⟩
  · rw [mapIter, henter]
    simp only [Option.bind_eq_bind, Option.bind_some, hread, if_pos harray₁, hnewRoot]
    exact Option.map_eq_some_iff.mpr ⟨h₅, hnew, rfl⟩
  · intro p
    apply Leaves.old
    apply (hl _).trans
    apply hl₅.mono
    rintro o rfl
    exact .inr hle

end Constructors

end Iterators

end JeffVm
