import JeffVm.Execute

/-!
# Methods along the class chain

`object_get_maybe_wrap` looks for a declared function up the classes, and then for a FunctionRef
that `$set_method` put into their reflections. The second walk looks at the first class only.
-/

set_option autoImplicit false

namespace JeffVm

namespace Store

/-- The text of an entity that passes `IS_CLASS(e, Class_String)`. -/
def textOf (s : Store) (e : Entity) : Option String :=
  match e with
  | .obj o =>
    match s.internal o with
    | .string text => if s.cls o = .String then some (String.ofList text) else none
    | _ => none
  | _ => none

/-- `_class_set_method` on the reflection `obj` of a class. -/
def classSetMethod (s : Store) (obj : ObjectId) (args : Entity) : Except String Store :=
  match tupleOf s args with
  | none => .error "$set() can only be called with a Tuple."
  | some tArgs =>
    match tArgs with
    | [name, arg1] =>
      match s.textOf name with
      | none => .error "First argument to $set_method() must be a String."
      | some key => .ok (s.setMember obj key arg1)
    | _ => .error ("$set_method() can only be called with 2 args. " ++ toString tArgs.length ++
        " provided.")

/-- Calls of `$set_method`, each on the reflection of a class; those that raise change nothing. -/
def setMethods (s : Store) (calls : List (ClassId × Entity)) : Store :=
  calls.foldl (fun s call =>
    match s.classSetMethod (s.classes call.1).reflection call.2 with
    | .ok s => s
    | .error _ => s) s

/-- The class of an object and its superclasses. -/
def chain (s : Store) (cls : ClassId) : List ClassId := cls :: (s.classes cls).supers

/-- The loop of `class_get_function_ref`, with `chain` ahead of it. `none` is `fref->obj` of a
member that is no object. -/
def classGetFunctionRefLoop (s : Store) (cls : ClassId) (name : String) :
    List ClassId → Option (Option ObjectId)
  | [] => some none
  | _ :: chain =>
    match s.get (s.classes cls).reflection name with
    | none => s.classGetFunctionRefLoop cls name chain
    | some (.obj fref) =>
      if s.cls fref = .FunctionRef then some (some fref)
      else s.classGetFunctionRefLoop cls name chain
    | some _ => none

/-- What `object_get_maybe_wrap` does with a member that it found. -/
def maybeWrap (s : Store) (o : ObjectId) (c : ContextId) (member : Entity) : Entity × Store :=
  match s.functionOf member with
  | some f =>
    let (r, s) := s.wrapFunctionInRef f o c
    (.obj r, s)
  | none => (member, s)

/-- `object_get_maybe_wrap`; `none` is an access to what is no object. -/
def objectGetMaybeWrap (s : Store) (o : ObjectId) (field : String) (c : ContextId) :
    Option (Entity × Store) :=
  match if s.cls o = .Class then none else s.get o field with
  | some member => some (s.maybeWrap o c member)
  | none =>
    match s.classGetFunction (s.cls o) field with
    | some f => some (s.maybeWrap o c (.obj (s.functions f).reflection))
    | none =>
      match s.classGetFunctionRefLoop (s.cls o) field (s.chain (s.cls o)) with
      | none => none
      | some none => some (.none, s)
      | some (some fref) => some (.obj fref, s)

/-! ## What methods are for -/

/-- The function that a class declares. -/
def declared (s : Store) (name : String) (cls : ClassId) : Option FunctionId :=
  ((s.classes cls).functions.lookup name).map Prod.snd

/-- The FunctionRef in the reflection of a class. -/
def installed (s : Store) (name : String) (cls : ClassId) : Option ObjectId :=
  match s.get (s.classes cls).reflection name with
  | some (.obj fref) => if s.cls fref = .FunctionRef then some fref else none
  | _ => none

/-- The function of the nearest class that declares it, bound to the object; else the FunctionRef of
the nearest class that has one; else `None`. -/
def resolveMethod (s : Store) (o : ObjectId) (name : String) (c : ContextId) : Entity × Store :=
  match (s.chain (s.cls o)).findSome? (s.declared name) with
  | some f =>
    let (r, s) := s.wrapFunctionInRef f o c
    (.obj r, s)
  | none =>
    match (s.chain (s.cls o)).findSome? (s.installed name) with
    | some fref => (.obj fref, s)
    | none => (.none, s)

/-- Every function has its reflection. -/
def Reflected (s : Store) : Prop := ∀ f, s.functionOf (.obj (s.functions f).reflection) = some f

/-- A class declares the name; or the first class has no member of this name that is no object, and
has the FunctionRef itself if any class has one. -/
def Resolvable (s : Store) (cls : ClassId) (name : String) : Prop :=
  (s.classGetFunction cls name).isSome = true ∨
    (∀ member ∈ s.get (s.classes cls).reflection name, ∃ o, member = .obj o) ∧
      (s.installed name cls = none → ∀ super ∈ (s.classes cls).supers, s.installed name super = none)

section

variable {s : Store} {cls : ClassId} {o : ObjectId} {name : String} {c : ContextId}

/-! ## What `$set_method` keeps -/

theorem functionOf_setMember (key : String) (e member : Entity) :
    (s.setMember o key e).functionOf member = s.functionOf member := by
  cases member <;> simp [functionOf, internal_setMember, cls_setMember]

theorem Reflected.setMember (h : s.Reflected) (key : String) (e : Entity) :
    (s.setMember o key e).Reflected := by
  intro f
  rw [functionOf_setMember]
  exact h f

theorem Reflected.classSetMethod (h : s.Reflected) {args : Entity} {s' : Store}
    (hcall : s.classSetMethod o args = .ok s') : s'.Reflected := by
  unfold Store.classSetMethod at hcall
  split at hcall
  · cases hcall
  split at hcall
  · split at hcall
    · cases hcall
    · cases hcall
      exact h.setMember _ _
  · cases hcall

theorem Reflected.setMethods (h : s.Reflected) (calls : List (ClassId × Entity)) :
    (s.setMethods calls).Reflected := by
  induction calls generalizing s with
  | nil => exact h
  | cons call calls ih =>
    rw [Store.setMethods, List.foldl_cons]
    apply ih
    split
    · rename_i hcall
      exact h.classSetMethod hcall
    · exact h

/-! ## The two walks -/

theorem maybeWrap_reflection (h : s.Reflected) (f : FunctionId) :
    s.maybeWrap o c (.obj (s.functions f).reflection) =
      (.obj (s.wrapFunctionInRef f o c).1, (s.wrapFunctionInRef f o c).2) := by
  rw [maybeWrap, h f]

/-- No round of the loop finds more than the first one. -/
theorem classGetFunctionRefLoop_eq {chain : List ClassId} (hchain : chain ≠ []) :
    s.classGetFunctionRefLoop cls name chain =
      match s.get (s.classes cls).reflection name with
      | none => some none
      | some (.obj fref) => if s.cls fref = .FunctionRef then some (some fref) else some none
      | some _ => none := by
  induction chain with
  | nil => exact absurd rfl hchain
  | cons d chain ih =>
    have hrest : chain = [] ∨ chain ≠ [] := eq_or_ne chain []
    rw [classGetFunctionRefLoop]
    cases hget : s.get (s.classes cls).reflection name with
    | none =>
      rcases hrest with rfl | hne
      · rfl
      · have hloop := ih hne
        rw [hget] at hloop
        exact hloop
    | some member =>
      cases member with
      | obj fref =>
        by_cases hfref : s.cls fref = .FunctionRef
        · simp only [hfref, if_true]
        · simp only [hfref, if_false]
          rcases hrest with rfl | hne
          · rfl
          · have hloop := ih hne
            rw [hget] at hloop
            simpa only [hfref, if_false] using hloop
      | _ => rfl

theorem classGetFunctionRefLoop_some {found : Option ObjectId}
    (h : s.classGetFunctionRefLoop cls name (s.chain cls) = some found) :
    s.classGetFunctionRef cls name = found := by
  have hchain : s.chain cls ≠ [] := List.cons_ne_nil _ _
  rw [classGetFunctionRefLoop_eq hchain] at h
  rw [classGetFunctionRef]
  cases hget : s.get (s.classes cls).reflection name with
  | none =>
    rw [hget] at h
    exact Option.some.inj h
  | some member =>
    rw [hget] at h
    cases member with
    | obj fref =>
      by_cases hfref : s.cls fref = .FunctionRef
      · simp only [hfref, if_true] at h ⊢
        exact Option.some.inj h
      · simp only [hfref, if_false] at h ⊢
        exact Option.some.inj h
    | _ => cases h

/-- Where every access is to an object, this is the lookup that the instructions use. -/
theorem getMaybeWrap_eq {found : Entity × Store}
    (h : s.objectGetMaybeWrap o name c = some found) : s.getMaybeWrap o name c = found := by
  unfold objectGetMaybeWrap at h
  unfold getMaybeWrap
  cases hmember : (if s.cls o = .Class then none else s.get o name) with
  | some member =>
    rw [hmember] at h
    cases h
    rfl
  | none =>
    rw [hmember] at h
    cases hfunction : s.classGetFunction (s.cls o) name with
    | some f =>
      rw [hfunction] at h
      cases h
      rfl
    | none =>
      rw [hfunction] at h
      cases hloop : s.classGetFunctionRefLoop (s.cls o) name (s.chain (s.cls o)) with
      | none =>
        rw [hloop] at h
        cases h
      | some fref =>
        rw [hloop] at h
        rw [Option.map_none, classGetFunctionRefLoop_some hloop]
        cases fref with
        | none => exact Option.some.inj h
        | some fref => exact Option.some.inj h

theorem installed_eq_some {fref : ObjectId} : s.installed name cls = some fref ↔
    s.get (s.classes cls).reflection name = some (.obj fref) ∧ s.cls fref = .FunctionRef := by
  unfold installed
  cases hget : s.get (s.classes cls).reflection name with
  | none => simp
  | some member =>
    cases member with
    | obj o =>
      by_cases ho : s.cls o = .FunctionRef
      · simp only [ho, if_true, Option.some.injEq, Entity.obj.injEq]
        constructor
        · rintro rfl
          exact ⟨rfl, ho⟩
        · exact fun h => h.1
      · simp only [ho, if_false, Option.some.injEq, Entity.obj.injEq]
        constructor
        · exact fun h => by cases h
        · rintro ⟨rfl, hfref⟩
          exact absurd hfref ho
    | _ => simp

/-- Where no class declares the name, the second walk decides. -/
theorem classGetFunctionRefLoop_iff :
    s.classGetFunctionRefLoop cls name (s.chain cls) =
        some ((s.chain cls).findSome? (s.installed name)) ↔
      (∀ member ∈ s.get (s.classes cls).reflection name, ∃ o, member = .obj o) ∧
        (s.installed name cls = none →
          ∀ super ∈ (s.classes cls).supers, s.installed name super = none) := by
  have hchain : s.chain cls ≠ [] := List.cons_ne_nil _ _
  rw [classGetFunctionRefLoop_eq hchain, chain, List.findSome?_cons]
  cases hinstalled : s.installed name cls with
  | some fref =>
    obtain ⟨hget, hfref⟩ := installed_eq_some.mp hinstalled
    rw [hget]
    refine iff_of_true ?_ ⟨fun member hmember => ⟨fref, (Option.some.inj hmember).symm⟩, nofun⟩
    simp only [hfref, if_true]
  | none =>
    have hsupers : (none = (s.classes cls).supers.findSome? (s.installed name)) ↔
        ∀ super ∈ (s.classes cls).supers, s.installed name super = none := by
      rw [eq_comm, List.findSome?_eq_none_iff]
    cases hget : s.get (s.classes cls).reflection name with
    | none => simp [hsupers]
    | some member =>
      cases member with
      | obj o =>
        have ho : s.cls o ≠ .FunctionRef := fun ho => by
          have hsome := installed_eq_some.mpr ⟨hget, ho⟩
          rw [hinstalled] at hsome
          cases hsome
        simp [ho, hsupers]
      | _ => simp

theorem objectGetMaybeWrap_iff (hreflected : s.Reflected) (hcls : s.cls o ≠ .Class)
    (hmember : s.get o name = none) :
    s.objectGetMaybeWrap o name c = some (s.resolveMethod o name c) ↔
      s.Resolvable (s.cls o) name := by
  rw [objectGetMaybeWrap, if_neg hcls, hmember, resolveMethod, Resolvable]
  have hdeclared : (s.chain (s.cls o)).findSome? (s.declared name) =
      s.classGetFunction (s.cls o) name := rfl
  rw [hdeclared]
  cases hfunction : s.classGetFunction (s.cls o) name with
  | some f => exact iff_of_true (congrArg some (maybeWrap_reflection hreflected f)) (.inl rfl)
  | none =>
    rw [← classGetFunctionRefLoop_iff]
    generalize s.classGetFunctionRefLoop (s.cls o) name (s.chain (s.cls o)) = found
    generalize (s.chain (s.cls o)).findSome? (s.installed name) = expected
    have hnot : ¬ (none : Option FunctionId).isSome = true := Bool.false_ne_true
    rw [or_iff_right hnot]
    rcases found with _ | _ | fref
    · exact iff_of_false nofun nofun
    · cases expected <;> simp
    · cases expected <;> simp

/-- After any calls of `$set_method` and for an object that has no such member: what
`object_get_maybe_wrap` gives is the method exactly when the name is resolvable. -/
theorem resolves_iff_resolvable (start : Store) (hreflected : start.Reflected)
    (calls : List (ClassId × Entity)) (o : ObjectId) (name : String) (c : ContextId) :
    let s := start.setMethods calls
    s.cls o ≠ .Class → s.get o name = none →
      (s.objectGetMaybeWrap o name c = some (s.resolveMethod o name c) ↔
        s.Resolvable (s.cls o) name) :=
  fun hcls hmember => objectGetMaybeWrap_iff (hreflected.setMethods calls) hcls hmember

/-- `A : B` with an instance, and the arguments `("m", ref)` for `$set_method`. -/
def lateStore : Store where
  objects := fun o =>
    if o = 0 then ⟨.Class, .empty, .classObj (.user 0)⟩
    else if o = 1 then ⟨.Class, .empty, .classObj (.user 1)⟩
    else if o = 2 then ⟨.user 0, .empty, .none⟩
    else if o = 3 then ⟨.Tuple, .empty, .tuple [.obj 4, .obj 5]⟩
    else if o = 4 then ⟨.String, .empty, .string ['m']⟩
    else if o = 5 then ⟨.FunctionRef, .empty, .functionRef 2 0 none⟩
    else ⟨.Function, .empty, .functionObj (o - 6)⟩
  nextObject := 6
  classes := fun c =>
    if c = .user 0 then ⟨"A", [.user 1], .empty, 0⟩ else ⟨"B", [], .empty, 1⟩
  functions := fun f => ⟨"f", 0, false, false, false, false, 0, f + 6⟩
  modules := fun _ => ⟨"m", [], .empty, .empty, 0, true⟩
  builtin := 0

theorem reflected_lateStore : lateStore.Reflected := fun _ => rfl

/-- The method is set on the class of the object. -/
theorem resolves_own_method :
    (lateStore.setMethods [(.user 0, .obj 3)]).objectGetMaybeWrap 2 "m" 0 =
      some ((lateStore.setMethods [(.user 0, .obj 3)]).resolveMethod 2 "m" 0) := by
  refine (resolves_iff_resolvable lateStore reflected_lateStore [(.user 0, .obj 3)] 2 "m" 0
    (by decide) (by decide)).mpr (.inr ⟨fun member hmember => ?_, fun hnone => ?_⟩)
  · obtain rfl := Option.some.inj (Option.mem_def.mp hmember)
    exact ⟨5, rfl⟩
  · cases hnone

/-- The method is set on the superclass and is not found. -/
theorem not_resolves_late_method : ¬ ∀ (start : Store), start.Reflected →
    ∀ (calls : List (ClassId × Entity)) (o : ObjectId) (name : String) (c : ContextId),
    (start.setMethods calls).cls o ≠ .Class → (start.setMethods calls).get o name = none →
      (start.setMethods calls).objectGetMaybeWrap o name c =
        some ((start.setMethods calls).resolveMethod o name c) := by
  intro hall
  have hfound := hall lateStore reflected_lateStore [(.user 1, .obj 3)] 2 "m" 0 (by decide) (by decide)
  have hvalue := congrArg (Option.map Prod.fst) hfound
  cases hvalue

end

end Store

end JeffVm
