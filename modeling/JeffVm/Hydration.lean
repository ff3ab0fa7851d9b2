import JeffVm.Tape

/-!
# Hydrating the classes of a tape

A class reference becomes a class when its superclass is in the module; until then it waits in a
queue, which is gone through again and again. The loops come to their end exactly when all
superclasses are found.
-/

set_option autoImplicit false

namespace JeffVm

/-- A class as loading leaves it; no `super` is `Class_Object`. -/
structure LoadedClass where
  name : String
  super : Option String
  fields : KeyedList FieldRef.name
  functions : KeyedList FunctionRef.name
  deriving DecidableEq

/-- `_classes` of a module. -/
abbrev LoadedClasses := KeyedList LoadedClass.name

/-- The class that a reference stands for. -/
def LoadedClass.ofRef (cref : ClassRef) : LoadedClass :=
  ⟨cref.name, cref.supers.head?, cref.fieldRefs, cref.funcRefs⟩

/-- What `class_add_field` and `class_add_function` do to their table, with one text for both. -/
def addNew {α : Type} {key : α → String} (clsName : String) (l : KeyedList key) (a : α) :
    Except String (KeyedList key) :=
  match l.lookup (key a) with
  | some _ => .error ("Adding function " ++ key a ++ " to class " ++ clsName ++
      " that already has a function by this name.")
  | none => .ok (l.insert a)

def classAddField (clsName : String) (fields : KeyedList FieldRef.name) (fref : FieldRef) :
    Except String (KeyedList FieldRef.name) :=
  addNew clsName fields fref

def classAddFunction (clsName : String) (functions : KeyedList FunctionRef.name)
    (fref : FunctionRef) : Except String (KeyedList FunctionRef.name) :=
  addNew clsName functions fref

/-- `module_add_class` -/
def moduleAddClass (classes : LoadedClasses) (name : String) (super : Option String) : LoadedClass :=
  (classes.lookup name).getD ⟨name, super, .empty, .empty⟩

/-- `_hydrate_class`: `none` is a class whose superclass is not there yet. -/
def hydrateClass (classes : LoadedClasses) (cref : ClassRef) :
    Except String (Option LoadedClasses) :=
  if (cref.supers.head?.map fun super => (classes.lookup super).isNone) = some true then .ok none
  else do
    let cls := moduleAddClass classes cref.name cref.supers.head?
    let fields ← cref.fieldRefs.entries.foldlM (classAddField cls.name) cls.fields
    let functions ← cref.funcRefs.entries.foldlM (classAddFunction cls.name) cls.functions
    return some (classes.insert { cls with fields := fields, functions := functions })

/-- The first loop of `_modulemanager_hydrate`, with the queue it leaves. -/
def hydrateClasses (classes : LoadedClasses) (queue : List ClassRef) :
    List ClassRef → Except String (LoadedClasses × List ClassRef)
  | [] => .ok (classes, queue)
  | cref :: crefs =>
    match hydrateClass classes cref with
    | .error text => .error text
    | .ok none => hydrateClasses classes (queue ++ [cref]) crefs
    | .ok (some classes) => hydrateClasses classes queue crefs

/-- The first loop of `modulemanager_update_module`. -/
def updateClasses (classes : LoadedClasses) (queue : List ClassRef) :
    List ClassRef → Except String (LoadedClasses × List ClassRef)
  | [] => .ok (classes, queue)
  | cref :: crefs =>
    match classes.lookup cref.name with
    | some _ => updateClasses classes queue crefs
    | none =>
      match hydrateClass classes cref with
      | .error text => .error text
      | .ok none => updateClasses classes (queue ++ [cref]) crefs
      | .ok (some classes) => updateClasses classes queue crefs

/-- The loop over the queue; `none` is a loop that needs more rounds. -/
def processClasses : Nat → LoadedClasses → List ClassRef → Option (Except String LoadedClasses)
  | _, classes, [] => some (.ok classes)
  | 0, _, _ :: _ => none
  | n + 1, classes, cref :: queue =>
    match hydrateClass classes cref with
    | .error text => some (.error text)
    | .ok none => processClasses n classes (queue ++ [cref])
    | .ok (some classes) => processClasses n classes queue

def finishClasses (n : Nat) :
    Except String (LoadedClasses × List ClassRef) → Option (Except String LoadedClasses)
  | .error text => some (.error text)
  | .ok (classes, queue) => processClasses n classes queue

/-- The classes of `_modulemanager_hydrate`, on a module that was just made. -/
def modulemanagerHydrate (n : Nat) (tape : Tape) : Option (Except String LoadedClasses) :=
  finishClasses n (hydrateClasses .empty [] tape.classRefs.entries)

/-- The classes of `modulemanager_update_module`. -/
def modulemanagerUpdateModule (n : Nat) (classes : LoadedClasses) (tape : Tape) :
    Option (Except String LoadedClasses) :=
  finishClasses n (updateClasses classes [] tape.classRefs.entries)

/-! ## What loading is for -/

/-- The superclass of a reference is found, here or in the module, and so on up the classes. -/
inductive Resolves (crefs : List ClassRef) (existing : List String) : ClassRef → Prop where
  | object {cref : ClassRef} : cref.supers.head? = none → Resolves crefs existing cref
  | existing {cref : ClassRef} {super : String} : cref.supers.head? = some super →
      super ∈ existing → Resolves crefs existing cref
  | next {cref super : ClassRef} : cref.supers.head? = some super.name → super ∈ crefs →
      Resolves crefs existing super → Resolves crefs existing cref

/-- Every class is created once, behind its superclass, with the fields and methods of its
reference. -/
structure Loads (existing : LoadedClasses) (crefs : List ClassRef) (classes : LoadedClasses)
    (order : List ClassRef) : Prop where
  once : order.Perm crefs
  created : classes.entries = existing.entries ++ order.map LoadedClass.ofRef
  behind : ∀ before cref after, order = before ++ cref :: after →
    ∀ super ∈ cref.supers.head?, super ∈ existing.keys ++ before.map ClassRef.name

/-- Loading ends: with the classes when all superclasses are found, with an error when not. -/
structure HydratesSoundly (existing : LoadedClasses) (crefs : List ClassRef)
    (run : Nat → Option (Except String LoadedClasses)) : Prop where
  loads : (∀ cref ∈ crefs, Resolves crefs existing.keys cref) →
    ∃ n classes order, run n = some (.ok classes) ∧ Loads existing crefs classes order
  fails : ¬ (∀ cref ∈ crefs, Resolves crefs existing.keys cref) → ∃ n text, run n = some (.error text)

/-! ## One class -/

section

variable {classes : LoadedClasses} {cref : ClassRef}

theorem foldlM_addNew {α : Type} {key : α → String} {clsName : String} {as : List α}
    {l : KeyedList key} (hnodup : (l.keys ++ as.map key).Nodup) :
    as.foldlM (addNew clsName) l = .ok (as.foldl KeyedList.insert l) := by
  induction as generalizing l with
  | nil => rfl
  | cons a as ih =>
    have hnew : key a ∉ l.keys := fun hmem =>
      (List.nodup_append.mp hnodup).2.2 _ hmem _ List.mem_cons_self rfl
    have hadd : addNew clsName l a = .ok (l.insert a) := by
      rw [addNew, KeyedList.lookup_eq_none_iff.mpr hnew]
    have hkeys : (l.insert a).keys = l.keys ++ [key a] := by
      rw [KeyedList.keys, KeyedList.entries_insert_of_notMem hnew, List.map_append]
      rfl
    rw [List.foldlM_cons, hadd]
    apply ih
    rw [hkeys, List.append_assoc]
    exact hnodup

/-- Adding all entries of a keyed list to an empty one gives the list back. -/
theorem foldlM_addNew_entries {α : Type} {key : α → String} (clsName : String)
    (l : KeyedList key) : l.entries.foldlM (addNew clsName) (.empty : KeyedList key) = .ok l := by
  have hentries : (l.entries.foldl KeyedList.insert (.empty : KeyedList key)) = l :=
    KeyedList.ext (KeyedList.entries_foldl_insert l.nodup)
  have hnodup : ((.empty : KeyedList key).keys ++ l.entries.map key).Nodup := l.nodup
  rw [foldlM_addNew hnodup, hentries]

theorem hydrateClass_waits {super : String} (hsuper : cref.supers.head? = some super)
    (hmissing : super ∉ classes.keys) : hydrateClass classes cref = .ok none := by
  rw [hydrateClass, hsuper, Option.map_some, KeyedList.lookup_eq_none_iff.mpr hmissing]
  rfl

/-- A class that is ready goes behind the others, as its reference says. -/
theorem hydrateClass_ready (hnew : cref.name ∉ classes.keys)
    (hready : ∀ super ∈ cref.supers.head?, super ∈ classes.keys) : ∃ classes',
      hydrateClass classes cref = .ok (some classes') ∧
        classes'.entries = classes.entries ++ [LoadedClass.ofRef cref] := by
  have hfound : (cref.supers.head?.map fun super => (classes.lookup super).isNone) ≠ some true := by
    intro hmissing
    obtain ⟨super, hsuper, hnone⟩ := Option.map_eq_some_iff.mp hmissing
    have hlookup := Option.isNone_iff_eq_none.mp hnone
    exact KeyedList.lookup_eq_none_iff.mp hlookup (hready super hsuper)
  have hadd : moduleAddClass classes cref.name cref.supers.head? =
      ⟨cref.name, cref.supers.head?, .empty, .empty⟩ := by
    rw [moduleAddClass, KeyedList.lookup_eq_none_iff.mpr hnew]
    rfl
  refine ⟨classes.insert (LoadedClass.ofRef cref), ?_, KeyedList.entries_insert_of_notMem hnew⟩
  have hfields := foldlM_addNew_entries cref.name cref.fieldRefs
  have hfunctions := foldlM_addNew_entries cref.name cref.funcRefs
  rw [hydrateClass, if_neg hfound, hadd]
  change (cref.fieldRefs.entries.foldlM (addNew cref.name) .empty >>= fun fields =>
    cref.funcRefs.entries.foldlM (addNew cref.name) .empty >>= fun functions => _) = _
  rw [hfields]
  change (cref.funcRefs.entries.foldlM (addNew cref.name) .empty >>= fun functions => _) = _
  rw [hfunctions]
  rfl

end

/-! ## The loops -/

/-- The superclass of a reference is in the module. -/
def Ready (classes : LoadedClasses) (cref : ClassRef) : Prop :=
  ∀ super ∈ cref.supers.head?, super ∈ classes.keys

/-- Between two rounds: the references in `order` are classes, those in `pending` wait. -/
structure HydratedSoFar (existing : LoadedClasses) (crefs : List ClassRef) (classes : LoadedClasses)
    (pending order : List ClassRef) : Prop where
  all : (order ++ pending).Perm crefs
  created : classes.entries = existing.entries ++ order.map LoadedClass.ofRef
  behind : ∀ before cref after, order = before ++ cref :: after →
    ∀ super ∈ cref.supers.head?, super ∈ existing.keys ++ before.map ClassRef.name
  resolved : ∀ cref ∈ order, Resolves crefs existing.keys cref

section

variable {existing classes : LoadedClasses} {crefs pending order before after : List ClassRef}
  {cref : ClassRef}

namespace HydratedSoFar

theorem keys (h : HydratedSoFar existing crefs classes pending order) :
    classes.keys = existing.keys ++ order.map ClassRef.name := by
  rw [KeyedList.keys, h.created, List.map_append, List.map_map]
  rfl

theorem perm (h : HydratedSoFar existing crefs classes pending order) {pending' : List ClassRef}
    (hperm : pending'.Perm pending) : HydratedSoFar existing crefs classes pending' order :=
  { h with all := (hperm.append_left order).trans h.all }

theorem mem (h : HydratedSoFar existing crefs classes pending order) (hcref : cref ∈ crefs) :
    cref ∈ order ∨ cref ∈ pending :=
  List.mem_append.mp (h.all.mem_iff.mpr hcref)

/-- A reference that is ready resolves. -/
theorem resolves (h : HydratedSoFar existing crefs classes pending order)
    (hready : Ready classes cref) : Resolves crefs existing.keys cref := by
  cases hsuper : cref.supers.head? with
  | none => exact .object hsuper
  | some super =>
    have hmem := hready super hsuper
    rw [h.keys] at hmem
    rcases List.mem_append.mp hmem with hmem | hmem
    · exact .existing hsuper hmem
    · obtain ⟨superRef, hsuperRef, rfl⟩ := List.mem_map.mp hmem
      have hin : superRef ∈ crefs := h.all.mem_iff.mp (List.mem_append_left pending hsuperRef)
      exact .next hsuper hin (h.resolved superRef hsuperRef)

/-- One round with a reference that is ready. -/
theorem hydrate (hnodup : (existing.keys ++ crefs.map ClassRef.name).Nodup)
    (h : HydratedSoFar existing crefs classes (cref :: pending) order) (hready : Ready classes cref) :
    ∃ classes', hydrateClass classes cref = .ok (some classes') ∧
      HydratedSoFar existing crefs classes' pending (order ++ [cref]) := by
  have hnew : cref.name ∉ classes.keys := by
    have hperm : (existing.keys ++ (order ++ cref :: pending).map ClassRef.name).Perm
        (existing.keys ++ crefs.map ClassRef.name) := (h.all.map _).append_left _
    have hall := hperm.nodup_iff.mpr hnodup
    rw [List.map_append, ← List.append_assoc, ← h.keys] at hall
    exact fun hmem => (List.nodup_append.mp hall).2.2 _ hmem _ List.mem_cons_self rfl
  obtain ⟨classes', hclass, hentries⟩ := hydrateClass_ready hnew hready
  refine ⟨classes', hclass, ?_, ?_, ?_, ?_⟩
  · rw [List.append_assoc]
    exact h.all
  · rw [hentries, h.created, List.map_append, List.append_assoc]
    rfl
  · intro before cref' after horder super hsuper
    rcases List.eq_nil_or_concat after with rfl | ⟨after, last, rfl⟩
    · obtain ⟨hbefore, hlast⟩ := List.append_inj' horder rfl
      obtain rfl := List.singleton_inj.mp hlast
      rw [← hbefore, ← h.keys]
      exact hready super hsuper
    · rw [List.concat_eq_append, ← List.cons_append, ← List.append_assoc] at horder
      obtain ⟨hbefore, -⟩ := List.append_inj' horder rfl
      exact h.behind before cref' after hbefore super hsuper
  · intro cref' hcref'
    rcases List.mem_append.mp hcref' with hcref' | hcref'
    · exact h.resolved cref' hcref'
    · rw [List.mem_singleton.mp hcref']
      exact h.resolves hready

theorem waits (hready : ¬ Ready classes cref) : hydrateClass classes cref = .ok none := by
  rw [Ready] at hready
  push Not at hready
  obtain ⟨super, hsuper, hmissing⟩ := hready
  exact hydrateClass_waits hsuper hmissing

/-- While references that resolve wait, one of them is ready. -/
theorem exists_ready (h : HydratedSoFar existing crefs classes pending order) (hcref : cref ∈ pending)
    (hresolves : Resolves crefs existing.keys cref) : ∃ cref ∈ pending, Ready classes cref := by
  induction hresolves with
  | object hsuper =>
    refine ⟨_, hcref, fun super hmem => ?_⟩
    rw [hsuper] at hmem
    cases hmem
  | existing hsuper hmem =>
    refine ⟨_, hcref, fun super hsuper' => ?_⟩
    obtain rfl := Option.some.inj (hsuper.symm.trans hsuper')
    rw [h.keys]
    exact List.mem_append_left _ hmem
  | next hsuper hmem _ ih =>
    rcases h.mem hmem with horder | hpending
    · refine ⟨_, hcref, fun super hsuper' => ?_⟩
      obtain rfl := Option.some.inj (hsuper.symm.trans hsuper')
      rw [h.keys]
      exact List.mem_append_right _ (List.mem_map_of_mem horder)
    · exact ih hpending

end HydratedSoFar

/-- A pass over references that are not ready only moves them to the end of the queue. -/
theorem processClasses_rotate {n : Nat} {waiting rest : List ClassRef}
    (hwaiting : ∀ cref ∈ waiting, ¬ Ready classes cref) :
    processClasses (n + waiting.length) classes (waiting ++ rest) =
      processClasses n classes (rest ++ waiting) := by
  induction waiting generalizing rest with
  | nil => rw [List.append_nil]; rfl
  | cons cref waiting ih =>
    obtain ⟨hcref, hwaiting⟩ := List.forall_mem_cons.mp hwaiting
    rw [List.length_cons, ← Nat.add_assoc, List.cons_append, processClasses, HydratedSoFar.waits hcref]
    dsimp only
    rw [List.append_assoc, ih hwaiting, List.append_assoc, List.singleton_append]

/-- The first reference of a list that is ready. -/
theorem exists_first {pending : List ClassRef} (h : ∃ cref ∈ pending, Ready classes cref) :
    ∃ waiting cref rest, pending = waiting ++ cref :: rest ∧ Ready classes cref ∧
      ∀ cref ∈ waiting, ¬ Ready classes cref := by
  induction pending with
  | nil =>
    obtain ⟨cref, hcref, -⟩ := h
    cases hcref
  | cons first pending ih =>
    by_cases hfirst : Ready classes first
    · exact ⟨[], first, pending, rfl, hfirst, nofun⟩
    · have hrest : ∃ cref ∈ pending, Ready classes cref := by
        obtain ⟨cref, hcref, hready⟩ := h
        rcases List.mem_cons.mp hcref with rfl | hcref
        · exact absurd hready hfirst
        · exact ⟨cref, hcref, hready⟩
      obtain ⟨waiting, cref, rest, rfl, hready, hwaiting⟩ := ih hrest
      exact ⟨first :: waiting, cref, rest, rfl, hready,
        List.forall_mem_cons.mpr ⟨hfirst, hwaiting⟩⟩

/-- When all references resolve, every pass creates a class, until none waits. -/
theorem processClasses_loads (hnodup : (existing.keys ++ crefs.map ClassRef.name).Nodup)
    (hresolves : ∀ cref ∈ crefs, Resolves crefs existing.keys cref)
    (h : HydratedSoFar existing crefs classes pending order) :
    ∃ n classes' order', processClasses n classes pending = some (.ok classes') ∧
      HydratedSoFar existing crefs classes' [] order' := by
  generalize hlength : pending.length = k
  induction k generalizing classes pending order with
  | zero =>
    obtain rfl := List.length_eq_zero_iff.mp hlength
    exact ⟨0, classes, order, rfl, h⟩
  | succ k ih =>
    obtain ⟨first, pending', rfl⟩ := List.exists_cons_of_length_eq_add_one hlength
    have hfirst : first ∈ crefs := h.all.mem_iff.mp (List.mem_append_right _ List.mem_cons_self)
    obtain ⟨waiting, cref, rest, hsplit, hready, hwaiting⟩ :=
      exists_first (h.exists_ready List.mem_cons_self (hresolves first hfirst))
    rw [hsplit] at h hlength ⊢
    have hrotated : HydratedSoFar existing crefs classes (cref :: (rest ++ waiting)) order :=
      h.perm (List.perm_append_comm : (cref :: rest ++ waiting).Perm (waiting ++ cref :: rest))
    obtain ⟨classes', hclass, h'⟩ := hrotated.hydrate hnodup hready
    have hrest : (rest ++ waiting).length = k := by
      simp only [List.length_append, List.length_cons] at hlength ⊢
      omega
    obtain ⟨n, classes'', order', hrun, hdone⟩ := ih h' hrest
    refine ⟨n + 1 + waiting.length, classes'', order', ?_, hdone⟩
    rw [processClasses_rotate hwaiting, List.cons_append, processClasses, hclass]
    exact hrun

/-- A reference that does not resolve waits for ever. -/
theorem processClasses_waits (hnodup : (existing.keys ++ crefs.map ClassRef.name).Nodup)
    (hcref : cref ∈ crefs) (hresolves : ¬ Resolves crefs existing.keys cref)
    (h : HydratedSoFar existing crefs classes pending order) (n : Nat) :
    processClasses n classes pending = none := by
  induction n generalizing classes pending order with
  | zero =>
    cases pending with
    | nil =>
      rcases h.mem hcref with horder | hpending
      · exact absurd (h.resolved cref horder) hresolves
      · cases hpending
    | cons first pending => rfl
  | succ n ih =>
    cases pending with
    | nil =>
      rcases h.mem hcref with horder | hpending
      · exact absurd (h.resolved cref horder) hresolves
      · cases hpending
    | cons first pending =>
      rw [processClasses]
      by_cases hready : Ready classes first
      · obtain ⟨classes', hclass, h'⟩ := h.hydrate hnodup hready
        rw [hclass]
        exact ih h'
      · rw [HydratedSoFar.waits hready]
        exact ih (h.perm List.perm_append_comm)

/-- The first loop of loading: what it does not create waits. -/
theorem hydrateClasses_progress (hnodup : (existing.keys ++ crefs.map ClassRef.name).Nodup)
    {queue rest : List ClassRef} (h : HydratedSoFar existing crefs classes (queue ++ rest) order) :
    ∃ classes' queue' order', hydrateClasses classes queue rest = .ok (classes', queue') ∧
      HydratedSoFar existing crefs classes' queue' order' := by
  induction rest generalizing classes queue order with
  | nil =>
    rw [List.append_nil] at h
    exact ⟨classes, queue, order, rfl, h⟩
  | cons cref rest ih =>
    rw [hydrateClasses]
    by_cases hready : Ready classes cref
    · obtain ⟨classes', hclass, h'⟩ := (h.perm List.perm_middle.symm).hydrate hnodup hready
      rw [hclass]
      exact ih h'
    · rw [HydratedSoFar.waits hready]
      apply ih
      rw [List.append_assoc]
      exact h

theorem updateClasses_progress (hnodup : (existing.keys ++ crefs.map ClassRef.name).Nodup)
    {queue rest : List ClassRef}
    (hnames : (rest.map ClassRef.name).Nodup)
    (h : HydratedSoFar existing crefs classes
      (queue ++ rest.filter fun cref => cref.name ∉ existing.keys) order)
    (hold : ∀ cref ∈ rest, cref.name ∈ classes.keys → cref.name ∈ existing.keys) :
    ∃ classes' queue' order', updateClasses classes queue rest = .ok (classes', queue') ∧
      HydratedSoFar existing crefs classes' queue' order' := by
  induction rest generalizing classes queue order with
  | nil =>
    rw [List.filter_nil, List.append_nil] at h
    exact ⟨classes, queue, order, rfl, h⟩
  | cons cref rest ih =>
    obtain ⟨hcref, hrest⟩ := List.nodup_cons.mp hnames
    obtain ⟨hold_cref, hold⟩ := List.forall_mem_cons.mp hold
    rw [updateClasses]
    by_cases hexisting : cref.name ∈ existing.keys
    · have hmem : cref.name ∈ classes.keys := by
        rw [h.keys]
        exact List.mem_append_left _ hexisting
      rw [List.filter_cons_of_neg (by simpa using hexisting)] at h
      cases hlookup : classes.lookup cref.name with
      | none => exact absurd hmem (KeyedList.lookup_eq_none_iff.mp hlookup)
      | some _ => exact ih hrest h hold
    · have hnew : cref.name ∉ classes.keys := fun hmem => hexisting (hold_cref hmem)
      rw [List.filter_cons_of_pos (by simpa using hexisting)] at h
      rw [KeyedList.lookup_eq_none_iff.mpr hnew]
      dsimp only
      by_cases hready : Ready classes cref
      · obtain ⟨classes', hclass, h'⟩ := (h.perm List.perm_middle.symm).hydrate hnodup hready
        rw [hclass]
        apply ih hrest h'
        intro cref' hcref' hmem
        rw [h'.keys, List.map_append, ← List.append_assoc, ← h.keys] at hmem
        rcases List.mem_append.mp hmem with hmem | hmem
        · exact hold cref' hcref' hmem
        · have heq : cref'.name = cref.name := List.mem_singleton.mp hmem
          exact absurd (heq ▸ List.mem_map_of_mem hcref') hcref
      · have hmoved : HydratedSoFar existing crefs classes (queue ++ [cref] ++
            rest.filter fun cref => cref.name ∉ existing.keys) order := by
          rw [List.append_assoc]
          exact h
        rw [HydratedSoFar.waits hready]
        exact ih hrest hmoved hold

/-- Loading is sound exactly when all references resolve. -/
theorem hydratesSoundly_iff (hnodup : (existing.keys ++ crefs.map ClassRef.name).Nodup)
    {first : Except String (LoadedClasses × List ClassRef)} {queue : List ClassRef}
    (hfirst : first = .ok (classes, queue)) (h : HydratedSoFar existing crefs classes queue order) :
    HydratesSoundly existing crefs (fun n => finishClasses n first) ↔
      ∀ cref ∈ crefs, Resolves crefs existing.keys cref := by
  subst hfirst
  constructor
  · intro hsound
    by_contra hresolves
    obtain ⟨n, text, hrun⟩ := hsound.fails hresolves
    push Not at hresolves
    obtain ⟨cref, hcref, hresolves⟩ := hresolves
    have hwaits := processClasses_waits hnodup hcref hresolves h n
    rw [finishClasses, hwaits] at hrun
    cases hrun
  · intro hresolves
    refine ⟨fun _ => ?_, fun hnot => absurd hresolves hnot⟩
    obtain ⟨n, classes', order', hrun, h'⟩ := processClasses_loads hnodup hresolves h
    have hall := h'.all
    rw [List.append_nil] at hall
    exact ⟨n, classes', order', hrun, hall, h'.created, h'.behind⟩

/-- A tape of any class references: the loops of `_modulemanager_hydrate` and of
`modulemanager_update_module`, on a module that has any classes already, load its new classes soundly
exactly when each of them resolves. -/
theorem hydrates_iff_resolves (tape : Tape) :
    (HydratesSoundly .empty tape.classRefs.entries (fun n => modulemanagerHydrate n tape) ↔
      ∀ cref ∈ tape.classRefs.entries, Resolves tape.classRefs.entries [] cref) ∧
    ∀ classes : LoadedClasses,
      let crefs := tape.classRefs.entries.filter fun cref => cref.name ∉ classes.keys
      HydratesSoundly classes crefs (fun n => modulemanagerUpdateModule n classes tape) ↔
        ∀ cref ∈ crefs, Resolves crefs classes.keys cref := by
  have hnames : (tape.classRefs.entries.map ClassRef.name).Nodup := tape.classRefs.nodup
  constructor
  · have hstart : HydratedSoFar .empty tape.classRefs.entries .empty ([] ++ tape.classRefs.entries) [] :=
      ⟨List.Perm.refl _, rfl, by simp, nofun⟩
    have hnodup : ((.empty : LoadedClasses).keys ++
        tape.classRefs.entries.map ClassRef.name).Nodup := hnames
    obtain ⟨classes, queue, order, hfirst, h⟩ := hydrateClasses_progress hnodup hstart
    exact hydratesSoundly_iff hnodup hfirst h
  · intro classes crefs
    have hnodup : (classes.keys ++ crefs.map ClassRef.name).Nodup := by
      refine List.nodup_append.mpr ⟨classes.nodup, hnames.sublist (List.filter_sublist.map _), ?_⟩
      intro name hname name' hcref heq
      obtain ⟨cref, hcref, hcref_name⟩ := List.mem_map.mp hcref
      have hnew := (List.mem_filter.mp hcref).2
      rw [heq, ← hcref_name] at hname
      exact absurd hname (by simpa using hnew)
    have hstart : HydratedSoFar classes crefs classes ([] ++ crefs) [] :=
      ⟨List.Perm.refl _, by rw [List.map_nil, List.append_nil], by simp, nofun⟩
    obtain ⟨classes', queue, order, hfirst, h⟩ :=
      updateClasses_progress hnodup hnames hstart fun cref _ hmem => hmem
    exact hydratesSoundly_iff hnodup hfirst h

/-- A class whose superclass is not in the module waits in the queue for ever. -/
theorem not_hydratesSoundly_stray : ¬ ∀ tape : Tape,
    HydratesSoundly .empty tape.classRefs.entries (fun n => modulemanagerHydrate n tape) := by
  intro hsound
  have hfails := (hsound ⟨none, [], [], ⟨[⟨"A", 0, 0, .empty, .empty, ["B"]⟩], List.nodup_singleton _⟩,
    .empty, none⟩).fails
  have hstray : ¬ Resolves [⟨"A", 0, 0, .empty, .empty, ["B"]⟩] []
      ⟨"A", 0, 0, .empty, .empty, ["B"]⟩ := by
    intro hresolves
    cases hresolves with
    | object hsuper => cases hsuper
    | existing _ hmem => cases hmem
    | next hsuper hmem _ =>
      rw [List.mem_singleton.mp hmem] at hsuper
      exact absurd hsuper (by decide)
  obtain ⟨n, text, hrun⟩ := hfails fun hall => hstray (hall _ List.mem_cons_self)
  have hstart : HydratedSoFar .empty [⟨"A", 0, 0, .empty, .empty, ["B"]⟩] .empty
      [⟨"A", 0, 0, .empty, .empty, ["B"]⟩] [] := ⟨List.Perm.refl _, rfl, by simp, nofun⟩
  have hnodup : ((.empty : LoadedClasses).keys ++ ["A"]).Nodup := List.nodup_singleton _
  have hwaits := processClasses_waits hnodup List.mem_cons_self hstray hstart n
  cases hrun.symm.trans hwaits

end

end JeffVm
