import JeffVm.Produce
import JeffVm.Store
import JeffVm.Lib.Chain
import JeffVm.Lib.Transition

/-!
# The class hierarchy

The `_super` pointers of the classes, which loading a class and `$__set_super` set, and the loops
that go up the pointers. The list of superclasses in a `Store` is the chain of these pointers.
-/

set_option autoImplicit false

namespace JeffVm

/-- The classes that were created, and `_super` of each class. -/
structure Hierarchy where
  created : List ClassId
  super : ClassId → Option ClassId

/-- The class that an entity reflects, if it passes `IS_CLASS(e, Class_Class)`. -/
def Store.classOf (s : Store) (e : Entity) : Option ClassId :=
  match e with
  | .obj o =>
    match s.internal o with
    | .classObj c => if s.cls o = .Class then some c else none
    | _ => none
  | _ => none

namespace Hierarchy

/-! ## Loops -/

/-- `class_get_function` -/
def classGetFunction (h : Hierarchy) (s : Store) (n : Nat) (cls : ClassId) (name : String) :
    Option (Option FunctionId) :=
  walkFrom h.super (fun c => ((s.classes c).functions.lookup name).map Prod.snd) n (some cls)

/-- `class_get_function_ref`; each round looks at `cls`. -/
def classGetFunctionRef (h : Hierarchy) (s : Store) (n : Nat) (cls : ClassId) (name : String) :
    Option (Option ObjectId) :=
  walkFrom h.super (fun _ => s.classGetFunctionRef cls name) n (some cls)

/-- `inherits_from`; `NULL` is no superclass. -/
def inheritsFrom (h : Hierarchy) (n : Nat) (cls possibleSuper : ClassId) : Option Bool :=
  (walkFrom h.super (fun c => if c = possibleSuper then some () else none) n (some cls)).map
    Option.isSome

/-- The constructor that `_object_super` looks for, where `cls` is the class of the object. -/
def objectSuper (h : Hierarchy) (s : Store) (n : Nat) (cls targetSuper : ClassId) :
    Option (Option FunctionId) :=
  match walkFrom h.super (fun c => if c = targetSuper then some c else none) n (h.super cls) with
  | none => none
  | some none => some none
  | some (some c) => h.classGetFunction s n c constructorKey

/-! ## Steps -/

/-- A class is created behind its superclass, or `$__set_super` is called on `cls`, with the objects
of `s`. -/
inductive Act where
  | load (cls super : ClassId)
  | setSuper (s : Store) (cls : ClassId) (args : Entity)

/-- `_class_set_super` -/
def classSetSuper (h : Hierarchy) (s : Store) (cls : ClassId) (args : Entity) :
    Except String Hierarchy :=
  match s.classOf args with
  | none => .error "Argument 1 of $__set_super must be of type Class."
  | some newSuper => .ok { h with super := Function.update h.super cls (some newSuper) }

/-- `none` is a class that is not there, or is created twice. -/
def step (h : Hierarchy) : Act → Option Hierarchy
  | .load cls super =>
    if cls ∈ h.created ∨ super ∉ h.created then none
    else some ⟨h.created ++ [cls], Function.update h.super cls (some super)⟩
  | .setSuper s cls args =>
    if cls ∈ h.created ∧ ∀ newSuper ∈ s.classOf args, newSuper ∈ h.created then
      match h.classSetSuper s cls args with
      | .ok h' => some h'
      | .error _ => some h
    else none

/-- `Class_Object` alone. -/
def start : Hierarchy := ⟨[.Object], fun _ => none⟩

/-- The new superclass does not inherit from the class. -/
def KeepsOrder (h : Hierarchy) : Act → Prop
  | .load _ _ => True
  | .setSuper s cls args => ∀ newSuper ∈ s.classOf args, ¬ Leads h.super newSuper cls

/-- No class inherits from itself, and the loops end for all classes and all names. -/
structure Sound (h : Hierarchy) : Prop where
  acyclic : Acyclic h.super
  classGetFunction : ∀ s cls name, ∃ n, (h.classGetFunction s n cls name).isSome = true
  classGetFunctionRef : ∀ s cls name, ∃ n, (h.classGetFunctionRef s n cls name).isSome = true
  inheritsFrom : ∀ cls possibleSuper, ∃ n, (h.inheritsFrom n cls possibleSuper).isSome = true
  objectSuper : ∀ s cls targetSuper, ∃ n, (h.objectSuper s n cls targetSuper).isSome = true

/-- Only classes that were created have superclasses or are some. -/
def Closed (h : Hierarchy) : Prop := ∀ c d, h.super c = some d → c ∈ h.created ∧ d ∈ h.created

section

variable {h h' : Hierarchy} {act : Act}

/-! ## What a step keeps -/

theorem walk_super (hends : ∀ c, Ends h.super (some c)) (cls : ClassId) :
    ∃ l, Chain h.super (h.super cls) l := by
  obtain ⟨l, hl⟩ := hends cls
  cases hl with
  | cons hl => exact ⟨_, hl⟩

theorem objectSuper_ends (hends : ∀ c, Ends h.super (some c)) (s : Store)
    (cls targetSuper : ClassId) : ∃ n, (h.objectSuper s n cls targetSuper).isSome = true := by
  obtain ⟨l, hl⟩ := walk_super hends cls
  obtain ⟨l', hl'⟩ := hends targetSuper
  refine ⟨l.length + l'.length, ?_⟩
  have hsuper := hl.walk (Nat.le_add_right l.length l'.length)
    (f := fun c => if c = targetSuper then some c else none)
  rw [objectSuper, hsuper]
  cases hfound : l.findSome? fun c => if c = targetSuper then some c else none with
  | none => rfl
  | some c =>
    obtain ⟨d, -, hd⟩ := List.exists_of_findSome?_eq_some hfound
    obtain rfl : targetSuper = c := by
      split at hd
      · rename_i heq
        rw [← heq]
        exact Option.some.inj hd
      · cases hd
    dsimp only
    rw [classGetFunction, hl'.walk (Nat.le_add_left l'.length l.length)]
    rfl

theorem sound_of_ends (hends : ∀ c, Ends h.super (some c)) : h.Sound where
  acyclic := acyclic_of_ends hends
  classGetFunction := fun _ cls _ => (hends cls).walk
  classGetFunctionRef := fun _ cls _ => (hends cls).walk
  inheritsFrom := by
    intro cls possibleSuper
    obtain ⟨n, hn⟩ := (hends cls).walk
      (f := fun c => if c = possibleSuper then some () else none)
    refine ⟨n, ?_⟩
    rw [inheritsFrom, Option.isSome_map]
    exact hn
  objectSuper := objectSuper_ends hends

theorem Closed.created_of_leads (hclosed : h.Closed) {c d : ClassId} (hleads : Leads h.super c d)
    (hc : c ∈ h.created) : d ∈ h.created := by
  induction hleads with
  | refl => exact hc
  | cons hnext _ ih => exact ih (hclosed _ _ hnext).2

theorem Closed.update (hclosed : h.Closed) {cls super : ClassId} {created : List ClassId}
    (hsub : h.created ⊆ created) (hcls : cls ∈ created) (hsuper : super ∈ created) :
    Closed ⟨created, Function.update h.super cls (some super)⟩ := by
  intro c d hnext
  dsimp only at hnext
  by_cases hc : c = cls
  · subst hc
    rw [Function.update_self] at hnext
    cases hnext
    exact ⟨hcls, hsuper⟩
  · rw [Function.update_of_ne hc] at hnext
    obtain ⟨hc, hd⟩ := hclosed c d hnext
    exact ⟨hsub hc, hsub hd⟩

/-- One step: the classes stay closed, and nothing inherits from itself exactly when the step keeps
the order. -/
theorem step_sound (hclosed : h.Closed) (hends : ∀ c, Ends h.super (some c))
    (hstep : step h act = some h') :
    h'.Closed ∧ (Acyclic h'.super ↔ h.KeepsOrder act) ∧
      (Acyclic h'.super → ∀ c, Ends h'.super (some c)) := by
  cases act with
  | load cls super =>
    rw [step] at hstep
    split at hstep
    · cases hstep
    rename_i hnew
    cases hstep
    obtain ⟨hcls, hsuper⟩ := not_or.mp hnew
    have hsuper : super ∈ h.created := not_not.mp hsuper
    have hleads : ¬ Leads h.super super cls :=
      fun hleads => hcls (hclosed.created_of_leads hleads hsuper)
    have hends' := ends_update hends hleads
    refine ⟨?_, iff_of_true (acyclic_of_ends hends') trivial, fun _ => hends'⟩
    exact hclosed.update (List.subset_append_left _ _) (List.mem_append_right _ List.mem_cons_self)
      (List.mem_append_left _ hsuper)
  | setSuper s cls args =>
    rw [step] at hstep
    split at hstep
    · rename_i hcreated
      rw [classSetSuper] at hstep
      cases hof : s.classOf args with
      | none =>
        rw [hof] at hstep
        cases hstep
        refine ⟨hclosed, iff_of_true (acyclic_of_ends hends) ?_, fun _ => hends⟩
        intro newSuper hnew
        rw [hof] at hnew
        cases hnew
      | some newSuper =>
        rw [hof] at hstep
        cases hstep
        have horder : h.KeepsOrder (.setSuper s cls args) ↔ ¬ Leads h.super newSuper cls := by
          rw [KeepsOrder, hof]
          exact ⟨fun hall => hall newSuper rfl, fun hleads d hd => Option.some.inj hd ▸ hleads⟩
        have hnewSuper := hcreated.2 newSuper hof
        refine ⟨hclosed.update (List.Subset.refl _) hcreated.1 hnewSuper, ?_, ?_⟩
        · rw [horder]
          exact acyclic_update_iff hends
        · intro hacyclic
          exact ends_update hends ((acyclic_update_iff hends).mp hacyclic)
    · cases hstep

/-- In every run from the loading of modules on, with calls of `$__set_super` in any order and with
any arguments, the hierarchy is sound in all states exactly when no call gives a class a superclass
that inherits from it. -/
theorem sound_iff_keepsOrder (acts : List Act) :
    (∀ n h, runSteps step start (acts.take n) = some h → h.Sound) ↔
      Along step KeepsOrder start acts := by
  have hstart : ∀ c, Ends start.super (some c) := fun c => ⟨[c], .cons .nil⟩
  have hclosed : start.Closed := fun c d hnext => by cases hnext
  apply along_iff (I := fun h => h.Closed ∧ (Acyclic h.super → ∀ c, Ends h.super (some c)))
    (E := fun _ _ => True) ?_ ⟨hclosed, fun _ => hstart⟩ (sound_of_ends hstart)
    (along_of_forall (fun _ _ => trivial) _ _)
  intro h act h' hI hsound _ hstep
  have hends := hI.2 hsound.acyclic
  obtain ⟨hclosed', horder, hends'⟩ := step_sound hI.1 hends hstep
  refine ⟨⟨hclosed', hends'⟩, ?_⟩
  rw [← horder]
  exact ⟨fun hsound' => hsound'.acyclic, fun hacyclic => sound_of_ends (hends' hacyclic)⟩

end

/-! ## Lists of superclasses -/

section

variable {h : Hierarchy} {s : Store} {cls : ClassId}

/-- The loops compute what the functions on the list of superclasses do. -/
theorem classGetFunction_eq (hchain : Chain h.super (some cls) (cls :: (s.classes cls).supers))
    (name : String) : h.classGetFunction s ((s.classes cls).supers.length + 1) cls name =
      some (s.classGetFunction cls name) :=
  hchain.walk (Nat.le_refl _)

theorem inheritsFrom_eq (hchain : Chain h.super (some cls) (cls :: (s.classes cls).supers))
    (possibleSuper : ClassId) :
    h.inheritsFrom ((s.classes cls).supers.length + 1) cls possibleSuper =
      some (s.inheritsFrom cls possibleSuper) := by
  have hle : (cls :: (s.classes cls).supers).length ≤ (s.classes cls).supers.length + 1 :=
    Nat.le_refl _
  rw [inheritsFrom, hchain.walk hle, Option.map_some, Store.inheritsFrom, Option.some.injEq]
  rw [Bool.eq_iff_iff, List.findSome?_isSome_iff, decide_eq_true_iff]
  constructor
  · rintro ⟨c, hc, hfound⟩
    split at hfound
    · rename_i heq
      exact heq ▸ hc
    · cases hfound
  · intro hmem
    exact ⟨possibleSuper, hmem, by simp⟩

/-- The list of superclasses is read off the pointers, and the other way round. -/
theorem leads_iff_inheritsFrom (hchain : Chain h.super (some cls) (cls :: (s.classes cls).supers))
    (c : ClassId) : Leads h.super cls c ↔ s.inheritsFrom cls c = true := by
  rw [Store.inheritsFrom, decide_eq_true_iff]
  constructor
  · intro hleads
    obtain ⟨l, hl, hsuffix⟩ := Chain.of_leads hleads hchain
    cases hl with
    | cons hl => exact hsuffix.subset List.mem_cons_self
  · exact hchain.leads_of_mem

end

/-- A heap of one object, a reflection of the class `A`. -/
def selfStore : Store where
  objects := fun _ => ⟨.Class, .empty, .classObj (.user 0)⟩
  nextObject := 1
  classes := fun _ => ⟨"A", [], .empty, 0⟩
  functions := fun _ => ⟨"", 0, false, false, false, false, 0, 0⟩
  modules := fun _ => ⟨"m", [], .empty, .empty, 0, false⟩
  builtin := 0

/-- `A.$__set_super(A)` -/
theorem not_always_sound : ¬ ∀ (acts : List Act) n h,
    runSteps step start (acts.take n) = some h → h.Sound := by
  intro hall
  have hsound := hall [.load (.user 0) .Object, .setSuper selfStore (.user 0) (.obj 0)] 2 _ rfl
  exact hsound.acyclic (.user 0) (.single rfl)

end Hierarchy

end JeffVm
