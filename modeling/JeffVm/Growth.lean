import JeffVm.Effects

/-!
# The heap only grows

No instruction changes the class of an object that exists, or makes a future of its own
accord: only the calls of the scheduler do. Of the native functions and the module loader
the same is assumed.
-/

set_option autoImplicit false

namespace JeffVm

namespace Store

/-- Some future of the heap is one of the task. -/
def HasFuture (s : Store) (task : TaskId) : Prop :=
  ∃ o future, s.internal o = .future future ∧ future.task = some task

/-- The objects of `s` are still there, with their classes, and there are no futures of other
tasks than before. -/
structure Grows (s s' : Store) : Prop where
  next_le : s.nextObject ≤ s'.nextObject
  cls : ∀ o : Nat, o < s.nextObject → s'.cls o = s.cls o
  futures : ∀ task, s'.HasFuture task → s.HasFuture task

namespace Grows

variable {s s' s'' : Store}

@[simp] theorem refl (s : Store) : s.Grows s := ⟨Nat.le_refl _, fun _ _ => rfl, fun _ h => h⟩

theorem trans (h : s.Grows s') (h' : s'.Grows s'') : s.Grows s'' where
  next_le := h.next_le.trans h'.next_le
  cls := by
    intro o ho
    rw [h'.cls o (ho.trans_le h.next_le), h.cls o ho]
  futures := fun task hfuture => h.futures task (h'.futures task hfuture)

@[simp, grind ←] theorem setMember (h : s.Grows s') (o : ObjectId) (key : String) (e : Entity) :
    s.Grows (s'.setMember o key e) where
  next_le := h.next_le
  cls := by
    intro o' ho
    rw [cls_setMember, h.cls o' ho]
  futures := by
    rintro task ⟨o', future, hinternal, htask⟩
    rw [internal_setMember] at hinternal
    exact h.futures task ⟨o', future, hinternal, htask⟩

/-- The internal data may become a future only of a task that has one. -/
theorem setFuture (h : s.Grows s') (o : ObjectId) (i : Internal)
    (hi : ∀ future task, i = .future future → future.task = some task → s'.HasFuture task) :
    s.Grows (s'.setInternal o i) where
  next_le := h.next_le
  cls := by
    intro o' ho
    rw [← h.cls o' ho]
    by_cases heq : o' = o
    · subst heq
      simp [Store.cls, Store.setInternal]
    · simp [Store.cls, Store.setInternal, heq]
  futures := by
    rintro task ⟨o', future, hinternal, htask⟩
    apply h.futures task
    by_cases heq : o' = o
    · subst heq
      simp only [internal, Store.setInternal, modify_objects_self] at hinternal
      exact hi future task hinternal htask
    · simp only [internal, Store.setInternal, modify_objects_ne _ _ heq] at hinternal
      exact ⟨o', future, hinternal, htask⟩

@[simp, grind ←] theorem setArray (h : s.Grows s') (o : ObjectId) (table : List Entity) :
    s.Grows (s'.setInternal o (.array table)) :=
  h.setFuture o _ (fun _ _ hi => by cases hi)

@[simp, grind ←] theorem setTuple (h : s.Grows s') (o : ObjectId) (table : List Entity) :
    s.Grows (s'.setInternal o (.tuple table)) :=
  h.setFuture o _ (fun _ _ hi => by cases hi)

@[simp, grind ←] theorem heapNew (h : s.Grows s') (cls : ClassId) :
    s.Grows (s'.heapNew cls).2 where
  next_le := h.next_le.trans (Nat.le_succ _)
  cls := by
    intro o ho
    have hne : o ≠ s'.nextObject := Nat.ne_of_lt (ho.trans_le h.next_le)
    rw [← h.cls o ho]
    simp [Store.cls, Store.heapNew, hne]
  futures := by
    rintro task ⟨o, future, hinternal, htask⟩
    apply h.futures task
    by_cases heq : o = s'.nextObject
    · subst heq
      simp only [internal, Store.heapNew, Function.update_self] at hinternal
      cases cls <;> cases hinternal
      cases htask
    · simp only [internal, Store.heapNew, Function.update_of_ne heq] at hinternal
      exact ⟨o, future, hinternal, htask⟩

theorem heapNewWith (h : s.Grows s') (cls : ClassId) (i : Internal)
    (hi : ∀ future, i ≠ .future future) : s.Grows (s'.heapNewWith cls i).2 :=
  (h.heapNew cls).setFuture _ i (fun future _ heq => absurd heq (hi future))

@[simp, grind ←] theorem stringNew (h : s.Grows s') (src : List Char) :
    s.Grows (s'.stringNew src).2 := h.heapNewWith .String (.string src) (by simp)

@[simp, grind ←] theorem arrayAdd (h : s.Grows s') (o : ObjectId) (e : Entity) :
    s.Grows (s'.arrayAdd o e) := h.setArray _ _

theorem foldl {α : Type} (g : Store → α → Store) : ∀ (as : List α) {s'},
    (∀ a ∈ as, ∀ {s'}, s.Grows s' → s.Grows (g s' a)) → s.Grows s' → s.Grows (as.foldl g s') := by
  intro as
  induction as with
  | nil => exact fun _ h => h
  | cons a as ih =>
    intro s' hg h
    exact ih (fun b hb => hg b (List.mem_cons_of_mem a hb)) (hg a List.mem_cons_self h)

theorem errorNew (h : s.Grows s') (lines : List Internal) (message : List Char)
    (hlines : ∀ l ∈ lines, ∀ future, l ≠ .future future) :
    s.Grows (s'.errorNew lines message).2 := by
  have hnew := (h.stringNew message).heapNew .Error
  have hmessage := hnew.setMember (s'.stringNew message).2.nextObject "message"
    (.obj (s'.stringNew message).1)
  apply setMember
  refine foldl _ lines (fun line hline s' h => ?_) (hmessage.heapNew .Array)
  exact (h.heapNewWith _ line (hlines line hline)).arrayAdd _ _

@[simp, grind ←] theorem wrapFunctionInRef (h : s.Grows s') (f : FunctionId) (o : ObjectId)
    (c : ContextId) : s.Grows (s'.wrapFunctionInRef f o c).2 := h.heapNewWith _ _ (by simp)

@[simp, grind ←] theorem getMaybeWrap (h : s.Grows s') (o : ObjectId) (field : String) (c : ContextId) :
    s.Grows (s'.getMaybeWrap o field c).2 := by
  unfold Store.getMaybeWrap
  simp only
  repeat' split
  all_goals simp [h]

@[simp, grind ←] theorem contextLookup (h : s.Grows s') (cs : Contexts) (c : ContextId) (id : String) :
    s.Grows (contextLookup s' cs c id).2 := by
  unfold JeffVm.contextLookup
  simp only
  repeat' split
  all_goals simp [h]

@[simp, grind ←] theorem contextLet (h : s.Grows s') (cs : Contexts) (c : ContextId) (id : String)
    (e : Entity) : s.Grows (contextLet s' cs c id e) := h.setMember _ _ _

@[simp, grind ←] theorem contextSet (h : s.Grows s') (cs : Contexts) (c : ContextId) (id : String)
    (e : Entity) : s.Grows (contextSet s' cs c id e) := by
  unfold JeffVm.contextSet
  simp only
  repeat' split
  all_goals simp [h]

theorem updateModules (h : s.Grows s') (modules : ModuleId → Module) :
    s.Grows { s' with modules := modules } := ⟨h.next_le, h.cls, h.futures⟩

end Grows

end Store

/-- What is assumed of the native functions and the module loader: no object that exists gets
another class. -/
structure KeepsHeap (env : Env) : Prop where
  returned : ∀ f w t c self args store value,
    env.native f w t c self args = some (.returned store value) → w.store.Grows store
  raised : ∀ f w t c self args store err,
    env.native f w t c self args = some (.raised store err) → w.store.Grows store
  loaded : ∀ store id store' m, env.modulemanagerLookup store id = some (store', m) →
    store.Grows store'

/-- The frame that an instruction leaves. -/
def Effect.frame : Effect → Frame
  | .next f | .raise f _ | .jump f _ | .call f _ _ _ | .background f _ _ | .load f _ | .wait f _
  | .newBlock f | .backBlock f | .setCatch f _ | .complete f => f

/-- The heap has only grown, and a wait is for a task that has a future and has not ended. -/
def Effect.Sound (w : World) (s : Store) : Effect → Prop
  | .wait f task => s.Grows f.store ∧ s.HasFuture task ∧
      (w.tasks task).state ≠ .COMPLETE ∧ (w.tasks task).state ≠ .ERROR
  | e => s.Grows e.frame.store

theorem Effect.Sound.grows {w : World} {s : Store} {e : Effect} (h : e.Sound w s) :
    s.Grows e.frame.store := by
  cases e with
  | wait f task => exact h.1
  | _ => exact h

def Keeps (w : World) (s : Store) (o : Option Effect) : Prop := ∀ e ∈ o, e.Sound w s

namespace Keeps

variable {w : World} {s : Store}

@[simp, grind .] theorem none : Keeps w s none := by simp [Keeps]

@[simp, grind =] theorem some (e : Effect) : Keeps w s (some e) ↔ e.Sound w s := by
  simp [Keeps]

@[simp, grind =] theorem next (f : Frame) : (Effect.next f).Sound w s ↔ s.Grows f.store := Iff.rfl

@[simp, grind =] theorem raise (f : Frame) (err : ObjectId) :
    (Effect.raise f err).Sound w s ↔ s.Grows f.store := Iff.rfl

@[simp, grind =] theorem call (f : Frame) (func : FunctionId) (self : ObjectId)
    (parentContext : Option ContextId) :
    (Effect.call f func self parentContext).Sound w s ↔ s.Grows f.store := Iff.rfl

@[simp, grind =] theorem background (f : Frame) (func : FunctionId) (self : ObjectId) :
    (Effect.background f func self).Sound w s ↔ s.Grows f.store := Iff.rfl

@[simp, grind =] theorem load (f : Frame) (m : ModuleId) :
    (Effect.load f m).Sound w s ↔ s.Grows f.store := Iff.rfl

@[simp, grind =] theorem jump (f : Frame) (n : Int) :
    (Effect.jump f n).Sound w s ↔ s.Grows f.store := Iff.rfl

@[simp, grind =] theorem newBlock (f : Frame) :
    (Effect.newBlock f).Sound w s ↔ s.Grows f.store := Iff.rfl

@[simp, grind =] theorem backBlock (f : Frame) :
    (Effect.backBlock f).Sound w s ↔ s.Grows f.store := Iff.rfl

@[simp, grind =] theorem setCatch (f : Frame) (n : Int) :
    (Effect.setCatch f n).Sound w s ↔ s.Grows f.store := Iff.rfl

@[simp, grind =] theorem complete (f : Frame) :
    (Effect.complete f).Sound w s ↔ s.Grows f.store := Iff.rfl

end Keeps

namespace Frame

variable {s : Store} {f f' : Frame}

@[grind →] theorem pop_store {e : Entity} (h : f.pop = some (e, f')) : f'.store = f.store := by
  unfold Frame.pop at h
  split at h
  · cases h
  · cases h
    rfl

theorem popN_store {n : Nat} {es : List Entity} (h : f.popN n = some (es, f')) :
    f'.store = f.store := by
  induction n generalizing f es with
  | zero =>
    cases h
    rfl
  | succ n ih =>
    rw [Frame.popN] at h
    split at h
    · cases h
    · rename_i e f₁ hpop
      split at h
      · cases h
      · rename_i es' f₂ hpopN
        cases h
        rw [ih hpopN, pop_store hpop]

@[grind →] theorem lookup_grows {cs : Contexts} {c : ContextId} {id : String} {o : Option Entity}
    (hf : s.Grows f.store) (h : f.lookup cs c id = (o, f')) : s.Grows f'.store := by
  cases h
  exact hf.contextLookup cs c id

@[simp, grind ←] theorem lookupOrNone_grows (hf : s.Grows f.store) (cs : Contexts) (c : ContextId)
    (id : String) : s.Grows (f.lookupOrNone cs c id).2.store := hf.contextLookup cs c id

@[simp, grind ←] theorem string_grows (hf : s.Grows f.store) (str : String) :
    s.Grows (f.string str).2.store := hf.stringNew _

end Frame

section

variable {env : Env} {w : World} {t : TaskId} {c : ContextId} {s : Store} {f : Frame}

@[simp, grind =] theorem withResval_store (f : Frame) (e : Entity) :
    (f.withResval e).store = f.store := rfl

@[simp, grind =] theorem push_store (f : Frame) (e : Entity) : (f.push e).store = f.store := rfl

namespace Keeps

@[simp, grind ←] theorem raiseError (hf : s.Grows f.store) (msg : String) :
    (raiseError w t f msg).Sound w s := by
  apply hf.errorNew
  intro l hl future
  simp only [World.stackLines, List.mem_flatMap, List.mem_map] at hl
  obtain ⟨_, _, _, _, rfl⟩ := hl
  simp

theorem callFunctionBase (henv : KeepsHeap env) (hf : s.Grows f.store) (func : FunctionId)
    (self : ObjectId) (parentContext : Option ContextId) :
    Keeps w s (callFunctionBase env w t c f func self parentContext) := by
  unfold JeffVm.callFunctionBase
  simp only
  split
  · split
    · split
      · simpa using hf
      · simp
    · split
      · simp
      · rename_i store value hnative
        simpa using hf.trans (henv.returned _ _ _ _ _ _ _ _ hnative)
      · rename_i store err hnative
        simpa using hf.trans (henv.raised _ _ _ _ _ _ _ _ hnative)
  · simpa using hf

theorem map_next {α : Type} {o : Option α} {g : α → Frame}
    (h : ∀ a, o = Option.some a → s.Grows (g a).store) : Keeps w s (o.map fun a => .next (g a)) := by
  cases o with
  | none => simp
  | some a => simpa using h a rfl

theorem executePrimitive (hf : s.Grows f.store) (op : Op) (arg : Arg) :
    Keeps w s (executePrimitive w t c op arg f) := by
  unfold JeffVm.executePrimitive
  simp only
  repeat' split
  all_goals first
    | grind
    | exact map_next (by grind)

theorem executeBOR (hf : s.Grows f.store) (arg : Arg) : Keeps w s (executeBOR w t c arg f) := by
  have hprimitive := executePrimitive (w := w) (t := t) (c := c) hf .BOR arg
  unfold JeffVm.executeBOR
  simp only
  repeat' split
  all_goals first
    | exact hprimitive
    | simp [hf]

@[simp] theorem equalityOfPrimitives (hf : s.Grows f.store) (op : Op) (first second : Entity) :
    (equalityOfPrimitives w t op first second f).Sound w s := by
  unfold JeffVm.equalityOfPrimitives
  repeat' split
  all_goals simp [hf]

theorem executeEQ (henv : KeepsHeap env) (hf : s.Grows f.store) (op : Op) (arg : Arg) :
    Keeps w s (executeEQ env w t c op arg f) := by
  unfold JeffVm.executeEQ
  simp only
  repeat' split
  all_goals first
    | exact callFunctionBase henv (by exact hf) _ _ _
    | grind [equalityOfPrimitives]

theorem executeRES (hf : s.Grows f.store) (arg : Arg) : Keeps w s (executeRES w c arg f) := by
  unfold JeffVm.executeRES
  split
  · apply map_next
    grind
  all_goals simp [hf]

theorem executePEEK (hf : s.Grows f.store) (arg : Arg) : Keeps w s (executePEEK w c arg f) := by
  unfold JeffVm.executePEEK
  split
  · exact map_next fun _ _ => hf
  all_goals simp [hf]

theorem executeDUP (hf : s.Grows f.store) (arg : Arg) : Keeps w s (executeDUP arg f) := by
  unfold JeffVm.executeDUP
  split
  · exact map_next fun _ _ => hf
  · simp

theorem executePUSH (hf : s.Grows f.store) (arg : Arg) : Keeps w s (executePUSH w c arg f) := by
  unfold JeffVm.executePUSH
  split <;> simp [hf]

theorem executePNIL (hf : s.Grows f.store) (arg : Arg) : Keeps w s (executePNIL arg f) := by
  unfold JeffVm.executePNIL
  split <;> simp [hf]

theorem executeRNIL (hf : s.Grows f.store) (arg : Arg) : Keeps w s (executeRNIL arg f) := by
  unfold JeffVm.executeRNIL
  split <;> simp [hf]

theorem executeFLD (hf : s.Grows f.store) (arg : Arg) : Keeps w s (executeFLD w t arg f) := by
  unfold JeffVm.executeFLD
  split
  · split
    · apply map_next
      grind
    · simp [hf]
  · simp

theorem executeLET (hf : s.Grows f.store) (arg : Arg) : Keeps w s (executeLET w c arg f) := by
  unfold JeffVm.executeLET
  split <;> simp [hf]

theorem executeSET (hf : s.Grows f.store) (arg : Arg) : Keeps w s (executeSET w c arg f) := by
  unfold JeffVm.executeSET
  split <;> simp [hf]

theorem fieldOf_inl {id : String} {raised : Effect} (hf : s.Grows f.store)
    (h : fieldOf w t c id f = .inl raised) : raised.Sound w s := by
  unfold JeffVm.fieldOf at h
  split at h <;> cases h <;> simp [hf]

theorem fieldOf_inr {id : String} {e : Entity} {f' : Frame} (hf : s.Grows f.store)
    (h : fieldOf w t c id f = .inr (e, f')) : s.Grows f'.store := by
  unfold JeffVm.fieldOf at h
  split at h <;> cases h
  exact hf.getMaybeWrap _ _ _

theorem executeGET (hf : s.Grows f.store) (arg : Arg) : Keeps w s (executeGET w t c arg f) := by
  unfold JeffVm.executeGET
  split
  · split
    · rename_i h
      simpa using fieldOf_inl hf h
    · rename_i h
      simpa using fieldOf_inr hf h
  · simp

theorem executeGTSH (hf : s.Grows f.store) (arg : Arg) : Keeps w s (executeGTSH w t c arg f) := by
  unfold JeffVm.executeGTSH
  split
  · split
    · rename_i h
      simpa using fieldOf_inl hf h
    · rename_i h
      simpa using fieldOf_inr hf h
  · simp

theorem callMethod (henv : KeepsHeap env) (hf : s.Grows f.store) (o : ObjectId) (id : String) :
    Keeps w s (callMethod env w t c o id f) := by
  unfold JeffVm.callMethod
  simp only
  repeat' split
  all_goals first
    | exact callFunctionBase henv (hf.getMaybeWrap _ _ _) _ _ _
    | simp [hf]

theorem callEntity (henv : KeepsHeap env) (hf : s.Grows f.store) (op : Op) (fn : Entity) :
    Keeps w s (callEntity env w t c op fn f) := by
  unfold JeffVm.callEntity
  simp only
  repeat' split
  all_goals first
    | exact callFunctionBase henv (by exact hf) _ _ _
    | exact callFunctionBase henv (by exact hf.heapNew _) _ _ _
    | grind

theorem executeCALL (henv : KeepsHeap env) (hf : s.Grows f.store) (op : Op) (arg : Arg) :
    Keeps w s (executeCALL env w t c op arg f) := by
  have hclear : s.Grows (if op = .CLLN then f.withResval .none else f).store := by
    split <;> exact hf
  have hpop : ∀ {f f' : Frame} {e : Entity}, s.Grows f.store → f.pop = Option.some (e, f') →
      s.Grows f'.store := by
    intro f f' e h hp
    rw [Frame.pop_store hp]
    exact h
  unfold JeffVm.executeCALL
  simp only
  repeat' split
  all_goals first
    | exact callEntity henv (hpop hclear ‹_›) _ _
    | exact callMethod henv (hpop hclear ‹_›) _ _
    | exact callEntity henv (hpop hf ‹_›) _ _
    | simp [hpop hclear ‹_›]
    | simp

theorem executeWAIT (hf : s.Grows f.store) : Keeps w s (executeWAIT w t f) := by
  unfold JeffVm.executeWAIT
  split
  · rename_i o _
    split
    · rename_i future _ hfuture
      have hold : ∀ task, future.task = Option.some task → f.store.HasFuture task :=
        fun task htask => ⟨o, future, hfuture, htask⟩
      have hone : s.Grows (f.store.setInternal o (.future { future with isComplete := true })) := by
        apply hf.setFuture
        rintro _ task ⟨⟩ htask
        exact hold task htask
      simp only
      split
      · rename_i task hdone htask
        simp only [htask, Option.any_some, Bool.or_eq_false_iff, decide_eq_false_iff_not,
          not_or] at hdone
        exact (Keeps.some _).mpr ⟨hf, hf.futures task (hold task htask), hdone.2⟩
      · simp
      · split
        · exact map_next fun _ _ => hone
        · split
          · simp
          · rename_i task htask
            rw [some, next]
            apply (hone.setMember _ _ _).setFuture
            rintro _ task' ⟨⟩ htask'
            refine ⟨o, { future with isComplete := true }, ?_, htask'⟩
            rw [Store.internal_setMember]
            simp [Store.internal, Store.setInternal]
    · simp
    · simpa using hf
  · simpa using hf

theorem executeANEW (hf : s.Grows f.store) (arg : Arg) : Keeps w s (executeANEW arg f) := by
  unfold JeffVm.executeANEW
  simp only
  split
  · simp [hf]
  · apply map_next
    rintro ⟨es, f'⟩ hpop
    refine Store.Grows.foldl _ es (fun e _ _ h => h.arrayAdd _ e) ?_
    rw [Frame.popN_store hpop]
    exact hf.heapNew _
  · simp

theorem executeAIDX (henv : KeepsHeap env) (hf : s.Grows f.store) (arg : Arg) :
    Keeps w s (executeAIDX env w t c arg f) := by
  unfold JeffVm.executeAIDX
  cases arg
  all_goals
    simp only
    repeat' split
  all_goals first
    | exact callFunctionBase henv (by grind) _ _ _
    | grind

theorem executeASET (henv : KeepsHeap env) (hf : s.Grows f.store) :
    Keeps w s (executeASET env w t c f) := by
  unfold JeffVm.executeASET
  simp only
  repeat' split
  all_goals first
    | exact callFunctionBase henv (hf.heapNewWith .Tuple _ (by simp)) _ _ _
    | simp [hf]

theorem executeTUPL (hf : s.Grows f.store) (arg : Arg) : Keeps w s (executeTUPL arg f) := by
  unfold JeffVm.executeTUPL
  simp only
  split
  · apply map_next
    rintro ⟨es, f'⟩ hpop
    apply Store.Grows.setTuple
    rw [Frame.popN_store hpop]
    exact hf.heapNew _
  · simp

theorem executeTLEN (hf : s.Grows f.store) (arg : Arg) : Keeps w s (executeTLEN arg f) := by
  unfold JeffVm.executeTLEN
  split
  · cases f.peek with
    | none => simp
    | some e =>
      simp only [Option.map_some, some]
      split <;> exact hf
  · simp

theorem executeTGTE (hf : s.Grows f.store) (arg : Arg) : Keeps w s (executeTGTE w t arg f) := by
  unfold JeffVm.executeTGTE
  repeat' split
  all_goals simp [hf]

theorem executeTGET (hf : s.Grows f.store) (arg : Arg) : Keeps w s (executeTGET w t arg f) := by
  unfold JeffVm.executeTGET
  repeat' split
  all_goals grind

theorem executeIS (hf : s.Grows f.store) (arg : Arg) : Keeps w s (executeIS w t arg f) := by
  unfold JeffVm.executeIS
  simp only
  repeat' split
  all_goals simp [hf]

theorem executeLMDL (henv : KeepsHeap env) (hf : s.Grows f.store) (arg : Arg) :
    Keeps w s (executeLMDL env w t c arg f) := by
  unfold JeffVm.executeLMDL
  simp only
  split
  · split
    · simp
    · rename_i store hload
      have hstore := hf.trans (henv.loaded _ _ _ _ hload)
      simp [hstore]
    · rename_i store m hload
      have hstore := hf.trans (henv.loaded _ _ _ _ hload)
      split
      · simp [hstore]
      · exact (Keeps.some _).mpr ((hstore.setMember _ _ _).updateModules _)
  · simp

theorem executeRAIS (hf : s.Grows f.store) : Keeps w s (executeRAIS w t f) := by
  unfold JeffVm.executeRAIS
  simp only
  repeat' split
  all_goals simp [hf]

theorem executeRET (hf : s.Grows f.store) (arg : Arg) : Keeps w s (executeRET w c arg f) := by
  unfold JeffVm.executeRET
  repeat' split
  all_goals grind

theorem executeIF (hf : s.Grows f.store) (op : Op) (arg : Arg) : Keeps w s (executeIF op arg f) := by
  unfold JeffVm.executeIF
  simp only
  repeat' split
  all_goals simp [hf]

theorem executeNBLK (hf : s.Grows f.store) (arg : Arg) : Keeps w s (executeNBLK arg f) := by
  unfold JeffVm.executeNBLK
  split <;> simp [hf]

theorem executeBBLK (hf : s.Grows f.store) (arg : Arg) : Keeps w s (executeBBLK arg f) := by
  unfold JeffVm.executeBBLK
  split <;> simp [hf]

theorem executeJMP (hf : s.Grows f.store) (arg : Arg) : Keeps w s (executeJMP arg f) := by
  unfold JeffVm.executeJMP
  split <;> simp [hf]

theorem executeEXIT (hf : s.Grows f.store) (arg : Arg) : Keeps w s (executeEXIT arg f) := by
  unfold JeffVm.executeEXIT
  split <;> simp [hf]

theorem executeNOT (hf : s.Grows f.store) (arg : Arg) : Keeps w s (executeNOT arg f) := by
  unfold JeffVm.executeNOT
  split <;> simp [hf]

theorem executeCTCH (hf : s.Grows f.store) (arg : Arg) : Keeps w s (executeCTCH arg f) := by
  unfold JeffVm.executeCTCH
  split <;> simp [hf]

end Keeps

/-- What an instruction leaves. -/
theorem execute_keeps (henv : KeepsHeap env) (ins : Instruction) :
    Keeps w w.store (execute env w t c ins) := by
  have hf : w.store.Grows (w.frame t).store := .refl _
  unfold execute
  cases ins.op
  case RES => exact Keeps.executeRES hf _
  case RNIL => exact Keeps.executeRNIL hf _
  case PUSH => exact Keeps.executePUSH hf _
  case PNIL => exact Keeps.executePNIL hf _
  case PEEK => exact Keeps.executePEEK hf _
  case DUP => exact Keeps.executeDUP hf _
  case FLD => exact Keeps.executeFLD hf _
  case LET => exact Keeps.executeLET hf _
  case SET => exact Keeps.executeSET hf _
  case GET => exact Keeps.executeGET hf _
  case GTSH => exact Keeps.executeGTSH hf _
  case CALL | CLLN => exact Keeps.executeCALL henv hf _ _
  case RET => exact Keeps.executeRET hf _
  case NBLK => exact Keeps.executeNBLK hf _
  case BBLK => exact Keeps.executeBBLK hf _
  case JMP => exact Keeps.executeJMP hf _
  case IF | IFN => exact Keeps.executeIF hf _ _
  case EXIT => exact Keeps.executeEXIT hf _
  case BOR => exact Keeps.executeBOR hf _
  case EQ | NEQ => exact Keeps.executeEQ henv hf _ _
  case IS => exact Keeps.executeIS hf _
  case NOT => exact Keeps.executeNOT hf _
  case ANEW => exact Keeps.executeANEW hf _
  case AIDX => exact Keeps.executeAIDX henv hf _
  case ASET => exact Keeps.executeASET henv hf
  case TUPL => exact Keeps.executeTUPL hf _
  case TLEN => exact Keeps.executeTLEN hf _
  case TGET => exact Keeps.executeTGET hf _
  case TGTE => exact Keeps.executeTGTE hf _
  case CTCH => exact Keeps.executeCTCH hf _
  case RAIS => exact Keeps.executeRAIS hf
  case LMDL => exact Keeps.executeLMDL henv hf _
  case WAIT => exact Keeps.executeWAIT hf
  all_goals first
    | exact Keeps.executePrimitive hf _ _
    | exact Keeps.none

end

end JeffVm
