import JeffVm.Propagation
import JeffVm.Scheduler

/-!
# Errors of awaited tasks

When a task ends in an error, its parent gets the flag and the tasks that wait for it get the
error. The two agree where the parent is the one task that waits; a `WAIT` that comes too late
finds a value.
-/

set_option autoImplicit false

namespace JeffVm

/-! ## What is delivered -/

namespace World

/-- The context has an error pending, and no block has a handler for it. -/
def Uncaught (w : World) (t : TaskId) (c : ContextId) : Prop :=
  (w.contexts.context c).error.isSome ∧ (w.contexts.context c).catchIns < 0 ∧
    ∀ cur, (w.tasks t).current = some cur →
      ∀ d ∈ (w.contexts.chain cur).tail, (w.contexts.context d).catchIns < 0

/-- The task ends in `TASK_ERROR`. -/
def Fails (w w' : World) (t : TaskId) : Prop :=
  (w.tasks t).state ≠ .ERROR ∧ (w'.tasks t).state = .ERROR

/-- The result value is an `Error` object. -/
def HoldsError (w : World) (t : TaskId) : Prop :=
  ∃ err : Nat, err < w.store.nextObject ∧ (w.tasks t).resval = .obj err ∧ w.store.cls err = .Error

def Awaits (w : World) (p t : TaskId) : Prop := p ∈ w.waiting ∧ p ∈ (w.tasks t).dependentTasks

/-- The running task is at a `WAIT` for the future. -/
def WaitsOn (w : World) (t : TaskId) (future : Future) : Prop :=
  ∃ c w₁ arg o, w.running = some (t, c) ∧ w.fetch t c = some (true, w₁) ∧
    w₁.contextIns c = some ⟨.WAIT, arg⟩ ∧ (w₁.tasks t).resval = .obj o ∧
      w₁.store.cls o = .Future ∧ w₁.store.internal o = .future future

end World

/-- The tasks with a flag have the error that they will be resumed with. -/
structure FlagsSound (w : World) : Prop where
  queued : ∀ p, (w.tasks p).childTaskHasError = true → p ∈ w.queued
  error : ∀ p, (w.tasks p).childTaskHasError = true → w.HoldsError p

/-- What a step does with errors. -/
structure Delivers (w : World) (e : Event) (w' : World) : Prop where
  /-- The error goes to all tasks that wait. -/
  awaited : ∀ t err p, w.Fails w' t → (w.tasks t).parentTask.isSome →
    (w.tasks t).resval = .obj err → w.Awaits p t →
      (w'.tasks p).childTaskHasError = true ∧ (w'.tasks p).resval = .obj err ∧ p ∈ w'.queued
  /-- No other task gets the flag. -/
  spared : ∀ p, (w'.tasks p).childTaskHasError = true →
    (w.tasks p).childTaskHasError = true ∨ ∃ t, w.Fails w' t ∧ w.Awaits p t
  /-- The error stays until the task is resumed. -/
  kept : ∀ p, (w.tasks p).childTaskHasError = true → e ≠ .start p →
    (w'.tasks p).childTaskHasError = true ∧ (w'.tasks p).resval = (w.tasks p).resval
  /-- The task is resumed with the error raised in its current context. -/
  raised : ∀ p, (w.tasks p).childTaskHasError = true → e = .start p →
    ∃ err c, (w.tasks p).resval = .obj err ∧ w.store.cls err = .Error ∧
      (w.tasks p).current = some c ∧ w'.running = some (p, c) ∧
        (w'.contexts.context c).error = some err
  /-- A `WAIT` before the task has ended. -/
  early : ∀ t task isResultSet, e = .execute → w.WaitsOn t ⟨some task, false, isResultSet⟩ →
    (w.tasks task).state ≠ .COMPLETE → (w.tasks task).state ≠ .ERROR → w'.Awaits t task
  /-- A task waits on until what it waits for has ended. -/
  patient : ∀ p t, w.Awaits p t → t ∉ w'.completed → w'.Awaits p t
  /-- A `WAIT` for a task that has failed raises its error. -/
  late : ∀ t task future err, e = .execute → w.WaitsOn t future → future.task = some task →
    (w.tasks task).state = .ERROR → (w.tasks task).resval = .obj err →
      ∃ c, w'.running = some (t, c) ∧ (w'.contexts.context c).error = some err

/-- A task that fails is waited for by its parent and no other task, with an `Error`, and a
`WAIT` is not for a task that has failed. -/
structure Deliverable (w : World) (e : Event) : Prop where
  fails : e = .execute → ∀ t c parent, w.running = some (t, c) → w.Uncaught t c →
    (w.tasks t).parentTask = some parent → w.HoldsError t ∧ ∀ p, w.Awaits p t ↔ p = parent
  waits : e = .execute → ∀ t task future, w.WaitsOn t future → future.task = some task →
    (w.tasks task).state ≠ .ERROR

/-! ## The other tasks -/

/-- What a step of task `t` leaves of the other tasks, and of the classes of objects. -/
structure LeavesOthers (t : TaskId) (w w' : World) : Prop where
  next_le : w.nextTask ≤ w'.nextTask
  queued : ∀ s ∈ w.queued, s ∈ w'.queued
  waiting : ∀ s ∈ w.waiting, s ∈ w'.waiting
  completed : w'.completed = w.completed
  flag : ∀ s, (w'.tasks s).childTaskHasError = true → (w.tasks s).childTaskHasError = true
  error : ∀ s, s ≠ t → (w'.tasks s).state = .ERROR → (w.tasks s).state = .ERROR
  kept : ∀ s : Nat, s ≠ t → s < w.nextTask →
    (w'.tasks s).childTaskHasError = (w.tasks s).childTaskHasError ∧
      (w'.tasks s).resval = (w.tasks s).resval
  dependents : ∀ s : Nat, s < w.nextTask → ∀ d ∈ (w.tasks s).dependentTasks,
    d ∈ (w'.tasks s).dependentTasks
  objects : w.store.nextObject ≤ w'.store.nextObject
  cls : ∀ o : Nat, o < w.store.nextObject → w'.store.cls o = w.store.cls o

namespace LeavesOthers

variable {t : TaskId} {w w' w'' : World}

theorem of_tasks (htasks : w'.tasks = w.tasks) (hnext : w'.nextTask = w.nextTask)
    (hqueued : ∀ s ∈ w.queued, s ∈ w'.queued) (hwaiting : ∀ s ∈ w.waiting, s ∈ w'.waiting)
    (hcompleted : w'.completed = w.completed) (hstore : w.store.nextObject ≤ w'.store.nextObject)
    (hcls : ∀ o : Nat, o < w.store.nextObject → w'.store.cls o = w.store.cls o) :
    LeavesOthers t w w' where
  next_le := Nat.le_of_eq hnext.symm
  queued := hqueued
  waiting := hwaiting
  completed := hcompleted
  flag s := by rw [htasks]; exact id
  error s _ := by rw [htasks]; exact id
  kept s _ _ := by rw [htasks]; exact ⟨rfl, rfl⟩
  dependents s _ d hd := by rw [htasks]; exact hd
  objects := hstore
  cls := hcls

theorem refl (w : World) : LeavesOthers t w w :=
  of_tasks rfl rfl (fun _ h => h) (fun _ h => h) rfl (Nat.le_refl _) fun _ _ => rfl

theorem trans (h : LeavesOthers t w w') (h' : LeavesOthers t w' w'') : LeavesOthers t w w'' where
  next_le := h.next_le.trans h'.next_le
  queued s hs := h'.queued s (h.queued s hs)
  waiting s hs := h'.waiting s (h.waiting s hs)
  completed := h'.completed.trans h.completed
  flag s hs := h.flag s (h'.flag s hs)
  error s hne hs := h.error s hne (h'.error s hne hs)
  kept s hne hlt := by
    obtain ⟨hflag, hresval⟩ := h.kept s hne hlt
    obtain ⟨hflag', hresval'⟩ := h'.kept s hne (hlt.trans_le h.next_le)
    exact ⟨hflag'.trans hflag, hresval'.trans hresval⟩
  dependents s hlt d hd := h'.dependents s (hlt.trans_le h.next_le) d (h.dependents s hlt d hd)
  objects := h.objects.trans h'.objects
  cls o ho := (h'.cls o (ho.trans_le h.objects)).trans (h.cls o ho)

/-- A change of one task: of its own fields, or of some that are not looked at. -/
theorem modifyTask (w : World) (s : TaskId) (f : Task → Task)
    (hflag : (f (w.tasks s)).childTaskHasError = (w.tasks s).childTaskHasError)
    (herror : s = t ∨ ((f (w.tasks s)).state = .ERROR → (w.tasks s).state = .ERROR))
    (hresval : s = t ∨ (f (w.tasks s)).resval = (w.tasks s).resval)
    (hdependents : ∀ d ∈ (w.tasks s).dependentTasks, d ∈ (f (w.tasks s)).dependentTasks) :
    LeavesOthers t w (w.modifyTask s f) where
  next_le := Nat.le_refl _
  queued _ h := h
  waiting _ h := h
  completed := rfl
  flag r := by
    by_cases hr : r = s
    · subst hr
      simp [World.modifyTask, hflag]
    · simp [World.modifyTask, hr]
  error r hne := by
    by_cases hr : r = s
    · subst hr
      simpa [World.modifyTask] using herror.resolve_left hne
    · simp [World.modifyTask, hr]
  kept r hne _ := by
    by_cases hr : r = s
    · subst hr
      simp [World.modifyTask, hflag, hresval.resolve_left hne]
    · simp [World.modifyTask, hr]
  dependents r _ d hd := by
    by_cases hr : r = s
    · subst hr
      simpa [World.modifyTask] using hdependents d hd
    · simpa [World.modifyTask, hr] using hd
  objects := Nat.le_refl _
  cls _ _ := rfl

theorem setFrame (w : World) {f : Frame} (h : w.store.Grows f.store) :
    LeavesOthers t w (w.setFrame t f) :=
  (modifyTask w t (fun task => { task with resval := f.resval, entityStack := f.stack }) rfl
    (.inl rfl) (.inl rfl) fun _ hd => hd).trans
      (of_tasks rfl rfl (fun _ h => h) (fun _ h => h) rfl h.next_le h.cls)

theorem setState (w : World) (state : TaskState) : LeavesOthers t w (w.setState t state) :=
  modifyTask w t _ rfl (.inl rfl) (.inr rfl) fun _ hd => hd

theorem setResval (w : World) (e : Entity) : LeavesOthers t w (w.setResval t e) :=
  modifyTask w t _ rfl (.inl rfl) (.inl rfl) fun _ hd => hd

theorem addDependent (w : World) (s d : TaskId) : LeavesOthers t w (w.addDependent s d) :=
  modifyTask w s _ rfl (.inr id) (.inr rfl) fun _ hd => mem_setInsert.mpr (.inl hd)

theorem withContexts (w : World) (contexts : Contexts) :
    LeavesOthers t w { w with contexts := contexts } :=
  of_tasks rfl rfl (fun _ h => h) (fun _ h => h) rfl (Nat.le_refl _) fun _ _ => rfl

theorem incIns (w : World) (c : ContextId) : LeavesOthers t w (w.incIns c) := withContexts w _

/-- The new task has no flag. -/
theorem createTask (w : World) (parent : TaskId) (e : Entity) :
    LeavesOthers t w (w.createTask parent e).2 where
  next_le := Nat.le_succ _
  queued _ h := h
  waiting _ h := h
  completed := rfl
  flag s := by
    by_cases hs : s = w.nextTask
    · subst hs
      simp [World.createTask]
    · simp [World.createTask, hs]
  error s _ := by
    by_cases hs : s = w.nextTask
    · subst hs
      simp [World.createTask]
    · simp [World.createTask, hs]
  kept s _ hlt := by simp [World.createTask, Nat.ne_of_lt hlt]
  dependents s hlt d hd := by simpa [World.createTask, Nat.ne_of_lt hlt] using hd
  objects := Nat.le_refl _
  cls _ _ := rfl

theorem heapNewWith (w : World) (cls : ClassId) (i : Internal) :
    LeavesOthers t w { w with store := (w.store.heapNewWith cls i).2 } := by
  refine of_tasks rfl rfl (fun _ h => h) (fun _ h => h) rfl (Nat.le_succ _) ?_
  intro o ho
  unfold Store.cls
  rw [Store.objects_heapNewWith_ne _ _ _ (Nat.ne_of_lt ho)]

theorem createContext {s : TaskId} {self : ObjectId} {m : ModuleId} {insPos : Int}
    {func : Option FunctionId} {previous : Option ContextId} {c : ContextId}
    (h : w.createContext s self m insPos func previous = some (c, w')) : LeavesOthers t w w' := by
  unfold World.createContext at h
  simp only at h
  split at h
  · cases h
  · cases h
    have hcurrent : LeavesOthers t w (w.modifyTask s fun task => { task with current := some c }) :=
      modifyTask w s _ rfl (.inr id) (.inr rfl) fun _ hd => hd
    have hgrows := (Store.Grows.refl w.store).heapNew .Object
    exact hcurrent.trans (of_tasks rfl rfl (fun _ h => h) (fun _ h => h) rfl hgrows.next_le hgrows.cls)

theorem executeAsNewTask {s : TaskId} {self : ObjectId} {m : ModuleId} {insPos : Int}
    {func : Option FunctionId} {previous : Option ContextId} {child : TaskId}
    (h : w.executeAsNewTask s self m insPos func previous = some (child, w')) :
    LeavesOthers t w w' := by
  unfold World.executeAsNewTask at h
  obtain ⟨⟨c, w₁⟩, hcreate, heq⟩ := Option.map_eq_some_iff.mp h
  cases heq
  have hcreated : LeavesOthers t w (w.createTask s (w.tasks s).resval).2 := createTask w s _
  have hqueued : LeavesOthers t w ((w.createTask s (w.tasks s).resval).2.enqueue w.nextTask) :=
    hcreated.trans
      (of_tasks rfl rfl (fun _ h => List.mem_append_left _ h) (fun _ h => h) rfl (Nat.le_refl _)
        fun _ _ => rfl)
  exact hqueued.trans (createContext hcreate)

theorem futureCreate (w : World) (s : TaskId) : LeavesOthers t w (w.futureCreate s).2 :=
  heapNewWith w _ _

theorem taskBackContext {s : TaskId} {p : Option ContextId}
    (h : w.taskBackContext s = some (p, w')) : LeavesOthers t w w' := by
  unfold World.taskBackContext at h
  split at h
  · cases h
  · simp only at h
    split at h
    · cases h
      exact modifyTask w s _ rfl (.inr id) (.inr rfl) fun _ hd => hd
    · cases h
      exact (modifyTask w s _ rfl (.inr id) (.inr rfl) fun _ hd => hd).trans (withContexts _ _)

theorem findHandler {s : TaskId} : ∀ {n : Nat} {c : ContextId} {w w' : World}
    {found : Option ContextId}, w.findHandler s n c = some (found, w') → LeavesOthers t w w'
  | 0, c, w, w', found, h => by cases h
  | n + 1, c, w, w', found, h => by
    rw [World.findHandler] at h
    split at h
    · split at h
      · cases h
      · next hback =>
        cases h
        exact taskBackContext hback
      · next hback => exact (taskBackContext hback).trans (findHandler h)
    · cases h
      exact refl w

end LeavesOthers

section Steps

variable {env : Env} {w w' : World} {t : TaskId} {c : ContextId}

/-- The search for a handler leaves the task itself alone as well. -/
theorem fetch_leavesOthers {s : TaskId} {b : Bool} (h : w.fetch t c = some (b, w')) :
    if b then LeavesOthers s w w'
    else w.Uncaught t c ∧ ∃ w₁, LeavesOthers s w w₁ ∧ w' = w₁.setState t .ERROR := by
  unfold World.fetch at h
  split at h
  · next hpending =>
    by_cases hc : (w.contexts.context c).catchIns < 0
    · have hfetch := h
      unfold World.attempCatchError at h
      split at h
      · cases h
      · next w₁ hfound =>
        cases h
        refine ⟨⟨hpending, hc, ?_⟩, w₁, LeavesOthers.findHandler hfound, rfl⟩
        intro cur hcur d hd
        rcases World.attempCatchError_cases hcur hc with
          ⟨pre, handler, post, -, -, -, heq⟩ | ⟨pre, hchain, hpre, -⟩
        · rw [heq] at hfetch
          cases hfetch
        · rw [hchain] at hd
          exact hpre d hd
      · next hfound =>
        cases h
        exact (LeavesOthers.findHandler hfound).trans (LeavesOthers.withContexts _ _)
    · rw [World.attempCatchError_here (by omega)] at h
      cases h
      exact LeavesOthers.withContexts _ _
  · cases h
    exact LeavesOthers.refl w

theorem apply_leavesOthers {effect : Effect} {out : World.Outcome} (hsound : effect.Sound w w.store)
    (h : w.apply t c effect = some (w', out)) : LeavesOthers t w w' := by
  have hframe : LeavesOthers t w (w.setFrame t effect.frame) :=
    LeavesOthers.setFrame w hsound.grows
  cases effect with
  | next f =>
    cases h
    exact hframe.trans (LeavesOthers.incIns _ c)
  | raise f err =>
    cases h
    have hraised : LeavesOthers t w (w.setFrame t (f.withResval (.obj err))) :=
      LeavesOthers.setFrame w hsound.grows
    exact (hraised.trans (LeavesOthers.withContexts _ _)).trans (LeavesOthers.incIns _ c)
  | jump f n =>
    cases h
    exact hframe.trans (LeavesOthers.withContexts _ _)
  | call f func self parentContext =>
    simp only [World.apply] at h
    split at h
    · cases h
    · next child w₁ htask =>
      have hchild := hframe.trans (LeavesOthers.executeAsNewTask htask)
      split at h
      · cases h
        exact ((hchild.trans (LeavesOthers.futureCreate w₁ child)).trans
          (LeavesOthers.setResval _ _)).trans (LeavesOthers.incIns _ c)
      · cases h
        exact ((hchild.trans (LeavesOthers.addDependent w₁ child t)).trans
          (LeavesOthers.setState _ _)).trans (LeavesOthers.incIns _ c)
  | background f func self =>
    cases h
    have hchild := hframe.trans (LeavesOthers.createTask (w.setFrame t f) t f.resval)
    have hfuture := hchild.trans (LeavesOthers.futureCreate _ w.nextTask)
    refine (LeavesOthers.trans (LeavesOthers.trans hfuture ?_) (LeavesOthers.setResval _ _)).trans
      (LeavesOthers.incIns _ c)
    exact LeavesOthers.of_tasks rfl rfl (fun _ h => h) (fun _ h => h) rfl (Nat.le_refl _)
      fun _ _ => rfl
  | load f m =>
    simp only [World.apply] at h
    split at h
    · cases h
    · next child w₁ htask =>
      cases h
      exact (((hframe.trans (LeavesOthers.executeAsNewTask htask)).trans
        (LeavesOthers.addDependent w₁ child t)).trans
          (LeavesOthers.setState _ _)).trans (LeavesOthers.incIns _ c)
  | wait f task =>
    cases h
    exact ((hframe.trans (LeavesOthers.addDependent _ task t)).trans
      (LeavesOthers.setState _ _)).trans (LeavesOthers.incIns _ c)
  | newBlock f =>
    simp only [World.apply] at h
    split at h
    · cases h
    · next hcreate =>
      cases h
      exact (hframe.trans (LeavesOthers.createContext hcreate)).trans (LeavesOthers.incIns _ _)
  | backBlock f =>
    simp only [World.apply] at h
    split at h
    · next hback =>
      cases h
      exact (hframe.trans (LeavesOthers.taskBackContext hback)).trans (LeavesOthers.incIns _ _)
    · cases h
  | setCatch f n =>
    cases h
    exact (hframe.trans (LeavesOthers.withContexts _ _)).trans (LeavesOthers.incIns _ c)
  | complete f =>
    cases h
    exact (hframe.trans (LeavesOthers.setState _ _)).trans (LeavesOthers.incIns _ c)

/-- A task that an instruction stops waits or has completed. -/
theorem apply_stopped {effect : Effect} (h : w.apply t c effect = some (w', .stopped)) :
    (w'.tasks t).state = .WAITING ∨ (w'.tasks t).state = .COMPLETE := by
  cases effect with
  | call f func self parentContext =>
    simp only [World.apply] at h
    split at h
    · cases h
    · split at h
      · cases h
      · cases h
        simp [World.incIns, World.modifyContext]
  | load f m =>
    simp only [World.apply] at h
    split at h
    · cases h
    · cases h
      simp [World.incIns, World.modifyContext]
  | wait f task =>
    cases h
    simp [World.incIns, World.modifyContext]
  | complete f =>
    cases h
    simp [World.incIns, World.modifyContext]
  | newBlock f =>
    simp only [World.apply] at h
    split at h <;> cases h
  | backBlock f =>
    simp only [World.apply] at h
    split at h <;> cases h
  | next f => cases h
  | raise f err => cases h
  | jump f n => cases h
  | background f func self => cases h
  | setCatch f n => cases h

theorem iterate_leavesOthers {out : World.Outcome} (henv : KeepsHeap env)
    (h : w.iterate env t c = some (w', out)) : LeavesOthers t w w' := by
  unfold World.iterate at h
  split at h
  · cases h
  · next w₁ hfetch =>
    cases h
    obtain ⟨-, w₂, hothers, heq⟩ := fetch_leavesOthers (s := t) hfetch
    rw [heq]
    exact hothers.trans (LeavesOthers.setState w₂ .ERROR)
  · next w₁ hfetch =>
    have hfetched : LeavesOthers t w w₁ := fetch_leavesOthers hfetch
    split at h
    · cases h
    · split at h
      · cases h
      · next effect heffect =>
        exact hfetched.trans (apply_leavesOthers (execute_keeps henv _ effect heffect) h)

/-- The one way for a task to fail. -/
theorem iterate_error (hlt : t < w.nextTask) (h : w.iterate env t c = some (w', .stopped))
    (herror : (w'.tasks t).state = .ERROR) :
    w.Uncaught t c ∧ (w'.tasks t).resval = (w.tasks t).resval := by
  unfold World.iterate at h
  split at h
  · cases h
  · next hfetch =>
    cases h
    obtain ⟨huncaught, w₁, hothers, heq⟩ := fetch_leavesOthers (s := w.nextTask) hfetch
    rw [heq, World.setState_resval]
    exact ⟨huncaught, (hothers.kept t (Nat.ne_of_lt hlt) hlt).2⟩
  · split at h
    · cases h
    · split at h
      · cases h
      · rcases apply_stopped h with hstate | hstate
        · rw [hstate] at herror
          cases herror
        · rw [hstate] at herror
          cases herror

end Steps

/-! ## What is handed on -/

/-- What a step that resumes no task does with errors. -/
structure HandsOn (w w' : World) : Prop where
  sound : FlagsSound w'
  awaited : ∀ t err p, w.Fails w' t → (w.tasks t).parentTask.isSome →
    (w.tasks t).resval = .obj err → w.Awaits p t →
      (w'.tasks p).childTaskHasError = true ∧ (w'.tasks p).resval = .obj err ∧ p ∈ w'.queued
  spared : ∀ p, (w'.tasks p).childTaskHasError = true →
    (w.tasks p).childTaskHasError = true ∨ ∃ t, w.Fails w' t ∧ w.Awaits p t
  kept : ∀ p, (w.tasks p).childTaskHasError = true →
    (w'.tasks p).childTaskHasError = true ∧ (w'.tasks p).resval = (w.tasks p).resval
  patient : ∀ p t, w.Awaits p t → t ∉ w'.completed → w'.Awaits p t

section HandsOn

variable {env : Env} {w w' w₁ : World} {t : TaskId} {c : ContextId} {active : List TaskId}

/-- A task with a flag is in the queue only. -/
theorem FlagsSound.other (hflags : FlagsSound w) (h : Scheduled w (t :: active)) {p : Nat}
    (hp : (w.tasks p).childTaskHasError = true) : p ≠ t ∧ p < w.nextTask ∧ p ∉ w.waiting := by
  have hqueued := hflags.queued p hp
  obtain ⟨hwaiting, -, hactive, -⟩ := h.of_queued hqueued
  refine ⟨?_, ?_, hwaiting⟩
  · intro heq
    exact hactive (heq ▸ List.mem_cons_self)
  · apply h.lt_of_places
    have hpos := List.count_pos_iff.mpr hqueued
    unfold World.places
    omega

/-- A task waits for one. -/
theorem Scheduled.awaits_unique {p s : Nat} (h : Scheduled w active) (hp : w.Awaits p s)
    (hs : s ∉ w.completed) :
    s < w.nextTask ∧ ∀ s', p ∈ (w.tasks s').dependentTasks → s' ∉ w.completed → s' = s := by
  obtain ⟨hwaiting, hmem⟩ := hp
  rcases h.depends s p hmem hs with hdead | ⟨-, hunique⟩
  · have hstate := h.waiting p hwaiting
    simp [World.dead, hstate] at hdead
  · obtain ⟨s', hlt, hmem', hs'⟩ := h.awaited p hwaiting
    obtain rfl := hunique s' hmem' hs'
    exact ⟨hlt, hunique⟩

theorem World.HoldsError.keep {p : Nat} (h : w.HoldsError p)
    (hresval : (w'.tasks p).resval = (w.tasks p).resval)
    (hobjects : w.store.nextObject ≤ w'.store.nextObject)
    (hcls : ∀ o : Nat, o < w.store.nextObject → w'.store.cls o = w.store.cls o) :
    w'.HoldsError p := by
  obtain ⟨err, hlt, herr, hclass⟩ := h
  exact ⟨err, hlt.trans_le hobjects, hresval.trans herr, (hcls err hlt).trans hclass⟩

/-- A step in which no task with a parent fails. -/
theorem LeavesOthers.handsOn (ho : LeavesOthers t w w') (h : Scheduled w (t :: active))
    (hflags : FlagsSound w)
    (hend : (w'.tasks t).state = .ERROR → (w.tasks t).parentTask = none) : HandsOn w w' := by
  have hkept : ∀ p, (w.tasks p).childTaskHasError = true →
      (w'.tasks p).childTaskHasError = true ∧ (w'.tasks p).resval = (w.tasks p).resval := by
    intro p hp
    obtain ⟨hne, hlt, -⟩ := hflags.other h hp
    obtain ⟨hflag, hresval⟩ := ho.kept p hne hlt
    exact ⟨hflag.trans hp, hresval⟩
  refine ⟨⟨?_, ?_⟩, ?_, ?_, hkept, ?_⟩
  · intro p hp
    exact ho.queued p (hflags.queued p (ho.flag p hp))
  · intro p hp
    have hold := ho.flag p hp
    exact (hflags.error p hold).keep (hkept p hold).2 ho.objects ho.cls
  · rintro s err p ⟨hbefore, hafter⟩ hparent - -
    by_cases hs : s = t
    · subst hs
      rw [hend hafter] at hparent
      cases hparent
    · exact absurd (ho.error s hs hafter) hbefore
  · intro p hp
    exact .inl (ho.flag p hp)
  · intro p s hp hs
    rw [ho.completed] at hs
    exact ⟨ho.waiting p hp.1, ho.dependents s (h.awaits_unique hp hs).1 p hp.2⟩

/-- The end of a task, with the flag for the tasks that wait when it has failed. -/
theorem LeavesOthers.handsOn_mark {state : TaskState} {w₂ : World} (ho : LeavesOthers t w w₁)
    (h : Scheduled w (t :: active)) (hflags : FlagsSound w)
    (hsteady : Steady (w.setState t state) w₂) (hstore : w₂.store = w₁.store)
    (hresval : ∀ s, (w₂.tasks s).resval = (w₁.tasks s).resval)
    (hflag : ∀ s, (w₂.tasks s).childTaskHasError = true ↔
      (w₁.tasks s).childTaskHasError = true ∨ state = .ERROR ∧ w.Awaits s t)
    (herror : state = .ERROR → w.HoldsError t ∧ (w₁.tasks t).resval = (w.tasks t).resval) :
    HandsOn w (w₂.markTaskComplete t) := by
  have hwakes := World.wakes_markTaskComplete w₂ t
  generalize w₂.markTaskComplete t = w' at hwakes
  have hwoken : ∀ p, p ∈ w₂.woken t ↔ w.Awaits p t := by
    intro p
    rw [h.mem_woken hsteady]
    exact and_comm
  have hflag' : ∀ p, (w'.tasks p).childTaskHasError = (w₂.tasks p).childTaskHasError := by
    intro p
    rw [hwakes.tasks]
    split <;> rfl
  -- A task that waits gets the result value, all others keep theirs.
  have hresumed : ∀ p, w.Awaits p t → (w'.tasks p).resval = (w₁.tasks t).resval := by
    intro p hp
    rw [hwakes.tasks, if_pos ((hwoken p).mpr hp), hresval]
  have hkept : ∀ p, (w.tasks p).childTaskHasError = true →
      (w'.tasks p).childTaskHasError = true ∧ (w'.tasks p).resval = (w.tasks p).resval := by
    intro p hp
    obtain ⟨hne, hlt, hwaiting⟩ := hflags.other h hp
    obtain ⟨hflag₁, hresval₁⟩ := ho.kept p hne hlt
    have hasleep : p ∉ w₂.woken t := fun hin => hwaiting ((hwoken p).mp hin).1
    refine ⟨?_, ?_⟩
    · rw [hflag', hflag]
      exact .inl (hflag₁.trans hp)
    · rw [hwakes.tasks, if_neg hasleep, hresval, hresval₁]
  have hfails : ∀ s, w.Fails w' s → s = t ∧ state = .ERROR := by
    rintro s ⟨hbefore, hafter⟩
    have hstate : (w'.tasks s).state = (w₂.tasks s).state := by
      rw [hwakes.tasks]
      split <;> rfl
    rw [hstate, hsteady.state, World.setState_state] at hafter
    split at hafter
    · exact ⟨‹_›, hafter⟩
    · exact absurd hafter hbefore
  refine ⟨⟨?_, ?_⟩, ?_, ?_, hkept, ?_⟩
  · intro p hp
    rw [hwakes.queued]
    rw [hflag', hflag] at hp
    rcases hp with hp | ⟨-, hp⟩
    · apply List.mem_append_left
      rw [hsteady.queued]
      exact hflags.queued p (ho.flag p hp)
    · exact List.mem_append_right _ ((hwoken p).mpr hp)
  · intro p hp
    rw [hflag', hflag] at hp
    have hobjects : w.store.nextObject ≤ w'.store.nextObject := by
      rw [hwakes.store, hstore]
      exact ho.objects
    have hcls : ∀ o : Nat, o < w.store.nextObject → w'.store.cls o = w.store.cls o := by
      rw [hwakes.store, hstore]
      exact ho.cls
    rcases hp with hp | ⟨hstate, hp⟩
    · have hold := ho.flag p hp
      exact (hflags.error p hold).keep (hkept p hold).2 hobjects hcls
    · obtain ⟨⟨err, hlt, herr, hclass⟩, hown⟩ := herror hstate
      exact ⟨err, hlt.trans_le hobjects, ((hresumed p hp).trans hown).trans herr,
        (hcls err hlt).trans hclass⟩
  · intro s err p hs _ herr hp
    obtain ⟨rfl, hstate⟩ := hfails s hs
    refine ⟨?_, ?_, ?_⟩
    · rw [hflag', hflag]
      exact .inr ⟨hstate, hp⟩
    · rw [hresumed p hp, (herror hstate).2, herr]
    · rw [hwakes.queued]
      exact List.mem_append_right _ ((hwoken p).mpr hp)
  · intro p hp
    rw [hflag', hflag] at hp
    rcases hp with hp | ⟨hstate, hp⟩
    · exact .inl (ho.flag p hp)
    · right
      have hrunning := h.active t List.mem_cons_self
      refine ⟨t, ⟨?_, ?_⟩, hp⟩
      · rw [hrunning]
        decide
      · rw [hwakes.tasks]
        split <;> simp [hsteady.state, hstate]
  · intro p s hp hs
    rw [hwakes.completed, mem_setInsert, not_or, hsteady.completed] at hs
    obtain ⟨hold, hne⟩ := hs
    -- `p` waits for `s` alone, so it is not woken by `t`.
    have hasleep : p ∉ w₂.woken t := by
      intro hin
      obtain ⟨-, -, hcompleted, -⟩ := h.of_active List.mem_cons_self
      have heq := (h.awaits_unique hp hold).2 t ((hwoken p).mp hin).2 hcompleted
      exact hne heq.symm
    refine ⟨?_, ?_⟩
    · rw [hwakes.waiting, List.mem_filter, hsteady.waiting]
      exact ⟨hp.1, decide_eq_true hasleep⟩
    · have hdependents : (w'.tasks s).dependentTasks = (w₂.tasks s).dependentTasks := by
        rw [hwakes.tasks]
        split <;> rfl
      rw [hdependents, hsteady.dependentTasks, World.setState_dependentTasks]
      exact hp.2

/-- The switch of `process_run`. -/
theorem stop_handsOn (ho : LeavesOthers t w w₁) (h : Scheduled w (t :: w.backgroundTasks))
    (hflags : FlagsSound w) (hstops : Stops w t w₁)
    (herror : ∀ parent, (w₁.tasks t).state = .ERROR → (w.tasks t).parentTask = some parent →
      (w.HoldsError t ∧ ∀ p, w.Awaits p t ↔ p = parent) ∧
        (w₁.tasks t).resval = (w.tasks t).resval)
    (hstop : w₁.stop env t = some w') : HandsOn w w' := by
  unfold World.stop at hstop
  simp only at hstop
  cases hstops with
  | waits hstate hcompleted hscheduled =>
    rw [hstate] at hstop
    cases hstop
    have hwaits : LeavesOthers t w₁
        { w₁ with running := none, waiting := setInsert t w₁.waiting } :=
      LeavesOthers.of_tasks rfl rfl (fun _ h => h) (fun _ h => mem_setInsert.mpr (.inl h)) rfl
        (Nat.le_refl _) fun _ _ => rfl
    apply (ho.trans hwaits).handsOn h hflags
    intro hended
    rw [show ({ w₁ with running := none, waiting := setInsert t w₁.waiting } : World).tasks =
      w₁.tasks from rfl, hstate] at hended
    cases hended
  | ends state hstate hsteady =>
    have hown : (w₁.tasks t).state = state := by simp [hsteady.state]
    have hparent : (w₁.tasks t).parentTask = (w.tasks t).parentTask := by
      rw [hsteady.parentTask, World.setState_parentTask]
    have hnone := hsteady.trans (Steady.withRunning w₁ none)
    rcases hstate with rfl | rfl
    · rw [hown] at hstop
      cases hstop
      apply ho.handsOn_mark h hflags hnone rfl (fun _ => rfl)
      · intro s
        simp
      · intro hended
        cases hended
    · rw [hown] at hstop
      simp only at hstop
      split at hstop
      · next p hp =>
        cases hstop
        obtain ⟨⟨herr, hawaits⟩, hresval⟩ := herror p hown (hparent ▸ hp)
        apply ho.handsOn_mark h hflags (hnone.trans (Steady.withFlag _ p)) rfl
        · intro s
          by_cases hs : s = p
          · subst hs
            simp [World.modifyTask]
          · simp [World.modifyTask, hs]
        · intro s
          rw [hawaits s]
          by_cases hs : s = p
          · subst hs
            simp [World.modifyTask]
          · simp [World.modifyTask, hs]
        · intro _
          exact ⟨herr, hresval⟩
      · next hp =>
        split at hstop
        · cases hstop
        · obtain ⟨⟨child, w₂⟩, htask, heq⟩ := Option.map_eq_some_iff.mp hstop
          cases heq
          have hidle : LeavesOthers t w₁ { w₁ with running := none } :=
            LeavesOthers.of_tasks rfl rfl (fun _ h => h) (fun _ h => h) rfl (Nat.le_refl _)
              fun _ _ => rfl
          have hprints := (ho.trans hidle).trans (LeavesOthers.executeAsNewTask htask)
          apply (hprints.trans (LeavesOthers.addDependent w₂ child t)).handsOn h hflags
          intro _
          rw [← hparent, hp]

/-- A background call completes its task. -/
theorem finish_handsOn {args : BackgroundThreadArgs} (henv : KeepsHeap env)
    (hw : SchedulerSound w) (hflags : FlagsSound w) (hargs : args ∈ w.background)
    (h : w.finish env args = some w') : HandsOn w w' := by
  have hperm : ((w.running.map Prod.fst).toList ++ w.backgroundTasks).Perm
      (args.task :: ((w.running.map Prod.fst).toList ++
        (w.background.erase args).map BackgroundThreadArgs.task)) := by
    have hbackground := (List.perm_cons_erase hargs).map BackgroundThreadArgs.task
    exact (hbackground.append_left _).trans List.perm_middle
  have hbase := (hw.scheduled.perm hperm).withBackground (w.background.erase args)
  have hflags' : FlagsSound { w with background := w.background.erase args } :=
    ⟨hflags.queued, hflags.error⟩
  have hdone : ∀ w₁ : World, Steady { w with background := w.background.erase args } w₁ →
      LeavesOthers args.task { w with background := w.background.erase args } w₁ →
      HandsOn w ((w₁.setState args.task .COMPLETE).markTaskComplete args.task) := by
    intro w₁ hs ho
    obtain ⟨hsound, hawaited, hspared, hkept, hpatient⟩ :=
      ho.handsOn_mark hbase hflags' (hs.setState args.task .COMPLETE) rfl
        (fun s => World.setState_resval _ _ _ _) (by
          intro s
          by_cases hs : s = args.task
          · subst hs
            simp [World.setState, World.modifyTask]
          · simp [World.setState, World.modifyTask, hs]) (by
          intro hended
          cases hended)
    exact ⟨hsound, hawaited, hspared, hkept, hpatient⟩
  have hvalue : ∀ (value : Entity) {store : Store}, w.store.Grows store →
      LeavesOthers args.task { w with background := w.background.erase args }
        { ({ w with background := w.background.erase args } : World).setResval args.task value with
          store := store } := by
    intro value store hgrows
    exact (LeavesOthers.setResval _ value).trans
      (LeavesOthers.of_tasks rfl rfl (fun _ h => h) (fun _ h => h) rfl hgrows.next_le hgrows.cls)
  unfold World.finish at h
  simp only at h
  split at h
  · cases h
  · next store value hnative =>
    have hgrows := henv.returned _ _ _ _ _ _ _ _ hnative
    cases h
    exact hdone _ ((Steady.setResval _ args.task value).trans (Steady.withStore _ hgrows))
      (hvalue value hgrows)
  · next store err hnative =>
    have hgrows := henv.raised _ _ _ _ _ _ _ _ hnative
    cases h
    have hset := Steady.setResval ({ w with background := w.background.erase args } : World)
      args.task (.obj err)
    refine hdone _ ((hset.trans (Steady.withStore _ hgrows)).trans
      (Steady.modifyContext _ args.context _)) ?_
    exact (hvalue (.obj err) hgrows).trans (LeavesOthers.withContexts _ _)

/-- A resumed task has no flag any more. -/
structure Resumes (t : TaskId) (c : ContextId) (w w' : World) : Prop where
  queued : w'.queued = w.queued.erase t
  waiting : w'.waiting = w.waiting
  completed : w'.completed = w.completed
  store : w'.store = w.store
  other : ∀ s, s ≠ t → w'.tasks s = w.tasks s
  state : (w'.tasks t).state = .RUNNING
  flag : (w'.tasks t).childTaskHasError = false
  dependents : (w'.tasks t).dependentTasks = (w.tasks t).dependentTasks
  running : w'.running = some (t, c)
  error : (w.tasks t).childTaskHasError = true →
    ∃ err, (w.tasks t).resval = .obj err ∧ w.store.cls err = .Error ∧
      (w'.contexts.context c).error = some err

theorem start_resumes (hcurrent : (w.tasks t).current = some c) (h : w.start t = some w') :
    Resumes t c w w' := by
  unfold World.start at h
  simp only [World.setState_current, hcurrent] at h
  have hflag : ((w.setState t .RUNNING).tasks t).childTaskHasError =
      (w.tasks t).childTaskHasError := by simp [World.setState, World.modifyTask]
  have hother : ∀ s, s ≠ t → (w.setState t .RUNNING).tasks s = w.tasks s := by
    intro s hs
    simp [World.setState, World.modifyTask, hs]
  split at h
  · split at h
    · next err herr =>
      rw [World.setState_resval] at herr
      split at h
      · next hcls =>
        cases h
        refine ⟨rfl, rfl, rfl, rfl, ?_, ?_, ?_, ?_, rfl, ?_⟩
        · intro s hs
          simp [World.modifyContext, World.modifyTask, World.setState, hs]
        · simp [World.modifyContext, World.modifyTask, World.setState]
        · simp [World.modifyTask]
        · simp [World.modifyContext, World.modifyTask, World.setState]
        · intro _
          exact ⟨err, herr, hcls, by simp [World.modifyContext, World.modifyTask, World.setState]⟩
      · cases h
    · cases h
  · next hclear =>
    cases h
    rw [hflag] at hclear
    refine ⟨rfl, rfl, rfl, rfl, hother, by simp, ?_, by simp, rfl, ?_⟩
    · exact hflag.trans (Bool.eq_false_iff.mpr hclear)
    · intro hset
      exact absurd hset hclear

/-- The step that resumes a task. -/
theorem start_delivers (hw : SchedulerSound w) (hflags : FlagsSound w) (ht : t ∈ w.queued)
    (h : w.start t = some w') : FlagsSound w' ∧ Delivers w (.start t) w' := by
  obtain ⟨cur, hcur⟩ := Option.isSome_iff_exists.mp (hw.scheduled.current t (.inl ht))
  have hr := start_resumes hcur h
  have hflagged : ∀ p, (w'.tasks p).childTaskHasError = true →
      p ≠ t ∧ (w.tasks p).childTaskHasError = true := by
    intro p hp
    have hne : p ≠ t := by
      rintro rfl
      rw [hr.flag] at hp
      cases hp
    rw [hr.other p hne] at hp
    exact ⟨hne, hp⟩
  have hfails : ∀ s, ¬ w.Fails w' s := by
    rintro s ⟨hbefore, hafter⟩
    by_cases hs : s = t
    · subst hs
      rw [hr.state] at hafter
      cases hafter
    · rw [hr.other s hs] at hafter
      exact hbefore hafter
  refine ⟨⟨?_, ?_⟩, ?_⟩
  · intro p hp
    obtain ⟨hne, hold⟩ := hflagged p hp
    rw [hr.queued]
    exact (List.mem_erase_of_ne hne).mpr (hflags.queued p hold)
  · intro p hp
    obtain ⟨hne, hold⟩ := hflagged p hp
    apply (hflags.error p hold).keep
    · rw [hr.other p hne]
    · rw [hr.store]
    · intro o _
      rw [hr.store]
  · constructor
    · intro s err p hs
      exact absurd hs (hfails s)
    · intro p hp
      exact .inl (hflagged p hp).2
    · intro p hp hstart
      have hne : p ≠ t := by
        rintro rfl
        exact hstart rfl
      rw [hr.other p hne]
      exact ⟨hp, rfl⟩
    · rintro p hp ⟨⟩
      obtain ⟨err, herr, hcls, hpending⟩ := hr.error hp
      exact ⟨err, cur, herr, hcls, hcur, hr.running, hpending⟩
    · intro s task isResultSet hstart
      cases hstart
    · intro p s hp _
      refine ⟨?_, ?_⟩
      · rw [hr.waiting]
        exact hp.1
      · by_cases hs : s = t
        · subst hs
          rw [hr.dependents]
          exact hp.2
        · rw [hr.other s hs]
          exact hp.2
    · intro s task future err hstart
      cases hstart

/-- A `WAIT` for a task that has not ended. -/
theorem wait_awaits {task : TaskId} {isResultSet : Bool} (hw : SchedulerSound w)
    (hwaits : w.WaitsOn t ⟨some task, false, isResultSet⟩)
    (hcomplete : (w.tasks task).state ≠ .COMPLETE) (herror : (w.tasks task).state ≠ .ERROR)
    (h : processStep env w .execute = some w') : w'.Awaits t task := by
  obtain ⟨c, w₁, arg, o, hrunning, hfetch, hins, hresval, hcls, hinternal⟩ := hwaits
  have hscheduled := hw.scheduled
  rw [hrunning] at hscheduled
  obtain ⟨hsteady, -⟩ := fetch_steady hscheduled (hw.current t c hrunning) hfetch
  have hexecute : execute env w₁ t c ⟨.WAIT, arg⟩ = some (.wait (w₁.frame t) task) := by
    simp [execute, executeWAIT, World.frame, hresval, hcls, hinternal, hsteady.state, hcomplete,
      herror]
  have hstate : (((((w₁.setFrame t (w₁.frame t)).addDependent task t).setState t .WAITING).incIns
      c).tasks t).state = .WAITING := by
    simp [World.incIns, World.modifyContext]
  simp only [processStep, hrunning, World.iterate, hfetch, hins, hexecute, World.apply,
    World.stop, hstate] at h
  cases h
  refine ⟨mem_setInsert.mpr (.inr rfl), ?_⟩
  simp [World.incIns, World.modifyContext, mem_setInsert]

/-- The step of the running task. -/
theorem execute_handsOn (henv : KeepsHeap env) (hw : SchedulerSound w) (hflags : FlagsSound w)
    (hdeliverable : Deliverable w .execute) (h : processStep env w .execute = some w') :
    HandsOn w w' := by
  cases hrunning : w.running with
  | none => simp [processStep, hrunning] at h
  | some tc =>
    obtain ⟨t, c⟩ := tc
    have hscheduled := hw.scheduled
    rw [hrunning] at hscheduled
    have hcurrent := hw.current t c hrunning
    simp only [processStep, hrunning] at h
    split at h
    · cases h
    · next w₁ d hiterate =>
      have hcontinues : Continues w t w₁ := iterate_scheduled henv hscheduled hcurrent hiterate
      cases h
      have hresumed : LeavesOthers t w₁ { w₁ with running := some (t, d) } :=
        LeavesOthers.of_tasks rfl rfl (fun _ h => h) (fun _ h => h) rfl (Nat.le_refl _)
          fun _ _ => rfl
      apply ((iterate_leavesOthers henv hiterate).trans hresumed).handsOn hscheduled hflags
      intro hended
      have hactive := hcontinues.scheduled.active t List.mem_cons_self
      rw [show ({ w₁ with running := some (t, d) } : World).tasks = w₁.tasks from rfl,
        hactive] at hended
      cases hended
    · next w₁ hiterate =>
      have hstops : Stops w t w₁ := iterate_scheduled henv hscheduled hcurrent hiterate
      apply stop_handsOn (iterate_leavesOthers henv hiterate) hscheduled hflags hstops ?_ h
      intro parent hended hparent
      have hlt : t < w.nextTask := by
        apply hscheduled.lt_of_places
        have hpos := List.count_pos_iff.mpr (List.mem_cons_self (a := t) (l := w.backgroundTasks))
        unfold World.places
        change 0 < _ + (t :: w.backgroundTasks).count t + _
        omega
      obtain ⟨huncaught, hresval⟩ := iterate_error hlt hiterate hended
      exact ⟨hdeliverable.fails rfl t c parent hrunning huncaught hparent, hresval⟩

/-- One step. -/
theorem awaited_step (henv : KeepsHeap env) {e : Event} (hw : SchedulerSound w)
    (hflags : FlagsSound w) (hdeliverable : Deliverable w e)
    (h : processStep env w e = some w') : FlagsSound w' ∧ Delivers w e w' := by
  cases e with
  | start t =>
    simp only [processStep] at h
    split at h
    · next hready => exact start_delivers hw hflags hready.2 h
    · cases h
  | finish args =>
    simp only [processStep] at h
    split at h
    · next hargs =>
      have hhands := finish_handsOn henv hw hflags hargs h
      refine ⟨hhands.sound, ?_⟩
      constructor
      · exact hhands.awaited
      · exact hhands.spared
      · intro p hp _
        exact hhands.kept p hp
      · intro p _ hstart
        cases hstart
      · intro t task isResultSet hexecute
        cases hexecute
      · exact hhands.patient
      · intro t task future err hexecute
        cases hexecute
    · cases h
  | execute =>
    have hhands := execute_handsOn henv hw hflags hdeliverable h
    refine ⟨hhands.sound, ?_⟩
    constructor
    · exact hhands.awaited
    · exact hhands.spared
    · intro p hp _
      exact hhands.kept p hp
    · intro p _ hstart
      cases hstart
    · intro t task isResultSet _ hwaits hcomplete herror
      exact wait_awaits hw hwaits hcomplete herror h
    · exact hhands.patient
    · intro t task future err _ hwaits htask herror
      exact absurd herror (hdeliverable.waits rfl t task future hwaits htask)

end HandsOn

/-! ## Runs -/

theorem flagsSound_boot (store : Store) (m : ModuleId) : FlagsSound (World.boot store m) := by
  constructor
  · intro p hp
    cases hp
  · intro p hp
    cases hp

theorem Deliverable.of_ne {w : World} {e : Event} (h : e ≠ .execute) : Deliverable w e :=
  ⟨fun heq => absurd heq h, fun heq => absurd heq h⟩

/-- A task without an error: there is a condition only at a `WAIT`. -/
theorem Deliverable.of_settled (op : Op) {w : World} {t : TaskId} {c : ContextId} {e : Event}
    {arg : Arg} (hrunning : w.running = some (t, c)) (hsettled : (w.contexts.context c).error = none)
    (hins : w.contextIns c = some ⟨op, arg⟩)
    (hwait : op = .WAIT → ∀ o future task, (w.tasks t).resval = .obj o →
      w.store.internal o = .future future → future.task = some task →
        (w.tasks task).state ≠ .ERROR) : Deliverable w e := by
  constructor
  · rintro - t' c' parent hrunning' ⟨hpending, -⟩ -
    rw [hrunning] at hrunning'
    cases hrunning'
    rw [hsettled] at hpending
    cases hpending
  · rintro - t' task future ⟨c', w₁, arg', o, hrunning', hfetch, hins', hresval, -, hfuture⟩ htask
    rw [hrunning] at hrunning'
    cases hrunning'
    rw [World.fetch, hsettled] at hfetch
    cases hfetch
    rw [hins] at hins'
    cases hins'
    exact hwait rfl o future task hresval hfuture htask

/-- In every run in which the tasks that fail are waited for by their parents, errors go to the
tasks that wait. -/
theorem async_errors_delivered (env : Env) (henv : KeepsHeap env) (store : Store)
    (hstore : ∀ t, ¬ store.HasFuture t) (m : ModuleId) (w : World)
    (hrun : RunsIn (processStep env) Deliverable (World.boot store m) w) :
    FlagsSound w ∧ ∀ e w', Deliverable w e → processStep env w e = some w' → Delivers w e w' := by
  have hw : SchedulerSound w ∧ FlagsSound w := by
    apply hrun.invariant (P := fun w => SchedulerSound w ∧ FlagsSound w)
    · rintro w₁ e w₂ ⟨hsound, hflags⟩ hdeliverable h
      exact ⟨(schedulerSound_step henv hsound h).1,
        (awaited_step henv hsound hflags hdeliverable h).1⟩
    · exact ⟨schedulerSound_boot store m hstore, flagsSound_boot store m⟩
  refine ⟨hw.2, ?_⟩
  intro e w' hdeliverable h
  exact (awaited_step henv hw.1 hw.2 hdeliverable h).2

/-- A module that calls an asynchronous function, which raises the error `e`. Then it does
`op`. -/
def asyncStore (op : Op) : Store :=
  { raiseStore .Error with
    functions := fun _ => ⟨"f", 0, false, false, true, false, 4, 1⟩
    modules := fun m => { (raiseStore .Error).modules m with
      tape := [⟨.RES, .id "f"⟩, ⟨.PUSH, .noArg⟩, ⟨.CLLN, .noArg⟩, ⟨op, .noArg⟩, ⟨.RES, .id "e"⟩,
        ⟨.RAIS, .noArg⟩] } }

theorem asyncStore_futures (op : Op) (t : TaskId) : ¬ (asyncStore op).HasFuture t := by
  rintro ⟨o, future, hinternal, -⟩
  simp only [Store.internal, asyncStore, raiseStore] at hinternal
  split at hinternal
  · cases hinternal
  · split at hinternal <;> cases hinternal

/-- The function has raised, and its task is about to fail. -/
def asyncRun (op : Op) : Option World :=
  runSteps (processStep noNatives) (World.boot (asyncStore op) 0)
    [.start 0, .execute, .execute, .execute, .execute, .start 1, .execute, .execute]

/-- The module waits, and gets the error. -/
theorem async_errors_delivered_wait : ∃ w w', processStep noNatives w .execute = some w' ∧
    w.Fails w' 1 ∧ w.Awaits 0 1 ∧ Delivers w .execute w' := by
  obtain ⟨w, w', hrun, hstep, hrunning, hfetch, hwaiting, hdependents, hparent, hresval, hcls,
      hobjects, hstate, hstate'⟩ : ∃ w w',
      RunsIn (processStep noNatives) Deliverable (World.boot (asyncStore .WAIT) 0) w ∧
      processStep noNatives w .execute = some w' ∧ w.running = some (1, 1) ∧
      (∃ w₁, w.fetch 1 1 = some (false, w₁)) ∧ w.waiting = [0] ∧
      (w.tasks 1).dependentTasks = [0] ∧ (w.tasks 1).parentTask = some 0 ∧
      (w.tasks 1).resval = .obj 2 ∧ w.store.cls 2 = .Error ∧ 2 < w.store.nextObject ∧
      (w.tasks 1).state = .RUNNING ∧ (w'.tasks 1).state = .ERROR := by
    have hcalled : RunsIn (processStep noNatives) Deliverable
        (World.boot (asyncStore .WAIT) 0) _ :=
      .tail (.tail (.tail (.tail (.refl _) (.of_ne (e := .start 0) Event.noConfusion) rfl)
        (.of_settled .RES (e := .execute) rfl rfl rfl Op.noConfusion) rfl)
        (.of_settled .PUSH (e := .execute) rfl rfl rfl Op.noConfusion) rfl)
        (.of_settled .CLLN (e := .execute) rfl rfl rfl Op.noConfusion) rfl
    have hwaits := RunsIn.tail (l := .execute) hcalled (.of_settled .WAIT rfl rfl rfl (by
      rintro - o future task ⟨⟩ ⟨⟩ ⟨⟩ ⟨⟩)) rfl
    have hraised : RunsIn (processStep noNatives) Deliverable
        (World.boot (asyncStore .WAIT) 0) _ :=
      .tail (.tail (.tail hwaits (.of_ne (e := .start 1) Event.noConfusion) rfl)
        (.of_settled .RES (e := .execute) rfl rfl rfl Op.noConfusion) rfl)
        (.of_settled .RAIS (e := .execute) rfl rfl rfl Op.noConfusion) rfl
    exact ⟨_, _, hraised, rfl, rfl, ⟨_, rfl⟩, rfl, rfl, rfl, rfl, rfl, by decide, rfl, rfl⟩
  have hawaits : ∀ p, w.Awaits p 1 ↔ p = 0 := by
    intro p
    simp [World.Awaits, hwaiting, hdependents]
  have hdeliverable : Deliverable w .execute := by
    constructor
    · rintro - t c parent hrunning' - hparent'
      obtain ⟨rfl, rfl⟩ := Prod.mk.inj (Option.some.inj (hrunning.symm.trans hrunning'))
      obtain rfl := Option.some.inj (hparent.symm.trans hparent')
      exact ⟨⟨2, hobjects, hresval, hcls⟩, hawaits⟩
    · rintro - t task future ⟨c, w₁, -, -, hrunning', hfetch', -⟩
      obtain ⟨rfl, rfl⟩ := Prod.mk.inj (Option.some.inj (hrunning.symm.trans hrunning'))
      obtain ⟨w₂, hfetch⟩ := hfetch
      rw [hfetch] at hfetch'
      cases hfetch'
  obtain ⟨-, hdelivers⟩ := async_errors_delivered noNatives keepsHeap_noNatives
    (asyncStore .WAIT) (asyncStore_futures .WAIT) 0 w hrun
  refine ⟨w, w', hstep, ⟨?_, hstate'⟩, (hawaits 0).mpr rfl, hdelivers .execute w' hdeliverable hstep⟩
  rw [hstate]
  decide

/-- A module that does not wait gets the flag. -/
theorem not_async_errors_delivered : ¬ ∀ (env : Env), KeepsHeap env → ∀ (store : Store),
    (∀ t, ¬ store.HasFuture t) → ∀ (m : ModuleId) (w : World),
    Runs (processStep env) (World.boot store m) w →
      FlagsSound w ∧ ∀ e w', processStep env w e = some w' → Delivers w e w' := by
  intro h
  have hstep : ∃ w w', asyncRun .RET = some w ∧ processStep noNatives w .execute = some w' ∧
      w.waiting = [] ∧ (w.tasks 0).childTaskHasError = false ∧
        (w'.tasks 0).childTaskHasError = true :=
    ⟨_, _, rfl, rfl, rfl, rfl, rfl⟩
  obtain ⟨w, w', hrun, hexecute, hwaiting, hclear, hset⟩ := hstep
  obtain ⟨-, hdelivers⟩ := h noNatives keepsHeap_noNatives (asyncStore .RET)
    (asyncStore_futures .RET) 0 w (runs_of_runSteps hrun)
  rcases (hdelivers .execute w' hexecute).spared 0 hset with hold | ⟨t, -, hin, -⟩
  · rw [hclear] at hold
    cases hold
  · rw [hwaiting] at hin
    cases hin

end JeffVm
