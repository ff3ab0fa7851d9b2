import JeffVm.Growth
import JeffVm.Unwind

/-!
# Where the tasks are

Every task of a process is in one place: queued, waiting, completed, active (running or in the
background), or dead, which is a task without a parent that ended in an error. A waiting task
is a dependent of one task that is not completed.
-/

set_option autoImplicit false

namespace JeffVm

/-- A task without a parent that ended in an error. -/
def World.dead (w : World) (t : TaskId) : Bool :=
  decide ((w.tasks t).state = .ERROR) && (w.tasks t).parentTask.isNone

/-- How often a task is found, with the tasks that are active. -/
def World.places (w : World) (active : List TaskId) (t : TaskId) : Nat :=
  w.queued.count t + w.waiting.count t + w.completed.count t + active.count t +
    (w.dead t).toNat

/-- The invariant of the scheduler, with the active tasks. -/
structure Scheduled (w : World) (active : List TaskId) : Prop where
  places : ∀ t : Nat, w.places active t = if t < w.nextTask then 1 else 0
  waiting : ∀ t ∈ w.waiting, (w.tasks t).state = .WAITING
  completed : ∀ t ∈ w.completed, (w.tasks t).state = .COMPLETE ∨ (w.tasks t).state = .ERROR
  active : ∀ t ∈ active, (w.tasks t).state = .RUNNING
  nodup : ∀ t, (w.tasks t).dependentTasks.Nodup
  depends : ∀ t p, p ∈ (w.tasks t).dependentTasks → t ∉ w.completed →
    w.dead p ∨ p ∈ w.waiting ∧
      ∀ t', p ∈ (w.tasks t').dependentTasks → t' ∉ w.completed → t' = t
  awaited : ∀ p ∈ w.waiting, ∃ t : Nat, t < w.nextTask ∧ p ∈ (w.tasks t).dependentTasks ∧
    t ∉ w.completed
  futures : ∀ t : Nat, w.store.HasFuture t → t < w.nextTask
  current : ∀ t, t ∈ w.queued ∨ t ∈ w.waiting → (w.tasks t).current.isSome

/-- The scheduler sees no difference between the two worlds. -/
structure Steady (w w' : World) : Prop where
  queued : w'.queued = w.queued
  waiting : w'.waiting = w.waiting
  completed : w'.completed = w.completed
  nextTask : w'.nextTask = w.nextTask
  background : w'.background = w.background
  state : ∀ t, (w'.tasks t).state = (w.tasks t).state
  parentTask : ∀ t, (w'.tasks t).parentTask = (w.tasks t).parentTask
  dependentTasks : ∀ t, (w'.tasks t).dependentTasks = (w.tasks t).dependentTasks
  futures : ∀ t : Nat, w'.store.HasFuture t → w.store.HasFuture t ∨ t < w.nextTask
  current : ∀ t, t ∈ w.queued ∨ t ∈ w.waiting → (w.tasks t).current.isSome →
    (w'.tasks t).current.isSome

namespace Scheduled

variable {w w' : World} {active : List TaskId} {t : TaskId}

theorem steady (h : Scheduled w active) (hs : Steady w w') : Scheduled w' active where
  places := by
    intro t
    rw [← congrArg (fun n => if t < n then 1 else 0) hs.nextTask.symm, ← h.places t]
    simp only [World.places, World.dead, hs.queued, hs.waiting, hs.completed, hs.state,
      hs.parentTask]
  waiting := by
    rw [hs.waiting]
    intro t ht
    rw [hs.state, h.waiting t ht]
  completed := by
    rw [hs.completed]
    intro t ht
    rw [hs.state]
    exact h.completed t ht
  active := by
    intro t ht
    rw [hs.state, h.active t ht]
  nodup := by
    intro t
    rw [hs.dependentTasks]
    exact h.nodup t
  depends := by
    simp only [World.dead, hs.waiting, hs.completed, hs.state, hs.parentTask, hs.dependentTasks]
    exact h.depends
  awaited := by
    simp only [hs.waiting, hs.completed, hs.nextTask, hs.dependentTasks]
    exact h.awaited
  futures := by
    intro t ht
    rw [hs.nextTask]
    rcases hs.futures t ht with hold | hlt
    · exact h.futures t hold
    · exact hlt
  current := by
    intro t ht
    rw [hs.queued, hs.waiting] at ht
    exact hs.current t ht (h.current t ht)

theorem perm {active' : List TaskId} (h : Scheduled w active) (hperm : active.Perm active') :
    Scheduled w active' :=
  { h with
    places := by
      intro t
      rw [← h.places t]
      simp only [World.places, hperm.count_eq]
    active := fun t ht => h.active t (hperm.mem_iff.mpr ht) }

/-! ### A task in one place is in no other -/

theorem places_le (h : Scheduled w active) (t : TaskId) : w.places active t ≤ 1 := by
  rw [h.places]
  split <;> omega

theorem lt_of_places (h : Scheduled w active) {t : Nat} (ht : 0 < w.places active t) :
    t < w.nextTask := by
  rw [h.places] at ht
  by_contra hlt
  rw [if_neg hlt] at ht
  omega

theorem places_new (h : Scheduled w active) : w.places active w.nextTask = 0 := by
  rw [h.places, if_neg (Nat.lt_irrefl _)]

/-- An active task is nowhere else. -/
theorem of_active (h : Scheduled w active) (ht : t ∈ active) :
    t ∉ w.queued ∧ t ∉ w.waiting ∧ t ∉ w.completed ∧ ¬ w.dead t := by
  have hplaces := h.places_le t
  have hcount := List.count_pos_iff.mpr ht
  unfold World.places at hplaces
  refine ⟨?_, ?_, ?_, ?_⟩
  · rw [← List.count_eq_zero]
    omega
  · rw [← List.count_eq_zero]
    omega
  · rw [← List.count_eq_zero]
    omega
  · intro hdead
    rw [hdead, Bool.toNat_true] at hplaces
    omega

end Scheduled

namespace Steady

variable {w w' w'' : World} {t : TaskId}

theorem refl (w : World) : Steady w w :=
  ⟨rfl, rfl, rfl, rfl, rfl, fun _ => rfl, fun _ => rfl, fun _ => rfl, fun _ h => .inl h,
    fun _ _ h => h⟩

theorem trans (h : Steady w w') (h' : Steady w' w'') : Steady w w'' where
  queued := h'.queued.trans h.queued
  waiting := h'.waiting.trans h.waiting
  completed := h'.completed.trans h.completed
  nextTask := h'.nextTask.trans h.nextTask
  background := h'.background.trans h.background
  state := fun t => (h'.state t).trans (h.state t)
  parentTask := fun t => (h'.parentTask t).trans (h.parentTask t)
  dependentTasks := fun t => (h'.dependentTasks t).trans (h.dependentTasks t)
  futures := by
    intro t ht
    rcases h'.futures t ht with hold | hlt
    · exact h.futures t hold
    · exact .inr (h.nextTask ▸ hlt)
  current := by
    intro t ht hcurrent
    apply h'.current t
    · rw [h.queued, h.waiting]
      exact ht
    · exact h.current t ht hcurrent

/-- A change of the other fields of a task. -/
theorem modifyTask (w : World) (t : TaskId) (f : Task → Task)
    (hstate : ∀ x, (f x).state = x.state) (hparent : ∀ x, (f x).parentTask = x.parentTask)
    (hdeps : ∀ x, (f x).dependentTasks = x.dependentTasks)
    (hcurrent : t ∉ w.queued ∧ t ∉ w.waiting ∨ ∀ x, x.current.isSome → (f x).current.isSome) :
    Steady w (w.modifyTask t f) := by
  have htasks : ∀ {α : Type} (g : Task → α), (∀ x, g (f x) = g x) →
      ∀ s, g ((w.modifyTask t f).tasks s) = g (w.tasks s) := by
    intro α g hg s
    by_cases hs : s = t
    · subst hs
      simp [World.modifyTask, hg]
    · simp [World.modifyTask, hs]
  refine ⟨rfl, rfl, rfl, rfl, rfl, htasks _ hstate, htasks _ hparent, htasks _ hdeps,
    fun _ h => .inl h, ?_⟩
  intro s hs hsome
  by_cases hst : s = t
  · subst hst
    rcases hcurrent with ⟨hqueued, hwaiting⟩ | hkeeps
    · exact absurd hs (not_or.mpr ⟨hqueued, hwaiting⟩)
    · simpa [World.modifyTask] using hkeeps _ hsome
  · simpa [World.modifyTask, hst] using hsome

theorem setResval (w : World) (t : TaskId) (e : Entity) : Steady w (w.setResval t e) :=
  modifyTask w t _ (fun _ => rfl) (fun _ => rfl) (fun _ => rfl) (.inr fun _ h => h)

theorem withStore (w : World) {store : Store} (h : w.store.Grows store) :
    Steady w { w with store := store } :=
  ⟨rfl, rfl, rfl, rfl, rfl, fun _ => rfl, fun _ => rfl, fun _ => rfl,
    fun t ht => .inl (h.futures t ht), fun _ _ h => h⟩

theorem withContexts (w : World) (contexts : Contexts) : Steady w { w with contexts := contexts } :=
  ⟨rfl, rfl, rfl, rfl, rfl, fun _ => rfl, fun _ => rfl, fun _ => rfl, fun _ h => .inl h,
    fun _ _ h => h⟩

theorem withRunning (w : World) (running : Option (TaskId × ContextId)) :
    Steady w { w with running := running } :=
  ⟨rfl, rfl, rfl, rfl, rfl, fun _ => rfl, fun _ => rfl, fun _ => rfl, fun _ h => .inl h,
    fun _ _ h => h⟩

theorem setFrame (w : World) (t : TaskId) {f : Frame} (h : w.store.Grows f.store) :
    Steady w (w.setFrame t f) :=
  (modifyTask w t (fun task => { task with resval := f.resval, entityStack := f.stack })
    (fun _ => rfl) (fun _ => rfl) (fun _ => rfl) (.inr fun _ h => h)).trans (withStore _ h)

theorem modifyContext (w : World) (c : ContextId) (f : Context → Context) :
    Steady w (w.modifyContext c f) := withContexts w _

theorem incIns (w : World) (c : ContextId) : Steady w (w.incIns c) := modifyContext w c _

theorem setCurrent (w : World) (t : TaskId) (c : ContextId) :
    Steady w (w.modifyTask t fun x => { x with current := some c }) :=
  modifyTask w t _ (fun _ => rfl) (fun _ => rfl) (fun _ => rfl) (.inr fun _ _ => rfl)

theorem createContext {self : ObjectId} {m : ModuleId} {insPos : Int} {func : Option FunctionId}
    {previous : Option ContextId} {c : ContextId}
    (h : w.createContext t self m insPos func previous = some (c, w')) :
    Steady w w' ∧ ∀ s, (w.tasks s).current.isSome → (w'.tasks s).current.isSome := by
  unfold World.createContext at h
  simp only at h
  split at h
  · cases h
  · rename_i c' contexts hcreate
    cases h
    refine ⟨?_, fun s hs => ?_⟩
    swap
    · by_cases hst : s = t
      · subst hst
        simp [World.modifyTask]
      · simpa [World.modifyTask, hst] using hs
    have hstore : w.store.Grows (w.store.heapNew .Object).2 := (Store.Grows.refl _).heapNew _
    exact ((withStore w hstore).trans (withContexts _ contexts)).trans (setCurrent _ t c)

theorem futureCreate (w : World) {task : Nat} (h : task < w.nextTask) :
    Steady w (w.futureCreate task).2 := by
  refine ⟨rfl, rfl, rfl, rfl, rfl, fun _ => rfl, fun _ => rfl, fun _ => rfl, ?_, fun _ _ h => h⟩
  rintro t ⟨o, future, hinternal, htask⟩
  by_cases ho : o = w.store.nextObject
  · subst ho
    right
    rw [show (w.futureCreate task).2.store = (w.store.heapNewWith .Future _).2 from rfl,
      Store.internal_heapNewWith] at hinternal
    cases hinternal
    cases htask
    exact h
  · left
    refine ⟨o, future, ?_, htask⟩
    rw [← hinternal]
    simp only [Store.internal]
    rw [show (w.futureCreate task).2.store = (w.store.heapNewWith .Future _).2 from rfl,
      Store.objects_heapNewWith_ne _ _ _ ho]

theorem unwind (w : World) (ds : List ContextId) (ins : Int) (current : Option ContextId)
    (h : t ∉ w.queued ∧ t ∉ w.waiting) : Steady w (w.unwind t ds ins current) :=
  (modifyTask w t (fun task => { task with current := current }) (fun _ => rfl) (fun _ => rfl)
    (fun _ => rfl) (.inl h)).trans (withContexts _ _)

end Steady

/-! ## What moves a task -/

namespace Scheduled

variable {w w' : World} {active : List TaskId} {t : TaskId}

/-- A new task, with its number and the fields that the scheduler reads. -/
structure Creates (w w' : World) (parent : TaskId) : Prop where
  waiting : w'.waiting = w.waiting
  completed : w'.completed = w.completed
  nextTask : w'.nextTask = w.nextTask + 1
  other : ∀ s, s ≠ w.nextTask → w'.tasks s = w.tasks s
  state : (w'.tasks w.nextTask).state = .RUNNING
  parentTask : (w'.tasks w.nextTask).parentTask = some parent
  dependentTasks : (w'.tasks w.nextTask).dependentTasks = []
  futures : ∀ t, w'.store.HasFuture t → w.store.HasFuture t

/-- A new task goes to one place. -/
theorem create {active' : List TaskId} {parent : TaskId} (h : Scheduled w active)
    (hnew : Creates w w' parent)
    (hcount : ∀ s : Nat, w'.queued.count s + active'.count s =
      w.queued.count s + active.count s + if s = w.nextTask then 1 else 0)
    (hqueued : ∀ s, s ≠ w.nextTask → s ∈ w'.queued → s ∈ w.queued)
    (hactive : ∀ s, s ≠ w.nextTask → s ∈ active' → s ∈ active)
    (hcurrent : w.nextTask ∈ w'.queued → (w'.tasks w.nextTask).current.isSome) :
    Scheduled w' active' := by
  have hfresh := h.places_new
  unfold World.places at hfresh
  have hne : ∀ {s : Nat}, 0 < w.queued.count s + w.waiting.count s + w.completed.count s +
      active.count s → s ≠ w.nextTask := by
    rintro s hs rfl
    omega
  have hwaiting : ∀ {s}, s ∈ w.waiting → s ≠ w.nextTask := by
    intro s hs
    have := List.count_pos_iff.mpr hs
    exact hne (by omega)
  have hcompleted : ∀ {s}, s ∈ w.completed → s ≠ w.nextTask := by
    intro s hs
    have := List.count_pos_iff.mpr hs
    exact hne (by omega)
  have hdeps : ∀ {s p}, p ∈ (w'.tasks s).dependentTasks →
      s ≠ w.nextTask ∧ p ∈ (w.tasks s).dependentTasks := by
    intro s p hp
    by_cases hs : s = w.nextTask
    · rw [hs, hnew.dependentTasks] at hp
      cases hp
    · rw [hnew.other s hs] at hp
      exact ⟨hs, hp⟩
  have hdead : ∀ s, (w'.dead s).toNat = (w.dead s).toNat := by
    intro s
    by_cases hn : s = w.nextTask
    · subst hn
      rw [show w'.dead w.nextTask = false by simp [World.dead, hnew.state], Bool.toNat_false]
      omega
    · rw [World.dead, hnew.other s hn, World.dead]
  constructor
  · intro s
    have hold := h.places s
    have hs := hcount s
    unfold World.places at hold ⊢
    rw [hnew.waiting, hnew.completed, hdead, hnew.nextTask]
    by_cases hn : s = w.nextTask
    · rw [if_pos hn] at hs
      rw [if_neg (by omega)] at hold
      rw [if_pos (by omega)]
      omega
    · rw [if_neg hn] at hs
      by_cases hlt : s < w.nextTask
      · rw [if_pos hlt] at hold
        rw [if_pos (by omega)]
        omega
      · rw [if_neg hlt] at hold
        rw [if_neg (by omega)]
        omega
  · intro s hs
    rw [hnew.waiting] at hs
    rw [hnew.other s (hwaiting hs), h.waiting s hs]
  · intro s hs
    rw [hnew.completed] at hs
    rw [hnew.other s (hcompleted hs)]
    exact h.completed s hs
  · intro s hs
    by_cases hn : s = w.nextTask
    · rw [hn, hnew.state]
    · rw [hnew.other s hn, h.active s (hactive s hn hs)]
  · intro s
    by_cases hn : s = w.nextTask
    · rw [hn, hnew.dependentTasks]
      exact List.nodup_nil
    · rw [hnew.other s hn]
      exact h.nodup s
  · intro s p hp hs
    rw [hnew.completed] at hs
    obtain ⟨hsn, hpold⟩ := hdeps hp
    rcases h.depends s p hpold hs with hdead' | ⟨hin, hunique⟩
    · left
      have hp' := hdead p
      rw [hdead', Bool.toNat_true] at hp'
      cases hd : w'.dead p
      · rw [hd] at hp'
        cases hp'
      · rfl
    · right
      rw [hnew.waiting]
      refine ⟨hin, fun s' hp' hs' => ?_⟩
      rw [hnew.completed] at hs'
      exact hunique s' (hdeps hp').2 hs'
  · intro p hp
    rw [hnew.waiting] at hp
    obtain ⟨s, hlt, hmem, hs⟩ := h.awaited p hp
    refine ⟨s, ?_, ?_, ?_⟩
    · rw [hnew.nextTask]
      omega
    · rw [hnew.other s (Nat.ne_of_lt hlt)]
      exact hmem
    · rwa [hnew.completed]
  · intro s hs
    rw [hnew.nextTask]
    have := h.futures s (hnew.futures s hs)
    omega
  · intro s hs
    rw [hnew.waiting] at hs
    by_cases hn : s = w.nextTask
    · subst hn
      rcases hs with hs | hs
      · exact hcurrent hs
      · exact absurd rfl (hwaiting hs)
    · rw [hnew.other s hn]
      apply h.current s
      rcases hs with hs | hs
      · exact .inl (hqueued s hn hs)
      · exact .inr hs

end Scheduled

/-! ## Changes of tasks -/

section

variable {α : Type} [DecidableEq α]

@[simp] theorem mem_setInsert {a b : α} {as : List α} : b ∈ setInsert a as ↔ b ∈ as ∨ b = a := by
  unfold setInsert
  split
  · rename_i h
    constructor
    · exact .inl
    · rintro (hb | rfl)
      · exact hb
      · exact h
  · simp

theorem setInsert_of_notMem {a : α} {as : List α} (h : a ∉ as) : setInsert a as = as ++ [a] :=
  if_neg h

theorem nodup_setInsert {a : α} {as : List α} (h : as.Nodup) : (setInsert a as).Nodup := by
  unfold setInsert
  split
  · exact h
  · rename_i ha
    exact h.append (List.nodup_singleton a) (by simpa using ha)

end

namespace World

variable (w : World) (t s : TaskId)

@[simp] theorem setState_state (state : TaskState) :
    ((w.setState t state).tasks s).state = if s = t then state else (w.tasks s).state := by
  by_cases hs : s = t
  · subst hs
    simp [setState, modifyTask]
  · simp [setState, modifyTask, hs]

@[simp] theorem setState_parentTask (state : TaskState) :
    ((w.setState t state).tasks s).parentTask = (w.tasks s).parentTask := by
  by_cases hs : s = t
  · subst hs
    simp [setState, modifyTask]
  · simp [setState, modifyTask, hs]

@[simp] theorem setState_dependentTasks (state : TaskState) :
    ((w.setState t state).tasks s).dependentTasks = (w.tasks s).dependentTasks := by
  by_cases hs : s = t
  · subst hs
    simp [setState, modifyTask]
  · simp [setState, modifyTask, hs]

@[simp] theorem setState_current (state : TaskState) :
    ((w.setState t state).tasks s).current = (w.tasks s).current := by
  by_cases hs : s = t
  · subst hs
    simp [setState, modifyTask]
  · simp [setState, modifyTask, hs]

@[simp] theorem setState_resval (state : TaskState) :
    ((w.setState t state).tasks s).resval = (w.tasks s).resval := by
  by_cases hs : s = t
  · subst hs
    simp [setState, modifyTask]
  · simp [setState, modifyTask, hs]

@[simp] theorem addDependent_state (d : TaskId) :
    ((w.addDependent t d).tasks s).state = (w.tasks s).state := by
  by_cases hs : s = t
  · subst hs
    simp [addDependent, modifyTask]
  · simp [addDependent, modifyTask, hs]

@[simp] theorem addDependent_parentTask (d : TaskId) :
    ((w.addDependent t d).tasks s).parentTask = (w.tasks s).parentTask := by
  by_cases hs : s = t
  · subst hs
    simp [addDependent, modifyTask]
  · simp [addDependent, modifyTask, hs]

@[simp] theorem addDependent_current (d : TaskId) :
    ((w.addDependent t d).tasks s).current = (w.tasks s).current := by
  by_cases hs : s = t
  · subst hs
    simp [addDependent, modifyTask]
  · simp [addDependent, modifyTask, hs]

@[simp] theorem addDependent_dependentTasks (d : TaskId) :
    ((w.addDependent t d).tasks s).dependentTasks =
      if s = t then setInsert d (w.tasks s).dependentTasks else (w.tasks s).dependentTasks := by
  by_cases hs : s = t
  · subst hs
    simp [addDependent, modifyTask]
  · simp [addDependent, modifyTask, hs]

/-- The dependents that are woken, with what changes for them. -/
theorem foldl_wake (resval : Entity) : ∀ (ds : List TaskId) (w : World),
    ds.foldl (wake resval) w =
      let woken := ds.filter fun d => decide ((w.tasks d).state = .WAITING)
      { w with
        queued := w.queued ++ woken
        waiting := w.waiting.filter fun s => decide (s ∉ woken)
        tasks := fun s => if s ∈ woken then { w.tasks s with resval := resval } else w.tasks s } := by
  intro ds
  induction ds with
  | nil =>
    intro w
    simp
  | cons d ds ih =>
    intro w
    rw [List.foldl_cons, ih, wake]
    by_cases hd : (w.tasks d).state = .WAITING
    · have hstate : ∀ s, (((w.setResval d resval).tasks s).state = .WAITING ↔
          (w.tasks s).state = .WAITING) := by
        intro s
        by_cases hs : s = d
        · subst hs
          simp [setResval, modifyTask]
        · simp [setResval, modifyTask, hs]
      rw [if_pos hd, List.filter_cons_of_pos (by simpa using hd)]
      simp only [enqueue, hstate]
      congr 1
      · funext s
        by_cases hs : s = d
        · subst hs
          simp [setResval, modifyTask]
        · simp [setResval, modifyTask, hs]
      · simp [setResval, modifyTask]
      · rw [List.filter_filter]
        apply List.filter_congr
        intro s _
        simp [not_or, Bool.and_comm]
    · rw [if_neg hd]
      simp [hd]

/-- The dependents that `_mark_task_complete` wakes. -/
def woken (w : World) (t : TaskId) : List TaskId :=
  (w.tasks t).dependentTasks.filter fun d => decide ((w.tasks d).state = .WAITING)

/-- What `_mark_task_complete` does. -/
structure Wakes (w w' : World) (t : TaskId) : Prop where
  queued : w'.queued = w.queued ++ w.woken t
  waiting : w'.waiting = w.waiting.filter fun s => decide (s ∉ w.woken t)
  completed : w'.completed = setInsert t w.completed
  tasks : ∀ s, w'.tasks s =
    if s ∈ w.woken t then { w.tasks s with resval := (w.tasks t).resval } else w.tasks s
  store : w'.store = w.store
  contexts : w'.contexts = w.contexts
  nextTask : w'.nextTask = w.nextTask
  background : w'.background = w.background
  running : w'.running = w.running

theorem wakes_markTaskComplete : Wakes w (w.markTaskComplete t) t := by
  unfold markTaskComplete
  simp only
  rw [foldl_wake]
  exact ⟨rfl, rfl, rfl, fun _ => rfl, rfl, rfl, rfl, rfl, rfl⟩

end World

namespace Scheduled

variable {w w' : World} {active : List TaskId} {t : TaskId}

theorem of_active_cons (h : Scheduled w (t :: active)) : t ∉ active := by
  have hplaces := h.places_le t
  unfold World.places at hplaces
  rw [List.count_cons_self] at hplaces
  rw [← List.count_eq_zero]
  omega

theorem of_queued (h : Scheduled w active) (ht : t ∈ w.queued) :
    t ∉ w.waiting ∧ t ∉ w.completed ∧ t ∉ active ∧ w.dead t = false := by
  have hplaces := h.places_le t
  have hcount := List.count_pos_iff.mpr ht
  unfold World.places at hplaces
  refine ⟨?_, ?_, ?_, ?_⟩
  · rw [← List.count_eq_zero]
    omega
  · rw [← List.count_eq_zero]
    omega
  · rw [← List.count_eq_zero]
    omega
  · cases hdead : w.dead t with
    | false => rfl
    | true =>
      rw [hdead, Bool.toNat_true] at hplaces
      omega

theorem of_waiting (h : Scheduled w active) (ht : t ∈ w.waiting) :
    t ∉ w.queued ∧ t ∉ w.completed ∧ t ∉ active := by
  have hplaces := h.places_le t
  have hcount := List.count_pos_iff.mpr ht
  unfold World.places at hplaces
  refine ⟨?_, ?_, ?_⟩
  · rw [← List.count_eq_zero]
    omega
  · rw [← List.count_eq_zero]
    omega
  · rw [← List.count_eq_zero]
    omega

/-- An active task waits for one that is not completed. -/
theorem await {task : Nat} (h : Scheduled w (t :: active)) (hlt : task < w.nextTask)
    (htask : task ∉ w.completed) (hcurrent : (w.tasks t).current.isSome) :
    Scheduled { (w.addDependent task t).setState t .WAITING with waiting := setInsert t w.waiting }
      active := by
  obtain ⟨hqueued, hwaiting, hcompleted, hdead⟩ := h.of_active List.mem_cons_self
  have hactive := h.of_active_cons
  have hstate := h.active t List.mem_cons_self
  -- `t` waits for nothing else: it was running.
  have hidle : ∀ s, t ∈ (w.tasks s).dependentTasks → s ∈ w.completed := by
    intro s hs
    by_contra hnot
    rcases h.depends s t hs hnot with hd | ⟨hin, -⟩
    · exact hdead hd
    · exact hwaiting hin
  have hkept : ∀ s : Nat, ({ (w.addDependent task t).setState t .WAITING with
      waiting := setInsert t w.waiting } : World).dead s = w.dead s := by
    intro s
    by_cases hs : s = t
    · subst hs
      simp [World.dead, hstate]
    · simp [World.dead, hs]
  constructor
  · intro s
    rw [show ({ (w.addDependent task t).setState t .WAITING with
      waiting := setInsert t w.waiting } : World).nextTask = w.nextTask from rfl, ← h.places s]
    unfold World.places
    rw [hkept, setInsert_of_notMem hwaiting, List.count_append, List.count_cons,
      List.count_cons, List.count_nil]
    simp only [World.setState, World.addDependent, World.modifyTask]
    omega
  · intro s hs
    rw [mem_setInsert] at hs
    by_cases hst : s = t
    · simp [hst]
    · simpa [hst] using h.waiting s (hs.resolve_right hst)
  · intro s hs
    have hst : s ≠ t := by
      rintro rfl
      exact hcompleted hs
    simpa [hst] using h.completed s hs
  · intro s hs
    have hst : s ≠ t := by
      rintro rfl
      exact hactive hs
    simpa [hst] using h.active s (List.mem_cons_of_mem t hs)
  · intro s
    simp only [World.setState_dependentTasks, World.addDependent_dependentTasks]
    split
    · exact nodup_setInsert (h.nodup s)
    · exact h.nodup s
  · intro s p hp hs
    rw [hkept]
    simp only [World.setState_dependentTasks, World.addDependent_dependentTasks] at hp ⊢
    change s ∉ w.completed at hs
    by_cases hpt : p = t
    · subst hpt
      right
      have hsingle : ∀ s', s' ∉ w.completed → p ∈ (if s' = task then
          setInsert p (w.tasks s').dependentTasks else (w.tasks s').dependentTasks) → s' = task := by
        intro s' hs' hp'
        by_contra hne
        rw [if_neg hne] at hp'
        exact hs' (hidle s' hp')
      refine ⟨by simp, fun s' hp' hs' => ?_⟩
      rw [hsingle s' hs' hp', hsingle s hs hp]
    · have hsame : ∀ s', p ∈ (if s' = task then setInsert t (w.tasks s').dependentTasks else
          (w.tasks s').dependentTasks) ↔ p ∈ (w.tasks s').dependentTasks := by
        intro s'
        split
        · simp [hpt]
        · rfl
      rw [hsame] at hp
      rcases h.depends s p hp hs with hd | ⟨hin, hunique⟩
      · exact .inl hd
      · right
        refine ⟨by simp [hin], fun s' hp' hs' => ?_⟩
        rw [hsame] at hp'
        exact hunique s' hp' hs'
  · intro p hp
    rw [mem_setInsert] at hp
    simp only [World.setState_dependentTasks, World.addDependent_dependentTasks]
    rcases hp with hp | rfl
    · obtain ⟨s, hslt, hmem, hs⟩ := h.awaited p hp
      refine ⟨s, hslt, ?_, hs⟩
      split
      · simp [hmem]
      · exact hmem
    · exact ⟨task, hlt, by simp, htask⟩
  · exact h.futures
  · intro s hs
    rw [mem_setInsert] at hs
    simp only [World.setState_current, World.addDependent_current]
    rcases hs with hs | hs | rfl
    · exact h.current s (.inl hs)
    · exact h.current s (.inr hs)
    · exact hcurrent

/-- The dependents that are woken are the ones in the waiting set. -/
theorem mem_woken (h : Scheduled w (t :: active)) {state : TaskState} {w₁ : World} {p : TaskId}
    (hs : Steady (w.setState t state) w₁) :
    p ∈ w₁.woken t ↔ p ∈ (w.tasks t).dependentTasks ∧ p ∈ w.waiting := by
  obtain ⟨-, hwaiting, hcompleted, hdead⟩ := h.of_active List.mem_cons_self
  have hself : t ∉ (w.tasks t).dependentTasks := by
    intro hmem
    rcases h.depends t t hmem hcompleted with hd | ⟨hin, -⟩
    · exact hdead hd
    · exact hwaiting hin
  simp only [World.woken, hs.dependentTasks, World.setState_dependentTasks, List.mem_filter,
    decide_eq_true_eq, hs.state, World.setState_state]
  constructor
  · rintro ⟨hmem, hp⟩
    have hne : p ≠ t := by
      rintro rfl
      exact hself hmem
    rw [if_neg hne] at hp
    refine ⟨hmem, ?_⟩
    rcases h.depends t p hmem hcompleted with hd | ⟨hin, -⟩
    · simp [World.dead, hp] at hd
    · exact hin
  · rintro ⟨hmem, hin⟩
    have hne : p ≠ t := by
      rintro rfl
      exact hself hmem
    rw [if_neg hne]
    exact ⟨hmem, h.waiting p hin⟩

/-- A task that has ended wakes what waits for it. -/
theorem complete {state : TaskState} {w₁ : World} (h : Scheduled w (t :: active))
    (hended : state = .COMPLETE ∨ state = .ERROR ∧ (w.tasks t).parentTask.isSome)
    (hsteady : Steady (w.setState t state) w₁) : Scheduled (w₁.markTaskComplete t) active := by
  have hw := World.wakes_markTaskComplete w₁ t
  generalize w₁.markTaskComplete t = w' at hw
  obtain ⟨-, hwaiting, hcompleted, hdead⟩ := h.of_active List.mem_cons_self
  have hactive := h.of_active_cons
  have hqueued₁ : w₁.queued = w.queued := hsteady.queued
  have hwaiting₁ : w₁.waiting = w.waiting := hsteady.waiting
  have hwoken : ∀ p, p ∈ w₁.woken t ↔ p ∈ (w.tasks t).dependentTasks ∧ p ∈ w.waiting :=
    fun p => h.mem_woken hsteady
  have hnodup : (w₁.woken t).Nodup := by
    apply List.Nodup.filter
    rw [hsteady.dependentTasks, World.setState_dependentTasks]
    exact h.nodup t
  have htasks : ∀ {α : Type} (g : Task → α), (∀ x e, g { x with resval := e } = g x) →
      ∀ s, g (w'.tasks s) = g (w₁.tasks s) := by
    intro α g hg s
    rw [hw.tasks]
    split
    · exact hg _ _
    · rfl
  have hstate : ∀ s, (w'.tasks s).state = if s = t then state else (w.tasks s).state := by
    intro s
    rw [htasks Task.state (fun _ _ => rfl), hsteady.state, World.setState_state]
  have hparent : ∀ s, (w'.tasks s).parentTask = (w.tasks s).parentTask := by
    intro s
    rw [htasks Task.parentTask (fun _ _ => rfl), hsteady.parentTask, World.setState_parentTask]
  have hdeps : ∀ s, (w'.tasks s).dependentTasks = (w.tasks s).dependentTasks := by
    intro s
    rw [htasks Task.dependentTasks (fun _ _ => rfl), hsteady.dependentTasks, World.setState_dependentTasks]
  have hcompleted' : w'.completed = w.completed ++ [t] := by
    rw [hw.completed, hsteady.completed]
    exact setInsert_of_notMem hcompleted
  have hkept : ∀ s : Nat, w'.dead s = w.dead s := by
    intro s
    unfold World.dead
    rw [hstate, hparent]
    by_cases hs : s = t
    · subst hs
      rcases hended with rfl | ⟨rfl, hsome⟩
      · simp [h.active s List.mem_cons_self]
      · cases hp : (w.tasks s).parentTask with
        | none => simp [hp] at hsome
        | some p => simp
    · rw [if_neg hs]
  have hin : ∀ {s}, s ∈ w'.waiting ↔ s ∈ w.waiting ∧ s ∉ (w.tasks t).dependentTasks := by
    intro s
    rw [hw.waiting, hwaiting₁, List.mem_filter, decide_eq_true_eq, hwoken]
    constructor
    · rintro ⟨hs, hnot⟩
      exact ⟨hs, fun hmem => hnot ⟨hmem, hs⟩⟩
    · rintro ⟨hs, hnot⟩
      exact ⟨hs, fun hmem => hnot hmem.1⟩
  have hnotCompleted : ∀ {s}, s ∉ w'.completed ↔ s ∉ w.completed ∧ s ≠ t := by
    intro s
    simp [hcompleted']
  constructor
  · intro s
    have hmoved : w'.queued.count s + w'.waiting.count s = w.queued.count s + w.waiting.count s := by
      rw [hw.queued, hqueued₁, List.count_append, hw.waiting, hwaiting₁]
      by_cases hs : s ∈ w₁.woken t
      · have hone : w.waiting.count s = 1 := by
          have hpos := List.count_pos_iff.mpr ((hwoken s).mp hs).2
          have hle := h.places_le s
          unfold World.places at hle
          omega
        rw [List.count_eq_one_of_mem hnodup hs, hone]
        have hzero : (w.waiting.filter fun s' => decide (s' ∉ w₁.woken t)).count s = 0 := by
          simp [List.count_eq_zero, hs]
        rw [hzero]
      · rw [List.count_eq_zero_of_not_mem hs, List.count_filter (by simpa using hs)]
        omega
    rw [hw.nextTask, hsteady.nextTask, show (w.setState t state).nextTask = w.nextTask from rfl,
      ← h.places s]
    unfold World.places
    rw [hkept, hcompleted', List.count_append, List.count_cons, List.count_cons, List.count_nil]
    omega
  · intro s hs
    obtain ⟨hs, -⟩ := hin.mp hs
    have hst : s ≠ t := by
      rintro rfl
      exact hwaiting hs
    rw [hstate, if_neg hst, h.waiting s hs]
  · intro s hs
    rw [hstate]
    by_cases hst : s = t
    · rw [if_pos hst]
      exact hended.imp_right And.left
    · rw [if_neg hst]
      rw [hcompleted', List.mem_append, List.mem_singleton] at hs
      exact h.completed s (hs.resolve_right hst)
  · intro s hs
    have hst : s ≠ t := by
      rintro rfl
      exact hactive hs
    rw [hstate, if_neg hst, h.active s (List.mem_cons_of_mem t hs)]
  · intro s
    rw [hdeps]
    exact h.nodup s
  · intro s p hp hs
    rw [hdeps] at hp
    obtain ⟨hs, hst⟩ := hnotCompleted.mp hs
    rw [hkept, hin]
    rcases h.depends s p hp hs with hd | ⟨hwait, hunique⟩
    · exact .inl hd
    · right
      refine ⟨⟨hwait, ?_⟩, fun s' hp' hs' => ?_⟩
      · intro hmem
        exact hst (hunique t hmem hcompleted).symm
      · rw [hdeps] at hp'
        exact hunique s' hp' (hnotCompleted.mp hs').1
  · intro p hp
    obtain ⟨hp, hnot⟩ := hin.mp hp
    obtain ⟨s, hlt, hmem, hs'⟩ := h.awaited p hp
    refine ⟨s, ?_, ?_, ?_⟩
    · rw [hw.nextTask, hsteady.nextTask]
      exact hlt
    · rw [hdeps]
      exact hmem
    · rw [hnotCompleted]
      refine ⟨hs', ?_⟩
      rintro rfl
      exact hnot hmem
  · intro s hfuture
    rw [hw.store] at hfuture
    rw [hw.nextTask, hsteady.nextTask]
    rcases hsteady.futures s hfuture with hold | hlt
    · exact h.futures s hold
    · exact hlt
  · intro s hplace
    have hold : s ∈ w.queued ∨ s ∈ w.waiting := by
      rw [hw.queued, hqueued₁, List.mem_append, hwoken] at hplace
      rcases hplace with (hs | hs) | hs
      · exact .inl hs
      · exact .inr hs.2
      · exact .inr (hin.mp hs).1
    rw [htasks Task.current (fun _ _ => rfl)]
    apply hsteady.current s hold
    rw [World.setState_current]
    exact h.current s hold

/-- A task without a parent that fails stays where it is. -/
theorem bury {w₁ : World} (h : Scheduled w (t :: active)) (hparent : (w.tasks t).parentTask = none)
    (hsteady : Steady (w.setState t .ERROR) w₁) : Scheduled w₁ active ∧ w₁.dead t := by
  obtain ⟨hqueued, hwaiting, hcompleted, hdead⟩ := h.of_active List.mem_cons_self
  have hactive := h.of_active_cons
  have hkept : ∀ s, (w.setState t .ERROR).dead s = if s = t then true else w.dead s := by
    intro s
    by_cases hs : s = t
    · subst hs
      simp [World.dead, hparent]
    · simp [World.dead, hs]
  suffices hset : Scheduled (w.setState t .ERROR) active by
    refine ⟨hset.steady hsteady, ?_⟩
    simp [World.dead, hsteady.state, hsteady.parentTask, hparent]
  constructor
  · intro s
    rw [show (w.setState t .ERROR).nextTask = w.nextTask from rfl, ← h.places s]
    unfold World.places
    rw [hkept, List.count_cons]
    by_cases hs : s = t
    · subst hs
      rw [if_pos rfl, eq_false_of_ne_true hdead]
      simp [World.setState, World.modifyTask]
      omega
    · have hs' : ¬ t = s := fun heq => hs heq.symm
      simp [World.setState, World.modifyTask, hs, hs']
  · intro s hs
    have hst : s ≠ t := by
      rintro rfl
      exact hwaiting hs
    simpa [hst] using h.waiting s hs
  · intro s hs
    have hst : s ≠ t := by
      rintro rfl
      exact hcompleted hs
    simpa [hst] using h.completed s hs
  · intro s hs
    have hst : s ≠ t := by
      rintro rfl
      exact hactive hs
    simpa [hst] using h.active s (List.mem_cons_of_mem t hs)
  · intro s
    simpa using h.nodup s
  · intro s p hp hs
    simp only [World.setState_dependentTasks] at hp ⊢
    rcases h.depends s p hp hs with hd | hrest
    · left
      rw [hkept, hd]
      simp
    · exact .inr hrest
  · intro p hp
    obtain ⟨s, hlt, hmem, hs⟩ := h.awaited p hp
    exact ⟨s, hlt, by simpa using hmem, hs⟩
  · exact h.futures
  · intro s hs
    simpa using h.current s hs

/-- A dead task waits for nothing, whatever it is a dependent of. -/
theorem addDead {s d : TaskId} (h : Scheduled w active) (hd : w.dead d) :
    Scheduled (w.addDependent s d) active := by
  have hkept : ∀ t, (w.addDependent s d).dead t = w.dead t := by
    intro t
    simp [World.dead]
  have hsame : ∀ {t p}, p ≠ d →
      (p ∈ ((w.addDependent s d).tasks t).dependentTasks ↔ p ∈ (w.tasks t).dependentTasks) := by
    intro t p hp
    rw [World.addDependent_dependentTasks]
    split
    · simp [hp]
    · rfl
  constructor
  · intro t
    rw [show (w.addDependent s d).nextTask = w.nextTask from rfl, ← h.places t]
    unfold World.places
    rw [hkept]
    rfl
  · intro t ht
    simpa using h.waiting t ht
  · intro t ht
    simpa using h.completed t ht
  · intro t ht
    simpa using h.active t ht
  · intro t
    rw [World.addDependent_dependentTasks]
    split
    · exact nodup_setInsert (h.nodup t)
    · exact h.nodup t
  · intro t p hp ht
    rw [hkept]
    by_cases hpd : p = d
    · rw [hpd]
      exact .inl hd
    · rcases h.depends t p ((hsame hpd).mp hp) ht with hdead | ⟨hin, hunique⟩
      · exact .inl hdead
      · exact .inr ⟨hin, fun t' hp' ht' => hunique t' ((hsame hpd).mp hp') ht'⟩
  · intro p hp
    obtain ⟨t, hlt, hmem, ht⟩ := h.awaited p hp
    refine ⟨t, hlt, ?_, ht⟩
    rw [World.addDependent_dependentTasks]
    split
    · simp [hmem]
    · exact hmem
  · exact h.futures
  · intro t ht
    simpa using h.current t ht

/-- A queued task starts to run. -/
theorem start (h : Scheduled w active) (ht : t ∈ w.queued) :
    Scheduled { w.setState t .RUNNING with queued := w.queued.erase t } (t :: active) := by
  obtain ⟨hwaiting, hcompleted, hactive, hdead⟩ := h.of_queued ht
  have hkept : ∀ s, ({ w.setState t .RUNNING with queued := w.queued.erase t } : World).dead s =
      w.dead s := by
    intro s
    by_cases hs : s = t
    · subst hs
      rw [hdead]
      simp [World.dead]
    · simp [World.dead, hs]
  constructor
  · intro s
    rw [show ({ w.setState t .RUNNING with queued := w.queued.erase t } : World).nextTask =
      w.nextTask from rfl, ← h.places s]
    unfold World.places
    rw [hkept, List.count_cons]
    simp only [World.setState, World.modifyTask]
    by_cases hs : s = t
    · subst hs
      have hpos := List.count_pos_iff.mpr ht
      rw [List.count_erase_self]
      simp
      omega
    · have hs' : ¬ t = s := fun heq => hs heq.symm
      rw [List.count_erase_of_ne hs]
      simp [hs']
  · intro s hs
    have hst : s ≠ t := by
      rintro rfl
      exact hwaiting hs
    simpa [hst] using h.waiting s hs
  · intro s hs
    have hst : s ≠ t := by
      rintro rfl
      exact hcompleted hs
    simpa [hst] using h.completed s hs
  · intro s hs
    rcases List.mem_cons.mp hs with heq | hin
    · simp [heq]
    · have hst : s ≠ t := by
        rintro rfl
        exact hactive hin
      simpa [hst] using h.active s hin
  · intro s
    simpa using h.nodup s
  · intro s p hp hs
    rw [hkept]
    simp only [World.setState_dependentTasks] at hp ⊢
    exact h.depends s p hp hs
  · intro p hp
    obtain ⟨s, hlt, hmem, hs⟩ := h.awaited p hp
    exact ⟨s, hlt, by simpa using hmem, hs⟩
  · exact h.futures
  · intro s hs
    simp only [World.setState_current]
    exact h.current s (hs.imp_left List.mem_of_mem_erase)

end Scheduled

end JeffVm
