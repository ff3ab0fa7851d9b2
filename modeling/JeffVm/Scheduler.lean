import JeffVm.Isolation
import JeffVm.Scheduling

/-!
# The scheduler keeps its tasks

Every step of a process keeps the invariant of the scheduler: what an instruction does to its
task and to new ones, how a task that has stopped is put away, and what a background call
leaves when it ends.
-/

set_option autoImplicit false

namespace JeffVm

variable {env : Env} {w w' : World} {t : TaskId} {c : Nat} {active : List TaskId}

theorem Steady.setState (h : Steady w w') (t : TaskId) (state : TaskState) :
    Steady (w.setState t state) (w'.setState t state) where
  queued := h.queued
  waiting := h.waiting
  completed := h.completed
  nextTask := h.nextTask
  background := h.background
  state := by
    intro s
    simp [h.state]
  parentTask := by
    intro s
    simp [h.parentTask]
  dependentTasks := by
    intro s
    simp [h.dependentTasks]
  futures := h.futures
  current := by
    intro s hs
    simpa using h.current s hs

theorem Scheduled.withBackground (h : Scheduled w active)
    (background : List BackgroundThreadArgs) :
    Scheduled { w with background := background } active :=
  ⟨h.places, h.waiting, h.completed, h.active, h.nodup, h.depends, h.awaited, h.futures, h.current⟩

@[simp] theorem World.setFrame_current (w : World) (t s : TaskId) (f : Frame) :
    ((w.setFrame t f).tasks s).current = (w.tasks s).current := by
  by_cases hs : s = t
  · subst hs
    simp [World.setFrame, World.modifyTask]
  · simp [World.setFrame, World.modifyTask, hs]

@[simp] theorem World.setResval_current (w : World) (t s : TaskId) (e : Entity) :
    ((w.setResval t e).tasks s).current = (w.tasks s).current := by
  by_cases hs : s = t
  · subst hs
    simp [World.setResval, World.modifyTask]
  · simp [World.setResval, World.modifyTask, hs]

theorem Steady.taskBackContext {p : ContextId} (h : w.taskBackContext t = some (some p, w')) :
    Steady w w' ∧ (w'.tasks t).current = some p := by
  unfold World.taskBackContext at h
  split at h
  · cases h
  · rename_i cur _
    simp only at h
    split at h
    · cases h
    · rename_i q hq
      cases h
      refine ⟨?_, by simp [World.modifyTask, hq]⟩
      rw [hq]
      exact (Steady.setCurrent w t p).trans (Steady.withContexts _ _)

theorem World.createTask_creates (w : World) (t : TaskId) (e : Entity) :
    Scheduled.Creates w (w.createTask t e).2 t where
  waiting := rfl
  completed := rfl
  nextTask := rfl
  other := by
    intro s hs
    simp [World.createTask, hs]
  state := by simp [World.createTask]
  parentTask := by simp [World.createTask]
  dependentTasks := by simp [World.createTask]
  futures := fun _ h => h

/-- A called function gets a new task in the queue. -/
structure Spawns (w w' : World) (t child : TaskId) : Prop extends Scheduled.Creates w w' t where
  child : child = w.nextTask
  queued : w'.queued = w.queued ++ [w.nextTask]
  background : w'.background = w.background
  current : (w'.tasks w.nextTask).current.isSome

theorem World.executeAsNewTask_spawns {self : ObjectId} {m : ModuleId} {insPos : Int}
    {func : Option FunctionId} {previous : Option ContextId} {child : TaskId}
    (h : w.executeAsNewTask t self m insPos func previous = some (child, w')) :
    Spawns w w' t child := by
  unfold World.executeAsNewTask World.createContext at h
  obtain ⟨⟨c, w₁⟩, hcreate, heq⟩ := Option.map_eq_some_iff.mp h
  cases heq
  simp only at hcreate
  split at hcreate
  · cases hcreate
  · cases hcreate
    refine ⟨⟨rfl, rfl, rfl, ?_, ?_, ?_, ?_, ?_⟩, rfl, rfl, rfl, ?_⟩
    · intro s hs
      simp [World.modifyTask, World.enqueue, hs]
    · simp [World.modifyTask, World.enqueue]
    · simp [World.modifyTask, World.enqueue]
    · simp [World.modifyTask, World.enqueue]
    · intro s hs
      exact ((Store.Grows.refl w.store).heapNew .Object).futures s hs
    · simp [World.modifyTask, World.enqueue]

theorem Scheduled.spawn {child : TaskId} (h : Scheduled w active) (hs : Spawns w w' t child) :
    Scheduled w' active := by
  apply h.create hs.toCreates
  · intro s
    rw [hs.queued, List.count_append, List.count_singleton]
    by_cases hn : s = w.nextTask
    · subst hn
      simp
      omega
    · have hn' : ¬ w.nextTask = s := fun heq => hn heq.symm
      simp [hn, hn']
  · intro s hn hmem
    rw [hs.queued] at hmem
    simpa [hn] using hmem
  · intro s _ hmem
    exact hmem
  · exact fun _ => hs.current

/-- The task of a background call is active at once. -/
theorem Scheduled.createBackground (h : Scheduled w active) (t : TaskId) (e : Entity) :
    Scheduled (w.createTask t e).2 (w.nextTask :: active) := by
  apply h.create (w.createTask_creates t e)
  · intro s
    rw [List.count_cons]
    simp only [beq_iff_eq, World.createTask]
    by_cases hn : s = w.nextTask
    · simp [hn]
      omega
    · have hn' : ¬ w.nextTask = s := fun heq => hn heq.symm
      simp [hn, hn']
  · intro s _ hmem
    exact hmem
  · intro s hn hmem
    simpa [hn] using hmem
  · intro hmem
    have hfresh := h.places_new
    have hpos := List.count_pos_iff.mpr hmem
    unfold World.places at hfresh
    simp only [World.createTask] at hpos
    omega

/-! ## Instructions -/

/-- The tasks of background calls. -/
def World.backgroundTasks (w : World) : List TaskId := w.background.map BackgroundThreadArgs.task

/-- How a task leaves the loop of `vm_execute_task`: it waits and is not in the waiting set yet,
or it has ended. -/
inductive Stops (w : World) (t : TaskId) (w' : World) : Prop where
  | waits (hstate : (w'.tasks t).state = .WAITING) (hcompleted : w'.completed = w.completed)
      (hscheduled : Scheduled { w' with waiting := setInsert t w'.waiting } w'.backgroundTasks)
  | ends (state : TaskState) (hstate : state = .COMPLETE ∨ state = .ERROR)
      (hsteady : Steady (w.setState t state) w')

/-- A task that goes on. -/
structure Continues (w : World) (t : TaskId) (w' : World) : Prop where
  scheduled : Scheduled w' (t :: w'.backgroundTasks)
  current : (w'.tasks t).current.isSome
  completed : w'.completed = w.completed

theorem Steady.continues (hs : Steady w w') (h : Scheduled w (t :: w.backgroundTasks))
    (hcurrent : (w'.tasks t).current.isSome) : Continues w t w' := by
  refine ⟨?_, hcurrent, hs.completed⟩
  rw [World.backgroundTasks, hs.background]
  exact h.steady hs

/-- The task is not completed, so it is found elsewhere. -/
theorem Scheduled.notMem_completed (h : Scheduled w active) {s : TaskId} (hs : s ∈ w.queued) :
    s ∉ w.completed := (h.of_queued hs).2.1

theorem Scheduled.ne_nextTask (h : Scheduled w active) (ht : t ∈ active) : t ≠ w.nextTask := by
  rintro rfl
  have hfresh := h.places_new
  have hpos := List.count_pos_iff.mpr ht
  unfold World.places at hfresh
  omega

/-- A call or a module load: the task waits for a new one. -/
theorem Spawns.waits {child : TaskId} (hs : Spawns w w' t child)
    (h : Scheduled w (t :: w.backgroundTasks)) (hcurrent : (w.tasks t).current.isSome) :
    Stops w t (((w'.addDependent child t).setState t .WAITING).incIns c) := by
  have hspawned := h.spawn hs
  have hchild : child ∈ w'.queued := by
    rw [hs.queued, hs.child]
    simp
  have hlt : child < w'.nextTask := by
    rw [hs.nextTask, hs.child]
    exact Nat.lt_succ_self _
  have htask : w'.tasks t = w.tasks t := hs.other t (h.ne_nextTask List.mem_cons_self)
  have hwaits := hspawned.await hlt (hspawned.notMem_completed hchild) (by rw [htask]; exact hcurrent)
  refine .waits ?_ hs.completed ?_
  · simp [World.incIns, World.modifyContext]
  · have hbackground : (((w'.addDependent child t).setState t .WAITING).incIns c).backgroundTasks =
        w.backgroundTasks := congrArg (List.map BackgroundThreadArgs.task) hs.background
    rw [hbackground]
    exact hwaits.steady (Steady.incIns _ c)

theorem Stops.of_steady {w₁ : World} (h : Stops w₁ t w') (hs : Steady w w₁) : Stops w t w' := by
  cases h with
  | waits hstate hcompleted hscheduled =>
    exact .waits hstate (hcompleted.trans hs.completed) hscheduled
  | ends state hstate hsteady => exact .ends state hstate ((hs.setState t state).trans hsteady)

/-- What an instruction does for the scheduler. -/
theorem apply_scheduled {effect : Effect} {out : World.Outcome}
    (h : Scheduled w (t :: w.backgroundTasks)) (hcurrent : (w.tasks t).current.isSome)
    (hsound : effect.Sound w w.store) (happly : w.apply t c effect = some (w', out)) :
    match out with
    | .running _ => Continues w t w'
    | .stopped => Stops w t w' := by
  have hframe := Steady.setFrame w t hsound.grows
  cases effect with
  | next f =>
    cases happly
    exact (hframe.trans (Steady.incIns _ c)).continues h (by
      simpa [World.incIns, World.modifyContext] using hcurrent)
  | raise f err =>
    have hraised : w.store.Grows (f.withResval (.obj err)).store := hsound
    cases happly
    exact (((Steady.setFrame w t hraised).trans (Steady.modifyContext _ c _)).trans
      (Steady.incIns _ c)).continues h (by
        simpa [World.incIns, World.modifyContext] using hcurrent)
  | jump f n =>
    cases happly
    exact (hframe.trans (Steady.modifyContext _ c _)).continues h (by
      simpa [World.modifyContext] using hcurrent)
  | call f func self parentContext =>
    have hscheduled : Scheduled (w.setFrame t f) (t :: (w.setFrame t f).backgroundTasks) :=
      h.steady hframe
    have hframed : ((w.setFrame t f).tasks t).current.isSome := by simpa using hcurrent
    simp only [World.apply] at happly
    split at happly
    · cases happly
    · rename_i child w₁ htask
      have hspawns := World.executeAsNewTask_spawns htask
      split at happly
      · cases happly
        have hchild : child < w₁.nextTask := by
          rw [hspawns.nextTask, hspawns.child]
          exact Nat.lt_succ_self _
        have hsteady := ((Steady.futureCreate w₁ hchild).trans
          (Steady.setResval _ t (.obj (w₁.futureCreate child).1))).trans (Steady.incIns _ c)
        refine ⟨?_, ?_, ?_⟩
        · have hbackground : (((w₁.futureCreate child).2.setResval t
              (.obj (w₁.futureCreate child).1)).incIns c).backgroundTasks = w.backgroundTasks :=
            congrArg (List.map BackgroundThreadArgs.task) hspawns.background
          rw [hbackground]
          exact (hscheduled.spawn hspawns).steady hsteady
        · have hold : w₁.tasks t = (w.setFrame t f).tasks t :=
            hspawns.other t (hscheduled.ne_nextTask List.mem_cons_self)
          simp only [World.incIns, World.modifyContext, World.setResval_current,
            World.futureCreate, hold]
          exact hframed
        · exact hspawns.completed
      · cases happly
        exact (hspawns.waits hscheduled hframed).of_steady hframe
  | background f func self =>
    have hscheduled : Scheduled (w.setFrame t f) (t :: w.backgroundTasks) := h.steady hframe
    have hcreated := hscheduled.createBackground t f.resval
    have hlt : (w.setFrame t f).nextTask < ((w.setFrame t f).createTask t f.resval).2.nextTask :=
      Nat.lt_succ_self _
    have hsteady := Steady.futureCreate _ hlt
    simp only [World.apply] at happly
    cases happly
    refine ⟨?_, ?_, rfl⟩
    · have hmoved := (hcreated.steady hsteady).withBackground (w.background ++
        [BackgroundThreadArgs.mk (w.setFrame t f).nextTask c func self])
      have hdone := (hmoved.steady (Steady.setResval _ t (.obj
        (((w.setFrame t f).createTask t f.resval).2.futureCreate (w.setFrame t f).nextTask).1))).steady
          (Steady.incIns _ c)
      refine hdone.perm ?_
      have hactive : ∀ n : TaskId, (n :: t :: w.backgroundTasks).Perm
          (t :: (w.background ++ [BackgroundThreadArgs.mk n c func self]).map
            BackgroundThreadArgs.task) := by
        intro n
        rw [List.map_append]
        exact (List.Perm.swap t n _).trans ((List.perm_append_singleton n _).symm.cons t)
      exact hactive _
    · have hold := hscheduled.ne_nextTask List.mem_cons_self
      have hkept := (World.createTask_creates (w.setFrame t f) t f.resval).other t hold
      simp only [World.incIns, World.modifyContext, World.setResval_current, World.futureCreate,
        hkept]
      simpa using hcurrent
  | load f m =>
    have hscheduled : Scheduled (w.setFrame t f) (t :: (w.setFrame t f).backgroundTasks) :=
      h.steady hframe
    simp only [World.apply] at happly
    split at happly
    · cases happly
    · rename_i child w₁ htask
      cases happly
      exact ((World.executeAsNewTask_spawns htask).waits hscheduled
        (by simpa using hcurrent)).of_steady hframe
  | wait f task =>
    obtain ⟨-, hfuture, hcomplete, herror⟩ := hsound
    have hlt := h.futures task hfuture
    have hnot : task ∉ w.completed := by
      intro hmem
      rcases h.completed task hmem with heq | heq
      · exact hcomplete heq
      · exact herror heq
    have hscheduled : Scheduled (w.setFrame t f) (t :: (w.setFrame t f).backgroundTasks) :=
      h.steady hframe
    cases happly
    refine .waits ?_ rfl ?_
    · simp [World.incIns, World.modifyContext]
    · exact (hscheduled.await hlt hnot (by simpa using hcurrent)).steady (Steady.incIns _ c)
  | newBlock f =>
    simp only [World.apply] at happly
    split at happly
    · cases happly
    · rename_i new w₁ hcreate
      cases happly
      obtain ⟨hsteady, hnew⟩ := Steady.createContext hcreate
      exact ((hframe.trans hsteady).trans (Steady.incIns _ new)).continues h
        (hnew t (by simpa using hcurrent))
  | backBlock f =>
    simp only [World.apply] at happly
    split at happly
    · rename_i p w₁ hback
      cases happly
      obtain ⟨hsteady, hp⟩ := Steady.taskBackContext hback
      exact ((hframe.trans hsteady).trans (Steady.incIns _ p)).continues h
        (by simp [World.incIns, World.modifyContext, hp])
    · cases happly
  | setCatch f n =>
    cases happly
    exact ((hframe.trans (Steady.modifyContext _ c _)).trans (Steady.incIns _ c)).continues h (by
      simpa [World.incIns, World.modifyContext] using hcurrent)
  | complete f =>
    cases happly
    exact .ends .COMPLETE (.inl rfl) ((hframe.setState t _).trans (Steady.incIns _ c))

/-- The top of the loop of `vm_execute_task`. -/
theorem fetch_steady {b : Bool} (h : Scheduled w (t :: w.backgroundTasks))
    (hcurrent : (w.tasks t).current.isSome) (hfetch : w.fetch t c = some (b, w')) :
    if b then Steady w w' ∧ (w'.tasks t).current.isSome else Steady (w.setState t .ERROR) w' := by
  obtain ⟨hqueued, hwaiting, -, -⟩ := h.of_active List.mem_cons_self
  unfold World.fetch at hfetch
  split at hfetch
  · by_cases hc : (w.contexts.context c).catchIns < 0
    · obtain ⟨cur, hcur⟩ := Option.isSome_iff_exists.mp hcurrent
      rcases World.attempCatchError_cases hcur hc with
        ⟨pre, handler, post, -, -, -, heq⟩ | ⟨pre, -, -, heq⟩
      · rw [heq] at hfetch
        cases hfetch
        refine ⟨(Steady.unwind w _ _ _ ⟨hqueued, hwaiting⟩).trans (Steady.modifyContext _ _ _), ?_⟩
        simp [World.resumeAt, World.modifyContext]
      · rw [heq] at hfetch
        cases hfetch
        exact (Steady.unwind w _ _ _ ⟨hqueued, hwaiting⟩).setState t .ERROR
    · rw [World.attempCatchError_here (by omega)] at hfetch
      cases hfetch
      exact ⟨Steady.modifyContext _ _ _, hcurrent⟩
  · cases hfetch
    exact ⟨Steady.refl w, hcurrent⟩

theorem iterate_scheduled {out : World.Outcome} (henv : KeepsHeap env)
    (h : Scheduled w (t :: w.backgroundTasks)) (hcurrent : (w.tasks t).current.isSome)
    (hiterate : w.iterate env t c = some (w', out)) :
    match out with
    | .running _ => Continues w t w'
    | .stopped => Stops w t w' := by
  unfold World.iterate at hiterate
  split at hiterate
  · cases hiterate
  · rename_i w₁ hfetch
    cases hiterate
    exact .ends .ERROR (.inr rfl) (fetch_steady h hcurrent hfetch)
  · rename_i w₁ hfetch
    obtain ⟨hsteady, hcurrent₁⟩ := fetch_steady h hcurrent hfetch
    have hbackground : w₁.backgroundTasks = w.backgroundTasks :=
      congrArg (List.map BackgroundThreadArgs.task) hsteady.background
    split at hiterate
    · cases hiterate
    · split at hiterate
      · cases hiterate
      · rename_i ins _ _ effect heffect
        have happlied := apply_scheduled (hbackground ▸ h.steady hsteady) hcurrent₁
          (execute_keeps henv ins effect heffect) hiterate
        cases out with
        | running d =>
          exact ⟨happlied.scheduled, happlied.current, happlied.completed.trans hsteady.completed⟩
        | stopped => exact Stops.of_steady happlied hsteady

/-! ## Steps -/

/-- What a step does for the tasks that wait for one that completes. -/
def WakesDependents (w w' : World) : Prop :=
  ∀ t ∈ w'.completed, t ∉ w.completed → ∀ p ∈ w.waiting, p ∈ (w.tasks t).dependentTasks →
    p ∉ w.queued ∧ w'.queued.count p = 1 ∧ p ∉ w'.waiting ∧
      (w'.tasks p).resval = (w'.tasks t).resval

theorem WakesDependents.of_completed (h : w'.completed = w.completed) : WakesDependents w w' := by
  intro t ht hnot
  rw [h] at ht
  exact absurd ht hnot

/-- The end of a task, for the tasks that wait for it. -/
theorem Scheduled.wakesDependents {state : TaskState} {w₁ : World} (h : Scheduled w (t :: active))
    (hended : state = .COMPLETE ∨ state = .ERROR ∧ (w.tasks t).parentTask.isSome)
    (hsteady : Steady (w.setState t state) w₁) : WakesDependents w (w₁.markTaskComplete t) := by
  have hscheduled := h.complete hended hsteady
  have hw := World.wakes_markTaskComplete w₁ t
  obtain ⟨-, hwaiting, hcompleted, -⟩ := h.of_active List.mem_cons_self
  intro s hs hnot p hp hmem
  have hst : s = t := by
    rw [hw.completed, mem_setInsert, hsteady.completed] at hs
    exact hs.resolve_left hnot
  subst hst
  have hwoken : p ∈ w₁.woken s := (h.mem_woken hsteady).mpr ⟨hmem, hp⟩
  have hself : s ∉ w₁.woken s := by
    intro hin
    exact hwaiting ((h.mem_woken hsteady).mp hin).2
  have hin : p ∈ (w₁.markTaskComplete s).queued := by
    rw [hw.queued]
    exact List.mem_append_right _ hwoken
  refine ⟨(h.of_waiting hp).1, ?_, (hscheduled.of_queued hin).1, ?_⟩
  · have hle := hscheduled.places_le p
    have hpos := List.count_pos_iff.mpr hin
    unfold World.places at hle
    omega
  · rw [hw.tasks, if_pos hwoken, hw.tasks, if_neg hself]

theorem Steady.withFlag (w : World) (p : TaskId) :
    Steady w (w.modifyTask p fun x => { x with childTaskHasError := true }) :=
  Steady.modifyTask w p _ (fun _ => rfl) (fun _ => rfl) (fun _ => rfl) (.inr fun _ h => h)

/-- The switch of `process_run`. -/
theorem stop_scheduled {w₁ : World} (h : Scheduled w (t :: w.backgroundTasks))
    (hstops : Stops w t w₁) (hstop : w₁.stop env t = some w') :
    Scheduled w' w'.backgroundTasks ∧ WakesDependents w w' := by
  unfold World.stop at hstop
  simp only at hstop
  cases hstops with
  | waits hstate hcompleted hscheduled =>
    rw [hstate] at hstop
    cases hstop
    exact ⟨hscheduled.steady (Steady.withRunning _ none), .of_completed hcompleted⟩
  | ends state hstate hsteady =>
    have hown : (w₁.tasks t).state = state := by simp [hsteady.state]
    have hparent : (w₁.tasks t).parentTask = (w.tasks t).parentTask := by
      rw [hsteady.parentTask, World.setState_parentTask]
    have hnone := hsteady.trans (Steady.withRunning w₁ none)
    have hmark : ∀ {w₂ : World}, Steady (w.setState t state) w₂ →
        (state = .COMPLETE ∨ state = .ERROR ∧ (w.tasks t).parentTask.isSome) →
        Scheduled (w₂.markTaskComplete t) (w₂.markTaskComplete t).backgroundTasks ∧
          WakesDependents w (w₂.markTaskComplete t) := by
      intro w₂ hs hended
      have hbackground : (w₂.markTaskComplete t).backgroundTasks = w.backgroundTasks :=
        congrArg (List.map BackgroundThreadArgs.task)
          ((World.wakes_markTaskComplete w₂ t).background.trans hs.background)
      rw [hbackground]
      exact ⟨h.complete hended hs, h.wakesDependents hended hs⟩
    rcases hstate with rfl | rfl
    · rw [hown] at hstop
      cases hstop
      exact hmark hnone (.inl rfl)
    · rw [hown] at hstop
      simp only at hstop
      split at hstop
      · rename_i p hp
        cases hstop
        exact hmark (hnone.trans (Steady.withFlag _ p)) (.inr ⟨rfl, by rw [← hparent, hp]; rfl⟩)
      · rename_i hp
        split at hstop
        · cases hstop
        · obtain ⟨⟨child, w₂⟩, htask, heq⟩ := Option.map_eq_some_iff.mp hstop
          cases heq
          obtain ⟨hburied, hdead⟩ := h.bury (by rw [← hparent, hp]) hnone
          have hspawns := World.executeAsNewTask_spawns htask
          have hdead' : w₂.dead t := by
            have hne : t ≠ ({ w₁ with running := none } : World).nextTask := by
              rw [hnone.nextTask]
              exact h.ne_nextTask List.mem_cons_self
            rw [World.dead, hspawns.other t hne]
            exact hdead
          have hbackground : (w₂.addDependent child t).backgroundTasks = w.backgroundTasks :=
            congrArg (List.map BackgroundThreadArgs.task)
              (hspawns.background.trans hnone.background)
          rw [hbackground]
          refine ⟨(hburied.spawn hspawns).addDead hdead', .of_completed ?_⟩
          exact hspawns.completed.trans hnone.completed

/-- The invariant between the steps of a process. -/
structure SchedulerSound (w : World) : Prop where
  scheduled : Scheduled w ((w.running.map Prod.fst).toList ++ w.backgroundTasks)
  current : ∀ (t : TaskId) (c : Nat), w.running = some (t, c) → (w.tasks t).current.isSome

/-- A task that is resumed. -/
theorem SchedulerSound.resume {w₁ : World} (h : Scheduled w (t :: w.backgroundTasks))
    (hs : Steady w w₁) (hcurrent : (w₁.tasks t).current.isSome) :
    SchedulerSound { w₁ with running := some (t, c) } where
  scheduled := by
    have hbackground : w₁.backgroundTasks = w.backgroundTasks :=
      congrArg (List.map BackgroundThreadArgs.task) hs.background
    have hscheduled := h.steady (hs.trans (Steady.withRunning w₁ (some (t, c))))
    rw [← hbackground] at hscheduled
    exact hscheduled
  current := by
    rintro s d ⟨⟩
    exact hcurrent

theorem schedulerSound_start (hw : SchedulerSound w) (hidle : w.running = none)
    (ht : t ∈ w.queued) (h : w.start t = some w') : SchedulerSound w' ∧ WakesDependents w w' := by
  have hscheduled := hw.scheduled
  rw [hidle] at hscheduled
  have hstarted := hscheduled.start ht
  obtain ⟨cur, hcur⟩ := Option.isSome_iff_exists.mp (hscheduled.current t (.inl ht))
  have hcurrent : (({ w.setState t .RUNNING with queued := w.queued.erase t } : World).tasks
      t).current.isSome := by simp [hcur]
  unfold World.start at h
  simp only [World.setState_current, hcur] at h
  split at h
  · split at h
    · split at h
      · rename_i err _ _
        cases h
        refine ⟨?_, .of_completed rfl⟩
        refine SchedulerSound.resume hstarted ((Steady.modifyContext _ cur _).trans
          (Steady.modifyTask _ t (fun x => { x with childTaskHasError := false }) (fun _ => rfl)
            (fun _ => rfl) (fun _ => rfl) (.inr fun _ h => h))) ?_
        simpa [World.modifyContext, World.modifyTask] using hcurrent
      · cases h
    · cases h
  · cases h
    exact ⟨SchedulerSound.resume hstarted (Steady.refl _) hcurrent, .of_completed rfl⟩

theorem schedulerSound_finish {args : BackgroundThreadArgs} (henv : KeepsHeap env)
    (hw : SchedulerSound w) (hargs : args ∈ w.background) (h : w.finish env args = some w') :
    SchedulerSound w' ∧ WakesDependents w w' := by
  have hperm : ((w.running.map Prod.fst).toList ++ w.backgroundTasks).Perm
      (args.task :: ((w.running.map Prod.fst).toList ++
        (w.background.erase args).map BackgroundThreadArgs.task)) := by
    have hbackground := (List.perm_cons_erase hargs).map BackgroundThreadArgs.task
    exact (hbackground.append_left _).trans List.perm_middle
  have hbase := (hw.scheduled.perm hperm).withBackground (w.background.erase args)
  have hdone : ∀ w₁ : World, Steady { w with background := w.background.erase args } w₁ →
      w₁.running = w.running → (∀ s, (w₁.tasks s).current = (w.tasks s).current) →
      SchedulerSound ((w₁.setState args.task .COMPLETE).markTaskComplete args.task) ∧
        WakesDependents w ((w₁.setState args.task .COMPLETE).markTaskComplete args.task) := by
    intro w₁ hs hrunning hcurrent
    have hwakes := World.wakes_markTaskComplete (w₁.setState args.task .COMPLETE) args.task
    refine ⟨⟨?_, ?_⟩, ?_⟩
    · rw [World.backgroundTasks, hwakes.running, hwakes.background]
      have hscheduled := hbase.complete (.inl rfl) (hs.setState args.task .COMPLETE)
      rw [show (w₁.setState args.task .COMPLETE).running = w.running from hrunning,
        show (w₁.setState args.task .COMPLETE).background = w.background.erase args from
          hs.background]
      exact hscheduled
    · intro t c hrun
      rw [hwakes.running] at hrun
      have hsome := hw.current t c (hrunning ▸ hrun)
      rw [hwakes.tasks]
      split
      · simpa [hcurrent] using hsome
      · simpa [hcurrent] using hsome
    · exact hbase.wakesDependents (.inl rfl) (hs.setState args.task .COMPLETE)
  unfold World.finish at h
  simp only at h
  split at h
  · cases h
  · rename_i store value hnative
    have hgrows := henv.returned _ _ _ _ _ _ _ _ hnative
    cases h
    have hset := Steady.setResval ({ w with background := w.background.erase args } : World)
      args.task value
    refine hdone _ (hset.trans (Steady.withStore _ hgrows)) rfl ?_
    intro s
    exact World.setResval_current _ _ _ _
  · rename_i store err hnative
    have hgrows := henv.raised _ _ _ _ _ _ _ _ hnative
    cases h
    have hset := Steady.setResval ({ w with background := w.background.erase args } : World)
      args.task (.obj err)
    refine hdone _ ((hset.trans (Steady.withStore _ hgrows)).trans
      (Steady.modifyContext _ args.context _)) rfl ?_
    intro s
    exact World.setResval_current _ _ _ _

theorem stop_running {w₁ : World} (h : w₁.stop env t = some w') : w'.running = none :=
  (stop_touches h).2

/-- Every step keeps the invariant. -/
theorem schedulerSound_step (henv : KeepsHeap env) {e : Event} (hw : SchedulerSound w)
    (h : processStep env w e = some w') : SchedulerSound w' ∧ WakesDependents w w' := by
  cases e with
  | start t =>
    simp only [processStep] at h
    split at h
    · rename_i hready
      exact schedulerSound_start hw hready.1 hready.2 h
    · cases h
  | finish args =>
    simp only [processStep] at h
    split at h
    · rename_i hargs
      exact schedulerSound_finish henv hw hargs h
    · cases h
  | execute =>
    cases hrunning : w.running with
    | none => simp [processStep, hrunning] at h
    | some tc =>
      obtain ⟨t, c⟩ := tc
      have hscheduled := hw.scheduled
      rw [hrunning] at hscheduled
      have hcurrent := hw.current t c hrunning
      simp only [processStep, hrunning] at h
      split at h
      · cases h
      · rename_i w₁ d hiterate
        have hcontinues : Continues w t w₁ := iterate_scheduled henv hscheduled hcurrent hiterate
        cases h
        exact ⟨SchedulerSound.resume hcontinues.scheduled (Steady.refl w₁) hcontinues.current,
          .of_completed hcontinues.completed⟩
      · rename_i w₁ hiterate
        have hstops : Stops w t w₁ := iterate_scheduled henv hscheduled hcurrent hiterate
        obtain ⟨hdone, hwakes⟩ := stop_scheduled hscheduled hstops h
        refine ⟨⟨?_, ?_⟩, hwakes⟩
        · rw [stop_running h]
          exact hdone
        · intro s d hd
          rw [stop_running h] at hd
          cases hd

/-! ## Runs -/

/-- `_process_is_done` -/
def World.processIsDone (w : World) : Bool := w.waiting.isEmpty && w.queued.isEmpty

/-- The tasks at the head of the loop of `process_run`. A task of a background call is not one
of `process_create_task`. -/
structure SchedulerInvariant (w : World) : Prop where
  queue : w.queued.Nodup
  place : ∀ t : Nat, t < w.nextTask → w.dead t = false → t ∉ w.backgroundTasks →
    t ∈ w.queued ∧ t ∉ w.waiting ∧ t ∉ w.completed ∨
    t ∉ w.queued ∧ t ∈ w.waiting ∧ t ∉ w.completed ∨
    t ∉ w.queued ∧ t ∉ w.waiting ∧ t ∈ w.completed
  awaited : ∀ p ∈ w.waiting, ∃! t : TaskId, p ∈ (w.tasks t).dependentTasks ∧ t ∉ w.completed
  done : w.processIsDone = true → ∀ t : Nat, t < w.nextTask → t ∉ w.backgroundTasks →
    t ∈ w.completed ∨ w.dead t = true

theorem Scheduled.invariant (h : Scheduled w w.backgroundTasks) : SchedulerInvariant w := by
  have hplaces : ∀ t : Nat, t < w.nextTask → w.dead t = false → t ∉ w.backgroundTasks →
      w.queued.count t + w.waiting.count t + w.completed.count t = 1 := by
    intro t hlt hdead hbackground
    have hone := h.places t
    rw [if_pos hlt] at hone
    unfold World.places at hone
    rw [hdead, Bool.toNat_false, List.count_eq_zero_of_not_mem hbackground] at hone
    omega
  have hplace : ∀ t : Nat, t < w.nextTask → w.dead t = false → t ∉ w.backgroundTasks →
      t ∈ w.queued ∧ t ∉ w.waiting ∧ t ∉ w.completed ∨
      t ∉ w.queued ∧ t ∈ w.waiting ∧ t ∉ w.completed ∨
      t ∉ w.queued ∧ t ∉ w.waiting ∧ t ∈ w.completed := by
    intro t hlt hdead hbackground
    have hone := hplaces t hlt hdead hbackground
    simp only [← List.count_pos_iff]
    omega
  constructor
  · rw [List.nodup_iff_count_le_one]
    intro t
    have hle := h.places_le t
    unfold World.places at hle
    omega
  · exact hplace
  · intro p hp
    obtain ⟨t, -, hmem, ht⟩ := h.awaited p hp
    refine ⟨t, ⟨hmem, ht⟩, ?_⟩
    rintro t' ⟨hmem', ht'⟩
    rcases h.depends t p hmem ht with hdead | ⟨-, hunique⟩
    · have hstate := h.waiting p hp
      simp [World.dead, hstate] at hdead
    · exact hunique t' hmem' ht'
  · intro hdone t hlt hbackground
    simp only [World.processIsDone, Bool.and_eq_true, List.isEmpty_iff] at hdone
    cases hdead : w.dead t with
    | true => exact .inr rfl
    | false =>
      left
      rcases hplace t hlt hdead hbackground with ⟨hin, -⟩ | ⟨-, hin, -⟩ | ⟨-, -, hin⟩
      · rw [hdone.2] at hin
        cases hin
      · rw [hdone.1] at hin
        cases hin
      · exact hin

theorem schedulerSound_boot (store : Store) (m : ModuleId) (hstore : ∀ t, ¬ store.HasFuture t) :
    SchedulerSound (World.boot store m) := by
  refine ⟨?_, ?_⟩
  · constructor
    · intro t
      change List.count t [0] + 0 + 0 + 0 + (false).toNat = if t < 1 then 1 else 0
      rw [List.count_singleton]
      by_cases ht : t = 0
      · simp [ht]
      · have ht' : ¬ 0 = t := fun heq => ht heq.symm
        simp [ht, ht']
    · intro t ht
      cases ht
    · intro t ht
      cases ht
    · intro t ht
      cases ht
    · intro t
      exact List.nodup_nil
    · intro t p hp
      cases hp
    · intro p hp
      cases hp
    · intro t ht
      exact absurd (((Store.Grows.refl store).heapNew .Object).futures t ht) (hstore t)
    · intro t ht
      have ht0 : t = 0 := by
        rcases ht with ht | ht
        · exact List.mem_singleton.mp ht
        · cases ht
      subst ht0
      rfl
  · intro t c h
    cases h

/-- In every state that a process reaches, the scheduler has each task in one place, and what
waits for a task is woken when it ends. -/
theorem scheduler_invariant (env : Env) (henv : KeepsHeap env) (store : Store)
    (hstore : ∀ t, ¬ store.HasFuture t) (m : ModuleId) (w : World)
    (hrun : Runs (processStep env) (World.boot store m) w) :
    (w.running = none → SchedulerInvariant w) ∧
      ∀ e w', processStep env w e = some w' → WakesDependents w w' := by
  have hw : SchedulerSound w :=
    hrun.invariant (fun _ _ _ hs _ h => (schedulerSound_step henv hs h).1)
      (schedulerSound_boot store m hstore)
  constructor
  · intro hidle
    apply Scheduled.invariant
    have hscheduled := hw.scheduled
    rw [hidle] at hscheduled
    exact hscheduled
  · intro e w' h
    exact (schedulerSound_step henv hw h).2

theorem keepsHeap_noNatives : KeepsHeap noNatives := by
  constructor
  · intro f w t c self args store value h
    cases h
  · intro f w t c self args store err h
    cases h
  · intro store id store' m h
    cases h

/-- A module has called its function: the module waits, the function is queued. -/
theorem scheduler_invariant_closureStore : ∃ w, runSteps (processStep noNatives)
    (World.boot closureStore 0)
      [.start 0, .execute, .execute, .execute, .execute, .execute, .execute] = some w ∧
    w.waiting = [0] ∧ w.queued = [1] ∧ SchedulerInvariant w ∧
      ∀ e w', processStep noNatives w e = some w' → WakesDependents w w' := by
  obtain ⟨w, hw, hrunning, hwaiting, hqueued⟩ : ∃ w, runSteps (processStep noNatives)
      (World.boot closureStore 0)
        [.start 0, .execute, .execute, .execute, .execute, .execute, .execute] = some w ∧
      w.running = none ∧ w.waiting = [0] ∧ w.queued = [1] := ⟨_, rfl, rfl, rfl, rfl⟩
  have hstore : ∀ t, ¬ closureStore.HasFuture t := by
    rintro t ⟨o, future, hinternal, -⟩
    simp only [Store.internal, closureStore] at hinternal
    split at hinternal <;> cases hinternal
  obtain ⟨hinvariant, hwakes⟩ := scheduler_invariant noNatives keepsHeap_noNatives closureStore
    hstore 0 w (runs_of_runSteps hw)
  exact ⟨w, hw, hwaiting, hqueued, hinvariant hrunning, hwakes⟩

end JeffVm
