import JeffVm.Awaited
import JeffVm.Lib.WaitFor

/-!
# Deadlocks

A task that waits is a dependent of one task that has not ended. The head of the loop of
`process_run` sleeps when nothing is queued; it sleeps for ever exactly when the tasks wait for
each other in a cycle.
-/

set_option autoImplicit false

namespace JeffVm

open Relation

/-! ## Waiting -/

namespace World

/-- A task waits for one that has not ended. -/
def WaitsFor (w : World) (p t : TaskId) : Prop := w.Awaits p t ∧ t ∉ w.completed

/-- The loop of `process_run` has nothing to take, and no background call is under way. -/
def Idle (w : World) : Prop := w.running = none ∧ w.queued = [] ∧ w.background = []

/-- The task whose future the next instruction of a task waits for. -/
def blocksOn (env : Env) (w : World) (t : TaskId) (c : ContextId) : Option TaskId :=
  match w.fetch t c with
  | some (true, w) =>
    match (w.contextIns c).bind (execute env w t c) with
    | some (.wait _ task) => some task
    | _ => none
  | _ => none

end World

/-- A task waits only for futures of tasks that are younger than itself. -/
def AwaitsYounger (env : Env) (w : World) (e : Event) : Prop :=
  e = .execute → ∀ tc ∈ w.running, ∀ task ∈ w.blocksOn env tc.1 tc.2, tc.1 < task

instance (env : Env) (w : World) (e : Event) : Decidable (AwaitsYounger env w e) :=
  inferInstanceAs (Decidable (e = .execute → ∀ tc ∈ w.running,
    ∀ task ∈ w.blocksOn env tc.1 tc.2, tc.1 < task))

/-! ## The graph of tasks -/

/-- What a step of task `t` does to the graph of tasks: the new tasks are its children, and it is
the one task that may start to wait, for a new task or for an awaited one. -/
structure Registers (t : TaskId) (awaited : TaskId → Prop) (w w' : World) : Prop where
  nextTask : w.nextTask ≤ w'.nextTask
  parent : ∀ s : Nat, s < w.nextTask → (w'.tasks s).parentTask = (w.tasks s).parentTask
  child : ∀ s : Nat, w.nextTask ≤ s → s < w'.nextTask → (w'.tasks s).parentTask = some t
  state : ∀ s : Nat, s < w.nextTask → s ≠ t → (w'.tasks s).state = (w.tasks s).state
  futures : ∀ s : Nat, w'.store.HasFuture s → w.store.HasFuture s ∨ w.nextTask ≤ s
  depends : ∀ s p, p ∈ (w'.tasks s).dependentTasks →
    p ∈ (w.tasks s).dependentTasks ∨ p = t ∧ (w.nextTask ≤ s ∨ awaited s)
  kept : ∀ s : Nat, s < w.nextTask → ∀ p ∈ (w.tasks s).dependentTasks,
    p ∈ (w'.tasks s).dependentTasks
  completed : ∀ s ∈ w'.completed, s ∈ w.completed ∨ s = t

namespace Registers

variable {t : TaskId} {awaited : TaskId → Prop} {w w₁ w₂ : World}

theorem refl (w : World) : Registers t awaited w w where
  nextTask := Nat.le_refl _
  parent _ _ := rfl
  child _ hle hlt := absurd hlt (Nat.not_lt.mpr hle)
  state _ _ _ := rfl
  futures _ h := .inl h
  depends _ _ h := .inl h
  kept _ _ _ h := h
  completed _ h := .inl h

theorem mono {awaited' : TaskId → Prop} (h : Registers t awaited w w₁)
    (hle : ∀ s, awaited s → awaited' s) : Registers t awaited' w w₁ :=
  { h with
    depends := by
      intro s p hp
      rcases h.depends s p hp with hold | ⟨rfl, hnew | hs⟩
      · exact .inl hold
      · exact .inr ⟨rfl, .inl hnew⟩
      · exact .inr ⟨rfl, .inr (hle s hs)⟩ }

theorem trans (h : Registers t awaited w w₁) (h' : Registers t awaited w₁ w₂) :
    Registers t awaited w w₂ where
  nextTask := h.nextTask.trans h'.nextTask
  parent s hs := by rw [h'.parent s (hs.trans_le h.nextTask), h.parent s hs]
  child s hle hlt := by
    by_cases hs : s < w₁.nextTask
    · rw [h'.parent s hs, h.child s hle hs]
    · exact h'.child s (Nat.not_lt.mp hs) hlt
  state s hs hne := by rw [h'.state s (hs.trans_le h.nextTask) hne, h.state s hs hne]
  futures s hs := by
    rcases h'.futures s hs with hs | hle
    · exact h.futures s hs
    · exact .inr (h.nextTask.trans hle)
  depends s p hp := by
    rcases h'.depends s p hp with hp | ⟨rfl, hle | hs⟩
    · exact h.depends s p hp
    · exact .inr ⟨rfl, .inl (h.nextTask.trans hle)⟩
    · exact .inr ⟨rfl, .inr hs⟩
  kept s hs p hp := h'.kept s (hs.trans_le h.nextTask) p (h.kept s hs p hp)
  completed s hs := by
    rcases h'.completed s hs with hs | rfl
    · exact h.completed s hs
    · exact .inr rfl

/-- What the scheduler does not see adds no tasks and no edges. -/
theorem of_steady (hs : Steady w w₁)
    (hfutures : ∀ s : Nat, w₁.store.HasFuture s → w.store.HasFuture s) :
    Registers t awaited w w₁ where
  nextTask := Nat.le_of_eq hs.nextTask.symm
  parent s _ := hs.parentTask s
  child s hle hlt := by
    rw [hs.nextTask] at hlt
    exact absurd hlt (Nat.not_lt.mpr hle)
  state s _ _ := hs.state s
  futures s h := .inl (hfutures s h)
  depends s p h := by
    rw [hs.dependentTasks] at h
    exact .inl h
  kept s _ p h := by
    rw [hs.dependentTasks]
    exact h
  completed s h := by
    rw [hs.completed] at h
    exact .inl h

theorem setFrame (w : World) {f : Frame} (h : w.store.Grows f.store) :
    Registers t awaited w (w.setFrame t f) :=
  of_steady (Steady.setFrame w t h) h.futures

theorem withContexts (w : World) (contexts : Contexts) :
    Registers t awaited w { w with contexts := contexts } :=
  of_steady (Steady.withContexts w contexts) fun _ h => h

theorem withStore (w : World) {store : Store} (h : w.store.Grows store) :
    Registers t awaited w { w with store := store } :=
  of_steady (Steady.withStore w h) h.futures

theorem incIns (w : World) (c : ContextId) : Registers t awaited w (w.incIns c) :=
  withContexts w _

theorem withRunning (w : World) (running : Option (TaskId × ContextId)) :
    Registers t awaited w { w with running := running } :=
  of_steady (Steady.withRunning w running) fun _ h => h

theorem withFlag (w : World) (p : TaskId) (flag : Bool) :
    Registers t awaited w (w.modifyTask p fun x => { x with childTaskHasError := flag }) :=
  of_steady (Steady.modifyTask w p _ (fun _ => rfl) (fun _ => rfl) (fun _ => rfl)
    (.inr fun _ h => h)) fun _ h => h

theorem setResval (w : World) (e : Entity) : Registers t awaited w (w.setResval t e) :=
  of_steady (Steady.setResval w t e) fun _ h => h

/-- Lists that do not belong to the graph. -/
theorem withLists (w : World) (queued waiting : List TaskId)
    (background : List BackgroundThreadArgs) :
    Registers t awaited w
      { w with queued := queued, waiting := waiting, background := background } where
  nextTask := Nat.le_refl _
  parent _ _ := rfl
  child _ hle hlt := absurd hlt (Nat.not_lt.mpr hle)
  state _ _ _ := rfl
  futures _ h := .inl h
  depends _ _ h := .inl h
  kept _ _ _ h := h
  completed _ h := .inl h

theorem setState (w : World) (state : TaskState) :
    Registers t awaited w (w.setState t state) where
  nextTask := Nat.le_refl _
  parent s _ := World.setState_parentTask w t s state
  child s hle hlt := absurd hlt (Nat.not_lt.mpr hle)
  state s _ hne := by rw [World.setState_state, if_neg hne]
  futures _ h := .inl h
  depends s p h := by
    rw [World.setState_dependentTasks] at h
    exact .inl h
  kept s _ p h := by
    rw [World.setState_dependentTasks]
    exact h
  completed _ h := .inl h

theorem addDependent (h : Registers t awaited w w₁) {s : Nat}
    (hs : w.nextTask ≤ s ∨ awaited s) : Registers t awaited w (w₁.addDependent s t) :=
  { h with
    parent := by
      intro r hr
      rw [World.addDependent_parentTask, h.parent r hr]
    child := by
      intro r hle hlt
      rw [World.addDependent_parentTask, h.child r hle hlt]
    state := by
      intro r hr hne
      rw [World.addDependent_state, h.state r hr hne]
    depends := by
      intro r p hp
      rw [World.addDependent_dependentTasks] at hp
      split at hp
      · rename_i heq
        rcases mem_setInsert.mp hp with hp | rfl
        · exact h.depends r p hp
        · exact .inr ⟨rfl, heq ▸ hs⟩
      · exact h.depends r p hp
    kept := by
      intro r hr p hp
      rw [World.addDependent_dependentTasks]
      split
      · exact mem_setInsert.mpr (.inl (h.kept r hr p hp))
      · exact h.kept r hr p hp }

theorem creates (h : Scheduled.Creates w w₁ t) : Registers t awaited w w₁ where
  nextTask := by
    rw [h.nextTask]
    exact Nat.le_succ _
  parent s hs := by rw [h.other s (Nat.ne_of_lt hs)]
  child s hle hlt := by
    rw [h.nextTask] at hlt
    rw [Nat.le_antisymm (Nat.le_of_lt_succ hlt) hle]
    exact h.parentTask
  state s hs _ := by rw [h.other s (Nat.ne_of_lt hs)]
  futures s hs := .inl (h.futures s hs)
  depends s p hp := by
    by_cases hs : s = w.nextTask
    · rw [hs, h.dependentTasks] at hp
      cases hp
    · rw [h.other s hs] at hp
      exact .inl hp
  kept s hs p hp := by
    rw [h.other s (Nat.ne_of_lt hs)]
    exact hp
  completed s hs := by
    rw [h.completed] at hs
    exact .inl hs

/-- The future of a new task. -/
theorem futureCreate (h : Registers t awaited w w₁) {task : Nat} (hnew : w.nextTask ≤ task) :
    Registers t awaited w (w₁.futureCreate task).2 :=
  { h with
    futures := by
      rintro s ⟨o, future, hinternal, htask⟩
      have hstore : (w₁.futureCreate task).2.store = (w₁.store.heapNewWith .Future
        (.future ⟨some task, false, false⟩)).2 := rfl
      rw [hstore] at hinternal
      by_cases ho : o = w₁.store.nextObject
      · subst ho
        rw [Store.internal_heapNewWith] at hinternal
        cases hinternal
        cases htask
        exact .inr hnew
      · apply h.futures s
        refine ⟨o, future, ?_, htask⟩
        rw [← hinternal]
        simp only [Store.internal]
        rw [Store.objects_heapNewWith_ne _ _ _ ho] }

theorem createContext {s : TaskId} {self : ObjectId} {m : ModuleId} {insPos : Int}
    {func : Option FunctionId} {previous : Option ContextId} {c : ContextId}
    (h : w.createContext s self m insPos func previous = some (c, w₁)) :
    Registers t awaited w w₁ := by
  apply of_steady (Steady.createContext h).1
  unfold World.createContext at h
  simp only at h
  split at h
  · cases h
  · cases h
    exact ((Store.Grows.refl w.store).heapNew .Object).futures

theorem taskBackContext {s : TaskId} {p : ContextId}
    (h : w.taskBackContext s = some (some p, w₁)) : Registers t awaited w w₁ := by
  apply of_steady (Steady.taskBackContext h).1
  unfold World.taskBackContext at h
  split at h
  · cases h
  · simp only at h
    split at h
    · cases h
    · cases h
      exact fun _ hs => hs

/-- Dependents stay where they are when they are woken. -/
theorem markTaskComplete (w : World) : Registers t awaited w (w.markTaskComplete t) := by
  have hwakes := World.wakes_markTaskComplete w t
  generalize w.markTaskComplete t = w₁ at hwakes
  have htasks : ∀ {α : Type} (g : Task → α), (∀ x e, g { x with resval := e } = g x) →
      ∀ s, g (w₁.tasks s) = g (w.tasks s) := by
    intro α g hg s
    rw [hwakes.tasks]
    split
    · rw [hg]
    · rfl
  constructor
  · exact Nat.le_of_eq hwakes.nextTask.symm
  · exact fun s _ => htasks Task.parentTask (fun _ _ => rfl) s
  · intro s hle hlt
    rw [hwakes.nextTask] at hlt
    exact absurd hlt (Nat.not_lt.mpr hle)
  · exact fun s _ _ => htasks Task.state (fun _ _ => rfl) s
  · intro s hs
    rw [hwakes.store] at hs
    exact .inl hs
  · intro s p hp
    rw [htasks Task.dependentTasks (fun _ _ => rfl)] at hp
    exact .inl hp
  · intro s _ p hp
    rw [htasks Task.dependentTasks (fun _ _ => rfl)]
    exact hp
  · intro s hs
    rw [hwakes.completed] at hs
    exact mem_setInsert.mp hs

end Registers

/-! ## Steps -/

section Steps

variable {env : Env} {w w' : World} {t : TaskId} {c : ContextId} {awaited : TaskId → Prop}

theorem fetch_store {b : Bool} (hcurrent : (w.tasks t).current.isSome)
    (hfetch : w.fetch t c = some (b, w')) : w'.store = w.store := by
  unfold World.fetch at hfetch
  split at hfetch
  · by_cases hc : (w.contexts.context c).catchIns < 0
    · obtain ⟨cur, hcur⟩ := Option.isSome_iff_exists.mp hcurrent
      rcases World.attempCatchError_cases hcur hc with
        ⟨pre, handler, post, -, -, -, heq⟩ | ⟨pre, -, -, heq⟩
      · rw [heq] at hfetch
        cases hfetch
        rfl
      · rw [heq] at hfetch
        cases hfetch
        rfl
    · rw [World.attempCatchError_here (by omega)] at hfetch
      cases hfetch
      rfl
  · cases hfetch
    rfl

theorem fetch_registers {b : Bool} (h : Scheduled w (t :: w.backgroundTasks))
    (hcurrent : (w.tasks t).current.isSome) (hfetch : w.fetch t c = some (b, w')) :
    Registers t awaited w w' := by
  have hfutures : ∀ s : Nat, w'.store.HasFuture s → w.store.HasFuture s := by
    intro s hs
    rw [fetch_store hcurrent hfetch] at hs
    exact hs
  have hsteady := fetch_steady h hcurrent hfetch
  cases b with
  | true => exact .of_steady hsteady.1 hfutures
  | false => exact (Registers.setState w .ERROR).trans (.of_steady hsteady hfutures)

/-- A new task, and the running one is its dependent. -/
theorem Registers.spawn {child : TaskId} {w₁ : World} (h : Registers t awaited w w₁)
    (hnext : w₁.nextTask = w.nextTask) (hs : Spawns w₁ w' t child) :
    Registers t awaited w w' ∧ w.nextTask ≤ child := by
  refine ⟨h.trans (.creates hs.toCreates), ?_⟩
  rw [hs.child, hnext]

theorem apply_registers {effect : Effect} {out : World.Outcome} (hsound : effect.Sound w w.store)
    (hawaited : ∀ f task, effect = .wait f task → awaited task)
    (happly : w.apply t c effect = some (w', out)) : Registers t awaited w w' := by
  have hframe : Registers t awaited w (w.setFrame t effect.frame) :=
    Registers.setFrame w hsound.grows
  cases effect with
  | next f =>
    cases happly
    exact hframe.trans (Registers.incIns _ c)
  | raise f err =>
    have hraised : w.store.Grows (f.withResval (.obj err)).store := hsound
    cases happly
    exact ((Registers.setFrame w hraised).trans (Registers.withContexts _ _)).trans
      (Registers.incIns _ c)
  | jump f n =>
    cases happly
    exact hframe.trans (Registers.withContexts _ _)
  | call f func self parentContext =>
    simp only [World.apply] at happly
    split at happly
    · cases happly
    · rename_i child w₁ htask
      obtain ⟨hspawned, hchild⟩ := hframe.spawn rfl (World.executeAsNewTask_spawns htask)
      split at happly
      · cases happly
        exact ((hspawned.futureCreate hchild).trans (Registers.setResval _ _)).trans
          (Registers.incIns _ c)
      · cases happly
        exact ((hspawned.addDependent (.inl hchild)).trans (Registers.setState _ _)).trans
          (Registers.incIns _ c)
  | background f func self =>
    simp only [World.apply] at happly
    cases happly
    have hcreated := hframe.trans (.creates (World.createTask_creates (w.setFrame t f) t f.resval))
    have hfuture := hcreated.futureCreate (Nat.le_refl w.nextTask)
    exact ((hfuture.trans (Registers.withLists _ _ _ _)).trans (Registers.setResval _ _)).trans
      (Registers.incIns _ c)
  | load f m =>
    simp only [World.apply] at happly
    split at happly
    · cases happly
    · rename_i child w₁ htask
      obtain ⟨hspawned, hchild⟩ := hframe.spawn rfl (World.executeAsNewTask_spawns htask)
      cases happly
      exact ((hspawned.addDependent (.inl hchild)).trans (Registers.setState _ _)).trans
        (Registers.incIns _ c)
  | wait f task =>
    cases happly
    exact ((hframe.addDependent (.inr (hawaited f task rfl))).trans
      (Registers.setState _ _)).trans (Registers.incIns _ c)
  | newBlock f =>
    simp only [World.apply] at happly
    split at happly
    · cases happly
    · rename_i new w₁ hcreate
      cases happly
      exact (hframe.trans (Registers.createContext hcreate)).trans (Registers.incIns _ _)
  | backBlock f =>
    simp only [World.apply] at happly
    split at happly
    · rename_i p w₁ hback
      cases happly
      exact (hframe.trans (Registers.taskBackContext hback)).trans (Registers.incIns _ p)
    · cases happly
  | setCatch f n =>
    cases happly
    exact (hframe.trans (Registers.withContexts _ _)).trans (Registers.incIns _ c)
  | complete f =>
    cases happly
    exact (hframe.trans (Registers.setState _ _)).trans (Registers.incIns _ c)

theorem iterate_registers {out : World.Outcome} (henv : KeepsHeap env)
    (h : Scheduled w (t :: w.backgroundTasks)) (hcurrent : (w.tasks t).current.isSome)
    (hiterate : w.iterate env t c = some (w', out)) :
    Registers t (w.blocksOn env t c = some ·) w w' := by
  unfold World.iterate at hiterate
  split at hiterate
  · cases hiterate
  · rename_i w₁ hfetch
    cases hiterate
    exact fetch_registers h hcurrent hfetch
  · rename_i w₁ hfetch
    have hfetched : Registers t (w.blocksOn env t c = some ·) w w₁ := fetch_registers h hcurrent hfetch
    split at hiterate
    · cases hiterate
    · rename_i ins hins
      split at hiterate
      · cases hiterate
      · rename_i effect heffect
        apply hfetched.trans
        apply apply_registers (execute_keeps henv _ effect heffect) _ hiterate
        intro f task hwait
        rw [hwait] at heffect
        simp [World.blocksOn, hfetch, hins, heffect]

theorem stop_registers (hstop : w.stop env t = some w') : Registers t awaited w w' := by
  have hnone : Registers t awaited w { w with running := none } := Registers.withRunning w none
  unfold World.stop at hstop
  simp only at hstop
  split at hstop
  · cases hstop
    exact hnone.trans (Registers.withLists _ _ _ _)
  · split at hstop
    · rename_i p hp
      cases hstop
      exact (hnone.trans (Registers.withFlag _ p true)).trans (Registers.markTaskComplete _)
    · split at hstop
      · cases hstop
      · obtain ⟨⟨child, w₂⟩, htask, heq⟩ := Option.map_eq_some_iff.mp hstop
        cases heq
        obtain ⟨hspawned, hchild⟩ := hnone.spawn rfl (World.executeAsNewTask_spawns htask)
        exact hspawned.addDependent (.inl hchild)
  · cases hstop
    exact hnone.trans (Registers.markTaskComplete _)
  · cases hstop

theorem start_registers (h : w.start t = some w') : Registers t awaited w w' := by
  have hstarted : Registers t awaited w
      { w.setState t .RUNNING with queued := w.queued.erase t } :=
    (Registers.setState w .RUNNING).trans (Registers.withLists _ _ _ _)
  unfold World.start at h
  simp only at h
  split at h
  · cases h
    exact (hstarted.trans (Registers.markTaskComplete _)).trans (Registers.withRunning _ _)
  · split at h
    · split at h
      · split at h
        · cases h
          exact ((hstarted.trans (Registers.withContexts _ _)).trans
            (Registers.withFlag _ t false)).trans (Registers.withRunning _ _)
        · cases h
      · cases h
    · cases h
      exact hstarted.trans (Registers.withRunning _ _)

theorem finish_registers {args : BackgroundThreadArgs} (henv : KeepsHeap env)
    (h : w.finish env args = some w') : Registers args.task awaited w w' := by
  have hended : ∀ (w₁ : World), Registers args.task awaited w w₁ → Registers args.task awaited w
      ((w₁.setState args.task .COMPLETE).markTaskComplete args.task) :=
    fun w₁ h₁ => (h₁.trans (Registers.setState _ _)).trans (Registers.markTaskComplete _)
  have hlisted : Registers args.task awaited w
      { w with background := w.background.erase args } := Registers.withLists w _ _ _
  unfold World.finish at h
  simp only at h
  split at h
  · cases h
  · rename_i store value hnative
    have hgrows := henv.returned _ _ _ _ _ _ _ _ hnative
    cases h
    apply hended
    exact (hlisted.trans (Registers.setResval _ value)).trans (Registers.withStore _ hgrows)
  · rename_i store err hnative
    have hgrows := henv.raised _ _ _ _ _ _ _ _ hnative
    cases h
    apply hended
    exact ((hlisted.trans (Registers.setResval _ (.obj err))).trans
      (Registers.withStore _ hgrows)).trans (Registers.withContexts _ _)

end Steps

/-- The tasks that the running task is made to wait for by its next instruction. -/
def World.Awaiting (env : Env) (w : World) (e : Event) (t task : TaskId) : Prop :=
  e = .execute ∧ ∃ c, w.running = some (t, c) ∧ w.blocksOn env t c = some task

/-- Each step is one of a task that does not wait. -/
theorem step_registers {env : Env} {w w' : World} {e : Event} (henv : KeepsHeap env)
    (hw : SchedulerSound w) (h : processStep env w e = some w') :
    ∃ t, t ∉ w.waiting ∧ t ∉ w.completed ∧ t < w.nextTask ∧
      Registers t (w.Awaiting env e t) w w' := by
  have hactive : ∀ t active, Scheduled w (t :: active) →
      t ∉ w.waiting ∧ t ∉ w.completed ∧ t < w.nextTask := by
    intro t active hscheduled
    obtain ⟨-, hwaiting, hcompleted, -⟩ := hscheduled.of_active List.mem_cons_self
    refine ⟨hwaiting, hcompleted, hscheduled.lt_of_places ?_⟩
    have hpos := List.count_pos_iff.mpr (List.mem_cons_self : t ∈ t :: active)
    unfold World.places
    omega
  cases e with
  | start t =>
    simp only [processStep] at h
    split at h
    · rename_i hready
      obtain ⟨hidle, hqueued⟩ := hready
      obtain ⟨hwaiting, hcompleted, -, -⟩ := hw.scheduled.of_queued hqueued
      refine ⟨t, hwaiting, hcompleted, hw.scheduled.lt_of_places ?_, start_registers h⟩
      have hpos := List.count_pos_iff.mpr hqueued
      unfold World.places
      omega
    · cases h
  | finish args =>
    simp only [processStep] at h
    split at h
    · rename_i hargs
      have hmem : args.task ∈ (w.running.map Prod.fst).toList ++ w.backgroundTasks :=
        List.mem_append_right _ (List.mem_map_of_mem hargs)
      obtain ⟨hwaiting, hcompleted, hlt⟩ :=
        hactive args.task _ (hw.scheduled.perm (List.perm_cons_erase hmem))
      exact ⟨args.task, hwaiting, hcompleted, hlt, finish_registers henv h⟩
    · cases h
  | execute =>
    cases hrunning : w.running with
    | none => simp [processStep, hrunning] at h
    | some tc =>
      obtain ⟨t, c⟩ := tc
      have hscheduled := hw.scheduled
      rw [hrunning] at hscheduled
      have hcurrent := hw.current t c hrunning
      obtain ⟨hwaiting, hcompleted, hlt⟩ := hactive t _ hscheduled
      refine ⟨t, hwaiting, hcompleted, hlt, ?_⟩
      have hblocks : ∀ task, w.blocksOn env t c = some task → w.Awaiting env .execute t task :=
        fun task htask => ⟨rfl, c, hrunning, htask⟩
      simp only [processStep, hrunning] at h
      split at h
      · cases h
      · rename_i w₁ d hiterate
        cases h
        exact ((iterate_registers henv hscheduled hcurrent hiterate).mono hblocks).trans
          (Registers.withRunning _ _)
      · rename_i w₁ hiterate
        exact ((iterate_registers henv hscheduled hcurrent hiterate).mono hblocks).trans
          (stop_registers h)

/-- Only the task of the main module has no parent, and no future is one of it. -/
structure Rooted (w : World) : Prop where
  parent : ∀ s : Nat, 0 < s → s < w.nextTask → (w.tasks s).parentTask.isSome
  dependents : ∀ p, p ∉ (w.tasks 0).dependentTasks
  futures : ¬ w.store.HasFuture 0
  nextTask : 0 < w.nextTask

section Invariants

variable {env : Env} {w w' : World} {e : Event}

theorem blocksOn_hasFuture {t c task : Nat} (henv : KeepsHeap env)
    (hcurrent : (w.tasks t).current.isSome) (h : w.blocksOn env t c = some task) :
    w.store.HasFuture task := by
  unfold World.blocksOn at h
  split at h
  · rename_i w₁ hfetch
    split at h
    · rename_i f task' hwait
      cases h
      obtain ⟨ins, -, heffect⟩ := Option.bind_eq_some_iff.mp hwait
      obtain ⟨-, hfuture, -⟩ := execute_keeps (w := w₁) henv ins _ heffect
      rw [fetch_store hcurrent hfetch] at hfuture
      exact hfuture
    · cases h
  · cases h

theorem rooted_boot (store : Store) (m : ModuleId) (hstore : ∀ t, ¬ store.HasFuture t) :
    Rooted (World.boot store m) where
  parent s hpos hlt := absurd hlt (Nat.not_lt.mpr hpos)
  dependents p hp := by cases hp
  futures h := hstore 0 (((Store.Grows.refl store).heapNew .Object).futures 0 h)
  nextTask := Nat.one_pos

theorem rooted_step (henv : KeepsHeap env) (hw : SchedulerSound w) (hrooted : Rooted w)
    (h : processStep env w e = some w') : Rooted w' := by
  obtain ⟨t, -, -, hlt, hregisters⟩ := step_registers henv hw h
  have hawaited : ¬ w.Awaiting env e t 0 := by
    rintro ⟨-, c, hrunning, hblocks⟩
    exact hrooted.futures (blocksOn_hasFuture henv (hw.current t c hrunning) hblocks)
  constructor
  · intro s hpos hs
    by_cases hold : s < w.nextTask
    · rw [hregisters.parent s hold]
      exact hrooted.parent s hpos hold
    · rw [hregisters.child s (Nat.not_lt.mp hold) hs]
      rfl
  · intro p hp
    rcases hregisters.depends 0 p hp with hold | ⟨-, hnew | hfuture⟩
    · exact hrooted.dependents p hold
    · exact absurd hrooted.nextTask (Nat.not_lt.mpr hnew)
    · exact hawaited hfuture
  · intro hfuture
    rcases hregisters.futures 0 hfuture with hold | hnew
    · exact hrooted.futures hold
    · exact absurd hrooted.nextTask (Nat.not_lt.mpr hnew)
  · exact hrooted.nextTask.trans_le hregisters.nextTask

/-- Who waits for a task that waits itself goes on waiting for it. -/
theorem waitsFor_step {p t : TaskId} (henv : KeepsHeap env) (hw : SchedulerSound w)
    (h : processStep env w e = some w') (hp : w.WaitsFor p t) (ht : t ∈ w.waiting) :
    w'.WaitsFor p t := by
  obtain ⟨s, hasleep, -, -, hregisters⟩ := step_registers henv hw h
  have hw' := (schedulerSound_step henv hw h).1
  obtain ⟨hawaits, hopen⟩ := hp
  obtain ⟨hlt, -⟩ := hw.scheduled.awaits_unique hawaits hopen
  have hwaiting := hw.scheduled.waiting p hawaits.1
  have hmem := hregisters.kept t hlt p hawaits.2
  have hopen' : t ∉ w'.completed := by
    intro hcompleted
    rcases hregisters.completed t hcompleted with hold | rfl
    · exact hopen hold
    · exact hasleep ht
  refine ⟨⟨?_, hmem⟩, hopen'⟩
  rcases hw'.scheduled.depends t p hmem hopen' with hdead | ⟨hin, -⟩
  · have hne : p ≠ s := by
      rintro rfl
      exact hasleep hawaits.1
    have hplt : p < w.nextTask := by
      apply hw.scheduled.lt_of_places
      have hpos := List.count_pos_iff.mpr hawaits.1
      unfold World.places
      omega
    have hstate := hregisters.state p hplt hne
    rw [hwaiting] at hstate
    simp [World.dead, hstate] at hdead
  · exact hin

/-- When nothing can run, a task that waits does so for another one that waits. -/
theorem idle_next (hw : SchedulerSound w) (hrooted : Rooted w) (hidle : w.Idle) {p : TaskId}
    (hp : p ∈ w.waiting) : ∃ t ∈ w.waiting, w.WaitsFor p t := by
  obtain ⟨hrunning, hqueued, hbackground⟩ := hidle
  obtain ⟨t, hlt, hmem, hopen⟩ := hw.scheduled.awaited p hp
  refine ⟨t, ?_, ⟨hp, hmem⟩, hopen⟩
  have hplace := hw.scheduled.places t
  rw [if_pos hlt] at hplace
  unfold World.places at hplace
  rw [hrunning, hqueued, World.backgroundTasks, hbackground,
    List.count_eq_zero_of_not_mem hopen] at hplace
  have hdead : w.dead t = false := by
    rcases Nat.eq_zero_or_pos t with rfl | hpos
    · exact absurd hmem (hrooted.dependents p)
    · have hparent := hrooted.parent t hpos hlt
      rw [World.dead, Option.isNone_eq_false_iff.mpr hparent, Bool.and_false]
  rw [hdead] at hplace
  simp only [List.count_nil, Bool.toNat_false, Option.map_none, Option.toList_none, List.map_nil,
    List.append_nil] at hplace
  apply List.count_pos_iff.mp
  omega

end Invariants

/-! ## Runs -/

section Runs

variable {env : Env} {store : Store} {m : ModuleId} {w w' : World}

theorem reached_sound (henv : KeepsHeap env) (hstore : ∀ t, ¬ store.HasFuture t)
    (hrun : Runs (processStep env) (World.boot store m) w) : SchedulerSound w ∧ Rooted w := by
  apply hrun.invariant (P := fun w => SchedulerSound w ∧ Rooted w)
  · intro s l s' hs _ h
    exact ⟨(schedulerSound_step henv hs.1 h).1, rooted_step henv hs.1 hs.2 h⟩
  · exact ⟨schedulerSound_boot store m hstore, rooted_boot store m hstore⟩

/-- A module with an anonymous asynchronous function. -/
def awaitingStore (tape : List Instruction) : Store where
  objects := fun o => ⟨if o = 1 then .Function else .Module, .empty,
    if o = 1 then .functionObj 0 else .moduleObj 0⟩
  nextObject := 2
  classes := fun _ => ⟨"Module", [], .empty, 0⟩
  functions := fun _ => ⟨"$anon_1_7", 0, false, true, true, false, 1, 1⟩
  modules := fun _ => ⟨"m", tape, .empty, ⟨[("$anon_1_7", 0)], List.nodup_singleton _⟩, 0, true⟩
  builtin := 0

theorem awaitingStore_futures (tape : List Instruction) (t : TaskId) :
    ¬ (awaitingStore tape).HasFuture t := by
  rintro ⟨o, future, hinternal, -⟩
  simp only [Store.internal, awaitingStore] at hinternal
  split at hinternal <;> cases hinternal

/-- The module keeps the future of the function in `x`, and the function awaits `x`. -/
def selfAwait : Store := awaitingStore
  [⟨.JMP, .val (.int 3)⟩, ⟨.RES, .id "x"⟩, ⟨.WAIT, .noArg⟩, ⟨.RET, .noArg⟩,
    ⟨.RES, .id "$anon_1_7"⟩, ⟨.PUSH, .noArg⟩, ⟨.CLLN, .noArg⟩, ⟨.SET, .id "x"⟩,
    ⟨.EXIT, .val (.int 0)⟩]

theorem selfAwait_runs : ∃ w, Runs (processStep noNatives) (World.boot selfAwait 0) w ∧ w.Idle ∧
    w.waiting = [1] ∧ w.WaitsFor 1 1 := by
  have hrun : ∃ w, runSteps (processStep noNatives) (World.boot selfAwait 0)
      (.start 0 :: List.replicate 6 .execute ++ [.start 1, .execute, .execute]) = some w ∧
      w.running = none ∧ w.queued = [] ∧ w.background = [] ∧ w.waiting = [1] ∧
        (w.tasks 1).dependentTasks = [1] ∧ w.completed = [0] :=
    ⟨_, rfl, rfl, rfl, rfl, rfl, rfl, rfl⟩
  obtain ⟨w, hw, hrunning, hqueued, hbackground, hwaiting, hdependents, hcompleted⟩ := hrun
  refine ⟨w, runs_of_runSteps hw, ⟨hrunning, hqueued, hbackground⟩, hwaiting, ⟨?_, ?_⟩, ?_⟩
  · rw [hwaiting]
    exact List.mem_singleton_self 1
  · rw [hdependents]
    exact List.mem_singleton_self 1
  · rw [hcompleted]
    decide

theorem waits_on_cycle (hw : SchedulerSound w) (hrooted : Rooted w) (hidle : w.Idle) {p : TaskId}
    (hp : p ∈ w.waiting) : ∃ q, ReflTransGen w.WaitsFor p q ∧ TransGen w.WaitsFor q q :=
  WaitFor.exists_cycle (List.finite_toSet w.waiting) (fun _ => idle_next hw hrooted hidle) hp

theorem done_iff_acyclic (hw : SchedulerSound w) (hrooted : Rooted w) (hidle : w.Idle) :
    w.processIsDone = true ↔ ∀ p, ¬ TransGen w.WaitsFor p p := by
  simp only [World.processIsDone, hidle.2.1, List.isEmpty_nil, Bool.and_true, List.isEmpty_iff]
  constructor
  · intro hnone p hp
    obtain ⟨q, hq⟩ := WaitFor.exists_next hp
    have hmem := hq.1.1
    rw [hnone] at hmem
    cases hmem
  · intro hacyclic
    rw [List.eq_nil_iff_forall_not_mem]
    intro p hp
    obtain ⟨q, -, hq⟩ := waits_on_cycle hw hrooted hidle hp
    exact hacyclic q hq

/-- When nothing is left to run, each task that waits does so for one on a cycle, and the process
is done exactly when there is no cycle. -/
theorem deadlock_iff_cycle (henv : KeepsHeap env) (hstore : ∀ t, ¬ store.HasFuture t)
    (hrun : Runs (processStep env) (World.boot store m) w) (hidle : w.Idle) :
    (∀ p ∈ w.waiting, ∃ q, ReflTransGen w.WaitsFor p q ∧ TransGen w.WaitsFor q q) ∧
      (w.processIsDone = true ↔ ∀ p, ¬ TransGen w.WaitsFor p p) := by
  obtain ⟨hw, hrooted⟩ := reached_sound henv hstore hrun
  exact ⟨fun p hp => waits_on_cycle hw hrooted hidle hp, done_iff_acyclic hw hrooted hidle⟩

theorem deadlock_iff_cycle_selfAwait : ∃ w, Runs (processStep noNatives) (World.boot selfAwait 0) w ∧
    w.Idle ∧ w.processIsDone = false := by
  obtain ⟨w, hrun, hidle, -, hwaits⟩ := selfAwait_runs
  have hdone := (deadlock_iff_cycle keepsHeap_noNatives (awaitingStore_futures _) hrun hidle).2
  refine ⟨w, hrun, hidle, ?_⟩
  rw [Bool.eq_false_iff, ne_eq, hdone]
  exact fun hacyclic => hacyclic 1 (.single hwaits)

/-- What waits on a cycle never runs again, whatever the other tasks do. -/
theorem cycle_sleeps (henv : KeepsHeap env) (hstore : ∀ t, ¬ store.HasFuture t)
    (hrun : Runs (processStep env) (World.boot store m) w) (hrun' : Runs (processStep env) w w')
    {p : TaskId} (hp : TransGen w.WaitsFor p p) :
    TransGen w'.WaitsFor p p ∧ p ∈ w'.waiting ∧ p ∉ w'.completed ∧ w'.processIsDone = false := by
  have hreached : SchedulerSound w' ∧ TransGen w'.WaitsFor p p := by
    apply hrun'.invariant (P := fun w => SchedulerSound w ∧ TransGen w.WaitsFor p p)
    · intro s l s' hs _ h
      refine ⟨(schedulerSound_step henv hs.1 h).1, ?_⟩
      apply WaitFor.cycle_persists _ hs.2
      intro a b c hab hbc
      exact waitsFor_step henv hs.1 h hab hbc.1.1
    · exact ⟨(reached_sound henv hstore hrun).1, hp⟩
  obtain ⟨hw', hcycle⟩ := hreached
  obtain ⟨q, hq⟩ := WaitFor.exists_next hcycle
  have hwaiting := hq.1.1
  refine ⟨hcycle, hwaiting, (hw'.scheduled.of_waiting hwaiting).2.1, ?_⟩
  rw [World.processIsDone, Bool.and_eq_false_iff]
  left
  rw [List.isEmpty_eq_false_iff]
  exact List.ne_nil_of_mem hwaiting

theorem cycle_sleeps_selfAwait : ∃ w, Runs (processStep noNatives) (World.boot selfAwait 0) w ∧
    ∀ w', Runs (processStep noNatives) w w' → 1 ∈ w'.waiting := by
  obtain ⟨w, hrun, -, -, hwaits⟩ := selfAwait_runs
  refine ⟨w, hrun, ?_⟩
  intro w' hrun'
  exact (cycle_sleeps keepsHeap_noNatives (awaitingStore_futures _) hrun hrun' (.single hwaits)).2.1

theorem ascending_step {e : Event} (henv : KeepsHeap env) (hw : SchedulerSound w)
    (hyounger : AwaitsYounger env w e) (h : processStep env w e = some w')
    (hascending : ∀ s p : Nat, p ∈ (w.tasks s).dependentTasks → p < s) :
    ∀ s p : Nat, p ∈ (w'.tasks s).dependentTasks → p < s := by
  obtain ⟨t, -, -, hlt, hregisters⟩ := step_registers henv hw h
  intro s p hp
  rcases hregisters.depends s p hp with hold | ⟨rfl, hnew | ⟨he, c, hrunning, hblocks⟩⟩
  · exact hascending s p hold
  · exact hlt.trans_le hnew
  · exact hyounger he (p, c) hrunning s hblocks

/-- Where tasks wait for younger tasks only there are no deadlocks: when nothing is left to run,
every task has ended. -/
theorem younger_waits_end (henv : KeepsHeap env) (hstore : ∀ t, ¬ store.HasFuture t)
    (hrun : RunsIn (processStep env) (AwaitsYounger env) (World.boot store m) w) :
    (∀ p, ¬ TransGen w.WaitsFor p p) ∧ (w.Idle → w.processIsDone = true ∧
      ∀ t : Nat, t < w.nextTask → t ∈ w.completed ∨ w.dead t = true) := by
  have hreached : SchedulerSound w ∧ ∀ s p : Nat, p ∈ (w.tasks s).dependentTasks → p < s := by
    apply hrun.invariant
      (P := fun w => SchedulerSound w ∧ ∀ s p : Nat, p ∈ (w.tasks s).dependentTasks → p < s)
    · intro s l s' hs hyounger h
      exact ⟨(schedulerSound_step henv hs.1 h).1, ascending_step henv hs.1 hyounger h hs.2⟩
    · refine ⟨schedulerSound_boot store m hstore, ?_⟩
      intro s p hp
      cases hp
  have hacyclic : ∀ p, ¬ TransGen w.WaitsFor p p := by
    have hrank : ∀ s t : TaskId, w.WaitsFor s t → id s < id t :=
      fun s t hwaits => hreached.2 t s hwaits.1.2
    exact WaitFor.not_cycle_of_rank hrank
  refine ⟨hacyclic, ?_⟩
  intro hidle
  have hany : Runs (processStep env) (World.boot store m) w := hrun.mono fun _ _ _ => trivial
  obtain ⟨hw, hrooted⟩ := reached_sound henv hstore hany
  have hdone := (done_iff_acyclic hw hrooted hidle).mpr hacyclic
  refine ⟨hdone, ?_⟩
  intro t hlt
  have hscheduled := hreached.1.scheduled
  rw [hidle.1] at hscheduled
  apply hscheduled.invariant.done hdone t hlt
  rw [World.backgroundTasks, hidle.2.2]
  exact List.not_mem_nil

/-- The module awaits the function. -/
def moduleAwait : Store := awaitingStore
  [⟨.JMP, .val (.int 2)⟩, ⟨.RES, .val (.int 7)⟩, ⟨.RET, .noArg⟩, ⟨.RES, .id "$anon_1_7"⟩,
    ⟨.PUSH, .noArg⟩, ⟨.CLLN, .noArg⟩, ⟨.WAIT, .noArg⟩, ⟨.EXIT, .val (.int 0)⟩]

theorem younger_waits_end_moduleAwait : ∃ w,
    RunsIn (processStep noNatives) (AwaitsYounger noNatives) (World.boot moduleAwait 0) w ∧
      w.completed = [1, 0] ∧ w.processIsDone = true := by
  have hrun : ∃ w, runSteps
      (guarded (processStep noNatives) (AwaitsYounger noNatives)) (World.boot moduleAwait 0)
        (.start 0 :: List.replicate 5 .execute ++
          [.start 1, .execute, .execute, .start 0, .execute]) = some w ∧
      w.running = none ∧ w.queued = [] ∧ w.background = [] ∧ w.completed = [1, 0] :=
    ⟨_, rfl, rfl, rfl, rfl, rfl⟩
  obtain ⟨w, hw, hrunning, hqueued, hbackground, hcompleted⟩ := hrun
  have hreached := runsIn_of_guarded hw
  obtain ⟨-, hend⟩ := younger_waits_end keepsHeap_noNatives (awaitingStore_futures _) hreached
  exact ⟨w, hreached, hcompleted, (hend ⟨hrunning, hqueued, hbackground⟩).1⟩

end Runs

end JeffVm
