import JeffVm.PathExecution
import JeffVm.SimpleMath
import JeffVm.Scope

/-!
# What a task sees

A scene is what the instructions of a running task depend on: the heap, the scopes, the result
value and the operand stack, without positions, without other tasks and without the scheduler. A
task that stands at a position with a scene moves on by single steps, and what it leaves alone is
stated once for all of them.
-/

set_option autoImplicit false

namespace JeffVm

/-! ## Scenes -/

/-- A context without its task, its position and its handler. -/
def Context.view (x : Context) : Context :=
  { x with parentTask := 0, ins := 0, error := none, catchIns := -1 }

def Contexts.view (cs : Contexts) : Contexts where
  context := fun c => (cs.context c).view
  next := cs.next
  previous_lt := cs.previous_lt

structure Scene where
  store : Store
  contexts : Contexts
  resval : Entity
  stack : List Entity

namespace Scene

def frame (s : Scene) : Frame := ⟨s.store, s.resval, s.stack⟩

def withFrame (s : Scene) (f : Frame) : Scene := ⟨f.store, s.contexts, f.resval, f.stack⟩

/-- The tape of the module of context `c`. -/
def tape (s : Scene) (c : ContextId) : List Instruction :=
  (s.store.modules (s.contexts.context c).module).tape

/-- The context of a call, where the callee has a stack of its own. -/
def enter (s : Scene) (func : FunctionId) (self : ObjectId) (parentContext : Option ContextId) :
    Option (ContextId × Scene) :=
  let fn := s.store.functions func
  let (members, store) := s.store.heapNew .Object
  let previous := if fn.isAnon then parentContext else none
  (s.contexts.create ⟨0, previous, members, self, fn.module, some func, 0, none, -1⟩).map
    fun (d, contexts) => (d, ⟨store, contexts, s.resval, []⟩)

/-- The context of a block in `c`. -/
def enterBlock (s : Scene) (c : ContextId) : Option (ContextId × Scene) :=
  let ctx := s.contexts.context c
  let (members, store) := s.store.heapNew .Object
  (s.contexts.create ⟨0, some c, members, ctx.self, ctx.module, none, 0, none, -1⟩).map
    fun (d, contexts) => (d, ⟨store, contexts, s.resval, s.stack⟩)

end Scene

def World.scene (w : World) (t : TaskId) : Scene :=
  ⟨w.store, w.contexts.view, (w.tasks t).resval, (w.tasks t).entityStack⟩

/-- The functions and the tapes are the same. -/
structure Store.SameProgram (s s' : Store) : Prop where
  tapes : ∀ m, (s'.modules m).tape = (s.modules m).tape
  functions : s'.functions = s.functions

theorem Store.SameProgram.refl (s : Store) : s.SameProgram s := ⟨fun _ => rfl, rfl⟩

theorem Store.SameProgram.trans {s s' s'' : Store} (h : s.SameProgram s')
    (h' : s'.SameProgram s'') : s.SameProgram s'' :=
  ⟨fun m => (h'.tapes m).trans (h.tapes m), h'.functions.trans h.functions⟩

theorem Contexts.ext_of {cs cs' : Contexts} (hcontext : cs.context = cs'.context)
    (hnext : cs.next = cs'.next) : cs = cs' := by
  cases cs
  cases cs'
  cases hcontext
  cases hnext
  rfl

theorem Contexts.view_modify (cs : Contexts) (c : ContextId) (f : Context → Context)
    (hf : ∀ x, (f x).view = x.view) : (cs.modify c f).view = cs.view := by
  apply Contexts.ext_of
  · funext d
    by_cases hd : d = c
    · subst hd
      have hview := hf (cs.context d)
      simp only [Contexts.view, Contexts.modify_self]
      rw [← hview]
      simp only [Context.view, Context.mk.injEq, and_true, true_and] at hview ⊢
      exact hview.1.symm
    · simp only [Contexts.view, Contexts.modify_ne cs f hd]
  · rfl

theorem Contexts.create_eq {cs : Contexts} {x : Context} {d : ContextId} {cs' : Contexts}
    (h : cs.create x = some (d, cs')) : d = cs.next ∧ cs'.next = cs.next + 1 ∧
      cs'.context = Function.update cs.context cs.next x := by
  unfold Contexts.create at h
  split at h
  · cases h
    exact ⟨rfl, rfl, rfl⟩
  · cases h

/-- New contexts look the same when they differ in what is not seen. -/
theorem Contexts.create_view {cs : Contexts} {x : Context} {d : ContextId} {cs' : Contexts}
    (y : Context) (hview : y.view = x.view) (h : cs.view.create x.view = some (d, cs')) :
    ∃ cs'', cs.create y = some (d, cs'') ∧ cs''.view = cs' := by
  unfold Contexts.create at h ⊢
  have hprevious : y.view.previous = x.view.previous := by rw [hview]
  split at h
  · next hlt =>
    cases h
    have hy : ∀ p, y.previous = some p → p < cs.next := by
      intro p hp
      exact hlt p (hprevious.symm.trans hp)
    rw [dif_pos hy]
    refine ⟨_, rfl, ?_⟩
    apply Contexts.ext_of
    · funext e
      by_cases he : e = cs.next
      · subst he
        simp [Contexts.view, hview]
      · simp [Contexts.view, he]
    · rfl
  · cases h

/-! ## Runs without a choice -/

/-- The event is the only one that is possible, but for tasks and background calls that were
there before. -/
def Chosen (env : Env) (queued : List TaskId) (background : List BackgroundThreadArgs) (w : World)
    (ev : Event) : Prop :=
  ∀ ev' w', processStep env w ev' = some w' →
    ev' = ev ∨ (∃ t ∈ queued, ev' = .start t) ∨ ∃ args ∈ background, ev' = .finish args

/-- What a task in context `c` leaves alone while it goes on in it. -/
structure Alongside (w w' : World) (t : Nat) (c : Nat) : Prop where
  queued : w'.queued = w.queued
  waiting : w'.waiting = w.waiting
  background : w'.background = w.background
  nextTask : w.nextTask ≤ w'.nextTask
  nextContext : w.contexts.next ≤ w'.contexts.next
  tasks : ∀ id : Nat, id ≠ t → id < w.nextTask → w'.tasks id = w.tasks id
  parentTask : (w'.tasks t).parentTask = (w.tasks t).parentTask
  dependentTasks : (w'.tasks t).dependentTasks = (w.tasks t).dependentTasks
  contexts : ∀ d : Nat, d ≠ c → d < w.contexts.next →
    w'.contexts.context d = w.contexts.context d
  here : w'.contexts.context c =
    { w.contexts.context c with ins := (w'.contexts.context c).ins }
  program : w.store.SameProgram w'.store

/-- Task `t` gets from one world to the other while it goes on in context `c`. -/
structure Reaches (env : Env) (w w' : World) (t : Nat) (c : Nat) : Prop where
  run : RunsIn (processStep env) (Chosen env w.queued w.background) w w'
  alongside : Alongside w w' t c

namespace Alongside

variable {w w' w'' : World} {t c : Nat}

theorem refl (w : World) (t c : Nat) : Alongside w w t c :=
  ⟨rfl, rfl, rfl, Nat.le_refl _, Nat.le_refl _, fun _ _ _ => rfl, rfl, rfl, fun _ _ _ => rfl, rfl,
    .refl _⟩

theorem trans (h : Alongside w w' t c) (h' : Alongside w' w'' t c) : Alongside w w'' t c where
  queued := h'.queued.trans h.queued
  waiting := h'.waiting.trans h.waiting
  background := h'.background.trans h.background
  nextTask := Nat.le_trans h.nextTask h'.nextTask
  nextContext := Nat.le_trans h.nextContext h'.nextContext
  tasks := by
    intro id hid hlt
    rw [h'.tasks id hid (Nat.lt_of_lt_of_le hlt h.nextTask), h.tasks id hid hlt]
  parentTask := h'.parentTask.trans h.parentTask
  dependentTasks := h'.dependentTasks.trans h.dependentTasks
  contexts := by
    intro d hd hlt
    rw [h'.contexts d hd (Nat.lt_of_lt_of_le hlt h.nextContext), h.contexts d hd hlt]
  here := by
    rw [h'.here, h.here]
  program := h.program.trans h'.program

end Alongside

namespace Reaches

variable {env : Env} {w w' w'' : World} {t c : Nat}

theorem refl (env : Env) (w : World) (t c : Nat) : Reaches env w w t c := ⟨.refl w, .refl w t c⟩

theorem trans (h : Reaches env w w' t c) (h' : Reaches env w' w'' t c) :
    Reaches env w w'' t c := by
  have hrun := h'.run
  rw [h.alongside.queued, h.alongside.background] at hrun
  exact ⟨h.run.trans hrun, h.alongside.trans h'.alongside⟩

end Reaches

/-! ## Standing at a position -/

/-- Nobody waits for the task and it is on no list; the lists hold old tasks. -/
structure World.Ready (w : World) (t : Nat) : Prop where
  state : (w.tasks t).state = .RUNNING
  childTaskHasError : (w.tasks t).childTaskHasError = false
  queued : ∀ id ∈ w.queued, id ≠ t ∧ id < w.nextTask
  waiting : ∀ id ∈ w.waiting, id ≠ t ∧ id < w.nextTask

/-- Task `t` runs in its context `c`, at position `pos` of the tape and with the scene `s`. -/
structure World.At (w : World) (t : Nat) (c : Nat) (pos : Nat) (s : Scene) : Prop where
  running : w.running = some (t, c)
  block : w.InBlock t c
  ins : (w.contexts.context c).ins = pos
  error : (w.contexts.context c).error = none
  scene : w.scene t = s
  ready : w.Ready t

section Steps

variable {env : Env} {w w' : World} {t c pos : Nat} {s : Scene} {ins : Instruction} {f : Frame}

theorem World.At.frame (h : w.At t c pos s) : w.frame t = s.frame := by
  rw [← h.scene]
  rfl

theorem World.At.tape (h : w.At t c pos s) :
    (w.store.modules (w.contexts.context c).module).tape = s.tape c := by
  rw [← h.scene]
  rfl

theorem World.At.contextIns (h : w.At t c pos s) (hins : (s.tape c)[pos]? = some ins) :
    w.contextIns c = some ins := by
  have hpos : ¬ (pos : Int) < 0 := by omega
  unfold World.contextIns
  simp only [h.ins, if_neg hpos, Int.toNat_natCast]
  rw [h.tape, hins]

/-- The iteration of a task that stands at an instruction. -/
theorem World.At.iterate (h : w.At t c pos s) (hins : (s.tape c)[pos]? = some ins) :
    w.iterate env t c = (execute env w t c ins).bind fun effect => w.apply t c effect := by
  have hfetch : w.fetch t c = some (true, w) := by
    simp [World.fetch, h.error]
  unfold World.iterate
  rw [hfetch]
  simp only [h.contextIns hins]
  cases execute env w t c ins with
  | none => rfl
  | some effect => rfl

theorem World.At.step_running (h : w.At t c pos s) (hins : (s.tape c)[pos]? = some ins)
    {effect : Effect} (hexec : execute env w t c ins = some effect) {c' : ContextId}
    (happly : w.apply t c effect = some (w', .running c')) :
    processStep env w .execute = some { w' with running := some (t, c') } := by
  unfold processStep
  rw [h.running]
  simp only
  rw [h.iterate hins, hexec, Option.bind_some, happly]

theorem World.At.step_stopped (h : w.At t c pos s) (hins : (s.tape c)[pos]? = some ins)
    {effect : Effect} (hexec : execute env w t c ins = some effect)
    (happly : w.apply t c effect = some (w', .stopped)) :
    processStep env w .execute = w'.stop env t := by
  unfold processStep
  rw [h.running]
  simp only
  rw [h.iterate hins, hexec, Option.bind_some, happly]

/-- While a task runs, only background calls may come in between. -/
theorem chosen_execute (h : w.running = some (t, c)) :
    Chosen env w.queued w.background w .execute := by
  intro ev w' hstep
  cases ev with
  | execute => exact .inl rfl
  | start id => simp [processStep, h] at hstep
  | finish args =>
    rw [processStep] at hstep
    split at hstep
    · next hmem => exact .inr (.inr ⟨args, hmem, rfl⟩)
    · cases hstep

/-- The task goes on in its context after a step that changes its frame and its position. -/
theorem World.At.moves {k : Int} {pos' : Nat} (h : w.At t c pos s)
    (hstep : processStep env w .execute =
      some { (w.setFrame t f).modifyContext c (fun x => { x with ins := x.ins + k }) with
        running := some (t, c) })
    (hprogram : s.store.SameProgram f.store) (hpos : (pos' : Int) = pos + k) :
    ∃ w', Reaches env w w' t c ∧ w'.At t c pos' (s.withFrame f) := by
  have hstore : w.store = s.store := congrArg Scene.store h.scene
  have hcontexts : w.contexts.view = s.contexts := congrArg Scene.contexts h.scene
  refine ⟨_, ⟨.single (chosen_execute h.running) hstep, ?_⟩, ?_⟩
  · refine ⟨rfl, rfl, rfl, Nat.le_refl _, Nat.le_refl _, ?_, ?_, ?_, ?_, ?_, ?_⟩
    · intro id hid _
      simp [World.modifyContext, World.setFrame, World.modifyTask, hid]
    · simp [World.modifyContext, World.setFrame, World.modifyTask]
    · simp [World.modifyContext, World.setFrame, World.modifyTask]
    · intro d hd _
      simp [World.modifyContext, hd]
    · simp [World.modifyContext]
    · rw [hstore]
      exact hprogram
  · refine ⟨rfl, ⟨?_, ?_, h.block.created, h.block.lt⟩, ?_, ?_, ?_, ⟨?_, ?_, ?_, ?_⟩⟩
    · simp [World.modifyContext, World.setFrame, World.modifyTask, h.block.current]
    · simp [World.modifyContext, h.block.parent]
    · simp [World.modifyContext, h.ins, hpos]
    · simp [World.modifyContext, h.error]
    · have hview : ((w.setFrame t f).modifyContext c
          fun x => { x with ins := x.ins + k }).contexts.view = s.contexts := by
        rw [← hcontexts]
        exact Contexts.view_modify w.contexts c (fun x => { x with ins := x.ins + k }) fun x => rfl
      unfold World.scene Scene.withFrame
      rw [Scene.mk.injEq]
      refine ⟨rfl, hview, ?_, ?_⟩
      · simp [World.modifyContext, World.setFrame, World.modifyTask]
      · simp [World.modifyContext, World.setFrame, World.modifyTask]
    · simpa [World.modifyContext, World.setFrame, World.modifyTask] using h.ready.state
    · simpa [World.modifyContext, World.setFrame, World.modifyTask] using
        h.ready.childTaskHasError
    · exact h.ready.queued
    · exact h.ready.waiting

theorem World.At.next (h : w.At t c pos s) (hins : (s.tape c)[pos]? = some ins)
    (hexec : execute env w t c ins = some (.next f)) (hprogram : s.store.SameProgram f.store) :
    ∃ w', Reaches env w w' t c ∧ w'.At t c (pos + 1) (s.withFrame f) :=
  h.moves (h.step_running hins hexec rfl) hprogram rfl

theorem World.At.jump {n : Int} {pos' : Nat} (h : w.At t c pos s)
    (hins : (s.tape c)[pos]? = some ins) (hexec : execute env w t c ins = some (.jump f n))
    (hprogram : s.store.SameProgram f.store) (hpos : (pos' : Int) = pos + (n + 1)) :
    ∃ w', Reaches env w w' t c ∧ w'.At t c pos' (s.withFrame f) := by
  apply h.moves ?_ hprogram hpos
  rw [h.step_running hins hexec rfl]
  simp only [Int.add_assoc]

end Steps

/-! ## Blocks -/

/-- Task `t` gets from its context `c` into the block `d` and goes on there. -/
structure EntersBlock (env : Env) (w w' : World) (t : Nat) (c d : Nat) : Prop where
  run : RunsIn (processStep env) (Chosen env w.queued w.background) w w'
  queued : w'.queued = w.queued
  waiting : w'.waiting = w.waiting
  background : w'.background = w.background
  nextTask : w.nextTask ≤ w'.nextTask
  nextContext : w.contexts.next ≤ w'.contexts.next
  tasks : ∀ id : Nat, id ≠ t → id < w.nextTask → w'.tasks id = w.tasks id
  parentTask : (w'.tasks t).parentTask = (w.tasks t).parentTask
  dependentTasks : (w'.tasks t).dependentTasks = (w.tasks t).dependentTasks
  contexts : ∀ e : Nat, e < w.contexts.next → w'.contexts.context e = w.contexts.context e
  fresh : w.contexts.next ≤ d
  previous : (w'.contexts.context d).previous = some c
  program : w.store.SameProgram w'.store

section Blocks

variable {env : Env} {w w' w'' : World} {t c d pos pos' : Nat} {s s' : Scene}

theorem EntersBlock.reaches (h : EntersBlock env w w' t c d) (h' : Reaches env w' w'' t d) :
    EntersBlock env w w'' t c d where
  run := by
    have hrun := h'.run
    rw [h.queued, h.background] at hrun
    exact h.run.trans hrun
  queued := h'.alongside.queued.trans h.queued
  waiting := h'.alongside.waiting.trans h.waiting
  background := h'.alongside.background.trans h.background
  nextTask := Nat.le_trans h.nextTask h'.alongside.nextTask
  nextContext := Nat.le_trans h.nextContext h'.alongside.nextContext
  tasks := by
    intro id hid hlt
    rw [h'.alongside.tasks id hid (Nat.lt_of_lt_of_le hlt h.nextTask), h.tasks id hid hlt]
  parentTask := h'.alongside.parentTask.trans h.parentTask
  dependentTasks := h'.alongside.dependentTasks.trans h.dependentTasks
  contexts := by
    intro e he
    have hne : e ≠ d := Nat.ne_of_lt (Nat.lt_of_lt_of_le he h.fresh)
    rw [h'.alongside.contexts e hne (Nat.lt_of_lt_of_le he h.nextContext), h.contexts e he]
  fresh := h.fresh
  previous := by
    rw [h'.alongside.here]
    exact h.previous
  program := h.program.trans h'.alongside.program

/-- Where the task does not come back from the block. -/
theorem EntersBlock.toReaches (h : EntersBlock env w w' t c d) (hc : c < w.contexts.next) :
    Reaches env w w' t c where
  run := h.run
  alongside :=
    { queued := h.queued
      waiting := h.waiting
      background := h.background
      nextTask := h.nextTask
      nextContext := h.nextContext
      tasks := h.tasks
      parentTask := h.parentTask
      dependentTasks := h.dependentTasks
      contexts := fun e _ he => h.contexts e he
      here := by rw [h.contexts c hc]
      program := h.program }

theorem World.setFrame_frame (w : World) (t : TaskId) : w.setFrame t (w.frame t) = w := by
  simp [World.setFrame, World.modifyTask, World.frame]

/-- `task_create_context`, as it looks from the scene. -/
theorem World.createContext_eq (t : TaskId) (insPos : Int) {self : ObjectId} {m : ModuleId}
    {func : Option FunctionId} {previous : Option ContextId} {cs' : Contexts}
    (hcreate : w.contexts.view.create
      ⟨0, previous, w.store.nextObject, self, m, func, 0, none, -1⟩ = some (d, cs')) :
    ∃ contexts, contexts.view = cs' ∧ d = w.contexts.next ∧
      contexts.next = w.contexts.next + 1 ∧
      contexts.context = Function.update w.contexts.context d
        ⟨t, previous, w.store.nextObject, self, m, func, insPos, none, -1⟩ ∧
      w.createContext t self m insPos func previous =
        some (d, { w.modifyTask t (fun task => { task with current := some d }) with
          store := (w.store.heapNew .Object).2
          contexts := contexts }) := by
  obtain ⟨contexts, hnew, hview⟩ := Contexts.create_view
    ⟨t, previous, w.store.nextObject, self, m, func, insPos, none, -1⟩ rfl hcreate
  obtain ⟨rfl, hnext, hcontext⟩ := Contexts.create_eq hnew
  refine ⟨contexts, hview, rfl, hnext, hcontext, ?_⟩
  unfold World.createContext
  simp only [Store.heapNew]
  rw [hnew]

theorem Scene.enterBlock_some (h : s.enterBlock c = some (d, s')) : ∃ cs',
    s.contexts.create ⟨0, some c, s.store.nextObject, (s.contexts.context c).self,
      (s.contexts.context c).module, none, 0, none, -1⟩ = some (d, cs') ∧
    s' = ⟨(s.store.heapNew .Object).2, cs', s.resval, s.stack⟩ := by
  unfold Scene.enterBlock at h
  obtain ⟨⟨d₁, cs'⟩, hcreate, heq⟩ := Option.map_eq_some_iff.mp h
  cases heq
  exact ⟨cs', hcreate, rfl⟩

theorem Store.sameProgram_heapNew (s : Store) (cls : ClassId) :
    s.SameProgram (s.heapNew cls).2 := ⟨fun _ => rfl, rfl⟩

/-- `NBLK` -/
theorem World.At.newBlock (env : Env) (h : w.At t c pos s) (hins : (s.tape c)[pos]? = some ⟨.NBLK, .noArg⟩)
    (henter : s.enterBlock c = some (d, s')) :
    ∃ w', EntersBlock env w w' t c d ∧ w'.At t d (pos + 1) s' := by
  obtain rfl := h.scene
  obtain ⟨cs', hcreate, rfl⟩ := Scene.enterBlock_some henter
  have hcreate' : w.contexts.view.create ⟨0, some c, w.store.nextObject,
      (w.contexts.context c).self, (w.contexts.context c).module, none, 0, none, -1⟩ =
        some (d, cs') := hcreate
  obtain ⟨contexts, hview, hd, hnext, hcontext, hnew⟩ :=
    World.createContext_eq t (w.contexts.context c).ins hcreate'
  have hexec : execute env w t c ⟨.NBLK, .noArg⟩ = some (.newBlock (w.frame t)) := rfl
  have happly : w.apply t c (.newBlock (w.frame t)) = some (World.incIns
      { w.modifyTask t (fun task => { task with current := some d }) with
        store := (w.store.heapNew .Object).2
        contexts := contexts } d, .running d) := by
    simp only [World.apply, World.setFrame_frame, h.block.parent, h.block.current]
    rw [hnew]
  have hstep := h.step_running hins hexec happly
  have hother : ∀ e : Nat, e < w.contexts.next → e ≠ d := by
    intro e he
    omega
  refine ⟨_, ⟨.single (chosen_execute h.running) hstep, rfl, rfl, rfl, Nat.le_refl _, ?_, ?_, ?_,
    ?_, ?_, ?_, ?_, w.store.sameProgram_heapNew .Object⟩, ?_⟩
  · simp [World.incIns, World.modifyContext, Contexts.modify, hnext]
  · intro id hid _
    simp [World.incIns, World.modifyContext, World.modifyTask, hid]
  · simp [World.incIns, World.modifyContext, World.modifyTask]
  · simp [World.incIns, World.modifyContext, World.modifyTask]
  · intro e he
    simp [World.incIns, World.modifyContext, hcontext, hother e he]
  · exact Nat.le_of_eq hd.symm
  · simp [World.incIns, World.modifyContext, hcontext]
  · refine ⟨rfl, ⟨?_, ?_, h.block.created, ?_⟩, ?_, ?_, ?_, ⟨?_, ?_, h.ready.queued,
      h.ready.waiting⟩⟩
    · simp [World.incIns, World.modifyContext, World.modifyTask]
    · simp [World.incIns, World.modifyContext, hcontext]
    · simp [World.incIns, World.modifyContext, Contexts.modify, hnext, hd]
    · simp [World.incIns, World.modifyContext, hcontext, h.ins]
    · simp [World.incIns, World.modifyContext, hcontext]
    · unfold World.scene
      rw [Scene.mk.injEq]
      refine ⟨rfl, ?_, ?_, ?_⟩
      · rw [← hview]
        exact Contexts.view_modify contexts d (fun x => { x with ins := x.ins + 1 }) fun x => rfl
      · simp [World.incIns, World.modifyContext, World.modifyTask]
      · simp [World.incIns, World.modifyContext, World.modifyTask]
    · simpa [World.incIns, World.modifyContext, World.modifyTask] using h.ready.state
    · simpa [World.incIns, World.modifyContext, World.modifyTask] using h.ready.childTaskHasError

theorem EntersBlock.step {w₁ w₂ : World} (h : EntersBlock env w w₁ t c d)
    (hrun : RunsIn (processStep env) (Chosen env w₁.queued w₁.background) w₁ w₂) :
    RunsIn (processStep env) (Chosen env w.queued w.background) w w₂ := by
  rw [h.queued, h.background] at hrun
  exact h.run.trans hrun

/-- `CTCH` -/
theorem EntersBlock.setCatch {n : Int} (h : EntersBlock env w w' t c d) (hat : w'.At t d pos s)
    (hins : (s.tape d)[pos]? = some ⟨.CTCH, .val (.int n)⟩) :
    ∃ w'', EntersBlock env w w'' t c d ∧ w''.At t d (pos + 1) s := by
  obtain rfl := hat.scene
  have hexec : execute env w' t d ⟨.CTCH, .val (.int n)⟩ = some (.setCatch (w'.frame t) n) := rfl
  have happly : w'.apply t d (.setCatch (w'.frame t) n) = some (World.incIns
      (w'.modifyContext d fun x => { x with catchIns := x.ins + n + 1 }) d, .running d) := by
    simp only [World.apply, World.setFrame_frame]
  have hstep := hat.step_running hins hexec happly
  have hother : ∀ e : Nat, e < w.contexts.next → e ≠ d := fun e he =>
    Nat.ne_of_lt (Nat.lt_of_lt_of_le he h.fresh)
  refine ⟨_, ⟨h.step (.single (chosen_execute hat.running) hstep), h.queued, h.waiting,
    h.background, h.nextTask, h.nextContext, h.tasks, h.parentTask, h.dependentTasks, ?_, h.fresh,
    ?_, h.program⟩, ?_⟩
  · intro e he
    rw [← h.contexts e he]
    simp [World.incIns, World.modifyContext, hother e he]
  · rw [← h.previous]
    simp [World.incIns, World.modifyContext]
  · refine ⟨rfl, ⟨hat.block.current, ?_, hat.block.created, hat.block.lt⟩, ?_, ?_, ?_,
      ⟨hat.ready.state, hat.ready.childTaskHasError, hat.ready.queued, hat.ready.waiting⟩⟩
    · simp [World.incIns, World.modifyContext, hat.block.parent]
    · simp [World.incIns, World.modifyContext, hat.ins]
    · simp [World.incIns, World.modifyContext, hat.error]
    · unfold World.scene
      rw [Scene.mk.injEq]
      refine ⟨rfl, ?_, rfl, rfl⟩
      refine (Contexts.view_modify (w'.contexts.modify d fun x => { x with
        catchIns := x.ins + n + 1 }) d (fun x => { x with ins := x.ins + 1 }) fun x => rfl).trans ?_
      exact Contexts.view_modify w'.contexts d
        (fun x => { x with catchIns := x.ins + n + 1 }) fun x => rfl

/-- `BBLK` -/
theorem EntersBlock.backBlock (h : EntersBlock env w w' t c d) (hstart : w.At t c pos s)
    (hat : w'.At t d pos' s') (hins : (s'.tape d)[pos']? = some ⟨.BBLK, .noArg⟩) :
    ∃ w'', Reaches env w w'' t c ∧ w''.At t c (pos' + 1) s' := by
  obtain rfl := hat.scene
  have hc : c < w.contexts.next := hstart.block.lt
  have hsame : w'.contexts.context c = w.contexts.context c := h.contexts c hc
  have hexec : execute env w' t d ⟨.BBLK, .noArg⟩ = some (.backBlock (w'.frame t)) := rfl
  have happly : w'.apply t d (.backBlock (w'.frame t)) = some (World.incIns
      { w'.modifyTask t (fun task => { task with current := some c }) with
        contexts := w'.contexts.setIns c pos' } c, .running c) := by
    simp only [World.apply, World.setFrame_frame, World.taskBackContext, hat.block.current,
      h.previous, hat.ins]
  have hstep := hat.step_running hins hexec happly
  refine ⟨_, ⟨h.step (.single (chosen_execute hat.running) hstep), h.queued, h.waiting,
    h.background, h.nextTask, h.nextContext, ?_, ?_, ?_, ?_, ?_, h.program⟩, ?_⟩
  · intro id hid hlt
    rw [← h.tasks id hid hlt]
    simp [World.incIns, World.modifyContext, World.modifyTask, hid]
  · rw [← h.parentTask]
    simp [World.incIns, World.modifyContext, World.modifyTask]
  · rw [← h.dependentTasks]
    simp [World.incIns, World.modifyContext, World.modifyTask]
  · intro e he hlt
    rw [← h.contexts e hlt]
    simp [World.incIns, World.modifyContext, Contexts.setIns, he]
  · rw [← hsame]
    simp [World.incIns, World.modifyContext, Contexts.setIns]
  · refine ⟨rfl, ⟨?_, ?_, hat.block.created, Nat.lt_of_lt_of_le hc h.nextContext⟩, ?_, ?_, ?_,
      ⟨?_, ?_, hat.ready.queued, hat.ready.waiting⟩⟩
    · simp [World.incIns, World.modifyContext, World.modifyTask]
    · simp [World.incIns, World.modifyContext, Contexts.setIns, hsame, hstart.block.parent]
    · simp [World.incIns, World.modifyContext, Contexts.setIns]
    · simp [World.incIns, World.modifyContext, Contexts.setIns, hsame, hstart.error]
    · unfold World.scene
      rw [Scene.mk.injEq]
      refine ⟨rfl, ?_, ?_, ?_⟩
      · refine (Contexts.view_modify (w'.contexts.setIns c pos') c
          (fun x => { x with ins := x.ins + 1 }) fun x => rfl).trans ?_
        exact Contexts.view_modify w'.contexts c (fun x => { x with ins := pos' }) fun x => rfl
      · simp [World.incIns, World.modifyContext, World.modifyTask]
      · simp [World.incIns, World.modifyContext, World.modifyTask]
    · simpa [World.incIns, World.modifyContext, World.modifyTask] using hat.ready.state
    · simpa [World.incIns, World.modifyContext, World.modifyTask] using
        hat.ready.childTaskHasError

end Blocks

/-! ## Calls -/

/-- Task `t` has called a function from its context `c`, and its child is in the context `d` of the
call. -/
structure Called (env : Env) (w w' : World) (t c : Nat) (child d : Nat) (f : Frame) : Prop where
  run : RunsIn (processStep env) (Chosen env w.queued w.background) w w'
  new : child = w.nextTask
  queued : w'.queued = w.queued
  waiting : w'.waiting = w.waiting ++ [t]
  background : w'.background = w.background
  nextTask : w'.nextTask = w.nextTask + 1
  nextContext : w.contexts.next ≤ w'.contexts.next
  tasks : ∀ id : Nat, id ≠ t → id < w.nextTask → w'.tasks id = w.tasks id
  task : w'.tasks t =
    { w.tasks t with state := .WAITING, resval := f.resval, entityStack := f.stack }
  dependentTasks : (w'.tasks child).dependentTasks = [t]
  contexts : ∀ e : Nat, e ≠ c → e < w.contexts.next →
    w'.contexts.context e = w.contexts.context e
  here : w'.contexts.context c =
    { w.contexts.context c with ins := (w.contexts.context c).ins + 1 }
  fresh : w.contexts.next ≤ d
  program : w.store.SameProgram w'.store

/-- The next instruction of the task, in context `c` or a block inside, completes it with the
scene. -/
def Returning (env : Env) (w : World) (t c : Nat) (s' : Scene) : Prop :=
  ∃ (d pos : Nat) (s : Scene) (ins : Instruction) (f : Frame), c ≤ d ∧ w.At t d pos s ∧
    (s.tape d)[pos]? = some ins ∧ execute env w t d ins = some (.complete f) ∧
    s.store.SameProgram f.store ∧ s' = s.withFrame f

section Calls

variable {env : Env} {w w' w'' : World} {t c d child pos : Nat} {s s' : Scene}
  {ins : Instruction} {f : Frame}

/-- `_execute_as_new_task`, as it looks from the scene. -/
theorem World.executeAsNewTask_eq (t : TaskId) (insPos : Int) {self : ObjectId} {m : ModuleId}
    {func : Option FunctionId} {previous : Option ContextId} {cs' : Contexts}
    (hcreate : w.contexts.view.create
      ⟨0, previous, w.store.nextObject, self, m, func, 0, none, -1⟩ = some (d, cs')) :
    ∃ contexts, contexts.view = cs' ∧ d = w.contexts.next ∧
      contexts.next = w.contexts.next + 1 ∧
      contexts.context = Function.update w.contexts.context d
        ⟨w.nextTask, previous, w.store.nextObject, self, m, func, insPos, none, -1⟩ ∧
      w.executeAsNewTask t self m insPos func previous = some (w.nextTask, { w with
        store := (w.store.heapNew .Object).2
        contexts := contexts
        tasks := Function.update w.tasks w.nextTask
          ⟨.RUNNING, some d, (w.tasks t).resval, [], some t, [], false⟩
        nextTask := w.nextTask + 1
        queued := w.queued ++ [w.nextTask] }) := by
  have hcreate' : (((w.createTask t (w.tasks t).resval).2).enqueue w.nextTask).contexts.view.create
      ⟨0, previous, (((w.createTask t (w.tasks t).resval).2).enqueue w.nextTask).store.nextObject,
        self, m, func, 0, none, -1⟩ = some (d, cs') := hcreate
  obtain ⟨contexts, hview, hd, hnext, hcontext, hnew⟩ :=
    World.createContext_eq w.nextTask insPos hcreate'
  refine ⟨contexts, hview, hd, hnext, hcontext, ?_⟩
  unfold World.executeAsNewTask
  simp only [World.createTask] at hnew ⊢
  rw [hnew]
  simp [World.modifyTask, World.enqueue]

theorem Scene.enter_some {func : FunctionId} {self : ObjectId} {parentContext : Option ContextId}
    (h : s.enter func self parentContext = some (d, s')) : ∃ cs',
    s.contexts.create ⟨0, if (s.store.functions func).isAnon then parentContext else none,
      s.store.nextObject, self, (s.store.functions func).module, some func, 0, none, -1⟩ =
        some (d, cs') ∧ s' = ⟨(s.store.heapNew .Object).2, cs', s.resval, []⟩ := by
  unfold Scene.enter at h
  obtain ⟨⟨d₁, cs'⟩, hcreate, heq⟩ := Option.map_eq_some_iff.mp h
  cases heq
  exact ⟨cs', hcreate, rfl⟩

/-- When no task runs, a queued one may be taken, or a background call may finish. -/
theorem chosen_start {queued : List TaskId} (h : w.running = none)
    (hqueued : w.queued = queued ++ [t]) : Chosen env queued w.background w (.start t) := by
  intro ev w' hstep
  cases ev with
  | execute => simp [processStep, h] at hstep
  | start id =>
    rw [processStep] at hstep
    split at hstep
    · next hstart =>
      rw [hqueued] at hstart
      rcases List.mem_append.mp hstart.2 with hold | hnew
      · exact .inr (.inl ⟨id, hold, rfl⟩)
      · rw [List.mem_singleton.mp hnew]
        exact .inl rfl
    · cases hstep
  | finish args =>
    rw [processStep] at hstep
    split at hstep
    · next hmem => exact .inr (.inr ⟨args, hmem, rfl⟩)
    · cases hstep

theorem erase_append_self {queued : List TaskId} (h : ∀ id ∈ queued, id ≠ t) :
    (queued ++ [t]).erase t = queued := by
  have hmem : t ∉ queued := fun hmem => h t hmem rfl
  rw [List.erase_append_right _ hmem]
  simp

theorem setInsert_of_not_mem {α : Type} [DecidableEq α] {a : α} {as : List α} (h : a ∉ as) :
    setInsert a as = as ++ [a] := by
  unfold setInsert
  rw [if_neg h]

theorem World.setState_self {state : TaskState} (h : (w.tasks t).state = state) :
    w.setState t state = w := by
  subst h
  simp [World.setState, World.modifyTask]

theorem World.start_some (hcurrent : (w.tasks t).current = some c)
    (hsound : (w.tasks t).childTaskHasError = false) :
    w.start t = some { w.setState t .RUNNING with
      queued := w.queued.erase t
      running := some (t, c) } := by
  have hcurrent' : ((w.setState t .RUNNING).tasks t).current = some c := by
    simp [World.setState, World.modifyTask, hcurrent]
  have hsound' : ((w.setState t .RUNNING).tasks t).childTaskHasError = false := by
    simp [World.setState, World.modifyTask, hsound]
  unfold World.start
  simp only [hcurrent', hsound', Bool.false_eq_true, if_false]

/-- A call of a function with code, up to the first instruction of the function. -/
theorem World.At.call {func : FunctionId} {self : ObjectId} {parentContext : Option ContextId}
    {base : Nat} (h : w.At t c pos s) (hins : (s.tape c)[pos]? = some ins)
    (hexec : execute env w t c ins = some (.call f func self parentContext))
    (hprogram : s.store.SameProgram f.store)
    (hsync : (f.store.functions func).isAsync = false)
    (hbase : (f.store.functions func).insPos = base)
    (henter : (s.withFrame f).enter func self parentContext = some (d, s')) :
    ∃ child w', Called env w w' t c child d f ∧ w'.At child d base s' := by
  obtain rfl := h.scene
  obtain ⟨cs', hcreate, rfl⟩ := Scene.enter_some henter
  have hcreate' : (w.setFrame t f).contexts.view.create ⟨0,
      if (f.store.functions func).isAnon then parentContext else none, f.store.nextObject, self,
        (f.store.functions func).module, some func, 0, none, -1⟩ = some (d, cs') := hcreate
  obtain ⟨contexts, hview, hd, hnext, hcontext, hnew⟩ :=
    World.executeAsNewTask_eq t (base : Int) hcreate'
  have hne : t ≠ w.nextTask := Nat.ne_of_lt h.block.created
  have hcd : c ≠ d := by
    have hlt := h.block.lt
    simp only [World.setFrame_contexts] at hd
    omega
  let tasks := Function.update (Function.update w.tasks w.nextTask
    ⟨.RUNNING, some d, f.resval, [], some t, [t], false⟩) t
      { w.tasks t with state := .WAITING, resval := f.resval, entityStack := f.stack }
  let w₁ : World :=
    { w with
      store := (f.store.heapNew .Object).2
      contexts := contexts.modify c fun x => { x with ins := x.ins + 1 }
      tasks := tasks
      nextTask := w.nextTask + 1
      queued := w.queued ++ [w.nextTask]
      waiting := w.waiting ++ [t]
      running := none }
  have hcall : processStep env w .execute = some w₁ := by
    have happly : w.apply t c (.call f func self parentContext) = some ({ w₁ with
        waiting := w.waiting, running := w.running }, .stopped) := by
      simp only [World.apply, hbase]
      rw [hnew]
      simp only [hsync, Bool.false_eq_true, if_false]
      simp only [Option.some.injEq, Prod.mk.injEq, and_true, World.incIns, World.modifyContext,
        World.setState, World.addDependent, World.modifyTask, World.setFrame, World.mk.injEq,
        true_and, w₁, tasks]
      funext id
      by_cases hid : id = t
      · subst hid
        simp [hne]
      · by_cases hnewId : id = w.nextTask
        · subst hnewId
          simp [hne, hne.symm, setInsert]
        · simp [hid, hnewId]
    rw [h.step_stopped hins hexec happly]
    have hwaiting : t ∉ w.waiting := fun hmem => (h.ready.waiting t hmem).1 rfl
    simp [World.stop, w₁, tasks, setInsert_of_not_mem hwaiting]
  let w₂ : World := { w₁ with queued := w.queued, running := some (w.nextTask, d) }
  have hold : ∀ id ∈ w.queued, id ≠ w.nextTask := fun id hid =>
    Nat.ne_of_lt (h.ready.queued id hid).2
  have hstart : processStep env w₁ (.start w.nextTask) = some w₂ := by
    have hmem : w.nextTask ∈ w₁.queued := List.mem_append_right _ List.mem_cons_self
    rw [processStep, if_pos ⟨rfl, hmem⟩]
    have htask : w₁.tasks w.nextTask = ⟨.RUNNING, some d, f.resval, [], some t, [t], false⟩ := by
      simp [w₁, tasks, hne.symm]
    rw [World.start_some (by rw [htask]) (by rw [htask]), World.setState_self (by rw [htask])]
    simp only [erase_append_self hold, w₁, w₂]
  have hbeside : w.store.SameProgram w₂.store :=
    hprogram.trans (f.store.sameProgram_heapNew .Object)
  refine ⟨w.nextTask, w₂, ⟨?_, rfl, rfl, rfl, rfl, rfl, ?_, ?_, ?_, ?_, ?_, ?_,
    Nat.le_of_eq hd.symm, hbeside⟩, ?_⟩
  · exact (RunsIn.single (chosen_execute h.running) hcall).tail (chosen_start rfl rfl) hstart
  · simp [w₁, w₂, Contexts.modify, hnext]
  · intro id hid hlt
    have hidNew : id ≠ w.nextTask := Nat.ne_of_lt hlt
    simp [w₁, w₂, tasks, hid, hidNew]
  · simp [w₁, w₂, tasks]
  · simp [w₁, w₂, tasks, hne.symm]
  · intro e he hlt
    have hed : e ≠ d := by
      simp only [World.setFrame_contexts] at hd
      omega
    simp [w₁, w₂, he, hcontext, hed]
  · simp [w₁, w₂, hcontext, hcd]
  · have hcontextChild : w₂.contexts.context d = ⟨w.nextTask,
        if (f.store.functions func).isAnon then parentContext else none, f.store.nextObject, self,
          (f.store.functions func).module, some func, base, none, -1⟩ := by
      simp only [w₁, w₂, Contexts.modify_ne contexts _ hcd.symm, hcontext, Function.update_self]
      rfl
    have htask : w₂.tasks w.nextTask = ⟨.RUNNING, some d, f.resval, [], some t, [t], false⟩ := by
      simp [w₁, w₂, tasks, hne.symm]
    refine ⟨rfl, ⟨?_, ?_, Nat.lt_succ_self _, ?_⟩, ?_, ?_, ?_, ⟨?_, ?_, ?_, ?_⟩⟩
    · rw [htask]
    · rw [hcontextChild]
    · simp [w₁, w₂, Contexts.modify, hnext, hd]
    · rw [hcontextChild]
    · rw [hcontextChild]
    · unfold World.scene
      rw [htask, Scene.mk.injEq]
      refine ⟨rfl, ?_, rfl, rfl⟩
      rw [← hview]
      exact Contexts.view_modify contexts c (fun x => { x with ins := x.ins + 1 }) fun x => rfl
    · rw [htask]
    · rw [htask]
    · intro id hid
      exact ⟨hold id hid, Nat.lt_succ_of_lt (h.ready.queued id hid).2⟩
    · intro id hid
      rcases List.mem_append.mp hid with hwaiting | htop
      · have hlt := (h.ready.waiting id hwaiting).2
        exact ⟨Nat.ne_of_lt hlt, Nat.lt_succ_of_lt hlt⟩
      · rw [List.mem_singleton.mp htop]
        exact ⟨hne, Nat.lt_succ_of_lt h.block.created⟩

theorem World.wake_waiting {resval : Entity} (h : (w.tasks t).state = .WAITING) :
    World.wake resval w t = { w.setResval t resval with
      queued := w.queued ++ [t]
      waiting := w.waiting.filter (· ≠ t) } := by
  unfold World.wake
  rw [if_pos h]
  rfl

theorem filter_append_self {waiting : List TaskId} (h : ∀ id ∈ waiting, id ≠ t) :
    (waiting ++ [t]).filter (fun id => decide (id ≠ t)) = waiting := by
  rw [List.filter_append, List.filter_eq_self.mpr fun id hid => decide_eq_true (h id hid)]
  simp

/-- The callee completes, and its caller goes on with its result value. -/
theorem Called.return (h : Called env w w' t c child d f) (hstart : w.At t c pos s)
    (hreaches : Reaches env w' w'' child d) (hreturn : Returning env w'' child d s') :
    ∃ w₃, Reaches env w w₃ t c ∧ w₃.At t c (pos + 1) { s' with stack := f.stack } := by
  obtain ⟨e, pos', s₁, ins, f', hde, hat, hins, hexec, hprogram, rfl⟩ := hreturn
  obtain rfl := hat.scene
  have hne : t ≠ child := by
    rw [h.new]
    exact Nat.ne_of_lt hstart.block.created
  have htask : w''.tasks t = { w.tasks t with
      state := .WAITING, resval := f.resval, entityStack := f.stack } := by
    rw [hreaches.alongside.tasks t hne (by rw [h.nextTask]; exact Nat.lt_succ_of_lt hstart.block.created),
      h.task]
  have hdependents : (w''.tasks child).dependentTasks = [t] :=
    hreaches.alongside.dependentTasks.trans h.dependentTasks
  have hqueued : w''.queued = w.queued := hreaches.alongside.queued.trans h.queued
  have hwaiting : w''.waiting = w.waiting ++ [t] := hreaches.alongside.waiting.trans h.waiting
  have hbackground : w''.background = w.background :=
    hreaches.alongside.background.trans h.background
  let w₁ : World :=
    { w'' with
      store := f'.store
      contexts := w''.contexts.modify e fun x => { x with ins := x.ins + 1 }
      tasks := Function.update (Function.update w''.tasks child { w''.tasks child with
          state := .COMPLETE, resval := f'.resval, entityStack := f'.stack }) t
        { w.tasks t with state := .WAITING, resval := f'.resval, entityStack := f.stack }
      queued := w.queued ++ [t]
      waiting := w.waiting
      completed := setInsert child w''.completed
      running := none }
  have hcomplete : processStep env w'' .execute = some w₁ := by
    have hwake : ∀ (v : World), v.tasks t = { w.tasks t with
        state := .WAITING, resval := f.resval, entityStack := f.stack } →
          v.waiting = w.waiting ++ [t] → v.queued = w.queued →
            World.wake f'.resval v t = { v.setResval t f'.resval with
              queued := w.queued ++ [t]
              waiting := w.waiting } := by
      intro v hv hvwaiting hvqueued
      rw [World.wake_waiting (by rw [hv]), hvqueued, hvwaiting,
        filter_append_self fun id hid => (hstart.ready.waiting id hid).1]
    rw [hat.step_stopped hins hexec rfl]
    unfold World.stop World.markTaskComplete
    simp only [World.incIns, World.modifyContext, World.setState, World.modifyTask, World.setFrame,
      Function.update_self, hdependents, List.foldl_cons, List.foldl_nil]
    rw [hwake]
    · simp only [Option.some.injEq, World.setResval, World.modifyTask, World.mk.injEq, true_and,
        and_true, w₁]
      rw [Function.update_idem]
      simp [Function.update_of_ne hne, htask, hdependents]
    · simp [hne, htask]
    · exact hwaiting
    · exact hqueued
  let w₂ : World :=
    { w₁ with
      tasks := Function.update w₁.tasks t { w.tasks t with
        state := .RUNNING, resval := f'.resval, entityStack := f.stack }
      queued := w.queued
      running := some (t, c) }
  have hresume : processStep env w₁ (.start t) = some w₂ := by
    have hmem : t ∈ w₁.queued := List.mem_append_right _ List.mem_cons_self
    have htask₁ : w₁.tasks t = { w.tasks t with
        state := .WAITING, resval := f'.resval, entityStack := f.stack } := by
      simp [w₁]
    rw [processStep, if_pos ⟨rfl, hmem⟩,
      World.start_some (by rw [htask₁]; exact hstart.block.current)
        (by rw [htask₁]; exact hstart.ready.childTaskHasError)]
    simp only [Option.some.injEq, World.setState, World.modifyTask, htask₁, w₂]
    rw [erase_append_self fun id hid => (hstart.ready.queued id hid).1]
  have hchosen : Chosen env _ _ _ .execute := chosen_execute hat.running
  rw [hreaches.alongside.queued, hreaches.alongside.background] at hchosen
  have hrun := (hreaches.run.tail hchosen hcomplete)
  rw [h.queued, h.background] at hrun
  have hfree : Chosen env w.queued w.background w₁ (.start t) := by
    have hstart₁ : Chosen env w.queued w₁.background w₁ (.start t) := chosen_start rfl rfl
    rw [show w₁.background = w.background from hbackground] at hstart₁
    exact hstart₁
  have hlt : c < w.contexts.next := hstart.block.lt
  have hold : ∀ x : Nat, x < w.contexts.next → w₁.contexts.context x = w'.contexts.context x := by
    intro x hx
    have hlt' : x < d := Nat.lt_of_lt_of_le hx h.fresh
    have hxd : x ≠ d := Nat.ne_of_lt hlt'
    have hxe : x ≠ e := Nat.ne_of_lt (Nat.lt_of_lt_of_le hlt' hde)
    simp only [w₁, Contexts.modify_ne w''.contexts _ hxe]
    exact hreaches.alongside.contexts x hxd (Nat.lt_of_lt_of_le hx h.nextContext)
  have hhere : w₂.contexts.context c =
      { w.contexts.context c with ins := (w.contexts.context c).ins + 1 } :=
    (hold c hlt).trans h.here
  have hnextTask : w.nextTask < w''.nextTask := by
    have hle := hreaches.alongside.nextTask
    rw [h.nextTask] at hle
    exact hle
  have htask₂ : w₂.tasks t = { w.tasks t with
      state := .RUNNING, resval := f'.resval, entityStack := f.stack } := by
    simp [w₂]
  refine ⟨w₂, ⟨(h.run.trans hrun).tail hfree hresume, rfl, rfl, hbackground,
    Nat.le_of_lt hnextTask, Nat.le_trans h.nextContext hreaches.alongside.nextContext, ?_, ?_, ?_,
    ?_, ?_, ?_⟩, ?_⟩
  · intro id hid hidlt
    have hidc : id ≠ child := by
      rw [h.new]
      exact Nat.ne_of_lt hidlt
    simp only [w₂, w₁, Function.update_of_ne hid, Function.update_of_ne hidc]
    rw [hreaches.alongside.tasks id hidc (by rw [h.nextTask]; exact Nat.lt_succ_of_lt hidlt),
      h.tasks id hid hidlt]
  · rw [htask₂]
  · rw [htask₂]
  · intro x hx hxlt
    exact (hold x hxlt).trans (h.contexts x hx hxlt)
  · rw [hhere]
  · exact (h.program.trans hreaches.alongside.program).trans hprogram
  · refine ⟨rfl, ⟨?_, ?_, Nat.lt_trans hstart.block.created hnextTask,
      Nat.lt_of_lt_of_le hlt (Nat.le_trans h.nextContext hreaches.alongside.nextContext)⟩, ?_, ?_, ?_,
      ⟨?_, ?_, ?_, ?_⟩⟩
    · rw [htask₂]
      exact hstart.block.current
    · rw [hhere]
      exact hstart.block.parent
    · rw [hhere]
      simp only [hstart.ins, Nat.cast_add, Nat.cast_one]
    · rw [hhere]
      exact hstart.error
    · unfold World.scene Scene.withFrame
      rw [htask₂, Scene.mk.injEq]
      refine ⟨rfl, ?_, rfl, rfl⟩
      exact Contexts.view_modify w''.contexts e (fun x => { x with ins := x.ins + 1 }) fun x => rfl
    · rw [htask₂]
    · rw [htask₂]
      exact hstart.ready.childTaskHasError
    · intro id hid
      have hready := hstart.ready.queued id hid
      exact ⟨hready.1, Nat.lt_trans hready.2 hnextTask⟩
    · intro id hid
      have hready := hstart.ready.waiting id hid
      exact ⟨hready.1, Nat.lt_trans hready.2 hnextTask⟩

end Calls

end JeffVm
