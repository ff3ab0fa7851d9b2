import JeffVm.Isolation
import JeffVm.Scheduling

/-!
# Errors on their way to the caller

An error that no block of a task handles ends the task and is pending in its caller when that
is resumed. The test at the resumption is for the class `Error` itself, the test of `raise` for
any class that inherits from it.
-/

set_option autoImplicit false

namespace JeffVm

variable {env : Env} {w w' : World} {t : TaskId} {c : Nat} {err : ObjectId}

/-! ## Chains of callers -/

/-- No block of the task has a handler. -/
def World.NoHandler (w : World) (t : TaskId) : Prop :=
  ∀ c, (w.tasks t).current = some c → ∀ d ∈ w.contexts.chain c, (w.contexts.context d).catchIns < 0

/-- The tasks that wait, one for the other, for the call in which `t` runs, up to the nearest
with a handler in its current block, or up to a task without a parent when there is none. -/
inductive CallChain (w : World) : TaskId → List TaskId → Bool → Prop where
  | handled {t : TaskId} {c : ContextId} (hcurrent : (w.tasks t).current = some c)
      (hcatch : 0 ≤ (w.contexts.context c).catchIns) : CallChain w t [] true
  | top {t : TaskId} {c : ContextId} (hcurrent : (w.tasks t).current = some c)
      (hnone : w.NoHandler t) (hparent : (w.tasks t).parentTask = none) : CallChain w t [] false
  | call {t caller : TaskId} {callers : List TaskId} {caught : Bool} {c : ContextId}
      (hcurrent : (w.tasks t).current = some c) (hnone : w.NoHandler t)
      (hparent : (w.tasks t).parentTask = some caller)
      (hdependent : caller ∈ (w.tasks t).dependentTasks)
      (hwaits : (w.tasks caller).state = .WAITING) (hnew : t ∉ caller :: callers)
      (hcallers : CallChain w caller callers caught) : CallChain w t (caller :: callers) caught

/-- What matters of a task and its blocks to the tasks that it waits for. -/
structure SameTask (w w' : World) (s : TaskId) : Prop where
  current : (w'.tasks s).current = (w.tasks s).current
  parentTask : (w'.tasks s).parentTask = (w.tasks s).parentTask
  dependentTasks : (w.tasks s).dependentTasks ⊆ (w'.tasks s).dependentTasks
  previous : ∀ c, (w.tasks s).current = some c → ∀ d ∈ w.contexts.chain c,
    (w'.contexts.context d).previous = (w.contexts.context d).previous
  catchIns : ∀ c, (w.tasks s).current = some c → ∀ d ∈ w.contexts.chain c,
    (w'.contexts.context d).catchIns = (w.contexts.context d).catchIns

theorem SameTask.refl (w : World) (s : TaskId) : SameTask w w s :=
  ⟨rfl, rfl, List.Subset.refl _, fun _ _ _ _ => rfl, fun _ _ _ _ => rfl⟩

theorem SameTask.chain {s : TaskId} (h : SameTask w w' s) {c : ContextId}
    (hc : (w.tasks s).current = some c) : w'.contexts.chain c = w.contexts.chain c :=
  Contexts.chain_congr (h.previous c hc)

theorem SameTask.trans {w'' : World} {s : TaskId} (h : SameTask w w' s)
    (h' : SameTask w' w'' s) : SameTask w w'' s where
  current := h'.current.trans h.current
  parentTask := h'.parentTask.trans h.parentTask
  dependentTasks := List.Subset.trans h.dependentTasks h'.dependentTasks
  previous := by
    intro c hc d hd
    have hd' : d ∈ w'.contexts.chain c := by rwa [h.chain hc]
    rw [h'.previous c (h.current.trans hc) d hd', h.previous c hc d hd]
  catchIns := by
    intro c hc d hd
    have hd' : d ∈ w'.contexts.chain c := by rwa [h.chain hc]
    rw [h'.catchIns c (h.current.trans hc) d hd', h.catchIns c hc d hd]

theorem SameTask.noHandler {s : TaskId} (h : SameTask w w' s)
    (hw : w.NoHandler s) : w'.NoHandler s := by
  intro c hc d hd
  have hold := h.current.symm.trans hc
  rw [h.chain hold] at hd
  rw [h.catchIns c hold d hd]
  exact hw c hold d hd

/-- A chain depends only on its own tasks. -/
theorem CallChain.congr {callers : List TaskId} {caught : Bool} (h : CallChain w t callers caught)
    (hsame : ∀ s ∈ t :: callers, SameTask w w' s)
    (hstate : ∀ s ∈ callers, (w'.tasks s).state = (w.tasks s).state) :
    CallChain w' t callers caught := by
  induction h with
  | handled hcurrent hcatch =>
    have hs := hsame _ List.mem_cons_self
    refine .handled (hs.current.trans hcurrent) ?_
    rw [hs.catchIns _ hcurrent _ (by rw [Contexts.chain_eq]; exact List.mem_cons_self)]
    exact hcatch
  | top hcurrent hnone hparent =>
    have hs := hsame _ List.mem_cons_self
    exact .top (hs.current.trans hcurrent) (hs.noHandler hnone) (hs.parentTask.trans hparent)
  | call hcurrent hnone hparent hdependent hwaits hnew _ ih =>
    have hs := hsame _ List.mem_cons_self
    refine .call (hs.current.trans hcurrent) (hs.noHandler hnone) (hs.parentTask.trans hparent)
      (hs.dependentTasks hdependent) ?_ hnew ?_
    · rw [hstate _ List.mem_cons_self, hwaits]
    · apply ih
      · intro s hs
        exact hsame s (List.mem_cons_of_mem _ hs)
      · intro s hs
        exact hstate s (List.mem_cons_of_mem _ hs)

theorem CallChain.current {callers : List TaskId} {caught : Bool}
    (h : CallChain w t callers caught) : ∃ c, (w.tasks t).current = some c := by
  cases h with
  | handled hcurrent => exact ⟨_, hcurrent⟩
  | top hcurrent => exact ⟨_, hcurrent⟩
  | call hcurrent => exact ⟨_, hcurrent⟩

theorem CallChain.notMem {callers : List TaskId} {caught : Bool}
    (h : CallChain w t callers caught) : t ∉ callers := by
  cases h with
  | handled => exact List.not_mem_nil
  | top => exact List.not_mem_nil
  | call _ _ _ _ _ hnew => exact hnew

/-! ## The way of an error -/

/-- A task of the chain is as before to the others; if it is queued it stays so. -/
structure Undisturbed (w w' : World) (s : TaskId) : Prop extends SameTask w w' s where
  state : (w'.tasks s).state = (w.tasks s).state
  resval : (w'.tasks s).resval = (w.tasks s).resval
  flag : (w.tasks s).childTaskHasError = true → (w'.tasks s).childTaskHasError = true
  queued : s ∈ w.queued → s ∈ w'.queued

/-- A step of other tasks: it leaves the waiting tasks of the chain alone, and the class of
the error. -/
def LeavesAlone (env : Env) (ts : List TaskId) (err : ObjectId) (w : World) (e : Event) : Prop :=
  ∀ w', processStep env w e = some w' →
    (∀ s ∈ ts, Undisturbed w w' s) ∧ w'.store.cls err = w.store.cls err

/-- The error that is pending in the running task ends it and, with other tasks between, each
of its callers, up to the last, which resumes at its catch position or, without a handler,
ends in an error. -/
def Propagates (env : Env) (err : ObjectId) (caught : Bool) :
    List TaskId → World → TaskId → ContextId → Prop
  | [], w, t, c =>
    if caught then
      ∃ w', w.fetch t c = some (true, w') ∧ (w'.tasks t).current = some c ∧
        (w'.contexts.context c).ins = (w.contexts.context c).catchIns ∧
        (w'.contexts.context c).error = none ∧ (w'.tasks t).resval = .obj err
    else
      ∃ w', w.iterate env t c = some (w', .stopped) ∧ (w'.tasks t).state = .ERROR ∧
        (w'.tasks t).resval = .obj err
  | caller :: callers, w, t, _ =>
    ∃ w₁, processStep env w .execute = some w₁ ∧ (w₁.tasks t).state = .ERROR ∧
      ∀ w₂, RunsIn (processStep env) (LeavesAlone env (caller :: callers) err) w₁ w₂ →
        w₂.running = none →
        ∃ w₃ c', processStep env w₂ (.start caller) = some w₃ ∧ w₃.running = some (caller, c') ∧
          Propagates env err caught callers w₃ caller c'

/-- An error is pending in the current block of the running task. -/
structure Pending (w : World) (t : TaskId) (c : ContextId) (err : ObjectId) : Prop where
  running : w.running = some (t, c)
  current : (w.tasks t).current = some c
  error : (w.contexts.context c).error = some err
  resval : (w.tasks t).resval = .obj err

/-- The running task fails: its caller is queued with the error. -/
theorem Pending.fails {caller : TaskId} (env : Env) (h : Pending w t c err)
    (hnone : w.NoHandler t) (hparent : (w.tasks t).parentTask = some caller)
    (hdependent : caller ∈ (w.tasks t).dependentTasks)
    (hwaits : (w.tasks caller).state = .WAITING) (hne : t ≠ caller) :
    ∃ w', processStep env w .execute = some w' ∧ (w'.tasks t).state = .ERROR ∧
      w'.running = none ∧ caller ∈ w'.queued ∧ (w'.tasks caller).childTaskHasError = true ∧
      (w'.tasks caller).resval = .obj err ∧ w'.store = w.store ∧
      ∀ s, s ≠ t → SameTask w w' s ∧ (w'.tasks s).state = (w.tasks s).state := by
  have hchain := w.contexts.chain_eq c
  have hcatch := hnone c h.current
  have hunwound := World.attempCatchError_none h.current hchain
    (hcatch c (by rw [hchain]; exact List.mem_cons_self))
    (fun d hd => hcatch d (by rw [hchain]; exact List.mem_cons_of_mem c hd))
  generalize hX : (w.unwind t (w.contexts.chain? (w.contexts.context c).previous)
    (w.contexts.context c).ins none).setState t .ERROR = X at hunwound
  have hiterate : w.iterate env t c = some (X, .stopped) := by
    rw [World.iterate, World.fetch, if_pos (by rw [h.error]; rfl), hunwound]
  have hother : ∀ s, s ≠ t → X.tasks s = w.tasks s := by
    intro s hs
    rw [← hX]
    simp [World.setState, World.unwind, World.modifyTask, hs]
  have hself : (X.tasks t).state = .ERROR ∧ (X.tasks t).parentTask = some caller ∧
      (X.tasks t).dependentTasks = (w.tasks t).dependentTasks ∧
        (X.tasks t).resval = .obj err := by
    rw [← hX]
    simp [World.unwind, World.modifyTask, hparent, h.resval]
  have hcontext : ∀ d, (X.contexts.context d).previous = (w.contexts.context d).previous ∧
      (X.contexts.context d).catchIns = (w.contexts.context d).catchIns := by
    intro d
    rw [← hX]
    constructor
    · rw [show ((w.unwind t _ _ none).setState t .ERROR).contexts =
        (w.unwind t _ _ none).contexts from rfl, World.unwind_context]
      split <;> rfl
    · exact World.unwind_catchIns w t _ _ none d
  have hstore : X.store = w.store := by rw [← hX]; rfl
  have hstop : X.stop env t = some ((({ X with running := none } : World).modifyTask caller
      fun x => { x with childTaskHasError := true }).markTaskComplete t) := by
    unfold World.stop
    simp only [hself.1, hself.2.1]
  have hstep : processStep env w .execute = X.stop env t := by
    simp only [processStep, h.running, hiterate]
  have hwakes := World.wakes_markTaskComplete (({ X with running := none } : World).modifyTask
    caller fun x => { x with childTaskHasError := true }) t
  rw [hstop] at hstep
  generalize (({ X with running := none } : World).modifyTask caller
    fun x => { x with childTaskHasError := true }).markTaskComplete t = w' at hstep hwakes
  generalize hY : ({ X with running := none } : World).modifyTask caller
    (fun x => { x with childTaskHasError := true }) = Y at hwakes
  have hY_other : ∀ s, s ≠ caller → Y.tasks s = X.tasks s := by
    intro s hs
    rw [← hY]
    simp [World.modifyTask, hs]
  have hY_caller : Y.tasks caller = { X.tasks caller with childTaskHasError := true } := by
    rw [← hY]
    simp [World.modifyTask]
  have hwoken : caller ∈ Y.woken t := by
    rw [World.woken, hY_other t hne, hself.2.2.1]
    simp [hY_caller, hother caller hne.symm, hwaits, hdependent]
  have hself' : t ∉ Y.woken t := by
    simp [World.woken, hY_other t hne, hself.1]
  have hY_same : ∀ s, s ≠ t → (Y.tasks s).current = (w.tasks s).current ∧
      (Y.tasks s).parentTask = (w.tasks s).parentTask ∧
      (Y.tasks s).dependentTasks = (w.tasks s).dependentTasks ∧
      (Y.tasks s).state = (w.tasks s).state := by
    intro s hs
    by_cases hsc : s = caller
    · rw [hsc, hY_caller, hother caller hne.symm]
      exact ⟨rfl, rfl, rfl, rfl⟩
    · rw [hY_other s hsc, hother s hs]
      exact ⟨rfl, rfl, rfl, rfl⟩
  have htask : ∀ s, (w'.tasks s).current = (Y.tasks s).current ∧
      (w'.tasks s).parentTask = (Y.tasks s).parentTask ∧
      (w'.tasks s).dependentTasks = (Y.tasks s).dependentTasks ∧
      (w'.tasks s).state = (Y.tasks s).state := by
    intro s
    rw [hwakes.tasks]
    split <;> exact ⟨rfl, rfl, rfl, rfl⟩
  have hcaller : w'.tasks caller =
      { w.tasks caller with childTaskHasError := true, resval := .obj err } := by
    rw [hwakes.tasks, if_pos hwoken, hY_caller, hother caller hne.symm, hY_other t hne,
      hself.2.2.2]
  have hcontexts : w'.contexts = X.contexts := by
    rw [hwakes.contexts, ← hY]
    rfl
  refine ⟨w', hstep, ?_, ?_, ?_, ?_, ?_, ?_, ?_⟩
  · rw [hwakes.tasks, if_neg hself', hY_other t hne, hself.1]
  · rw [hwakes.running, ← hY]
    rfl
  · rw [hwakes.queued]
    exact List.mem_append_right _ hwoken
  · rw [hcaller]
  · rw [hcaller]
  · rw [hwakes.store, ← hY]
    exact hstore
  · intro s hs
    obtain ⟨hcurrent', hparent', hdependents', hstate'⟩ := htask s
    obtain ⟨hcurrent, hparent, hdependents, hstate⟩ := hY_same s hs
    refine ⟨⟨hcurrent'.trans hcurrent, hparent'.trans hparent,
      (by rw [hdependents', hdependents]; exact List.Subset.refl _), ?_, ?_⟩, hstate'.trans hstate⟩
    · intro d _ e _
      rw [hcontexts, (hcontext e).1]
    · intro d _ e _
      rw [hcontexts, (hcontext e).2]

/-- The caller is resumed with the error pending, if its class is `Error`. -/
theorem start_flagged (env : Env) (hrunning : w.running = none) (hqueued : t ∈ w.queued)
    (hflag : (w.tasks t).childTaskHasError = true) (hresval : (w.tasks t).resval = .obj err)
    (hcurrent : (w.tasks t).current = some c) :
    if w.store.cls err = .Error then
      ∃ w', processStep env w (.start t) = some w' ∧ Pending w' t c err ∧ w'.store = w.store ∧
        (∀ s, SameTask w w' s) ∧ ∀ s, s ≠ t → (w'.tasks s).state = (w.tasks s).state
    else processStep env w (.start t) = none := by
  have hstep : processStep env w (.start t) = w.start t := by
    simp only [processStep, if_pos (And.intro hrunning hqueued)]
  rw [hstep]
  unfold World.start
  simp only [World.setState_current, hcurrent]
  have hflag' : ((w.setState t .RUNNING).tasks t).childTaskHasError = true := by
    simpa [World.setState, World.modifyTask] using hflag
  simp only [hflag', if_true, World.setState_resval, hresval]
  by_cases hcls : w.store.cls err = .Error
  · rw [if_pos hcls]
    have hcls' : (w.setState t .RUNNING).store.cls err = .Error := hcls
    simp only [if_pos hcls']
    refine ⟨_, rfl, ⟨rfl, ?_, ?_, ?_⟩, rfl, ?_, ?_⟩
    · simp [World.modifyContext, World.modifyTask, World.setState, hcurrent]
    · simp [World.modifyContext, World.modifyTask, World.setState]
    · simp [World.modifyContext, World.modifyTask, World.setState, hresval]
    · intro s
      have hcontext : ∀ d, ((w.contexts.modify c fun x => { x with error := some err }).context
          d).previous = (w.contexts.context d).previous ∧
          ((w.contexts.modify c fun x => { x with error := some err }).context d).catchIns =
            (w.contexts.context d).catchIns := by
        intro d
        by_cases hd : d = c
        · subst hd
          simp
        · simp [hd]
      by_cases hs : s = t
      · subst hs
        exact ⟨by simp [World.modifyContext, World.modifyTask, World.setState],
          by simp [World.modifyContext, World.modifyTask, World.setState],
          by simp [World.modifyContext, World.modifyTask, World.setState],
          fun _ _ d _ => (hcontext d).1, fun _ _ d _ => (hcontext d).2⟩
      · exact ⟨by simp [World.modifyContext, World.modifyTask, World.setState, hs],
          by simp [World.modifyContext, World.modifyTask, World.setState, hs],
          by simp [World.modifyContext, World.modifyTask, World.setState, hs],
          fun _ _ d _ => (hcontext d).1, fun _ _ d _ => (hcontext d).2⟩
    · intro s hs
      simp [World.modifyContext, World.modifyTask, World.setState, hs]
  · rw [if_neg hcls]
    have hcls' : ¬ (w.setState t .RUNNING).store.cls err = .Error := hcls
    simp only [if_neg hcls']

theorem Undisturbed.refl (w : World) (s : TaskId) : Undisturbed w w s :=
  ⟨.refl w s, rfl, rfl, id, id⟩

theorem Undisturbed.trans {w'' : World} {s : TaskId} (h : Undisturbed w w' s)
    (h' : Undisturbed w' w'' s) : Undisturbed w w'' s where
  toSameTask := h.toSameTask.trans h'.toSameTask
  state := h'.state.trans h.state
  resval := h'.resval.trans h.resval
  flag hs := h'.flag (h.flag hs)
  queued hs := h'.queued (h.queued hs)

/-- What the steps of other tasks keep. -/
theorem undisturbed_of_leavesAlone {ts : List TaskId} {w₁ w₂ : World}
    (h : RunsIn (processStep env) (LeavesAlone env ts err) w₁ w₂) :
    (∀ s ∈ ts, Undisturbed w₁ w₂ s) ∧ w₂.store.cls err = w₁.store.cls err := by
  induction h with
  | refl => exact ⟨fun s _ => .refl _ s, rfl⟩
  | tail _ hleaves hstep ih =>
    obtain ⟨hkept, hcls⟩ := hleaves _ hstep
    exact ⟨fun s hs => (ih.1 s hs).trans (hkept s hs), hcls.trans ih.2⟩

/-- At the end of the chain the class of the error does not matter. -/
theorem Pending.propagates_nil (env : Env) {caught : Bool} (hp : Pending w t c err)
    (hchain : CallChain w t [] caught) : Propagates env err caught [] w t c := by
  cases hchain with
  | handled hcurrent hcatch =>
    obtain rfl := Option.some.inj (hp.current.symm.trans hcurrent)
    rw [Propagates, if_pos rfl]
    refine ⟨_, World.fetch_here (by rw [hp.error]; rfl) hcatch, ?_, ?_, ?_, ?_⟩
    · exact hcurrent
    · simp [World.resumeAt, World.modifyContext]
    · simp [World.resumeAt, World.modifyContext]
    · exact hp.resval
  | top hcurrent hnone hparent =>
    have hblocks := w.contexts.chain_eq c
    have hcatch := hnone c hp.current
    have hunwound := World.attempCatchError_none hp.current hblocks
      (hcatch c (by rw [hblocks]; exact List.mem_cons_self))
      (fun d hd => hcatch d (by rw [hblocks]; exact List.mem_cons_of_mem c hd))
    have hiterate : w.iterate env t c = some ((w.unwind t
        (w.contexts.chain? (w.contexts.context c).previous) (w.contexts.context c).ins
          none).setState t .ERROR, .stopped) := by
      rw [World.iterate, World.fetch, if_pos (by rw [hp.error]; rfl), hunwound]
    rw [Propagates, if_neg Bool.false_ne_true]
    exact ⟨_, hiterate, by simp, by simp [hp.resval]⟩

theorem Pending.propagates (env : Env) (caught : Bool) : ∀ {callers : List TaskId} {w : World}
    {t : TaskId} {c : Nat}, Pending w t c err → CallChain w t callers caught →
      w.store.cls err = .Error → Propagates env err caught callers w t c := by
  intro callers
  induction callers with
  | nil =>
    intro w t c hp hchain _
    exact hp.propagates_nil env hchain
  | cons caller callers ih =>
    intro w t c hp hchain hcls
    cases hchain with
    | call hcurrent hnone hparent hdependent hwaits hnew hcallers =>
      have hne : t ≠ caller := fun heq => hnew (heq ▸ List.mem_cons_self)
      have hold : ∀ s ∈ caller :: callers, s ≠ t := by
        rintro s hs rfl
        exact hnew hs
      obtain ⟨w₁, hstep, herror, hidle, hqueued, hflag, hresval, hstore, hsame⟩ :=
        hp.fails env hnone hparent hdependent hwaits hne
      refine ⟨w₁, hstep, herror, fun w₂ hrun hrunning => ?_⟩
      obtain ⟨hkept, hcls₂⟩ := undisturbed_of_leavesAlone hrun
      have hcaller := hkept caller List.mem_cons_self
      obtain ⟨c', hc'⟩ := hcallers.current
      have hc₂ : (w₂.tasks caller).current = some c' := by
        rw [hcaller.current, (hsame caller hne.symm).1.current, hc']
      have hstart := start_flagged env hrunning (hcaller.queued hqueued) (hcaller.flag hflag)
        (hcaller.resval.trans hresval) hc₂
      have herr : w₂.store.cls err = .Error := by rw [hcls₂, hstore, hcls]
      rw [if_pos herr] at hstart
      obtain ⟨w₃, hstart, hpending, hstore₃, hsame₃, hstate₃⟩ := hstart
      have hsame' : ∀ s ∈ caller :: callers, SameTask w w₃ s := by
        intro s hs
        exact ((hsame s (hold s hs)).1.trans (hkept s hs).toSameTask).trans (hsame₃ s)
      refine ⟨w₃, c', hstart, hpending.running, ih hpending (hcallers.congr hsame' ?_) ?_⟩
      · intro s hs
        have hs' := List.mem_cons_of_mem caller hs
        have hsc : s ≠ caller := by
          rintro rfl
          exact hcallers.notMem hs
        rw [hstate₃ s hsc, (hkept s hs').state, (hsame s (hold s hs')).2]
      · rw [hstore₃, herr]

/-- The instruction `raise` leaves the error pending and the chain of calls as it is. -/
theorem raise_pending (env : Env) {arg : Arg} {callers : List TaskId} {caught : Bool}
    (hrunning : w.running = some (t, c)) (hcurrent : (w.tasks t).current = some c)
    (hsettled : (w.contexts.context c).error = none) (hins : w.contextIns c = some ⟨.RAIS, arg⟩)
    (hresval : (w.tasks t).resval = .obj err)
    (hinherits : w.store.inheritsFrom (w.store.cls err) .Error = true)
    (hchain : CallChain w t callers caught) :
    ∃ w₁, processStep env w .execute = some w₁ ∧ Pending w₁ t c err ∧
      CallChain w₁ t callers caught ∧ w₁.store = w.store := by
  have hraise : execute env w t c ⟨.RAIS, arg⟩ = some (.raise (w.frame t) err) := by
    simp only [execute, executeRAIS, World.frame, hresval, if_pos hinherits]
  have hiterate : w.iterate env t c = some (w.raised t c (w.frame t) err, .running c) := by
    have hfetch : w.fetch t c = some (true, w) := by
      rw [World.fetch, hsettled]
      rfl
    simp only [World.iterate, hfetch, hins, hraise, apply_raise]
  have hstep : processStep env w .execute =
      some { w.raised t c (w.frame t) err with running := some (t, c) } := by
    simp only [processStep, hrunning, hiterate]
  have htask := raised_task w t c (w.frame t) err
  have hpending : Pending { w.raised t c (w.frame t) err with running := some (t, c) } t c err := by
    refine ⟨rfl, htask.1.trans hcurrent, ?_, htask.2⟩
    change ((w.raised t c (w.frame t) err).contexts.context c).error = some err
    rw [raised_context_self]
  have hother : ∀ s, s ≠ t → (w.raised t c (w.frame t) err).tasks s = w.tasks s := by
    intro s hs
    simp [World.raised, World.incIns, World.modifyContext, World.setFrame, World.modifyTask, hs]
  have hself : ((w.raised t c (w.frame t) err).tasks t).parentTask = (w.tasks t).parentTask ∧
      ((w.raised t c (w.frame t) err).tasks t).dependentTasks = (w.tasks t).dependentTasks := by
    simp [World.raised, World.incIns, World.modifyContext, World.setFrame, World.modifyTask]
  have hcontext : ∀ d, ((w.raised t c (w.frame t) err).contexts.context d).previous =
        (w.contexts.context d).previous ∧
      ((w.raised t c (w.frame t) err).contexts.context d).catchIns =
        (w.contexts.context d).catchIns := by
    intro d
    by_cases hd : d = c
    · rw [hd, raised_context_self]
      exact ⟨rfl, rfl⟩
    · rw [raised_context_ne w t _ err hd]
      exact ⟨rfl, rfl⟩
  refine ⟨_, hstep, hpending, ?_, rfl⟩
  apply hchain.congr
  · intro s _
    by_cases hs : s = t
    · subst hs
      exact ⟨htask.1, hself.1, hself.2 ▸ List.Subset.refl _, fun _ _ d _ => (hcontext d).1,
        fun _ _ d _ => (hcontext d).2⟩
    · exact ⟨by rw [hother s hs], by rw [hother s hs],
        by rw [hother s hs]; exact List.Subset.refl _, fun _ _ d _ => (hcontext d).1,
        fun _ _ d _ => (hcontext d).2⟩
  · intro s hs
    have hne : s ≠ t := by
      rintro rfl
      exact hchain.notMem hs
    rw [hother s hne]

/-- No caller can be resumed with an error whose class is not `Error`. -/
theorem Pending.class_of_propagates {caller : TaskId} {callers : List TaskId} {caught : Bool}
    (hpending : Pending w t c err) (hchain : CallChain w t (caller :: callers) caught)
    (hpropagates : Propagates env err caught (caller :: callers) w t c) :
    w.store.cls err = .Error := by
  cases hchain with
  | call _ hnone hparent hdependent hwaits hnew hcallers =>
    by_contra hcls
    have hne : t ≠ caller := fun heq => hnew (heq ▸ List.mem_cons_self)
    obtain ⟨w₂, hfails, -, hidle, hqueued, hflag, hresval₂, hstore, hsame⟩ :=
      hpending.fails env hnone hparent hdependent hwaits hne
    obtain ⟨w₂', hfails', -, hresumes⟩ := hpropagates
    obtain rfl := Option.some.inj (hfails.symm.trans hfails')
    -- The caller may be resumed at once, and `start` refuses the error.
    obtain ⟨w₃, c', hstart, -⟩ := hresumes w₂ (.refl w₂) hidle
    obtain ⟨d, hd⟩ := hcallers.current
    have hrefused := start_flagged env hidle hqueued hflag hresval₂
      ((hsame caller hne.symm).1.current.trans hd)
    have hcls₂ : ¬ w₂.store.cls err = .Error := by
      rw [hstore]
      exact hcls
    rw [if_neg hcls₂, hstart] at hrefused
    cases hrefused

/-- A module that calls a function in a `try` block; the function raises `e`, an object of the
class `cls`. -/
def raiseStore (cls : ClassId) : Store where
  objects := fun o =>
    if o = 0 then ⟨.Module, ⟨[("e", .obj 2)], by decide⟩, .moduleObj 0⟩
    else if o = 1 then ⟨.Function, .empty, .functionObj 0⟩
    else ⟨cls, .empty, .none⟩
  nextObject := 3
  classes := fun _ => ⟨"MyError", [.Error, .Object], .empty, 0⟩
  functions := fun _ => ⟨"f", 0, false, false, false, false, 6, 1⟩
  modules := fun _ => ⟨"m",
    [⟨.NBLK, .noArg⟩, ⟨.CTCH, .val (.int 3)⟩, ⟨.RES, .id "f"⟩, ⟨.PUSH, .noArg⟩, ⟨.CLLN, .noArg⟩,
      ⟨.RET, .noArg⟩, ⟨.RES, .id "e"⟩, ⟨.RAIS, .noArg⟩],
    .empty, ⟨[("f", 0)], by decide⟩, 0, true⟩
  builtin := 0

/-- The function is about to raise. -/
def raiseRun (cls : ClassId) : Option World :=
  runSteps (processStep noNatives) (World.boot (raiseStore cls) 0)
    [.start 0, .execute, .execute, .execute, .execute, .execute, .start 1, .execute]

theorem raiseRun_chain {cls : ClassId} (h : cls = .Error ∨ cls = .user 0) :
    ∃ w, raiseRun cls = some w ∧ w.running = some (1, 2) ∧ (w.tasks 1).current = some 2 ∧
      (w.contexts.context 2).error = none ∧ w.contextIns 2 = some ⟨.RAIS, .noArg⟩ ∧
      (w.tasks 1).resval = .obj 2 ∧ w.store.inheritsFrom (w.store.cls 2) .Error = true ∧
      w.store.cls 2 = cls ∧ CallChain w 1 [0] true := by
  have hrun : ∃ w, raiseRun cls = some w ∧ w.running = some (1, 2) ∧
      (w.contexts.context 2).error = none ∧ w.contextIns 2 = some ⟨.RAIS, .noArg⟩ ∧
      (w.tasks 1).resval = .obj 2 ∧ w.store.inheritsFrom (w.store.cls 2) .Error = true ∧
      w.store.cls 2 = cls ∧ (w.tasks 1).current = some 2 ∧ (w.tasks 1).parentTask = some 0 ∧
      (w.tasks 1).dependentTasks = [0] ∧ (w.tasks 0).state = .WAITING ∧
      (w.tasks 0).current = some 1 ∧ (w.contexts.context 1).catchIns = 5 ∧
      (w.contexts.context 2).catchIns = -1 ∧ (w.contexts.context 2).previous = none := by
    rcases h with rfl | rfl
    · exact ⟨_, rfl, rfl, rfl, rfl, rfl, rfl, rfl, rfl, rfl, rfl, rfl, rfl, rfl, rfl, rfl⟩
    · exact ⟨_, rfl, rfl, rfl, rfl, rfl, rfl, rfl, rfl, rfl, rfl, rfl, rfl, rfl, rfl, rfl⟩
  obtain ⟨w, hrun, hrunning, herror, hins, hresval, hinherits, hcls, hcurrent, hparent,
    hdependents, hwaits, hcaller, hcatch, hnone, hprevious⟩ := hrun
  refine ⟨w, hrun, hrunning, hcurrent, herror, hins, hresval, hinherits, hcls, ?_⟩
  refine .call hcurrent ?_ hparent (hdependents ▸ List.mem_cons_self) hwaits (by decide) ?_
  · intro c hc d hd
    obtain rfl := Option.some.inj (hcurrent.symm.trans hc)
    rw [Contexts.chain_eq, hprevious] at hd
    obtain rfl := List.mem_singleton.mp hd
    rw [hnone]
    decide
  · refine .handled hcaller ?_
    rw [hcatch]
    decide

/-- An error that `raise` accepts reaches the nearest handler in the chain of calls, or the
task without a parent, just when it is raised there or its class is `Error` itself. -/
theorem raise_propagates_iff (env : Env) (w : World) (t : TaskId) (c : Nat) (err : ObjectId)
    (callers : List TaskId) (caught : Bool) (arg : Arg) (hrunning : w.running = some (t, c))
    (hcurrent : (w.tasks t).current = some c) (hsettled : (w.contexts.context c).error = none)
    (hins : w.contextIns c = some ⟨.RAIS, arg⟩) (hresval : (w.tasks t).resval = .obj err)
    (hinherits : w.store.inheritsFrom (w.store.cls err) .Error = true)
    (hchain : CallChain w t callers caught) :
    (∃ w₁, processStep env w .execute = some w₁ ∧ w₁.running = some (t, c) ∧
      Propagates env err caught callers w₁ t c) ↔
        callers = [] ∨ w.store.cls err = .Error := by
  obtain ⟨w₁, hstep, hpending, hraised, hstore⟩ :=
    raise_pending env hrunning hcurrent hsettled hins hresval hinherits hchain
  constructor
  · rintro ⟨w₁', hstep', -, hpropagates⟩
    obtain rfl := Option.some.inj (hstep.symm.trans hstep')
    cases callers with
    | nil => exact .inl rfl
    | cons caller callers =>
      right
      rw [← hstore]
      exact hpending.class_of_propagates hraised hpropagates
  · intro hcls
    refine ⟨w₁, hstep, hpending.running, ?_⟩
    rcases hcls with rfl | hcls
    · exact hpending.propagates_nil env hraised
    · exact hpending.propagates env caught hraised (hstore ▸ hcls)

/-- An `Error` reaches the `try` block of the caller. -/
theorem raise_propagates_error : ∃ w w₁, raiseRun .Error = some w ∧
    processStep noNatives w .execute = some w₁ ∧ Propagates noNatives 2 true [0] w₁ 1 2 := by
  obtain ⟨w, hrun, hrunning, hcurrent, herror, hins, hresval, hinherits, hcls, hchain⟩ :=
    raiseRun_chain (.inl rfl)
  obtain ⟨w₁, hstep, -, hpropagates⟩ := (raise_propagates_iff noNatives w 1 2 2 [0] true .noArg
    hrunning hcurrent herror hins hresval hinherits hchain).mpr (.inr hcls)
  exact ⟨w, w₁, hrun, hstep, hpropagates⟩

/-- An error of a class that inherits from `Error` does not. -/
theorem not_raise_propagates : ¬ ∀ (env : Env) (w : World) (t : TaskId) (c : Nat) (err : ObjectId)
    (callers : List TaskId) (caught : Bool) (arg : Arg), w.running = some (t, c) →
    (w.tasks t).current = some c → (w.contexts.context c).error = none →
    w.contextIns c = some ⟨.RAIS, arg⟩ → (w.tasks t).resval = .obj err →
    w.store.inheritsFrom (w.store.cls err) .Error = true → CallChain w t callers caught →
    ∃ w₁, processStep env w .execute = some w₁ ∧ w₁.running = some (t, c) ∧
      Propagates env err caught callers w₁ t c := by
  intro h
  obtain ⟨w, -, hrunning, hcurrent, herror, hins, hresval, hinherits, hcls, hchain⟩ :=
    raiseRun_chain (.inr rfl)
  obtain ⟨w₁, hstep, hpending, hraised, hstore⟩ :=
    raise_pending noNatives hrunning hcurrent herror hins hresval hinherits hchain
  obtain ⟨w₁', hstep', -, hpropagates⟩ := h noNatives w 1 2 2 [0] true .noArg hrunning hcurrent
    herror hins hresval hinherits hchain
  obtain rfl := Option.some.inj (hstep.symm.trans hstep')
  have herr := hpending.class_of_propagates hraised hpropagates
  rw [hstore, hcls] at herr
  cases herr

end JeffVm
